import ApiSurface.Proofs.Grammar.Layout
import ApiSurface.Proofs.Token.Lexeme

/-!
# Where a file is refused

A file that cannot be read is refused with one diagnostic. It is about a token of the file, says how
this token is written, and perhaps what was expected in its place; and it never points back at what
has been read already: the package declaration, the imports and the types in front of the fault
(`parse_diagnostic`).

The failure that is reported is the furthest of those met on the way, by rules that failed and by
rules that succeeded in another way. So every rule answers for all of them (`Truthful`): as long as
it begins at a token, each failure it hands on is at a token that is not what the failure expected,
and a success ends before a token. Each combinator keeps this property, and so does every scheme
whose rules for one token have it (`Scheme.truthful`). No rule but the last of a file takes the end
of the input, which is why there always is a token. The last rule fails behind the types of the
file, and of two failures the further one counts.
-/

namespace ApiSurface

variable {α β γ : Type}

/-! ## Failures that tell the truth -/

/-- An expectation of a merged one was there before. -/
theorem Expectation.of_merge_eq_one {a b : Expectation} {label : String}
    (h : a.merge b = .one label) : a = .one label ∨ b = .one label := by
  cases a with
  | unstated => exact .inr h
  | several =>
    cases b <;> cases h
  | one l =>
    cases b with
    | unstated => exact .inl h
    | several => cases h
    | one m =>
      rw [merge] at h
      split_ifs at h
      exact .inl h

namespace Failure

/-- The failure is at a token, and if it says what it expected, the token is not that. -/
def Truthful (ts : Array Token) (f : Failure) : Prop :=
  ∃ t, ts[f.index]? = some t ∧ ∀ label, f.expected = .one label → Excludes label t

/-- The furthest of two failures is not in front of the first. -/
theorem le_furthest (a b : Failure) : a.index ≤ (a.furthest b).index := by
  unfold furthest
  split_ifs with hlt
  · exact Nat.le_of_lt hlt
  · exact Nat.le_refl _
  · exact Nat.le_refl _

/-- A failure with an alternative is not in front of the failure. -/
theorem le_withAlternative (a : Failure) (b : Option Failure) :
    a.index ≤ (a.withAlternative b).index := by
  cases b with
  | none => exact Nat.le_refl _
  | some b => exact le_furthest a b

variable {ts : Array Token} {a b : Failure}

/-- A failure that expects nothing is true of every token. -/
theorem truthful_unstated {i : Nat} (hi : i < ts.size) : Truthful ts ⟨i, .unstated⟩ :=
  ⟨ts[i], Array.getElem?_eq_getElem hi, fun _ h => nomatch h⟩

/-- The furthest of two truthful failures is truthful. -/
theorem Truthful.furthest (ha : a.Truthful ts) (hb : b.Truthful ts) :
    (a.furthest b).Truthful ts := by
  unfold Failure.furthest
  split_ifs with hlt hgt
  · exact hb
  · exact ha
  · obtain ⟨t, ht, hexpected⟩ := ha
    obtain ⟨u, hu, hexpected'⟩ := hb
    have hindex : a.index = b.index := by omega
    rw [← hindex, ht] at hu
    cases hu
    refine ⟨t, ht, fun label hlabel => ?_⟩
    rcases Expectation.of_merge_eq_one hlabel with h | h
    · exact hexpected label h
    · exact hexpected' label h

/-- A truthful failure with a truthful alternative is truthful. -/
theorem Truthful.withAlternative (ha : a.Truthful ts) {x : Option Failure}
    (hx : ∀ f ∈ x, f.Truthful ts) : (a.withAlternative x).Truthful ts := by
  cases x with
  | none => exact ha
  | some b => exact ha.furthest (hx b rfl)

/-- The furthest of two alternatives that may be missing is truthful if both are. -/
theorem truthful_furthest? {x y : Option Failure} (hx : ∀ f ∈ x, f.Truthful ts)
    (hy : ∀ f ∈ y, f.Truthful ts) : ∀ f ∈ furthest? x y, f.Truthful ts := by
  cases x with
  | none => exact hy
  | some a =>
    intro f hf
    obtain rfl : a.withAlternative y = f := Option.some.inj hf
    exact (hx a rfl).withAlternative hy

end Failure

/-- A success ends before a token, and all failures that are handed on tell the truth. -/
def Outcome.Truthful (ts : Array Token) : Outcome α → Prop
  | .success _ next alternative => next < ts.size ∧ ∀ f ∈ alternative, f.Truthful ts
  | .failure cause => cause.Truthful ts

/-- The last token is the end of the input. -/
def Ended (ts : Array Token) : Prop := ∃ t, ts.back? = some t ∧ t.kind = .eof

/-- Behind any other token there is one more. -/
theorem Ended.lt {ts : Array Token} (h : Ended ts) {i : Nat} {t : Token} (ht : ts[i]? = some t)
    (hkind : t.kind ≠ .eof) : i + 1 < ts.size := by
  obtain ⟨e, he, heof⟩ := h
  obtain ⟨hi, -⟩ := Array.getElem?_eq_some_iff.mp ht
  by_contra hlast
  have hindex : ts.size - 1 = i := by omega
  rw [Array.back?_eq_getElem?, hindex, ht] at he
  cases he
  exact hkind heof

/-- The tokens of a text end with the end of the input. -/
theorem Spelled.ended {ts : List Token} (h : Spelled ts) : Ended ts.toArray := by
  induction h with
  | @done t hkind _ => exact ⟨t, rfl, hkind⟩
  | @token t ts _ hts ih =>
    obtain ⟨e, he, heof⟩ := ih
    refine ⟨e, ?_, heof⟩
    rw [List.back?_toArray] at he ⊢
    rw [List.getLast?_cons_of_ne_nil hts.ne_nil, he]

namespace Rule

/-! ## How rules fail -/

section

variable {ts : Array Token} {i : Nat}

/-- A rule for one token fails at its index, where it reads nothing. -/
theorem token_eq_failure {expected : Expectation} {read : Token → Option α}
    {cause : Failure} (h : token expected read ts i = .failure cause) :
    cause = ⟨i, expected⟩ ∧ ts[i]?.bind read = none := by
  unfold token at h
  split at h
  · cases h
  · cases h
    exact ⟨rfl, ‹_›⟩

/-- Of two rules the first fails, or the second does behind it. -/
theorem bind_eq_failure {r : Rule α} {f : α → Rule β} {cause : Failure}
    (h : (r >>= f) ts i = .failure cause) :
    r ts i = .failure cause ∨ ∃ a j first second, r ts i = .success a j first ∧
      f a ts j = .failure second ∧ cause = second.withAlternative first := by
  rw [bind_apply, Rule.bind] at h
  rcases hr : r ts i with ⟨a, j, first⟩ | cause'
  · rw [hr] at h
    dsimp only at h
    rcases hf : f a ts j with ⟨b, k, second⟩ | second
    · rw [hf] at h
      cases h
    · rw [hf] at h
      cases h
      exact .inr ⟨a, j, first, second, rfl, hf, rfl⟩
  · rw [hr] at h
    cases h
    exact .inl rfl

/-- An option never fails. -/
theorem optional_ne_failure (r : Rule α) (cause : Failure) : optional r ts i ≠ .failure cause := by
  intro h
  rw [Rule.optional] at h
  split at h <;> cases h

/-- Repetition ends without a failure, if only with nothing. -/
theorem many_ne_failure (r : Rule α) (cause : Failure) : many r ts i ≠ .failure cause := by
  induction hn : ts.size - i using Nat.strongRecOn generalizing i with
  | _ n ih =>
    intro h
    rw [many] at h
    rcases hfirst : r ts i with ⟨a, j, first⟩ | cause'
    · rw [hfirst] at h
      dsimp only at h
      split_ifs at h with hlt
      rcases hmore : many r ts j with ⟨more, k, second⟩ | cause'
      · rw [hmore] at h
        cases h
      · rw [hmore] at h
        cases h
        exact ih (ts.size - j) (by omega) rfl hmore
    · rw [hfirst] at h
      cases h

end

/-! ## Rules that tell the truth -/

/-- Where the rule begins at a token, it tells the truth, be it in a success or a failure. -/
def Truthful (r : Rule α) : Prop :=
  ∀ ⦃ts : Array Token⦄ ⦃i : Nat⦄, Ended ts → i < ts.size → (r ts i).Truthful ts

/-- A rule for one token tells the truth if it refuses the end of the input, and what it refuses is
not what it expects. -/
theorem truthful_token {expected : Expectation} {read : Token → Option α}
    (hread : LegibleToken true expected read) : Truthful (token expected read) := by
  intro ts i hts hi
  have ht : ts[i]? = some ts[i] := Array.getElem?_eq_getElem hi
  rw [token, ht, Option.bind_some]
  rcases hvalue : read ts[i] with _ | a
  · exact ⟨ts[i], ht, fun label hexpected => hread.excludes _ label hvalue hexpected⟩
  · refine ⟨hts.lt ht fun hkind => ?_, fun f hf => absurd hf (Option.not_mem_none f)⟩
    rw [hread.ends rfl _ hkind] at hvalue
    cases hvalue

/-- A rule that takes nothing hands on nothing. -/
theorem truthful_pure (a : α) : Truthful (Pure.pure a : Rule α) :=
  fun _ _ _ hi => ⟨hi, fun f hf => absurd hf (Option.not_mem_none f)⟩

/-- The second rule begins at a token, for the first ends before one. -/
theorem truthful_bind {r : Rule α} {f : α → Rule β} (hr : Truthful r) (hf : ∀ a, Truthful (f a)) :
    Truthful (r >>= f) := by
  intro ts i hts hi
  rw [bind_apply, Rule.bind]
  have hfront := hr hts hi
  rcases hfirst : r ts i with ⟨a, j, first⟩ | cause
  · rw [hfirst] at hfront
    have hback := hf a hts hfront.1
    dsimp only
    rcases hsecond : f a ts j with ⟨b, k, second⟩ | cause
    · rw [hsecond] at hback
      exact ⟨hback.1, Failure.truthful_furthest? hfront.2 hback.2⟩
    · rw [hsecond] at hback
      exact Failure.Truthful.withAlternative hback hfront.2
  · rw [hfirst] at hfront
    exact hfront

/-- If both rules fail, the further failure is handed on. -/
theorem truthful_orElse {r s : Rule α} (hr : Truthful r) (hs : Truthful s) :
    Truthful (r <|> s) := by
  intro ts i hts hi
  show (Rule.orElse r (fun _ => s) ts i).Truthful ts
  have hfront := hr hts hi
  have hback := hs hts hi
  rw [Rule.orElse]
  rcases hfirst : r ts i with ⟨a, j, first⟩ | cause
  · rwa [hfirst] at hfront
  · rw [hfirst] at hfront
    rcases hsecond : s ts i with ⟨b, k, second⟩ | cause'
    · rwa [hsecond] at hback
    · rw [hsecond] at hback
      exact Failure.Truthful.furthest hfront hback

/-- Where the rule is missing, its failure is handed on. -/
theorem truthful_optional {r : Rule α} (hr : Truthful r) : Truthful (optional r) := by
  intro ts i hts hi
  have htrue := hr hts hi
  rw [optional]
  rcases hfirst : r ts i with ⟨a, j, first⟩ | cause
  · rwa [hfirst] at htrue
  · rw [hfirst] at htrue
    exact ⟨hi, fun f hf => Option.some.inj hf ▸ htrue⟩

/-- A test of what follows ends where it began. -/
theorem truthful_lookahead {r : Rule α} (hr : Truthful r) : Truthful (lookahead r) := by
  intro ts i hts hi
  have htrue := hr hts hi
  rw [lookahead]
  rcases hfirst : r ts i with ⟨a, j, first⟩ | cause
  · rw [hfirst] at htrue
    exact ⟨hi, htrue.2⟩
  · rwa [hfirst] at htrue

/-- Repetition hands on the failure of every step. -/
theorem truthful_many {r : Rule α} (hr : Truthful r) : Truthful (many r) := by
  intro ts i hts hi
  induction hn : ts.size - i using Nat.strongRecOn generalizing i with
  | _ n ih =>
    have htrue := hr hts hi
    rw [many]
    rcases hfirst : r ts i with ⟨a, j, first⟩ | cause
    · rw [hfirst] at htrue
      dsimp only
      split_ifs with hlt
      · have hmore := ih (ts.size - j) (by omega) htrue.1 rfl
        rcases hsecond : many r ts j with ⟨more, k, second⟩ | cause
        · rw [hsecond] at hmore
          exact ⟨hmore.1, Failure.truthful_furthest? htrue.2 hmore.2⟩
        · rwa [hsecond] at hmore
      · exact ⟨hi, htrue.2⟩
    · rw [hfirst] at htrue
      exact ⟨hi, fun f hf => Option.some.inj hf ▸ htrue⟩

/-- A list with separators is an item, and then steps of a separator and an item. -/
theorem truthful_sepBy1 {r : Rule α} {s : Rule β} (hr : Truthful r) (hs : Truthful s) :
    Truthful (sepBy1 r s) := by
  have hstep : Truthful (discard s >>= fun _ => r) :=
    truthful_bind (truthful_bind hs fun _ => truthful_pure ()) fun _ => hr
  refine truthful_bind hr fun _ => truthful_bind (truthful_many hstep) fun _ => ?_
  exact truthful_pure _

/-- A recursive rule tells the truth if its body does, for any rule in place of the rule itself that
does. -/
theorem truthful_recursive {body : Rule α → Rule α}
    (hbody : ∀ r, Truthful r → Truthful (body r)) : Truthful (recursive body) := by
  refine recursive_induction (fun _ _ _ hi => Failure.truthful_unstated hi) ?_ hbody
  intro r s hs hr ts i hts hi
  rw [hr]
  exact hs _ hts hi

/-- A legible scheme that never takes the end of the input builds a rule that tells the truth, if
the one in the open place does. -/
theorem Scheme.truthful {γ α : Type} {t g : Bool} (s : Scheme γ t g α) (hs : s.Legible true)
    {r : Rule γ} (hr : Truthful r) : Truthful (s.rule r) := by
  induction s with
  | pure a => exact truthful_pure a
  | token expected read => exact truthful_token hs
  | self => exact hr
  | bind s f _ _ ihs ihf => exact truthful_bind (ihs hs.1 hr) fun a => ihf a (hs.2 a) hr
  | orElse s u _ _ ihs ihu => exact truthful_orElse (ihs hs.1 hr) (ihu hs.2 hr)
  | optional s ih => exact truthful_optional (ih hs hr)
  | lookahead s ih => exact truthful_lookahead (ih hs hr)
  | many s ih => exact truthful_many (ih hs hr)
  | sepBy1 s u ihs ihu => exact truthful_sepBy1 (ihs hs.1 hr) (ihu hs.2 hr)
  | recursive s ih => exact truthful_recursive fun _ hr => ih hs hr

/-- The rules of the grammar that never take the end of the input tell the truth. -/
theorem truthful_of_described (r : Rule α) {t g : Bool}
    [h : Described true (fun _ : Rule Empty => r) t g] : Truthful r := by
  rw [← h.rule_eq refuse]
  exact h.scheme.truthful h.legible fun _ _ _ hi => Failure.truthful_unstated hi

end Rule

namespace Grammar

open Rule

/-! ## Whole files -/

/-- The package declaration, the imports and the types at the front of the tokens are read, and end
before the index. -/
inductive ReadUpTo (ts : Array Token) : Nat → Prop
  | mk {package : Option String} {imports : List String} {types : List TypeDecl} {a b n : Nat}
      {x y z : Option Failure} :
      optional packageDeclaration ts 0 = .success package a x →
      many importDeclaration ts a = .success imports b y →
      many topLevelType ts b = .success types n z → ReadUpTo ts n

/-- What a file is refused for is true, and lies behind all that has been read. -/
theorem compileUnit_eq_failure {ts : Array Token} (hts : Ended ts) {cause : Failure}
    (h : compileUnit ts 0 = .failure cause) :
    ∃ n, ReadUpTo ts n ∧ n ≤ cause.index ∧ cause.Truthful ts := by
  have hpos : 0 < ts.size := by
    obtain ⟨t, ht, -⟩ := hts
    exact Array.size_pos_iff.mpr fun hnil => by simp [hnil] at ht
  -- Neither an option nor a repetition fails: it is the rule for the end of the input that does.
  rcases bind_eq_failure h with hfail | ⟨package, a, x, second, hpackage, hrest, rfl⟩
  · exact absurd hfail (optional_ne_failure _ _)
  rcases bind_eq_failure hrest with hfail | ⟨imports, b, y, third, himports, hrest', rfl⟩
  · exact absurd hfail (many_ne_failure _ _)
  rcases bind_eq_failure hrest' with hfail | ⟨types, n, z, fourth, htypes, hlast, rfl⟩
  · exact absurd hfail (many_ne_failure _ _)
  have hend : endOfInput ts n = .failure fourth := by
    rcases bind_eq_failure hlast with hfail | ⟨_, _, _, _, _, hpure, _⟩
    · exact hfail
    · cases hpure
  have hfront := truthful_of_described (optional packageDeclaration) hts hpos
  rw [hpackage] at hfront
  have hmiddle := truthful_of_described (many importDeclaration) hts hfront.1
  rw [himports] at hmiddle
  have hback := truthful_of_described (many topLevelType) hts hmiddle.1
  rw [htypes] at hback
  obtain ⟨rfl, hread⟩ := token_eq_failure hend
  have htrue : Failure.Truthful ts ⟨n, .one "end of input"⟩ := by
    refine ⟨_, Array.getElem?_eq_getElem hback.1, fun label hlabel => ?_⟩
    cases hlabel
    rw [Array.getElem?_eq_getElem hback.1, Option.bind_some] at hread
    exact .endOfInput fun hkind => by simp [hkind] at hread
  -- Each success on the way may hand on a failure of its own, and the furthest one is kept.
  refine ⟨n, .mk hpackage himports htypes, ?_, ?_⟩
  · calc n ≤ _ := Failure.le_withAlternative ⟨n, .one "end of input"⟩ z
      _ ≤ _ := Failure.le_withAlternative _ y
      _ ≤ _ := Failure.le_withAlternative _ x
  · exact ((htrue.withAlternative hback.2).withAlternative hmiddle.2).withAlternative hfront.2

end Grammar

/-! ## Diagnostics -/

/-- The message that blames a token. It says what was expected in its place if that is one thing. -/
def blame (t : Token) : Expectation → String
  | .one label => "unexpected " ++ t.describe ++ ", expected " ++ label
  | .unstated => "unexpected " ++ t.describe
  | .several => "unexpected " ++ t.describe

/-- The message for a token that is not expected blames it. -/
theorem message_eq_blame (t : Token) (expected : Expectation) :
    (SyntaxFault.unexpected (some t) expected).message = blame t expected := by
  cases expected with
  | unstated => rfl
  | one label => rfl
  | several => rfl

/-- A text for whose tokens the grammar fails is refused with one error at the token of the failure,
which it blames. -/
theorem parse_of_failure {text : String} {tokens : List Token} (hscan : scan text = .ok tokens)
    {failure : Failure} (hrun : Grammar.compileUnit tokens.toArray 0 = .failure failure) {t : Token}
    (ht : tokens[failure.index]? = some t) :
    CompileUnit.parse text =
      .error (.tokens [⟨.error, t.position, blame t failure.expected⟩]) := by
  have hget : tokens.toArray[failure.index]? = some t := by simpa using ht
  obtain ⟨hlt, -⟩ := Array.getElem?_eq_some_iff.mp hget
  obtain ⟨u, hu, hdiagnostic⟩ := exists_ofFailure (Nat.zero_lt_of_lt hlt) failure
  rw [Nat.min_eq_left (Nat.le_sub_one_of_lt hlt), hget] at hu
  cases hu
  rw [hget, message_eq_blame] at hdiagnostic
  simp only [CompileUnit.parse, hscan, CompileUnit.ofTokens, Rule.run, hrun, hdiagnostic]

/-- A text that is scanned but not read as a file is refused because the grammar fails for its
tokens. The failure stands at a token, and what it says is true. -/
theorem exists_failure_of_parse {text : String} {tokens : List Token}
    (hscan : scan text = .ok tokens) {e : ParseError} (h : CompileUnit.parse text = .error e) :
    ∃ (failure : Failure) (n : Nat) (t : Token),
      Grammar.compileUnit tokens.toArray 0 = .failure failure ∧
      Grammar.ReadUpTo tokens.toArray n ∧ n ≤ failure.index ∧ tokens[failure.index]? = some t ∧
      (∀ label, failure.expected = .one label → Excludes label t) ∧
      e = .tokens [⟨.error, t.position, blame t failure.expected⟩] := by
  rcases hrun : Grammar.compileUnit tokens.toArray 0 with ⟨u, j, alternative⟩ | failure
  · simp [CompileUnit.parse, hscan, CompileUnit.ofTokens, Rule.run, hrun] at h
  · obtain ⟨n, hn, hle, t, ht, hexpected⟩ :=
      Grammar.compileUnit_eq_failure (spelled_of_scan hscan).ended hrun
    have hget : tokens[failure.index]? = some t := by simpa using ht
    rw [parse_of_failure hscan hrun hget, Except.error.injEq] at h
    exact ⟨failure, n, t, rfl, hn, hle, hget, hexpected, h.symm⟩

/-- **A diagnostic tells the truth and blames nothing that has been read.** A text that is scanned
but not read as a file is refused with one error. It stands at a token, not before the end of what
has been read of the file, and names this token; if it says what was expected, the token is not
that. -/
theorem parse_diagnostic {text : String} {tokens : List Token} (hscan : scan text = .ok tokens)
    {e : ParseError} (h : CompileUnit.parse text = .error e) :
    ∃ (n place : Nat) (t : Token) (message : String),
      Grammar.ReadUpTo tokens.toArray n ∧ n ≤ place ∧ tokens[place]? = some t ∧
      e = .tokens [⟨.error, t.position, message⟩] ∧
      (message = "unexpected " ++ t.describe ∨
        ∃ label, Excludes label t ∧
          message = "unexpected " ++ t.describe ++ ", expected " ++ label) := by
  obtain ⟨failure, n, t, -, hn, hle, ht, hexpected, he⟩ := exists_failure_of_parse hscan h
  refine ⟨n, failure.index, t, _, hn, hle, ht, he, ?_⟩
  cases hlabel : failure.expected with
  | unstated => exact .inl rfl
  | one label => exact .inr ⟨label, hexpected label hlabel, rfl⟩
  | several => exact .inl rfl

/-- The tokens of a class, and of one whose superclass is missing. -/
def secondBroken : List Token :=
  [⟨.keyword .classKw, "class", ⟨1, 1⟩⟩, ⟨.identifier "A", "A", ⟨1, 7⟩⟩,
    ⟨.symbol .leftBrace, "\x7b", ⟨1, 8⟩⟩, ⟨.symbol .rightBrace, "\x7d", ⟨1, 9⟩⟩,
    ⟨.keyword .classKw, "class", ⟨1, 10⟩⟩, ⟨.identifier "B", "B", ⟨1, 16⟩⟩,
    ⟨.keyword .extendsKw, "extends", ⟨1, 18⟩⟩, ⟨.symbol .leftBrace, "\x7b", ⟨1, 25⟩⟩,
    ⟨.symbol .rightBrace, "\x7d", ⟨1, 26⟩⟩, ⟨.eof, "", ⟨1, 27⟩⟩]

/-- The tokens of a file whose second class lacks its superclass. -/
theorem scan_secondBroken :
    scan "class A\x7b\x7dclass B extends\x7b\x7d" = .ok secondBroken := by
  decide +kernel

/-- The rule for files fails where the superclass is missing. -/
theorem compileUnit_secondBroken :
    Grammar.compileUnit secondBroken.toArray 0 = .failure ⟨7, .one "identifier"⟩ := by
  decide +kernel

/-- The missing superclass is the one thing reported. -/
theorem parse_secondBroken :
    CompileUnit.parse "class A\x7b\x7dclass B extends\x7b\x7d" =
      .error (.tokens [⟨.error, ⟨1, 25⟩, "unexpected `\x7b`, expected identifier"⟩]) := by
  rw [CompileUnit.parse, scan_secondBroken]
  dsimp only
  rw [CompileUnit.ofTokens, Rule.run, compileUnit_secondBroken]
  rfl

/-- A class that is read, and behind it one whose superclass is missing. -/
theorem parse_diagnostic_secondBroken :
    ∃ (n place : Nat) (t : Token) (message : String),
      Grammar.ReadUpTo secondBroken.toArray n ∧ n ≤ place ∧ secondBroken[place]? = some t ∧
      ParseError.tokens [⟨.error, ⟨1, 25⟩, "unexpected `\x7b`, expected identifier"⟩] =
        .tokens [⟨.error, t.position, message⟩] ∧
      (message = "unexpected " ++ t.describe ∨
        ∃ label, Excludes label t ∧
          message = "unexpected " ++ t.describe ++ ", expected " ++ label) :=
  parse_diagnostic scan_secondBroken parse_secondBroken

end ApiSurface
