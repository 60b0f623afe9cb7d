import ApiSurface.Diagnostic
import ApiSurface.Proofs.Grammar.Described
import Mathlib.Data.List.Basic

/-!
# Layout and comments

Blanks, line breaks and comments of a text are seen in its tokens only through their positions, and
no rule of the grammar looks at a position: where two lists of tokens have the same content, every
rule has the same outcome on both, its failures included (`PositionFree`). Each combinator keeps
this property, and the rules for one token have it because they look at the kind and the spelling;
so every rule with a scheme has it (`Scheme.positionFree`).

A diagnostic speaks of a token by its spelling and takes the position of the token at the index of a
failure. So two texts whose tokens differ in their positions alone are read as the same compile
unit, or refused with the same message at tokens of the same index (`parse_layout_independent`).
-/

namespace ApiSurface

variable {α β γ : Type}

/-- What a token is, apart from its position. -/
def Token.content (t : Token) : TokenKind × String := (t.kind, t.lexeme)

/-- The tokens are the same, apart from their positions. -/
def SameContent (ts ts' : Array Token) : Prop := ts.map Token.content = ts'.map Token.content

/-- Lists with the same content are equally long. -/
theorem SameContent.size_eq {ts ts' : Array Token} (h : SameContent ts ts') :
    ts.size = ts'.size := by
  have hsize := congrArg Array.size h
  rwa [Array.size_map, Array.size_map] at hsize

/-- At an index, both lists have a token of the same content or none. -/
theorem SameContent.getElem?_cases {ts ts' : Array Token} (h : SameContent ts ts') (i : Nat) :
    (ts[i]? = none ∧ ts'[i]? = none) ∨
    ∃ kind lexeme p p', ts[i]? = some ⟨kind, lexeme, p⟩ ∧ ts'[i]? = some ⟨kind, lexeme, p'⟩ := by
  have hi : ts[i]?.map Token.content = ts'[i]?.map Token.content := by
    rw [← Array.getElem?_map, ← Array.getElem?_map, h]
  rcases ht' : ts'[i]? with _ | ⟨kind, lexeme, p'⟩
  · rw [ht', Option.map_none, Option.map_eq_none_iff] at hi
    exact Or.inl ⟨hi, rfl⟩
  · rw [ht', Option.map_some, Option.map_eq_some_iff] at hi
    obtain ⟨⟨kind', lexeme', p⟩, ht, hcontent⟩ := hi
    cases hcontent
    exact Or.inr ⟨kind, lexeme, p, p', ht, rfl⟩

namespace Rule

/-! ## Rules that look at no position -/

/-- The rule has the same outcome on tokens of the same content, be it a success or a failure. -/
def PositionFree (r : Rule α) : Prop :=
  ∀ ⦃ts ts' : Array Token⦄, SameContent ts ts' → ∀ i, r ts i = r ts' i

/-- A rule for one token looks at no position if what it asks of the token does not. -/
theorem positionFree_token (expected : Expectation) {read : Token → Option α}
    (h : ∀ kind lexeme p p', read ⟨kind, lexeme, p⟩ = read ⟨kind, lexeme, p'⟩) :
    PositionFree (token expected read) := by
  intro ts ts' hts i
  rw [token, token]
  rcases hts.getElem?_cases i with ⟨ht, ht'⟩ | ⟨kind, lexeme, p, p', ht, ht'⟩
  · rw [ht, ht']
  · rw [ht, ht', Option.bind_some, Option.bind_some, h kind lexeme p p']

/-- What is read second begins at the same index on both lists, for the first value is the same. -/
theorem positionFree_bind {r : Rule α} {f : α → Rule β} (hr : PositionFree r)
    (hf : ∀ a, PositionFree (f a)) : PositionFree (r >>= f) := by
  intro ts ts' hts i
  rw [bind_apply, bind_apply, Rule.bind, Rule.bind, hr hts]
  rcases r ts' i with ⟨a, j, first⟩ | cause
  · simp only [hf a hts]
  · rfl

/-- Of two rules, the second is tried on both lists or on none. -/
theorem positionFree_orElse {r s : Rule α} (hr : PositionFree r) (hs : PositionFree s) :
    PositionFree (r <|> s) := by
  intro ts ts' hts i
  show Rule.orElse r (fun _ => s) ts i = Rule.orElse r (fun _ => s) ts' i
  rw [Rule.orElse, Rule.orElse, hr hts, hs hts]

/-- An optional rule is missing on both lists or on none. -/
theorem positionFree_optional {r : Rule α} (hr : PositionFree r) : PositionFree (optional r) := by
  intro ts ts' hts i
  rw [optional, optional, hr hts]

/-- A test of what follows comes out the same on both lists. -/
theorem positionFree_lookahead {r : Rule α} (hr : PositionFree r) : PositionFree (lookahead r) := by
  intro ts ts' hts i
  rw [lookahead, lookahead, hr hts]

/-- Repetition takes the same steps on both lists. -/
theorem positionFree_many {r : Rule α} (hr : PositionFree r) : PositionFree (many r) := by
  intro ts ts' hts i
  induction hn : ts.size - i using Nat.strongRecOn generalizing i with
  | _ n ih =>
    rw [many, many, hr hts, hts.size_eq]
    rcases r ts' i with ⟨a, j, first⟩ | cause
    · dsimp only
      split_ifs with hlt
      · rw [ih (ts.size - j) (by have := hts.size_eq; omega) j rfl]
      · rfl
    · rfl

/-- Items and separators are read alike on both lists. -/
theorem positionFree_sepBy1 {r : Rule α} {s : Rule β} (hr : PositionFree r) (hs : PositionFree s) :
    PositionFree (sepBy1 r s) := by
  have hpure : ∀ {δ : Type} (d : δ), PositionFree (Pure.pure d : Rule δ) := fun _ _ _ _ _ => rfl
  have hstep : PositionFree (discard s >>= fun _ => r) :=
    positionFree_bind (positionFree_bind hs fun _ => hpure ()) fun _ => hr
  exact positionFree_bind hr fun _ => positionFree_bind (positionFree_many hstep) fun _ => hpure _

/-- A recursive rule looks at no position if its body does not, for any rule in place of the rule
itself that does not. -/
theorem positionFree_recursive {body : Rule α → Rule α}
    (hbody : ∀ r, PositionFree r → PositionFree (body r)) : PositionFree (recursive body) := by
  refine recursive_induction (fun _ _ _ _ => rfl) ?_ hbody
  intro r s hs hr ts ts' hts i
  rw [hr, hr, hts.size_eq]
  exact hs _ hts i

/-- A legible scheme builds a rule that looks at no position, if the one in the open place looks at
none. -/
theorem Scheme.positionFree {e : Bool} {γ α : Type} {t g : Bool} (s : Scheme γ t g α)
    (hs : s.Legible e) {r : Rule γ} (hr : PositionFree r) : PositionFree (s.rule r) := by
  induction s with
  | pure a => exact fun _ _ _ _ => rfl
  | token expected read => exact positionFree_token expected (LegibleToken.content hs)
  | self => exact hr
  | bind s f _ _ ihs ihf => exact positionFree_bind (ihs hs.1 hr) fun a => ihf a (hs.2 a) hr
  | orElse s u _ _ ihs ihu => exact positionFree_orElse (ihs hs.1 hr) (ihu hs.2 hr)
  | optional s ih => exact positionFree_optional (ih hs hr)
  | lookahead s ih => exact positionFree_lookahead (ih hs hr)
  | many s ih => exact positionFree_many (ih hs hr)
  | sepBy1 s u ihs ihu => exact positionFree_sepBy1 (ihs hs.1 hr) (ihu hs.2 hr)
  | recursive s ih => exact positionFree_recursive fun _ hr => ih hs hr

/-- The rules of the grammar look at no position. -/
theorem positionFree_of_described (r : Rule α) {t g : Bool}
    [h : Described false (fun _ : Rule Empty => r) t g] : PositionFree r := by
  rw [← h.rule_eq refuse]
  exact h.scheme.positionFree h.legible fun _ _ _ _ => rfl

end Rule

/-! ## Compile units -/

/-- A diagnostic speaks of a token by its content. -/
theorem SameContent.message_eq {ts ts' : Array Token} (h : SameContent ts ts') (i : Nat)
    (expected : Expectation) :
    (SyntaxFault.unexpected ts[i]? expected).message =
      (SyntaxFault.unexpected ts'[i]? expected).message := by
  rcases h.getElem?_cases i with ⟨ht, ht'⟩ | ⟨kind, lexeme, p, p', ht, ht'⟩
  · rw [ht, ht']
  · rw [ht, ht']
    rfl

/-- A failure is reported at a token of the list, if there is any. -/
theorem exists_ofFailure {ts : Array Token} (hne : 0 < ts.size) (failure : Failure) :
    ∃ t, ts[min failure.index (ts.size - 1)]? = some t ∧
      Diagnostic.ofFailure ts failure = ⟨.error, t.position,
        (SyntaxFault.unexpected ts[failure.index]? failure.expected).message⟩ := by
  have hlt : min failure.index (ts.size - 1) < ts.size := by omega
  refine ⟨_, Array.getElem?_eq_getElem hlt, ?_⟩
  rw [Diagnostic.ofFailure, Diagnostic.ofSyntaxFault, Array.getElem?_eq_getElem hlt]

/-- Tokens of the same content are read as the same compile unit, or refused with the same message
at tokens of the same index. -/
theorem SameContent.ofTokens {ts ts' : Array Token} (h : SameContent ts ts') (hne : 0 < ts.size) :
    (∃ unit, CompileUnit.ofTokens ts = .ok unit ∧ CompileUnit.ofTokens ts' = .ok unit) ∨
    ∃ (i : Nat) (t t' : Token) (message : String), ts[i]? = some t ∧ ts'[i]? = some t' ∧
      CompileUnit.ofTokens ts = .error (.tokens [⟨.error, t.position, message⟩]) ∧
      CompileUnit.ofTokens ts' = .error (.tokens [⟨.error, t'.position, message⟩]) := by
  have hrun : Grammar.compileUnit.run ts = Grammar.compileUnit.run ts' := by
    rw [Rule.run, Rule.run, Rule.positionFree_of_described Grammar.compileUnit h]
  rcases hresult : Grammar.compileUnit.run ts' with failure | ⟨unit, next⟩
  · right
    obtain ⟨t, ht, hdiagnostic⟩ := exists_ofFailure hne failure
    obtain ⟨t', ht', hdiagnostic'⟩ := exists_ofFailure (h.size_eq ▸ hne) failure
    rw [← h.size_eq] at ht'
    rw [← h.message_eq] at hdiagnostic'
    refine ⟨_, t, t', (SyntaxFault.unexpected ts[failure.index]? failure.expected).message, ht,
      ht', ?_, ?_⟩
    · rw [CompileUnit.ofTokens, hrun, hresult, ← hdiagnostic]
    · rw [CompileUnit.ofTokens, hresult, ← hdiagnostic']
  · left
    refine ⟨unit, ?_, ?_⟩
    · rw [CompileUnit.ofTokens, hrun, hresult]
    · rw [CompileUnit.ofTokens, hresult]

/-- A text that can be read has at least the token for its end. -/
theorem ne_nil_of_scanFrom {p : Text.Position} {cs : List Char} {before tokens : List Token}
    (h : scanFrom p cs before = .ok tokens) : tokens ≠ [] := by
  fun_induction scanFrom p cs before with
  | case1 p before =>
    cases h
    simp
  | case2 p before c rest kind lexeme after hread _ ih => exact ih h
  | case3 p before c rest skipped after hread _ ih => exact ih h
  | case4 p before c rest cause hread => cases h

/-- **Layout and comments do not count.** Two texts whose tokens agree in kind and spelling are read
as the same compile unit, or both are refused with one diagnostic, which has the same message for
both and stands at the tokens of the same index. -/
theorem parse_layout_independent {text text' : String} {tokens tokens' : List Token}
    (h : scan text = .ok tokens) (h' : scan text' = .ok tokens')
    (hcontent : tokens.map Token.content = tokens'.map Token.content) :
    (∃ unit, CompileUnit.parse text = .ok unit ∧ CompileUnit.parse text' = .ok unit) ∨
    ∃ (i : Nat) (t t' : Token) (message : String),
      tokens[i]? = some t ∧ tokens'[i]? = some t' ∧
      CompileUnit.parse text = .error (.tokens [⟨.error, t.position, message⟩]) ∧
      CompileUnit.parse text' = .error (.tokens [⟨.error, t'.position, message⟩]) := by
  have hsame : SameContent tokens.toArray tokens'.toArray := by
    rw [SameContent, List.map_toArray, List.map_toArray, hcontent]
  have hne : 0 < tokens.toArray.size := List.length_pos_iff.mpr (ne_nil_of_scanFrom h)
  simpa [CompileUnit.parse, h, h'] using hsame.ofTokens hne

/-- The tokens of an interface on one line. -/
def lineTokens : List Token :=
  [⟨.keyword .interfaceKw, "interface", ⟨1, 1⟩⟩, ⟨.identifier "A", "A", ⟨1, 11⟩⟩,
    ⟨.symbol .leftBrace, "\x7b", ⟨1, 12⟩⟩, ⟨.symbol .rightBrace, "\x7d", ⟨1, 13⟩⟩,
    ⟨.eof, "", ⟨1, 14⟩⟩]

/-- The tokens of the same interface over several lines, with a comment. -/
def spreadTokens : List Token :=
  [⟨.keyword .interfaceKw, "interface", ⟨1, 2⟩⟩, ⟨.identifier "A", "A", ⟨2, 1⟩⟩,
    ⟨.symbol .leftBrace, "\x7b", ⟨2, 9⟩⟩, ⟨.symbol .rightBrace, "\x7d", ⟨3, 1⟩⟩,
    ⟨.eof, "", ⟨3, 2⟩⟩]

/-- An interface on one line. -/
theorem scan_lineTokens : scan "interface A\x7b\x7d" = .ok lineTokens := by decide +kernel

/-- The same interface on three lines, with a comment in it. -/
theorem scan_spreadTokens :
    scan " interface\nA /* */ \x7b\r\n\x7d" = .ok spreadTokens := by
  decide +kernel

/-- The interface over several lines is read as the one on a line is. -/
theorem parse_layout_independent_spread :
    lineTokens.map Token.content = spreadTokens.map Token.content ∧
    CompileUnit.parse " interface\nA /* */ \x7b\r\n\x7d" =
      .ok ⟨⟨"", [{ kind := .interfaceKind, name := "A" }]⟩, []⟩ := by
  have hcontent : lineTokens.map Token.content = spreadTokens.map Token.content := by decide
  have hline : CompileUnit.parse "interface A\x7b\x7d" =
      .ok ⟨⟨"", [{ kind := .interfaceKind, name := "A" }]⟩, []⟩ := by decide +kernel
  refine ⟨hcontent, ?_⟩
  rcases parse_layout_independent scan_lineTokens scan_spreadTokens hcontent with
    ⟨unit, hunit, hspread⟩ | ⟨_, _, _, _, _, _, hrefused, _⟩
  · rw [hline] at hunit
    cases hunit
    exact hspread
  · rw [hline] at hrefused
    cases hrefused

end ApiSurface
