import ApiSurface.Grammar.Declaration
import ApiSurface.Proofs.Grammar.Scheme

/-!
# The schemes of the grammar

Every rule of the grammar has a scheme. A rule with something left open, such as the body of a
recursive rule, is a function of the open rule, and `Described` finds the scheme of such a function
along its definition. What the scheme says of the rule, that it takes a token and that it calls the
open rule only behind a token, is found with it, and checked where it is needed: under a repetition
and in a recursion.

A rule for one token is a function of the token, which may do as it likes. Those of the grammar do
not look at positions, say what they expect, and leave the end of the input to the last rule of a
file (`LegibleToken`). A scheme is legible if it is made of such rules for tokens, and those that
are found are.

Whatever the combinators keep holds of every rule with a scheme, by one induction on the scheme:
that the rule depends on the tokens that are left (here), that it looks at no position
(`Proofs/Grammar/Layout`), that it tells the truth where it fails (`Proofs/Grammar/FailurePlace`),
and that it makes progress (`Proofs/Grammar/Progress`).
-/

namespace ApiSurface

variable {α β γ δ : Type}

/-! ## Rules for one token -/

/-- The label stands for some tokens of the grammar, and the token is none of them. -/
inductive Excludes : String → Token → Prop
  | keyword {k : Keyword} {t : Token} : t.kind ≠ .keyword k → Excludes ("'" ++ k.word ++ "'") t
  | symbol {s : Symbol} {t : Token} : t.kind ≠ .symbol s → Excludes ("'" ++ s.text ++ "'") t
  | identifier {t : Token} : t.identifier? = none → Excludes "identifier" t
  | stubException {t : Token} : t.kind ≠ .identifier "RuntimeException" →
      Excludes "RuntimeException" t
  | modifier {t : Token} : t.isModifier = false → Excludes "modifier" t
  | literal {t : Token} : t.literal? = none → Excludes "literal" t
  | endOfInput {t : Token} : t.kind ≠ .eof → Excludes "end of input" t

/-- What can be said of a rule that accepts one token if `read` does. If `e` is set, it does not
take the end of the input. -/
structure LegibleToken (e : Bool) (expected : Expectation) (read : Token → Option α) : Prop where
  /-- The position of the token does not count. -/
  content : ∀ kind lexeme p p', read ⟨kind, lexeme, p⟩ = read ⟨kind, lexeme, p'⟩
  /-- A token that is refused is not what the rule says it expects. -/
  excludes : ∀ t label, read t = none → expected = .one label → Excludes label t
  /-- The end of the input is refused. -/
  ends : e = true → ∀ t, t.kind = .eof → read t = none

namespace Rule

/-- The rules for one token in the scheme are legible. -/
def Scheme.Legible (e : Bool) {γ α : Type} {t g : Bool} : Scheme γ t g α → Prop
  | .pure _ => True
  | .token expected read => LegibleToken e expected read
  | .self => True
  | .bind s f _ _ => s.Legible e ∧ ∀ a, (f a).Legible e
  | .orElse s u _ _ => s.Legible e ∧ u.Legible e
  | .optional s => s.Legible e
  | .lookahead s => s.Legible e
  | .many s => s.Legible e
  | .sepBy1 s u => s.Legible e ∧ u.Legible e
  | .recursive s => s.Legible e

/-! ## Finding schemes -/

/-- A rule with an open rule in it, and its scheme. -/
class Described (e : Bool) (b : Rule γ → Rule α) (t g : outParam Bool) where
  /-- The scheme. -/
  scheme : Scheme γ t g α
  /-- It builds the rule. -/
  rule_eq : ∀ r, scheme.rule r = b r
  /-- Its rules for one token are legible. -/
  legible : scheme.Legible e

/-- The last truth value is the conjunction of the others. -/
class Both (a b : Bool) (c : outParam Bool) : Prop where
  /-- The conjunction. -/
  eq : c = (a && b)

/-- The last truth value is the disjunction of the others. -/
class Either (a b : Bool) (c : outParam Bool) : Prop where
  /-- The disjunction. -/
  eq : c = (a || b)

instance (b : Bool) : Both true b b := ⟨(Bool.true_and b).symm⟩

instance (b : Bool) : Both false b false := ⟨(Bool.false_and b).symm⟩

instance (b : Bool) : Both b true b := ⟨(Bool.and_true b).symm⟩

instance (b : Bool) : Either true b true := ⟨(Bool.true_or b).symm⟩

instance (b : Bool) : Either false b b := ⟨(Bool.false_or b).symm⟩

instance (b : Bool) : Either b true true := ⟨(Bool.or_true b).symm⟩

section

variable {e t t' t'' g g' g'' v : Bool}

instance (a : α) : Described e (fun _ : Rule γ => (Pure.pure a : Rule α)) false true where
  scheme := .pure a
  rule_eq _ := rfl
  legible := trivial

/-- A rule for one token that is legible has a scheme. -/
abbrev Described.ofToken {expected : Expectation} {read : Token → Option α}
    (h : LegibleToken e expected read) :
    Described e (fun _ : Rule γ => token expected read) true true where
  scheme := .token expected read
  rule_eq _ := rfl
  legible := h

instance : Described e (fun r : Rule γ => r) true false where
  scheme := .self
  rule_eq _ := rfl
  legible := trivial

instance (b : Rule γ → Rule α) (f : Rule γ → α → Rule β) [hb : Described e b t g]
    [hf : ∀ a, Described e (fun r => f r a) t' g'] [ht : Either t t' t''] [hv : Either t g' v]
    [hg : Both g v g''] : Described e (fun r => b r >>= f r) t'' g'' where
  scheme := .bind hb.scheme (fun a => (hf a).scheme) ht.eq (hv.eq ▸ hg.eq)
  rule_eq r := by simp only [Scheme.rule, hb.rule_eq, (hf _).rule_eq]
  legible := ⟨hb.legible, fun a => (hf a).legible⟩

instance (b : Rule γ → Rule α) [hb : Described e b t g] :
    Described e (fun r => (discard (b r) : Rule Unit)) t g where
  scheme := .bind hb.scheme (fun _ => .pure ()) (Bool.or_false t).symm
    (show g = (g && (t || true)) by rw [Bool.or_true, Bool.and_true])
  rule_eq r := by
    simp only [Scheme.rule, hb.rule_eq]
    rfl
  legible := by
    rw [Scheme.Legible]
    exact ⟨hb.legible, fun _ => trivial⟩

instance (b c : Rule γ → Rule α) [hb : Described e b t g] [hc : Described e c t' g']
    [ht : Both t t' t''] [hg : Both g g' g''] : Described e (fun r => b r <|> c r) t'' g'' where
  scheme := .orElse hb.scheme hc.scheme ht.eq hg.eq
  rule_eq r := by simp only [Scheme.rule, hb.rule_eq, hc.rule_eq]
  legible := ⟨hb.legible, hc.legible⟩

instance (b : Rule γ → Rule α) [hb : Described e b t g] :
    Described e (fun r => optional (b r)) false g where
  scheme := .optional hb.scheme
  rule_eq r := by simp only [Scheme.rule, hb.rule_eq]
  legible := hb.legible

instance (b : Rule γ → Rule α) [hb : Described e b t g] :
    Described e (fun r => lookahead (b r)) false g where
  scheme := .lookahead hb.scheme
  rule_eq r := by simp only [Scheme.rule, hb.rule_eq]
  legible := hb.legible

instance (b : Rule γ → Rule α) [hb : Described e b true g] :
    Described e (fun r => many (b r)) false g where
  scheme := .many hb.scheme
  rule_eq r := by simp only [Scheme.rule, hb.rule_eq]
  legible := hb.legible

-- Instances are looked up for `many` itself where the open rule is what it repeats.
instance : Described e (many : Rule γ → Rule (List γ)) false false where
  scheme := .many .self
  rule_eq _ := rfl
  legible := trivial

instance (b : Rule γ → Rule α) (c : Rule γ → Rule β) [hb : Described e b true g]
    [hc : Described e c t g'] : Described e (fun r => sepBy1 (b r) (c r)) true g where
  scheme := .sepBy1 hb.scheme hc.scheme
  rule_eq r := by simp only [Scheme.rule, hb.rule_eq, hc.rule_eq]
  legible := ⟨hb.legible, hc.legible⟩

instance (body : Rule δ → Rule δ) [hb : Described e body true true] :
    Described e (fun _ : Rule γ => recursive body) true true where
  scheme := .recursive hb.scheme
  rule_eq _ := congrArg recursive (funext hb.rule_eq)
  legible := hb.legible

instance (b : Rule γ → Rule α) [Described e b true g] :
    Described e (fun r => many1 (b r)) true g := by
  unfold many1
  infer_instance

instance (b : Rule γ → Rule α) (c : Rule γ → Rule β) [Described e b true g] [Described e c t g'] :
    Described e (fun r => sepBy (b r) (c r)) false g := by
  unfold sepBy
  infer_instance

instance (b : Rule γ → Rule α) (c : Rule γ → Rule β) [Described e b true g] [Described e c t true] :
    Described e (fun r => sepByTrailing (b r) (c r)) false g := by
  unfold sepByTrailing
  infer_instance

instance (b : Rule γ → Rule β) (c : Rule γ → Rule δ) (d : Rule γ → Rule α) [Described e b true g]
    [Described e c true true] [Described e d t g'] :
    Described e (fun r => between (b r) (c r) (d r)) true g := by
  unfold between
  infer_instance

end

/-! ## Rules with a scheme are local -/

/-- A rule with a scheme is local if the open rule is. -/
theorem Described.isLocal (b : Rule γ → Rule α) {t g : Bool} [h : Described false b t g]
    {r : Rule γ} (hr : Local r) : Local (b r) := by
  rw [← h.rule_eq]
  exact h.scheme.isLocal hr

/-- A rule of the grammar is local. -/
instance (priority := low) (r : Rule α) {t g : Bool}
    [Described false (fun _ : Rule Empty => r) t g] : Local r :=
  Described.isLocal (fun _ : Rule Empty => r) local_refuse

end Rule

namespace Grammar

open Rule

variable {e : Bool}

/-! ## Single tokens and names -/

/-- A rule for the tokens of one kind, which is not the end of the input. -/
theorem legible_exactly {kind : TokenKind} {label : String} (hkind : e = true → kind ≠ .eof)
    (hlabel : ∀ t : Token, t.kind ≠ kind → Excludes label t) :
    LegibleToken e (.one label) fun t : Token => if t.kind = kind then some () else none where
  content _ _ _ _ := rfl
  excludes := by
    intro t l hread hexpected
    cases hexpected
    exact hlabel t fun h => by simp [h] at hread
  ends := by
    intro he t ht
    exact if_neg fun h => hkind he (h.symm.trans ht)

/-- A rule for the tokens that satisfy a test of what they are. It has no label. -/
theorem legible_tokenWith {p : Token → Bool}
    (hcontent : ∀ kind lexeme q q', p ⟨kind, lexeme, q⟩ = p ⟨kind, lexeme, q'⟩)
    (hends : ∀ t, t.kind = .eof → p t = false) :
    LegibleToken e .unstated fun t : Token => if p t then some () else none where
  content kind lexeme q q' := by rw [hcontent kind lexeme q q']
  excludes := by
    intro t label _ hexpected
    cases hexpected
  ends := by
    intro _ t ht
    rw [hends t ht]
    rfl

/-- The end of the input is a delimiter. -/
theorem isDelimiter_of_eof {t : Token} (ht : t.kind = .eof) : t.isDelimiter = true := by
  rw [Token.isDelimiter, ht]

instance (k : Keyword) : Described e (fun _ : Rule γ => keyword k) true true :=
  .ofToken (legible_exactly (fun _ h => nomatch h) fun _ => .keyword)

instance (s : Symbol) : Described e (fun _ : Rule γ => symbol s) true true :=
  .ofToken (legible_exactly (fun _ h => nomatch h) fun _ => .symbol)

/-- The one rule that takes the end of the input. -/
instance : Described false (fun _ : Rule γ => endOfInput) true true :=
  .ofToken (legible_exactly (fun h => nomatch h) fun _ => .endOfInput)

/-- The one word that the grammar asks for by its spelling. -/
instance : Described e (fun _ : Rule γ => word "RuntimeException") true true :=
  .ofToken (legible_exactly (fun _ h => nomatch h) fun _ => .stubException)

instance : Described e (fun _ : Rule γ => identifier) true true := by
  apply Described.ofToken
  refine ⟨fun _ _ _ _ => rfl, ?_, ?_⟩
  · intro t label hread hexpected
    cases hexpected
    exact .identifier hread
  · intro _ t ht
    rw [Token.identifier?, ht]

instance : Described e (fun _ : Rule γ => modifier) true true := by
  apply Described.ofToken
  refine ⟨fun _ _ _ _ => rfl, ?_, ?_⟩
  · intro t label hread hexpected
    cases hexpected
    exact .modifier (by simpa using hread)
  · intro _ t ht
    rw [Token.isModifier, ht]
    rfl

instance : Described e (fun _ : Rule γ => literal) true true := by
  apply Described.ofToken
  refine ⟨fun _ _ _ _ => rfl, ?_, ?_⟩
  · intro t label hread hexpected
    cases hexpected
    exact .literal hread
  · intro _ t ht
    rw [Token.literal?, ht]

/-- Noise is told from brackets and from what ends it by the kind of a token. -/
instance (stop : TokenKind → Bool) :
    Described e (fun _ : Rule γ => tokenWith fun t => !t.isDelimiter && !stop t.kind) true true :=
  .ofToken (legible_tokenWith (fun _ _ _ _ => rfl) fun t ht => by rw [isDelimiter_of_eof ht]; rfl)

instance : Described e (fun _ : Rule γ => plainToken) true true :=
  .ofToken (legible_tokenWith (fun _ _ _ _ => rfl) fun t ht => by rw [isDelimiter_of_eof ht]; rfl)

/-- The one token of a body that is known by its text. -/
instance :
    Described e (fun _ : Rule γ => tokenWith fun t => t.kind == .string "Stub!") true true :=
  .ofToken (legible_tokenWith (fun _ _ _ _ => rfl) fun t ht => by rw [ht]; rfl)

instance : Described e (fun _ : Rule γ => dottedName) true true := by
  unfold dottedName
  infer_instance

instance : Described e (fun _ : Rule γ => importTarget) true true := by
  unfold importTarget
  infer_instance

/-! ## Types -/

instance : Described e (fun _ : Rule γ => typeSuffix) true true := by
  unfold typeSuffix
  infer_instance

/-- The references inside stand behind the name, if only by the angle bracket. -/
instance : Described e typeRefBody true true := by
  unfold typeRefBody typeArguments typeArgument typeBound
  infer_instance

instance : Described e (fun _ : Rule γ => typeRef) true true := by
  unfold typeRef
  infer_instance

instance : Described e (fun _ : Rule γ => genericList) true true := by
  unfold genericList typeArguments typeArgument typeBound
  infer_instance

instance : Described e (fun _ : Rule γ => typeList) true true := by
  unfold typeList
  infer_instance

instance (k : Keyword) : Described e (fun _ : Rule γ => clause k) false true := by
  unfold clause
  infer_instance

/-! ## Noise and bodies -/

instance : Described e groupBody true true := by
  unfold groupBody
  infer_instance

instance : Described e (fun _ : Rule γ => balancedGroup) true true := by
  unfold balancedGroup
  infer_instance

section

variable (stop : TokenKind → Bool)

instance : Described e (fun _ : Rule γ => noiseItem stop) true true := by
  unfold noiseItem
  infer_instance

instance : Described e (fun _ : Rule γ => noiseUntil stop) false true := by
  unfold noiseUntil
  infer_instance

instance : Described e (fun _ : Rule γ => someNoiseUntil stop) true true := by
  unfold someNoiseUntil
  infer_instance

end

instance : Described e (fun _ : Rule γ => superCall) true true := by
  unfold superCall
  infer_instance

set_option synthInstance.maxSize 256 in
instance : Described e (fun _ : Rule γ => stubThrow) true true := by
  unfold stubThrow
  infer_instance

/-- The noise in front of the semicolon may be empty; the semicolon is not. -/
instance : Described e (fun _ : Rule γ => plainStatement) true true := by
  unfold plainStatement
  infer_instance

/-- The items in front of the group may be missing; the group is not. -/
instance : Described e (fun _ : Rule γ => bracedPart) true true := by
  unfold bracedPart
  infer_instance

instance : Described e (fun _ : Rule γ => bracedStatement) true true := by
  unfold bracedStatement
  infer_instance

instance : Described e blockBody true true := by
  unfold blockBody
  infer_instance

instance : Described e (fun _ : Rule γ => block) true true := by
  unfold block
  infer_instance

instance : Described e (fun _ : Rule γ => defaultValue) true true := by
  unfold defaultValue
  infer_instance

instance : Described e (fun _ : Rule γ => callableEnd) true true := by
  unfold callableEnd
  infer_instance

/-! ## Headers -/

/-- The name of an element may be missing; its value is not. -/
instance : Described e (fun _ : Rule γ => annotationElement) true true := by
  unfold annotationElement
  infer_instance

instance : Described e (fun _ : Rule γ => annotationElements) true true := by
  unfold annotationElements
  infer_instance

instance : Described e (fun _ : Rule γ => annotationName) true true := by
  unfold annotationName
  infer_instance

instance : Described e (fun _ : Rule γ => annotations) false true := by
  unfold annotations
  infer_instance

instance : Described e (fun _ : Rule γ => headerItem) true true := by
  unfold headerItem
  infer_instance

instance : Described e (fun _ : Rule γ => header) false true := by
  unfold header
  infer_instance

/-! ## Declarations -/

instance : Described e (fun _ : Rule γ => parameter) true true := by
  unfold parameter
  infer_instance

instance : Described e (fun _ : Rule γ => parameters) true true := by
  unfold parameters
  infer_instance

instance : Described e (fun _ : Rule γ => signature) true true := by
  unfold signature
  infer_instance

instance : Described e (fun _ : Rule γ => fieldValue) true true := by
  unfold fieldValue
  infer_instance

instance : Described e (fun _ : Rule γ => fieldEnd) true true := by
  unfold fieldEnd
  infer_instance

instance : Described e (fun _ : Rule γ => typeWord) true true := by
  unfold typeWord
  infer_instance

instance : Described e (fun _ : Rule γ => constantTail) false true := by
  unfold constantTail
  infer_instance

instance : Described e (fun _ : Rule γ => enumConstant) true true := by
  unfold enumConstant
  infer_instance

section

variable (h : Header)

section

variable {g : Bool} (member : Rule γ → Rule (Option Member)) [Described e member true g]

/-- The members stand behind the word that introduces a type. -/
instance : Described e (fun r => plainType (member r) h) true true := by
  unfold plainType typeBody
  infer_instance

set_option synthInstance.maxSize 512 in
instance : Described e (fun r => enumeration (member r) h) true true := by
  unfold enumeration enumBody enumMembers
  infer_instance

instance : Described e (fun r => typeRest (member r) h) true true := by
  unfold typeRest
  infer_instance

end

instance : Described e (fun _ : Rule γ => constructorRest h) true true := by
  unfold constructorRest
  infer_instance

instance : Described e (fun _ : Rule γ => methodRest h) true true := by
  unfold methodRest
  infer_instance

instance : Described e (fun _ : Rule γ => fieldRest h) true true := by
  unfold fieldRest
  infer_instance

end

/-- The header may be empty, but every way to go on from it takes a token, and no member stands
directly behind it. -/
instance : Described e memberBody true true := by
  unfold memberBody
  infer_instance

instance : Described e (fun _ : Rule γ => member) true true := by
  unfold member
  infer_instance

instance : Described e (fun _ : Rule γ => typeDeclaration) true true := by
  unfold typeDeclaration
  infer_instance

instance : Described e (fun _ : Rule γ => topLevelType) true true := by
  unfold topLevelType
  infer_instance

instance : Described e (fun _ : Rule γ => packageDeclaration) true true := by
  unfold packageDeclaration
  infer_instance

instance : Described e (fun _ : Rule γ => importDeclaration) true true := by
  unfold importDeclaration
  infer_instance

instance : Described false (fun _ : Rule γ => compileUnit) true true := by
  unfold compileUnit
  infer_instance

end Grammar

end ApiSurface
