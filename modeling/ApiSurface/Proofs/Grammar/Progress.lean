import ApiSurface.Diagnostic
import ApiSurface.Proofs.Grammar.Described
import ApiSurface.Proofs.Grammar.Program

/-!
# The grammar makes progress

The schemes of the grammar (`Proofs/Grammar/Described`) say of every rule whether it takes a token,
and whether it calls an open rule only behind a token. So wherever a rule is repeated, with or
without separators, it takes a token each time; each of the four recursive rules calls itself only
behind a token; and files are read with fuel for as many steps as there are tokens, and one more, as
with any larger fuel (`reading_makes_progress`).
-/

namespace ApiSurface

open Rule

variable {δ : Type}

namespace Rule

/-- A recursive rule with this body calls itself only behind a token, and takes one. -/
structure MakesProgress (body : Rule δ → Rule δ) : Prop where
  /-- What the body does at an index depends only on what the rule does further to the right. -/
  calls_behind : ∀ ⦃r r' : Rule δ⦄, Consumes r → Consumes r' → ∀ (ts : Array Token) (i : Nat),
    (∀ j, i < j → r ts j = r' ts j) → body r ts i = body r' ts i
  /-- A success takes a token. -/
  consumes : Consumes (recursive body)

/-- The body of a recursive rule that has a scheme makes progress. -/
theorem makesProgress (body : Rule δ → Rule δ) [hb : Described false body true true] :
    MakesProgress body := by
  have hrule : hb.scheme.rule = body := funext hb.rule_eq
  refine ⟨?_, hrule ▸ hb.scheme.consumes_rec⟩
  intro r r' hr hr' ts i h
  rw [← hrule]
  exact hb.scheme.rule_congr hr hr' h

end Rule

namespace Grammar

/-! ## Files -/

/-- The rule that always fails. It fills the open place of a scheme that never uses it. -/
def nowhere : Rule Empty := fun _ i => .failure ⟨i, .unstated⟩

/-- The rule that always fails has no success to ask about. -/
theorem consumes_nowhere : Consumes nowhere := by
  intro ts i j a
  exact a.elim

/-- The scheme of a whole file. -/
def unitScheme : Scheme Empty true true CompileUnit :=
  Described.scheme (e := false) fun _ : Rule Empty => compileUnit

/-- The rule by the scheme is the rule for files, whatever stands in the open place. -/
theorem unitScheme_rule : unitScheme.rule nowhere = compileUnit :=
  Described.rule_eq (e := false) (b := fun _ => compileUnit) nowhere

/-- The compile unit that the tokens are, as far as it is found with fuel for `n` steps in each loop
and without a look at how many tokens are left. -/
def readUnit (n : Nat) (tokens : Array Token) : Except Halt (Except ParseError CompileUnit) :=
  match unitScheme.run n (.ofRule nowhere) tokens 0 with
  | .error halt => .error halt
  | .ok (.success unit _ _) => .ok (.ok unit)
  | .ok (.failure cause) => .ok (.error (.tokens [.ofFailure tokens cause]))

/-- With fuel for more steps than there are tokens, a file is read as the rules read it. -/
theorem readUnit_eq {n : Nat} {tokens : Array Token} (hn : tokens.size < n) :
    readUnit n tokens = .ok (CompileUnit.ofTokens tokens) := by
  have hrun : unitScheme.run n (.ofRule nowhere) tokens 0 =
      .ok (unitScheme.rule nowhere tokens 0) :=
    unitScheme.agrees consumes_nowhere hn (fun _ _ => agrees_ofRule _) fun _ => agrees_ofRule _
  rw [readUnit, hrun, unitScheme_rule, CompileUnit.ofTokens, Rule.run]
  rcases compileUnit tokens 0 with ⟨unit, next, alternative⟩ | cause
  · rfl
  · rfl

/-- **Reading makes progress**, on every list of tokens.

* Whatever the grammar repeats, with or without separators, takes a token each time.
* References to types, groups, blocks and members call themselves only behind a token, and take one.
* With fuel for more steps than there are tokens, no loop runs out of it, no repeated item succeeds
  without a token, no recursive rule is called again where it began, and the result is the one that
  is found without fuel. -/
theorem reading_makes_progress :
    (∀ item, unitScheme.Repeats nowhere item → Consumes item.2) ∧
    (MakesProgress typeRefBody ∧ MakesProgress groupBody ∧ MakesProgress blockBody ∧
      MakesProgress memberBody) ∧
    ∀ (tokens : Array Token) (n : Nat), tokens.size < n →
      readUnit n tokens = .ok (CompileUnit.ofTokens tokens) := by
  refine ⟨fun item h => Scheme.consumes_of_repeats consumes_nowhere h, ?_, fun _ _ => readUnit_eq⟩
  exact ⟨makesProgress _, makesProgress _, makesProgress _, makesProgress _⟩

/-- The tokens of an import, without a token for the end. -/
def importTokens : Array Token :=
  #[⟨.keyword .importKw, "import", ⟨1, 1⟩⟩, ⟨.identifier "a", "a", ⟨1, 8⟩⟩,
    ⟨.symbol .semicolon, ";", ⟨1, 9⟩⟩]

/-- The imports of a file are repeated. With fuel for four steps a file without an end is refused as
it is without fuel; with fuel for one step nothing is found. -/
theorem reading_makes_progress_import :
    (unitScheme.Repeats nowhere ⟨_, importDeclaration⟩ ∧ Consumes importDeclaration) ∧
    (importTokens.size < 4 ∧ CompileUnit.ofTokens importTokens =
      .error (.tokens [⟨.error, ⟨1, 9⟩, "unexpected end of input"⟩])) ∧
    readUnit 1 importTokens = .error .exhausted := by
  obtain ⟨hrepeated, -, hread⟩ := reading_makes_progress
  have himport : unitScheme.Repeats nowhere ⟨_, importDeclaration⟩ := by
    refine .inr ⟨none, .inl (.inl ?_)⟩
    rw [Described.rule_eq (e := false) (b := fun _ => importDeclaration)]
  have hsize : importTokens.size < 4 := Nat.lt_succ_self 3
  have hfour : readUnit 4 importTokens =
      .ok (.error (.tokens [⟨.error, ⟨1, 9⟩, "unexpected end of input"⟩])) := rfl
  have hunit := (hread importTokens 4 hsize).symm.trans hfour
  exact ⟨⟨himport, hrepeated _ himport⟩, ⟨hsize, Except.ok.inj hunit⟩, rfl⟩

end Grammar

end ApiSurface
