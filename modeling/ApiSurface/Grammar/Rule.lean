import ApiSurface.Token.Basic

/-!
# Rules over tokens

A rule reads tokens from an index on. It succeeds with a value, the index behind the tokens it has
taken, and the furthest failure it met on the way; or it fails.

* A failure is an index and what was expected there. Of two failures the one further to the right
  counts, and at one index their expectations are merged: two different ones leave no expectation
  that could be stated.
* A success remembers the furthest failure among the ways it tried and gave up (`alternative`), so
  that a later failure at an earlier token does not hide it.
* Choice is ordered: the first success is taken, and what earlier ways failed with is forgotten.
* `many` and `recursive` go on only where tokens have been taken, so both end on every input.
-/

namespace ApiSurface

/-! ## Failures -/

/-- What was expected where a rule failed. -/
inductive Expectation where
  | unstated
  | one (label : String)
  | several
deriving DecidableEq, Repr

/-- Two expectations at one place. -/
def Expectation.merge : Expectation → Expectation → Expectation
  | unstated, e => e
  | e, unstated => e
  | one a, one b => if a = b then one a else several
  | _, _ => several

/-- A failed attempt: the index of the token in question, and what was expected. -/
structure Failure where
  index : Nat
  expected : Expectation
deriving DecidableEq, Repr

namespace Failure

/-- The failure further to the right; at one index, both. -/
def furthest (a b : Failure) : Failure :=
  if a.index < b.index then b
  else if b.index < a.index then a
  else ⟨a.index, a.expected.merge b.expected⟩

/-- A failure together with one that may be missing. -/
def withAlternative (a : Failure) : Option Failure → Failure
  | none => a
  | some b => a.furthest b

/-- The furthest of two failures that may both be missing. -/
def furthest? : Option Failure → Option Failure → Option Failure
  | none, b => b
  | some a, b => some (a.withAlternative b)

end Failure

/-! ## Outcomes and rules -/

/-- What a rule makes of the tokens from some index on. -/
inductive Outcome (α : Type) where
  | success (value : α) (next : Nat) (alternative : Option Failure)
  | failure (cause : Failure)
deriving DecidableEq, Repr

/-- A rule, applied to the tokens and the index where it begins. -/
def Rule (α : Type) := Array Token → Nat → Outcome α

namespace Rule

variable {α β : Type}

/-- Takes nothing. -/
def pure (a : α) : Rule α := fun _ i => .success a i none

/-- One rule, then another that may depend on what the first has read. -/
def bind (r : Rule α) (f : α → Rule β) : Rule β := fun ts i =>
  match r ts i with
  | .failure cause => .failure cause
  | .success a j first =>
    match f a ts j with
    | .failure cause => .failure (cause.withAlternative first)
    | .success b k second => .success b k (Failure.furthest? first second)

instance : Monad Rule where
  pure := Rule.pure
  bind := Rule.bind

/-- One token that `read` accepts. -/
def token (expected : Expectation) (read : Token → Option α) : Rule α := fun ts i =>
  match ts[i]?.bind read with
  | some a => .success a (i + 1) none
  | none => .failure ⟨i, expected⟩

/-- The first rule, or where it fails the second. -/
def orElse (r : Rule α) (s : Unit → Rule α) : Rule α := fun ts i =>
  match r ts i with
  | .success a j alternative => .success a j alternative
  | .failure first =>
    match s () ts i with
    | .success a j alternative => .success a j alternative
    | .failure second => .failure (first.furthest second)

instance : OrElse (Rule α) := ⟨Rule.orElse⟩

/-- What the rule reads, or nothing where it fails. -/
def optional (r : Rule α) : Rule (Option α) := fun ts i =>
  match r ts i with
  | .success a j alternative => .success (some a) j alternative
  | .failure cause => .success none i (some cause)

/-- Tests the rule without taking anything. -/
def lookahead (r : Rule α) : Rule α := fun ts i =>
  match r ts i with
  | .success a _ alternative => .success a i alternative
  | .failure cause => .failure cause

/-- The rule as often as it succeeds and takes tokens. -/
def many (r : Rule α) : Rule (List α) := fun ts i =>
  match r ts i with
  | .failure cause => .success [] i (some cause)
  | .success a j first =>
    if _h : ts.size - j < ts.size - i then
      match many r ts j with
      | .failure cause => .failure cause
      | .success more k second => .success (a :: more) k (Failure.furthest? first second)
    else .success [] i first
termination_by ts i => ts.size - i

/-- The rule that `body` describes by means of the rule itself. The rule may use itself only where
tokens have been taken, and fails elsewhere. -/
def recursive (body : Rule α → Rule α) : Rule α := fun ts i =>
  body (fun ts' j =>
    if _h : ts'.size - j < ts.size - i then recursive body ts' j
    else .failure ⟨j, .unstated⟩) ts i
termination_by ts i => ts.size - i

/-! ## Derived rules -/

/-- The rule at least once, and as often as it succeeds. -/
def many1 (r : Rule α) : Rule (List α) := do
  let first ← r
  let more ← many r
  return first :: more

/-- At least one item, with separators between the items. -/
def sepBy1 (item : Rule α) (separator : Rule β) : Rule (List α) := do
  let first ← item
  let more ← many (do discard separator; item)
  return first :: more

/-- Items with separators between them. -/
def sepBy (item : Rule α) (separator : Rule β) : Rule (List α) := do
  let items ← optional (sepBy1 item separator)
  return items.getD []

/-- Items with separators between them; one more separator may follow the last item. -/
def sepByTrailing (item : Rule α) (separator : Rule β) : Rule (List α) := do
  let items ← optional do
    let items ← sepBy1 item separator
    discard (optional separator)
    return items
  return items.getD []

/-- The rule between two others. -/
def between {γ : Type} (before : Rule β) (after : Rule γ) (r : Rule α) : Rule α := do
  discard before
  let a ← r
  discard after
  return a

/-! ## Whole token lists -/

/-- What the rule reads from the front of a list of tokens, and how many tokens it takes. -/
def run (r : Rule α) (tokens : Array Token) : Except Failure (α × Nat) :=
  match r tokens 0 with
  | .success a next _ => .ok (a, next)
  | .failure cause => .error cause

end Rule

end ApiSurface
