import ApiSurface.Proofs.Grammar.Scheme

/-!
# Schemes as programs

The rules of the grammar end on every input because `many` and `recursive` test whether tokens have
been taken. A scheme can be run as a program without any of these tests, with fuel for the loops
instead. The program halts without an outcome where an item of a repetition takes no token, where a
recursive rule is called again where it began, and where the fuel is used up. None of this happens
if there is more fuel than tokens, and the program has the outcome of the rule (`Scheme.agrees`).
-/

namespace ApiSurface.Rule

/-! ## Programs -/

/-- Why a program has no outcome. -/
inductive Halt where
  /-- An item of a repetition has succeeded without a token. -/
  | stalled
  /-- A recursive rule has been called again where it began. -/
  | reentered
  /-- A loop has run out of fuel. -/
  | exhausted
deriving DecidableEq, Repr

/-- A rule that may halt without an outcome. -/
def Program (α : Type) := Array Token → Nat → Except Halt (Outcome α)

namespace Program

variable {α β : Type}

/-- The program that does what a rule does. -/
def ofRule (r : Rule α) : Program α := fun ts i => .ok (r ts i)

/-- One program, then another that may depend on what the first has read. -/
def bind (p : Program α) (f : α → Program β) : Program β := fun ts i =>
  match p ts i with
  | .error halt => .error halt
  | .ok (.failure cause) => .ok (.failure cause)
  | .ok (.success a j first) =>
    match f a ts j with
    | .error halt => .error halt
    | .ok (.failure cause) => .ok (.failure (cause.withAlternative first))
    | .ok (.success b k second) => .ok (.success b k (Failure.furthest? first second))

/-- The first program, or where it fails the second. -/
def orElse (p q : Program α) : Program α := fun ts i =>
  match p ts i with
  | .error halt => .error halt
  | .ok (.success a j alternative) => .ok (.success a j alternative)
  | .ok (.failure first) =>
    match q ts i with
    | .error halt => .error halt
    | .ok (.success a j alternative) => .ok (.success a j alternative)
    | .ok (.failure second) => .ok (.failure (first.furthest second))

/-- What the program reads, or nothing where it fails. -/
def optional (p : Program α) : Program (Option α) := fun ts i =>
  match p ts i with
  | .error halt => .error halt
  | .ok (.success a j alternative) => .ok (.success (some a) j alternative)
  | .ok (.failure cause) => .ok (.success none i (some cause))

/-- Tests the program without taking anything. -/
def lookahead (p : Program α) : Program α := fun ts i =>
  match p ts i with
  | .error halt => .error halt
  | .ok (.success a _ alternative) => .ok (.success a i alternative)
  | .ok (.failure cause) => .ok (.failure cause)

/-- The program for an item: it halts where it succeeds without a token. -/
def item (p : Program α) : Program α := fun ts i =>
  match p ts i with
  | .error halt => .error halt
  | .ok (.failure cause) => .ok (.failure cause)
  | .ok (.success a j alternative) =>
    if i < j then .ok (.success a j alternative) else .error .stalled

/-- The program for items as often as it succeeds, with fuel for the loop. -/
def many (p : Program α) : Nat → Array Token → Nat → Except Halt (Outcome (List α))
  | 0, _, _ => .error .exhausted
  | n + 1, ts, i =>
    match item p ts i with
    | .error halt => .error halt
    | .ok (.failure cause) => .ok (.success [] i (some cause))
    | .ok (.success a j first) =>
      match many p n ts j with
      | .error halt => .error halt
      | .ok (.failure cause) => .ok (.failure cause)
      | .ok (.success more k second) =>
        .ok (.success (a :: more) k (Failure.furthest? first second))

/-- At least one item, with separators between the items. -/
def sepBy1 (p : Program α) (q : Program β) (n : Nat) : Program (List α) :=
  bind (item p) fun first =>
    bind (many (bind (bind q fun _ => ofRule (Pure.pure ())) fun _ : Unit => item p) n) fun more =>
      ofRule (Pure.pure (first :: more))

/-- The program, called from index `i`: it halts where no token has been taken since. -/
def behind (i : Nat) (p : Program α) : Program α := fun ts j =>
  if i < j then p ts j else .error .reentered

/-- The program that `body` describes by means of the program itself, with fuel for the depth. -/
def recursive (body : Program α → Program α) : Nat → Array Token → Nat → Except Halt (Outcome α)
  | 0, _, _ => .error .exhausted
  | n + 1, ts, i => body (behind i (recursive body n)) ts i

end Program

/-- The scheme as a program, for a program in the open place. Neither a repetition nor a recursion
looks at how many tokens are left: each of them has fuel for `n` steps. -/
def Scheme.run {γ α : Type} {t g : Bool} (n : Nat) : Scheme γ t g α → Program γ → Program α
  | .pure a, _ => .ofRule (Pure.pure a)
  | .token expected read, _ => .ofRule (Rule.token expected read)
  | .self, p => p
  | .bind s f _ _, p => .bind (s.run n p) fun a => (f a).run n p
  | .orElse s u _ _, p => .orElse (s.run n p) (u.run n p)
  | .optional s, p => .optional (s.run n p)
  | .lookahead s, p => .lookahead (s.run n p)
  | .many s, p => .many (s.run n p) n
  | .sepBy1 s u, p => .sepBy1 (s.run n p) (u.run n p) n
  | .recursive s, _ => .recursive (s.run n) n

/-! ## Programs and rules -/

/-- At index `i`, the program has the outcome of the rule. -/
def Agrees {α : Type} (ts : Array Token) (i : Nat) (p : Program α) (r : Rule α) : Prop :=
  p ts i = .ok (r ts i)

section

variable {α β : Type} {ts : Array Token} {i : Nat}

/-- A rule is a program that halts. -/
theorem agrees_ofRule (r : Rule α) : Agrees ts i (.ofRule r) r := rfl

/-- Programs one after the other agree with rules one after the other. -/
theorem agrees_bind {p : Program α} {r : Rule α} {f : α → Program β} {e : α → Rule β}
    (hp : Agrees ts i p r)
    (hf : ∀ ⦃a j alternative⦄, r ts i = .success a j alternative → Agrees ts j (f a) (e a)) :
    Agrees ts i (.bind p f) (r >>= e) := by
  rw [Agrees, bind_apply, Program.bind, Rule.bind, hp]
  rcases hr : r ts i with ⟨a, j, first⟩ | cause
  · have hnext : f a ts j = .ok (e a ts j) := hf hr
    simp only [hnext]
    rcases e a ts j with ⟨b, k, second⟩ | cause
    · rfl
    · rfl
  · rfl

/-- A choice of programs agrees with the choice of rules. -/
theorem agrees_orElse {p q : Program α} {r s : Rule α} (hp : Agrees ts i p r)
    (hq : Agrees ts i q s) : Agrees ts i (.orElse p q) (r <|> s) := by
  show Program.orElse p q ts i = .ok (Rule.orElse r (fun _ => s) ts i)
  rw [Program.orElse, Rule.orElse, hp, hq]
  rcases r ts i with ⟨a, j, first⟩ | first
  · rfl
  · rcases s ts i with ⟨a, j, second⟩ | second
    · rfl
    · rfl

/-- An option of programs agrees with that of rules. -/
theorem agrees_optional {p : Program α} {r : Rule α} (hp : Agrees ts i p r) :
    Agrees ts i (.optional p) (Rule.optional r) := by
  rw [Agrees, Program.optional, Rule.optional, hp]
  rcases r ts i with ⟨a, j, first⟩ | cause
  · rfl
  · rfl

/-- A look ahead by a program agrees with that by a rule. -/
theorem agrees_lookahead {p : Program α} {r : Rule α} (hp : Agrees ts i p r) :
    Agrees ts i (.lookahead p) (Rule.lookahead r) := by
  rw [Agrees, Program.lookahead, Rule.lookahead, hp]
  rcases r ts i with ⟨a, j, first⟩ | cause
  · rfl
  · rfl

/-- An item that takes a token does not stall. -/
theorem agrees_item {p : Program α} {r : Rule α} (hr : Consumes r) (hp : Agrees ts i p r) :
    Agrees ts i (.item p) r := by
  rw [Agrees, Program.item, hp]
  rcases hfirst : r ts i with ⟨a, j, first⟩ | cause
  · simp only [if_pos (hr hfirst).1]
  · rfl

/-- With more fuel than tokens, a repetition does not run out of it. -/
theorem agrees_many {p : Program α} {r : Rule α} {n : Nat} (hr : Consumes r)
    (hp : ∀ j, j = i ∨ (i < j ∧ j ≤ ts.size) → Agrees ts j p r) (hn : ts.size - i < n) :
    Agrees ts i (.many p n) (Rule.many r) := by
  induction n generalizing i with
  | zero => omega
  | succ n ih =>
    have hitem : Program.item p ts i = .ok (r ts i) := agrees_item hr (hp i (.inl rfl))
    show Program.many p (n + 1) ts i = .ok (Rule.many r ts i)
    rw [Program.many, hitem, Rule.many]
    rcases hfirst : r ts i with ⟨a, j, first⟩ | cause
    · have hj := hr hfirst
      have hmore : Program.many p n ts j = .ok (Rule.many r ts j) :=
        ih (fun k hk => hp k (by omega)) (by omega)
      simp only [hmore, dif_pos (show ts.size - j < ts.size - i by omega)]
      rcases Rule.many r ts j with ⟨more, k, second⟩ | cause
      · rfl
      · rfl
    · rfl

/-- Items with separators agree, if there is fuel for more tokens than are left. -/
theorem agrees_sepBy1 {p : Program α} {q : Program β} {r : Rule α} {s : Rule β} {t : Bool}
    {n : Nat} (hr : Consumes r) (hs : Moves t s)
    (hp : ∀ j, j = i ∨ (i < j ∧ j ≤ ts.size) → Agrees ts j p r)
    (hq : ∀ j, i < j ∧ j ≤ ts.size → Agrees ts j q s) (hn : ts.size - i < n) :
    Agrees ts i (.sepBy1 p q n) (Rule.sepBy1 r s) := by
  refine agrees_bind (agrees_item hr (hp i (.inl rfl))) fun first j alternative hfirst => ?_
  have hj := hr hfirst
  refine agrees_bind (agrees_many (consumes_separated hr hs) ?_ (by omega)) ?_
  · intro k hk
    refine agrees_bind (agrees_bind (hq k (by omega)) fun _ _ _ _ => agrees_ofRule _) ?_
    intro _ l _ hseparator
    have hl := (moves_bind hs fun _ => moves_pure ()) hseparator
    exact agrees_item hr (hp l (by omega))
  · intro _ _ _ _
    exact agrees_ofRule _

/-- With more fuel than tokens, a recursion whose body calls itself behind a token does not run out
of it. -/
theorem agrees_recursive {body : Rule α → Rule α} {step : Program α → Program α} {n : Nat}
    (hbody : Consumes (recursive body))
    (hstep : ∀ ⦃i : Nat⦄ ⦃r : Rule α⦄ ⦃p : Program α⦄, ts.size - i < n → Consumes r →
      (∀ j, i < j ∧ j ≤ ts.size → Agrees ts j p r) → Agrees ts i (step p) (body r))
    {m : Nat} (hm : m ≤ n) (hi : ts.size - i < m) :
    Agrees ts i (.recursive step m) (Rule.recursive body) := by
  induction m generalizing i with
  | zero => omega
  | succ m ih =>
    show Program.recursive step (m + 1) ts i = .ok (Rule.recursive body ts i)
    rw [recursive_eq, Program.recursive]
    apply hstep (by omega) (hbody.below _)
    intro j hj
    show (if i < j then Program.recursive step m ts j else .error .reentered) = _
    rw [if_pos hj.1, Rule.below, if_pos (by omega)]
    exact ih (by omega) (by omega)

end

namespace Scheme

/-- Where the program in the open place has the outcomes of the rule there, the scheme as a program
has the outcome of the rule that it builds. -/
theorem agrees {γ α : Type} {t g : Bool} (s : Scheme γ t g α) {r : Rule γ} {p : Program γ}
    {ts : Array Token} {i n : Nat} (hr : Consumes r) (hn : ts.size - i < n)
    (hbehind : ∀ j, i < j ∧ j ≤ ts.size → Agrees ts j p r) (hself : g = false → Agrees ts i p r) :
    Agrees ts i (s.run n p) (s.rule r) := by
  induction s generalizing i with
  | pure _ => rfl
  | token _ _ => rfl
  | self => exact hself rfl
  | @bind _ _ _ t t' _ g g' _ s f _ hg ihs ihf =>
    refine agrees_bind (ihs hr hn hbehind fun h => hself (by simp [hg, h])) ?_
    intro a j alternative hfirst
    -- Behind a first part that took tokens the open rule is called further on; one that took none
    -- leaves the second part where it was.
    rcases s.moves hr hfirst with hj | ⟨rfl, rfl⟩
    · exact ihf a hr (by omega) (fun k hk => hbehind k (by omega)) fun _ => hbehind j hj
    · exact ihf a hr hn hbehind fun h => hself (by simp [hg, h])
  | orElse s u _ hg ihs ihu =>
    refine agrees_orElse (ihs hr hn hbehind fun h => hself (by simp [hg, h])) ?_
    exact ihu hr hn hbehind fun h => hself (by simp [hg, h])
  | optional s ih => exact agrees_optional (ih hr hn hbehind hself)
  | lookahead s ih => exact agrees_lookahead (ih hr hn hbehind hself)
  | many s ih =>
    refine agrees_many (s.consumes hr) ?_ hn
    rintro j (rfl | hj)
    · exact ih hr hn hbehind hself
    · exact ih hr (by omega) (fun k hk => hbehind k (by omega)) fun _ => hbehind j hj
  | sepBy1 s u ihs ihu =>
    refine agrees_sepBy1 (s.consumes hr) (u.moves hr) ?_ ?_ hn
    · rintro j (rfl | hj)
      · exact ihs hr hn hbehind hself
      · exact ihs hr (by omega) (fun k hk => hbehind k (by omega)) fun _ => hbehind j hj
    · intro j hj
      exact ihu hr (by omega) (fun k hk => hbehind k (by omega)) fun _ => hbehind j hj
  | recursive s ih =>
    refine agrees_recursive s.consumes_rec ?_ (Nat.le_refl n) hn
    intro j r p hj hr hp
    exact ih hr hj hp (by simp)

/-- A scheme that never calls the open rule where it begins builds a rule whose outcome depends only
on what the open rule does behind a token. -/
theorem rule_congr {γ α : Type} {t : Bool} (s : Scheme γ t true α) {r r' : Rule γ}
    (hr : Consumes r) (hr' : Consumes r') {ts : Array Token} {i : Nat}
    (h : ∀ j, i < j → r ts j = r' ts j) : s.rule r ts i = s.rule r' ts i := by
  have hfirst : Agrees ts i (s.run (ts.size - i + 1) (.ofRule r)) (s.rule r) :=
    s.agrees hr (Nat.lt_succ_self _) (fun _ _ => rfl) (by simp)
  have hsecond : Agrees ts i (s.run (ts.size - i + 1) (.ofRule r)) (s.rule r') :=
    s.agrees hr' (Nat.lt_succ_self _) (fun j hj => congrArg Except.ok (h j hj.1)) (by simp)
  exact Except.ok.inj (hfirst.symm.trans hsecond)

end Scheme

end ApiSurface.Rule
