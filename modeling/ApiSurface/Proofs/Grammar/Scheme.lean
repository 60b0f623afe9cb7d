import ApiSurface.Proofs.Grammar.Remainder

/-!
# Schemes of rules

A *scheme* is the way in which a rule is built from the combinators, with a rule left open that a
recursive one may call. What every combinator keeps holds of a rule with a scheme by one induction:
that it is local (`Scheme.isLocal`), for instance, if the open rule is.

The type of a scheme counts two things:

* `t`: a success takes at least one token.
* `g`: the open rule is called only behind a token.

A repetition exists for items that take a token only, and a recursion only for bodies that take a
token and call themselves behind one. So a rule with a scheme makes progress: whatever it repeats
takes tokens (`consumes_of_repeats`).
-/

namespace ApiSurface.Rule

/-! ## Rules that take tokens -/

section

variable {α β γ : Type}

/-- A success goes on from an index further to the right, at most the end of the tokens. -/
def Consumes (r : Rule α) : Prop :=
  ∀ ⦃ts : Array Token⦄ ⦃i j : Nat⦄ ⦃a : α⦄ ⦃alternative : Option Failure⦄,
    r ts i = .success a j alternative → i < j ∧ j ≤ ts.size

/-- A success takes tokens of the list; if `t` does not say otherwise, it may also take none. -/
def Moves (t : Bool) (r : Rule α) : Prop :=
  ∀ ⦃ts : Array Token⦄ ⦃i j : Nat⦄ ⦃a : α⦄ ⦃alternative : Option Failure⦄,
    r ts i = .success a j alternative → (i < j ∧ j ≤ ts.size) ∨ (t = false ∧ j = i)

/-- A rule that says so takes tokens with every success. -/
theorem moves_true_iff {r : Rule α} : Moves true r ↔ Consumes r := by
  simp [Moves, Consumes]

/-- Nothing need be said about whether tokens are taken. -/
theorem Moves.weaken {t : Bool} {r : Rule α} (h : Moves t r) : Moves false r := by
  intro ts i j a alternative hr
  rcases h hr with hj | ⟨-, hj⟩
  · exact .inl hj
  · exact .inr ⟨rfl, hj⟩

/-- A rule that gives a value takes no token. -/
theorem moves_pure (a : α) : Moves false (Pure.pure a : Rule α) := by
  intro ts i j b alternative h
  cases h
  exact .inr ⟨rfl, rfl⟩

/-- A rule for one token takes it. -/
theorem consumes_token (expected : Expectation) (read : Token → Option α) :
    Consumes (token expected read) := by
  intro ts i j a alternative h
  unfold token at h
  rcases hi : ts[i]? with _ | t
  · simp [hi] at h
  · have hlt : i < ts.size := (Array.getElem?_eq_some_iff.mp hi).1
    rcases hread : read t with _ | b
    · simp [hi, hread] at h
    · simp only [hi, Option.bind_some, hread, Outcome.success.injEq] at h
      omega

/-- Two rules one after the other take tokens if one of them does. -/
theorem moves_bind {t t' : Bool} {r : Rule α} {f : α → Rule β} (hr : Moves t r)
    (hf : ∀ a, Moves t' (f a)) : Moves (t || t') (r >>= f) := by
  intro ts i k b alternative h
  rw [bind_apply, Rule.bind] at h
  rcases hfirst : r ts i with ⟨a, j, first⟩ | cause
  · simp only [hfirst] at h
    rcases hsecond : f a ts j with ⟨b', k', second⟩ | cause
    · simp only [hsecond, Outcome.success.injEq] at h
      obtain ⟨-, rfl, -⟩ := h
      rcases hr hfirst with hj | ⟨rfl, rfl⟩
      · rcases hf a hsecond with hk | ⟨-, rfl⟩
        · exact .inl ⟨Nat.lt_trans hj.1 hk.1, hk.2⟩
        · exact .inl hj
      · rw [Bool.false_or]
        exact hf a hsecond
    · simp [hsecond] at h
  · simp [hfirst] at h

/-- A choice takes tokens if both its rules do. -/
theorem moves_orElse {t t' : Bool} {r s : Rule α} (hr : Moves t r) (hs : Moves t' s) :
    Moves (t && t') (r <|> s) := by
  intro ts i j a alternative h
  change Rule.orElse r (fun _ => s) ts i = _ at h
  rw [Rule.orElse] at h
  rcases hfirst : r ts i with ⟨b, k, first⟩ | cause
  · simp only [hfirst, Outcome.success.injEq] at h
    obtain ⟨-, rfl, -⟩ := h
    rcases hr hfirst with hj | ⟨rfl, hj⟩
    · exact .inl hj
    · exact .inr ⟨rfl, hj⟩
  · rcases hsecond : s ts i with ⟨b, k, second⟩ | second
    · simp only [hfirst, hsecond, Outcome.success.injEq] at h
      obtain ⟨-, rfl, -⟩ := h
      rcases hs hsecond with hj | ⟨rfl, hj⟩
      · exact .inl hj
      · exact .inr ⟨Bool.and_false t, hj⟩
    · simp [hfirst, hsecond] at h

/-- An option may take nothing. -/
theorem moves_optional {t : Bool} {r : Rule α} (hr : Moves t r) : Moves false (optional r) := by
  intro ts i j a alternative h
  rw [optional] at h
  rcases hfirst : r ts i with ⟨b, k, first⟩ | cause
  · simp only [hfirst, Outcome.success.injEq] at h
    obtain ⟨-, rfl, -⟩ := h
    exact hr.weaken hfirst
  · simp only [hfirst, Outcome.success.injEq] at h
    exact .inr ⟨rfl, h.2.1.symm⟩

/-- A look ahead takes nothing. -/
theorem moves_lookahead (r : Rule α) : Moves false (lookahead r) := by
  intro ts i j a alternative h
  rw [lookahead] at h
  rcases hfirst : r ts i with ⟨b, k, first⟩ | cause
  · simp only [hfirst, Outcome.success.injEq] at h
    exact .inr ⟨rfl, h.2.1.symm⟩
  · simp [hfirst] at h

/-- A repetition may take nothing, and stays in the list. -/
theorem moves_many {r : Rule α} (hr : Consumes r) : Moves false (many r) := by
  intro ts i j as alternative h
  -- On the number of tokens left: an item takes tokens, so fewer are left behind it.
  induction hn : ts.size - i using Nat.strongRecOn generalizing i as alternative with
  | _ n ih =>
    rw [many] at h
    rcases hfirst : r ts i with ⟨a, k, first⟩ | cause
    · have hk := hr hfirst
      simp only [hfirst, dif_pos (show ts.size - k < ts.size - i by omega)] at h
      rcases hmore : many r ts k with ⟨more, k', second⟩ | cause
      · simp only [hmore, Outcome.success.injEq] at h
        obtain ⟨-, rfl, -⟩ := h
        rcases ih _ (by omega) hmore rfl with hj | ⟨-, rfl⟩
        · exact .inl ⟨Nat.lt_trans hk.1 hj.1, hj.2⟩
        · exact .inl hk
      · simp [hmore] at h
    · simp only [hfirst, Outcome.success.injEq] at h
      exact .inr ⟨rfl, h.2.1.symm⟩

/-- An item with a separator in front takes tokens. -/
theorem consumes_separated {r : Rule α} {s : Rule β} {t : Bool} (hr : Consumes r)
    (hs : Moves t s) : Consumes (discard s >>= fun _ => r) := by
  rw [← moves_true_iff, ← Bool.or_true (t || false)]
  exact moves_bind (moves_bind hs fun _ => moves_pure ()) fun _ => moves_true_iff.mpr hr

/-- Items with separators take tokens. -/
theorem consumes_sepBy1 {r : Rule α} {s : Rule β} {t : Bool} (hr : Consumes r)
    (hs : Moves t s) : Consumes (sepBy1 r s) := by
  rw [← moves_true_iff, ← Bool.true_or (false || false)]
  refine moves_bind (moves_true_iff.mpr hr) fun _ => moves_bind ?_ fun _ => moves_pure _
  exact moves_many (consumes_separated hr hs)

/-- A bounded rule takes tokens if the rule does. -/
theorem Consumes.below {r : Rule α} (hr : Consumes r) (n : Nat) : Consumes (below n r) := by
  intro ts i j a alternative h
  rw [Rule.below] at h
  split_ifs at h
  exact hr h

/-- A recursive rule takes a token if its body does, for every rule that takes one in place of the
rule itself. -/
theorem consumes_recursive {body : Rule α → Rule α}
    (hbody : ∀ r, Consumes r → Consumes (body r)) : Consumes (recursive body) := by
  refine recursive_induction (fun _ _ _ _ _ h => nomatch h) ?_ hbody
  intro r s hs hr ts i j a alternative h
  rw [hr] at h
  exact hs _ h

end

/-! ## Schemes -/

/-- How a rule is built, for an open rule with values in the first type. -/
inductive Scheme : Type → Bool → Bool → Type → Type 1
  | pure {γ α : Type} (a : α) : Scheme γ false true α
  | token {γ α : Type} (expected : Expectation) (read : Token → Option α) : Scheme γ true true α
  /-- The open rule. -/
  | self {γ : Type} : Scheme γ true false γ
  | bind {γ α β : Type} {t t' t'' g g' g'' : Bool} (s : Scheme γ t g α)
      (f : α → Scheme γ t' g' β) : t'' = (t || t') → g'' = (g && (t || g')) → Scheme γ t'' g'' β
  | orElse {γ α : Type} {t t' t'' g g' g'' : Bool} (s : Scheme γ t g α) (u : Scheme γ t' g' α) :
      t'' = (t && t') → g'' = (g && g') → Scheme γ t'' g'' α
  | optional {γ α : Type} {t g : Bool} (s : Scheme γ t g α) : Scheme γ false g (Option α)
  | lookahead {γ α : Type} {t g : Bool} (s : Scheme γ t g α) : Scheme γ false g α
  | many {γ α : Type} {g : Bool} (s : Scheme γ true g α) : Scheme γ false g (List α)
  | sepBy1 {γ α β : Type} {t g g' : Bool} (s : Scheme γ true g α) (u : Scheme γ t g' β) :
      Scheme γ true g (List α)
  /-- A recursive rule calls itself in its body, and never the rule that is open around it. -/
  | recursive {γ δ : Type} (s : Scheme δ true true δ) : Scheme γ true true δ

namespace Scheme

variable {α β γ : Type} {t g : Bool}

/-- The rule that is built, for a rule in the open place. -/
def rule {γ α : Type} {t g : Bool} : Scheme γ t g α → Rule γ → Rule α
  | pure a, _ => Pure.pure a
  | token expected read, _ => Rule.token expected read
  | self, r => r
  | bind s f _ _, r => s.rule r >>= fun a => (f a).rule r
  | orElse s u _ _, r => s.rule r <|> u.rule r
  | optional s, r => Rule.optional (s.rule r)
  | lookahead s, r => Rule.lookahead (s.rule r)
  | many s, r => Rule.many (s.rule r)
  | sepBy1 s u, r => Rule.sepBy1 (s.rule r) (u.rule r)
  | recursive s, _ => Rule.recursive s.rule

/-- A success takes tokens, one at least if the scheme says so. -/
theorem moves {γ α : Type} {t g : Bool} (s : Scheme γ t g α) {r : Rule γ} (hr : Consumes r) :
    Moves t (s.rule r) := by
  induction s with
  | pure a => exact moves_pure a
  | token expected read => exact moves_true_iff.mpr (consumes_token expected read)
  | self => exact moves_true_iff.mpr hr
  | bind s f ht _ ihs ihf => exact ht ▸ moves_bind (ihs hr) fun a => ihf a hr
  | orElse s u ht _ ihs ihu => exact ht ▸ moves_orElse (ihs hr) (ihu hr)
  | optional s ih => exact moves_optional (ih hr)
  | lookahead s _ => exact moves_lookahead _
  | many s ih => exact moves_many (moves_true_iff.mp (ih hr))
  | sepBy1 s u ihs ihu =>
    exact moves_true_iff.mpr (consumes_sepBy1 (moves_true_iff.mp (ihs hr)) (ihu hr))
  | recursive s ih =>
    exact moves_true_iff.mpr (consumes_recursive fun r hr => moves_true_iff.mp (ih hr))

/-- A rule by a scheme takes tokens if the scheme says so and the open rule does. -/
theorem consumes {γ α : Type} {g : Bool} (s : Scheme γ true g α) {r : Rule γ} (hr : Consumes r) :
    Consumes (s.rule r) :=
  moves_true_iff.mp (s.moves hr)

/-- The rule for a body that is called in the open place of a recursive rule takes a token. -/
theorem consumes_rec (s : Scheme γ true true γ) : Consumes (Rule.recursive s.rule) :=
  consumes_recursive fun _ hr => s.consumes hr

/-- The rule is local if the one in the open place is. -/
theorem isLocal {γ α : Type} {t g : Bool} (s : Scheme γ t g α) {r : Rule γ} (hr : Local r) :
    Local (s.rule r) := by
  induction s with
  | pure a => exact inferInstanceAs (Local (Pure.pure a))
  | token expected read => exact inferInstanceAs (Local (Rule.token expected read))
  | self => exact hr
  | bind s f _ _ ihs ihf =>
    have := ihs hr
    have := fun a => ihf a hr
    exact inferInstanceAs (Local (s.rule r >>= fun a => (f a).rule r))
  | orElse s u _ _ ihs ihu =>
    have := ihs hr
    have := ihu hr
    exact inferInstanceAs (Local (s.rule r <|> u.rule r))
  | optional s ih =>
    have := ih hr
    exact inferInstanceAs (Local (Rule.optional (s.rule r)))
  | lookahead s ih =>
    have := ih hr
    exact inferInstanceAs (Local (Rule.lookahead (s.rule r)))
  | many s ih =>
    have := ih hr
    exact inferInstanceAs (Local (Rule.many (s.rule r)))
  | sepBy1 s u ihs ihu =>
    have := ihs hr
    have := ihu hr
    exact inferInstanceAs (Local (Rule.sepBy1 (s.rule r) (u.rule r)))
  | recursive s ih => exact local_recursive fun _ hr => ih hr

/-! ## What is repeated -/

/-- Whether a rule is repeated somewhere in the scheme, with or without separators, for the rule `r`
in the open place. With separators, the item is repeated, and so are the steps of a separator and an
item. Inside a recursive rule, that rule takes the open place. -/
def Repeats {γ α : Type} {t g : Bool} : Scheme γ t g α → Rule γ → (Σ β : Type, Rule β) → Prop
  | pure _, _, _ => False
  | token _ _, _, _ => False
  | self, _, _ => False
  | bind s f _ _, r, item => s.Repeats r item ∨ ∃ a, (f a).Repeats r item
  | orElse s u _ _, r, item => s.Repeats r item ∨ u.Repeats r item
  | optional s, r, item => s.Repeats r item
  | lookahead s, r, item => s.Repeats r item
  | many s, r, item => item = ⟨_, s.rule r⟩ ∨ s.Repeats r item
  | sepBy1 s u, r, item =>
    item = ⟨_, s.rule r⟩ ∨ item = ⟨_, discard (u.rule r) >>= fun _ => s.rule r⟩ ∨
      s.Repeats r item ∨ u.Repeats r item
  | recursive s, _, item => s.Repeats (Rule.recursive s.rule) item

/-- Every rule that is repeated takes a token. -/
theorem consumes_of_repeats {γ α : Type} {t g : Bool} {s : Scheme γ t g α} {r : Rule γ}
    (hr : Consumes r) {item : Σ β : Type, Rule β} (h : s.Repeats r item) : Consumes item.2 := by
  induction s with
  | pure _ => cases h
  | token _ _ => cases h
  | self => cases h
  | bind s f _ _ ihs ihf =>
    rcases h with h | ⟨a, h⟩
    · exact ihs hr h
    · exact ihf a hr h
  | orElse s u _ _ ihs ihu =>
    rcases h with h | h
    · exact ihs hr h
    · exact ihu hr h
  | optional s ih => exact ih hr h
  | lookahead s ih => exact ih hr h
  | many s ih =>
    rcases h with rfl | h
    · exact s.consumes hr
    · exact ih hr h
  | sepBy1 s u ihs ihu =>
    rcases h with rfl | rfl | h | h
    · exact s.consumes hr
    · exact consumes_separated (s.consumes hr) (u.moves hr)
    · exact ihs hr h
    · exact ihu hr h
  | recursive s ih => exact ih s.consumes_rec h

end Scheme

end ApiSurface.Rule
