import ApiSurface.Grammar.Rule
import Mathlib.Tactic.SplitIfs

/-!
# Rules as functions of what is left to read

A rule is given an array of tokens and an index. The rules of the grammar look at the tokens from
the index on and at nothing else: not at the index, not at the tokens before it. A rule with this
property is `Local`, and every combinator keeps it.

For a local rule one list function says it all: `r.on l` is the value that `r` reads off the front
of `l` and the part of `l` that it leaves, or nothing if `r` refuses `l`. For each combinator there
is one equation for `on`, so that what a rule does to a list can be computed along the definition of
the rule. Failures and their expectations are left out of this view.

Recursion is the one place where the index counts: a recursive rule may call itself only where fewer
tokens are left. `below n r` is the rule `r` under this restriction, and `on_recursive` unfolds a
recursive rule once.
-/

namespace ApiSurface

variable {α β γ : Type}

/-- The value of an outcome and the tokens behind it; nothing for a failure. -/
def Outcome.view (ts : Array Token) : Outcome α → Option (α × List Token)
  | .success a j _ => some (a, ts.toList.drop j)
  | .failure _ => none

/-- Of a success its value is seen, and the tokens behind it. -/
@[simp] theorem Outcome.view_success (ts : Array Token) (a : α) (j : Nat)
    (alternative : Option Failure) :
    (Outcome.success a j alternative).view ts = some (a, ts.toList.drop j) := rfl

/-- Of a failure nothing is seen. -/
@[simp] theorem Outcome.view_failure (ts : Array Token) (cause : Failure) :
    (Outcome.failure cause : Outcome α).view ts = none := rfl

namespace Rule

/-- The rule stays between its index and the end of the tokens, and depends only on the tokens from
its index on. -/
class Local (r : Rule α) : Prop where
  /-- A success goes on from an index between the first one and the end. -/
  bounds : ∀ {ts : Array Token} {i j : Nat} {a : α} {alternative : Option Failure},
    i ≤ ts.size → r ts i = .success a j alternative → i ≤ j ∧ j ≤ ts.size
  /-- Where the same tokens are left, the same is read. -/
  view_congr : ∀ {ts ts' : Array Token} {i i' : Nat}, i ≤ ts.size → i' ≤ ts'.size →
    ts.toList.drop i = ts'.toList.drop i' → (r ts i).view ts = (r ts' i').view ts'

/-- What a rule reads off the front of a list, and what it leaves of it. -/
def on (r : Rule α) (l : List Token) : Option (α × List Token) :=
  (r l.toArray 0).view l.toArray

/-- At any index, a local rule does what it does to the list that is left. -/
theorem view_eq_on (r : Rule α) [Local r] {ts : Array Token} {i : Nat} (hi : i ≤ ts.size) :
    (r ts i).view ts = r.on (ts.toList.drop i) := by
  apply Local.view_congr hi (Nat.zero_le _)
  simp

/-- A rule succeeds at an index exactly if it reads the value off what is left there, and the index
it goes on from is the one behind. -/
theorem exists_success_iff (r : Rule α) [Local r] {ts : Array Token} {i j : Nat} {a : α}
    (hi : i ≤ ts.size) :
    (∃ alternative, r ts i = .success a j alternative) ↔
      (i ≤ j ∧ j ≤ ts.size) ∧ r.on (ts.toList.drop i) = some (a, ts.toList.drop j) := by
  have hview := view_eq_on r hi
  constructor
  · rintro ⟨alternative, h⟩
    rw [h, Outcome.view_success] at hview
    exact ⟨Local.bounds hi h, hview.symm⟩
  · rintro ⟨⟨-, hj⟩, hon⟩
    rw [hon] at hview
    rcases h : r ts i with ⟨b, k, alternative⟩ | cause
    · have hk := Local.bounds hi h
      rw [h, Outcome.view_success] at hview
      obtain ⟨rfl, hdrop⟩ := Prod.mk.inj (Option.some.inj hview)
      have hlen := congrArg List.length hdrop
      simp only [List.length_drop, Array.length_toList] at hlen
      obtain rfl : k = j := by omega
      exact ⟨alternative, rfl⟩
    · rw [h] at hview
      cases hview

/-- A rule succeeds at an index exactly if what is left there is cut in two: the tokens that the
rule reads the value off, and those from the index on that it goes on from. -/
theorem exists_success_iff_append (r : Rule α) [Local r] {ts : Array Token} {i j : Nat} {a : α}
    (hi : i ≤ ts.size) :
    (∃ alternative, r ts i = .success a j alternative) ↔
      ∃ w rest, ts.toList.drop i = w ++ rest ∧ j = i + w.length ∧
        r.on (w ++ rest) = some (a, rest) := by
  rw [exists_success_iff r hi]
  constructor
  · rintro ⟨⟨hij, hj⟩, hon⟩
    have hdrop := List.drop_drop (i := j - i) (j := i) (l := ts.toList)
    rw [Nat.add_sub_cancel' hij] at hdrop
    have hcut := List.take_append_drop (j - i) (ts.toList.drop i)
    rw [hdrop] at hcut
    refine ⟨(ts.toList.drop i).take (j - i), ts.toList.drop j, hcut.symm, ?_, ?_⟩
    · simp
      omega
    · rw [hcut]
      exact hon
  · rintro ⟨w, rest, hw, rfl, hon⟩
    have hlen := congrArg List.length hw
    simp only [List.length_append, List.length_drop, Array.length_toList] at hlen
    refine ⟨by omega, ?_⟩
    rw [← List.drop_drop, hw, List.drop_left]
    exact hon

/-- Of a rule that fails behind the last token the same holds at every index. -/
theorem exists_success_iff_append_of_fails (r : Rule α) [Local r]
    (hfails : ∀ (ts : Array Token) (i : Nat), ts.size ≤ i → ∃ cause, r ts i = .failure cause)
    {ts : Array Token} {i j : Nat} {a : α} :
    (∃ alternative, r ts i = .success a j alternative) ↔
      ∃ w rest, ts.toList.drop i = w ++ rest ∧ j = i + w.length ∧
        r.on (w ++ rest) = some (a, rest) := by
  by_cases hi : i ≤ ts.size
  · exact exists_success_iff_append r hi
  · have hend : ts.toList.drop i = [] := List.drop_eq_nil_of_le (by simp; omega)
    have hnil : r.on [] = none := by
      obtain ⟨cause, hcause⟩ := hfails #[] 0 (Nat.le_refl 0)
      rw [on, hcause, Outcome.view_failure]
    obtain ⟨cause, hcause⟩ := hfails ts i (Nat.le_of_not_le hi)
    constructor
    · rintro ⟨alternative, h⟩
      rw [hcause] at h
      cases h
    · rintro ⟨w, rest, hw, -, hon⟩
      rw [← hw, hend, hnil] at hon
      cases hon

/-- A piece of a list has its items in their order. -/
theorem extract_sublist (l : List Token) (i j : Nat) : (l.extract i j).Sublist l := by
  rw [List.extract_eq_take_drop]
  exact (List.take_sublist _ _).trans (List.drop_sublist _ _)

/-- A rule that succeeds reads its value off the tokens it takes and leaves the others. -/
theorem on_of_success {r : Rule α} [Local r] {tokens : List Token} {i j : Nat} {a : α}
    {alternative : Option Failure} (hi : i ≤ tokens.length)
    (h : r tokens.toArray i = .success a j alternative) :
    r.on (tokens.extract i j ++ tokens.drop j) = some (a, tokens.drop j) := by
  obtain ⟨⟨hij, hj⟩, hon⟩ := (exists_success_iff r (by simpa using hi)).mp ⟨alternative, h⟩
  have hcut : tokens.extract i j ++ tokens.drop j = tokens.drop i := by
    have hdrop := List.drop_drop (i := j - i) (j := i) (l := tokens)
    rw [Nat.add_sub_cancel' hij] at hdrop
    rw [List.extract_eq_take_drop, ← hdrop, List.take_append_drop]
  rw [hcut]
  exact hon

/-- A run reads off the front of a list what the rule does, and counts the tokens it takes. -/
theorem run_eq_ok_iff (r : Rule α) [Local r] {l : List Token} {a : α} {n : Nat} :
    r.run l.toArray = .ok (a, n) ↔ n ≤ l.length ∧ r.on l = some (a, l.drop n) := by
  have h : (∃ alternative, r l.toArray 0 = .success a n alternative) ↔ _ :=
    exists_success_iff r (Nat.zero_le _)
  simp only [Nat.zero_le, true_and, List.size_toArray, List.drop_zero] at h
  rw [← h, run]
  rcases r l.toArray 0 with ⟨b, j, alternative⟩ | cause <;> simp

/-- A local rule never leaves more than it was given. -/
theorem length_le_of_on {r : Rule α} [Local r] {l m : List Token} {a : α}
    (h : r.on l = some (a, m)) : m.length ≤ l.length := by
  unfold on at h
  rcases hr : r l.toArray 0 with ⟨b, j, alternative⟩ | cause
  · rw [hr, Outcome.view_success] at h
    simp only [Option.some.injEq, Prod.mk.injEq] at h
    rw [← h.2]
    simp
  · rw [hr] at h
    cases h

/-- As many tokens are left as there are behind the index. -/
theorem length_drop_toList (ts : Array Token) (i : Nat) :
    (ts.toList.drop i).length = ts.size - i := by
  simp

/-- A rule whose view is a function of the remaining list is local. -/
theorem Local.of_view {r : Rule α} (g : List Token → Option (α × List Token))
    (hbounds : ∀ {ts : Array Token} {i j : Nat} {a : α} {alternative : Option Failure},
      i ≤ ts.size → r ts i = .success a j alternative → i ≤ j ∧ j ≤ ts.size)
    (hview : ∀ {ts : Array Token} {i : Nat}, i ≤ ts.size →
      (r ts i).view ts = g (ts.toList.drop i)) : Local r where
  bounds := hbounds
  view_congr := by
    intro ts ts' i i' hi hi' hd
    rw [hview hi, hview hi', hd]

/-! ## Taking nothing, and one rule after another -/

instance (a : α) : Local (Pure.pure a : Rule α) where
  bounds := by
    intro ts i j b alternative hi h
    cases h
    exact ⟨Nat.le_refl _, hi⟩
  view_congr := by
    intro ts ts' i i' _ _ hd
    show some (a, ts.toList.drop i) = some (a, ts'.toList.drop i')
    rw [hd]

/-- A rule that gives a value leaves all tokens. -/
@[simp] theorem on_pure (a : α) (l : List Token) :
    (Pure.pure a : Rule α).on l = some (a, l) := rfl

/-- Two rules one after the other, at an index. -/
theorem bind_apply (r : Rule α) (f : α → Rule β) (ts : Array Token) (i : Nat) :
    (r >>= f) ts i = Rule.bind r f ts i := rfl

/-- The second rule reads what the first has left. -/
theorem view_bind (r : Rule α) (f : α → Rule β) [Local r] [∀ a, Local (f a)] {ts : Array Token}
    {i : Nat} (hi : i ≤ ts.size) :
    ((r >>= f) ts i).view ts = (r.on (ts.toList.drop i)).bind fun p => (f p.1).on p.2 := by
  rw [← view_eq_on r hi, bind_apply, Rule.bind]
  rcases hr : r ts i with ⟨a, j, alternative⟩ | cause
  · have hj := (Local.bounds hi hr).2
    simp only [Outcome.view_success, Option.bind_some]
    rw [← view_eq_on (f a) hj]
    rcases f a ts j with ⟨b, k, second⟩ | cause <;> rfl
  · rfl

instance (r : Rule α) (f : α → Rule β) [Local r] [∀ a, Local (f a)] : Local (r >>= f) := by
  refine Local.of_view (fun l => (r.on l).bind fun p => (f p.1).on p.2) ?_ (view_bind r f)
  intro ts i k b alternative hi h
  rw [bind_apply, Rule.bind] at h
  rcases hr : r ts i with ⟨a, j, first⟩ | cause
  · have hj := Local.bounds hi hr
    simp only [hr] at h
    rcases hf : f a ts j with ⟨b', k', second⟩ | cause
    · simp only [hf, Outcome.success.injEq] at h
      obtain ⟨-, rfl, -⟩ := h
      have hk := Local.bounds hj.2 hf
      exact ⟨Nat.le_trans hj.1 hk.1, hk.2⟩
    · simp only [hf] at h
      cases h
  · simp only [hr] at h
    cases h

/-- The second rule reads what the first has left of a list. -/
@[simp] theorem on_bind (r : Rule α) (f : α → Rule β) [Local r] [∀ a, Local (f a)]
    (l : List Token) : (r >>= f).on l = (r.on l).bind fun p => (f p.1).on p.2 := by
  have h : ((r >>= f) l.toArray 0).view l.toArray = _ := view_bind r f (Nat.zero_le _)
  rwa [List.drop_zero] at h

/-- A failure of the first rule is one of both. -/
theorem bind_of_failure {r : Rule α} {f : α → Rule β} {ts : Array Token} {i : Nat}
    {cause : Failure} (h : r ts i = .failure cause) : (r >>= f) ts i = .failure cause := by
  rw [bind_apply, Rule.bind, h]

/-- A failure is not discarded. -/
theorem discard_of_failure {r : Rule α} {ts : Array Token} {i : Nat} {cause : Failure}
    (h : r ts i = .failure cause) : (discard r : Rule Unit) ts i = .failure cause :=
  bind_of_failure (f := fun _ => Pure.pure ()) h

instance (r : Rule α) [Local r] : Local (discard r) :=
  inferInstanceAs (Local (r >>= fun _ => Pure.pure ()))

/-- What is left of a list does not depend on the value. -/
@[simp] theorem on_discard (r : Rule α) [Local r] (l : List Token) :
    (discard r : Rule Unit).on l = (r.on l).map fun p => ((), p.2) := by
  have h : (discard r : Rule Unit) = (r >>= fun _ => Pure.pure ()) := rfl
  rw [h, on_bind]
  rcases r.on l with _ | p <;> rfl

/-! ## One token -/

/-- A rule for one token sees only the next one. -/
theorem view_token (expected : Expectation) (read : Token → Option α) (ts : Array Token)
    (i : Nat) :
    (token expected read ts i).view ts =
      match ts.toList.drop i with
      | [] => none
      | t :: l => (read t).map fun a => (a, l) := by
  unfold token
  rcases hd : ts.toList.drop i with _ | ⟨t, l⟩
  · have hi : ts[i]? = none := by
      rw [← Array.getElem?_toList, ← List.head?_drop, hd]
      rfl
    simp [hi]
  · have hi : ts[i]? = some t := by
      rw [← Array.getElem?_toList, ← List.head?_drop, hd]
      rfl
    have hl : ts.toList.drop (i + 1) = l := by
      rw [← List.tail_drop, hd]
      rfl
    simp only [hi, Option.bind_some]
    rcases read t with _ | a
    · rfl
    · simp [hl]

instance (expected : Expectation) (read : Token → Option α) : Local (token expected read) := by
  refine Local.of_view (fun l => match l with
    | [] => none
    | t :: l => (read t).map fun a => (a, l)) ?_ (fun _ => view_token expected read _ _)
  intro ts i j a alternative _ h
  unfold token at h
  rcases hi : ts[i]? with _ | t
  · simp [hi] at h
  · have hlt : i < ts.size := (Array.getElem?_eq_some_iff.mp hi).1
    simp only [hi, Option.bind_some] at h
    rcases hr : read t with _ | b
    · simp [hr] at h
    · simp only [hr, Outcome.success.injEq] at h
      omega

/-- A rule for one token fails at the end of a list. -/
@[simp] theorem on_token_nil (expected : Expectation) (read : Token → Option α) :
    (token expected read).on [] = none := rfl

/-- A rule for one token reads the first of a list. -/
@[simp] theorem on_token_cons (expected : Expectation) (read : Token → Option α) (t : Token)
    (l : List Token) : (token expected read).on (t :: l) = (read t).map fun a => (a, l) := by
  unfold on
  rw [view_token]
  rfl

/-! ## Choice, option and lookahead -/

/-- The second rule is only seen where the first fails. -/
theorem view_orElse (r s : Rule α) (ts : Array Token) (i : Nat) :
    ((r <|> s) ts i).view ts = ((r ts i).view ts).or ((s ts i).view ts) := by
  show (Rule.orElse r (fun _ => s) ts i).view ts = _
  unfold Rule.orElse
  rcases r ts i with ⟨a, j, alternative⟩ | cause
  · rfl
  · dsimp only
    rcases s ts i with ⟨a, j, alternative⟩ | second <;> rfl

/-- Where both rules fail there is no choice. -/
theorem orElse_of_failure {r s : Rule α} {ts : Array Token} {i : Nat}
    (hr : ∃ cause, r ts i = .failure cause) (hs : ∃ cause, s ts i = .failure cause) :
    ∃ cause, (r <|> s) ts i = .failure cause := by
  obtain ⟨first, hr⟩ := hr
  obtain ⟨second, hs⟩ := hs
  refine ⟨first.furthest second, ?_⟩
  show Rule.orElse r (fun _ => s) ts i = _
  simp only [Rule.orElse, hr, hs]

instance (r s : Rule α) [Local r] [Local s] : Local (r <|> s) where
  bounds := by
    intro ts i j a alternative hi h
    change Rule.orElse r (fun _ => s) ts i = _ at h
    unfold Rule.orElse at h
    rcases hr : r ts i with ⟨b, k, first⟩ | cause
    · simp only [hr, Outcome.success.injEq] at h
      obtain ⟨-, rfl, -⟩ := h
      exact Local.bounds hi hr
    · rcases hs : s ts i with ⟨b, k, second⟩ | second
      · simp only [hr, hs, Outcome.success.injEq] at h
        obtain ⟨-, rfl, -⟩ := h
        exact Local.bounds hi hs
      · simp [hr, hs] at h
  view_congr := by
    intro ts ts' i i' hi hi' hd
    rw [view_orElse, view_orElse, Local.view_congr (r := r) hi hi' hd,
      Local.view_congr (r := s) hi hi' hd]

/-- The second rule only reads a list that the first does not. -/
@[simp] theorem on_orElse (r s : Rule α) (l : List Token) :
    (r <|> s).on l = (r.on l).or (s.on l) :=
  view_orElse r s _ _

/-- An option takes nothing where its rule fails. -/
theorem view_optional (r : Rule α) (ts : Array Token) (i : Nat) :
    (optional r ts i).view ts =
      (((r ts i).view ts).map fun p => (some p.1, p.2)).or (some (none, ts.toList.drop i)) := by
  unfold optional
  rcases r ts i with ⟨a, j, alternative⟩ | cause <;> rfl

instance (r : Rule α) [Local r] : Local (optional r) where
  bounds := by
    intro ts i j a alternative hi h
    unfold optional at h
    rcases hr : r ts i with ⟨b, k, first⟩ | cause
    · simp only [hr, Outcome.success.injEq] at h
      obtain ⟨-, rfl, -⟩ := h
      exact Local.bounds hi hr
    · simp only [hr, Outcome.success.injEq] at h
      omega
  view_congr := by
    intro ts ts' i i' hi hi' hd
    rw [view_optional, view_optional, Local.view_congr (r := r) hi hi' hd, hd]

/-- An option leaves a list that its rule does not read. -/
theorem on_optional (r : Rule α) (l : List Token) :
    (optional r).on l = ((r.on l).map fun p => (some p.1, p.2)).or (some (none, l)) :=
  view_optional r _ _

/-- What a look ahead reads is still left. -/
theorem view_lookahead (r : Rule α) (ts : Array Token) (i : Nat) :
    (lookahead r ts i).view ts = ((r ts i).view ts).map fun p => (p.1, ts.toList.drop i) := by
  unfold lookahead
  rcases r ts i with ⟨a, j, alternative⟩ | cause <;> rfl

instance (r : Rule α) [Local r] : Local (lookahead r) where
  bounds := by
    intro ts i j a alternative hi h
    unfold lookahead at h
    rcases hr : r ts i with ⟨b, k, first⟩ | cause
    · simp only [hr, Outcome.success.injEq] at h
      omega
    · simp [hr] at h
  view_congr := by
    intro ts ts' i i' hi hi' hd
    rw [view_lookahead, view_lookahead, Local.view_congr (r := r) hi hi' hd, hd]

/-- What a look ahead reads of a list is still left. -/
@[simp] theorem on_lookahead (r : Rule α) (l : List Token) :
    (lookahead r).on l = (r.on l).map fun p => (p.1, l) :=
  view_lookahead r _ _

/-! ## Repetition -/

/-- A repetition stays between its index and the end of the tokens. -/
theorem many_bounds (r : Rule α) [Local r] {ts : Array Token} {i j : Nat} {as : List α}
    {alternative : Option Failure} (hi : i ≤ ts.size)
    (h : many r ts i = .success as j alternative) : i ≤ j ∧ j ≤ ts.size := by
  induction hn : ts.size - i using Nat.strongRecOn generalizing i as alternative with
  | _ n ih =>
    rw [many] at h
    rcases hr : r ts i with ⟨a, k, first⟩ | cause
    · simp only [hr] at h
      have hk := Local.bounds hi hr
      split_ifs at h with hlt
      · rcases hm : many r ts k with ⟨more, k', second⟩ | cause
        · simp only [hm, Outcome.success.injEq] at h
          obtain ⟨-, rfl, -⟩ := h
          have hj := ih _ (by omega) hk.2 hm rfl
          exact ⟨Nat.le_trans hk.1 hj.1, hj.2⟩
        · simp [hm] at h
      · simp only [Outcome.success.injEq] at h
        omega
    · simp only [hr, Outcome.success.injEq] at h
      omega

/-- A repetition reads an item and goes on, as long as that takes tokens. -/
theorem view_many (r : Rule α) {ts : Array Token} {i : Nat} :
    (many r ts i).view ts =
      match r ts i with
      | .failure _ => some ([], ts.toList.drop i)
      | .success a j _ =>
        if (ts.toList.drop j).length < (ts.toList.drop i).length then
          ((many r ts j).view ts).map fun p => (a :: p.1, p.2)
        else some ([], ts.toList.drop i) := by
  rw [many]
  rcases r ts i with ⟨a, j, first⟩ | cause
  · simp only [length_drop_toList]
    split_ifs
    · rcases many r ts j with ⟨more, k, second⟩ | cause <;> rfl
    · rfl
  · rfl

/-- A repetition depends only on the tokens from its index on. -/
theorem many_view_congr (r : Rule α) [Local r] {ts ts' : Array Token} {i i' : Nat}
    (hi : i ≤ ts.size) (hi' : i' ≤ ts'.size) (hd : ts.toList.drop i = ts'.toList.drop i') :
    (many r ts i).view ts = (many r ts' i').view ts' := by
  induction hn : ts.size - i using Nat.strongRecOn generalizing i i' with
  | _ n ih =>
    rw [view_many, view_many, hd]
    have hv := Local.view_congr (r := r) hi hi' hd
    rcases hr : r ts i with ⟨a, j, first⟩ | cause <;>
      rcases hr' : r ts' i' with ⟨a', j', first'⟩ | cause' <;>
      rw [hr, hr'] at hv <;>
      simp only [Outcome.view_success, Outcome.view_failure, Option.some.injEq, Prod.mk.injEq,
        reduceCtorEq] at hv ⊢
    obtain ⟨rfl, hj⟩ := hv
    rw [hj]
    split_ifs with hlt
    · have hlen := hlt
      rw [← hj, ← hd, length_drop_toList, length_drop_toList] at hlen
      rw [ih _ (by omega) (Local.bounds hi hr).2 (Local.bounds hi' hr').2 hj rfl]
    · rfl

instance (r : Rule α) [Local r] : Local (many r) where
  bounds := many_bounds r
  view_congr := many_view_congr r

/-- A repetition of a list reads an item and goes on, as long as that takes tokens. -/
theorem on_many (r : Rule α) [Local r] (l : List Token) :
    (many r).on l =
      match r.on l with
      | none => some ([], l)
      | some (a, m) =>
        if m.length < l.length then ((many r).on m).map fun p => (a :: p.1, p.2)
        else some ([], l) := by
  unfold on
  rw [view_many]
  rcases hr : r l.toArray 0 with ⟨a, j, first⟩ | cause
  · have hj := (Local.bounds (Nat.zero_le _) hr).2
    have hm := view_eq_on (many r) hj
    unfold on at hm
    simp only [Outcome.view_success, List.drop_zero] at hm ⊢
    rw [hm]
  · rfl

/-- Repetition ends where the rule refuses. -/
theorem on_many_of_none {r : Rule α} [Local r] {l : List Token} (h : r.on l = none) :
    (many r).on l = some ([], l) := by
  rw [on_many, h]

/-- Repetition goes on where the rule takes something. -/
theorem on_many_of_some {r : Rule α} [Local r] {l m rest : List Token} {a : α} {as : List α}
    (h : r.on l = some (a, m)) (hlt : m.length < l.length)
    (hm : (many r).on m = some (as, rest)) : (many r).on l = some (a :: as, rest) := by
  rw [on_many, h]
  simp [hlt, hm]

/-- Repetition never fails. -/
theorem exists_on_many (r : Rule α) [Local r] (l : List Token) :
    ∃ as m, (many r).on l = some (as, m) := by
  induction hn : l.length using Nat.strongRecOn generalizing l with
  | _ n ih =>
    rw [on_many]
    rcases r.on l with _ | ⟨a, m⟩
    · exact ⟨_, _, rfl⟩
    · dsimp only
      split_ifs with hlt
      · obtain ⟨as, k, h⟩ := ih _ (by omega) m rfl
        exact ⟨a :: as, k, by rw [h]; rfl⟩
      · exact ⟨_, _, rfl⟩

/-- Repetition of a rule that never succeeds without taking something ends where the rule
refuses. -/
theorem refused_behind_many {r : Rule α} [Local r]
    (hlt : ∀ ⦃l m : List Token⦄ ⦃a : α⦄, r.on l = some (a, m) → m.length < l.length)
    {l rest : List Token} {as : List α} (h : (many r).on l = some (as, rest)) :
    r.on rest = none := by
  induction hn : l.length using Nat.strongRecOn generalizing l as with
  | _ n ih =>
    rw [on_many] at h
    rcases hl : r.on l with _ | ⟨a, m⟩
    · simp only [hl, Option.some.injEq, Prod.mk.injEq] at h
      obtain ⟨-, rfl⟩ := h
      exact hl
    · simp only [hl, if_pos (hlt hl), Option.map_eq_some_iff] at h
      obtain ⟨⟨more, k⟩, hm, he⟩ := h
      obtain ⟨-, rfl⟩ := Prod.mk.inj he
      exact ih _ (hn ▸ hlt hl) hm rfl

/-- What repetition does depends only on what the rule does. -/
theorem on_many_congr {r s : Rule α} [Local r] [Local s] (h : ∀ l, r.on l = s.on l)
    (l : List Token) : (many r).on l = (many s).on l := by
  induction hn : l.length using Nat.strongRecOn generalizing l with
  | _ n ih =>
    rw [on_many, on_many, h]
    rcases s.on l with _ | ⟨a, m⟩
    · rfl
    · dsimp only
      split_ifs with hlt
      · rw [ih _ (by omega) m rfl]
      · rfl

/-! ## Recursion -/

/-- The rule where fewer than `n` tokens are left, and a failure elsewhere. -/
def below (n : Nat) (r : Rule α) : Rule α := fun ts i =>
  if ts.size - i < n then r ts i else .failure ⟨i, .unstated⟩

/-- A bounded rule is only seen where fewer tokens are left. -/
theorem view_below (n : Nat) (r : Rule α) (ts : Array Token) (i : Nat) :
    (below n r ts i).view ts =
      if (ts.toList.drop i).length < n then (r ts i).view ts else none := by
  unfold below
  rw [length_drop_toList]
  split_ifs <;> rfl

instance (n : Nat) (r : Rule α) [Local r] : Local (below n r) where
  bounds := by
    intro ts i j a alternative hi h
    unfold below at h
    split_ifs at h
    exact Local.bounds hi h
  view_congr := by
    intro ts ts' i i' hi hi' hd
    rw [view_below, view_below, hd, Local.view_congr (r := r) hi hi' hd]

/-- A bounded rule only reads lists that are shorter. -/
@[simp] theorem on_below (n : Nat) (r : Rule α) (l : List Token) :
    (below n r).on l = if l.length < n then r.on l else none := by
  unfold on
  rw [view_below]
  rfl

/-- A recursive rule calls itself where fewer tokens are left. -/
theorem recursive_eq (body : Rule α → Rule α) (ts : Array Token) (i : Nat) :
    recursive body ts i = body (below (ts.size - i) (recursive body)) ts i := by
  rw [recursive]
  rfl

/-- The rule that refuses everything. -/
def refuse : Rule α := fun _ i => .failure ⟨i, .unstated⟩

/-- The rule that always fails looks at no token. -/
theorem local_refuse : Local (refuse : Rule α) :=
  .of_view (fun _ => none) (fun _ h => nomatch h) fun _ => rfl

/-- What holds of a recursive rule. A property passes from a body to the recursive rule, if the rule
that refuses everything has it, and if it may be shown for each number of tokens left by another
rule, one that does the same where so many are left. -/
theorem recursive_induction {P : Rule α → Prop} {body : Rule α → Rule α} (hrefuse : P refuse)
    (hglue : ∀ (r : Rule α) (s : Nat → Rule α), (∀ n, P (s n)) →
      (∀ ts i, r ts i = s (ts.size - i) ts i) → P r)
    (hbody : ∀ r, P r → P (body r)) : P (recursive body) := by
  -- Strong induction on the bound: at `n` the body only calls the rule below some `k < n`.
  have hbelow : ∀ n, P (below n (recursive body)) := by
    intro n
    induction n using Nat.strongRecOn with
    | _ n ih =>
      refine hglue _ (fun k => if k < n then body (below k (recursive body)) else refuse) ?_ ?_
      · intro k
        split_ifs with hk
        · exact hbody _ (ih k hk)
        · exact hrefuse
      · intro ts i
        rw [below]
        split_ifs
        · exact recursive_eq body ts i
        · rfl
  exact hglue _ _ (fun n => hbody _ (hbelow n)) (recursive_eq body)

/-- A recursive rule is local if its body makes local rules of local rules. -/
theorem local_recursive {body : Rule α → Rule α} (hbody : ∀ r, Local r → Local (body r)) :
    Local (recursive body) := by
  refine recursive_induction ?_ ?_ hbody
  · exact local_refuse
  · intro r s hs hr
    constructor
    · intro ts i j a alternative hi h
      rw [hr] at h
      exact (hs _).bounds hi h
    · intro ts ts' i i' hi hi' hd
      have hleft : ts.size - i = ts'.size - i' := by
        rw [← length_drop_toList, ← length_drop_toList, hd]
      rw [hr, hr, hleft]
      exact (hs _).view_congr hi hi' hd

/-- A recursive rule is its body, with itself below the present length inside. -/
theorem on_recursive (body : Rule α → Rule α) (l : List Token) :
    (recursive body).on l = (body (below l.length (recursive body))).on l := by
  unfold on
  rw [recursive_eq]
  rfl

/-! ## Derived rules -/

instance (r : Rule α) [Local r] : Local (many1 r) := by
  unfold many1
  infer_instance

/-- At least one item is an item and then any number. -/
@[simp] theorem on_many1 (r : Rule α) [Local r] (l : List Token) :
    (many1 r).on l =
      (r.on l).bind fun p => ((many r).on p.2).map fun q => (p.1 :: q.1, q.2) := by
  simp only [many1, on_bind, on_pure, Option.map_eq_bind, Function.comp_def]

instance (item : Rule α) (separator : Rule β) [Local item] [Local separator] :
    Local (sepBy1 item separator) := by
  unfold sepBy1
  infer_instance

/-- Items with separators are an item and then any number with a separator in front. -/
theorem on_sepBy1 (item : Rule α) (separator : Rule β) [Local item] [Local separator]
    (l : List Token) :
    (sepBy1 item separator).on l =
      (item.on l).bind fun p =>
        ((many (discard separator >>= fun _ => item)).on p.2).map fun q =>
          (p.1 :: q.1, q.2) := by
  simp only [sepBy1, on_bind, on_pure, Option.map_eq_bind, Function.comp_def]

instance (item : Rule α) (separator : Rule β) [Local item] [Local separator] :
    Local (sepBy item separator) := by
  unfold sepBy
  infer_instance

instance (item : Rule α) (separator : Rule β) [Local item] [Local separator] :
    Local (sepByTrailing item separator) := by
  unfold sepByTrailing
  infer_instance

instance (before : Rule β) (after : Rule γ) (r : Rule α) [Local before] [Local after] [Local r] :
    Local (between before after r) := by
  unfold between
  infer_instance

/-- A rule between two others reads what the first has left, and the last what it has left. -/
@[simp] theorem on_between (before : Rule β) (after : Rule γ) (r : Rule α) [Local before]
    [Local after] [Local r] (l : List Token) :
    (between before after r).on l =
      (before.on l).bind fun p => (r.on p.2).bind fun q => (after.on q.2).map fun s =>
        (q.1, s.2) := by
  simp only [between, on_bind, on_discard, on_pure, Option.map_eq_bind, Option.bind_assoc,
    Option.bind_some, Function.comp_def]

end Rule

end ApiSurface
