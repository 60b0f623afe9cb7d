import ApiSurface.Proofs.Grammar.Noise

/-!
# Brackets by a stack

Where a group ends, and where noise ends, without the grammar. A scan goes from token to token with
the stack of the brackets that are open, the innermost first: a bracket that opens is put on the
stack, a bracket that closes must be of the kind on top and takes it away, and the end of the input
is never passed. A group ends where the stack is empty for the first time (`groupEnd?`).

The rule for groups calls itself at every bracket inside and gives back what it has taken where an
inner group fails; the scan never goes back. Both read the same (`groupEnd?_eq_some_iff`): on the
one side balanced tokens leave the stack as it is (`stackEnd?_append`), on the other the tokens up
to the one that takes away the top of the stack are balanced (`exists_balanced_of_stackEnd`).
-/

namespace ApiSurface.Grammar

open Rule Phrase Derives

/-! ## The scan -/

/-- The bracket that a kind opens. -/
def opened? : TokenKind → Option Bracket
  | .symbol .leftParen => some .round
  | .symbol .leftBrace => some .curly
  | .symbol .leftBracket => some .square
  | _ => none

/-- The bracket that a kind closes. -/
def closed? : TokenKind → Option Bracket
  | .symbol .rightParen => some .round
  | .symbol .rightBrace => some .curly
  | .symbol .rightBracket => some .square
  | _ => none

/-- The stack behind a token, for a stack with the bracket `b` on top. There is none behind a
closing bracket of another kind and behind the end of the input. -/
def stackStep (b : Bracket) (below : List Bracket) (kind : TokenKind) : Option (List Bracket) :=
  match opened? kind, closed? kind with
  | some c, _ => some (c :: b :: below)
  | none, some c => if c = b then some below else none
  | none, none => if kind = .eof then none else some (b :: below)

/-- How many tokens there are through the one behind which the stack is empty for the first time;
nothing if the scan does not get there. -/
def stackEnd? : List Bracket → List Token → Option Nat
  | [], _ => some 0
  | _ :: _, [] => none
  | b :: below, t :: l =>
    match stackStep b below t.kind with
    | none => none
    | some stack => (stackEnd? stack l).map (· + 1)

/-- How many tokens the group at the front of a list has, by the stack. -/
def groupEnd? : List Token → Option Nat
  | [] => none
  | t :: l =>
    match opened? t.kind with
    | none => none
    | some b => (stackEnd? [b] l).map (· + 1)

/-- A bracket is opened by its opening symbol only. -/
theorem opened?_eq_some_iff {kind : TokenKind} {b : Bracket} :
    opened? kind = some b ↔ kind = .symbol b.opening := by
  constructor
  · intro h
    unfold opened? at h
    split at h <;> cases h <;> rfl
  · rintro rfl
    cases b <;> rfl

/-- A bracket is closed by its closing symbol only. -/
theorem closed?_eq_some_iff {kind : TokenKind} {b : Bracket} :
    closed? kind = some b ↔ kind = .symbol b.closing := by
  constructor
  · intro h
    unfold closed? at h
    split at h <;> cases h <;> rfl
  · rintro rfl
    cases b <;> rfl

/-- A closing symbol opens nothing. -/
theorem opened?_closing (b : Bracket) : opened? (.symbol b.closing) = none := by
  cases b <;> rfl

/-- A token that is no bracket and not the end of the input leaves the stack as it is. -/
theorem isDelimiter_eq_false_iff {t : Token} :
    t.isDelimiter = false ↔ opened? t.kind = none ∧ closed? t.kind = none ∧ t.kind ≠ .eof := by
  unfold Token.isDelimiter opened? closed?
  rcases t.kind with x | x | x | x | k | s | c | _
  case symbol => cases s <;> simp
  all_goals simp

section

variable {b c : Bracket} {below : List Bracket} {t : Token} {l : List Token}

/-- With nothing open no token is needed. -/
@[simp] theorem stackEnd?_empty : stackEnd? [] l = some 0 := by
  unfold stackEnd?
  rfl

/-- An opening bracket goes on top of the stack. -/
theorem stackEnd?_opening (h : t.kind = .symbol c.opening) :
    stackEnd? (b :: below) (t :: l) = (stackEnd? (c :: b :: below) l).map (· + 1) := by
  simp [stackEnd?, stackStep, opened?_eq_some_iff.mpr h]

/-- A closing bracket takes its own kind from the top of the stack. -/
theorem stackEnd?_closing (h : t.kind = .symbol b.closing) :
    stackEnd? (b :: below) (t :: l) = (stackEnd? below l).map (· + 1) := by
  simp [stackEnd?, stackStep, h, opened?_closing, closed?_eq_some_iff.mpr rfl]

/-- Other tokens leave the stack as it is. -/
theorem stackEnd?_plain (h : t.isDelimiter = false) :
    stackEnd? (b :: below) (t :: l) = (stackEnd? (b :: below) l).map (· + 1) := by
  obtain ⟨hopen, hclose, heof⟩ := isDelimiter_eq_false_iff.mp h
  simp [stackEnd?, stackStep, hopen, hclose, heof]

/-- Where the scan ends behind a token, the token opens a bracket, closes the one on top of the
stack, or leaves the stack as it is. -/
theorem cases_of_stackEnd {n : Nat} (h : stackEnd? (b :: below) (t :: l) = some n) :
    (∃ c : Bracket, t.kind = .symbol c.opening) ∨ t.kind = .symbol b.closing ∨
      t.isDelimiter = false := by
  rcases hopen : opened? t.kind with _ | c
  · rcases hclose : closed? t.kind with _ | c
    · refine .inr (.inr (isDelimiter_eq_false_iff.mpr ⟨hopen, hclose, fun heof => ?_⟩))
      rw [heof] at hopen hclose
      simp [stackEnd?, stackStep, heof, hopen, hclose] at h
    · by_cases hc : c = b
      · exact .inr (.inl (hc ▸ closed?_eq_some_iff.mp hclose))
      · simp [stackEnd?, stackStep, hopen, hclose, hc] at h
  · exact .inl ⟨c, opened?_eq_some_iff.mp hopen⟩

end

/-! ## Balanced tokens and the stack -/

/-- Balanced tokens leave the stack as it is. -/
theorem stackEnd?_append {w : List Token} (hw : Balanced w) (b : Bracket) (below : List Bracket)
    (l : List Token) :
    stackEnd? (b :: below) (w ++ l) = (stackEnd? (b :: below) l).map (· + w.length) := by
  induction hw generalizing b below l with
  | nil => simp
  | @plain t w ht _ ih =>
    rw [List.cons_append, stackEnd?_plain ht, ih, Option.map_map]
    rfl
  | @group c t u w v ht _ hu _ ihw ihv =>
    rw [List.cons_append, List.append_assoc, List.cons_append, stackEnd?_opening ht, ihw,
      stackEnd?_closing hu, ihv]
    simp only [Option.map_map]
    refine congrArg (fun f => Option.map f _) (funext fun n => ?_)
    simp only [Function.comp_apply, List.length_cons, List.length_append]
    omega

/-- Where the stack becomes empty, balanced tokens stand before the one that takes away its top, and
the scan goes on from there. -/
theorem exists_balanced_of_stackEnd {b : Bracket} {below : List Bracket} {l : List Token} {n : Nat}
    (h : stackEnd? (b :: below) l = some n) :
    ∃ w u rest m, l = w ++ u :: rest ∧ Balanced w ∧ u.kind = .symbol b.closing ∧
      stackEnd? below rest = some m ∧ n = w.length + 1 + m := by
  -- Behind a bracket that opens there are two shorter scans: to its end, and on from there.
  induction hn : l.length using Nat.strongRecOn generalizing b below l n with
  | _ k ih =>
    cases l with
    | nil => cases h
    | cons t l =>
      simp only [List.length_cons] at hn
      rcases cases_of_stackEnd h with ⟨c, ht⟩ | ht | ht
      · rw [stackEnd?_opening ht, Option.map_eq_some_iff] at h
        obtain ⟨n', h', rfl⟩ := h
        obtain ⟨w, u, inner, m, rfl, hw, hu, hinner, rfl⟩ := ih _ (by omega) h' rfl
        simp only [List.length_append, List.length_cons] at hn
        obtain ⟨v, u', rest, m', rfl, hv, hu', hrest, rfl⟩ := ih _ (by omega) hinner rfl
        refine ⟨t :: (w ++ u :: v), u', rest, m', by simp, .group ht hw hu hv, hu', hrest, ?_⟩
        simp only [List.length_cons, List.length_append]
        omega
      · rw [stackEnd?_closing ht, Option.map_eq_some_iff] at h
        obtain ⟨m, hm, rfl⟩ := h
        exact ⟨[], t, l, m, rfl, .nil, ht, hm, by simp; omega⟩
      · rw [stackEnd?_plain ht, Option.map_eq_some_iff] at h
        obtain ⟨n', h', rfl⟩ := h
        obtain ⟨w, u, rest, m, rfl, hw, hu, hrest, rfl⟩ := ih _ (by omega) h' rfl
        refine ⟨t :: w, u, rest, m, rfl, .plain ht hw, hu, hrest, ?_⟩
        simp only [List.length_cons]
        omega

/-- The stack finds the group at the front of a list, and its end. -/
theorem groupEnd?_eq_some_iff {l : List Token} {n : Nat} :
    groupEnd? l = some n ↔ ∃ w rest, l = w ++ rest ∧ n = w.length ∧ Grouped w () := by
  constructor
  · intro h
    cases l with
    | nil => cases h
    | cons t l =>
      unfold groupEnd? at h
      rcases hopen : opened? t.kind with _ | b
      · simp [hopen] at h
      · simp only [hopen, Option.map_eq_some_iff] at h
        obtain ⟨n', h', rfl⟩ := h
        obtain ⟨w, u, rest, m, rfl, hw, hu, hrest, rfl⟩ := exists_balanced_of_stackEnd h'
        rw [stackEnd?_empty, Option.some.injEq] at hrest
        subst hrest
        have hgroup : Enclosed b (t :: (w ++ [u])) () :=
          .mk (opened?_eq_some_iff.mp hopen) hw hu
        exact ⟨t :: (w ++ [u]), rest, by simp, by simp, .mk hgroup⟩
  · rintro ⟨w, rest, rfl, rfl, ⟨@⟨t, u, w, ht, hw, hu⟩⟩⟩
    rename_i b
    have hscan : stackEnd? [b] (w ++ u :: rest) = some (0 + 1 + w.length) := by
      rw [stackEnd?_append hw, stackEnd?_closing hu, stackEnd?_empty, Option.map_some,
        Option.map_some]
    rw [List.cons_append, List.append_assoc, List.singleton_append]
    simp only [groupEnd?, opened?_eq_some_iff.mpr ht, hscan, Option.map_some, List.length_cons,
      List.length_append, List.length_nil]
    congr 1
    omega

/-- A word is a group exactly if the stack is empty behind its last token for the first time. -/
theorem grouped_iff_groupEnd {w : List Token} : Grouped w () ↔ groupEnd? w = some w.length := by
  rw [groupEnd?_eq_some_iff]
  constructor
  · intro h
    exact ⟨w, [], by simp, rfl, h⟩
  · rintro ⟨v, rest, hw, hlen, h⟩
    obtain rfl : rest = [] := by
      apply List.eq_nil_of_length_eq_zero
      have hw := congrArg List.length hw
      rw [List.length_append] at hw
      omega
    rw [hw, List.append_nil]
    exact h

/-! ## Runs -/

/-- Complete groups, and tokens that are no brackets and do not satisfy `stop`. -/
inductive Run (stop : TokenKind → Bool) : List Token → Prop
  | nil : Run stop []
  | plain {t : Token} {w : List Token} :
      t.isDelimiter = false → stop t.kind = false → Run stop w → Run stop (t :: w)
  | group {w v : List Token} : groupEnd? w = some w.length → Run stop v → Run stop (w ++ v)

section

variable {stop : TokenKind → Bool}

/-- A run is any number of noise items. -/
theorem run_iff_repeated {w : List Token} :
    Run stop w ↔ ∃ us, Repeated (NoiseItem stop) w us := by
  constructor
  · intro h
    induction h with
    | nil => exact ⟨[], .nil⟩
    | plain ht hstop _ ih =>
      obtain ⟨us, hus⟩ := ih
      exact ⟨() :: us, .cons (.plain ht hstop) hus⟩
    | group hw _ ih =>
      obtain ⟨us, hus⟩ := ih
      exact ⟨() :: us, .cons (.group (grouped_iff_groupEnd.mpr hw)) hus⟩
  · rintro ⟨us, hus⟩
    induction hus with
    | nil => exact .nil
    | cons hw _ ih =>
      cases hw with
      | plain ht hstop => exact .plain ht hstop ih
      | group hw => exact .group (grouped_iff_groupEnd.mp hw) ih

/-- No run at the front of a list is longer than one that no noise item follows. -/
theorem length_le_of_run {w v : List Token} {us vs : List Unit} {rest m : List Token}
    (hw : Repeated (NoiseItem stop) w us) (hnone : (noiseItem stop).on rest = none)
    (hv : Repeated (NoiseItem stop) v vs) (h : w ++ rest = v ++ m) : v.length ≤ w.length := by
  induction hv generalizing w us with
  | nil => exact Nat.zero_le _
  | @cons item v u vs hitem _ ih =>
    cases hw with
    | nil =>
      have hon := complete_noiseItem stop ((item ++ (v ++ m)).length + 1) hitem trivial
        (Nat.lt_succ_self _)
      rw [← List.append_assoc, ← h, List.nil_append, hnone] at hon
      cases hon
    | cons hitem' hw =>
      rw [List.append_assoc, List.append_assoc] at h
      obtain ⟨rfl, hrest⟩ := noiseItem_unique hitem' hitem h
      have hle := ih hw hrest
      simp only [List.length_append]
      omega

/-- Where no noise item stands, no group does. -/
theorem groupEnd?_of_refused {l : List Token} (h : (noiseItem stop).on l = none) :
    groupEnd? l = none := by
  rcases hend : groupEnd? l with _ | n
  · rfl
  · obtain ⟨w, rest, rfl, -, hw⟩ := groupEnd?_eq_some_iff.mp hend
    have hon := complete_noiseItem stop ((w ++ rest).length + 1) (.group hw) trivial
      (Nat.lt_succ_self _)
    rw [h] at hon
    cases hon

/-- The longest run at the front of a list. -/
structure LongestRun (stop : TokenKind → Bool) (l w : List Token) : Prop where
  /-- It is the front of the list. -/
  front : w <+: l
  /-- It is a run. -/
  run : Run stop w
  /-- No run at the front of the list is longer. -/
  longest : ∀ v, v <+: l → Run stop v → v.length ≤ w.length
  /-- A bracket that opens behind it does not open a complete group. -/
  incomplete : groupEnd? (l.drop w.length) = none

/-- There is no run in an empty list but the empty one. -/
theorem longestRun_nil : LongestRun stop [] [] := by
  refine ⟨List.prefix_refl [], .nil, ?_, rfl⟩
  intro v hv _
  exact Nat.le_of_eq (congrArg List.length (List.prefix_nil.mp hv))

/-- Noise is the longest run. -/
theorem longestRun_of_noise {w rest : List Token}
    (h : (noiseUntil stop).on (w ++ rest) = some ((), rest)) : LongestRun stop (w ++ rest) w := by
  have hlt : ∀ ⦃l m : List Token⦄ ⦃a : Unit⦄, (noiseItem stop).on l = some (a, m) →
      m.length < l.length := by
    intro l m a hitem
    obtain ⟨v, rfl, hv⟩ := sound_noiseItem stop hitem
    have hpos := List.length_pos_iff.mpr (noiseItem_ne_nil hv)
    rw [List.length_append]
    omega
  simp only [noiseUntil, on_discard, Option.map_eq_some_iff] at h
  obtain ⟨⟨us, k⟩, hm, hk⟩ := h
  obtain rfl : k = rest := (Prod.mk.inj hk).2
  have hnone := refused_behind_many hlt hm
  obtain ⟨v, hv, hus⟩ := (sound_noiseItem stop).many hm
  obtain rfl := List.append_cancel_right hv
  refine ⟨List.prefix_append _ _, run_iff_repeated.mpr ⟨us, hus⟩, ?_, ?_⟩
  · rintro v' ⟨m, hm'⟩ hv'
    obtain ⟨vs, hvs⟩ := run_iff_repeated.mp hv'
    exact length_le_of_run hus hnone hvs hm'.symm
  · rw [List.drop_left]
    exact groupEnd?_of_refused hnone

end

/-! ## The rules at an index -/

section

variable {ts : Array Token} {i : Nat}

/-- Behind the last token no group begins. -/
theorem balancedGroup_behind (hi : ts.size ≤ i) :
    ∃ cause, balancedGroup ts i = .failure cause := by
  rw [balancedGroup, recursive_eq, groupBody_eq]
  refine orElse_of_failure ?_ (orElse_of_failure ?_ ?_)
  · exact between_behind .leftParen _ _ hi
  · exact between_behind .leftBrace _ _ hi
  · exact between_behind .leftBracket _ _ hi

/-- Behind the last token noise is empty. -/
theorem noiseUntil_behind (stop : TokenKind → Bool) (hi : ts.size ≤ i) :
    ∃ alternative, noiseUntil stop ts i = .success () i alternative := by
  have hnone : ts[i]? = none := Array.getElem?_eq_none hi
  obtain ⟨cause, hitem⟩ : ∃ cause, noiseItem stop ts i = .failure cause :=
    orElse_of_failure (balancedGroup_behind hi) ⟨⟨i, .unstated⟩, by simp [tokenWith, token, hnone]⟩
  refine ⟨Failure.furthest? (some cause) none, ?_⟩
  show Rule.bind (many (noiseItem stop)) (fun _ => Rule.pure ()) ts i = _
  rw [Rule.bind, many, hitem]
  rfl

/-- At any index, a group is read exactly where the stack finds one, to the same end. -/
theorem balancedGroup_iff_groupEnd (ts : Array Token) (i j : Nat) :
    (∃ alternative, balancedGroup ts i = .success () j alternative) ↔
      ∃ n, groupEnd? (ts.toList.drop i) = some n ∧ j = i + n := by
  rw [exists_success_iff_append_of_fails _ fun _ _ => balancedGroup_behind]
  constructor
  · rintro ⟨w, rest, hw, hj, hon⟩
    obtain ⟨v, hv, hgroup⟩ := sound_balancedGroup hon
    obtain rfl := List.append_cancel_right hv
    exact ⟨v.length, groupEnd?_eq_some_iff.mpr ⟨v, rest, hw, rfl, hgroup⟩, hj⟩
  · rintro ⟨n, hn, hj⟩
    obtain ⟨w, rest, hw, rfl, hgroup⟩ := groupEnd?_eq_some_iff.mp hn
    have hon : balancedGroup.on (w ++ rest) = some ((), rest) :=
      complete_balancedGroup _ hgroup trivial (Nat.lt_succ_self _)
    exact ⟨w, rest, hw, hj, hon⟩

/-- At any index, noise is read to the end of the longest run. -/
theorem noiseUntil_longestRun (ts : Array Token) (i : Nat) (stop : TokenKind → Bool) :
    ∃ w alternative, LongestRun stop (ts.toList.drop i) w ∧
      noiseUntil stop ts i = .success () (i + w.length) alternative := by
  by_cases hi : i ≤ ts.size
  · obtain ⟨us, rest, hon⟩ := exists_on_many (noiseItem stop) (ts.toList.drop i)
    have hnoise : (noiseUntil stop).on (ts.toList.drop i) = some ((), rest) := by
      simp [noiseUntil, hon]
    obtain ⟨w, hw, -⟩ := sound_noiseUntil stop hnoise
    rw [← hw] at hnoise
    obtain ⟨alternative, h⟩ :=
      (exists_success_iff_append (noiseUntil stop) hi).mpr ⟨w, rest, hw.symm, rfl, hnoise⟩
    exact ⟨w, alternative, hw ▸ longestRun_of_noise hnoise, h⟩
  · have hend : ts.toList.drop i = [] := List.drop_eq_nil_of_le (by simp; omega)
    obtain ⟨alternative, h⟩ := noiseUntil_behind stop (Nat.le_of_not_le hi)
    exact ⟨[], alternative, hend.symm ▸ longestRun_nil, h⟩

end

/-- **Brackets by a stack**: the rule for groups and the rule for noise read what the scan finds.

* At any index, a group is read exactly where a bracket opens and the stack of the open brackets
  becomes empty behind some token, and it is read through the first such token.
* At any index, noise is read, to the end of the longest run of complete groups and of tokens that
  are no brackets and do not satisfy `stop`. A bracket that opens there and is not closed is left
  with everything behind it. -/
theorem groups_and_noise_by_stack (ts : Array Token) (i : Nat) :
    (∀ j, (∃ alternative, balancedGroup ts i = .success () j alternative) ↔
      ∃ n, groupEnd? (ts.toList.drop i) = some n ∧ j = i + n) ∧
    ∀ stop, ∃ w alternative, LongestRun stop (ts.toList.drop i) w ∧
      noiseUntil stop ts i = .success () (i + w.length) alternative :=
  ⟨balancedGroup_iff_groupEnd ts i, noiseUntil_longestRun ts i⟩

end ApiSurface.Grammar
