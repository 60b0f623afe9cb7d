import ApiSurface.Proofs.Grammar.Remainder

/-!
# Phrases, and rules that recognise them

A *phrase* says which words of tokens are read as which values. Phrases have no order among their
alternatives and no greed in their repetitions: `Repeated P` is every way of putting words of `P`
one after the other. A rule has both, and the two are compared by two properties.

* `Sound r P`: what `r` takes off the front of a list is a word of `P`, with the value that `r`
  gives.
* `Complete n r P F`: a word of `P`, followed by a list that satisfies `F`, is taken by `r` and
  nothing more, as long as fewer than `n` tokens are there. `F` says which lists cannot continue a
  word, and mostly looks at one token (`Stops`). The bound `n` is what an induction for a recursive
  rule hands on (`Complete.recursive`); rules without recursion are complete at every bound.

Each combinator of rules has one lemma for either property.
-/

namespace ApiSurface

open Rule

variable {α β : Type}

/-- A kind of phrase: the words that belong to it, each with a value. -/
abbrev Phrase (α : Type) := List Token → α → Prop

namespace Phrase

/-! ## Repetition, option and separators -/

/-- Any number of words, one after the other. -/
inductive Repeated (P : Phrase α) : List Token → List α → Prop
  | nil : Repeated P [] []
  | cons {w v : List Token} {a : α} {as : List α} :
      P w a → Repeated P v as → Repeated P (w ++ v) (a :: as)

/-- A word, or nothing. -/
inductive Optional (P : Phrase α) : List Token → Option α → Prop
  | absent : Optional P [] none
  | present {w : List Token} {a : α} : P w a → Optional P w (some a)

/-- At least one word, with the symbol `s` between two of them. -/
inductive Separated (s : Symbol) (P : Phrase α) : List Token → List α → Prop
  | one {w : List Token} {a : α} : P w a → Separated s P w [a]
  | more {w v : List Token} {t : Token} {a : α} {as : List α} :
      P w a → t.kind = .symbol s → Separated s P v as → Separated s P (w ++ t :: v) (a :: as)

/-- There is a word, with or without separators. -/
theorem Separated.ne_nil {s : Symbol} {P : Phrase α} {w : List Token} {as : List α}
    (h : Separated s P w as) : as ≠ [] := by
  cases h <;> exact List.cons_ne_nil _ _

/-- Between two words stands a separator. -/
theorem Separated.exists_separator {s : Symbol} {P : Phrase α} {w : List Token} {as : List α}
    (h : Separated s P w as) (hlength : 1 < as.length) : ∃ t ∈ w, t.kind = .symbol s := by
  cases h with
  | one _ => exact absurd hlength (Nat.lt_irrefl 1)
  | more _ ht _ => exact ⟨_, List.mem_append_right _ List.mem_cons_self, ht⟩

/-- Repeated words of one phrase are repeated words of another that gives other values. -/
theorem Repeated.map {P : Phrase α} {Q : Phrase β} {w : List Token} {as : List α}
    (h : Repeated P w as) (f : α → β) (hPQ : ∀ ⦃w a⦄, P w a → Q w (f a)) :
    Repeated Q w (as.map f) := by
  induction h with
  | nil => exact .nil
  | cons ha _ ih => exact .cons (hPQ ha) ih

/-- Separated words of one phrase are separated words of another that gives other values. -/
theorem Separated.map {s : Symbol} {P : Phrase α} {Q : Phrase β} {w : List Token} {as : List α}
    (h : Separated s P w as) (f : α → β) (hPQ : ∀ ⦃w a⦄, P w a → Q w (f a)) :
    Separated s Q w (as.map f) := by
  induction h with
  | one ha => exact .one (hPQ ha)
  | more ha ht _ ih => exact .more (hPQ ha) ht ih

/-- Every word of the phrase has a first token, and that is of one of the given kinds. -/
def Begins (P : Phrase α) (p : TokenKind → Bool) : Prop :=
  ∀ ⦃w : List Token⦄ ⦃a : α⦄, P w a → ∃ t v, w = t :: v ∧ p t.kind = true

/-- A word that begins with a token is not empty. -/
theorem Begins.ne_nil {P : Phrase α} {p : TokenKind → Bool} (hP : P.Begins p) {w : List Token}
    {a : α} (h : P w a) : w ≠ [] := by
  obtain ⟨t, v, rfl, -⟩ := hP h
  exact List.cons_ne_nil t v

/-- What begins with some kinds begins with more of them. -/
theorem Begins.mono {P : Phrase α} {p q : TokenKind → Bool} (hP : P.Begins p)
    (hpq : ∀ k, p k = true → q k = true) : P.Begins q := by
  intro w a h
  obtain ⟨t, v, rfl, ht⟩ := hP h
  exact ⟨t, v, rfl, hpq _ ht⟩

/-- Separated words begin as the first of them does. -/
theorem Begins.separated {P : Phrase α} {p : TokenKind → Bool} (hP : P.Begins p) (s : Symbol) :
    Begins (Separated s P) p := by
  intro w as h
  cases h with
  | one hw => exact hP hw
  | more hw _ _ =>
    obtain ⟨t, v, rfl, ht⟩ := hP hw
    exact ⟨t, _, rfl, ht⟩

/-- Words behind others begin as they do, if both begin alike. -/
theorem Begins.repeated_append {P : Phrase α} {Q : Phrase β} {p : TokenKind → Bool}
    (hP : P.Begins p) (hQ : Q.Begins p) {w v : List Token} {as : List α} {b : β}
    (hw : Repeated P w as) (hv : Q v b) : ∃ t u, w ++ v = t :: u ∧ p t.kind = true := by
  cases hw with
  | nil => exact hQ hv
  | cons hw _ =>
    obtain ⟨t, u, rfl, ht⟩ := hP hw
    exact ⟨t, _, rfl, ht⟩

end Phrase

open Phrase

/-! ## What cannot continue a word -/

/-- Whether a kind is one of those listed. -/
def oneOf (kinds : List TokenKind) (k : TokenKind) : Bool := kinds.contains k

/-- Whether a kind is that of an identifier. -/
def isName : TokenKind → Bool
  | .identifier _ => true
  | _ => false

/-- A name is an identifier. -/
theorem exists_of_isName {k : TokenKind} (h : isName k = true) : ∃ x, k = .identifier x := by
  cases k <;> first | exact ⟨_, rfl⟩ | cases h

/-- Whether a kind is that of an identifier or one of those listed. -/
def nameOr (kinds : List TokenKind) (k : TokenKind) : Bool := isName k || oneOf kinds k

/-- A name is a name or one of the kinds. -/
theorem nameOr_of_isName (kinds : List TokenKind) (k : TokenKind) (h : isName k = true) :
    nameOr kinds k = true := by
  rw [nameOr, h, Bool.true_or]

/-- One of the kinds is in their list. -/
theorem oneOf_iff {ks : List TokenKind} {k : TokenKind} : oneOf ks k = true ↔ k ∈ ks :=
  List.contains_iff_mem

/-- None of the kinds is not in their list. -/
theorem oneOf_eq_false {ks : List TokenKind} {k : TokenKind} : oneOf ks k = false ↔ k ∉ ks := by
  rw [← oneOf_iff, Bool.not_eq_true]

/-- One of the kinds is one of more of them. -/
theorem oneOf_subset {ks ks' : List TokenKind} (hsub : ∀ k ∈ ks, k ∈ ks') (k : TokenKind)
    (h : oneOf ks k = true) : oneOf ks' k = true :=
  oneOf_iff.mpr (hsub k (oneOf_iff.mp h))

/-- One of the kinds is a name or one of more of them. -/
theorem nameOr_of_oneOf {ks ks' : List TokenKind} (hsub : ∀ k ∈ ks, k ∈ ks') (k : TokenKind)
    (h : oneOf ks k = true) : nameOr ks' k = true := by
  rw [nameOr, oneOf_subset hsub k h, Bool.or_true]

/-- The list does not begin with a token of the given kinds. -/
def Stops (p : TokenKind → Bool) (l : List Token) : Prop := ∀ t ∈ l.head?, p t.kind = false

/-- An empty list begins with no token. -/
@[simp] theorem stops_nil (p : TokenKind → Bool) : Stops p [] := by
  simp [Stops]

/-- A list stops if its first token is of none of the kinds. -/
@[simp] theorem stops_cons (p : TokenKind → Bool) (t : Token) (l : List Token) :
    Stops p (t :: l) ↔ p t.kind = false := by
  simp [Stops]

/-- A list that stops before more kinds stops before fewer. -/
theorem Stops.subset {ks ks' : List TokenKind} {l : List Token} (h : Stops (oneOf ks') l)
    (hsub : ∀ k ∈ ks, k ∈ ks') : Stops (oneOf ks) l := by
  intro t ht
  have hnot := oneOf_eq_false.mp (h t ht)
  exact oneOf_eq_false.mpr fun hk => hnot (hsub _ hk)

/-- A list stops before all kinds that its first token does not have. -/
theorem stops_of_kind {q : TokenKind → Bool} {t : Token} {k : TokenKind} (ht : t.kind = k)
    (hq : q k = false) (l : List Token) : Stops q (t :: l) := by
  rw [stops_cons, ht]
  exact hq

/-- A word that begins with one of some kinds stops before the others. -/
theorem Phrase.Begins.stops {P : Phrase α} {ks : List TokenKind} (hP : P.Begins (oneOf ks))
    {q : TokenKind → Bool} (hq : ∀ k ∈ ks, q k = false) {w : List Token} {a : α} (h : P w a)
    (rest : List Token) : Stops q (w ++ rest) := by
  obtain ⟨t, v, rfl, ht⟩ := hP h
  exact stops_of_kind rfl (hq _ (oneOf_iff.mp ht)) _

/-- A word that begins with one kind has a first token of that kind. -/
theorem Phrase.Begins.exists_kind {P : Phrase α} {k : TokenKind} (hP : P.Begins (oneOf [k]))
    {w : List Token} {a : α} (h : P w a) : ∃ t v, w = t :: v ∧ t.kind = k := by
  obtain ⟨t, v, rfl, ht⟩ := hP h
  exact ⟨t, v, rfl, List.mem_singleton.mp (oneOf_iff.mp ht)⟩

/-- A word that begins with an identifier stops before all kinds but identifiers. -/
theorem Phrase.Begins.stops_name {P : Phrase α} (hP : P.Begins isName) {q : TokenKind → Bool}
    (hq : ∀ x, q (.identifier x) = false) {w : List Token} {a : α} (h : P w a)
    (rest : List Token) : Stops q (w ++ rest) := by
  obtain ⟨t, v, rfl, ht⟩ := hP h
  obtain ⟨x, hx⟩ := exists_of_isName ht
  exact stops_of_kind hx (hq x) _

namespace Rule

/-! ## Soundness -/

/-- What the rule takes is a word of the phrase, with the value it gives. -/
def Sound (r : Rule α) (P : Phrase α) : Prop :=
  ∀ ⦃l rest : List Token⦄ ⦃a : α⦄, r.on l = some (a, rest) → ∃ w, w ++ rest = l ∧ P w a

/-- A sound rule takes nothing where no word can begin. -/
theorem Sound.refuses {r : Rule α} {P : Phrase α} (hr : Sound r P) {p : TokenKind → Bool}
    (hP : P.Begins p) {l : List Token} (hl : Stops p l) : r.on l = none := by
  rcases h : r.on l with _ | ⟨a, rest⟩
  · rfl
  · obtain ⟨w, rfl, hw⟩ := hr h
    obtain ⟨t, v, rfl, ht⟩ := hP hw
    rw [List.cons_append, stops_cons, ht] at hl
    cases hl

/-- What is a word of one phrase is one of a larger phrase. -/
theorem Sound.mono {r : Rule α} {P Q : Phrase α} (hr : Sound r P)
    (hPQ : ∀ ⦃w : List Token⦄ ⦃a : α⦄, P w a → Q w a) : Sound r Q := by
  intro l rest a h
  obtain ⟨w, hw, hP⟩ := hr h
  exact ⟨w, hw, hPQ hP⟩

/-- A bounded rule takes what the rule takes. -/
theorem Sound.below {r : Rule α} {P : Phrase α} (hr : Sound r P) (n : Nat) :
    Sound (below n r) P := by
  intro l rest a h
  rw [on_below] at h
  split_ifs at h
  exact hr h

/-- What a choice takes is taken by one of its rules. -/
theorem Sound.orElse {r s : Rule α} {P : Phrase α} (hr : Sound r P) (hs : Sound s P) :
    Sound (r <|> s) P := by
  intro l rest a h
  rw [on_orElse, Option.or_eq_some_iff] at h
  rcases h with h | ⟨-, h⟩
  · exact hr h
  · exact hs h

/-- What an option takes is a word or nothing. -/
theorem Sound.optional {r : Rule α} {P : Phrase α} (hr : Sound r P) :
    Sound (optional r) (Optional P) := by
  intro l rest a h
  rw [on_optional] at h
  rcases hl : r.on l with _ | ⟨b, m⟩
  · simp only [hl, Option.map_none, Option.none_or, Option.some.injEq, Prod.mk.injEq] at h
    obtain ⟨rfl, rfl⟩ := h
    exact ⟨[], rfl, .absent⟩
  · simp only [hl, Option.map_some, Option.some_or, Option.some.injEq, Prod.mk.injEq] at h
    obtain ⟨rfl, rfl⟩ := h
    obtain ⟨w, hw, hP⟩ := hr hl
    exact ⟨w, hw, .present hP⟩

/-- What a repetition takes are repeated words. -/
theorem Sound.many {r : Rule α} [Local r] {P : Phrase α} (hr : Sound r P) :
    Sound (many r) (Repeated P) := by
  intro l rest as h
  induction hn : l.length using Nat.strongRecOn generalizing l as with
  | _ n ih =>
    rw [on_many] at h
    rcases hl : r.on l with _ | ⟨a, m⟩
    · simp only [hl, Option.some.injEq, Prod.mk.injEq] at h
      obtain ⟨rfl, rfl⟩ := h
      exact ⟨[], rfl, .nil⟩
    · simp only [hl] at h
      split_ifs at h with hlt
      · obtain ⟨⟨more, k⟩, hm, he⟩ := Option.map_eq_some_iff.mp h
        simp only [Prod.mk.injEq] at he
        obtain ⟨rfl, rfl⟩ := he
        obtain ⟨w, rfl, hw⟩ := hr hl
        obtain ⟨v, rfl, hv⟩ := ih _ (by omega) hm rfl
        exact ⟨w ++ v, List.append_assoc _ _ _, .cons hw hv⟩
      · simp only [Option.some.injEq, Prod.mk.injEq] at h
        obtain ⟨rfl, rfl⟩ := h
        exact ⟨[], rfl, .nil⟩

/-- A recursive rule is sound if its body is, for every sound rule in place of the rule itself. -/
theorem Sound.recursive {body : Rule α → Rule α} [Local (recursive body)] {P : Phrase α}
    (hbody : ∀ (r : Rule α) [Local r], Sound r P → Sound (body r) P) :
    Sound (recursive body) P := by
  intro l rest a h
  induction hn : l.length using Nat.strongRecOn generalizing l rest a with
  | _ n ih =>
    rw [on_recursive, hn] at h
    refine hbody (Rule.below n (Rule.recursive body)) ?_ h
    intro l' rest' a' h'
    rw [on_below] at h'
    split_ifs at h' with hlt
    exact ih _ hlt h' rfl

/-! ## Completeness -/

/-- A word of the phrase, followed by a list that satisfies `F`, is what the rule takes, with the
value of the word, if fewer than `n` tokens are there. -/
def Complete (n : Nat) (r : Rule α) (P : Phrase α) (F : List Token → Prop) : Prop :=
  ∀ ⦃w rest : List Token⦄ ⦃a : α⦄, P w a → F rest → (w ++ rest).length < n →
    r.on (w ++ rest) = some (a, rest)

/-- A bounded rule takes the words that are short enough. -/
theorem Complete.below {n : Nat} {r : Rule α} {P : Phrase α} {F : List Token → Prop}
    (hr : Complete n r P F) {m : Nat} (hm : m ≤ n) : Complete m (below m r) P F := by
  intro w rest a hw hF hlt
  rw [on_below, if_pos hlt]
  exact hr hw hF (by omega)

/-- A sound recursive rule is complete if its body, for a sound rule complete at one bound in place
of the rule itself, is complete at the next. -/
theorem Complete.recursive {body : Rule α → Rule α} [Local (recursive body)] {P : Phrase α}
    {F : List Token → Prop} (hsound : Sound (recursive body) P)
    (hbody : ∀ (n : Nat) (r : Rule α) [Local r], Sound r P → Complete n r P F →
      Complete (n + 1) (body r) P F) (n : Nat) : Complete n (recursive body) P F := by
  induction n with
  | zero =>
    intro w rest a _ _ hlt
    exact absurd hlt (Nat.not_lt_zero _)
  | succ n ih =>
    intro w rest a hw hF hlt
    rw [on_recursive]
    have hself := Complete.below ih (Nat.le_of_lt_succ hlt)
    exact hbody _ _ (hsound.below _) hself hw hF (Nat.lt_succ_self _)

/-- Repetition takes word after word, if a word can always be followed by another and the rule
refuses what stands behind the last. -/
theorem Complete.many {n : Nat} {r : Rule α} [Local r] {P : Phrase α} {F : List Token → Prop}
    (hr : Complete n r P F) (hne : ∀ ⦃w : List Token⦄ ⦃a : α⦄, P w a → w ≠ [])
    (hnext : ∀ ⦃w : List Token⦄ ⦃a : α⦄ (rest : List Token), P w a → F (w ++ rest)) :
    Complete n (many r) (Repeated P) fun rest => F rest ∧ r.on rest = none := by
  intro w rest as hw hF hlt
  induction hw with
  | nil => exact on_many_of_none hF.2
  | @cons w v a as hw hv ih =>
    have hF' : F (v ++ rest) := by
      cases hv with
      | nil => exact hF.1
      | @cons w' v' _ _ hw' _ =>
        rw [List.append_assoc]
        exact hnext _ hw'
    have hpos := List.length_pos_iff.mpr (hne hw)
    rw [List.append_assoc] at hlt ⊢
    simp only [List.length_append] at hlt
    refine on_many_of_some (hr hw hF' (by simpa using hlt)) ?_ (ih (by simp; omega))
    simp
    omega

/-- A word or nothing is taken, where no further word follows. -/
theorem Complete.optional {n : Nat} {r : Rule α} {P : Phrase α} {F : List Token → Prop}
    (hr : Complete n r P F) :
    Complete n (optional r) (Optional P) fun rest => F rest ∧ r.on rest = none := by
  intro w rest a hw hF hlt
  rw [on_optional]
  cases hw with
  | absent => simp [hF.2]
  | present hw => simp [hr hw hF.1 hlt]

end Rule
end ApiSurface
