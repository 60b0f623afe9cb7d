import Mathlib.Data.List.TakeWhile

/-!
# Cuts at a boundary

A list that begins with a run of items of a class and goes on with an item outside the class can be
cut behind the run in one way only (`append_inj_of_boundary`). Names, numbers and the children of
one kind in an element are all read by cuts of this form.
-/

namespace ApiSurface

/-- The list ends, or goes on with an item outside the class. -/
def Text.Boundary {α : Type} (p : α → Bool) (rest : List α) : Prop := ∀ c ∈ rest.head?, p c = false

open Text

variable {α : Type} {p q : α → Bool}

/-- The end of a list is a boundary of every class. -/
theorem boundary_nil (p : α → Bool) : Boundary p [] := by
  simp [Boundary]

/-- Whether a list begins with a boundary is decided by its first item. -/
theorem boundary_cons {c : α} {rest : List α} : Boundary p (c :: rest) ↔ p c = false := by
  simp [Boundary]

/-- A boundary in front of a boundary is one, empty lists included. -/
theorem Text.Boundary.append {u v : List α} (hu : Boundary p u) (hv : Boundary p v) :
    Boundary p (u ++ v) := by
  rcases u with _ | ⟨c, u⟩
  · exact hv
  · exact boundary_cons.mpr (boundary_cons.mp hu)

/-- Behind a boundary that is not the end of the list anything may follow. -/
theorem Text.Boundary.append_of_ne_nil {u : List α} (hu : Boundary p u) (hne : u ≠ [])
    (v : List α) : Boundary p (u ++ v) := by
  obtain ⟨c, u, rfl⟩ := List.exists_cons_of_ne_nil hne
  exact boundary_cons.mpr (boundary_cons.mp hu)

/-- A boundary of a class is one of every smaller class. -/
theorem Text.Boundary.mono {rest : List α} (hq : Boundary q rest)
    (h : ∀ c, p c = true → q c = true) : Boundary p rest := by
  intro c hc
  by_contra hp
  rw [Bool.not_eq_false] at hp
  exact absurd (h c hp) (Bool.eq_false_iff.mp (hq c hc))

/-- A list whose first item, if it has one, lies in another class begins with a boundary. -/
theorem boundary_of_forall {cs : List α} (hcs : ∀ c ∈ cs, q c = true)
    (h : ∀ c, q c = true → p c = false) : Boundary p cs := by
  intro c hc
  exact h c (hcs c (List.mem_of_mem_head? hc))

/-- The items of a list in which `d` does not occur are all different from `d`. -/
theorem forall_bne [DecidableEq α] {d : α} {cs : List α} (h : d ∉ cs) :
    ∀ c ∈ cs, (c != d) = true := by
  intro c hc
  exact bne_iff_ne.mpr fun hd => h (hd ▸ hc)

/-- A run of a class up to a boundary of it is taken as a whole. -/
theorem takeWhile_append_boundary {cs rest : List α} (hcs : ∀ c ∈ cs, p c = true)
    (hrest : Boundary p rest) : (cs ++ rest).takeWhile p = cs := by
  have htake : rest.takeWhile p = [] := by
    rcases rest with _ | ⟨c, rest⟩
    · rfl
    · simp [boundary_cons.mp hrest]
  rw [List.takeWhile_append_of_pos hcs, htake, List.append_nil]

/-- What is left behind such a run begins with the boundary. -/
theorem dropWhile_append_boundary {cs rest : List α} (hcs : ∀ c ∈ cs, p c = true)
    (hrest : Boundary p rest) : (cs ++ rest).dropWhile p = rest := by
  rw [List.dropWhile_append_of_pos hcs]
  rcases rest with _ | ⟨c, rest⟩
  · rfl
  · simp [boundary_cons.mp hrest]

/-- A list has one cut between a run of a class and a boundary of it. -/
theorem append_inj_of_boundary {u v r s : List α} (hu : ∀ c ∈ u, p c = true)
    (hv : ∀ c ∈ v, p c = true) (hr : Boundary p r) (hs : Boundary p s) (h : u ++ r = v ++ s) :
    u = v ∧ r = s := by
  have htake := congrArg (List.takeWhile p) h
  rw [takeWhile_append_boundary hu hr, takeWhile_append_boundary hv hs] at htake
  have hdrop := congrArg (List.dropWhile p) h
  rw [dropWhile_append_boundary hu hr, dropWhile_append_boundary hv hs] at hdrop
  exact ⟨htake, hdrop⟩

end ApiSurface
