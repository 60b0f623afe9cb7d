import ApiSurface.Proofs.Model.Merge
import Mathlib.Data.List.Basic
import Mathlib.Data.List.Induction

/-!
# Merging fragments in parts

Merging is a fold that updates the first package of a name or puts a new one last. What comes out
can be said without it (`packages_ofFragments`): the names of the fragments in the order in which
they first occur, and under each of them the types of its fragments in order. So the API made of
some fragments depends on nothing else (`ofFragments_congr`), and neither the names nor the types
change when a part of the fragments is replaced by the packages that it merges to.

The order of first occurrence is the one in which a list stands without its repetitions, and the
first section says how such lists behave: filtering commutes with leaving out repetitions
(`eraseDups_filter`), so that repetitions in a part of a list may be left out first.
-/

namespace ApiSurface

/-! ## Lists without their repetitions -/

section FirstOccurrences

variable {α : Type} [DecidableEq α]

/-- Leaving out repetitions and filtering may be done in either order. -/
theorem eraseDups_filter (p : α → Bool) :
    (l : List α) → (l.filter p).eraseDups = l.eraseDups.filter p
  | [] => rfl
  | a :: l => by
    have hothers := eraseDups_filter p (l.filter fun b => !b == a)
    rw [List.eraseDups_cons]
    by_cases ha : p a = true
    · rw [List.filter_cons_of_pos ha, List.filter_cons_of_pos ha, List.eraseDups_cons, ← hothers,
        List.filter_filter, List.filter_filter]
      simp only [Bool.and_comm]
    · -- What satisfies `p` is different from `a`.
      rw [List.filter_cons_of_neg ha, List.filter_cons_of_neg ha, ← hothers, List.filter_filter]
      congr 1
      apply List.filter_congr
      intro b _
      by_cases hb : b = a
      · simp [hb, ha]
      · simp [hb]
termination_by l => l.length
decreasing_by exact Nat.lt_succ_of_le (List.length_filter_le _ _)

/-- Nothing occurs twice in a list without its repetitions. -/
theorem nodup_eraseDups : (l : List α) → l.eraseDups.Nodup
  | [] => List.nodup_nil
  | a :: l => by
    have hfirst : ∀ b ∈ (l.filter fun b => !b == a).eraseDups, a ≠ b := by
      intro b hb hab
      have hne := (List.mem_filter.mp (List.mem_eraseDups.mp hb)).2
      simp [hab] at hne
    rw [List.eraseDups_cons]
    exact List.Pairwise.cons hfirst (nodup_eraseDups _)
termination_by l => l.length
decreasing_by exact Nat.lt_succ_of_le (List.length_filter_le _ _)

/-- A list without repetitions has none to leave out. -/
theorem eraseDups_of_nodup {l : List α} (h : l.Nodup) : l.eraseDups = l := by
  induction l with
  | nil => rfl
  | cons a l ih =>
    obtain ⟨ha, hl⟩ := List.nodup_cons.mp h
    have hothers : l.filter (fun b => !b == a) = l := by
      apply List.filter_eq_self.mpr
      intro b hb
      have hne : b ≠ a := by
        rintro rfl
        exact ha hb
      simp [hne]
    rw [List.eraseDups_cons, hothers, ih hl]

/-- Repetitions in the first part of a list may be left out first. -/
theorem eraseDups_eraseDups_append (l k : List α) :
    (l.eraseDups ++ k).eraseDups = (l ++ k).eraseDups := by
  have hrest : k.removeAll l.eraseDups = k.removeAll l := by simp [List.removeAll]
  rw [List.eraseDups_append, List.eraseDups_append, eraseDups_of_nodup (nodup_eraseDups l), hrest]

/-- Repetitions in the last part of a list may be left out first. -/
theorem eraseDups_append_eraseDups (l k : List α) :
    (l ++ k.eraseDups).eraseDups = (l ++ k).eraseDups := by
  rw [List.eraseDups_append, List.eraseDups_append, List.removeAll, List.removeAll,
    eraseDups_filter, eraseDups_filter, eraseDups_of_nodup (nodup_eraseDups k)]

/-- One more item counts if it is new. -/
theorem eraseDups_concat (l : List α) (a : α) :
    (l ++ [a]).eraseDups = if a ∈ l then l.eraseDups else l.eraseDups ++ [a] := by
  rw [List.eraseDups_append]
  by_cases ha : a ∈ l
  · simp [List.removeAll, ha]
  · simp [List.removeAll, ha, List.eraseDups_cons]

/-- Without its repetitions, a list stands in the order in which its items first occur. -/
theorem pairwise_idxOf_eraseDups (l : List α) :
    l.eraseDups.Pairwise fun a b => l.idxOf a < l.idxOf b := by
  induction l using List.reverseRecOn with
  | nil => exact List.Pairwise.nil
  | append_singleton l c ih =>
    have hfront : ∀ a ∈ l.eraseDups, (l ++ [c]).idxOf a = l.idxOf a :=
      fun a ha => List.idxOf_append_of_mem (List.mem_eraseDups.mp ha)
    have hold : l.eraseDups.Pairwise fun a b => (l ++ [c]).idxOf a < (l ++ [c]).idxOf b := by
      refine ih.imp_of_mem fun ha hb hlt => ?_
      rwa [hfront _ ha, hfront _ hb]
    rw [eraseDups_concat]
    by_cases hc : c ∈ l
    · rw [if_pos hc]
      exact hold
    · rw [if_neg hc]
      refine List.pairwise_append.mpr ⟨hold, List.pairwise_singleton _ _, fun a ha b hb => ?_⟩
      obtain rfl := List.mem_singleton.mp hb
      rw [hfront a ha, List.idxOf_append_of_notMem hc]
      exact Nat.lt_add_right _ (List.idxOf_lt_length_of_mem (List.mem_eraseDups.mp ha))

end FirstOccurrences

/-! ## What fragments are merged to -/

/-- Names stand in the order in which they first occur among the fragments. -/
theorem names_ofFragments (F : List Package) :
    (Api.ofFragments F).packages.map Package.name = (F.map Package.name).eraseDups := by
  induction F using List.reverseRecOn with
  | nil => rfl
  | append_singleton F p ih =>
    have hstep : (Api.ofFragments (F ++ [p])).packages =
        mergeInto (Api.ofFragments F).packages p := by
      rw [Api.ofFragments, List.foldl_append]
      rfl
    rw [hstep, names_mergeInto, ih, List.map_append, List.map_singleton, eraseDups_concat]
    simp only [List.mem_eraseDups]

/-- The packages that fragments are merged to, without the fold. -/
theorem packages_ofFragments (F : List Package) :
    (Api.ofFragments F).packages =
      (F.map Package.name).eraseDups.map fun n => { name := n, types := typesIn n F } := by
  have hgathers := gathers_ofFragments F
  rw [← names_ofFragments, List.map_map]
  refine (List.map_id _).symm.trans (List.map_congr_left fun p hp => ?_)
  show p = { name := p.name, types := typesIn p.name F }
  rw [← hgathers.types, typesIn_of_mem hgathers.nodup hp]

/-- Merging depends on the order in which names first occur, and on the types of each name. -/
theorem ofFragments_congr {F G : List Package}
    (hnames : (F.map Package.name).eraseDups = (G.map Package.name).eraseDups)
    (htypes : ∀ n, typesIn n F = typesIn n G) : Api.ofFragments F = Api.ofFragments G := by
  have hpackages : (Api.ofFragments F).packages = (Api.ofFragments G).packages := by
    rw [packages_ofFragments, packages_ofFragments, hnames]
    simp only [htypes]
  calc Api.ofFragments F = ⟨(Api.ofFragments F).packages⟩ := rfl
    _ = ⟨(Api.ofFragments G).packages⟩ := by rw [hpackages]
    _ = Api.ofFragments G := rfl

/-- The packages are the fragments put together: each name once, in the order in which the names
first occur among the fragments, and under it the types of all fragments of that name. -/
structure Assembles (fragments packages : List Package) : Prop where
  /-- No name occurs twice. -/
  nodup : (packages.map Package.name).Nodup
  /-- The names are those of the fragments. -/
  mem_names : ∀ n, n ∈ packages.map Package.name ↔ n ∈ fragments.map Package.name
  /-- Of two names the one that first occurs before the other stands before it. -/
  in_order : packages.Pairwise fun p q =>
    (fragments.map Package.name).idxOf p.name < (fragments.map Package.name).idxOf q.name
  /-- The types of a package are those of the fragments of its name, one after the other. -/
  types : ∀ p ∈ packages, p.types = (fragments.filter fun q => q.name = p.name).flatMap Package.types

/-- Merged fragments are assembled from them, each name where it first occurs. -/
theorem assembles_ofFragments (F : List Package) :
    Assembles F (Api.ofFragments F).packages where
  nodup := (gathers_ofFragments F).nodup
  mem_names := (gathers_ofFragments F).mem_names
  in_order := by
    have horder := pairwise_idxOf_eraseDups (F.map Package.name)
    rwa [← names_ofFragments, List.pairwise_map] at horder
  types := by
    intro p hp
    rw [← typesIn_of_mem (gathers_ofFragments F).nodup hp, (gathers_ofFragments F).types]
    rfl

/-- **Fragments may be merged in parts**, the first or the last of them before the others: the API
is the same, packages and types in the same order. In it stands each package name of the fragments
once, in the order in which the names first occur, with the types of all its fragments. -/
theorem ofFragments_in_parts (A B : List Package) :
    Api.ofFragments ((Api.ofFragments A).packages ++ B) = Api.ofFragments (A ++ B) ∧
    Api.ofFragments (A ++ (Api.ofFragments B).packages) = Api.ofFragments (A ++ B) ∧
    Assembles A (Api.ofFragments A).packages := by
  refine ⟨ofFragments_congr ?_ fun n => ?_, ofFragments_congr ?_ fun n => ?_,
    assembles_ofFragments A⟩
  · rw [List.map_append, List.map_append, names_ofFragments, eraseDups_eraseDups_append]
  · rw [typesIn_append, typesIn_append, (gathers_ofFragments A).types]
  · rw [List.map_append, List.map_append, names_ofFragments, eraseDups_append_eraseDups]
  · rw [typesIn_append, typesIn_append, (gathers_ofFragments B).types]

end ApiSurface
