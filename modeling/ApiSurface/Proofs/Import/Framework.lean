import ApiSurface.Import.Batch
import ApiSurface.Proofs.Model.FirstOccurrence
import ApiSurface.Proofs.Model.Pieces

/-!
# Leaving out packages before and after normalisation

The settings leave out packages by name, and an import drops their fragments before it merges,
lifts, binds and sorts. A package of a normal form is made from the fragments of its own name alone
(`packages_normalize`), so the packages of the other names come out as if nothing had been dropped
(`packages_normalize_filter`). The dropped names are counted once each, however many fragments have
them (`leftOut_perm`). So an import that leaves out packages gives the result of one that keeps
all, less those packages (`importEntries_framework`).
-/

namespace ApiSurface

/-! ## Normal forms of the fragments of some names -/

section Filter

variable (keep : String → Bool) (F : List Package)

/-- A name is among the kept fragments if it is among all and is kept. -/
theorem mem_names_filter (n : String) :
    n ∈ (F.filter fun p => keep p.name).map Package.name ↔
      n ∈ F.map Package.name ∧ keep n = true := by
  simp only [List.mem_map, List.mem_filter]
  constructor
  · rintro ⟨p, ⟨hp, hkeep⟩, rfl⟩
    exact ⟨⟨p, hp, rfl⟩, hkeep⟩
  · rintro ⟨⟨p, hp, rfl⟩, hkeep⟩
    exact ⟨p, ⟨hp, hkeep⟩, rfl⟩

/-- The names of the normal form are filtered like the fragments. -/
theorem normalNames_filter :
    normalNames (F.filter fun p => keep p.name) = (normalNames F).filter keep := by
  apply eq_of_increasing (normalNames_increasing _) ((normalNames_increasing F).filter keep)
  intro n
  rw [mem_normalNames, mem_names_filter, List.mem_filter, mem_normalNames]

variable {keep}

/-- Under a name that is kept stand the same types as before. -/
theorem typesIn_filter {n : String} (hn : keep n = true) :
    typesIn n (F.filter fun p => keep p.name) = typesIn n F := by
  rw [typesIn, typesIn, named, named, List.filter_filter]
  congr 1
  apply List.filter_congr
  intro p _
  by_cases hp : p.name = n
  · simp [hp, hn]
  · simp [hp]

/-- A package of a kept name is made from the same types as before. -/
theorem normalPackage_filter {n : String} (hn : keep n = true) :
    normalPackage (F.filter fun p => keep p.name) n = normalPackage F n := by
  rw [normalPackage, normalPackage, boundTypes, boundTypes, typesIn_filter F hn]

variable (keep)

/-- Fragments may be dropped by their names before or after normalisation. -/
theorem packages_normalize_filter :
    (Api.normalize (F.filter fun p => keep p.name)).packages =
      (Api.normalize F).packages.filter fun p => keep p.name := by
  rw [packages_normalize, packages_normalize, normalNames_filter, List.filter_map]
  apply List.map_congr_left
  intro n hn
  exact normalPackage_filter F (List.mem_filter.mp hn).2

end Filter

/-! ## Counting what is left out -/

namespace Batch

/-- The names that are left out are those of the normal form that the settings leave out. -/
theorem leftOut_perm (s : Settings) (F : List Package) :
    (leftOut s F).Perm ((normalNames F).filter s.leavesOut) := by
  have hleftOut : (leftOut s F).Nodup := nodup_eraseDups _
  have hnames : (normalNames F).Nodup :=
    (normalNames_increasing F).imp fun hlt => String.ne_of_lt hlt
  refine (List.perm_ext_iff_of_nodup hleftOut (hnames.filter s.leavesOut)).mpr ?_
  intro n
  rw [leftOut, List.mem_eraseDups, mem_names_filter, List.mem_filter, mem_normalNames]

/-- The packages of the kept fragments are the packages of all that are not left out. -/
theorem packages_kept (s : Settings) (F : List Package) :
    (Api.normalize (kept s F)).packages =
      (Api.normalize F).packages.filter fun p => !s.leavesOut p.name :=
  packages_normalize_filter (fun n => !s.leavesOut n) F

/-- The packages that are kept and those that are left out are all packages. -/
theorem length_kept_add_leftOut (s : Settings) (F : List Package) :
    (Api.normalize (kept s F)).packages.length + (leftOut s F).length =
      (Api.normalize F).packages.length := by
  have hkept : (Api.normalize (kept s F)).packages.length =
      ((normalNames F).filter fun n => !s.leavesOut n).length := by
    rw [packages_kept, packages_normalize, List.filter_map, List.length_map]
    rfl
  calc (Api.normalize (kept s F)).packages.length + (leftOut s F).length
      = ((normalNames F).filter fun n => !s.leavesOut n).length +
          ((normalNames F).filter s.leavesOut).length := by
        rw [hkept, (leftOut_perm s F).length_eq]
    _ = (normalNames F).length := by
        rw [Nat.add_comm, ← List.length_eq_length_filter_add]
    _ = (Api.normalize F).packages.length := by
        rw [packages_normalize, List.length_map]

/-- Settings that do not ask for the framework alone keep every fragment. -/
theorem kept_of_not_frameworkOnly {s : Settings} (h : s.frameworkOnly = false) (F : List Package) :
    kept s F = F := by
  apply List.filter_eq_self.mpr
  intro p _
  rw [Settings.leavesOut, h]
  rfl

end Batch

/-! ## Whole imports -/

/-- **Leaving out packages commutes with importing.** An import for the framework alone and one of
everything, under settings that are otherwise the same, either fail with the same error or both
succeed. Then the first gives the API of the second without the packages that the settings leave
out, the others unchanged and in their order, and reports as many packages, kept and left out, as
the second. -/
theorem importEntries_framework (s : Settings) (items : List (Except ImportError Entry)) :
    (∃ cause, importEntries s items = .error cause ∧
      importEntries { s with frameworkOnly := false } items = .error cause) ∨
    ∃ filtered full, importEntries s items = .ok filtered ∧
      importEntries { s with frameworkOnly := false } items = .ok full ∧
      filtered.api = ⟨full.api.packages.filter fun p => !s.leavesOut p.name⟩ ∧
      filtered.report.packages + filtered.report.packagesFiltered = full.report.packages := by
  rcases hread : Batch.Progress.read {} items with cause | progress
  · refine .inl ⟨cause, ?_, ?_⟩
    · rw [importEntries, hread]
      rfl
    · rw [importEntries, hread]
      rfl
  · have hall := Batch.kept_of_not_frameworkOnly (s := { s with frameworkOnly := false }) rfl
      progress.fragments.reverse
    refine .inr
      ⟨progress.finish s, progress.finish { s with frameworkOnly := false }, ?_, ?_, ?_, ?_⟩
    · rw [importEntries, hread]
      rfl
    · rw [importEntries, hread]
      rfl
    · simp only [Batch.Progress.finish, hall, ← Batch.packages_kept]
    · simp only [Batch.Progress.finish, hall]
      exact Batch.length_kept_add_leftOut s progress.fragments.reverse

end ApiSurface
