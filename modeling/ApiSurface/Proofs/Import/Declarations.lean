import ApiSurface.Import.Batch
import ApiSurface.Proofs.Model.Lifting
import Mathlib.Algebra.GroupWithZero.Nat
import Mathlib.Data.List.Basic

/-!
# What becomes of the declarations of a batch

The packages that an import collects are those of the stub sources among its entries, in order:
reading one item adds its package or nothing (`fragments_of_step`), so a whole run adds the packages
of all items (`fragments_of_read`). The normal form of a batch holds each lifted type once
(`typeCount_normalize`), and lifting lists each type of a file once (`Proofs/Model/Lifting`).
So no declaration is lost on the way from the files to the report (`flattenAll_preorder`).
-/

namespace ApiSurface

/-! ## Types of a normal form -/

/-- Items of another name are the same without those of the name `n`. -/
theorem named_filter_of_ne {α : Type} {name : α → String} {m n : String} (h : m ≠ n) (l : List α) :
    named name m (l.filter fun a => !decide (name a = n)) = named name m l := by
  rw [named, named, List.filter_filter]
  apply List.filter_congr
  intro a _
  by_cases ham : name a = m
  · simp [ham, h]
  · simp [ham]

/-- Items taken name by name are all the items. -/
theorem flatMap_named_perm {α : Type} (name : α → String) {names : List String}
    (hnodup : names.Nodup) {l : List α} (h : ∀ a ∈ l, name a ∈ names) :
    (names.flatMap fun n => named name n l).Perm l := by
  induction names generalizing l with
  | nil =>
    have hl : l = [] := List.eq_nil_iff_forall_not_mem.mpr fun a ha => List.not_mem_nil (h a ha)
    rw [hl]
    exact .nil
  | cons n names ih =>
    rw [List.nodup_cons] at hnodup
    have hothers : ∀ a ∈ l.filter fun a => !decide (name a = n), name a ∈ names := by
      intro a ha
      have hne : name a ≠ n := by simpa using (List.mem_filter.mp ha).2
      exact (List.mem_cons.mp (h a (List.mem_filter.mp ha).1)).resolve_left hne
    -- The items of the first name do not count for the other names.
    have hnamed : (names.flatMap fun m => named name m (l.filter fun a => !decide (name a = n))) =
        names.flatMap fun m => named name m l := by
      apply List.flatMap_congr
      intro m hm
      exact named_filter_of_ne (fun hmn : m = n => hnodup.1 (hmn ▸ hm)) l
    rw [List.flatMap_cons, ← hnamed]
    exact ((ih hnodup.2 hothers).append_left _).trans (List.filter_append_perm _ l)

/-- A normal form has as many types as its fragments have lifted types. -/
theorem typeCount_normalize (fragments : List Package) :
    (Api.normalize fragments).typeCount =
      (fragments.map fun p => (TypeDecl.flattenAll p.types).length).sum := by
  have hnodup : (normalNames fragments).Nodup :=
    (normalNames_increasing fragments).imp fun hlt => String.ne_of_lt hlt
  have hperm := flatMap_named_perm Package.name hnodup (l := fragments) fun p hp =>
    mem_normalNames.mpr (List.mem_map_of_mem hp)
  have hlength : ∀ n, (normalPackage fragments n).types.length =
      ((named Package.name n fragments).flatMap fun p => TypeDecl.flattenAll p.types).length := by
    intro n
    rw [normalPackage, (sortByName_perm _ _).length_eq, boundTypes, List.length_map,
      flattenAll_typesIn]
  calc (Api.normalize fragments).typeCount
      = ((normalNames fragments).flatMap fun n => (normalPackage fragments n).types).length := by
        rw [Api.typeCount, packages_normalize, List.flatMap_map]
    _ = ((normalNames fragments).flatMap fun n =>
          (named Package.name n fragments).flatMap fun p =>
            TypeDecl.flattenAll p.types).length := by
        rw [List.length_flatMap, List.length_flatMap]
        simp only [hlength]
    _ = (((normalNames fragments).flatMap fun n =>
          named Package.name n fragments).flatMap fun p =>
            TypeDecl.flattenAll p.types).length := by
        rw [List.flatMap_assoc]
    _ = (fragments.flatMap fun p => TypeDecl.flattenAll p.types).length :=
        (hperm.flatMap_right _).length_eq
    _ = (fragments.map fun p => (TypeDecl.flattenAll p.types).length).sum := List.length_flatMap

/-! ## Packages of a batch -/

/-- The package of an item, if it is a stub source whose bytes are the text of a compile unit. -/
def parsed? : Except ImportError Entry → Option Package
  | .error _ => none
  | .ok entry =>
    if entry.isSource then
      match Text.Utf8.decode entry.contents with
      | .error _ => none
      | .ok text =>
        match CompileUnit.parse text with
        | .error _ => none
        | .ok unit => some unit.package
    else none

/-- A stub source has the package that it is read as. -/
theorem parsed?_ok {entry : Entry} (hsource : entry.isSource = true) :
    parsed? (.ok entry) = entry.package.toOption := by
  rw [parsed?, if_pos hsource, Entry.package]
  rcases Text.Utf8.decode entry.contents with fault | text
  · rfl
  · dsimp only
    rcases CompileUnit.parse text with cause | unit
    · rfl
    · rfl

/-- An entry that is no stub source has no package. -/
theorem parsed?_of_not_isSource {entry : Entry} (hsource : entry.isSource = false) :
    parsed? (.ok entry) = none := by
  rw [parsed?, hsource]
  rfl

namespace Batch

/-- Reading an item adds its package, if it has one. -/
theorem fragments_of_step {p q : Progress} {item : Except ImportError Entry}
    (h : p.step item = .ok q) : q.fragments = (parsed? item).toList ++ p.fragments := by
  rcases item with cause | entry
  · cases h
  · by_cases hsource : entry.isSource
    · rcases hpackage : entry.package with cause | package
      · simp [Progress.step, hsource, hpackage] at h
      · simp only [Progress.step, hsource, if_true, hpackage, Except.ok.injEq] at h
        subst h
        simp [parsed?_ok hsource, hpackage, Except.toOption]
    · rw [Progress.step, if_neg hsource, Except.ok.injEq] at h
      subst h
      simp [parsed?_of_not_isSource (Bool.eq_false_iff.mpr hsource)]

/-- A run that reads all items adds the packages of all of them. -/
theorem fragments_of_read {p q : Progress} {items : List (Except ImportError Entry)}
    (h : p.read items = .ok q) :
    q.fragments.reverse = p.fragments.reverse ++ items.filterMap parsed? := by
  induction items generalizing p with
  | nil =>
    cases h
    simp
  | cons item more ih =>
    rcases hstep : p.step item with cause | next
    · simp [Progress.read, hstep] at h
    · simp only [Progress.read, hstep] at h
      rw [ih h, fragments_of_step hstep]
      rcases hitem : parsed? item with _ | package
      · simp [hitem]
      · simp [hitem]

end Batch

/-- The types of a successful import are counted over the files that are kept. -/
theorem types_of_importEntries {s : Settings} {items : List (Except ImportError Entry)}
    {result : Imported} (h : importEntries s items = .ok result) :
    result.report.types =
      (((items.filterMap parsed?).filter fun p => !s.leavesOut p.name).map fun p =>
        (typeAddresses p.types).length).sum := by
  rw [importEntries] at h
  rcases hread : Batch.Progress.read {} items with cause | progress
  · rw [hread] at h
    cases h
  · rw [hread] at h
    cases h
    have hfragments := Batch.fragments_of_read hread
    show (Api.normalize (Batch.kept s progress.fragments.reverse)).typeCount = _
    rw [typeCount_normalize, hfragments]
    simp only [length_flattenAll]
    rfl

/-- **Lifting neither loses, doubles nor alters declarations.** The lifted types of a forest are,
one for one, the types at its addresses, in the order of the addresses; each has its path for a name
and is otherwise as it was declared, without its nested types, and only constructors of nested types
are renamed. So a successful import reports as many types as are declared, nested ones included, in
the files whose packages are kept. -/
theorem flattenAll_preorder :
    (∀ types : List TypeDecl,
      (typeAddresses types).Pairwise (· < ·) ∧
      (∀ a, a ∈ typeAddresses types ↔ (nodeAt? types a).isSome) ∧
      TypeDecl.flattenAll types =
        (typeAddresses types).filterMap fun a => (nodeAt? types a).map TypeNode.lifted) ∧
    ∀ (s : Settings) (items : List (Except ImportError Entry)) (result : Imported),
      importEntries s items = .ok result →
      result.report.types =
        (((items.filterMap parsed?).filter fun p => !s.leavesOut p.name).map fun p =>
          (typeAddresses p.types).length).sum := by
  refine ⟨fun types => ⟨?_, ?_, ?_⟩, fun s items result h => ?_⟩
  · exact typeAddresses_increasing types
  · exact fun a => mem_typeAddresses
  · exact flattenAll_eq types
  · exact types_of_importEntries h

/-- A class with a class nested in it, in which stand a constructor, a field and an interface. -/
def nestingClass : TypeDecl where
  kind := .classKind defaultSuperclass
  name := "A"
  members := [.constructor { name := "A", enclosingType := "A" },
    .nested { kind := .classKind defaultSuperclass, name := "B" }
      [.constructor { name := "B", enclosingType := "B" }, .field { name := "f", type := "int" },
        .nested { kind := .interfaceKind, name := "C" } []]]

/-- A package that is no part of the framework. -/
def supportPackage : Package :=
  ⟨"android.support.v4", [{ kind := .classKind defaultSuperclass, name := "S" }]⟩

/-- A stub source with types nested in another. -/
def nestedEntry : Entry :=
  ⟨"A.java", "class A\x7bA();class B\x7bB();int f;interface C\x7b\x7d\x7d\x7d".toUTF8⟩

/-- A stub source of a package that is no part of the framework. -/
def supportEntry : Entry := ⟨"S.java", "package android.support.v4;class S\x7b\x7d".toUTF8⟩

/-- An entry that is no stub source, and whose bytes are no text. -/
def notesEntry : Entry := ⟨"notes.txt", ⟨#[0xFF]⟩⟩

/-- The stub source is read as the class. -/
theorem package_nestedEntry : nestedEntry.package = .ok ⟨"", [nestingClass]⟩ := by
  have htext : Text.Utf8.decode nestedEntry.contents =
      .ok "class A\x7bA();class B\x7bB();int f;interface C\x7b\x7d\x7d\x7d" := by decide +kernel
  have hunit : CompileUnit.parse
      "class A\x7bA();class B\x7bB();int f;interface C\x7b\x7d\x7d\x7d" =
      .ok ⟨⟨"", [nestingClass]⟩, []⟩ := by decide +kernel
  simp only [Entry.package, htext, hunit]

/-- The stub source outside the framework is read as its package. -/
theorem package_supportEntry : supportEntry.package = .ok supportPackage := by
  have htext : Text.Utf8.decode supportEntry.contents =
      .ok "package android.support.v4;class S\x7b\x7d" := by decide +kernel
  have hunit : CompileUnit.parse "package android.support.v4;class S\x7b\x7d" =
      .ok ⟨supportPackage, []⟩ := by decide +kernel
  simp only [Entry.package, htext, hunit]

/-- The two stub sources, and an entry that is none. -/
def nestedBatch : List (Except ImportError Entry) :=
  [.ok nestedEntry, .ok supportEntry, .ok notesEntry]

/-- The batch declares the packages of its stub sources. -/
theorem filterMap_parsed?_nestedBatch :
    nestedBatch.filterMap parsed? = [⟨"", [nestingClass]⟩, supportPackage] := by
  have hnested : parsed? (.ok nestedEntry) = some ⟨"", [nestingClass]⟩ := by
    rw [parsed?_ok (by decide), package_nestedEntry]
    rfl
  have hsupport : parsed? (.ok supportEntry) = some supportPackage := by
    rw [parsed?_ok (by decide), package_supportEntry]
    rfl
  have hnotes : parsed? (.ok notesEntry) = none := parsed?_of_not_isSource (by decide)
  rw [nestedBatch, List.filterMap_cons_some hnested, List.filterMap_cons_some hsupport,
    List.filterMap_cons_none hnotes]
  rfl

/-- What an import has read behind the batch. -/
def nestedProgress : Batch.Progress :=
  { visited := 3, parsed := 2, skipped := 1, fragments := [supportPackage, ⟨"", [nestingClass]⟩] }

/-- The batch is read to its end. -/
theorem read_nestedBatch : Batch.Progress.read {} nestedBatch = .ok nestedProgress := by
  have hnested : nestedEntry.isSource = true := by decide
  have hsupport : supportEntry.isSource = true := by decide
  have hnotes : notesEntry.isSource = false := by decide
  simp [nestedBatch, Batch.Progress.read, Batch.Progress.step, hnested, hsupport, hnotes,
    package_nestedEntry, package_supportEntry, nestedProgress]

/-- A nested class with a constructor of its own, and a batch of which one package is left out. -/
theorem flattenAll_preorder_nestedBatch :
    TypeDecl.flattenAll [nestingClass] =
      [{ kind := .classKind defaultSuperclass, name := "A"
         members := [.constructor { name := "A", enclosingType := "A" }] },
       { kind := .classKind defaultSuperclass, name := "A.B"
         members := [.constructor { name := "A.B", enclosingType := "B" },
          .field { name := "f", type := "int" }] },
       { kind := .interfaceKind, name := "A.B.C" }] ∧
    ∃ result, importEntries { frameworkOnly := true } nestedBatch = .ok result ∧
      result.report.types = 3 := by
  have himport : importEntries { frameworkOnly := true } nestedBatch =
      .ok (nestedProgress.finish { frameworkOnly := true }) := by
    rw [importEntries, read_nestedBatch]
    rfl
  refine ⟨?_, _, himport, ?_⟩
  · rw [(flattenAll_preorder.1 [nestingClass]).2.2]
    rfl
  · rw [flattenAll_preorder.2 _ _ _ himport, filterMap_parsed?_nestedBatch]
    rfl

end ApiSurface
