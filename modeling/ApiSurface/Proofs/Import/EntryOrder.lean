import ApiSurface.Description
import ApiSurface.Proofs.Grammar.WellFormed
import ApiSurface.Proofs.Import.FirstFailure
import ApiSurface.Proofs.Import.Framework
import ApiSurface.Proofs.Xml.Api

/-!
# The order of the entries of a batch

The packages of a result, and the types of each of them, are sorted by their names alone, and types
of one name stay in the order in which the entries declare them (`Proofs/Model/Pieces`). So the
order of the entries can be seen in the result just where two types of one package have the same
name and are not declared alike. Nothing else changes with the order: not whether the import
succeeds, and no number of its report (`importEntries_perm`).

That the order can be seen in the *description* of a result is a little more: a description says
nothing of the marks of generated members. What is read from a file has no such marks
(`unmarked_of_wellFormed`), and a normal form adds none, so that two results with the same
description are equal (`describe_full_inj`).
-/

namespace ApiSurface

/-! ## Results of reading files have no marks -/

/-- A method or constructor that is not generated has no mark to lose. -/
theorem Callable.unmarked_of_not_synthetic {c : Callable} (h : c.isSynthetic = false) :
    c.unmarked = c := by
  cases c
  cases h
  rfl

namespace Member

/-- A member read from a source has no mark to lose. -/
theorem unmarked_of_wellFormed {m : Member} (h : m.WellFormed) : m.unmarked = m := by
  induction h with
  | field _ => rfl
  | @method m hm => rw [unmarked, Callable.unmarked_of_not_synthetic hm.isSynthetic]
  | @constructor c hc _ => rw [unmarked, Callable.unmarked_of_not_synthetic hc.isSynthetic]
  | @nested head members _ _ ih =>
    rw [unmarked, unmarkedAll_eq_map, List.map_congr_left ih, List.map_id']

/-- Renaming a constructor keeps the mark. -/
theorem unmarked_renameConstructor (name : String) (m : Member) :
    (m.renameConstructor name).unmarked = m.unmarked.renameConstructor name := by
  cases m <;> rfl

/-- Binding a constructor keeps the mark. -/
theorem unmarked_bindConstructor (qualified : String) (m : Member) :
    (m.bindConstructor qualified).unmarked = m.unmarked.bindConstructor qualified := by
  cases m <;> rfl

/-- What is lifted out of a body is lifted out of one of its members. -/
theorem mem_liftedAll {outer : String} {members : List Member} {t : TypeDecl} :
    t ∈ liftedAll outer members ↔ ∃ m ∈ members, t ∈ lifted outer m := by
  induction members with
  | nil => simp [liftedAll]
  | cons m more ih => simp [liftedAll, ih]

/-- The types that a well-formed member declares have no marks. -/
theorem unmarked_of_lifted {m : Member} (h : m.WellFormed) {outer : String} {t : TypeDecl}
    (ht : t ∈ lifted outer m) : ∀ x ∈ t.members, x.unmarked = x := by
  induction h generalizing outer t with
  | field _ => cases ht
  | method _ => cases ht
  | constructor _ _ => cases ht
  | @nested head members _ hmembers ih =>
    rw [lifted, List.mem_cons] at ht
    rcases ht with rfl | ht
    · intro x hx
      obtain ⟨m, hm, rfl⟩ := List.mem_map.mp hx
      rw [unmarked_renameConstructor,
        unmarked_of_wellFormed (hmembers m (List.mem_of_mem_filter hm))]
    · obtain ⟨m, hm, ht⟩ := mem_liftedAll.mp ht
      exact ih m hm ht

end Member

/-- The members of types lifted out of a source have no mark to lose. -/
theorem unmarked_of_flatten {d t : TypeDecl} (h : d.WellFormed) (ht : t ∈ d.flatten) :
    ∀ x ∈ t.members, x.unmarked = x := by
  rw [TypeDecl.flatten, List.mem_cons] at ht
  rcases ht with rfl | ht
  · intro x hx
    exact Member.unmarked_of_wellFormed (h.members x (List.mem_of_mem_filter hx))
  · obtain ⟨m, hm, ht⟩ := Member.mem_liftedAll.mp ht
    exact Member.unmarked_of_lifted (h.members m hm) ht

/-- The normal form of well-formed fragments has no marks. -/
theorem unmarked_of_normalize {F : List Package} (hF : ∀ f ∈ F, ∀ d ∈ f.types, d.WellFormed)
    {p : Package} (hp : p ∈ (Api.normalize F).packages) : p.unmarked = p := by
  have htypes : ∀ t ∈ p.types, t.unmarked = t := by
    intro t ht
    obtain ⟨s, hs, rfl⟩ := mem_types_normalize hp ht
    obtain ⟨d, hd, hs⟩ := List.mem_flatMap.mp hs
    obtain ⟨f, hf, hd⟩ := List.mem_flatMap.mp hd
    have hmembers := unmarked_of_flatten (hF f (List.mem_of_mem_filter hf) d hd) hs
    have hbound : ∀ x ∈ (boundType p.name s).members, x.unmarked = x := by
      intro x hx
      obtain ⟨m, hm, rfl⟩ := List.mem_map.mp hx
      rw [Member.unmarked_bindConstructor, hmembers m hm]
    rw [TypeDecl.unmarked, Member.unmarkedAll_eq_map, List.map_congr_left hbound, List.map_id']
  rw [Package.unmarked, List.map_congr_left htypes, List.map_id']

/-- Packages without marks are equal if they are equal up to marks. -/
theorem Package.eq_of_unmarked_eq {p q : Package} (hp : p.unmarked = p) (hq : q.unmarked = q)
    (h : p.unmarked = q.unmarked) : p = q := by
  rw [← hp, h, hq]

/-- Normal forms of well-formed fragments are equal if their descriptions are. -/
theorem describe_full_inj {F G : List Package} (hF : ∀ f ∈ F, ∀ d ∈ f.types, d.WellFormed)
    (hG : ∀ f ∈ G, ∀ d ∈ f.types, d.WellFormed)
    (h : (Api.normalize F).describe .full = (Api.normalize G).describe .full) :
    Api.normalize F = Api.normalize G := by
  have hpackages : (Api.normalize F).packages.map id = (Api.normalize G).packages.map id := by
    refine Xml.map_eq_map_of_imp ?_ (Xml.packages_of_full h)
    intro p hp q hq hpq
    have hunmarked := Xml.unmarked_eq_of_package ((isNormal_normalize F).no_nested p hp)
      ((isNormal_normalize G).no_nested q hq) hpq
    exact Package.eq_of_unmarked_eq (unmarked_of_normalize hF hp) (unmarked_of_normalize hG hq)
      hunmarked
  rw [List.map_id, List.map_id] at hpackages
  calc Api.normalize F = ⟨(Api.normalize F).packages⟩ := rfl
    _ = ⟨(Api.normalize G).packages⟩ := by rw [hpackages]
    _ = Api.normalize G := rfl

/-! ## Packages of permuted entries -/

/-- The packages of the stub sources that an import keeps, in the order of the items. -/
def keptPackages (s : Settings) (items : List (Except ImportError Entry)) : List Package :=
  (items.filterMap parsed?).filter fun p => !s.leavesOut p.name

/-- The types that an import describes in a package, in the order in which the items declare
them. -/
def declaredIn (s : Settings) (items : List (Except ImportError Entry)) (p : String) :
    List TypeDecl :=
  boundTypes p (keptPackages s items)

/-- Those of them that have the name `n`. -/
def declaredAs (s : Settings) (items : List (Except ImportError Entry)) (p n : String) :
    List TypeDecl :=
  named (fun t => t.name) n (declaredIn s items p)

/-- The types of a parsed package are well formed. -/
theorem wellFormed_of_parsed? {item : Except ImportError Entry} {p : Package}
    (h : parsed? item = some p) : ∀ d ∈ p.types, d.WellFormed := by
  rcases item with cause | entry
  · cases h
  · rw [parsed?] at h
    split_ifs at h
    rcases hdecode : Text.Utf8.decode entry.contents with fault | text
    · simp [hdecode] at h
    · rcases hparse : CompileUnit.parse text with cause | unit
      · simp [hdecode, hparse] at h
      · simp only [hdecode, hparse, Option.some.injEq] at h
        obtain ⟨tokens, hscan, htokens⟩ := exists_tokens_of_parse hparse
        rw [← h]
        exact (wellFormed_of_tokens hscan htokens).types

/-- The types that an import keeps are well formed. -/
theorem wellFormed_keptPackages (s : Settings) (items : List (Except ImportError Entry)) :
    ∀ f ∈ keptPackages s items, ∀ d ∈ f.types, d.WellFormed := by
  intro f hf
  obtain ⟨item, -, hitem⟩ := List.mem_filterMap.mp (List.mem_of_mem_filter hf)
  exact wellFormed_of_parsed? hitem

section

variable (s : Settings) {items items' : List (Except ImportError Entry)}
  (hperm : items.Perm items')
include hperm

/-- Entries in another order give the same packages in another order. -/
theorem keptPackages_perm : (keptPackages s items).Perm (keptPackages s items') :=
  (hperm.filterMap _).filter _

/-- Entries in another order declare the same types of a package in another order. -/
theorem declaredIn_perm (p : String) : (declaredIn s items p).Perm (declaredIn s items' p) := by
  have htypes : (typesIn p (keptPackages s items)).Perm (typesIn p (keptPackages s items')) :=
    ((keptPackages_perm s hperm).filter _).flatMap_right _
  exact (htypes.flatMap_right _).map _

/-- Permuted entries have the same description exactly if they declare the types of each name in the
same order. -/
theorem describe_full_eq_iff :
    (Api.normalize (keptPackages s items')).describe .full =
        (Api.normalize (keptPackages s items)).describe .full ↔
      ∀ p n, declaredAs s items' p n = declaredAs s items p n := by
  constructor
  · intro h
    have heq := describe_full_inj (wellFormed_keptPackages s items')
      (wellFormed_keptPackages s items) h
    exact (interchangeable_of_normalize_eq heq).types
  · intro h
    have hnames := ((keptPackages_perm s hperm).map Package.name).symm
    have hsame : Interchangeable (keptPackages s items') (keptPackages s items) :=
      ⟨fun n => hnames.mem_iff, h⟩
    rw [hsame.normalize_eq]

/-- No number of a report depends on the order of the entries. -/
theorem report_eq_of_perm :
    ((Batch.Progress.behind {} items').finish s).report =
      ((Batch.Progress.behind {} items).finish s).report := by
  have hparsed := (hperm.filterMap parsed?).symm
  have hkept := (keptPackages_perm s hperm).symm
  have hnames : ∀ {F G : List Package}, F.Perm G → normalNames F = normalNames G := fun h =>
    normalNames_congr fun n => (h.map Package.name).mem_iff
  have hleftOut : (Batch.leftOut s (items'.filterMap parsed?)).length =
      (Batch.leftOut s (items.filterMap parsed?)).length := by
    rw [(Batch.leftOut_perm s _).length_eq, (Batch.leftOut_perm s _).length_eq, hnames hparsed]
  have hpackages : (Api.normalize (keptPackages s items')).packages.length =
      (Api.normalize (keptPackages s items)).packages.length := by
    rw [packages_normalize, packages_normalize, List.length_map, List.length_map, hnames hkept]
  have htypes : (Api.normalize (keptPackages s items')).typeCount =
      (Api.normalize (keptPackages s items)).typeCount := by
    rw [typeCount_normalize, typeCount_normalize, (hkept.map _).sum_nat]
  simp only [keptPackages] at hpackages htypes
  simp [Batch.Progress.finish, Batch.Progress.behind, Batch.kept, hleftOut, hpackages, htypes,
    hperm.length_eq, hperm.countP_eq]

end

/-! ## Whole imports -/

/-- No item of an import that succeeds could have ended it. -/
theorem passes_of_importEntries {s : Settings} {items : List (Except ImportError Entry)}
    {result : Imported} (h : importEntries s items = .ok result) :
    ∀ item ∈ items, Passes item := by
  rcases passes_or_first_failure items with hall | ⟨before, item, rest, cause, rfl, hbefore, hitem⟩
  · exact hall
  · rw [importEntries, (Batch.read_of_fails hbefore hitem {} rest).1] at h
    cases h

/-- An import succeeds if no item ends it, and gives the progress behind all of them. -/
theorem importEntries_of_passes (s : Settings) {items : List (Except ImportError Entry)}
    (h : ∀ item ∈ items, Passes item) :
    importEntries s items = .ok ((Batch.Progress.behind {} items).finish s) := by
  rw [importEntries, (Batch.read_of_passes h {}).1]
  rfl

/-- The API of an import is the normal form of the packages that it keeps. -/
theorem api_finish_behind (s : Settings) (items : List (Except ImportError Entry)) :
    ((Batch.Progress.behind {} items).finish s).api = Api.normalize (keptPackages s items) := by
  simp [Batch.Progress.finish, Batch.Progress.behind, Batch.kept, keptPackages]

/-- **What the order of entries can change.** If an import succeeds, so does the import of the same
entries in any other order, with the same report. The two have the same full description exactly if,
in every package that is kept, the types of each name are declared alike in the same order; in
particular if no package has two types of one name. -/
theorem importEntries_perm (s : Settings) {items items' : List (Except ImportError Entry)}
    (hperm : items.Perm items') {result : Imported} (h : importEntries s items = .ok result) :
    ∃ result', importEntries s items' = .ok result' ∧ result'.report = result.report ∧
      (result'.api.describe .full = result.api.describe .full ↔
        ∀ p n, declaredAs s items' p n = declaredAs s items p n) ∧
      ((∀ p, ((declaredIn s items p).map fun t => t.name).Nodup) →
        result'.api.describe .full = result.api.describe .full) := by
  have hpasses := passes_of_importEntries h
  have hpasses' : ∀ item ∈ items', Passes item := fun item hitem =>
    hpasses item (hperm.mem_iff.mpr hitem)
  rw [importEntries_of_passes s hpasses] at h
  cases h
  refine ⟨_, importEntries_of_passes s hpasses', report_eq_of_perm s hperm, ?_, fun hnodup => ?_⟩
  · rw [api_finish_behind, api_finish_behind]
    exact describe_full_eq_iff s hperm
  · rw [api_finish_behind, api_finish_behind]
    refine (describe_full_eq_iff s hperm).mpr fun p n => ?_
    exact (named_eq_of_perm _ (declaredIn_perm s hperm p) (hnodup p) n).symm

/-- A stub source with a class. -/
def classEntry : Entry := ⟨"a/A.java", "class A\x7b\x7d".toUTF8⟩

/-- A stub source with an interface of the same name. -/
def interfaceEntry : Entry := ⟨"b/A.java", "interface A\x7b\x7d".toUTF8⟩

/-- The first file declares a class. -/
theorem package_classEntry :
    classEntry.package = .ok ⟨"", [{ kind := .classKind defaultSuperclass, name := "A" }]⟩ := by
  have htext : Text.Utf8.decode classEntry.contents = .ok "class A\x7b\x7d" := by
    decide +kernel
  have hunit : CompileUnit.parse "class A\x7b\x7d" =
      .ok ⟨⟨"", [{ kind := .classKind defaultSuperclass, name := "A" }]⟩, []⟩ := by decide +kernel
  simp only [Entry.package, htext, hunit]

/-- The second file declares an interface of the same name. -/
theorem package_interfaceEntry :
    interfaceEntry.package = .ok ⟨"", [{ kind := .interfaceKind, name := "A" }]⟩ := by
  have htext : Text.Utf8.decode interfaceEntry.contents = .ok "interface A\x7b\x7d" := by
    decide +kernel
  have hunit : CompileUnit.parse "interface A\x7b\x7d" =
      .ok ⟨⟨"", [{ kind := .interfaceKind, name := "A" }]⟩, []⟩ := by decide +kernel
  simp only [Entry.package, htext, hunit]

/-- The class before the interface. -/
def classFirst : List (Except ImportError Entry) := [.ok classEntry, .ok interfaceEntry]

/-- The interface before the class. -/
def interfaceFirst : List (Except ImportError Entry) := [.ok interfaceEntry, .ok classEntry]

/-- The two batches hold the same files. -/
theorem classFirst_perm : classFirst.Perm interfaceFirst := List.Perm.swap _ _ _

/-- Neither file ends an import. -/
theorem passes_classFirst : ∀ item ∈ classFirst, Passes item := by
  rw [classFirst, List.forall_mem_cons, List.forall_mem_singleton]
  exact ⟨passes_of_package package_classEntry, passes_of_package package_interfaceEntry⟩

/-- Nor does one in the other batch. -/
theorem passes_interfaceFirst : ∀ item ∈ interfaceFirst, Passes item := fun item hitem =>
  passes_classFirst item (classFirst_perm.mem_iff.mpr hitem)

/-- The types stand in the order of the entries that declare them. -/
theorem declaredAs_ne : declaredAs {} interfaceFirst "" "A" ≠ declaredAs {} classFirst "" "A" := by
  have hclass : classEntry.isSource = true := by decide
  have hinterface : interfaceEntry.isSource = true := by decide
  simp [declaredAs, declaredIn, keptPackages, interfaceFirst, classFirst,
    Settings.leavesOut, parsed?_ok hclass, parsed?_ok hinterface, package_classEntry,
    package_interfaceEntry, Except.toOption, boundTypes, typesIn, named, TypeDecl.flattenAll,
    TypeDecl.flatten, Member.withoutNested, Member.liftedAll, boundType]

/-- The order of two entries that declare a class and an interface of one name is seen in the
description. -/
theorem entry_order_described :
    ¬ ∀ (s : Settings) (items items' : List (Except ImportError Entry)) (result : Imported),
      items.Perm items' → importEntries s items = .ok result →
      ∃ result', importEntries s items' = .ok result' ∧
        result'.api.describe .full = result.api.describe .full := by
  intro h
  obtain ⟨result', hresult', hfull⟩ :=
    h {} _ _ _ classFirst_perm (importEntries_of_passes {} passes_classFirst)
  rw [importEntries_of_passes {} passes_interfaceFirst] at hresult'
  cases hresult'
  rw [api_finish_behind, api_finish_behind] at hfull
  exact declaredAs_ne ((describe_full_eq_iff {} classFirst_perm).mp hfull "" "A")

/-- A class and an interface of one name: the reports agree, and the texts differ. -/
theorem importEntries_perm_classFirst :
    classFirst.Perm interfaceFirst ∧
    ∃ result result', importEntries {} classFirst = .ok result ∧
      importEntries {} interfaceFirst = .ok result' ∧ result'.report = result.report ∧
      result'.api.describe .full ≠ result.api.describe .full := by
  have himport := importEntries_of_passes {} passes_classFirst
  obtain ⟨result', hresult', hreport, hfull, -⟩ := importEntries_perm {} classFirst_perm himport
  refine ⟨classFirst_perm, _, result', himport, hresult', hreport, fun heq => ?_⟩
  exact declaredAs_ne (hfull.mp heq "" "A")

end ApiSurface
