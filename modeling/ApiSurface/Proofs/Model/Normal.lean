import ApiSurface.Model.Normal
import ApiSurface.Proofs.Model.Merge

/-!
# The normal form of an API

The normal form is made in four steps, and each leaves alone what the others have established.

* Merging gives each package name once (`Proofs/Model/Merge`).
* Lifting leaves no nested type in any type (`no_nested_of_flattenAll`), and gives the names that
  the next step uses.
* Binding changes neither names nor kinds of members, and gives every constructor the qualified name
  of its type (`enclosingType_of_mem_boundType`).
* Sorting only moves packages and types.

So every package of a normal form is made from its name and the types of its fragments alone
(`packages_normalize`). The two main results are read off this equation: the invariants of the
normal form (`normalize_isNormal`), and that it does not depend on how declarations are spread over
fragments (`normalize_order_independent`).
-/

namespace ApiSurface

/-! ## Lifting -/

mutual

/-- The types lifted out of a member hold no nested type. -/
theorem no_nested_of_lifted (outer : String) : (m : Member) →
    ∀ t ∈ Member.lifted outer m, ∀ x ∈ t.members, x.isNested = false
  | .nested head members => by
    intro t ht x hx
    rw [Member.lifted, List.mem_cons] at ht
    rcases ht with rfl | ht
    · obtain ⟨y, hy, rfl⟩ := List.mem_map.mp hx
      have hplain : y.isNested = false := by
        simpa [Member.withoutNested] using (List.mem_filter.mp hy).2
      cases y <;> first | rfl | cases hplain
    · exact no_nested_of_liftedAll _ members t ht x hx
  | .field _ => by simp [Member.lifted]
  | .method _ => by simp [Member.lifted]
  | .constructor _ => by simp [Member.lifted]

/-- The types lifted out of a body hold no nested type. -/
theorem no_nested_of_liftedAll (outer : String) : (ms : List Member) →
    ∀ t ∈ Member.liftedAll outer ms, ∀ x ∈ t.members, x.isNested = false
  | [] => by simp [Member.liftedAll]
  | m :: more => by
    intro t ht
    rw [Member.liftedAll, List.mem_append] at ht
    rcases ht with ht | ht
    · exact no_nested_of_lifted outer m t ht
    · exact no_nested_of_liftedAll outer more t ht

end

/-- No lifted type holds a nested one. -/
theorem no_nested_of_flattenAll {types : List TypeDecl} {t : TypeDecl}
    (ht : t ∈ TypeDecl.flattenAll types) : ∀ m ∈ t.members, m.isNested = false := by
  obtain ⟨s, -, ht⟩ := List.mem_flatMap.mp ht
  rw [TypeDecl.flatten, List.mem_cons] at ht
  rcases ht with rfl | ht
  · intro m hm
    simpa [Member.withoutNested] using (List.mem_filter.mp hm).2
  · exact no_nested_of_liftedAll s.name s.members t ht

/-- The types of a package name may be lifted fragment by fragment. -/
theorem flattenAll_typesIn (n : String) (fragments : List Package) :
    TypeDecl.flattenAll (typesIn n fragments) =
      (named Package.name n fragments).flatMap fun p => TypeDecl.flattenAll p.types := by
  simp [TypeDecl.flattenAll, typesIn, List.flatMap_assoc]

/-! ## Binding -/

/-- The type with its constructors bound to its qualified name in the package `n`. -/
def boundType (n : String) (t : TypeDecl) : TypeDecl :=
  { t with
    members := t.members.map (Member.bindConstructor (Package.qualify { name := n } t.name)) }

/-- Binding turns nothing into a nested type. -/
@[simp] theorem isNested_bindConstructor (q : String) (m : Member) :
    (m.bindConstructor q).isNested = m.isNested := by
  cases m <;> rfl

/-- The name of a type behind the name of its package, or alone in the unnamed package. -/
theorem qualify_eq (n t : String) :
    Package.qualify { name := n } t = if n = "" then t else n ++ "." ++ t := by
  simp [Package.qualify, Package.isUnnamed, String.isEmpty_iff]

/-- A constructor of a bound type has the qualified name of the type. -/
theorem enclosingType_of_mem_boundType {n : String} {t : TypeDecl} {c : Constructor}
    (hc : Member.constructor c ∈ (boundType n t).members) :
    c.enclosingType = if n = "" then t.name else n ++ "." ++ t.name := by
  obtain ⟨m, -, hm⟩ := List.mem_map.mp hc
  cases m with
  | constructor d =>
    rw [← qualify_eq]
    cases hm
    rfl
  | field _ => cases hm
  | method _ => cases hm
  | nested _ _ => cases hm

/-! ## The packages of a normal form -/

/-- The types of a package of a normal form, before they are sorted. -/
def boundTypes (n : String) (fragments : List Package) : List TypeDecl :=
  (TypeDecl.flattenAll (typesIn n fragments)).map (boundType n)

/-- The package of a normal form with the given name. -/
def normalPackage (fragments : List Package) (n : String) : Package where
  name := n
  types := sortByName (fun t => t.name) (boundTypes n fragments)

/-- The names of the packages of a normal form, in order. -/
def normalNames (fragments : List Package) : List String :=
  (sortByName Package.name (Api.ofFragments fragments).packages).map Package.name

/-- The names of the normal form are those of the merged packages, in another order. -/
theorem normalNames_perm (fragments : List Package) :
    (normalNames fragments).Perm ((Api.ofFragments fragments).packages.map Package.name) :=
  (sortByName_perm _ _).map _

/-- The names of the normal form are those of the fragments. -/
theorem mem_normalNames {fragments : List Package} {n : String} :
    n ∈ normalNames fragments ↔ n ∈ fragments.map Package.name := by
  rw [(normalNames_perm fragments).mem_iff, (gathers_ofFragments fragments).mem_names]

/-- The names of the normal form are strictly increasing. -/
theorem normalNames_increasing (fragments : List Package) :
    (normalNames fragments).Pairwise (· < ·) := by
  rw [normalNames, List.pairwise_map]
  exact sortByName_increasing _ (gathers_ofFragments fragments).nodup

/-- A merged package, lifted, bound and sorted, is the one of the normal form. -/
theorem sortTypes_eq_normalPackage {fragments : List Package} {p : Package}
    (hp : p ∈ (Api.ofFragments fragments).packages) :
    p.flatten.bindConstructors.sortTypes = normalPackage fragments p.name := by
  have hgathers := gathers_ofFragments fragments
  have htypes : p.types = typesIn p.name fragments := by
    rw [← hgathers.types, typesIn_of_mem hgathers.nodup hp]
  rw [normalPackage, boundTypes, ← htypes]
  rfl

/-- Every package of a normal form is made from its name and the types of its fragments. -/
theorem packages_normalize (fragments : List Package) :
    (Api.normalize fragments).packages =
      (normalNames fragments).map (normalPackage fragments) := by
  have hname : ∀ p : Package, p.flatten.bindConstructors.name = p.name := fun _ => rfl
  show (sortByName Package.name ((Api.ofFragments fragments).packages.map fun p =>
    p.flatten.bindConstructors)).map Package.sortTypes = _
  rw [sortByName_map _ hname, normalNames, List.map_map, List.map_map]
  refine List.map_congr_left fun p hp => ?_
  exact sortTypes_eq_normalPackage ((mem_sortByName _).mp hp)

/-- Where the types of every package are in order already, the packages of the normal form are made
of them as they are. -/
theorem packages_normalize_of_sorted {fragments : List Package} {names : List String}
    (hincreasing : names.Pairwise (· < ·))
    (hnames : ∀ n ∈ names, n ∈ fragments.map Package.name)
    (hfragments : ∀ p ∈ fragments, p.name ∈ names)
    (hsorted : ∀ n ∈ names, (boundTypes n fragments).Pairwise fun s t => s.name ≤ t.name) :
    (Api.normalize fragments).packages = names.map fun n => ⟨n, boundTypes n fragments⟩ := by
  have hmem : ∀ n, n ∈ normalNames fragments ↔ n ∈ names := by
    intro n
    rw [mem_normalNames]
    exact ⟨List.forall_mem_map.mpr hfragments n, hnames n⟩
  rw [packages_normalize, eq_of_increasing (normalNames_increasing fragments) hincreasing hmem]
  apply List.map_congr_left
  intro n hn
  rw [normalPackage]
  congr 1
  exact eq_of_named_eq _ (sortByName_sorted _ _) (hsorted n hn) fun m => named_sortByName _ m _

/-- A package of the normal form is the one made from its name and the fragments. -/
theorem mem_packages_normalize {fragments : List Package} {p : Package}
    (hp : p ∈ (Api.normalize fragments).packages) : p = normalPackage fragments p.name := by
  rw [packages_normalize] at hp
  obtain ⟨n, -, rfl⟩ := List.mem_map.mp hp
  rfl

/-- The types of a package of a normal form are the bound types of its fragments. -/
theorem mem_types_normalize {fragments : List Package} {p : Package} {t : TypeDecl}
    (hp : p ∈ (Api.normalize fragments).packages) (ht : t ∈ p.types) :
    ∃ s ∈ TypeDecl.flattenAll (typesIn p.name fragments), t = boundType p.name s := by
  rw [mem_packages_normalize hp, normalPackage, mem_sortByName] at ht
  obtain ⟨s, hs, rfl⟩ := List.mem_map.mp ht
  exact ⟨s, hs, rfl⟩

/-! ## Invariants -/

/-- What holds of an API in normal form. -/
structure Api.IsNormal (api : Api) : Prop where
  /-- The names of packages increase; in particular none occurs twice. -/
  names_increasing : api.packages.Pairwise fun p q => p.name < q.name
  /-- The types of a package stand in the order of their names. -/
  types_sorted : ∀ p ∈ api.packages, p.types.Pairwise fun s t => s.name ≤ t.name
  /-- No type holds a nested one. -/
  no_nested : ∀ p ∈ api.packages, ∀ t ∈ p.types, ∀ m ∈ t.members, m.isNested = false
  /-- Every constructor has the qualified name of its type. -/
  constructors_bound : ∀ p ∈ api.packages, ∀ t ∈ p.types, ∀ c, .constructor c ∈ t.members →
    c.enclosingType = if p.name = "" then t.name else p.name ++ "." ++ t.name

/-- The normal form has all four of its properties, whatever the fragments are. -/
theorem isNormal_normalize (fragments : List Package) : (Api.normalize fragments).IsNormal where
  names_increasing := by
    rw [packages_normalize, List.pairwise_map]
    exact normalNames_increasing fragments
  types_sorted := by
    intro p hp
    rw [mem_packages_normalize hp]
    exact sortByName_sorted _ _
  no_nested := by
    intro p hp t ht m hm
    obtain ⟨s, hs, rfl⟩ := mem_types_normalize hp ht
    obtain ⟨x, hx, rfl⟩ := List.mem_map.mp hm
    rw [isNested_bindConstructor]
    exact no_nested_of_flattenAll hs x hx
  constructors_bound := by
    intro p hp t ht c hc
    obtain ⟨s, -, rfl⟩ := mem_types_normalize hp ht
    exact enclosingType_of_mem_boundType (t := s) hc

/-- **The normal form keeps its invariants, and nothing is lost.** Besides `IsNormal`, the package
names are those of the fragments, and each package has the names of all types of its fragments, with
repetitions. -/
theorem normalize_isNormal (fragments : List Package) :
    (Api.normalize fragments).IsNormal ∧
    (∀ n, n ∈ (Api.normalize fragments).packages.map Package.name ↔
      n ∈ fragments.map Package.name) ∧
    ∀ p ∈ (Api.normalize fragments).packages,
      (p.types.map fun t => t.name).Perm
        ((TypeDecl.flattenAll (typesIn p.name fragments)).map fun t => t.name) := by
  refine ⟨isNormal_normalize fragments, ?_, ?_⟩
  · intro n
    have hnames : (Api.normalize fragments).packages.map Package.name = normalNames fragments := by
      rw [packages_normalize, List.map_map]
      exact List.map_id _
    rw [hnames, mem_normalNames]
  · intro p hp
    have hperm := (sortByName_perm (fun t => t.name) (boundTypes p.name fragments)).map
      fun t => t.name
    rw [boundTypes, List.map_map] at hperm
    rw [mem_packages_normalize hp]
    exact hperm

/-! ## Order and distribution of declarations -/

/-- The lifted types named `n` of the fragments named `p`, in the order of the fragments. -/
def liftedNamed (fragments : List Package) (p n : String) : List TypeDecl :=
  (fragments.filter fun f => f.name = p).flatMap fun f =>
    (TypeDecl.flattenAll f.types).filter fun t => t.name = n

/-- The lifted types of a name are those among all lifted types of the package. -/
theorem liftedNamed_eq (fragments : List Package) (p n : String) :
    liftedNamed fragments p n =
      named (fun t => t.name) n (TypeDecl.flattenAll (typesIn p fragments)) := by
  rw [flattenAll_typesIn, named, List.filter_flatMap]
  rfl

/-- Binding does not change which types have a name. -/
theorem named_boundTypes (fragments : List Package) (p n : String) :
    named (fun t => t.name) n (boundTypes p fragments) =
      (liftedNamed fragments p n).map (boundType p) := by
  rw [liftedNamed_eq, named, boundTypes, List.filter_map]
  rfl

/-- A package depends on the lifted types of each name only. -/
theorem normalPackage_congr {F G : List Package} {p : String}
    (h : ∀ n, liftedNamed F p n = liftedNamed G p n) : normalPackage F p = normalPackage G p := by
  rw [normalPackage, normalPackage]
  congr 1
  refine sortByName_congr _ fun n => ?_
  rw [named_boundTypes, named_boundTypes, h]

/-- The names of a normal form depend only on the set of names. -/
theorem normalNames_congr {F G : List Package}
    (h : ∀ n, n ∈ F.map Package.name ↔ n ∈ G.map Package.name) :
    normalNames F = normalNames G := by
  apply eq_of_increasing (normalNames_increasing F) (normalNames_increasing G)
  intro n
  rw [mem_normalNames, mem_normalNames, h]

/-- A normal form depends on the package names and the lifted types of each name only. -/
theorem normalize_congr {F G : List Package}
    (hnames : ∀ n, n ∈ F.map Package.name ↔ n ∈ G.map Package.name)
    (htypes : ∀ p n, liftedNamed F p n = liftedNamed G p n) :
    Api.normalize F = Api.normalize G := by
  have hpackages : (Api.normalize F).packages = (Api.normalize G).packages := by
    rw [packages_normalize, packages_normalize, normalNames_congr hnames]
    exact List.map_congr_left fun p _ => normalPackage_congr (htypes p)
  calc Api.normalize F = ⟨(Api.normalize F).packages⟩ := rfl
    _ = ⟨(Api.normalize G).packages⟩ := by rw [hpackages]
    _ = Api.normalize G := rfl

/-- Where no name occurs twice, the items of a name do not depend on the order. -/
theorem named_eq_of_perm {α : Type} (name : α → String) {l k : List α} (h : l.Perm k)
    (hnodup : (l.map name).Nodup) (n : String) : named name n l = named name n k := by
  have hperm : (named name n l).Perm (named name n k) := h.filter _
  have hlength : (named name n l).length ≤ 1 := by
    rw [named, ← List.countP_eq_length_filter]
    have hcount := List.nodup_iff_count.mp hnodup n
    rwa [List.count, List.countP_map] at hcount
  rcases hl : named name n l with _ | ⟨a, _ | ⟨b, rest⟩⟩
  · rw [hl] at hperm
    rw [hperm.nil_eq]
  · rw [hl] at hperm
    rw [List.singleton_perm.mp hperm]
  · rw [hl] at hlength
    simp at hlength

/-- Where no lifted name occurs twice, the order of the types does not matter. -/
theorem liftedNamed_eq_of_perm {F G : List Package} {p : String}
    (hperm : (typesIn p F).Perm (typesIn p G))
    (hnodup : ((TypeDecl.flattenAll (typesIn p F)).map fun t => t.name).Nodup) (n : String) :
    liftedNamed F p n = liftedNamed G p n := by
  rw [liftedNamed_eq, liftedNamed_eq]
  exact named_eq_of_perm _ (hperm.flatMap_right _) hnodup n

/-- **The normal form does not depend on the order or the distribution of declarations.** Two lists
of fragments with the same package names have the same normal form if, under each package name, the
lifted types of each name are the same in the same order; in particular if they have the same
declarations, in any order and distribution, and no lifted name occurs twice in a package. -/
theorem normalize_order_independent {F G : List Package}
    (hnames : ∀ n, n ∈ F.map Package.name ↔ n ∈ G.map Package.name) :
    ((∀ p n, liftedNamed F p n = liftedNamed G p n) → Api.normalize F = Api.normalize G) ∧
    ((∀ p, (typesIn p F).Perm (typesIn p G)) →
      (∀ p, ((TypeDecl.flattenAll (typesIn p F)).map fun t => t.name).Nodup) →
      Api.normalize F = Api.normalize G) := by
  refine ⟨normalize_congr hnames, ?_⟩
  intro hperm hnodup
  exact normalize_congr hnames fun p => liftedNamed_eq_of_perm (hperm p) (hnodup p)

/-- An interface with another nested in it. -/
def outerInterface : TypeDecl where
  kind := .interfaceKind
  name := "A"
  members := [.nested { kind := .interfaceKind, name := "C" } []]

/-- A class, declared with or without `final`. -/
def plainClass (isFinal : Bool) : TypeDecl where
  kind := .classKind defaultSuperclass
  name := "B"
  isFinal := isFinal

/-- The types of each name are in the same order: the interface stands at another place among them,
but the declarations of the class do not change places. -/
theorem liftedNamed_two_files (p n : String) :
    liftedNamed [⟨"p", [outerInterface, plainClass true]⟩, ⟨"p", [plainClass false]⟩] p n =
      liftedNamed [⟨"p", [plainClass true]⟩, ⟨"p", [plainClass false, outerInterface]⟩] p n := by
  by_cases hp : "p" = p
  · by_cases hn : "B" = n
    · subst hp hn
      rfl
    · simp [liftedNamed, TypeDecl.flattenAll, TypeDecl.flatten, plainClass, hp, hn,
        Member.liftedAll, List.filter_cons]
  · simp [liftedNamed, hp]

/-- The types of one file and of two are the same in another order. -/
theorem typesIn_two_files (p : String) :
    (typesIn p [⟨"p", [outerInterface, plainClass true]⟩]).Perm
      (typesIn p [⟨"p", [plainClass true]⟩, ⟨"p", [outerInterface]⟩]) := by
  by_cases hp : "p" = p
  · simp only [typesIn, named, List.filter_cons, decide_eq_true hp, if_true, List.filter_nil,
      List.flatMap_cons, List.flatMap_nil, List.append_nil, List.singleton_append]
    exact .swap _ _ _
  · simp [typesIn, named, hp]

/-- No lifted name occurs twice in the file. -/
theorem nodup_two_files (p : String) :
    ((TypeDecl.flattenAll (typesIn p [⟨"p", [outerInterface, plainClass true]⟩])).map
      fun t => t.name).Nodup := by
  by_cases hp : "p" = p
  · subst hp
    decide
  · simp [typesIn, named, hp, TypeDecl.flattenAll]

/-- Two ways to spread an interface and two classes of one name over two files of a package. -/
theorem normalize_order_independent_two_files :
    ((∀ p n,
      liftedNamed [⟨"p", [outerInterface, plainClass true]⟩, ⟨"p", [plainClass false]⟩] p n =
        liftedNamed [⟨"p", [plainClass true]⟩, ⟨"p", [plainClass false, outerInterface]⟩] p n) ∧
      Api.normalize [⟨"p", [outerInterface, plainClass true]⟩, ⟨"p", [plainClass false]⟩] =
        Api.normalize [⟨"p", [plainClass true]⟩, ⟨"p", [plainClass false, outerInterface]⟩]) ∧
    (∀ p, (typesIn p [⟨"p", [outerInterface, plainClass true]⟩]).Perm
      (typesIn p [⟨"p", [plainClass true]⟩, ⟨"p", [outerInterface]⟩])) ∧
    (∀ p, ((TypeDecl.flattenAll (typesIn p [⟨"p", [outerInterface, plainClass true]⟩])).map
      fun t => t.name).Nodup) ∧
    Api.normalize [⟨"p", [outerInterface, plainClass true]⟩] =
      Api.normalize [⟨"p", [plainClass true]⟩, ⟨"p", [outerInterface]⟩] := by
  refine ⟨⟨liftedNamed_two_files, ?_⟩, typesIn_two_files, nodup_two_files, ?_⟩
  · exact (normalize_order_independent (by simp)).1 liftedNamed_two_files
  · exact (normalize_order_independent (by simp)).2 typesIn_two_files nodup_two_files

end ApiSurface
