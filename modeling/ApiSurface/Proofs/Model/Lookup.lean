import ApiSurface.Proofs.Model.Normal
import Mathlib.Data.List.Basic

/-!
# Looking up types by their qualified names

A look-up works backwards: in each package it takes the name of the package off the qualified name
and searches the types for what is left. `Api.qualifiedTypes` is the forward view, every type under
its qualified name, in the order of packages and then of types. Within one package both ways agree,
since no other type name has the same qualified form (`Package.unqualify?_eq_some`), and a package
whose name cannot be taken off is passed over. So a look-up is a search of the forward view
(`Api.find?_eq`), whatever the packages are called: one name may be the beginning of another, or
empty, and type names may hold points.

In a normal form every constructor carries the qualified name of its type, so a look-up of that name
gives the type back, unless an earlier type has the same name (`lookup_finds_first`).
-/

namespace ApiSurface

/-- The types of the API under their qualified names, in the order of packages and then of types. -/
def Api.qualifiedTypes (api : Api) : List (String × TypeDecl) :=
  api.packages.flatMap fun p => p.types.map fun t => (p.qualify t.name, t)

/-- The forward view holds every type of every package under its qualified name. -/
theorem Api.mem_qualifiedTypes {api : Api} {x : String × TypeDecl} :
    x ∈ api.qualifiedTypes ↔ ∃ p ∈ api.packages, ∃ t ∈ p.types, (p.qualify t.name, t) = x := by
  simp [Api.qualifiedTypes]

/-! ## One package -/

namespace Package

/-- Taking the name of the package off undoes putting it in front, and nothing else. -/
theorem unqualify?_eq_some {p : Package} {q n : String} :
    p.unqualify? q = some n ↔ p.qualify n = q := by
  unfold unqualify? qualify
  split
  · rw [Option.some.injEq, eq_comm]
  · rw [Option.map_eq_some_iff]
    constructor
    · rintro ⟨behind, hbehind, rfl⟩
      apply String.toList_injective
      simpa using Text.afterStart?_eq_some.mp hbehind
    · rintro rfl
      refine ⟨n.toList, Text.afterStart?_eq_some.mpr ?_, String.ofList_toList⟩
      simp

/-- A package searched for a qualified name gives its first type of that name. -/
theorem bind_unqualify? (p : Package) (q : String) :
    (p.unqualify? q).bind p.find? = p.types.find? fun t => p.qualify t.name == q := by
  cases hq : p.unqualify? q with
  | none =>
    symm
    rw [Option.bind_none, List.find?_eq_none]
    intro t _ hname
    rw [unqualify?_eq_some.mpr (beq_iff_eq.mp hname)] at hq
    cases hq
  | some n =>
    -- Of the names of types only `n` has the qualified form `q`.
    have hsame : ∀ t : TypeDecl, (t.name == n) = (p.qualify t.name == q) := by
      intro t
      rw [Bool.eq_iff_iff, beq_iff_eq, beq_iff_eq, ← unqualify?_eq_some, hq, Option.some.injEq]
      exact eq_comm
    rw [Option.bind_some, find?]
    simp only [hsame]

end Package

/-! ## The whole API -/

namespace Api

/-- A look-up is a search of the types under their qualified names. -/
theorem find?_eq (api : Api) (q : String) :
    api.find? q = (api.qualifiedTypes.find? fun x => x.1 == q).map Prod.snd := by
  have hpackage : ∀ p : Package,
      ((p.types.map fun t => (p.qualify t.name, t)).find? fun x => x.1 == q).map Prod.snd =
        (p.unqualify? q).bind p.find? := by
    intro p
    rw [p.bind_unqualify?, List.find?_map, Option.map_map]
    exact Option.map_id_apply
  rw [qualifiedTypes, List.find?_flatMap, List.map_findSome?]
  exact congrArg (List.findSome? · api.packages) (funext fun p => (hpackage p).symm)

/-- A look-up gives the first type of the forward view that has the qualified name. -/
theorem find?_eq_some_iff {api : Api} {q : String} {t : TypeDecl} :
    api.find? q = some t ↔ ∃ before behind,
      api.qualifiedTypes = before ++ (q, t) :: behind ∧ ∀ x ∈ before, x.1 ≠ q := by
  rw [find?_eq, Option.map_eq_some_iff]
  constructor
  · rintro ⟨x, hx, rfl⟩
    obtain ⟨hq, before, behind, htypes, hbefore⟩ := List.find?_eq_some_iff_append.mp hx
    obtain rfl := beq_iff_eq.mp hq
    exact ⟨before, behind, htypes, fun y hy => by simpa using hbefore y hy⟩
  · rintro ⟨before, behind, htypes, hbefore⟩
    refine ⟨(q, t), List.find?_eq_some_iff_append.mpr ⟨beq_self_eq_true q, ?_⟩, rfl⟩
    exact ⟨before, behind, htypes, fun y hy => by simpa using hbefore y hy⟩

/-- A look-up gives nothing if and only if no type has the qualified name. -/
theorem find?_eq_none_iff {api : Api} {q : String} :
    api.find? q = none ↔ ∀ p ∈ api.packages, ∀ t ∈ p.types, p.qualify t.name ≠ q := by
  rw [find?_eq, Option.map_eq_none_iff, List.find?_eq_none]
  constructor
  · intro h p hp t ht hq
    exact h _ (mem_qualifiedTypes.mpr ⟨p, hp, t, ht, rfl⟩) (beq_iff_eq.mpr hq)
  · intro h x hx hq
    obtain ⟨p, hp, t, ht, rfl⟩ := mem_qualifiedTypes.mp hx
    exact h p hp t ht (beq_iff_eq.mp hq)

/-- Where no qualified name occurs twice, each type is found under its own. -/
theorem find?_qualify {api : Api} (h : (api.qualifiedTypes.map Prod.fst).Nodup) {p : Package}
    {t : TypeDecl} (hp : p ∈ api.packages) (ht : t ∈ p.types) :
    api.find? (p.qualify t.name) = some t := by
  obtain ⟨before, behind, htypes⟩ :=
    List.append_of_mem (mem_qualifiedTypes.mpr ⟨p, hp, t, ht, rfl⟩)
  refine find?_eq_some_iff.mpr ⟨before, behind, htypes, ?_⟩
  intro x hx hname
  rw [htypes, List.map_append, List.map_cons] at h
  have hfirst : x.1 ∈ before.map Prod.fst := List.mem_map_of_mem hx
  exact (List.nodup_append.mp h).2.2 x.1 hfirst (p.qualify t.name) List.mem_cons_self hname

end Api

/-- In a normal form every constructor has the qualified name of the type it stands in. -/
theorem enclosingType_normalize {fragments : List Package} {p : Package} {t : TypeDecl}
    {c : Constructor} (hp : p ∈ (Api.normalize fragments).packages) (ht : t ∈ p.types)
    (hc : .constructor c ∈ t.members) : c.enclosingType = p.qualify t.name := by
  rw [(isNormal_normalize fragments).constructors_bound p hp t ht c hc]
  exact (qualify_eq p.name t.name).symm

/-- **A look-up finds the first type of its name, and constructors find their types.** Looking up a
qualified name gives the first type that has it, in the order of packages and then of types, and
nothing just if no type has it. So if no two types of a normal form have the same qualified name,
looking up the name that a constructor carries gives the type in which the constructor stands. -/
theorem lookup_finds_first :
    (∀ (api : Api) (q : String) (t : TypeDecl), api.find? q = some t ↔ ∃ before behind,
      api.qualifiedTypes = before ++ (q, t) :: behind ∧ ∀ x ∈ before, x.1 ≠ q) ∧
    (∀ (api : Api) (q : String), api.find? q = none ↔
      ∀ p ∈ api.packages, ∀ t ∈ p.types, p.qualify t.name ≠ q) ∧
    ∀ fragments : List Package, ((Api.normalize fragments).qualifiedTypes.map Prod.fst).Nodup →
      ∀ p ∈ (Api.normalize fragments).packages, ∀ t ∈ p.types, ∀ c, .constructor c ∈ t.members →
        (Api.normalize fragments).find? c.enclosingType = some t := by
  refine ⟨fun _ _ _ => Api.find?_eq_some_iff, fun _ _ => Api.find?_eq_none_iff, ?_⟩
  intro fragments hdistinct p hp t ht c hc
  rw [enclosingType_normalize hp ht hc]
  exact Api.find?_qualify hdistinct hp ht

/-- A class with one constructor and the given nested types. -/
def builtClass (name : String) (inner : List TypeHead := []) : TypeDecl where
  kind := .classKind defaultSuperclass
  name := name
  members := .constructor { name, enclosingType := name } :: inner.map fun head => .nested head []

/-- Packages whose names begin with one another, and a nested type with the name of a package. -/
def overlappingPackages : List Package :=
  [⟨"a.b", [builtClass "C"]⟩, ⟨"", [builtClass "b"]⟩,
    ⟨"a", [builtClass "b" [{ kind := .interfaceKind, name := "D" }]]⟩]

/-- The packages in order, with the types as they are declared. -/
theorem packages_overlappingPackages :
    (Api.normalize overlappingPackages).packages =
      ["", "a", "a.b"].map fun n => ⟨n, boundTypes n overlappingPackages⟩ :=
  packages_normalize_of_sorted (by decide +kernel) (by decide) (by decide) (by decide +kernel)

/-- The qualified names, where one package is named like a type of another. -/
theorem names_overlappingPackages :
    (Api.normalize overlappingPackages).qualifiedTypes.map Prod.fst =
      ["b", "a.b", "a.b.D", "a.b.C"] := by
  rw [Api.qualifiedTypes, packages_overlappingPackages]
  decide +kernel

/-- The type `a.b.C` stands in the package `a.b`, which is the last one. -/
theorem last_overlappingPackages :
    (Api.normalize overlappingPackages).packages.getLast? =
      some ⟨"a.b", [boundType "a.b" (builtClass "C")]⟩ := by
  rw [packages_overlappingPackages]
  decide +kernel

/-- The package `a` comes first, but has no type of the name that is left behind its own. -/
theorem lookup_finds_first_overlapping :
    ((Api.normalize overlappingPackages).qualifiedTypes.map Prod.fst).Nodup ∧
    ⟨"a.b", [boundType "a.b" (builtClass "C")]⟩ ∈ (Api.normalize overlappingPackages).packages ∧
    .constructor { name := "C", enclosingType := "a.b.C" } ∈
      (boundType "a.b" (builtClass "C")).members ∧
    (Api.normalize overlappingPackages).find? "a.b.C" =
      some (boundType "a.b" (builtClass "C")) := by
  have hdistinct : ((Api.normalize overlappingPackages).qualifiedTypes.map Prod.fst).Nodup := by
    rw [names_overlappingPackages]
    decide
  have hpackage := List.mem_of_getLast? last_overlappingPackages
  have hbound : .constructor { name := "C", enclosingType := "a.b.C" } ∈
      (boundType "a.b" (builtClass "C")).members := by
    rw [boundType, builtClass, List.map_cons, List.mem_cons]
    exact .inl rfl
  exact ⟨hdistinct, hpackage, hbound,
    lookup_finds_first.2.2 overlappingPackages hdistinct _ hpackage _ List.mem_cons_self _ hbound⟩

end ApiSurface
