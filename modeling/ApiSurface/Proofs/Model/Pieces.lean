import ApiSurface.Proofs.Model.Normal

/-!
# Normal forms of parts of a batch

A batch of fragments may be brought to normal form in parts. What the normal form of a part has lost
against the part itself is how its fragments were cut and how types of different names were mixed,
and neither is seen by a later normalisation: lifting leaves flat types alone (`flatten_of_flat`),
binding a second time changes nothing (`boundType_boundType`), and a stable sort keeps types of one
name in their order even if another sort came before (`named_sortByName`).

Two lists of fragments are *interchangeable* if they have the same package names and, under each of
them, the same bound types of each name in the same order. This is all that a normal form depends on
(`Interchangeable.normalize_eq`), it is kept when both lists are extended alike
(`Interchangeable.append`), and a part is interchangeable with the packages of its normal form
(`interchangeable_normalize`).
-/

namespace ApiSurface

/-! ## Lifting and binding a second time -/

/-- Nothing is lifted out of a body without nested types. -/
theorem liftedAll_of_flat (outer : String) {members : List Member}
    (h : ∀ m ∈ members, m.isNested = false) : Member.liftedAll outer members = [] := by
  induction members with
  | nil => rfl
  | cons m more ih =>
    have hmore : Member.liftedAll outer more = [] := ih fun x hx => h x (List.mem_cons_of_mem m hx)
    have hm : Member.lifted outer m = [] := by
      have hplain := h m List.mem_cons_self
      cases m with
      | nested head members => cases hplain
      | _ => rfl
    rw [Member.liftedAll, hm, hmore, List.append_nil]

/-- A type without nested types is left as it is. -/
theorem flatten_of_flat {t : TypeDecl} (h : ∀ m ∈ t.members, m.isNested = false) :
    t.flatten = [t] := by
  have hmembers : Member.withoutNested t.members = t.members := by
    apply List.filter_eq_self.mpr
    intro m hm
    rw [h m hm]
    rfl
  rw [TypeDecl.flatten, liftedAll_of_flat t.name h, hmembers]

/-- Types without nested types are left as they are. -/
theorem flattenAll_of_flat {types : List TypeDecl}
    (h : ∀ t ∈ types, ∀ m ∈ t.members, m.isNested = false) :
    TypeDecl.flattenAll types = types := by
  induction types with
  | nil => rfl
  | cons t more ih =>
    have hmore := ih fun s hs => h s (List.mem_cons_of_mem t hs)
    rw [TypeDecl.flattenAll] at hmore ⊢
    rw [List.flatMap_cons, flatten_of_flat (h t List.mem_cons_self), hmore]
    rfl

/-- A constructor that is bound twice belongs to the type it was bound to last. -/
theorem bindConstructor_bindConstructor (q r : String) (m : Member) :
    (m.bindConstructor q).bindConstructor r = m.bindConstructor r := by
  cases m <;> rfl

/-- Binding a second time changes nothing. -/
theorem boundType_boundType (n : String) (t : TypeDecl) :
    boundType n (boundType n t) = boundType n t := by
  have hmembers :
      (boundType n t).members.map (Member.bindConstructor (Package.qualify { name := n } t.name)) =
        (boundType n t).members := by
    rw [boundType, List.map_map]
    apply List.map_congr_left
    intro m _
    exact bindConstructor_bindConstructor _ _ m
  calc boundType n (boundType n t)
      = { boundType n t with
          members := (boundType n t).members.map
            (Member.bindConstructor (Package.qualify { name := n } t.name)) } := rfl
    _ = boundType n t := by rw [hmembers]

/-! ## Interchangeable fragments -/

/-- The fragments have the same package names and, under each of them, the same bound types of each
name in the same order. -/
structure Interchangeable (F G : List Package) : Prop where
  /-- The package names are the same. -/
  names : ∀ n, n ∈ F.map Package.name ↔ n ∈ G.map Package.name
  /-- The bound types of a name are the same, in the same order. -/
  types : ∀ p n, named (fun t => t.name) n (boundTypes p F) =
    named (fun t => t.name) n (boundTypes p G)

/-- Fragments are interchangeable with themselves. -/
theorem Interchangeable.refl (F : List Package) : Interchangeable F F :=
  ⟨fun _ => Iff.rfl, fun _ _ => rfl⟩

/-- Interchangeable fragments are so in both directions. -/
theorem Interchangeable.symm {F G : List Package} (h : Interchangeable F G) :
    Interchangeable G F :=
  ⟨fun n => (h.names n).symm, fun p n => (h.types p n).symm⟩

/-- What is interchangeable with the same fragments in between is interchangeable. -/
theorem Interchangeable.trans {F G H : List Package} (h : Interchangeable F G)
    (h' : Interchangeable G H) : Interchangeable F H :=
  ⟨fun n => (h.names n).trans (h'.names n), fun p n => (h.types p n).trans (h'.types p n)⟩

/-- The items of a name in a joined list are those of the first part and then of the second. -/
theorem named_append {α : Type} (name : α → String) (n : String) (l k : List α) :
    named name n (l ++ k) = named name n l ++ named name n k :=
  List.filter_append l k

/-- The bound types of joined fragments are those of the first and then of the second. -/
theorem boundTypes_append (p : String) (F G : List Package) :
    boundTypes p (F ++ G) = boundTypes p F ++ boundTypes p G := by
  simp [boundTypes, typesIn_append, TypeDecl.flattenAll]

/-- Nothing is bound under a name that no fragment has. -/
theorem boundTypes_of_not_mem {p : String} {F : List Package} (h : p ∉ F.map Package.name) :
    boundTypes p F = [] := by
  rw [boundTypes, typesIn_of_not_mem h]
  rfl

/-- Interchangeable parts may be put together. -/
theorem Interchangeable.append {F G F' G' : List Package} (h : Interchangeable F G)
    (h' : Interchangeable F' G') : Interchangeable (F ++ F') (G ++ G') := by
  refine ⟨fun n => ?_, fun p n => ?_⟩
  · rw [List.map_append, List.map_append, List.mem_append, List.mem_append, h.names, h'.names]
  · rw [boundTypes_append, boundTypes_append, named_append, named_append, h.types, h'.types]

/-- The normal form depends on nothing else. -/
theorem Interchangeable.normalize_eq {F G : List Package} (h : Interchangeable F G) :
    Api.normalize F = Api.normalize G := by
  have hpackage : ∀ p, normalPackage F p = normalPackage G p := by
    intro p
    rw [normalPackage, normalPackage, sortByName_congr _ (h.types p)]
  have hpackages : (Api.normalize F).packages = (Api.normalize G).packages := by
    rw [packages_normalize, packages_normalize, normalNames_congr h.names]
    exact List.map_congr_left fun p _ => hpackage p
  calc Api.normalize F = ⟨(Api.normalize F).packages⟩ := rfl
    _ = ⟨(Api.normalize G).packages⟩ := by rw [hpackages]
    _ = Api.normalize G := rfl

/-! ## A part and its normal form -/

/-- The names of the packages of a normal form, in their order. -/
theorem names_normalize (F : List Package) :
    (Api.normalize F).packages.map Package.name = normalNames F := by
  rw [packages_normalize, List.map_map]
  exact List.map_id _

/-- Under a name of the fragments stand the types of the package of that name. -/
theorem typesIn_normalize {F : List Package} {p : String} (hp : p ∈ F.map Package.name) :
    typesIn p (Api.normalize F).packages = sortByName (fun t => t.name) (boundTypes p F) := by
  have hmem : normalPackage F p ∈ (Api.normalize F).packages := by
    rw [packages_normalize]
    exact List.mem_map_of_mem (mem_normalNames.mpr hp)
  have hnodup : ((Api.normalize F).packages.map Package.name).Nodup := by
    rw [names_normalize]
    exact (normalNames_increasing F).imp fun hlt => String.ne_of_lt hlt
  exact typesIn_of_mem hnodup hmem

/-- The types of a normal form are lifted and bound already. -/
theorem boundTypes_normalize {F : List Package} {p : String} (hp : p ∈ F.map Package.name) :
    boundTypes p (Api.normalize F).packages = sortByName (fun t => t.name) (boundTypes p F) := by
  have hbound : ∀ t ∈ sortByName (fun t => t.name) (boundTypes p F),
      ∃ s ∈ TypeDecl.flattenAll (typesIn p F), boundType p s = t := by
    intro t ht
    exact List.mem_map.mp ((mem_sortByName _).mp ht)
  have hflat : ∀ t ∈ sortByName (fun t => t.name) (boundTypes p F),
      ∀ m ∈ t.members, m.isNested = false := by
    intro t ht m hm
    obtain ⟨s, hs, rfl⟩ := hbound t ht
    obtain ⟨x, hx, rfl⟩ := List.mem_map.mp hm
    rw [isNested_bindConstructor]
    exact no_nested_of_flattenAll hs x hx
  have hagain : ∀ t ∈ sortByName (fun t => t.name) (boundTypes p F), boundType p t = id t := by
    intro t ht
    obtain ⟨s, -, rfl⟩ := hbound t ht
    exact boundType_boundType p s
  rw [boundTypes, typesIn_normalize hp, flattenAll_of_flat hflat, List.map_congr_left hagain,
    List.map_id]

/-- A part of a batch is interchangeable with the packages of its normal form. -/
theorem interchangeable_normalize (F : List Package) :
    Interchangeable (Api.normalize F).packages F := by
  have hnames : ∀ n, n ∈ (Api.normalize F).packages.map Package.name ↔ n ∈ F.map Package.name := by
    intro n
    rw [names_normalize, mem_normalNames]
  refine ⟨hnames, fun p n => ?_⟩
  by_cases hp : p ∈ F.map Package.name
  · rw [boundTypes_normalize hp, named_sortByName]
  · rw [boundTypes_of_not_mem hp, boundTypes_of_not_mem (mt (hnames p).mp hp)]

/-- Fragments with one normal form are interchangeable. -/
theorem interchangeable_of_normalize_eq {F G : List Package}
    (h : Api.normalize F = Api.normalize G) : Interchangeable F G := by
  have hG := interchangeable_normalize G
  rw [← h] at hG
  exact (interchangeable_normalize F).symm.trans hG

/-- **A batch may be normalised in parts.** The first or the last fragments of a batch may be
replaced by the packages of their own normal form, whatever names the types of both parts share; in
particular a normal form is its own normal form. -/
theorem normalize_in_parts (A B : List Package) :
    Api.normalize ((Api.normalize A).packages ++ B) = Api.normalize (A ++ B) ∧
    Api.normalize (A ++ (Api.normalize B).packages) = Api.normalize (A ++ B) ∧
    Api.normalize (Api.normalize A).packages = Api.normalize A := by
  refine ⟨?_, ?_, ?_⟩
  · apply Interchangeable.normalize_eq
    exact (interchangeable_normalize A).append (.refl B)
  · apply Interchangeable.normalize_eq
    exact (Interchangeable.refl A).append (interchangeable_normalize B)
  · exact (interchangeable_normalize A).normalize_eq

end ApiSurface
