import ApiSurface.Xml.Api
import ApiSurface.Proofs.Xml.Element
import Mathlib.Data.List.Basic

/-!
# What the full description says of an API

Two APIs without nested types have the same full description if and only if they are equal up to the
marks of their generated members (`full_eq_iff`). So nothing but these marks is lost, whatever the
texts in the API are.

A document determines its elements (`document_inj`), and it is left to see that an element
determines the declaration it describes. Its attributes do so for the texts and flags; an attribute
that may be left out, the superclass or the value of a field, is told from its neighbours by its
name. Children of different kinds stand one kind after another, and are told apart by their tags
(`tagged_append_inj`). The one place where an element says less than it seems is a type whose
members are all nested: it has content and no children. With flat members an element is empty just
if it has no children (`fullType_of_flat`).
-/

namespace ApiSurface

/-! ## Flat and unmarked APIs -/

/-- No type of the API has a nested type. -/
def Api.IsFlat (a : Api) : Prop :=
  ∀ p ∈ a.packages, ∀ t ∈ p.types, ∀ m ∈ t.members, m.isNested = false

instance (a : Api) : Decidable a.IsFlat :=
  inferInstanceAs (Decidable (∀ p ∈ a.packages, ∀ t ∈ p.types, ∀ m ∈ t.members, m.isNested = false))

/-- The method or constructor without the mark for generated members. -/
def Callable.unmarked (c : Callable) : Callable := { c with isSynthetic := false }

namespace Member

mutual

/-- The member without marks for generated members. -/
def unmarked : Member → Member
  | field f => field f
  | method m => method { m with toCallable := m.toCallable.unmarked }
  | constructor c => constructor { c with toCallable := c.toCallable.unmarked }
  | nested head members => nested head (unmarkedAll members)

/-- The members without marks for generated members. -/
def unmarkedAll : List Member → List Member
  | [] => []
  | m :: more => unmarked m :: unmarkedAll more

end

/-- The marks of a body are taken away member by member. -/
theorem unmarkedAll_eq_map (members : List Member) :
    unmarkedAll members = members.map unmarked := by
  induction members with
  | nil => rfl
  | cons m more ih => rw [unmarkedAll, ih, List.map_cons]

end Member

/-- The type without marks for generated members. -/
def TypeDecl.unmarked (t : TypeDecl) : TypeDecl :=
  { t with members := Member.unmarkedAll t.members }

/-- The package without marks for generated members. -/
def Package.unmarked (p : Package) : Package := { p with types := p.types.map TypeDecl.unmarked }

/-- The API without marks for generated members. -/
def Api.unmarked (a : Api) : Api := { a with packages := a.packages.map Package.unmarked }

namespace Xml

/-! ## Names -/

/-- A tag and attributes have names if these are among names written in letters. -/
theorem HasNames.of_map {tag : String} {attributes : List (String × String)} (names : List String)
    (h : attributes.map Prod.fst = names) (hnames : ∀ n ∈ tag :: names, IsName n) :
    HasNames tag attributes := by
  refine ⟨hnames tag List.mem_cons_self, fun a ha => ?_⟩
  apply hnames
  rw [← h]
  exact List.mem_cons_of_mem _ (List.mem_map_of_mem ha)

namespace Element

/-- An element is well named whether it is written with children or without. -/
theorem wellNamed_ofChildren {tag : String} {attributes : List (String × String)}
    {children : List Element} (h : HasNames tag attributes)
    (hchildren : ∀ e ∈ children, e.WellNamed) : (ofChildren tag attributes children).WellNamed := by
  unfold ofChildren
  split
  · exact .leaf h
  · exact .node h hchildren

end Element

/-- The element of a type parameter is well named. -/
theorem wellNamed_typeParameter (p : TypeParameter) : (typeParameter p).WellNamed := by
  refine Element.wellNamed_ofChildren (.of_map ["name"] rfl (by decide)) fun e he => ?_
  obtain ⟨bound, -, rfl⟩ := List.mem_map.mp he
  exact .leaf (.of_map ["type"] rfl (by decide))

/-- What a list of type parameters is written as is well named. -/
theorem wellNamed_typeParameters (ps : List TypeParameter) :
    ∀ e ∈ typeParameters ps, e.WellNamed := by
  intro e he
  unfold typeParameters at he
  split at he
  · cases he
  · rw [List.mem_singleton] at he
    subst he
    refine .node (.of_map [] rfl (by decide)) fun e he => ?_
    obtain ⟨p, -, rfl⟩ := List.mem_map.mp he
    exact wellNamed_typeParameter p

/-- The children of a method or constructor are well named. -/
theorem wellNamed_callableChildren (c : Callable) : ∀ e ∈ callableChildren c, e.WellNamed := by
  intro e he
  simp only [callableChildren, List.mem_append, List.mem_map] at he
  rcases he with (he | ⟨p, -, rfl⟩) | ⟨x, -, rfl⟩
  · exact wellNamed_typeParameters _ e he
  · exact .leaf (.of_map ["name", "type"] rfl (by decide))
  · exact .leaf (.of_map ["name", "type"] rfl (by decide))

/-- The element of a field is well named, with a value or without. -/
theorem wellNamed_field (f : Field) : (field f).WellNamed := by
  cases hvalue : f.value with
  | none =>
    refine .leaf (.of_map ["name", "type", "static", "final", "volatile", "transient", "visibility",
      "deprecated"] ?_ (by decide))
    rw [hvalue]
    rfl
  | some value =>
    refine .leaf (.of_map ["name", "type", "static", "final", "volatile", "transient", "value",
      "visibility", "deprecated"] ?_ (by decide))
    rw [hvalue]
    rfl

/-- The element of a member is well named. -/
theorem wellNamed_member? {m : Member} {e : Element} (h : member? m = some e) : e.WellNamed := by
  cases m with
  | constructor c =>
    cases h
    exact Element.wellNamed_ofChildren (.of_map ["name", "type", "static", "final", "visibility",
      "deprecated"] rfl (by decide)) (wellNamed_callableChildren _)
  | method m =>
    cases h
    exact Element.wellNamed_ofChildren (.of_map ["name", "return", "abstract", "native",
      "synchronized", "static", "final", "visibility", "deprecated"] rfl (by decide))
      (wellNamed_callableChildren _)
  | field f =>
    cases h
    exact wellNamed_field f
  | nested head members => cases h

/-- The attributes of a type have names, for every kind of type. -/
theorem hasNames_type (h : TypeHead) : HasNames h.kind.word (typeAttributes h) := by
  unfold typeAttributes
  cases h.kind with
  | classKind superclass =>
    have hnames : ∀ n ∈ ["class", "name", "extends", "abstract", "static", "final", "visibility",
        "deprecated"], IsName n := by decide
    exact .of_map _ rfl hnames
  | interfaceKind =>
    exact .of_map ["name", "abstract", "static", "final", "visibility", "deprecated"] rfl
      (by decide)

/-- What stands inside a type. -/
def fullChildren (t : TypeDecl) : List Element :=
  typeParameters t.typeParameters ++
    (t.implements.map fun name => .leaf "implements" [("name", name)]) ++
    t.members.filterMap member?

/-- The children of a type are well named. -/
theorem wellNamed_fullChildren (t : TypeDecl) : ∀ e ∈ fullChildren t, e.WellNamed := by
  intro e he
  simp only [fullChildren, List.mem_append, List.mem_map, List.mem_filterMap] at he
  rcases he with (he | ⟨name, -, rfl⟩) | ⟨m, -, hm⟩
  · exact wellNamed_typeParameters _ e he
  · exact .leaf (.of_map ["name"] rfl (by decide))
  · exact wellNamed_member? hm

/-- The element of a type is well named. -/
theorem wellNamed_fullType (t : TypeDecl) : (fullType t).WellNamed := by
  unfold fullType
  split
  · exact .leaf (hasNames_type t.toTypeHead)
  · exact .node (hasNames_type t.toTypeHead) (wellNamed_fullChildren t)

/-- The element of a package is well named if those of the types are. -/
theorem wellNamed_package {type : TypeDecl → Element} (htype : ∀ t, (type t).WellNamed)
    (p : Package) : (package type p).WellNamed := by
  refine Element.wellNamed_ofChildren (.of_map ["name"] rfl (by decide)) fun e he => ?_
  obtain ⟨t, -, rfl⟩ := List.mem_map.mp he
  exact htype t

/-! ## Children of several kinds -/

/-- The tag of an element without children. -/
@[simp] theorem Element.tag_leaf (tag : String) (attributes : List (String × String)) :
    (leaf tag attributes).tag = tag := rfl

/-- The tag is the one given, whether children follow or not. -/
@[simp] theorem Element.tag_ofChildren (tag : String) (attributes : List (String × String))
    (children : List Element) : (ofChildren tag attributes children).tag = tag := by
  unfold ofChildren
  split <;> rfl

/-- An element determines its tag, its attributes and its children. -/
theorem Element.ofChildren_inj {t u : String} {as bs : List (String × String)}
    {es fs : List Element} (h : ofChildren t as es = ofChildren u bs fs) :
    t = u ∧ as = bs ∧ es = fs := by
  rcases es with _ | ⟨e, es⟩ <;> rcases fs with _ | ⟨f, fs⟩
  · simpa [ofChildren] using h
  · cases h
  · cases h
  · simpa [ofChildren] using h

/-- Children with one tag in front of children with other tags are determined. -/
theorem tagged_append_inj {tag : String} {us vs rs ss : List Element} (hu : ∀ e ∈ us, e.tag = tag)
    (hv : ∀ e ∈ vs, e.tag = tag) (hr : ∀ e ∈ rs, e.tag ≠ tag) (hs : ∀ e ∈ ss, e.tag ≠ tag)
    (h : us ++ rs = vs ++ ss) : us = vs ∧ rs = ss := by
  have hend : ∀ {es : List Element}, (∀ e ∈ es, e.tag ≠ tag) →
      Text.Boundary (fun e : Element => e.tag == tag) es := by
    intro es hes e he
    exact beq_eq_false_iff_ne.mpr (hes e (List.mem_of_mem_head? he))
  exact append_inj_of_boundary (p := fun e : Element => e.tag == tag)
    (fun e he => beq_iff_eq.mpr (hu e he)) (fun e he => beq_iff_eq.mpr (hv e he)) (hend hr)
    (hend hs) h

/-- What type parameters are gathered in is the only child of that tag. -/
theorem tag_typeParameters (ps : List TypeParameter) :
    ∀ e ∈ typeParameters ps, e.tag = "typeParameters" := by
  intro e he
  unfold typeParameters at he
  split at he
  · cases he
  · rw [List.mem_singleton] at he
    rw [he]
    rfl

/-- Children in three groups: the type parameters, children with a tag of their own, and others. -/
theorem groups_append_inj (tag : String) {α : Type} {f : α → Element} {ps qs : List TypeParameter}
    {xs ys : List α} {rs ss : List Element} (htag : ∀ x, (f x).tag = tag)
    (hne : tag ≠ "typeParameters") (hr : ∀ e ∈ rs, e.tag ≠ "typeParameters" ∧ e.tag ≠ tag)
    (hs : ∀ e ∈ ss, e.tag ≠ "typeParameters" ∧ e.tag ≠ tag)
    (h : typeParameters ps ++ xs.map f ++ rs = typeParameters qs ++ ys.map f ++ ss) :
    typeParameters ps = typeParameters qs ∧ xs.map f = ys.map f ∧ rs = ss := by
  have htags : ∀ xs : List α, ∀ e ∈ xs.map f, e.tag = tag := by
    intro xs e he
    obtain ⟨x, -, rfl⟩ := List.mem_map.mp he
    exact htag x
  have hothers : ∀ {xs : List α} {rs : List Element},
      (∀ e ∈ rs, e.tag ≠ "typeParameters" ∧ e.tag ≠ tag) →
      ∀ e ∈ xs.map f ++ rs, e.tag ≠ "typeParameters" := by
    intro xs rs hrs e he
    rcases List.mem_append.mp he with he | he
    · rw [htags xs e he]
      exact hne
    · exact (hrs e he).1
  rw [List.append_assoc, List.append_assoc] at h
  obtain ⟨htypes, hmore⟩ :=
    tagged_append_inj (tag_typeParameters ps) (tag_typeParameters qs) (hothers hr) (hothers hs) h
  exact ⟨htypes, tagged_append_inj (htags xs) (htags ys) (fun e he => (hr e he).2)
    (fun e he => (hs e he).2) hmore⟩

/-! ## Attributes -/

/-- Yes and no are written differently. -/
theorem flag_injective : Function.Injective flag := by
  have h : ∀ a b : Bool, flag a = flag b → a = b := by decide
  exact h

/-- A written visibility is read back, and package visibility as none. -/
theorem ofWord?_visibilityText (v : Option Visibility) :
    Visibility.ofWord? (visibilityText v) = v := by
  cases v with
  | none => decide
  | some v => exact Visibility.ofWord?_word v

/-- Visibilities are written differently. -/
theorem visibilityText_injective : Function.Injective visibilityText :=
  Function.LeftInverse.injective ofWord?_visibilityText

/-- An attribute that may be left out is determined if no attribute behind it has its name. -/
theorem optional_append_inj {name : String} {x y : Option String} {rs ss : List (String × String)}
    (hr : ∀ a ∈ rs, a.1 ≠ name) (hs : ∀ a ∈ ss, a.1 ≠ name)
    (h : (x.map fun text => (name, text)).toList ++ rs =
      (y.map fun text => (name, text)).toList ++ ss) : x = y ∧ rs = ss := by
  cases x with
  | none =>
    cases y with
    | none => exact ⟨rfl, h⟩
    | some y =>
      have hrs : rs = (name, y) :: ss := h
      exact absurd rfl (hr (name, y) (hrs ▸ List.mem_cons_self))
  | some x =>
    cases y with
    | none =>
      have hss : ss = (name, x) :: rs := h.symm
      exact absurd rfl (hs (name, x) (hss ▸ List.mem_cons_self))
    | some y =>
      obtain ⟨htext, hrest⟩ := List.cons.inj h
      exact ⟨congrArg some (Prod.mk.inj htext).2, hrest⟩

/-- A kind of type is determined by its superclass, which only a class has. -/
theorem superclass?_injective : Function.Injective TypeKind.superclass? := by
  rintro (x | _) (y | _) h
  · rw [Option.some.inj h]
  · cases h
  · cases h
  · rfl

/-- The attributes say everything of a type but what stands inside it. -/
theorem eq_of_typeAttributes {h k : TypeHead} (hattributes : typeAttributes h = typeAttributes k)
    (htypes : h.typeParameters = k.typeParameters) (himplements : h.implements = k.implements) :
    h = k := by
  simp only [typeAttributes, List.cons_append, List.cons.injEq, Prod.mk.injEq, true_and]
    at hattributes
  obtain ⟨hname, hmore⟩ := hattributes
  obtain ⟨hkind, hrest⟩ := optional_append_inj (by simp) (by simp) hmore
  simp only [List.cons.injEq, Prod.mk.injEq, true_and, and_true, flag_injective.eq_iff,
    visibilityText_injective.eq_iff] at hrest
  obtain ⟨habstract, hstatic, hfinal, hvisibility, hdeprecated⟩ := hrest
  have hkind : h.kind = k.kind := superclass?_injective hkind
  cases h
  cases k
  simp_all only

/-- A field is determined by its element. -/
theorem field_injective : Function.Injective field := by
  intro f g h
  simp only [field, Element.leaf.injEq, true_and, List.append_assoc] at h
  obtain ⟨hown, hmore⟩ := List.append_inj h rfl
  obtain ⟨hvalue, hrest⟩ := optional_append_inj (by simp) (by simp) hmore
  simp only [List.cons.injEq, Prod.mk.injEq, true_and, and_true, flag_injective.eq_iff] at hown
  simp only [List.cons.injEq, Prod.mk.injEq, true_and, and_true, visibilityText_injective.eq_iff]
    at hrest
  obtain ⟨hname, htype, hstatic, hfinal, hvolatile, htransient⟩ := hown
  obtain ⟨hvisibility, hdeprecated⟩ := hrest
  cases f
  cases g
  simp_all only

/-! ## Declarations from their elements -/

/-- A bound is determined by its element. -/
theorem bound_injective :
    Function.Injective fun bound => Element.leaf "bound" [("type", bound)] := by
  intro a b h
  simpa using h

/-- A type parameter is determined by its element. -/
theorem typeParameter_injective : Function.Injective typeParameter := by
  rintro ⟨name, bounds⟩ ⟨name', bounds'⟩ h
  obtain ⟨-, hattributes, hbounds⟩ := Element.ofChildren_inj h
  have hname : name = name' := by simpa using hattributes
  have hbounds : bounds = bounds' := List.map_injective_iff.mpr bound_injective hbounds
  rw [hname, hbounds]

/-- A list of type parameters is determined by what it is written as. -/
theorem typeParameters_injective : Function.Injective typeParameters := by
  intro ps qs h
  rcases ps with _ | ⟨p, ps⟩ <;> rcases qs with _ | ⟨q, qs⟩
  · rfl
  · cases h
  · cases h
  · simp only [typeParameters, List.isEmpty_cons, Bool.false_eq_true, if_false, List.cons.injEq,
      Element.node.injEq, true_and, and_true] at h
    exact List.map_injective_iff.mpr typeParameter_injective h

/-- A parameter is determined by its element. -/
theorem parameter_injective : Function.Injective parameter := by
  rintro ⟨name, type⟩ ⟨name', type'⟩ h
  simpa [parameter] using h

/-- An exception is determined by its element. -/
theorem exception_injective : Function.Injective exception := by
  rintro ⟨type⟩ ⟨type'⟩ h
  simp only [exception, Element.leaf.injEq, List.cons.injEq, Prod.mk.injEq, true_and, and_true] at h
  rw [h.2]

/-- Name, attributes and children determine a method or constructor, up to the mark. -/
theorem unmarked_eq_of_callable {c d : Callable} (hname : c.name = d.name)
    (hattributes : callableAttributes c = callableAttributes d)
    (hchildren : callableChildren c = callableChildren d) : c.unmarked = d.unmarked := by
  have hexception : ∀ c : Callable, ∀ e ∈ c.exceptions.map exception,
      e.tag ≠ "typeParameters" ∧ e.tag ≠ "parameter" := by simp [exception]
  obtain ⟨htypes, hparameters, hexceptions⟩ := groups_append_inj "parameter"
    (fun _ => rfl) (by decide) (hexception c) (hexception d) hchildren
  simp only [callableAttributes, List.cons.injEq, Prod.mk.injEq, true_and, and_true,
    flag_injective.eq_iff, visibilityText_injective.eq_iff] at hattributes
  obtain ⟨hstatic, hfinal, hvisibility, hdeprecated⟩ := hattributes
  simp only [Callable.unmarked, hname, hstatic, hfinal, hvisibility, hdeprecated,
    typeParameters_injective htypes, List.map_injective_iff.mpr parameter_injective hparameters,
    List.map_injective_iff.mpr exception_injective hexceptions]

/-- The tag of a constructor. -/
@[simp] theorem tag_constructor (c : Constructor) : (constructor c).tag = "constructor" :=
  Element.tag_ofChildren _ _ _

/-- The tag of a method. -/
@[simp] theorem tag_method (m : Method) : (method m).tag = "method" :=
  Element.tag_ofChildren _ _ _

/-- The tag of a field. -/
@[simp] theorem tag_field (f : Field) : (field f).tag = "field" := rfl

/-- A constructor is determined by its element, up to the mark. -/
theorem constructor_inj {c d : Constructor} (h : constructor c = constructor d) :
    c.toCallable.unmarked = d.toCallable.unmarked ∧ c.enclosingType = d.enclosingType := by
  obtain ⟨-, hattributes, hchildren⟩ := Element.ofChildren_inj h
  obtain ⟨hown, hshared⟩ := List.append_inj hattributes rfl
  simp only [List.cons.injEq, Prod.mk.injEq, true_and, and_true] at hown
  exact ⟨unmarked_eq_of_callable hown.1 hshared hchildren, hown.2⟩

/-- A method is determined by its element, up to the mark. -/
theorem method_inj {m n : Method} (h : method m = method n) :
    m.toCallable.unmarked = n.toCallable.unmarked ∧ m.returnType = n.returnType ∧
      m.isAbstract = n.isAbstract ∧ m.isNative = n.isNative ∧
      m.isSynchronized = n.isSynchronized := by
  obtain ⟨-, hattributes, hchildren⟩ := Element.ofChildren_inj h
  obtain ⟨hown, hshared⟩ := List.append_inj hattributes rfl
  simp only [List.cons.injEq, Prod.mk.injEq, true_and, and_true, flag_injective.eq_iff] at hown
  exact ⟨unmarked_eq_of_callable hown.1 hshared hchildren, hown.2⟩

/-- A member that is no type is determined by its element, up to the mark. -/
theorem unmarked_eq_of_member? {m n : Member} (hm : m.isNested = false)
    (h : member? m = member? n) : m.unmarked = n.unmarked := by
  have htag : (member? m).map Element.tag = (member? n).map Element.tag := by rw [h]
  cases m with
  | constructor c =>
    cases n with
    | constructor d =>
      obtain ⟨hshared, htype⟩ := constructor_inj (Option.some.inj h)
      simp only [Member.unmarked, hshared, htype]
    | _ => simp [member?] at htag
  | method m =>
    cases n with
    | method n =>
      obtain ⟨hshared, hreturn, habstract, hnative, hsynchronized⟩ := method_inj (Option.some.inj h)
      simp only [Member.unmarked, hshared, hreturn, habstract, hnative, hsynchronized]
    | _ => simp [member?] at htag
  | field f =>
    cases n with
    | field g => rw [field_injective (Option.some.inj h)]
    | _ => simp [member?] at htag
  | nested head members => cases hm

/-! ## Types -/

/-- If `f` says no less than `g` of the items of two lists, it says no less of the lists. -/
theorem map_eq_map_of_imp {α β γ : Type} {f : α → β} {g : α → γ} {as bs : List α}
    (hfg : ∀ a ∈ as, ∀ b ∈ bs, f a = f b → g a = g b) (h : as.map f = bs.map f) :
    as.map g = bs.map g := by
  induction as generalizing bs with
  | nil =>
    cases bs with
    | nil => rfl
    | cons b bs => cases h
  | cons a as ih =>
    cases bs with
    | nil => cases h
    | cons b bs =>
      obtain ⟨hab, hmore⟩ := List.cons.inj h
      have htail := ih (fun x hx y hy => hfg x (List.mem_cons_of_mem a hx) y
        (List.mem_cons_of_mem b hy)) hmore
      rw [List.map_cons, List.map_cons, hfg a List.mem_cons_self b List.mem_cons_self hab, htail]

/-- In a body without nested types every member has an element. -/
theorem map_member?_of_flat {members : List Member} (h : ∀ m ∈ members, m.isNested = false) :
    members.map member? = (members.filterMap member?).map some := by
  induction members with
  | nil => rfl
  | cons m more ih =>
    rw [List.forall_mem_cons] at h
    obtain ⟨e, he⟩ : ∃ e, member? m = some e := by
      cases m with
      | nested head members => cases h.1
      | _ => exact ⟨_, rfl⟩
    rw [List.map_cons, List.filterMap_cons_some he, List.map_cons, ih h.2, he]

/-- A flat type is written with its children, of which it may have none. -/
theorem fullType_of_flat {t : TypeDecl} (h : ∀ m ∈ t.members, m.isNested = false) :
    fullType t = .ofChildren t.kind.word (typeAttributes t.toTypeHead) (fullChildren t) := by
  have hmembers : t.members.filterMap member? = [] ↔ t.members = [] := by
    rw [← List.map_eq_nil_iff (f := some), ← map_member?_of_flat h, List.map_eq_nil_iff]
  have htypes : typeParameters t.typeParameters = [] ↔ t.typeParameters = [] := by
    cases t.typeParameters <;> simp [typeParameters]
  have hempty : (fullChildren t).isEmpty =
      (t.typeParameters.isEmpty && t.implements.isEmpty && t.members.isEmpty) := by
    rw [Bool.eq_iff_iff]
    simp only [fullChildren, List.isEmpty_iff, List.append_eq_nil_iff, List.map_eq_nil_iff,
      Bool.and_eq_true, htypes, hmembers]
  rw [fullType, Element.ofChildren, hempty]
  rfl

/-- A flat type is determined by its element, up to the marks. -/
theorem unmarked_eq_of_fullType {t u : TypeDecl} (ht : ∀ m ∈ t.members, m.isNested = false)
    (hu : ∀ m ∈ u.members, m.isNested = false) (h : fullType t = fullType u) :
    t.unmarked = u.unmarked := by
  rw [fullType_of_flat ht, fullType_of_flat hu] at h
  obtain ⟨-, hattributes, hchildren⟩ := Element.ofChildren_inj h
  have hmember : ∀ t : TypeDecl, ∀ e ∈ t.members.filterMap member?,
      e.tag ≠ "typeParameters" ∧ e.tag ≠ "implements" := by
    intro t e he
    obtain ⟨m, -, hm⟩ := List.mem_filterMap.mp he
    cases m <;> cases hm <;> simp
  -- The children stand in three groups, told apart by their tags.
  obtain ⟨htypes, himplements, hmembers⟩ := groups_append_inj "implements"
    (fun _ => rfl) (by decide) (hmember t) (hmember u) hchildren
  have hnames : t.implements = u.implements := by
    refine List.map_injective_iff.mpr (fun a b hab => ?_) himplements
    simpa using hab
  have hhead : t.toTypeHead = u.toTypeHead :=
    eq_of_typeAttributes hattributes (typeParameters_injective htypes) hnames
  have hbody : t.members.map Member.unmarked = u.members.map Member.unmarked := by
    apply map_eq_map_of_imp (f := member?)
    · exact fun m hm n _ => unmarked_eq_of_member? (ht m hm)
    · rw [map_member?_of_flat ht, map_member?_of_flat hu, hmembers]
  simp only [TypeDecl.unmarked, Member.unmarkedAll_eq_map, hhead, hbody]

/-! ## The whole description -/

/-- The mark is not written. -/
theorem member?_unmarked (m : Member) : member? m.unmarked = member? m := by
  cases m <;> rfl

/-- The marks are not described. -/
theorem fullType_unmarked (t : TypeDecl) : fullType t.unmarked = fullType t := by
  have hmembers : t.unmarked.members.filterMap member? = t.members.filterMap member? := by
    rw [TypeDecl.unmarked, Member.unmarkedAll_eq_map, List.filterMap_map]
    exact List.filterMap_congr fun m _ => member?_unmarked m
  have hempty : t.unmarked.members.isEmpty = t.members.isEmpty := by
    rw [TypeDecl.unmarked, Member.unmarkedAll_eq_map, List.isEmpty_map]
  rw [fullType, hmembers, hempty]
  rfl

/-- The marks of an API are not written. -/
theorem full_unmarked (a : Api) : full a.unmarked = full a := by
  have hpackage : ∀ p : Package, package fullType p.unmarked = package fullType p := by
    intro p
    have htypes : p.unmarked.types.map fullType = p.types.map fullType := by
      rw [Package.unmarked, List.map_map]
      exact List.map_congr_left fun t _ => fullType_unmarked t
    rw [package, htypes]
    rfl
  have hpackages : a.unmarked.packages.map (package fullType) =
      a.packages.map (package fullType) := by
    rw [Api.unmarked, List.map_map]
    exact List.map_congr_left fun p _ => hpackage p
  rw [full, api, hpackages]
  rfl

/-- A package of flat types is determined by its element, up to the marks. -/
theorem unmarked_eq_of_package {p q : Package}
    (hp : ∀ t ∈ p.types, ∀ m ∈ t.members, m.isNested = false)
    (hq : ∀ t ∈ q.types, ∀ m ∈ t.members, m.isNested = false)
    (h : package fullType p = package fullType q) : p.unmarked = q.unmarked := by
  obtain ⟨-, hattributes, htypes⟩ := Element.ofChildren_inj h
  have hname : p.name = q.name := by simpa using hattributes
  have hbody : p.types.map TypeDecl.unmarked = q.types.map TypeDecl.unmarked :=
    map_eq_map_of_imp (fun t ht u hu => unmarked_eq_of_fullType (hp t ht) (hq u hu)) htypes
  simp only [Package.unmarked, hname, hbody]

/-- A description determines the elements of the packages. -/
theorem packages_of_api {type : TypeDecl → Element} (htype : ∀ t, (type t).WellNamed) {a b : Api}
    (h : api type a = api type b) :
    a.packages.map (package type) = b.packages.map (package type) := by
  have hnamed : ∀ ps : List Package,
      (Element.ofChildren "api" [] (ps.map (package type))).WellNamed := by
    intro ps
    refine Element.wellNamed_ofChildren (.of_map [] rfl (by decide)) ?_
    exact List.forall_mem_map.mpr fun p _ => wellNamed_package htype p
  exact (Element.ofChildren_inj (document_inj (hnamed _) (hnamed _) h)).2.2

/-- The text of an API determines the elements of its packages. -/
theorem packages_of_full {a b : Api} (h : full a = full b) :
    a.packages.map (package fullType) = b.packages.map (package fullType) :=
  packages_of_api wellNamed_fullType h

/-- **The full description loses nothing but the marks of generated members.** -/
theorem full_eq_iff {a b : Api} (ha : a.IsFlat) (hb : b.IsFlat) :
    full a = full b ↔ a.unmarked = b.unmarked := by
  constructor
  · intro h
    have hbody : a.packages.map Package.unmarked = b.packages.map Package.unmarked :=
      map_eq_map_of_imp (fun p hp q hq => unmarked_eq_of_package (ha p hp) (hb q hq))
        (packages_of_full h)
    simp only [Api.unmarked, hbody]
  · intro h
    rw [← full_unmarked a, h, full_unmarked b]

/-- An interface with one method of the given name, marked as generated or not. -/
def oneMethod (name : String) (isSynthetic : Bool) : Api where
  packages := [{
    name := "p"
    types := [{
      kind := .interfaceKind
      name := "<\n>"
      members := [.method { name, isSynthetic, returnType := "void" }] }] }]

/-- The mark is not seen, and a quote is not taken for the text of its entity. -/
theorem full_eq_iff_oneMethod :
    (oneMethod "\"" true).IsFlat ∧ (oneMethod "\"" false).IsFlat ∧
      (oneMethod "&quot;" true).IsFlat ∧
      full (oneMethod "\"" true) = full (oneMethod "\"" false) ∧
      full (oneMethod "\"" true) ≠ full (oneMethod "&quot;" true) := by
  have h1 : (oneMethod "\"" true).IsFlat := by decide
  have h2 : (oneMethod "\"" false).IsFlat := by decide
  have h3 : (oneMethod "&quot;" true).IsFlat := by decide
  refine ⟨h1, h2, h3, (full_eq_iff h1 h2).mpr rfl, fun h => ?_⟩
  have hname := (full_eq_iff h1 h3).mp h
  simp [oneMethod, Api.unmarked, Package.unmarked, TypeDecl.unmarked, Member.unmarkedAll,
    Member.unmarked, Callable.unmarked] at hname

end Xml

end ApiSurface
