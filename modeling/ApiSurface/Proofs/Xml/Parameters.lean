import ApiSurface.Proofs.Xml.Api

/-!
# What the description of parameters says of an API

Of a package the description of parameters shows the name, of a type the kind and the name, and of
the members the constructors and methods that have parameters, with these. `Api.outline` is that
part of an API on its own. Two APIs have the same description if and only if they have the same
outline (`parametersOnly_eq_iff`).

The description is made from the outline alone (`parametersType_eq`, `package_parametersType`), so
fields, nested types, callables without parameters and all flags leave no trace. And the elements
determine the outline they are made from (`typeElement_injective`, `packageElement_injective`), so
nothing of the outline is lost, whatever the texts in it are.
-/

namespace ApiSurface

/-! ## Outlines -/

/-- The two sorts of callables. -/
inductive CallableSort where
  | constructor
  | method
deriving DecidableEq, Repr

/-- A constructor or method with the names and types of its parameters. -/
structure CallableOutline where
  sort : CallableSort
  name : String
  parameters : List (String × String)
deriving DecidableEq, Repr

/-- A class or an interface with its callables that have parameters. -/
structure TypeOutline where
  isClass : Bool
  name : String
  callables : List CallableOutline
deriving DecidableEq, Repr

/-- A package with the outlines of its types. -/
structure PackageOutline where
  name : String
  types : List TypeOutline
deriving DecidableEq, Repr

/-- The outline of a constructor or method of the given sort, if it has parameters. -/
def Callable.outline? (sort : CallableSort) (c : Callable) : Option CallableOutline :=
  if c.parameters = [] then none
  else some ⟨sort, c.name, c.parameters.map fun p => (p.name, p.type)⟩

/-- The outline of a member, if it is a constructor or method with parameters. -/
def Member.outline? : Member → Option CallableOutline
  | .constructor c => c.toCallable.outline? .constructor
  | .method m => m.toCallable.outline? .method
  | .field _ => none
  | .nested _ _ => none

/-- Whether the type is a class. -/
def TypeKind.isClass : TypeKind → Bool
  | .classKind _ => true
  | .interfaceKind => false

/-- The outline of a type. -/
def TypeDecl.outline (t : TypeDecl) : TypeOutline where
  isClass := t.kind.isClass
  name := t.name
  callables := t.members.filterMap Member.outline?

/-- The outline of a package. -/
def Package.outline (p : Package) : PackageOutline where
  name := p.name
  types := p.types.map TypeDecl.outline

/-- The outline of an API. -/
def Api.outline (a : Api) : List PackageOutline := a.packages.map Package.outline

namespace Xml

/-! ## Elements of outlines -/

/-- The tag of a callable. -/
def sortTag : CallableSort → String
  | .constructor => "constructor"
  | .method => "method"

/-- A callable with its parameters. -/
def callableElement (c : CallableOutline) : Element :=
  .node (sortTag c.sort) [("name", c.name)]
    (c.parameters.map fun p => .leaf "parameter" [("name", p.1), ("type", p.2)])

/-- The tag of a type. -/
def typeTag (isClass : Bool) : String := if isClass then "class" else "interface"

/-- A type with its callables. -/
def typeElement (t : TypeOutline) : Element :=
  .ofChildren (typeTag t.isClass) [("name", t.name)] (t.callables.map callableElement)

/-- A package with its types. -/
def packageElement (p : PackageOutline) : Element :=
  .ofChildren "package" [("name", p.name)] (p.types.map typeElement)

/-- A member is shown just if it has an outline, and then by it. -/
theorem outline?_eq (m : Member) :
    ((callable? m).filter fun c => !c.2.parameters.isEmpty).map
      (fun c => Element.node c.1 [("name", c.2.name)] (c.2.parameters.map parameter)) =
    m.outline?.map callableElement := by
  have hcallable : ∀ (sort : CallableSort) (c : Callable),
      ((some (sortTag sort, c)).filter fun c => !c.2.parameters.isEmpty).map
        (fun c => Element.node c.1 [("name", c.2.name)] (c.2.parameters.map parameter)) =
      (c.outline? sort).map callableElement := by
    intro sort c
    unfold Callable.outline?
    split
    · next hnone => simp [hnone]
    · next hsome =>
      simp [Option.filter, hsome, callableElement, Function.comp_def, parameter]
  cases m with
  | constructor c => exact hcallable .constructor c.toCallable
  | method m => exact hcallable .method m.toCallable
  | field f => rfl
  | nested head members => rfl

/-- A type is described by its outline. -/
theorem parametersType_eq (t : TypeDecl) : parametersType t = typeElement t.outline := by
  have htag : t.kind.word = typeTag t.kind.isClass := by
    cases t.kind <;> rfl
  have hcallables : (callablesWithParameters t).map
      (fun c => Element.node c.1 [("name", c.2.name)] (c.2.parameters.map parameter)) =
      (t.members.filterMap Member.outline?).map callableElement := by
    rw [callablesWithParameters, List.filter_filterMap, List.map_filterMap, List.map_filterMap]
    exact List.filterMap_congr fun m _ => outline?_eq m
  rw [parametersType, htag, hcallables]
  rfl

/-- A package is described by its outline. -/
theorem package_parametersType (p : Package) :
    package parametersType p = packageElement p.outline := by
  have htypes : p.types.map parametersType = (p.types.map TypeDecl.outline).map typeElement := by
    rw [List.map_map]
    exact List.map_congr_left fun t _ => parametersType_eq t
  rw [package, htypes]
  rfl

/-! ## Outlines from their elements -/

/-- Constructors and methods are tagged differently. -/
theorem sortTag_injective : Function.Injective sortTag := by
  have h : ∀ s t : CallableSort, sortTag s = sortTag t → s = t := by
    rintro (_ | _) (_ | _) <;> decide
  exact h

/-- Classes and interfaces are tagged differently. -/
theorem typeTag_injective : Function.Injective typeTag := by
  have h : ∀ a b : Bool, typeTag a = typeTag b → a = b := by decide
  exact h

/-- The outline of a method or constructor is determined by its element. -/
theorem callableElement_injective : Function.Injective callableElement := by
  rintro ⟨sort, name, parameters⟩ ⟨sort', name', parameters'⟩ h
  simp only [callableElement, Element.node.injEq, List.cons.injEq, Prod.mk.injEq, true_and,
    and_true] at h
  obtain ⟨htag, hname, hchildren⟩ := h
  have hparameters : parameters = parameters' := by
    refine List.map_injective_iff.mpr ?_ hchildren
    rintro ⟨x, type⟩ ⟨x', type'⟩ hparameter
    simpa using hparameter
  rw [sortTag_injective htag, hname, hparameters]

/-- The outline of a type is determined by its element. -/
theorem typeElement_injective : Function.Injective typeElement := by
  rintro ⟨isClass, name, callables⟩ ⟨isClass', name', callables'⟩ h
  obtain ⟨htag, hattributes, hchildren⟩ := Element.ofChildren_inj h
  have hname : name = name' := by simpa using hattributes
  have hcallables : callables = callables' :=
    List.map_injective_iff.mpr callableElement_injective hchildren
  have hclass : isClass = isClass' := typeTag_injective htag
  rw [hclass, hname, hcallables]

/-- The outline of a package is determined by its element. -/
theorem packageElement_injective : Function.Injective packageElement := by
  rintro ⟨name, types⟩ ⟨name', types'⟩ h
  obtain ⟨-, hattributes, hchildren⟩ := Element.ofChildren_inj h
  have hname : name = name' := by simpa using hattributes
  have htypes : types = types' := List.map_injective_iff.mpr typeElement_injective hchildren
  rw [hname, htypes]

/-! ## The whole description -/

/-- The element of a method or constructor is well named. -/
theorem wellNamed_callableElement (c : CallableOutline) : (callableElement c).WellNamed := by
  refine .node ?_ fun e he => ?_
  · cases hsort : c.sort <;> exact .of_map ["name"] rfl (by decide)
  · obtain ⟨p, -, rfl⟩ := List.mem_map.mp he
    exact .leaf (.of_map ["name", "type"] rfl (by decide))

/-- The element of a type is well named. -/
theorem wellNamed_typeElement (t : TypeOutline) : (typeElement t).WellNamed := by
  refine Element.wellNamed_ofChildren ?_ fun e he => ?_
  · cases hclass : t.isClass <;> exact .of_map ["name"] rfl (by decide)
  · obtain ⟨c, -, rfl⟩ := List.mem_map.mp he
    exact wellNamed_callableElement c

/-- The text of the parameters determines the elements of the packages. -/
theorem packages_of_parametersOnly {a b : Api} (h : parametersOnly a = parametersOnly b) :
    a.packages.map (package parametersType) = b.packages.map (package parametersType) :=
  packages_of_api (fun t => by rw [parametersType_eq]; exact wellNamed_typeElement _) h

/-- **The description of parameters is a projection.** Two APIs have the same description if and
only if they have the same packages, with types of the same kinds and names, and in these, in the
order of the members, the same constructors and methods with parameters, of the same names and with
the same parameters. -/
theorem parametersOnly_eq_iff (a b : Api) :
    parametersOnly a = parametersOnly b ↔ a.outline = b.outline := by
  have helements : ∀ c : Api,
      c.packages.map (package parametersType) = c.outline.map packageElement := by
    intro c
    rw [Api.outline, List.map_map]
    exact List.map_congr_left fun p _ => package_parametersType p
  constructor
  · intro h
    have hpackages := packages_of_parametersOnly h
    rw [helements, helements] at hpackages
    exact List.map_injective_iff.mpr packageElement_injective hpackages
  · intro h
    rw [parametersOnly, parametersOnly, api, api, helements, helements, h]

/-- A method without parameters leaves no trace, whatever its name is. -/
example : (oneMethod "f" true).outline = [⟨"p", [⟨false, "<\n>", []⟩]⟩] := by rfl

end Xml

end ApiSurface
