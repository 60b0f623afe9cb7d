import ApiSurface.Proofs.Grammar.WellFormed
import ApiSurface.Proofs.Model.Normal
import Mathlib.Data.List.Nodup

/-!
# Names of lifted types are distinct

A lifted type is named by the names on the way to it, joined with points. A simple name has no point
in it, so that such a name can be taken apart again: what stands behind the name of the outer type
and before the next point is the name of a type nested there. Where the types of a package have
different simple names, and the types in every body have too, no lifted name occurs twice
(`nodup_liftedNames`), and the types of each package of the normal form increase
(`normalize_names_increasing`).

Types of different depths and of different files meet in one list, so the induction compares more
than siblings: it carries that every name inside a type begins with the name of that type and then
ends or goes on with a point (`exists_rest_of_mem`).
-/

namespace ApiSurface

open Text

/-! ## The names of lifted types -/

/-- The names that lifting gives to the types of `t`, if `t` itself is named `n`. -/
def liftedNames (n : String) (t : TypeDecl) : List String :=
  (TypeDecl.flatten { t with name := n }).map fun s => s.name

/-- Renaming the constructors of a nested type does not change its name. -/
theorem names_lifted_ofType (outer : String) (t : TypeDecl) :
    ((Member.lifted outer (.ofType t)).map fun s => s.name) =
      liftedNames (outer ++ "." ++ t.name) t := by
  rw [Member.ofType, Member.lifted, liftedNames, TypeDecl.flatten, List.map_cons, List.map_cons]

/-- The names lifted out of a body are those of its nested types, each with all inside it. -/
theorem names_liftedAll (outer : String) (members : List Member) :
    ((Member.liftedAll outer members).map fun s => s.name) =
      (members.filterMap Member.type?).flatMap fun t =>
        liftedNames (outer ++ "." ++ t.name) t := by
  induction members with
  | nil => rfl
  | cons m more ih =>
    rw [Member.liftedAll, List.map_append, ih]
    cases m with
    | nested head members =>
      show (Member.lifted outer (.nested head members)).map _ ++ _ = liftedNames _ _ ++ _
      rw [← names_lifted_ofType]
      rfl
    | field _ => rfl
    | method _ => rfl
    | constructor _ => rfl

/-- The own name of a type, and behind it the names of the types nested in it. -/
theorem liftedNames_eq (n : String) (t : TypeDecl) :
    liftedNames n t =
      n :: t.nestedTypes.flatMap fun s => liftedNames (n ++ "." ++ s.name) s := by
  rw [liftedNames, TypeDecl.flatten, List.map_cons, names_liftedAll]
  rfl

/-- The names of lifted declarations are those of the types, each with all inside it. -/
theorem names_flattenAll (types : List TypeDecl) :
    ((TypeDecl.flattenAll types).map fun t => t.name) =
      types.flatMap fun t => liftedNames t.name t := by
  rw [TypeDecl.flattenAll, List.map_flatMap]
  exact List.flatMap_congr fun _ _ => rfl

/-! ## Distinct names in every body -/

/-- In the body of the type and of every type inside it, at every depth, the nested types have
different names. -/
inductive TypeDecl.DistinctBodies : TypeDecl → Prop
  | mk {t : TypeDecl} : (t.nestedTypes.map fun s => s.name).Nodup →
      (∀ s ∈ t.nestedTypes, s.DistinctBodies) → t.DistinctBodies

/-- The types inside a well-formed type are well formed. -/
theorem TypeDecl.WellFormed.of_nestedTypes {s t : TypeDecl} (h : t.WellFormed)
    (hs : s ∈ t.nestedTypes) : s.WellFormed := by
  obtain ⟨m, hm, htype⟩ := List.mem_filterMap.mp hs
  cases h.members m hm with
  | nested hhead hmembers =>
    cases htype
    exact ⟨hhead, hmembers⟩
  | field _ => cases htype
  | method _ => cases htype
  | constructor _ _ => cases htype

/-- Every name that lifting gives begins with the name of the type, and then ends or goes on with a
point. -/
theorem exists_rest_of_mem {t : TypeDecl} (h : t.DistinctBodies) {n x : String}
    (hx : x ∈ liftedNames n t) :
    ∃ rest, Boundary (· != '.') rest ∧ x.toList = n.toList ++ rest := by
  induction h generalizing n with
  | @mk t _ _ ih =>
    rw [liftedNames_eq, List.mem_cons, List.mem_flatMap] at hx
    rcases hx with rfl | ⟨s, hs, hx⟩
    · exact ⟨[], boundary_nil _, (List.append_nil _).symm⟩
    · obtain ⟨rest, -, hrest⟩ := ih s hs hx
      refine ⟨'.' :: (s.name.toList ++ rest), boundary_cons.mpr rfl, ?_⟩
      simp [hrest]

/-- Behind the same beginning, the names of two types with different simple names differ. -/
theorem disjoint_liftedNames {s t : TypeDecl} (hs : s.DistinctBodies) (ht : t.DistinctBodies)
    (hspoint : '.' ∉ s.name.toList) (htpoint : '.' ∉ t.name.toList) (hne : s.name ≠ t.name)
    (outer : String) :
    (liftedNames (outer ++ s.name) s).Disjoint (liftedNames (outer ++ t.name) t) := by
  intro x hxs hxt
  obtain ⟨rest, hrest, hx⟩ := exists_rest_of_mem hs hxs
  obtain ⟨rest', hrest', hx'⟩ := exists_rest_of_mem ht hxt
  have hsame : s.name.toList ++ rest = t.name.toList ++ rest' := by
    simpa [hx] using hx'
  have hname := append_inj_of_boundary (forall_bne hspoint) (forall_bne htpoint) hrest hrest' hsame
  exact hne (String.toList_inj.mp hname.1)

/-- Types with different simple names have different names all together, if each of them has. -/
theorem nodup_flatMap_liftedNames {types : List TypeDecl} (outer : String)
    (hnames : (types.map fun t => t.name).Nodup) (hwell : ∀ t ∈ types, t.WellFormed)
    (hbodies : ∀ t ∈ types, t.DistinctBodies)
    (hnodup : ∀ t ∈ types, (liftedNames (outer ++ t.name) t).Nodup) :
    (types.flatMap fun t => liftedNames (outer ++ t.name) t).Nodup := by
  rw [List.nodup_flatMap]
  refine ⟨hnodup, ?_⟩
  rw [List.Nodup, List.pairwise_map] at hnames
  refine hnames.imp_of_mem ?_
  intro s t hs ht hne
  exact disjoint_liftedNames (hbodies s hs) (hbodies t ht) (hwell s hs).head.name.no_point
    (hwell t ht).head.name.no_point hne outer

/-- Lifting names no two types of a type alike, if the types in every body have different names. -/
theorem nodup_liftedNames {t : TypeDecl} (h : t.DistinctBodies) (hwell : t.WellFormed)
    (n : String) : (liftedNames n t).Nodup := by
  induction h generalizing n with
  | @mk t hnames hbodies ih =>
    have hinner : ∀ s ∈ t.nestedTypes, s.WellFormed := fun s hs => hwell.of_nestedTypes hs
    rw [liftedNames_eq, List.nodup_cons]
    constructor
    · -- The names of nested types are longer than the name of the type.
      intro hn
      obtain ⟨s, hs, hn⟩ := List.mem_flatMap.mp hn
      obtain ⟨rest, -, hrest⟩ := exists_rest_of_mem (hbodies s hs) hn
      have hlength := congrArg List.length hrest
      simp at hlength
    · exact nodup_flatMap_liftedNames (n ++ ".") hnames hinner hbodies fun s hs =>
        ih s hs (hinner s hs) _

/-! ## The names of a normal form -/

/-- The types of a package of a normal form have the names of the lifted types, in order. -/
theorem names_normalPackage_increasing {fragments : List Package} {n : String}
    (h : ((TypeDecl.flattenAll (typesIn n fragments)).map fun t => t.name).Nodup) :
    (normalPackage fragments n).types.Pairwise fun s t => s.name < t.name := by
  apply sortByName_increasing
  rw [boundTypes, List.map_map]
  exact h

/-- A type found under a package name was declared in one of the files. -/
theorem exists_unit_of_mem_typesIn {units : List CompileUnit} {n : String} {t : TypeDecl}
    (h : t ∈ typesIn n (units.map CompileUnit.package)) :
    ∃ u ∈ units, t ∈ u.package.types := by
  obtain ⟨p, hp, ht⟩ := List.mem_flatMap.mp h
  obtain ⟨u, hu, rfl⟩ := List.mem_map.mp ((mem_named _).mp hp).1
  exact ⟨u, hu, ht⟩

/-- **Lifted names are unique.** If, under each package name, the types of all files have different
simple names, and the types nested in a body have too, at every depth, then the names of the types
in each package of the normal form are distinct, and increase. -/
theorem normalize_names_increasing {units : List CompileUnit}
    (hparsed : ∀ u ∈ units, ∃ text, CompileUnit.parse text = .ok u)
    (hfiles : ∀ n, ((typesIn n (units.map CompileUnit.package)).map fun t => t.name).Nodup)
    (hbodies : ∀ u ∈ units, ∀ t ∈ u.package.types, t.DistinctBodies) :
    ∀ p ∈ (Api.normalize (units.map CompileUnit.package)).packages,
      (p.types.map fun t => t.name).Nodup ∧ p.types.Pairwise fun s t => s.name < t.name := by
  intro p hp
  have hwell : ∀ t ∈ typesIn p.name (units.map CompileUnit.package), t.WellFormed := by
    intro t ht
    obtain ⟨u, hu, ht⟩ := exists_unit_of_mem_typesIn ht
    obtain ⟨text, htext⟩ := hparsed u hu
    obtain ⟨tokens, hscan, htokens⟩ := exists_tokens_of_parse htext
    exact (wellFormed_of_tokens hscan htokens).types t ht
  have hdistinct : ∀ t ∈ typesIn p.name (units.map CompileUnit.package), t.DistinctBodies := by
    intro t ht
    obtain ⟨u, hu, ht⟩ := exists_unit_of_mem_typesIn ht
    exact hbodies u hu t ht
  -- The types of all files are compared like those nested in one body.
  have hnodup := nodup_flatMap_liftedNames "" (hfiles p.name) hwell hdistinct fun t ht =>
    nodup_liftedNames (hdistinct t ht) (hwell t ht) _
  simp only [String.empty_append] at hnodup
  rw [← names_flattenAll] at hnodup
  have hincreasing := names_normalPackage_increasing hnodup
  rw [← mem_packages_normalize hp] at hincreasing
  refine ⟨?_, hincreasing⟩
  rw [List.Nodup, List.pairwise_map]
  exact hincreasing.imp fun hlt => String.ne_of_lt hlt

/-- An interface with another nested in it, under the given names. -/
def interfacePair (outer inner : String) : TypeDecl where
  kind := .interfaceKind
  name := outer
  members := [.nested { kind := .interfaceKind, name := inner } []]

/-- Two files with the same two names, nested the one way and the other. -/
def crossedUnits : List CompileUnit :=
  [⟨⟨"", [interfacePair "A" "C"]⟩, []⟩, ⟨⟨"", [interfacePair "C" "A"]⟩, []⟩]

/-- The first of the two files, as it is read. -/
theorem parse_pair_AC : CompileUnit.parse "interface A\x7binterface C\x7b\x7d\x7d" =
    .ok ⟨⟨"", [interfacePair "A" "C"]⟩, []⟩ := by decide +kernel

/-- The second of the two files, as it is read. -/
theorem parse_pair_CA : CompileUnit.parse "interface C\x7binterface A\x7b\x7d\x7d" =
    .ok ⟨⟨"", [interfacePair "C" "A"]⟩, []⟩ := by decide +kernel

/-- Both files are results of the parser. -/
theorem parsed_crossedUnits : ∀ u ∈ crossedUnits, ∃ text, CompileUnit.parse text = .ok u :=
  List.forall_mem_cons.mpr
    ⟨⟨_, parse_pair_AC⟩, List.forall_mem_singleton.mpr ⟨_, parse_pair_CA⟩⟩

/-- An interface with one empty interface inside repeats no name. -/
theorem distinctBodies_interfacePair (outer inner : String) :
    (interfacePair outer inner).DistinctBodies := by
  refine .mk (List.nodup_singleton inner) fun s hs => ?_
  rw [show s = { kind := .interfaceKind, name := inner } from List.mem_singleton.mp hs]
  exact .mk List.nodup_nil fun _ hs => absurd hs List.not_mem_nil

/-- Two files of one package, where `A.C` of one and `C.A` of the other meet in one list. -/
theorem normalize_names_increasing_crossed :
    (∀ n, ((typesIn n (crossedUnits.map CompileUnit.package)).map fun t => t.name).Nodup) ∧
    ∀ p ∈ (Api.normalize (crossedUnits.map CompileUnit.package)).packages,
      (p.types.map fun t => t.name).Nodup ∧ p.types.Pairwise fun s t => s.name < t.name := by
  have hfiles : ∀ n,
      ((typesIn n (crossedUnits.map CompileUnit.package)).map fun t => t.name).Nodup := by
    intro n
    by_cases hn : "" = n
    · subst hn
      simp [typesIn, named, crossedUnits, interfacePair]
    · rw [typesIn_of_not_mem (by simp [crossedUnits, Ne.symm hn])]
      exact List.nodup_nil
  refine ⟨hfiles, normalize_names_increasing parsed_crossedUnits hfiles ?_⟩
  refine List.forall_mem_cons.mpr ⟨?_, List.forall_mem_singleton.mpr ?_⟩
  · exact List.forall_mem_singleton.mpr (distinctBodies_interfacePair "A" "C")
  · exact List.forall_mem_singleton.mpr (distinctBodies_interfacePair "C" "A")

end ApiSurface
