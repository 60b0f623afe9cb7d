import ApiSurface.Proofs.Model.Normal
import Mathlib.Data.List.Basic

/-!
# What lifting nested types keeps

The declarations of a file are a forest: its types are the roots, and a type nested in another
stands at a place among the members of that one. An *address* leads to a type of the forest: the
place of a root, then the place of a nested type among the members of the type reached so far, and
so on. `nodeAt?` follows an address and keeps the names of the types it passes.

Lifting lists one type for each address at which there is one, in the order of the addresses
(`flattenAll_eq`). The order is that of words in a dictionary, in which a beginning of a word comes
before the word, so a type comes before the types nested in it, and these come in the order of the
members, each with all that is nested in it.
-/

namespace ApiSurface

/-! ## Types of a forest -/

/-- A type of a forest, with the names of the types around it, the outermost first. -/
structure TypeNode where
  outer : List String
  type : TypeDecl

namespace TypeNode

/-- The names from the outermost type to this one, joined with points. -/
def path (n : TypeNode) : String := ".".intercalate (n.outer ++ [n.type.name])

/-- What is listed of a member of the type: a field and a method as they are, a constructor under
the path of the type if that was nested, and nothing of a nested type. -/
def member? (n : TypeNode) : Member → Option Member
  | .field f => some (.field f)
  | .method m => some (.method m)
  | .constructor c => some (.constructor (if n.outer = [] then c else { c with name := n.path }))
  | .nested _ _ => none

/-- The type as it is listed: with its path for a name, and what is listed of its members. -/
def lifted (n : TypeNode) : TypeDecl :=
  { n.type with name := n.path, members := n.type.members.filterMap n.member? }

/-- Of a root all members are listed as they are, but for nested types. -/
theorem filterMap_member?_of_root {n : TypeNode} (h : n.outer = []) (members : List Member) :
    members.filterMap n.member? = Member.withoutNested members := by
  rw [Member.withoutNested, ← List.filterMap_eq_filter]
  apply List.filterMap_congr
  rintro (f | m | c | ⟨head, inner⟩) -
  · rfl
  · rfl
  · rw [member?, if_pos h]
    rfl
  · rfl

/-- Of a nested type the same members are listed, the constructors under its path. -/
theorem filterMap_member?_of_nested {n : TypeNode} (h : n.outer ≠ []) (members : List Member) :
    members.filterMap n.member? =
      (Member.withoutNested members).map (Member.renameConstructor n.path) := by
  rw [Member.withoutNested, ← List.filterMap_eq_map, List.filterMap_filter]
  apply List.filterMap_congr
  rintro (f | m | c | ⟨head, inner⟩) -
  · rfl
  · rfl
  · rw [member?, if_neg h]
    rfl
  · rfl

end TypeNode

/-- The type that an address leads to from the type `t`, which stands inside the types `outer`. -/
def TypeDecl.node? (outer : List String) (t : TypeDecl) : List Nat → Option TypeNode
  | [] => some ⟨outer, t⟩
  | i :: address =>
    (t.members[i]?.bind Member.type?).bind fun inner => inner.node? (outer ++ [t.name]) address

/-- The type of a forest that an address leads to. -/
def nodeAt? (types : List TypeDecl) : List Nat → Option TypeNode
  | [] => none
  | i :: address => types[i]?.bind fun t => t.node? [] address

/-! ## Addresses -/

/-- The address of the same type, if one more item stands in front of the list. -/
def moveOn : List Nat → List Nat
  | [] => []
  | i :: address => (i + 1) :: address

mutual

/-- The addresses of the types that a member declares, from the member on. -/
def Member.addresses : Member → List (List Nat)
  | nested _ members => [] :: Member.addressesAll members
  | _ => []

/-- The addresses of the types that the members of a body declare. -/
def Member.addressesAll : List Member → List (List Nat)
  | [] => []
  | m :: more => m.addresses.map (0 :: ·) ++ (Member.addressesAll more).map moveOn

end

/-- The addresses of the types of a forest. -/
def typeAddresses (types : List TypeDecl) : List (List Nat) :=
  Member.addressesAll (types.map Member.ofType)

/-- An address among the members of a body is not empty. -/
theorem ne_nil_of_mem_addressesAll {members : List Member} {a : List Nat}
    (ha : a ∈ Member.addressesAll members) : a ≠ [] := by
  induction members generalizing a with
  | nil => simp [Member.addressesAll] at ha
  | cons m more ih =>
    rw [Member.addressesAll, List.mem_append, List.mem_map, List.mem_map] at ha
    rcases ha with ⟨b, -, rfl⟩ | ⟨b, hb, rfl⟩
    · exact List.cons_ne_nil 0 b
    · obtain ⟨i, c, rfl⟩ := List.exists_cons_of_ne_nil (ih hb)
      exact List.cons_ne_nil (i + 1) c

/-- The addresses behind the first member begin with its place or a later one. -/
theorem mem_map_moveOn {members : List Member} {a : List Nat} :
    a ∈ (Member.addressesAll members).map moveOn ↔
      ∃ i b, a = (i + 1) :: b ∧ i :: b ∈ Member.addressesAll members := by
  rw [List.mem_map]
  constructor
  · rintro ⟨c, hc, rfl⟩
    obtain ⟨i, b, rfl⟩ := List.exists_cons_of_ne_nil (ne_nil_of_mem_addressesAll hc)
    exact ⟨i, b, rfl, hc⟩
  · rintro ⟨i, b, rfl, hb⟩
    exact ⟨i :: b, hb, rfl⟩

/-- Addresses stay in order when one more item stands in front of the list. -/
theorem moveOn_lt_moveOn {a b : List Nat} (hb : b ≠ []) (h : a < b) : moveOn a < moveOn b := by
  obtain ⟨j, b, rfl⟩ := List.exists_cons_of_ne_nil hb
  rcases a with _ | ⟨i, a⟩
  · exact List.nil_lt_cons _ _
  · show (i + 1) :: a < (j + 1) :: b
    rw [List.cons_lt_cons_iff] at h ⊢
    rcases h with h | ⟨rfl, h⟩
    · exact Or.inl (Nat.add_lt_add_right h 1)
    · exact Or.inr ⟨rfl, h⟩

mutual

/-- The addresses from a member on are listed in increasing order. -/
theorem addresses_increasing : (m : Member) → m.addresses.Pairwise (· < ·)
  | .nested _ members => by
    rw [Member.addresses, List.pairwise_cons]
    refine ⟨fun a ha => ?_, addressesAll_increasing members⟩
    obtain ⟨i, b, rfl⟩ := List.exists_cons_of_ne_nil (ne_nil_of_mem_addressesAll ha)
    exact List.nil_lt_cons i b
  | .field _ => .nil
  | .method _ => .nil
  | .constructor _ => .nil

/-- The addresses among the members of a body are listed in increasing order. -/
theorem addressesAll_increasing : (members : List Member) →
    (Member.addressesAll members).Pairwise (· < ·)
  | [] => .nil
  | m :: more => by
    rw [Member.addressesAll, List.pairwise_append, List.pairwise_map, List.pairwise_map]
    refine ⟨?_, ?_, ?_⟩
    · refine (addresses_increasing m).imp fun hab => ?_
      exact List.cons_lt_cons_iff.mpr (Or.inr ⟨rfl, hab⟩)
    · refine (addressesAll_increasing more).imp_of_mem fun _ hb hab => ?_
      exact moveOn_lt_moveOn (ne_nil_of_mem_addressesAll hb) hab
    · intro a ha b hb
      obtain ⟨a, -, rfl⟩ := List.mem_map.mp ha
      obtain ⟨j, c, rfl, -⟩ := mem_map_moveOn.mp hb
      exact List.cons_lt_cons_iff.mpr (Or.inl (Nat.succ_pos j))

end

/-! ## Following addresses -/

/-- The type that an address leads to from a member that stands inside the types `outer`. -/
def Member.node? (outer : List String) (m : Member) (a : List Nat) : Option TypeNode :=
  m.type?.bind fun t => t.node? outer a

/-- The type that an address leads to from the members of a body inside the types `outer`. -/
def nodeAmong? (outer : List String) (members : List Member) : List Nat → Option TypeNode
  | [] => none
  | i :: a => members[i]?.bind fun m => m.node? outer a

/-- An address that begins with zero leads through the first member. -/
@[simp] theorem nodeAmong?_zero (outer : List String) (m : Member) (more : List Member)
    (a : List Nat) : nodeAmong? outer (m :: more) (0 :: a) = m.node? outer a := rfl

/-- A moved address leads to the same type behind one more member. -/
@[simp] theorem nodeAmong?_moveOn (outer : List String) (m : Member) (more : List Member)
    (a : List Nat) : nodeAmong? outer (m :: more) (moveOn a) = nodeAmong? outer more a := by
  cases a <;> rfl

/-- The empty address leads to the nested type itself. -/
@[simp] theorem node?_nested_nil (outer : List String) (head : TypeHead) (members : List Member) :
    (Member.nested head members).node? outer [] = some ⟨outer, { head with members }⟩ := rfl

/-- Inside a nested type the address goes on among its members. -/
theorem node?_nested {a : List Nat} (ha : a ≠ []) (outer : List String) (head : TypeHead)
    (members : List Member) :
    (Member.nested head members).node? outer a =
      nodeAmong? (outer ++ [head.name]) members a := by
  obtain ⟨i, a, rfl⟩ := List.exists_cons_of_ne_nil ha
  show (members[i]?.bind Member.type?).bind _ = members[i]?.bind _
  rw [Option.bind_assoc]
  rfl

/-- A forest is searched like a body that stands in no type. -/
theorem nodeAt?_eq (types : List TypeDecl) (a : List Nat) :
    nodeAt? types a = nodeAmong? [] (types.map Member.ofType) a := by
  rcases a with _ | ⟨i, a⟩
  · rfl
  · rw [nodeAt?, nodeAmong?, List.getElem?_map, Option.bind_map]
    rfl

mutual

/-- There is a type at an address exactly if the address is listed. -/
theorem mem_addresses (outer : List String) (a : List Nat) : (m : Member) →
    (a ∈ m.addresses ↔ (m.node? outer a).isSome)
  | .nested head members => by
    by_cases ha : a = []
    · subst ha
      simp [Member.addresses]
    · rw [Member.addresses, List.mem_cons, node?_nested ha]
      simp only [ha, false_or]
      exact mem_addressesAll _ a members
  | .field _ => by simp [Member.addresses, Member.node?, Member.type?]
  | .method _ => by simp [Member.addresses, Member.node?, Member.type?]
  | .constructor _ => by simp [Member.addresses, Member.node?, Member.type?]

/-- The addresses listed for a body are those at which it has a type. -/
theorem mem_addressesAll (outer : List String) (a : List Nat) : (members : List Member) →
    (a ∈ Member.addressesAll members ↔ (nodeAmong? outer members a).isSome)
  | [] => by cases a <;> simp [Member.addressesAll, nodeAmong?]
  | m :: more => by
    rw [Member.addressesAll, List.mem_append, mem_map_moveOn]
    -- An address leads through the first member, or moves on to those behind it.
    rcases a with _ | ⟨_ | i, a⟩
    · simp [nodeAmong?]
    · have hm := mem_addresses outer a m
      simpa using hm
    · have hmore := mem_addressesAll outer (i :: a) more
      rw [← moveOn, nodeAmong?_moveOn, ← hmore]
      simp [moveOn]

end

/-! ## Lifting by addresses -/

/-- The types at the addresses of a member, as they are listed. -/
def Member.listed (outer : List String) (m : Member) : List TypeDecl :=
  m.addresses.filterMap fun a => (m.node? outer a).map TypeNode.lifted

/-- The types at the addresses of the members of a body, as they are listed. -/
def listedAmong (outer : List String) (members : List Member) : List TypeDecl :=
  (Member.addressesAll members).filterMap fun a =>
    (nodeAmong? outer members a).map TypeNode.lifted

/-- A nested type is listed first, and behind it what its body declares. -/
theorem listed_nested (outer : List String) (head : TypeHead) (members : List Member) :
    (Member.nested head members).listed outer =
      TypeNode.lifted ⟨outer, { head with members }⟩ ::
        listedAmong (outer ++ [head.name]) members := by
  have hinner : (Member.addressesAll members).filterMap (fun a =>
      ((Member.nested head members).node? outer a).map TypeNode.lifted) =
        listedAmong (outer ++ [head.name]) members := by
    apply List.filterMap_congr
    intro a ha
    rw [node?_nested (ne_nil_of_mem_addressesAll ha)]
  rw [Member.listed, Member.addresses, List.filterMap_cons, hinner, node?_nested_nil]
  rfl

/-- What the first member declares is listed in front of what the others declare. -/
theorem listedAmong_cons (outer : List String) (m : Member) (more : List Member) :
    listedAmong outer (m :: more) = m.listed outer ++ listedAmong outer more := by
  rw [listedAmong, Member.addressesAll, List.filterMap_append, List.filterMap_map,
    List.filterMap_map]
  congr 1
  apply List.filterMap_congr
  intro a _
  exact congrArg _ (nodeAmong?_moveOn outer m more a)

/-- The name of a nested type is its path. -/
theorem path_of_nested {outer : List String} (h : outer ≠ []) (t : TypeDecl) :
    TypeNode.path ⟨outer, t⟩ = ".".intercalate outer ++ "." ++ t.name := by
  rw [TypeNode.path, String.intercalate_append_of_ne_nil h (List.cons_ne_nil _ _),
    String.intercalate_singleton]

mutual

/-- Inside other types, lifting lists the types by their addresses. -/
theorem lifted_eq_listed {outer : List String} (h : outer ≠ []) : (m : Member) →
    Member.lifted (".".intercalate outer) m = m.listed outer
  | .nested head members => by
    have hpath := path_of_nested h { head with members }
    have hinner := liftedAll_eq_listedAmong
      (List.append_ne_nil_of_right_ne_nil outer (List.cons_ne_nil head.name [])) members
    have houter : ".".intercalate (outer ++ [head.name]) =
        ".".intercalate outer ++ "." ++ head.name := hpath
    rw [Member.lifted, listed_nested, ← hinner, houter, TypeNode.lifted, hpath,
      TypeNode.filterMap_member?_of_nested h, hpath]
  | .field _ => rfl
  | .method _ => rfl
  | .constructor _ => rfl

/-- Inside a type, lifting a body gives the types at its addresses, in their order. -/
theorem liftedAll_eq_listedAmong {outer : List String} (h : outer ≠ []) :
    (members : List Member) →
    Member.liftedAll (".".intercalate outer) members = listedAmong outer members
  | [] => rfl
  | m :: more => by
    rw [Member.liftedAll, listedAmong_cons, lifted_eq_listed h m,
      liftedAll_eq_listedAmong h more]

end

/-- A root keeps its name, and the names of its constructors. -/
theorem flatten_eq_listed (t : TypeDecl) : t.flatten = (Member.ofType t).listed [] := by
  have hpath : TypeNode.path ⟨[], t⟩ = t.name := String.intercalate_singleton
  have hinner := liftedAll_eq_listedAmong (List.cons_ne_nil t.name []) t.members
  rw [String.intercalate_singleton] at hinner
  rw [TypeDecl.flatten, hinner, Member.ofType, listed_nested, TypeNode.lifted, hpath,
    TypeNode.filterMap_member?_of_root rfl]
  rfl

/-- Lifting lists the types of a forest by their addresses. -/
theorem flattenAll_eq (types : List TypeDecl) :
    TypeDecl.flattenAll types =
      (typeAddresses types).filterMap fun a => (nodeAt? types a).map TypeNode.lifted := by
  have hlisted : TypeDecl.flattenAll types = listedAmong [] (types.map Member.ofType) := by
    induction types with
    | nil => rfl
    | cons t more ih =>
      rw [TypeDecl.flattenAll] at ih ⊢
      rw [List.flatMap_cons, List.map_cons, listedAmong_cons, flatten_eq_listed, ih]
  rw [hlisted, listedAmong, typeAddresses]
  simp only [nodeAt?_eq]

/-- The addresses listed for a forest are those at which it has a type. -/
theorem mem_typeAddresses {types : List TypeDecl} {a : List Nat} :
    a ∈ typeAddresses types ↔ (nodeAt? types a).isSome := by
  rw [nodeAt?_eq]
  exact mem_addressesAll [] a _

/-- The addresses of a forest are listed in increasing order. -/
theorem typeAddresses_increasing (types : List TypeDecl) :
    (typeAddresses types).Pairwise (· < ·) :=
  addressesAll_increasing _

/-- Lifting lists as many types as there are addresses. -/
theorem length_flattenAll (types : List TypeDecl) :
    (TypeDecl.flattenAll types).length = (typeAddresses types).length := by
  rw [flattenAll_eq, List.filterMap_length_eq_length]
  intro a ha
  rw [Option.isSome_map]
  exact mem_typeAddresses.mp ha

end ApiSurface
