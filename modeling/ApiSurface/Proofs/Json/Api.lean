import ApiSurface.Description
import ApiSurface.Proofs.Json.Reader

/-!
# The JSON of an API loses nothing

An API that is written as JSON and read back is the same API (`read_describe_json`).

Every declaration is one flat object, into which the fields of its parts are merged: the tag of a
member, the kind of a type, what methods and constructors share. `Shows fields part` says that the
object with the given fields shows all fields of a part, none of them hidden by a later field of the
same name. An object shows each of its parts because no name occurs in it twice
(`shows_of_nodup`), and from an object that shows a part the part is decoded as it was
(`Callable.ofFields?_of_shows` and its like). Members and the types nested in them are treated along
the tree.
-/

namespace ApiSurface

open Json

/-! ## Fields of an object -/

namespace Json

/-- The object with the given fields shows all fields of the part. -/
def Shows (fields part : List (String × Json)) : Prop :=
  ∀ field ∈ part, lastField? field.1 fields = some field.2

/-- No value is found under a name that no field has. -/
theorem lastField?_of_not_mem {name : String} {fields : List (String × Json)}
    (h : name ∉ fields.map Prod.fst) : lastField? name fields = none := by
  induction fields with
  | nil => rfl
  | cons field more ih =>
    rw [List.map_cons, List.mem_cons, not_or] at h
    rw [lastField?, ih h.2, if_neg (Ne.symm h.1)]
    rfl

/-- An object in which no name occurs twice shows all its fields. -/
theorem shows_of_nodup {fields : List (String × Json)} (h : (fields.map Prod.fst).Nodup) :
    Shows fields fields := by
  induction fields with
  | nil => exact fun _ hf => absurd hf List.not_mem_nil
  | cons field more ih =>
    rw [List.map_cons, List.nodup_cons] at h
    intro other hother
    rw [lastField?]
    rcases List.mem_cons.mp hother with rfl | hmore
    · rw [lastField?_of_not_mem h.1, if_pos rfl]
      rfl
    · rw [ih h.2 other hmore]
      rfl

/-- An object shows a part if it shows the first field of it and the others. -/
theorem shows_cons {fields part : List (String × Json)} {name : String} {v : Json} :
    Shows fields ((name, v) :: part) ↔ lastField? name fields = some v ∧ Shows fields part :=
  List.forall_mem_cons

/-- An object shows two parts if it shows each of them. -/
theorem shows_append {fields part part' : List (String × Json)} :
    Shows fields (part ++ part') ↔ Shows fields part ∧ Shows fields part' :=
  List.forall_mem_append

/-- A tag in front of a part hides nothing of it, if the part has no field of that name. -/
theorem shows_tagged {part : List (String × Json)} {name : String}
    (h : (name :: part.map Prod.fst).Nodup) (v : Json) :
    lastField? name ((name, v) :: part) = some v ∧ Shows ((name, v) :: part) part :=
  shows_cons.mp (shows_of_nodup h)

/-- A text is decoded as it was. -/
@[simp] theorem string?_string (text : String) : string? (string text) = some text := rfl

/-- A truth value is decoded as it was. -/
@[simp] theorem bool?_bool (b : Bool) : bool? (bool b) = some b := rfl

/-- A list is decoded as it was, if its items are. -/
theorem list?_map {α : Type} {toJson : α → Json} {ofJson? : Json → Option α}
    (h : ∀ a, ofJson? (toJson a) = some a) (l : List α) :
    list? ofJson? (array (l.map toJson)) = some l := by
  show (l.map toJson).mapM ofJson? = some l
  induction l with
  | nil => rfl
  | cons a l ih => simp [List.mapM_cons, h, ih]

/-- A list of texts is decoded as it was. -/
@[simp] theorem list?_strings (texts : List String) : list? string? (strings texts) = some texts :=
  list?_map string?_string texts

/-- A text that may be missing is decoded as it was. -/
@[simp] theorem nullable?_optional (text : Option String) :
    nullable? string? (optional text) = some text := by
  cases text <;> rfl

end Json

/-! ## Parts of declarations -/

/-- A visibility that may be missing is decoded as it was. -/
@[simp] theorem Visibility.nullable?_toJson (v : Option Visibility) :
    nullable? Visibility.ofJson? (Visibility.toJson v) = some v := by
  cases v with
  | none => rfl
  | some v => cases v <;> decide

/-- A type parameter is decoded as it was. -/
theorem TypeParameter.ofJson?_toJson (p : TypeParameter) : ofJson? p.toJson = some p := by
  obtain ⟨name, bounds⟩ := p
  cases bounds with
  | nil => simp [ofJson?, toJson, record?, required?, defaulted?, lastField?]
  | cons bound more => simp [ofJson?, toJson, record?, required?, defaulted?, lastField?]

/-- A parameter is decoded as it was. -/
theorem Parameter.ofJson?_toJson (p : Parameter) : ofJson? p.toJson = some p := by
  simp [ofJson?, toJson, record?, required?, lastField?]

/-- An exception is decoded as it was. -/
theorem Thrown.ofJson?_toJson (e : Thrown) : ofJson? e.toJson = some e := by
  simp [ofJson?, toJson, record?, required?, lastField?]

/-- Type parameters are decoded as they were, in their order. -/
@[simp] theorem TypeParameter.list?_toJson (ps : List TypeParameter) :
    list? TypeParameter.ofJson? (.array (ps.map TypeParameter.toJson)) = some ps :=
  list?_map TypeParameter.ofJson?_toJson ps

/-- Parameters are decoded as they were, in their order. -/
@[simp] theorem Parameter.list?_toJson (ps : List Parameter) :
    list? Parameter.ofJson? (.array (ps.map Parameter.toJson)) = some ps :=
  list?_map Parameter.ofJson?_toJson ps

/-- Exceptions are decoded as they were, in their order. -/
@[simp] theorem Thrown.list?_toJson (es : List Thrown) :
    list? Thrown.ofJson? (.array (es.map Thrown.toJson)) = some es :=
  list?_map Thrown.ofJson?_toJson es

/-! ## Fields, methods and constructors -/

/-- An object that shows a field of a type gives it back. -/
theorem Field.ofFields?_of_shows {fields : List (String × Json)} {f : Field}
    (h : Shows fields f.toFields) : Field.ofFields? fields = some f := by
  simp only [Field.toFields, shows_cons] at h
  simp [Field.ofFields?, required?, optional?, h]

/-- An object that shows what methods and constructors share gives it back. -/
theorem Callable.ofFields?_of_shows {fields : List (String × Json)} {c : Callable}
    (h : Shows fields c.toFields) : Callable.ofFields? fields = some c := by
  simp only [Callable.toFields, shows_cons] at h
  simp [Callable.ofFields?, required?, optional?, h]

/-- An object that shows a method gives it back. -/
theorem Method.ofFields?_of_shows {fields : List (String × Json)} {m : Method}
    (h : Shows fields m.toFields) : Method.ofFields? fields = some m := by
  rw [Method.toFields, shows_append] at h
  have hcallable := Callable.ofFields?_of_shows h.1
  have hown := h.2
  simp only [shows_cons] at hown
  simp [Method.ofFields?, hcallable, required?, hown]

/-- An object that shows a constructor gives it back. -/
theorem Constructor.ofFields?_of_shows {fields : List (String × Json)} {c : Constructor}
    (h : Shows fields c.toFields) : Constructor.ofFields? fields = some c := by
  rw [Constructor.toFields, shows_append] at h
  have hcallable := Callable.ofFields?_of_shows h.1
  have hown := h.2
  simp only [shows_cons] at hown
  simp [Constructor.ofFields?, hcallable, required?, hown]

/-! ## Heads of types -/

/-- An object that shows a kind of type gives it back. -/
theorem TypeKind.ofFields?_of_shows {fields : List (String × Json)} {k : TypeKind}
    (h : Shows fields k.toFields) : TypeKind.ofFields? fields = some k := by
  cases k with
  | classKind superclass =>
    simp only [TypeKind.toFields, shows_cons] at h
    simp [TypeKind.ofFields?, required?, h]
  | interfaceKind =>
    simp only [TypeKind.toFields, shows_cons] at h
    simp [TypeKind.ofFields?, required?, h]

/-- An object that shows the head of a type gives it back. -/
theorem TypeHead.ofFields?_of_shows {fields : List (String × Json)} {head : TypeHead}
    (h : Shows fields head.toFields) : TypeHead.ofFields? fields = some head := by
  rw [TypeHead.toFields, shows_append] at h
  have hkind := TypeKind.ofFields?_of_shows h.1
  have hown := h.2
  simp only [shows_cons] at hown
  simp [TypeHead.ofFields?, hkind, required?, optional?, hown]

/-! ## Members and types -/

/-- The names in the object of a nested type; `members` is the last of them. -/
theorem TypeHead.nodup_names (head : TypeHead) (members : Json) :
    ("member" :: (head.toFields ++ [("members", members)]).map Prod.fst).Nodup := by
  obtain ⟨kind, _, _, _, _, _, _, _, _⟩ := head
  cases kind with
  | classKind superclass => simp [TypeHead.toFields, TypeKind.toFields]
  | interfaceKind => simp [TypeHead.toFields, TypeKind.toFields]

mutual

/-- A member is decoded as it was, a nested type with all inside it. -/
theorem Member.ofJson?_toJson : (m : Member) → ofJson? m.toJson = some m
  | .field f => by
    have hnames : ("member" :: f.toFields.map Prod.fst).Nodup := by simp [Field.toFields]
    obtain ⟨htag, hfields⟩ := shows_tagged hnames (.string "field")
    rw [toJson, ofJson?]
    simp [htag, Field.ofFields?_of_shows hfields]
  | .method m => by
    have hnames : ("member" :: m.toFields.map Prod.fst).Nodup := by
      simp [Method.toFields, Callable.toFields]
    obtain ⟨htag, hfields⟩ := shows_tagged hnames (.string "method")
    rw [toJson, ofJson?]
    simp [htag, Method.ofFields?_of_shows hfields]
  | .constructor c => by
    have hnames : ("member" :: c.toFields.map Prod.fst).Nodup := by
      simp [Constructor.toFields, Callable.toFields]
    obtain ⟨htag, hfields⟩ := shows_tagged hnames (.string "constructor")
    rw [toJson, ofJson?]
    simp [htag, Constructor.ofFields?_of_shows hfields]
  | .nested head members => by
    have hnames := head.nodup_names (.array (toJsonAll members))
    obtain ⟨htag, hfields⟩ := shows_tagged hnames (.string "nested_type")
    rw [shows_append, shows_cons] at hfields
    obtain ⟨hhead, hmembers, -⟩ := hfields
    rw [toJson, ofJson?]
    simp only [htag]
    split
    · next items hitems => 
      rw [hmembers] at hitems
      cases hitems
      rw [TypeHead.ofFields?_of_shows hhead, ofJsonAll?_toJsonAll members]
      rfl
    · next hnone => exact absurd hmembers (hnone _)

/-- The members of a body are decoded as they were, in their order. -/
theorem Member.ofJsonAll?_toJsonAll : (members : List Member) →
    ofJsonAll? (toJsonAll members) = some members
  | [] => by rw [toJsonAll, ofJsonAll?]
  | m :: more => by
    rw [toJsonAll, ofJsonAll?, ofJson?_toJson m, ofJsonAll?_toJsonAll more]
    rfl

end

/-- A type is decoded as it was. -/
theorem TypeDecl.ofJson?_toJson (t : TypeDecl) : ofJson? t.toJson = some t := by
  have hnames := t.toTypeHead.nodup_names (.array (Member.toJsonAll t.members))
  have hfields := shows_of_nodup (List.nodup_cons.mp hnames).2
  rw [shows_append, shows_cons] at hfields
  obtain ⟨hhead, hmembers, -⟩ := hfields
  rw [toJson, ofJson?]
  simp [TypeHead.ofFields?_of_shows hhead, required?, hmembers, Member.ofJsonAll?_toJsonAll]

/-! ## Packages and APIs -/

/-- A package is decoded as it was. -/
theorem Package.ofJson?_toJson (p : Package) : ofJson? p.toJson = some p := by
  simp [ofJson?, toJson, record?, required?, lastField?, list?_map TypeDecl.ofJson?_toJson]

/-- An API is decoded as it was. -/
theorem Api.ofJson?_toJson (api : Api) : ofJson? api.toJson = some api := by
  simp [ofJson?, toJson, record?, required?, lastField?, list?_map Package.ofJson?_toJson]

/-! ## An API has no numbers -/

/-- A text that may be missing is written without a number. -/
@[simp] theorem Json.numberFree_optional (text : Option String) :
    (Json.optional text).NumberFree := by
  cases text with
  | none => exact .null
  | some text => exact .string text

/-- A list of texts is written without a number. -/
@[simp] theorem Json.numberFree_strings (texts : List String) :
    (Json.strings texts).NumberFree := by
  simp [Json.strings]

/-- A visibility is written without a number. -/
@[simp] theorem Visibility.numberFree_toJson (v : Option Visibility) :
    (Visibility.toJson v).NumberFree := by
  cases v with
  | none => exact .null
  | some v => exact .string v.word

/-- A type parameter is written without a number. -/
@[simp] theorem TypeParameter.numberFree_toJson (p : TypeParameter) : p.toJson.NumberFree := by
  obtain ⟨name, bounds⟩ := p
  cases bounds with
  | nil => simp [toJson]
  | cons bound more => simp [toJson]

/-- A parameter is written without a number. -/
@[simp] theorem Parameter.numberFree_toJson (p : Parameter) : p.toJson.NumberFree := by
  simp [toJson]

/-- An exception is written without a number. -/
@[simp] theorem Thrown.numberFree_toJson (e : Thrown) : e.toJson.NumberFree := by
  simp [toJson]

/-- The head of a type is written without a number. -/
theorem TypeHead.numberFree_fields (head : TypeHead) :
    ∀ field ∈ head.toFields, field.2.NumberFree := by
  obtain ⟨kind, _, _, _, _, _, _, _, _⟩ := head
  cases kind with
  | classKind superclass => simp [toFields, TypeKind.toFields]
  | interfaceKind => simp [toFields, TypeKind.toFields]

mutual

/-- A member is written without a number, at every depth. -/
theorem Member.numberFree_toJson : (m : Member) → m.toJson.NumberFree
  | .field f => by simp [toJson, Field.toFields]
  | .method m => by simp [toJson, Method.toFields, Callable.toFields]
  | .constructor c => by simp [toJson, Constructor.toFields, Callable.toFields]
  | .nested head members => by
    have hmembers := numberFree_toJsonAll members
    have hhead := head.numberFree_fields
    rw [toJson, numberFree_object, List.forall_mem_cons, List.forall_mem_append]
    exact ⟨.string "nested_type", hhead, by simpa using hmembers⟩

/-- The members of a body are written without a number. -/
theorem Member.numberFree_toJsonAll : (members : List Member) →
    ∀ item ∈ toJsonAll members, item.NumberFree
  | [] => by simp [toJsonAll]
  | m :: more => by
    rw [toJsonAll, List.forall_mem_cons]
    exact ⟨numberFree_toJson m, numberFree_toJsonAll more⟩

end

/-- A type is written without a number. -/
theorem TypeDecl.numberFree_toJson (t : TypeDecl) : t.toJson.NumberFree := by
  have hmembers := Member.numberFree_toJsonAll t.members
  rw [toJson, numberFree_object, List.forall_mem_append]
  exact ⟨t.toTypeHead.numberFree_fields, by simpa using hmembers⟩

/-- An API is written without a number. -/
theorem Api.numberFree_toJson (api : Api) : api.toJson.NumberFree := by
  have hpackage : ∀ p : Package, p.toJson.NumberFree := by
    intro p
    simp [Package.toJson, TypeDecl.numberFree_toJson]
  simp [toJson, hpackage]

/-- **The JSON description of an API loses nothing.** The text is read as the JSON value of the API,
and from that value the API is decoded as it was, with types nested to any depth and any characters
in its texts. -/
theorem read_describe_json (api : Api) :
    Json.read? (api.describe .json) = some api.toJson ∧
      (Json.read? (api.describe .json)).bind Api.ofJson? = some api := by
  have hread : Json.read? (api.describe .json) = some api.toJson :=
    read?_render api.numberFree_toJson
  refine ⟨hread, ?_⟩
  rw [hread, Option.bind_some]
  exact api.ofJson?_toJson

end ApiSurface
