import ApiSurface.Json.Printer
import ApiSurface.Json.Reader
import Mathlib.Tactic.SplitIfs

/-!
# Reading what was written

A value that is written over several lines is read as itself. A number keeps its spelling when it is
written, and a spelling may be anything, so the statement is about values that hold no number
(`NumberFree`); all other values end where their own text ends, whatever follows.

Reading is bounded by a number of steps, and every step takes at least half a character of the text:
a value takes one step and its first character, and so does every item or field behind a comma. So
`Readable`, the property that is carried through a value, asks for two steps per character, and
`read?` grants them.
-/

namespace ApiSurface.Json

/-! ## White space -/

/-- There is no white space at the end of a text. -/
@[simp] theorem skipWhite_nil : skipWhite [] = [] := rfl

/-- White space in front is passed over. -/
theorem skipWhite_cons_white {c : Char} (hc : isWhite c = true) (cs : List Char) :
    skipWhite (c :: cs) = skipWhite cs := by
  simp [skipWhite, hc]

/-- Nothing is passed over in front of another character. -/
theorem skipWhite_cons {c : Char} (hc : isWhite c = false) (cs : List Char) :
    skipWhite (c :: cs) = c :: cs := by
  simp [skipWhite, hc]

/-- The start of a line is white space. -/
theorem skipWhite_newLine (depth : Nat) (cs : List Char) :
    skipWhite ((newLine depth).toList ++ cs) = skipWhite cs := by
  have hblanks : ∀ n, skipWhite (List.replicate n ' ' ++ cs) = skipWhite cs := by
    intro n
    induction n with
    | zero => rfl
    | succ n ih =>
      rw [List.replicate_succ, List.cons_append, skipWhite_cons_white (by decide), ih]
  have htext : (newLine depth).toList = '\n' :: List.replicate (2 * depth) ' ' := by
    simp [newLine]
  rw [htext, List.cons_append, skipWhite_cons_white (by decide), hblanks]

/-! ## Texts -/

/-- Four digits are read as the number below 256 that the last two write. -/
theorem unicodeEscape?_hexDigit {n : Nat} (h : n < 256) (rest : List Char) :
    unicodeEscape? ('0' :: '0' :: Text.hexDigit (n / 16) :: Text.hexDigit (n % 16) :: rest) =
      some (Char.ofNat n, rest) := by
  have hzero : Text.hexValue? '0' = some 0 := by decide
  have hhigh := Text.hexValue?_hexDigit (n := n / 16) (by omega)
  have hlow := Text.hexValue?_hexDigit (n := n % 16) (by omega)
  have hn : 16 * (n / 16) + n % 16 = n := Nat.div_add_mod n 16
  have hunit : unit? ('0' :: '0' :: Text.hexDigit (n / 16) :: Text.hexDigit (n % 16) :: rest) =
      some (n, rest) := by
    simp [unit?, Text.hexNumber?, hzero, hhigh, hlow, hn]
  have hplain : ¬ (0xD800 ≤ n ∧ n < 0xDC00) ∧ ¬ (0xDC00 ≤ n ∧ n < 0xE000) := by omega
  simp [unicodeEscape?, hunit, hplain]

/-- An escape of two characters is read as the character that it stands for. -/
theorem textFrom?_short {e c : Char} (h : shortEscape? e = some c) (rest before : List Char) :
    textFrom? ('\\' :: e :: rest) before = textFrom? rest (c :: before) := by
  have hu : e ≠ 'u' := by
    rintro rfl
    simp [shortEscape?] at h
  rw [textFrom?, h]
  · rfl
  · exact hu

/-- An escape by a number is read as the character that has it. -/
theorem textFrom?_unicode {c : Char} {cs rest : List Char}
    (h : unicodeEscape? cs = some (c, rest)) (before : List Char) :
    textFrom? ('\\' :: 'u' :: cs) before = textFrom? rest (c :: before) := by
  rw [textFrom?]
  split <;> simp_all

/-- A character that needs no escape is read as itself. -/
theorem textFrom?_plain {c : Char} (hquote : c ≠ '"') (hback : c ≠ '\\') (h : ¬ c.toNat < 0x20)
    (rest before : List Char) : textFrom? (c :: rest) before = textFrom? rest (c :: before) := by
  have hno : ¬ (c.toNat < 0x20 ∨ c = '\\') := by simp [h, hback]
  rw [textFrom?, if_neg hno]
  · exact fun he => hquote he
  · exact fun _ he => absurd he hback
  · exact fun _ _ he => absurd he hback

/-- A character as it is written is read as the character. -/
theorem textFrom?_escape (c : Char) (rest before : List Char) :
    textFrom? (escape c ++ rest) before = textFrom? rest (c :: before) := by
  unfold escape
  split_ifs with hquote hback hb hf hn hr ht hcontrol
  · exact textFrom?_short (by rw [hquote]; rfl) rest before
  · exact textFrom?_short (by rw [hback]; rfl) rest before
  · exact textFrom?_short (by rw [hb]; rfl) rest before
  · exact textFrom?_short (by rw [hf]; rfl) rest before
  · exact textFrom?_short (by rw [hn]; rfl) rest before
  · exact textFrom?_short (by rw [hr]; rfl) rest before
  · exact textFrom?_short (by rw [ht]; rfl) rest before
  · have hread := unicodeEscape?_hexDigit (n := c.toNat) (by omega) rest
    rw [Char.ofNat_toNat] at hread
    exact textFrom?_unicode hread before
  · exact textFrom?_plain hquote hback hcontrol rest before

/-- An escaped text is read up to the quotation mark behind it. -/
theorem textFrom?_escaped (content rest before : List Char) :
    textFrom? (content.flatMap escape ++ '"' :: rest) before =
      some (before.reverse ++ content, rest) := by
  induction content generalizing before with
  | nil => simp [textFrom?]
  | cons c content ih =>
    rw [List.flatMap_cons, List.append_assoc, textFrom?_escape, ih, List.reverse_cons,
      List.append_assoc]
    rfl

/-- A text in quotation marks is read as it was before it was escaped. -/
theorem text?_escaped (text : String) (rest : List Char) :
    text? (text.toList.flatMap escape ++ '"' :: rest) = some (text, rest) := by
  simp [text?, textFrom?_escaped]

/-- A text as it is written: escaped, and in quotation marks. -/
theorem toList_quote (text : String) :
    (quote text).toList = '"' :: (text.toList.flatMap escape ++ ['"']) := by
  simp [quote]

/-! ## Values without numbers -/

/-- The value holds no number. -/
inductive NumberFree : Json → Prop
  | null : NumberFree null
  | bool (b : Bool) : NumberFree (bool b)
  | string (text : String) : NumberFree (string text)
  | array {items : List Json} : (∀ item ∈ items, NumberFree item) → NumberFree (array items)
  | object {fields : List (String × Json)} :
      (∀ field ∈ fields, NumberFree field.2) → NumberFree (object fields)

attribute [simp] NumberFree.null NumberFree.bool NumberFree.string

/-- A list holds no number if its items hold none. -/
@[simp] theorem numberFree_array {items : List Json} :
    NumberFree (array items) ↔ ∀ item ∈ items, NumberFree item := by
  refine ⟨?_, .array⟩
  rintro ⟨⟩
  assumption

/-- An object holds no number if the values of its fields hold none. -/
@[simp] theorem numberFree_object {fields : List (String × Json)} :
    NumberFree (object fields) ↔ ∀ field ∈ fields, NumberFree field.2 := by
  refine ⟨?_, .object⟩
  rintro ⟨⟩
  assumption

/-- What a value begins with is neither white space nor a closing bracket. -/
theorem exists_head_pretty {v : Json} (h : NumberFree v) (depth : Nat) :
    ∃ c cs, (pretty depth v).toList = c :: cs ∧ isWhite c = false ∧ c ≠ ']' := by
  have hhead : ∃ c, (pretty depth v).toList.head? = some c ∧ isWhite c = false ∧ c ≠ ']' := by
    cases h with
    | null => exact ⟨'n', by simp [pretty], by decide, by decide⟩
    | bool b =>
      cases b with
      | false => exact ⟨'f', by simp [pretty], by decide, by decide⟩
      | true => exact ⟨'t', by simp [pretty], by decide, by decide⟩
    | string text => exact ⟨'"', by simp [pretty, toList_quote], by decide, by decide⟩
    | @array items _ =>
      refine ⟨'[', ?_, by decide, by decide⟩
      cases items <;> simp [pretty]
    | @object fields _ =>
      refine ⟨'\x7b', ?_, by decide, by decide⟩
      cases fields <;> simp [pretty]
  obtain ⟨c, hc, hwhite, hne⟩ := hhead
  obtain ⟨cs, hcs⟩ := List.head?_eq_some_iff.mp hc
  exact ⟨c, cs, hcs, hwhite, hne⟩

/-- At any depth and before any text, the value is read as itself in two steps per character. -/
def Readable (v : Json) : Prop :=
  ∀ (depth bound : Nat) (rest : List Char), 2 * (pretty depth v).toList.length ≤ bound →
    value? bound ((pretty depth v).toList ++ rest) = some (v, rest)

/-! ## Lists -/

/-- A new line in front of a value is passed over. -/
theorem value?_newLine (bound depth : Nat) (cs : List Char) :
    value? bound ((newLine depth).toList ++ cs) = value? bound cs := by
  cases bound with
  | zero => rw [value?, value?]
  | succ bound => rw [value?, value?, skipWhite_newLine]

/-- A new line in front of the items of a list is passed over. -/
theorem items?_newLine (bound depth : Nat) (cs : List Char) :
    items? bound ((newLine depth).toList ++ cs) = items? bound cs := by
  cases bound with
  | zero => rw [items?, items?]
  | succ bound => rw [items?, items?, value?_newLine]

/-- An item with the closing bracket behind it is the last one. -/
theorem items?_last {bound : Nat} {cs behind rest : List Char} {item : Json}
    (hitem : value? bound cs = some (item, behind)) (hbehind : skipWhite behind = ']' :: rest) :
    items? (bound + 1) cs = some ([item], rest) := by
  rw [items?, hitem]
  simp [hbehind]

/-- Behind an item and a comma the list goes on. -/
theorem items?_cons {bound : Nat} {cs behind next rest : List Char} {item : Json}
    {more : List Json} (hitem : value? bound cs = some (item, behind))
    (hbehind : skipWhite behind = ',' :: next) (hmore : items? bound next = some (more, rest)) :
    items? (bound + 1) cs = some (item :: more, rest) := by
  rw [items?, hitem]
  simp [hbehind, hmore]

/-- An item behind another is written behind a comma, on a line of its own. -/
theorem toList_prettyItems_cons (depth : Nat) (item : Json) (more : List Json) :
    (prettyItems depth (item :: more)).toList = ',' :: ((newLine depth).toList ++
      (pretty depth item ++ prettyItems depth more).toList) := by
  simp [prettyItems]

/-- The items of a list are read up to its closing bracket. -/
theorem items?_pretty {item : Json} {more : List Json} (hitem : Readable item)
    (hmore : ∀ other ∈ more, Readable other) (depth outer bound : Nat) (rest : List Char)
    (hbound : 2 * (pretty depth item ++ prettyItems depth more).toList.length < bound) :
    items? bound ((pretty depth item ++ prettyItems depth more).toList ++
      ((newLine outer).toList ++ ']' :: rest)) = some (item :: more, rest) := by
  induction more generalizing item bound with
  | nil =>
    obtain ⟨bound, rfl⟩ : ∃ n, bound = n + 1 := ⟨bound - 1, by omega⟩
    rw [prettyItems, String.append_empty] at hbound ⊢
    refine items?_last (hitem depth bound _ (by omega)) ?_
    rw [skipWhite_newLine]
    exact skipWhite_cons (by decide) rest
  | cons next more ih =>
    obtain ⟨bound, rfl⟩ : ∃ n, bound = n + 1 := ⟨bound - 1, by omega⟩
    rw [String.toList_append, toList_prettyItems_cons] at hbound ⊢
    rw [List.length_append, List.length_cons, List.length_append] at hbound
    have hnext := ih (hmore next List.mem_cons_self)
      (fun other ho => hmore other (List.mem_cons_of_mem next ho)) bound (by omega)
    rw [List.append_assoc, List.cons_append, List.append_assoc]
    refine items?_cons (hitem depth bound _ (by omega)) (skipWhite_cons (by decide) _) ?_
    rw [items?_newLine]
    exact hnext

/-! ## Objects -/

/-- A new line in front of the fields of an object is passed over. -/
theorem fields?_newLine (bound depth : Nat) (cs : List Char) :
    fields? bound ((newLine depth).toList ++ cs) = fields? bound cs := by
  cases bound with
  | zero => rw [fields?, fields?]
  | succ bound => rw [fields?, fields?, skipWhite_newLine]

/-- A field with the closing bracket behind it is the last one. -/
theorem fields?_last {bound : Nat} {key : String} {cs behind rest : List Char} {value : Json}
    (hvalue : value? bound cs = some (value, behind))
    (hbehind : skipWhite behind = '\x7d' :: rest) :
    fields? (bound + 1) ((quote key).toList ++ ':' :: cs) = some ([(key, value)], rest) := by
  rw [fields?, toList_quote]
  simp [skipWhite_cons (c := '"') (by decide), text?_escaped, skipWhite_cons (c := ':') (by decide),
    hvalue, hbehind]

/-- Behind a field and a comma the object goes on. -/
theorem fields?_cons {bound : Nat} {key : String} {cs behind next rest : List Char} {value : Json}
    {more : List (String × Json)} (hvalue : value? bound cs = some (value, behind))
    (hbehind : skipWhite behind = ',' :: next) (hmore : fields? bound next = some (more, rest)) :
    fields? (bound + 1) ((quote key).toList ++ ':' :: cs) = some ((key, value) :: more, rest) := by
  rw [fields?, toList_quote]
  simp [skipWhite_cons (c := '"') (by decide), text?_escaped, skipWhite_cons (c := ':') (by decide),
    hvalue, hbehind, hmore]

/-- The value of a field stands behind a blank. -/
theorem Readable.behind_blank {value : Json} (h : Readable value) {depth bound : Nat}
    (hbound : 2 * (pretty depth value).toList.length ≤ bound) (rest : List Char) :
    value? bound (' ' :: ((pretty depth value).toList ++ rest)) = some (value, rest) := by
  have hread := h depth bound rest hbound
  cases bound with
  | zero =>
    rw [value?] at hread
    cases hread
  | succ bound =>
    rw [value?] at hread ⊢
    rw [skipWhite_cons_white (by decide)]
    exact hread

/-- The first field of an object and those behind it, as they are written. -/
def fieldsText (depth : Nat) (key : String) (value : Json) (more : List (String × Json)) :
    List Char :=
  (quote key).toList ++ ':' :: ' ' ::
    ((pretty depth value).toList ++ (prettyFields depth more).toList)

/-- A field behind another is written behind a comma, on a line of its own. -/
theorem toList_prettyFields_cons (depth : Nat) (key : String) (value : Json)
    (more : List (String × Json)) :
    (prettyFields depth ((key, value) :: more)).toList =
      ',' :: ((newLine depth).toList ++ fieldsText depth key value more) := by
  simp [prettyFields, fieldsText]

/-- The fields of an object are read up to its closing bracket. -/
theorem fields?_fieldsText (key : String) {value : Json} {more : List (String × Json)}
    (hvalue : Readable value) (hmore : ∀ other ∈ more, Readable other.2)
    (depth outer bound : Nat) (rest : List Char)
    (hbound : 2 * (fieldsText depth key value more).length < bound) :
    fields? bound (fieldsText depth key value more ++
      ((newLine outer).toList ++ '\x7d' :: rest)) = some ((key, value) :: more, rest) := by
  -- Along the fields: each takes one step and leaves the bound for the others.
  induction more generalizing key value bound with
  | nil =>
    obtain ⟨bound, rfl⟩ : ∃ n, bound = n + 1 := ⟨bound - 1, by omega⟩
    simp only [fieldsText, prettyFields, String.toList_empty, List.append_nil, List.length_append,
      List.length_cons, List.append_assoc, List.cons_append] at hbound ⊢
    refine fields?_last (hvalue.behind_blank (by omega) _) ?_
    rw [skipWhite_newLine]
    exact skipWhite_cons (by decide) rest
  | cons next more ih =>
    obtain ⟨nextKey, nextValue⟩ := next
    obtain ⟨bound, rfl⟩ : ∃ n, bound = n + 1 := ⟨bound - 1, by omega⟩
    rw [fieldsText, toList_prettyFields_cons] at hbound ⊢
    simp only [List.length_append, List.length_cons] at hbound
    have hvalue' : Readable nextValue := hmore (nextKey, nextValue) List.mem_cons_self
    have hnext := ih nextKey hvalue' (fun other ho => hmore other (List.mem_cons_of_mem _ ho)) bound
      (by omega)
    simp only [List.append_assoc, List.cons_append]
    refine fields?_cons (hvalue.behind_blank (by omega) _) (skipWhite_cons (by decide) _) ?_
    rw [fields?_newLine]
    exact hnext

/-! ## Values -/

/-- A value takes at least one character, so there is a step for it. -/
theorem exists_bound {v : Json} (h : NumberFree v) {depth bound : Nat}
    (hbound : 2 * (pretty depth v).toList.length ≤ bound) : ∃ n, bound = n + 1 := by
  obtain ⟨c, cs, hcs, -⟩ := exists_head_pretty h depth
  rw [hcs, List.length_cons] at hbound
  exact ⟨bound - 1, by omega⟩

/-- Behind an opening bracket the items of a list are read, unless it is closed at once. -/
theorem value?_of_items {bound depth : Nat} {c : Char} {cs rest : List Char} {items : List Json}
    (hwhite : isWhite c = false) (hne : c ≠ ']')
    (h : items? bound (c :: cs) = some (items, rest)) :
    value? (bound + 1) ('[' :: ((newLine depth).toList ++ c :: cs)) = some (array items, rest) := by
  rw [value?, skipWhite_cons (by decide)]
  simp [skipWhite_newLine, skipWhite_cons hwhite, hne, h]

/-- Behind an opening brace the fields of an object are read. -/
theorem value?_of_fields {bound depth : Nat} {cs rest : List Char} {fields : List (String × Json)}
    (h : fields? bound ('"' :: cs) = some (fields, rest)) :
    value? (bound + 1) ('\x7b' :: ((newLine depth).toList ++ '"' :: cs)) =
      some (object fields, rest) := by
  rw [value?, skipWhite_cons (by decide)]
  simp [skipWhite_newLine, skipWhite_cons (c := '"') (by decide), h]

/-- A list of readable items is readable. -/
theorem readable_array {items : List Json} (hfree : ∀ item ∈ items, NumberFree item)
    (h : ∀ item ∈ items, Readable item) : Readable (array items) := by
  intro depth bound rest hbound
  obtain ⟨bound, rfl⟩ := exists_bound (.array hfree) hbound
  rcases items with _ | ⟨item, more⟩
  · simp [pretty, value?, skipWhite_cons (c := '[') (by decide),
      skipWhite_cons (c := ']') (by decide)]
  · obtain ⟨c, cs, hcs, hwhite, hne⟩ :=
      exists_head_pretty (hfree item List.mem_cons_self) (depth + 1)
    have htext : (pretty depth (array (item :: more))).toList ++ rest =
        '[' :: ((newLine (depth + 1)).toList ++
          ((pretty (depth + 1) item ++ prettyItems (depth + 1) more).toList ++
            ((newLine depth).toList ++ ']' :: rest))) := by
      simp [pretty]
    have hlength := congrArg List.length htext
    simp only [List.length_append, List.length_cons] at hlength
    have hitems := items?_pretty (h item List.mem_cons_self)
      (fun other ho => h other (List.mem_cons_of_mem item ho)) (depth + 1) depth bound rest
      (by omega)
    rw [String.toList_append, hcs] at htext hitems
    rw [htext]
    exact value?_of_items hwhite hne hitems

/-- An object with readable values is readable. -/
theorem readable_object {fields : List (String × Json)}
    (hfree : ∀ field ∈ fields, NumberFree field.2) (h : ∀ field ∈ fields, Readable field.2) :
    Readable (object fields) := by
  intro depth bound rest hbound
  obtain ⟨bound, rfl⟩ := exists_bound (.object hfree) hbound
  rcases fields with _ | ⟨⟨key, value⟩, more⟩
  · simp [pretty, value?, skipWhite_cons (c := '\x7b') (by decide),
      skipWhite_cons (c := '\x7d') (by decide)]
  · have htext : (pretty depth (object ((key, value) :: more))).toList ++ rest =
        '\x7b' :: ((newLine (depth + 1)).toList ++ (fieldsText (depth + 1) key value more ++
          ((newLine depth).toList ++ '\x7d' :: rest))) := by
      simp [pretty, fieldsText]
    have hlength := congrArg List.length htext
    simp only [List.length_append, List.length_cons] at hlength
    have hvalue : Readable value := h (key, value) List.mem_cons_self
    have hfields := fields?_fieldsText key hvalue
      (fun other ho => h other (List.mem_cons_of_mem _ ho)) (depth + 1) depth bound rest (by omega)
    rw [fieldsText, toList_quote] at htext hfields
    rw [htext]
    exact value?_of_fields hfields

/-- Every value without a number is read as itself. -/
theorem readable_of_numberFree {v : Json} (h : NumberFree v) : Readable v := by
  induction h with
  | null =>
    intro depth bound rest hbound
    obtain ⟨bound, rfl⟩ := exists_bound .null hbound
    simp [pretty, value?, skipWhite_cons (c := 'n') (by decide)]
  | bool b =>
    intro depth bound rest hbound
    obtain ⟨bound, rfl⟩ := exists_bound (.bool b) hbound
    cases b with
    | false => simp [pretty, value?, skipWhite_cons (c := 'f') (by decide)]
    | true => simp [pretty, value?, skipWhite_cons (c := 't') (by decide)]
  | string text =>
    intro depth bound rest hbound
    obtain ⟨bound, rfl⟩ := exists_bound (.string text) hbound
    simp [pretty, toList_quote, value?, skipWhite_cons (c := '"') (by decide), text?_escaped]
  | array hitems ih => exact readable_array hitems ih
  | object hfields ih => exact readable_object hfields ih

/-- The text of a value without a number is read as the value. -/
theorem read?_render {v : Json} (h : NumberFree v) : read? v.render = some v := by
  have hlength : (v.render).toList.length = (pretty 0 v).toList.length + 1 := by
    simp [render]
  have hread := readable_of_numberFree h 0 (2 * v.render.toList.length + 2) ['\n'] (by omega)
  have htext : (v.render).toList = (pretty 0 v).toList ++ ['\n'] := by
    simp [render]
  simp only [read?]
  rw [htext] at hread ⊢
  rw [hread]
  simp [skipWhite_cons_white (c := '\n') (by decide)]

end ApiSurface.Json
