import ApiSurface.Xml.Element
import ApiSurface.Proofs.Text.Boundary

/-!
# Elements are determined by their lines

The text of an element gives the element back, and where it ends. This is shown part by part, each
part with any text behind it: an escaped character (`escape_append_inj`), an attribute value up to
its closing quote (`value_append_inj`), the attributes of a tag and the tag itself
(`tagText_append_inj`), and from these the element (`Element.render_append_inj`).

The values may hold any text, with quotes, angle brackets and line feeds. What makes the document
readable is that names are made of letters alone (`Element.WellNamed`), that no escaped value holds
a quote, and that the line that closes an element is less indented than the lines of its children.
-/

namespace ApiSurface.Xml

open Text

/-! ## Attribute values -/

/-- The first character of a value as it is written, and what follows it. -/
def unescape? : List Char → Option (Char × List Char)
  | '&' :: 'l' :: 't' :: ';' :: rest => some ('<', rest)
  | '&' :: 'g' :: 't' :: ';' :: rest => some ('>', rest)
  | '&' :: 'a' :: 'm' :: 'p' :: ';' :: rest => some ('&', rest)
  | '&' :: 'a' :: 'p' :: 'o' :: 's' :: ';' :: rest => some ('\'', rest)
  | '&' :: 'q' :: 'u' :: 'o' :: 't' :: ';' :: rest => some ('"', rest)
  | '"' :: _ => none
  | c :: rest => some (c, rest)
  | [] => none

/-- An escaped character is read back, and what stands behind it is left. -/
theorem unescape?_escape_append (c : Char) (rest : List Char) :
    unescape? (escape c ++ rest) = some (c, rest) := by
  unfold escape
  split_ifs with h1 h2 h3 h4 h5
  · rw [h1]
    rfl
  · rw [h2]
    rfl
  · rw [h3]
    rfl
  · rw [h4]
    rfl
  · rw [h5]
    rfl
  · simp [unescape?, h3]

/-- The escaped characters of two equal texts are the same character. -/
theorem escape_append_inj {c d : Char} {r s : List Char} (h : escape c ++ r = escape d ++ s) :
    c = d ∧ r = s := by
  have hread := congrArg unescape? h
  rw [unescape?_escape_append, unescape?_escape_append, Option.some.injEq, Prod.mk.injEq] at hread
  exact hread

/-- A quote ends a value. -/
theorem quote_ne_escape_append (c : Char) (r s : List Char) : '"' :: r ≠ escape c ++ s := by
  intro h
  have hread := congrArg unescape? h
  rw [unescape?_escape_append] at hread
  cases hread

/-- A value ends at the first quotation mark, which no escaped character has in it. -/
theorem value_append_inj {u v r s : List Char}
    (h : u.flatMap escape ++ '"' :: r = v.flatMap escape ++ '"' :: s) : u = v ∧ r = s := by
  induction u generalizing v with
  | nil =>
    cases v with
    | nil => exact ⟨rfl, (List.cons.inj h).2⟩
    | cons d v =>
      rw [List.flatMap_cons, List.append_assoc] at h
      exact absurd h (quote_ne_escape_append d r _)
  | cons c u ih =>
    cases v with
    | nil =>
      rw [List.flatMap_cons, List.append_assoc] at h
      exact absurd h.symm (quote_ne_escape_append c s _)
    | cons d v =>
      rw [List.flatMap_cons, List.flatMap_cons, List.append_assoc, List.append_assoc] at h
      obtain ⟨rfl, hmore⟩ := escape_append_inj h
      obtain ⟨rfl, hrest⟩ := ih hmore
      exact ⟨rfl, hrest⟩

/-! ## Tags -/

/-- A name of a tag or an attribute: letters alone. -/
def IsName (name : String) : Prop := name.toList.all Char.isAlpha = true

instance : DecidablePred IsName :=
  fun name => inferInstanceAs (Decidable (name.toList.all Char.isAlpha = true))

/-- A name ends where the letters end. -/
theorem IsName.append_inj {a b : String} {r s : List Char} (ha : IsName a) (hb : IsName b)
    (hr : Boundary Char.isAlpha r) (hs : Boundary Char.isAlpha s)
    (h : a.toList ++ r = b.toList ++ s) : a = b ∧ r = s := by
  obtain ⟨hname, hrest⟩ := append_inj_of_boundary (List.all_eq_true.mp ha)
    (List.all_eq_true.mp hb) hr hs h
  exact ⟨String.toList_injective hname, hrest⟩

/-- An attribute as it is written: a blank, the name, and the escaped value in quotation marks. -/
theorem toList_attributeText (a : String × String) : (attributeText a).toList =
    ' ' :: (a.1.toList ++ '=' :: '"' :: (a.2.toList.flatMap escape ++ ['"'])) := by
  simp [attributeText]

/-- Two attributes in front of equal texts are the same attribute. -/
theorem attributeText_append_inj {a b : String × String} {r s : List Char} (ha : IsName a.1)
    (hb : IsName b.1) (h : (attributeText a).toList ++ r = (attributeText b).toList ++ s) :
    a = b ∧ r = s := by
  simp only [toList_attributeText, List.cons_append, List.append_assoc, List.nil_append,
    List.cons.injEq, true_and] at h
  obtain ⟨hname, hvalue⟩ := ha.append_inj hb (boundary_cons.mpr rfl) (boundary_cons.mpr rfl) h
  obtain ⟨htext, hrest⟩ := value_append_inj (List.cons.inj (List.cons.inj hvalue).2).2
  exact ⟨Prod.ext hname (String.toList_injective htext), hrest⟩

/-- The attributes of a tag as they are written. -/
def attributesText (attributes : List (String × String)) : List Char :=
  attributes.flatMap fun a => (attributeText a).toList

/-- The attributes are written one behind the other. -/
theorem attributesText_cons (a : String × String) (more : List (String × String)) :
    attributesText (a :: more) = (attributeText a).toList ++ attributesText more := rfl

/-- An attribute begins with a blank. -/
theorem attributesText_cons_append (a : String × String) (more : List (String × String))
    (rest : List Char) : ∃ text, attributesText (a :: more) ++ rest = ' ' :: text := by
  rw [attributesText_cons, toList_attributeText]
  exact ⟨_, rfl⟩

/-- Attributes end where no blank follows, so both lists are the same. -/
theorem attributesText_append_inj {as bs : List (String × String)} {r s : List Char}
    (ha : ∀ a ∈ as, IsName a.1) (hb : ∀ b ∈ bs, IsName b.1) (hr : Boundary (· == ' ') r)
    (hs : Boundary (· == ' ') s) (h : attributesText as ++ r = attributesText bs ++ s) :
    as = bs ∧ r = s := by
  -- Whether one more attribute follows shows in the blank in front of it.
  induction as generalizing bs with
  | nil =>
    cases bs with
    | nil => exact ⟨rfl, h⟩
    | cons b bs =>
      obtain ⟨text, htext⟩ := attributesText_cons_append b bs s
      have hblank : r = ' ' :: text := h.trans htext
      rw [hblank, boundary_cons] at hr
      cases hr
  | cons a as ih =>
    cases bs with
    | nil =>
      obtain ⟨text, htext⟩ := attributesText_cons_append a as r
      have hblank : s = ' ' :: text := h.symm.trans htext
      rw [hblank, boundary_cons] at hs
      cases hs
    | cons b bs =>
      rw [List.forall_mem_cons] at ha hb
      rw [attributesText_cons, attributesText_cons, List.append_assoc, List.append_assoc] at h
      obtain ⟨rfl, hmore⟩ := attributeText_append_inj ha.1 hb.1 h
      obtain ⟨rfl, hrest⟩ := ih ha.2 hb.2 hmore
      exact ⟨rfl, hrest⟩

/-- A tag and its attributes have names. -/
structure HasNames (tag : String) (attributes : List (String × String)) : Prop where
  tag : IsName tag
  attributes : ∀ a ∈ attributes, IsName a.1

/-- A tag as it is written, with its attributes behind it. -/
theorem toList_tagText (tag : String) (attributes : List (String × String)) :
    (tagText tag attributes).toList = tag.toList ++ attributesText attributes := by
  rw [tagText, String.toList_append, String.toList_join, List.flatMap_map]
  rfl

/-- What may stand behind the name and the attributes of a tag. -/
abbrev TagEnd (rest : List Char) : Prop := Boundary (fun c => c == ' ' || c.isAlpha) rest

/-- The letters of a tag end where the attributes begin, or the tag does. -/
theorem boundary_attributesText {attributes : List (String × String)} {rest : List Char}
    (h : TagEnd rest) : Boundary Char.isAlpha (attributesText attributes ++ rest) := by
  cases attributes with
  | nil => exact h.mono fun c hc => by simp [hc]
  | cons a more =>
    obtain ⟨text, htext⟩ := attributesText_cons_append a more rest
    rw [htext, boundary_cons]
    rfl

/-- A written tag determines its name and attributes. -/
theorem tagText_append_inj {t u : String} {as bs : List (String × String)} {r s : List Char}
    (ht : HasNames t as) (hu : HasNames u bs) (hr : TagEnd r) (hs : TagEnd s)
    (h : (tagText t as).toList ++ r = (tagText u bs).toList ++ s) : t = u ∧ as = bs ∧ r = s := by
  rw [toList_tagText, toList_tagText, List.append_assoc, List.append_assoc] at h
  obtain ⟨htag, hmore⟩ :=
    ht.tag.append_inj hu.tag (boundary_attributesText hr) (boundary_attributesText hs) h
  have hblank : ∀ c : Char, (c == ' ') = true → (c == ' ' || c.isAlpha) = true := by
    intro c hc
    simp [hc]
  exact ⟨htag, attributesText_append_inj ht.attributes hu.attributes (hr.mono hblank)
    (hs.mono hblank) hmore⟩

/-! ## Elements -/

namespace Element

/-- All tags and attributes in an element have names. -/
inductive WellNamed : Element → Prop
  | leaf {tag : String} {attributes : List (String × String)} : HasNames tag attributes →
      WellNamed (leaf tag attributes)
  | node {tag : String} {attributes : List (String × String)} {children : List Element} :
      HasNames tag attributes → (∀ e ∈ children, WellNamed e) →
      WellNamed (node tag attributes children)

/-- The tag of an element. -/
def tag : Element → String
  | leaf tag _ => tag
  | node tag _ _ => tag

/-- The attributes of an element. -/
def attributes : Element → List (String × String)
  | leaf _ attributes => attributes
  | node _ attributes _ => attributes

/-- What is written of an element behind its tag and attributes. -/
def afterTag (depth : Nat) : Element → List Char
  | leaf _ _ => ['/', '>', '\n']
  | node tag _ children =>
    '>' :: '\n' :: ((renderAll (depth + 1) children).toList ++
      ((indent depth).toList ++ '<' :: '/' :: (tag.toList ++ ['>', '\n'])))

/-- An element as it is written: the blanks of its depth, its tag, and what comes behind. -/
theorem toList_render (depth : Nat) (e : Element) : (e.render depth).toList =
    (indent depth).toList ++ '<' :: ((tagText e.tag e.attributes).toList ++ e.afterTag depth) := by
  cases e with
  | leaf tag attributes => simp [render, Element.tag, Element.attributes, afterTag]
  | node tag attributes children => simp [render, Element.tag, Element.attributes, afterTag]

/-- The tag and the attributes of a well-named element have names. -/
theorem WellNamed.hasNames {e : Element} (h : e.WellNamed) : HasNames e.tag e.attributes := by
  cases h with
  | leaf h => exact h
  | node h _ => exact h

/-- What comes behind a tag ends it. -/
theorem tagEnd_afterTag (depth : Nat) (e : Element) (rest : List Char) :
    TagEnd (e.afterTag depth ++ rest) := by
  cases e with
  | leaf tag attributes => exact boundary_cons.mpr rfl
  | node tag attributes children => exact boundary_cons.mpr rfl

/-- The first line of an element gives its tag and its attributes. -/
theorem tag_of_render_append {depth : Nat} {e f : Element} {r s : List Char} (he : e.WellNamed)
    (hf : f.WellNamed) (h : (e.render depth).toList ++ r = (f.render depth).toList ++ s) :
    e.tag = f.tag ∧ e.attributes = f.attributes ∧
      e.afterTag depth ++ r = f.afterTag depth ++ s := by
  simp only [toList_render, List.append_assoc, List.cons_append, List.append_cancel_left_eq,
    List.cons.injEq, true_and] at h
  exact tagText_append_inj he.hasNames hf.hasNames (tagEnd_afterTag depth e r)
    (tagEnd_afterTag depth f s) h

/-- The lines of an element begin with the blanks of its depth. -/
theorem indent_isPrefix_render (depth : Nat) (e : Element) :
    (indent depth).toList <+: (e.render depth).toList := by
  rw [toList_render]
  exact List.prefix_append _ _

/-- The line that closes an element is no line of a child. -/
theorem not_indent_isPrefix (depth : Nat) (rest : List Char) :
    ¬ (indent (depth + 1)).toList <+: (indent depth).toList ++ '<' :: rest := by
  intro h
  have hindent : (indent (depth + 1)).toList = (indent depth).toList ++ [' ', ' '] := by
    have hblanks := List.replicate_append_replicate (n := 2 * depth) (m := 2) (a := ' ')
    simp only [indent, String.toList_ofList]
    exact hblanks.symm
  rw [hindent, List.prefix_append_right_inj, List.cons_prefix_cons] at h
  exact absurd h.1 (by decide)

/-- Several elements are determined by their lines if each of them is, and if what follows them is
no further element. -/
theorem renderAll_append_inj {depth : Nat} {es fs : List Element} {r s : List Char}
    (hes : ∀ e ∈ es, ∀ {f : Element} {r s : List Char}, f.WellNamed →
      (e.render depth).toList ++ r = (f.render depth).toList ++ s → e = f ∧ r = s)
    (hfs : ∀ f ∈ fs, f.WellNamed) (hr : ¬ (indent depth).toList <+: r)
    (hs : ¬ (indent depth).toList <+: s)
    (h : (renderAll depth es).toList ++ r = (renderAll depth fs).toList ++ s) :
    es = fs ∧ r = s := by
  have hstart : ∀ (e : Element) (rest : List Char),
      (indent depth).toList <+: (e.render depth).toList ++ rest := fun e rest =>
    (indent_isPrefix_render depth e).trans (List.prefix_append _ _)
  -- Whether one more element follows shows in the blanks of the depth.
  induction es generalizing fs with
  | nil =>
    cases fs with
    | nil => exact ⟨rfl, by simpa [renderAll] using h⟩
    | cons f fs =>
      simp only [renderAll, String.toList_append, List.append_assoc, String.toList_empty,
        List.nil_append] at h
      rw [h] at hr
      exact absurd (hstart f _) hr
  | cons e es ih =>
    cases fs with
    | nil =>
      simp only [renderAll, String.toList_append, List.append_assoc, String.toList_empty,
        List.nil_append] at h
      rw [← h] at hs
      exact absurd (hstart e _) hs
    | cons f fs =>
      rw [List.forall_mem_cons] at hes hfs
      simp only [renderAll, String.toList_append, List.append_assoc] at h
      obtain ⟨rfl, hmore⟩ := hes.1 hfs.1 h
      obtain ⟨rfl, hrest⟩ := ih hes.2 hfs.2 hmore
      exact ⟨rfl, hrest⟩

/-- An element and its end are determined by its lines. -/
theorem render_append_inj {depth : Nat} {e f : Element} {r s : List Char} (he : e.WellNamed)
    (hf : f.WellNamed) (h : (e.render depth).toList ++ r = (f.render depth).toList ++ s) :
    e = f ∧ r = s := by
  induction he generalizing depth f r s with
  | @leaf t as ht =>
    obtain ⟨htag, hattributes, hend⟩ := tag_of_render_append (.leaf ht) hf h
    cases hf with
    | @leaf u bs hu =>
      cases htag
      cases hattributes
      exact ⟨rfl, List.append_cancel_left hend⟩
    | @node u bs fs hu hfs => exact absurd (List.cons.inj hend).1 (by decide)
  | @node t as es ht hes ih =>
    obtain ⟨htag, hattributes, hend⟩ := tag_of_render_append (.node ht hes) hf h
    cases hf with
    | @leaf u bs hu => exact absurd (List.cons.inj hend).1 (by decide)
    | @node u bs fs hu hfs =>
      cases htag
      cases hattributes
      simp only [afterTag, List.cons_append, List.append_assoc, List.cons.injEq, true_and] at hend
      -- The closing line ends the children; its tag is known by now and only gives the rest.
      obtain ⟨rfl, hclose⟩ := renderAll_append_inj (fun e he => ih e he) hfs
        (not_indent_isPrefix depth _) (not_indent_isPrefix depth _) hend
      simp only [List.append_cancel_left_eq, List.cons.injEq, List.nil_append, true_and] at hclose
      exact ⟨rfl, hclose⟩

end Element

/-- **A document determines its root element.** -/
theorem document_inj {e f : Element} (he : e.WellNamed) (hf : f.WellNamed)
    (h : document e = document f) : e = f := by
  have hroot : e.render 0 = f.render 0 := (String.append_right_inj _).mp h
  have hlines : (e.render 0).toList ++ [] = (f.render 0).toList ++ [] := by rw [hroot]
  exact (Element.render_append_inj he hf hlines).1

end ApiSurface.Xml
