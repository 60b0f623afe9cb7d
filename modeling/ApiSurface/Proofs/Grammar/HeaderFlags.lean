import ApiSurface.Proofs.Grammar.TypeCanonical
import ApiSurface.Proofs.Grammar.WellFormed

/-!
# What a header says

In front of a declaration stand annotations, modifier keywords and lists of type parameters, mixed
in any order. The keywords and the entries of the lists are kept as texts in one list, and a header
tells them apart by their spelling. It tells them apart rightly: a flag or a visibility comes from a
modifier keyword in the source and from nothing else, and a type parameter from an entry of a list
(`header_shows`).

Two facts carry this. The text of an entry is scanned into tokens of the kinds that it was read
from, and these begin with an identifier or a question mark, so that no entry spells a keyword
(`entry_ne_word`). And no modifier stands in a list of type parameters or in the name of an
annotation (`eq_modifier_of_part`), so that the elements of annotations are the only place where
modifiers do not count.
-/

namespace ApiSurface

open Phrase Derives Grammar

/-! ## The parts of a header -/

/-- A part of a header, with the tokens of it that are not elements of an annotation. -/
inductive FrontPart where
  | annotated (name : String) (tokens : List Token)
  | modifier (token : Token)
  | generics (tokens : List Token) (entries : List String)
deriving DecidableEq, Repr

namespace FrontPart

/-- The tokens of the part, without the elements of an annotation. -/
def outside : FrontPart → List Token
  | annotated _ tokens => tokens
  | modifier token => [token]
  | generics tokens _ => tokens

/-- The dotted name, if the part is an annotation. -/
def name? : FrontPart → Option String
  | annotated name _ => some name
  | _ => none

/-- The entries, if the part is a list of type parameters. -/
def entries : FrontPart → List String
  | generics _ entries => entries
  | _ => []

/-- What the part adds to the modifiers. -/
def words : FrontPart → List String
  | annotated _ _ => []
  | modifier token => [token.lexeme]
  | generics _ entries => entries

/-- The part as an item of a header. -/
def item : FrontPart → HeaderItem
  | annotated name _ => .annotated name
  | modifier token => .modifiers [token.lexeme]
  | generics _ entries => .modifiers entries

end FrontPart

/-- The words of each part of a header -/
inductive Part : List Token → FrontPart → Prop
  | annotated {t : Token} {w v : List Token} {x : String} {e : Option Unit} :
      t.kind = .symbol .atSign → DottedName w x → Optional (Elements .committed) v e →
      Part (t :: (w ++ v)) (.annotated x (t :: w))
  | modifier {t : Token} : t.isModifier = true → Part [t] (.modifier t)
  | generics {w : List Token} {xs : List String} :
      Generics TypeText w xs → Part w (.generics w xs)

/-- The visibility that the token stands for. -/
def Token.visibility? (t : Token) : Option Visibility :=
  match t.kind with
  | .keyword .publicKw => some .publicAccess
  | .keyword .protectedKw => some .protectedAccess
  | _ => none

/-- The header says what its parts say. -/
structure Header.Shows (h : Header) (parts : List FrontPart) : Prop where
  /-- A flag is set by a modifier keyword outside the elements of annotations. -/
  keyword : ∀ k ∈ Keyword.modifiers,
    h.hasKeyword k = true ↔ ∃ t ∈ parts.flatMap FrontPart.outside, t.kind = .keyword k
  /-- Such a keyword is a part of its own. -/
  alone : ∀ p ∈ parts, ∀ t ∈ p.outside, t.isModifier = true → p = .modifier t
  /-- The visibility is that of the first keyword for one. -/
  visibility : h.visibility = (parts.flatMap FrontPart.outside).findSome? Token.visibility?
  /-- The declaration is deprecated by one of two annotations. -/
  deprecated : h.deprecated = "Deprecated" ↔
    ∃ x ∈ parts.filterMap FrontPart.name?, x = "Deprecated" ∨ x = "java.lang.Deprecated"
  /-- The type parameters are the entries with a point or an angle bracket. -/
  typeParameters : h.typeParameters =
    ((parts.flatMap FrontPart.entries).filter fun x =>
      '.' ∈ x.toList ∨ '<' ∈ x.toList ∨ '>' ∈ x.toList).map TypeParameter.ofDeclaration

namespace Grammar

open Rule

/-! ## Tokens without modifiers -/

/-- No token of the word is a modifier. -/
def Unmodified (w : List Token) : Prop := ∀ t ∈ w, t.isModifier = false

/-- A joined word has no modifier if neither part has one. -/
theorem unmodified_append {w v : List Token} : Unmodified (w ++ v) ↔ Unmodified w ∧ Unmodified v :=
  List.forall_mem_append

/-- A word has no modifier if the first token and the others are none. -/
theorem unmodified_cons {t : Token} {w : List Token} :
    Unmodified (t :: w) ↔ t.isModifier = false ∧ Unmodified w :=
  List.forall_mem_cons

/-- The empty word has no modifier. -/
theorem unmodified_nil : Unmodified [] := List.forall_mem_nil _

/-- A symbol is no modifier. -/
theorem isModifier_of_symbol {t : Token} {s : Symbol} (ht : t.kind = .symbol s) :
    t.isModifier = false := by
  rw [Token.isModifier, ht]

section

variable {w : List Token}

/-- Words with symbols between them have no modifier if none of them has. -/
theorem unmodified_separated {α : Type} {s : Symbol} {P : Phrase α} {as : List α}
    (hP : ∀ ⦃w a⦄, P w a → Unmodified w) (h : Separated s P w as) : Unmodified w := by
  induction h with
  | one hw => exact hP hw
  | more hw ht _ ih =>
    exact unmodified_append.mpr ⟨hP hw, unmodified_cons.mpr ⟨isModifier_of_symbol ht, ih⟩⟩

/-- A dotted name has no modifier. -/
theorem unmodified_dottedName {x : String} (h : DottedName w x) : Unmodified w := by
  obtain ⟨hxs⟩ := h
  refine unmodified_separated ?_ hxs
  rintro _ x ⟨ht⟩
  refine unmodified_cons.mpr ⟨?_, unmodified_nil⟩
  rw [Token.isModifier, ht]

/-- Suffixes have no modifier. -/
theorem unmodified_suffixes {ss : List String} (h : Repeated Suffix w ss) : Unmodified w := by
  induction h with
  | nil => exact unmodified_nil
  | cons hs _ ih =>
    refine unmodified_append.mpr ⟨?_, ih⟩
    rcases hs with ⟨ht, hu⟩ | ht
    · exact unmodified_cons.mpr ⟨isModifier_of_symbol ht,
        unmodified_cons.mpr ⟨isModifier_of_symbol hu, unmodified_nil⟩⟩
    · exact unmodified_cons.mpr ⟨isModifier_of_symbol ht, unmodified_nil⟩

section

variable {T : Phrase String} (hT : ∀ ⦃w x⦄, T w x → Unmodified w)
include hT

/-- A bound has no modifier if the types inside have none. -/
theorem unmodified_bound {b : Option String} (h : Optional (Bound T) w b) : Unmodified w := by
  rcases h with _ | ⟨ht, hxs⟩ | ⟨ht, hx⟩
  · exact unmodified_nil
  · refine unmodified_cons.mpr ⟨?_, unmodified_separated hT hxs⟩
    rw [Token.isModifier, ht]
    rfl
  · refine unmodified_cons.mpr ⟨?_, hT hx⟩
    rw [Token.isModifier, ht]
    rfl

/-- A list of arguments has no modifier if the types inside have none. -/
theorem unmodified_generics {xs : List String} (h : Generics T w xs) : Unmodified w := by
  obtain ⟨ht, hxs, hu⟩ := h
  have hargument : ∀ ⦃w x⦄, Argument T w x → Unmodified w := by
    rintro w x (⟨hq, hb⟩ | ⟨hx, hb⟩)
    · exact unmodified_cons.mpr ⟨isModifier_of_symbol hq, unmodified_bound hT hb⟩
    · exact unmodified_append.mpr ⟨hT hx, unmodified_bound hT hb⟩
  refine unmodified_cons.mpr ⟨isModifier_of_symbol ht, unmodified_append.mpr ⟨?_, ?_⟩⟩
  · exact unmodified_separated hargument hxs
  · exact unmodified_cons.mpr ⟨isModifier_of_symbol hu, unmodified_nil⟩

/-- A reference has no modifier if the types inside have none. -/
theorem unmodified_reference {x : String} (h : Reference T w x) : Unmodified w := by
  obtain ⟨hn, hg, hs⟩ := h
  refine unmodified_append.mpr ⟨unmodified_dottedName hn, unmodified_append.mpr ⟨?_, ?_⟩⟩
  · cases hg with
    | absent => exact unmodified_nil
    | present hg => exact unmodified_generics hT hg
  · exact unmodified_suffixes hs

end

/-- A type has no modifier. -/
theorem unmodified_typeText {x : String} (h : TypeText w x) : Unmodified w :=
  typeText_induction (P := fun w _ => Unmodified w)
    (fun _ _ => unmodified_reference fun _ _ h => h) h

/-- A modifier outside the elements of annotations is a part of its own. -/
theorem eq_modifier_of_part {p : FrontPart} (h : Part w p) :
    ∀ t ∈ p.outside, t.isModifier = true → p = .modifier t := by
  intro t hmem ht
  have hnot : Unmodified p.outside → p = .modifier t := fun hplain => by
    rw [hplain t hmem] at ht
    cases ht
  cases h with
  | annotated hat hname _ =>
    exact hnot (unmodified_cons.mpr ⟨isModifier_of_symbol hat, unmodified_dottedName hname⟩)
  | modifier _ => rw [List.mem_singleton.mp hmem]
  | generics hlist => exact hnot (unmodified_generics (fun _ _ => unmodified_typeText) hlist)

/-! ## Entries that spell keywords -/

/-- The word of a keyword is read as the keyword. -/
theorem readAs_keyword (k : Keyword) : ReadAs k.word.toList [.keyword k] := by
  have hletters : k.word.toList.all isWordStart = true := by cases k <;> decide
  have hkind : TokenKind.ofWord (String.ofList k.word.toList) = .keyword k := by
    rw [String.ofList_toList, TokenKind.ofWord, Keyword.ofWord?_word]
  have hne : k.word.toList ≠ [] := by cases k <;> decide
  obtain ⟨c, cs, hword⟩ := List.exists_cons_of_ne_nil hne
  rw [hword] at hletters hkind ⊢
  rw [← hkind]
  exact readAs_letters hletters

/-- A type is read as the tokens that it was made of. -/
theorem rendered_typeText {x : String} (h : TypeText w x) : Rendered w x :=
  typeText_induction (fun _ _ => rendered_reference fun _ _ h => h) h

/-- An argument begins with a question mark or with the name of its type. -/
theorem argument_begins : Begins (Argument TypeText) (nameOr [.symbol .question]) := by
  rintro w x (⟨ht, _⟩ | ⟨hx, _⟩)
  · exact ⟨_, _, rfl, by rw [ht]; rfl⟩
  · obtain ⟨t, v, rfl, ht⟩ := typeText_begins hx
    exact ⟨t, _, rfl, nameOr_of_isName _ _ ht⟩

/-- No entry of a list spells a keyword. -/
theorem entry_ne_word {xs : List String} (h : Generics TypeText w xs) (hw : Worded w) {x : String}
    (hx : x ∈ xs) (k : Keyword) : x ≠ k.word := by
  rintro rfl
  obtain ⟨ht, hxs, hu⟩ := h
  obtain ⟨v, hv, hentry⟩ := exists_sublist_of_separated hxs hx
  have hworded : Worded v := fun t ht =>
    hw t (List.mem_cons_of_mem _ (List.mem_append_left _ (hv.subset ht)))
  have hread := rendered_argument (fun _ _ => rendered_typeText) hentry hworded
  -- The word is scanned into one token, and its kind would be both a keyword and not one.
  obtain ⟨ts, e, hscan, hkinds, -⟩ := hread.scan
  obtain ⟨ts', e', hscan', hkinds', -⟩ := (readAs_keyword k).scan
  rw [hscan, Except.ok.injEq] at hscan'
  obtain ⟨rfl, -⟩ := List.append_inj' hscan' rfl
  rw [hkinds] at hkinds'
  obtain ⟨t, u, rfl, hbegin⟩ := argument_begins hentry
  rw [List.map_cons, List.cons.injEq] at hkinds'
  rw [hkinds'.1] at hbegin
  cases hbegin

/-! ## The parts, one by one -/

/-- The tokens of the word are spelled as their kinds are, and its identifiers are words. -/
structure Legible (w : List Token) : Prop where
  worded : Worded w
  lexeme_eq : ∀ t ∈ w, t.lexeme.toList = t.kind.spelling

/-- Some tokens of a legible word are legible. -/
theorem Legible.of_subset {v : List Token} (h : Legible w) (hv : v ⊆ w) : Legible v :=
  ⟨fun t ht => h.worded t (hv ht), fun t ht => h.lexeme_eq t (hv ht)⟩

/-- A keyword in a legible word is spelled as its word. -/
theorem Legible.lexeme_keyword (h : Legible w) {t : Token} (ht : t ∈ w) {k : Keyword}
    (hk : t.kind = .keyword k) : t.lexeme = k.word := by
  apply String.toList_inj.mp
  rw [h.lexeme_eq t ht, hk]
  rfl

/-- Keywords have different words. -/
theorem word_injective {k l : Keyword} (h : k.word = l.word) : k = l := by
  have hfound := Keyword.ofWord?_word k
  rw [h, Keyword.ofWord?_word] at hfound
  exact (Option.some.inj hfound).symm

/-- A token is a modifier if its keyword is one. -/
theorem isModifier_of_kind {t : Token} {k : Keyword} (hk : k ∈ Keyword.modifiers)
    (ht : t.kind = .keyword k) : t.isModifier = true := by
  rw [Token.isModifier, ht]
  exact List.contains_iff_mem.mpr hk

section

variable {p : FrontPart} (hp : Part w p) (hw : Legible w)
include hp hw

/-- A part adds the word for a modifier exactly if that modifier stands in it. -/
theorem word_mem_words {k : Keyword} (hk : k ∈ Keyword.modifiers) :
    k.word ∈ p.words ↔ ∃ t ∈ p.outside, t.kind = .keyword k := by
  constructor
  · intro hword
    cases hp with
    | annotated _ _ _ => cases hword
    | @modifier t ht =>
      obtain ⟨l, -, hl⟩ := kind_of_isModifier ht
      have hlexeme := hw.lexeme_keyword List.mem_cons_self hl
      have hsame : k.word = l.word := (List.mem_singleton.mp hword).trans hlexeme
      exact ⟨t, List.mem_cons_self, by rw [hl, word_injective hsame]⟩
    | generics hlist => exact absurd rfl (entry_ne_word hlist hw.worded hword k)
  · rintro ⟨t, ht, hkind⟩
    obtain rfl := eq_modifier_of_part hp t ht (isModifier_of_kind hk hkind)
    cases hp with
    | modifier _ =>
      rw [← hw.lexeme_keyword List.mem_cons_self hkind]
      exact List.mem_cons_self

/-- The first visibility among the words of a part is the first among its tokens. -/
theorem visibility_of_part :
    p.words.findSome? Visibility.ofWord? = p.outside.findSome? Token.visibility? := by
  -- Only a modifier shows a visibility, and no other part is read as the word for one.
  have hplain : ∀ {v : List Token}, Unmodified v → v.findSome? Token.visibility? = none := by
    intro v hv
    refine List.findSome?_eq_none_iff.mpr fun t ht => ?_
    have hnot := hv t ht
    unfold Token.visibility?
    split
    · rw [isModifier_of_kind (k := .publicKw) (by decide) ‹_›] at hnot
      cases hnot
    · rw [isModifier_of_kind (k := .protectedKw) (by decide) ‹_›] at hnot
      cases hnot
    · rfl
  cases hp with
  | annotated hat hname _ =>
    exact (hplain (unmodified_cons.mpr
      ⟨isModifier_of_symbol hat, unmodified_dottedName hname⟩)).symm
  | @modifier t ht =>
    obtain ⟨k, -, hk⟩ := kind_of_isModifier ht
    show [t.lexeme].findSome? _ = [t].findSome? _
    rw [hw.lexeme_keyword List.mem_cons_self hk, List.findSome?_singleton,
      List.findSome?_singleton, Token.visibility?, hk]
    cases k <;> rfl
  | generics hlist =>
    refine Eq.trans ?_ (hplain (unmodified_generics (fun _ _ => unmodified_typeText) hlist)).symm
    refine List.findSome?_eq_none_iff.mpr fun x hx => ?_
    have hpublic : x ≠ "public" := entry_ne_word hlist hw.worded hx .publicKw
    have hprotected : x ≠ "protected" := entry_ne_word hlist hw.worded hx .protectedKw
    rw [Visibility.ofWord?, if_neg hpublic, if_neg hprotected]

/-- Only the entries of a list are told for type parameters. -/
theorem entries_of_part :
    p.words.filter isTypeParameterEntry = p.entries.filter isTypeParameterEntry := by
  cases hp with
  | annotated _ _ _ => rfl
  | @modifier t ht =>
    obtain ⟨k, -, hk⟩ := kind_of_isModifier ht
    have hplain : isTypeParameterEntry k.word = false := by cases k <;> decide
    show [t.lexeme].filter _ = []
    rw [hw.lexeme_keyword List.mem_cons_self hk, List.filter_singleton, hplain]
    rfl
  | generics _ => rfl

end

end

/-! ## Whole headers -/

/-- The annotations of a header are the names of its parts. -/
theorem annotations_ofItems (parts : List FrontPart) :
    (Header.ofItems (parts.map FrontPart.item)).annotations = parts.filterMap FrontPart.name? := by
  induction parts with
  | nil => rfl
  | cons p parts ih =>
    cases p with
    | annotated x _ => exact congrArg (x :: ·) ih
    | modifier _ => exact ih
    | generics _ _ => exact ih

/-- The modifiers of a header are the words of its parts. -/
theorem modifiers_ofItems (parts : List FrontPart) :
    (Header.ofItems (parts.map FrontPart.item)).modifiers = parts.flatMap FrontPart.words := by
  induction parts with
  | nil => rfl
  | cons p parts ih =>
    cases p with
    | annotated _ _ => exact ih
    | modifier t => exact congrArg (t.lexeme :: ·) ih
    | generics _ xs => exact congrArg (xs ++ ·) ih

/-- Joined lists are searched alike if their parts are. -/
theorem findSome?_flatMap_congr {α β γ δ : Type} {as : List α} {f : α → List β} {g : α → List γ}
    {p : β → Option δ} {q : γ → Option δ}
    (h : ∀ a ∈ as, (f a).findSome? p = (g a).findSome? q) :
    (as.flatMap f).findSome? p = (as.flatMap g).findSome? q := by
  induction as with
  | nil => rfl
  | cons a as ih =>
    obtain ⟨ha, hmore⟩ := List.forall_mem_cons.mp h
    rw [List.flatMap_cons, List.flatMap_cons, List.findSome?_append, List.findSome?_append, ha,
      ih hmore]

/-- An entry is a type parameter if it has a point or an angle bracket in it. -/
theorem isTypeParameterEntry_eq (x : String) :
    isTypeParameterEntry x = decide ('.' ∈ x.toList ∨ '<' ∈ x.toList ∨ '>' ∈ x.toList) := by
  apply Bool.eq_iff_iff.mpr
  simp only [isTypeParameterEntry, List.any_eq_true, Bool.or_eq_true, beq_iff_eq, decide_eq_true_eq]
  constructor
  · rintro ⟨c, hc, (rfl | rfl) | rfl⟩
    · exact .inl hc
    · exact .inr (.inl hc)
    · exact .inr (.inr hc)
  · rintro (hc | hc | hc)
    · exact ⟨_, hc, .inl (.inl rfl)⟩
    · exact ⟨_, hc, .inl (.inr rfl)⟩
    · exact ⟨_, hc, .inr rfl⟩

/-- A header has a keyword if its word is among the modifiers. -/
theorem hasKeyword_iff (h : Header) (k : Keyword) :
    h.hasKeyword k = true ↔ k.word ∈ h.modifiers := by
  have hplain : isTypeParameterEntry k.word = false := by cases k <;> decide
  simp only [Header.hasKeyword, Header.has, List.any_eq_true, Bool.and_eq_true, beq_iff_eq]
  constructor
  · rintro ⟨x, hx, -, rfl⟩
    exact hx
  · intro hk
    exact ⟨k.word, hk, by rw [hplain]; rfl, rfl⟩

/-- A declaration is deprecated by an annotation of one of two names. -/
theorem deprecation_eq_iff (names : List String) :
    deprecation names = "Deprecated" ↔
      ∃ x ∈ names, x = "Deprecated" ∨ x = "java.lang.Deprecated" := by
  have hany : (names.any fun name => name == "Deprecated" || name == "java.lang.Deprecated") = true
      ↔ ∃ x ∈ names, x = "Deprecated" ∨ x = "java.lang.Deprecated" := by
    simp [List.any_eq_true]
  rw [← hany, deprecation]
  split_ifs with hdeprecated
  · exact iff_of_true rfl hdeprecated
  · exact iff_of_false (by decide) hdeprecated

/-- The header made of some parts says what they say. -/
theorem shows_ofItems {w : List Token} {parts : List FrontPart} (h : Repeated Part w parts)
    (hw : Legible w) : (Header.ofItems (parts.map FrontPart.item)).Shows parts := by
  -- All that a header says is gathered part by part, and so is what its tokens show.
  have hpart : ∀ p ∈ parts, ∃ v, Legible v ∧ Part v p := by
    intro p hp
    obtain ⟨v, hv, hpart⟩ := exists_sublist_of_repeated h hp
    exact ⟨v, hw.of_subset hv.subset, hpart⟩
  constructor
  case keyword =>
    intro k hk
    rw [hasKeyword_iff, modifiers_ofItems, List.mem_flatMap]
    constructor
    · rintro ⟨p, hp, hword⟩
      obtain ⟨v, hv, hpart⟩ := hpart p hp
      obtain ⟨t, ht, hkind⟩ := (word_mem_words hpart hv hk).mp hword
      exact ⟨t, List.mem_flatMap.mpr ⟨p, hp, ht⟩, hkind⟩
    · rintro ⟨t, ht, hkind⟩
      obtain ⟨p, hp, ht⟩ := List.mem_flatMap.mp ht
      obtain ⟨v, hv, hpart⟩ := hpart p hp
      exact ⟨p, hp, (word_mem_words hpart hv hk).mpr ⟨t, ht, hkind⟩⟩
  case alone =>
    intro p hp
    obtain ⟨v, -, hpart⟩ := hpart p hp
    exact eq_modifier_of_part hpart
  case visibility =>
    rw [Header.visibility, modifiers_ofItems]
    refine findSome?_flatMap_congr fun p hp => ?_
    obtain ⟨v, hv, hpart⟩ := hpart p hp
    exact visibility_of_part hpart hv
  case deprecated =>
    rw [Header.deprecated, annotations_ofItems]
    exact deprecation_eq_iff _
  case typeParameters =>
    rw [Header.typeParameters, modifiers_ofItems, List.filter_flatMap]
    simp only [← isTypeParameterEntry_eq, List.filter_flatMap]
    congr 1
    refine List.flatMap_congr fun p hp => ?_
    obtain ⟨v, hv, hpart⟩ := hpart p hp
    exact entries_of_part hpart hv

/-- The items that are derived are those of some parts. -/
theorem exists_parts {w : List Token} {items : List HeaderItem}
    (h : Repeated (FrontItem .committed) w items) :
    ∃ parts, Repeated Part w parts ∧ parts.map FrontPart.item = items := by
  induction h with
  | nil => exact ⟨[], .nil, rfl⟩
  | cons hitem _ ih =>
    obtain ⟨parts, hparts, rfl⟩ := ih
    cases hitem with
    | annotated hw =>
      obtain ⟨hat, hname, helements⟩ := hw
      exact ⟨_, .cons (.annotated hat hname helements) hparts, rfl⟩
    | modifier ht => exact ⟨_, .cons (.modifier ht) hparts, rfl⟩
    | generics hlist => exact ⟨_, .cons (.generics hlist) hparts, rfl⟩

/-- A part of a header is an item of it. -/
theorem frontItem_of_part {w : List Token} {p : FrontPart} (h : Part w p) :
    FrontItem .committed w p.item := by
  cases h with
  | annotated hat hname helements => exact .annotated (.mk hat hname helements)
  | modifier ht => exact .modifier ht
  | generics hlist => exact .generics hlist

/-- A word has one header. -/
theorem front_unique {w : List Token} {h h' : Header} (hw : Front .committed w h)
    (hw' : Front .committed w h') : h = h' := by
  have hon := complete_header _ hw (stops_nil _) (Nat.lt_succ_self _)
  rw [complete_header _ hw' (stops_nil _) (Nat.lt_succ_self _)] at hon
  exact (Prod.mk.inj (Option.some.inj hon)).1.symm

/-- **Flags come from modifier keywords only.** What is read as a header has parts, and however its
tokens are taken for parts, the header says what these say. -/
theorem header_shows {text : String} {tokens : List Token} (hscan : scan text = .ok tokens)
    {i j : Nat} (hi : i ≤ tokens.length) {h : Header} {alternative : Option Failure}
    (hheader : header tokens.toArray i = .success h j alternative) :
    (∃ parts, Repeated Part (tokens.extract i j) parts) ∧
    ∀ parts, Repeated Part (tokens.extract i j) parts → h.Shows parts := by
  have hlegible : Legible (tokens.extract i j) := by
    have hspelled := spelled_of_scan hscan
    have hall : Legible tokens := ⟨hspelled.worded, hspelled.lexeme_eq⟩
    exact hall.of_subset (extract_sublist tokens i j).subset
  obtain ⟨w, hw, hfront⟩ := sound_header (on_of_success hi hheader)
  obtain rfl : w = tokens.extract i j := List.append_cancel_right hw
  constructor
  · obtain ⟨hitems⟩ := hfront
    obtain ⟨parts, hparts, -⟩ := exists_parts hitems
    exact ⟨parts, hparts⟩
  · intro parts hparts
    have hitems := hparts.map FrontPart.item fun _ _ hpart => frontItem_of_part hpart
    rw [front_unique hfront (.mk hitems)]
    exact shows_ofItems hparts hlegible

/-- The tokens of a header with a modifier among the elements of an annotation. -/
def mixedTokens : List Token :=
  [⟨.symbol .atSign, "@", ⟨1, 1⟩⟩, ⟨.identifier "Deprecated", "Deprecated", ⟨1, 2⟩⟩,
    ⟨.symbol .atSign, "@", ⟨1, 12⟩⟩, ⟨.identifier "B", "B", ⟨1, 13⟩⟩,
    ⟨.symbol .leftParen, "(", ⟨1, 14⟩⟩, ⟨.keyword .staticKw, "static", ⟨1, 15⟩⟩,
    ⟨.symbol .rightParen, ")", ⟨1, 21⟩⟩, ⟨.symbol .less, "<", ⟨1, 22⟩⟩,
    ⟨.identifier "T", "T", ⟨1, 23⟩⟩, ⟨.symbol .comma, ",", ⟨1, 24⟩⟩,
    ⟨.identifier "U", "U", ⟨1, 25⟩⟩, ⟨.keyword .extendsKw, "extends", ⟨1, 27⟩⟩,
    ⟨.identifier "a", "a", ⟨1, 35⟩⟩, ⟨.symbol .dot, ".", ⟨1, 36⟩⟩,
    ⟨.identifier "C", "C", ⟨1, 37⟩⟩, ⟨.symbol .greater, ">", ⟨1, 38⟩⟩,
    ⟨.keyword .finalKw, "final", ⟨1, 39⟩⟩, ⟨.keyword .protectedKw, "protected", ⟨1, 45⟩⟩,
    ⟨.eof, "", ⟨1, 54⟩⟩]

/-- Annotations, type parameters and modifiers in one header, as tokens. -/
theorem scan_mixedTokens :
    scan "@Deprecated@B(static)<T,U extends a.C>final protected" = .ok mixedTokens := by
  decide +kernel

/-- The header is read to its last token. -/
theorem header_mixedTokens :
    header mixedTokens.toArray 0 =
      .success ⟨["Deprecated", "B"], ["T", "U extends a.C", "final", "protected"]⟩ 18
        (some ⟨18, .several⟩) := by
  decide +kernel

/-- A header in which a modifier stands between the parentheses of an annotation. -/
theorem header_shows_mixed :
    scan "@Deprecated@B(static)<T,U extends a.C>final protected" = .ok mixedTokens ∧
    ∃ parts, Repeated Part (mixedTokens.extract 0 18) parts ∧
      Header.Shows ⟨["Deprecated", "B"], ["T", "U extends a.C", "final", "protected"]⟩ parts := by
  obtain ⟨⟨parts, hparts⟩, hshows⟩ :=
    header_shows scan_mixedTokens (Nat.zero_le _) header_mixedTokens
  exact ⟨scan_mixedTokens, parts, hparts, hshows parts hparts⟩

end Grammar

end ApiSurface
