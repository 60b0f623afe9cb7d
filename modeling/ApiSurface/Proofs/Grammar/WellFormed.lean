import ApiSurface.Proofs.Grammar.File
import ApiSurface.Proofs.Token.Lexeme

/-!
# Compile units are well formed

What the compile unit of a text can hold. A name stands alone: scanned by itself, it is one
identifier. So does the value of a field, which is one literal as it is written. What the grammar
fills in is fixed: one of two deprecation texts, the name of a constructor as the name of its type,
and no mark of the compiler on any method or constructor.

These are facts about the tokens first (`Token.Faithful`): the name or the literal that a rule takes
from a token of a scanned text is the lexeme of this token, and a lexeme that stands alone is read
as its token again. The productions carry them to the declarations. The entries of a body are
shorter words than the declaration they stand in, and the induction is on the length of the word.
-/

namespace ApiSurface

open Text Phrase Derives Grammar

/-! ## Well-formed declarations -/

/-- The text is scanned into one token of the given kind, spelled as the text, and the end of the
input. -/
def StandsAlone (kind : TokenKind) (x : String) : Prop :=
  ∃ p q, scan x = .ok [⟨kind, x, p⟩, ⟨.eof, "", q⟩]

/-- The text is a name without points, and no keyword. -/
structure IsSimpleName (x : String) : Prop where
  /-- It is one identifier. -/
  standsAlone : StandsAlone (.identifier x) x
  /-- It is not empty. -/
  ne_empty : x ≠ ""
  /-- It has no point in it. -/
  no_point : '.' ∉ x.toList
  /-- It spells no keyword. -/
  no_keyword : Keyword.ofWord? x = none

/-- The text is one literal: quoted, a number, a truth value or the null reference. -/
inductive IsLiteralText : String → Prop
  | string {content x : String} : StandsAlone (.string content) x → IsLiteralText x
  | character {content x : String} : StandsAlone (.character content) x → IsLiteralText x
  | number {spelling x : String} : StandsAlone (.number spelling) x → IsLiteralText x
  | true {x : String} : StandsAlone (.keyword .trueKw) x → IsLiteralText x
  | false {x : String} : StandsAlone (.keyword .falseKw) x → IsLiteralText x
  | null {x : String} : StandsAlone (.keyword .nullKw) x → IsLiteralText x

/-- The text is one of the two deprecation texts. -/
def IsDeprecation (x : String) : Prop := x = "Deprecated" ∨ x = "not deprecated"

/-- A field as it is declared. -/
structure Field.WellFormed (f : Field) : Prop where
  name : IsSimpleName f.name
  value : ∀ v ∈ f.value, IsLiteralText v
  deprecated : IsDeprecation f.deprecated

/-- A method or constructor as it is declared. -/
structure Callable.WellFormed (c : Callable) : Prop where
  name : IsSimpleName c.name
  parameters : ∀ p ∈ c.parameters, IsSimpleName p.name
  deprecated : IsDeprecation c.deprecated
  isSynthetic : c.isSynthetic = false

/-- The head of a type as it is declared. -/
structure TypeHead.WellFormed (h : TypeHead) : Prop where
  name : IsSimpleName h.name
  deprecated : IsDeprecation h.deprecated

/-- A member as it is declared, and the members inside it. -/
inductive Member.WellFormed : Member → Prop
  | field {f : Field} : f.WellFormed → WellFormed (.field f)
  | method {m : Method} : m.toCallable.WellFormed → WellFormed (.method m)
  | constructor {c : Constructor} : c.toCallable.WellFormed → c.enclosingType = c.name →
      WellFormed (.constructor c)
  | nested {h : TypeHead} {members : List Member} : h.WellFormed →
      (∀ m ∈ members, WellFormed m) → WellFormed (.nested h members)

/-- A type as it is declared, with all that it declares. -/
structure TypeDecl.WellFormed (d : TypeDecl) : Prop where
  head : d.toTypeHead.WellFormed
  members : ∀ m ∈ d.members, m.WellFormed

/-- A compile unit as it is declared. -/
structure CompileUnit.WellFormed (u : CompileUnit) : Prop where
  package : u.package.name = "" ∨
    ∃ xs ≠ [], (∀ x ∈ xs, IsSimpleName x) ∧ u.package.name = ".".intercalate xs
  types : ∀ d ∈ u.package.types, d.WellFormed

/-! ## What tokens say -/

/-- What is taken from the token as a name is a name, and what is taken from it as a literal is a
literal. -/
structure Token.Faithful (t : Token) : Prop where
  name : ∀ x, t.kind = .identifier x → IsSimpleName x
  literal : ∀ x, t.literal? = some x → IsLiteralText x

/-- A lexeme of a kind, as a text of its own, is one token of that kind. -/
theorem standsAlone_of_lexeme {kind : TokenKind} {x : String} (h : Lexeme kind x.toList) :
    StandsAlone kind x :=
  ⟨_, _, scan_lexeme h⟩

/-- The lexeme of an identifier is a simple name. -/
theorem isSimpleName_of_lexeme {x : String} (h : Lexeme (.identifier x) x.toList) :
    IsSimpleName x := by
  obtain ⟨-, hkeyword, c, ds, hx, hc, hds⟩ := h.of_identifier
  refine ⟨standsAlone_of_lexeme h, ?_, ?_, hkeyword⟩
  · rintro rfl
    cases hx
  · rw [hx, List.mem_cons, not_or]
    refine ⟨?_, fun hmem => absurd (hds _ hmem) (by decide +kernel)⟩
    rintro rfl
    exact absurd hc (by decide)

/-- What is taken from a token as a literal is the text of a literal. -/
theorem isLiteralText_of_lexeme {t : Token} {x : String} (ht : Lexeme t.kind t.lexeme.toList)
    (h : t.literal? = some x) : IsLiteralText x := by
  have halone := standsAlone_of_lexeme ht
  unfold Token.literal? at h
  split at h <;> cases h <;> rename_i hkind <;> rw [hkind] at halone
  · exact .string halone
  · exact .character halone
  · exact .number halone
  · exact .null halone
  · exact .true halone
  · exact .false halone

/-- The tokens of a text are faithful. -/
theorem Spelled.faithful {ts : List Token} (h : Spelled ts) : ∀ t ∈ ts, t.Faithful := by
  intro t ht
  refine ⟨fun x hx => isSimpleName_of_lexeme (h.lexeme_of_identifier ht hx), fun x hx => ?_⟩
  rcases h.of_mem t ht with ⟨hkind, -⟩ | hlexeme
  · simp [Token.literal?, hkind] at hx
  · exact isLiteralText_of_lexeme hlexeme hx

/-! ## Words inside words -/

/-- A repeated value is that of a word inside. -/
theorem exists_sublist_of_repeated {α : Type} {P : Phrase α} {w : List Token} {as : List α}
    (h : Repeated P w as) {a : α} (ha : a ∈ as) : ∃ v, v.Sublist w ∧ P v a := by
  induction h with
  | nil => cases ha
  | @cons w v b bs hw _ ih =>
    rcases List.mem_cons.mp ha with rfl | ha
    · exact ⟨w, List.sublist_append_left w v, hw⟩
    · obtain ⟨u, hu, hP⟩ := ih ha
      exact ⟨u, hu.trans (List.sublist_append_right w v), hP⟩

/-- A separated value is that of a word inside. -/
theorem exists_sublist_of_separated {α : Type} {s : Symbol} {P : Phrase α} {w : List Token}
    {as : List α} (h : Separated s P w as) {a : α} (ha : a ∈ as) :
    ∃ v, v.Sublist w ∧ P v a := by
  induction h with
  | @one w b hw =>
    rw [List.mem_singleton.mp ha]
    exact ⟨w, List.Sublist.refl w, hw⟩
  | @more w v t b bs hw _ _ ih =>
    rcases List.mem_cons.mp ha with rfl | ha
    · exact ⟨w, List.sublist_append_left w _, hw⟩
    · obtain ⟨u, hu, hP⟩ := ih ha
      exact ⟨u, (hu.cons t).trans (List.sublist_append_right w _), hP⟩

/-- A value in front of commas is that of a word inside. -/
theorem exists_sublist_of_trailing {α : Type} {P : Phrase α} {w : List Token} {as : List α}
    (h : Trailing P w as) {a : α} (ha : a ∈ as) : ∃ v, v.Sublist w ∧ P v a := by
  cases h with
  | empty => cases ha
  | items h => exact exists_sublist_of_separated h ha
  | comma h _ =>
    obtain ⟨v, hv, hP⟩ := exists_sublist_of_separated h ha
    exact ⟨v, hv.trans (List.sublist_append_left _ _), hP⟩

/-! ## The productions -/

/-- What is given as deprecation is one of its two values. -/
theorem isDeprecation_deprecation (annotations : List String) :
    IsDeprecation (deprecation annotations) := by
  unfold deprecation
  split_ifs
  · exact .inl rfl
  · exact .inr rfl

section

variable {r : Reading} {w : List Token}

/-- The name of a parameter is simple. -/
theorem isSimpleName_of_parameter {p : Parameter} (h : FormalParameter r w p)
    (hw : ∀ t ∈ w, t.Faithful) : IsSimpleName p.name := by
  obtain ⟨_, _, hn⟩ := h
  exact (hw _ (by simp)).name _ hn

/-- The names of parameters are simple. -/
theorem isSimpleName_of_parameters {ps : List Parameter} (h : Parameters r w ps)
    (hw : ∀ t ∈ w, t.Faithful) : ∀ p ∈ ps, IsSimpleName p.name := by
  obtain ⟨_, hps, _⟩ := h
  cases hps with
  | absent => simp
  | present hps =>
    intro p hp
    obtain ⟨v, hv, hparameter⟩ := exists_sublist_of_separated hps hp
    refine isSimpleName_of_parameter hparameter fun t ht => hw t ?_
    have := hv.subset ht
    simp [this]

/-- A callable is well formed if its signature is read from a word. -/
theorem wellFormed_callable {s : Signature} (h : CallableTail r w s) (hw : ∀ t ∈ w, t.Faithful)
    (header : Header) : (header.callable s).WellFormed := by
  obtain @⟨n, x, p, e, z, ps, es, hn, hp, _, _⟩ := h
  refine ⟨(hw n List.mem_cons_self).name x hn, ?_, isDeprecation_deprecation _, rfl⟩
  exact isSimpleName_of_parameters hp fun t ht => hw t (by simp [ht])

/-- The value of a field is the text of a literal. -/
theorem isLiteralText_of_fieldTail {v : Option String} (h : FieldTail w v)
    (hw : ∀ t ∈ w, t.Faithful) : ∀ x ∈ v, IsLiteralText x := by
  cases h with
  | plain _ => simp
  | @literal t v u x _ hx _ =>
    intro y hy
    rw [← Option.mem_some_iff.mp hy]
    exact (hw v (by simp)).literal x hx
  | expression _ _ _ _ => simp

/-- The names of constants are simple. -/
theorem isSimpleName_of_constants {cs : List EnumConstant} (h : Constants r w cs)
    (hw : ∀ t ∈ w, t.Faithful) : ∀ c ∈ cs, IsSimpleName c.name := by
  cases h with
  | list h =>
    intro c hc
    obtain ⟨v, hv, @⟨_, _, _, n, _, _, _, hn, _⟩⟩ := exists_sublist_of_trailing h hc
    exact (hw n (hv.subset (by simp))).name _ hn
  | loneComma _ _ => simp

section

variable {M : Phrase (Option Member)} {n : Nat}
  (hM : ∀ ⦃v m⦄, M v (some m) → v.length < n → (∀ t ∈ v, t.Faithful) → m.WellFormed)
include hM

/-- The entries of a body are well formed, if those of fewer than `n` tokens are. -/
theorem wellFormed_entries {ms : List (Option Member)} (h : Repeated M w ms) (hn : w.length < n)
    (hw : ∀ t ∈ w, t.Faithful) : ∀ m ∈ ms.filterMap id, m.WellFormed := by
  intro m hm
  have hmem : some m ∈ ms := by simpa using hm
  obtain ⟨v, hv, hentry⟩ := exists_sublist_of_repeated h hmem
  exact hM hentry (Nat.lt_of_le_of_lt hv.length_le hn) fun t ht => hw t (hv.subset ht)

/-- The members behind the constants are well formed, if shorter members are. -/
theorem wellFormed_moreMembers {ms : List (Option Member)} (h : MoreMembers M w ms)
    (hn : w.length < n) (hw : ∀ t ∈ w, t.Faithful) : ∀ m ∈ ms.filterMap id, m.WellFormed := by
  cases h with
  | absent => simp
  | present _ h =>
    have hlt := Nat.lt_of_succ_lt hn
    exact wellFormed_entries hM h hlt fun t ht => hw t (List.mem_cons_of_mem _ ht)

/-- A type is well formed, if the entries of fewer tokens are. -/
theorem wellFormed_typeTail {d : Header → TypeDecl} (h : TypeTail r M w d) (hn : w.length ≤ n)
    (hw : ∀ t ∈ w, t.Faithful) (header : Header) : (d header).WellFormed := by
  cases h with
  | @classType k x t u _ _ _ _ v _ _ _ ms _ hx _ _ _ _ hms _ =>
    refine ⟨⟨(hw x (by simp)).name _ hx, isDeprecation_deprecation _⟩, ?_⟩
    exact wellFormed_entries hM hms (by simp at hn; omega) fun t ht => hw t (by simp [ht])
  | @interfaceType k x t u _ _ _ _ v _ _ _ ms _ hx _ _ _ _ hms _ =>
    refine ⟨⟨(hw x (by simp)).name _ hx, isDeprecation_deprecation _⟩, ?_⟩
    exact wellFormed_entries hM hms (by simp at hn; omega) fun t ht => hw t (by simp [ht])
  | @enumType k x t u _ _ c v _ cs ms _ hx _ _ hcs hms _ =>
    refine ⟨⟨(hw x (by simp)).name _ hx, isDeprecation_deprecation _⟩, ?_⟩
    have hconstants := isSimpleName_of_constants hcs fun t ht => hw t (by simp [ht])
    intro m hm
    rcases List.mem_append.mp hm with hm | hm
    · obtain ⟨constant, hconstant, rfl⟩ := List.mem_map.mp hm
      exact .field ⟨hconstants _ hconstant, by simp [EnumConstant.field],
        isDeprecation_deprecation _⟩
    · exact wellFormed_moreMembers hM hms (by simp at hn; omega) (fun t ht => hw t (by simp [ht]))
        m hm

end

/-- A member is well formed. -/
theorem wellFormed_memberEntry {m : Member} (h : MemberEntry r w (some m))
    (hw : ∀ t ∈ w, t.Faithful) : m.WellFormed := by
  -- The entries inside a nested type are words of fewer tokens.
  induction hn : w.length using Nat.strongRecOn generalizing w m with
  | _ n ih =>
    generalize ho : some m = o at h
    cases h with
    | empty _ => cases ho
    | @type f v header d _ htail =>
      cases ho
      obtain ⟨hhead, hmembers⟩ := wellFormed_typeTail (n := n)
        (fun _ _ hentry hlt hv => ih _ hlt hentry hv rfl) htail (by simp at hn; omega)
        (fun t ht => hw t (List.mem_append_right _ ht)) header
      exact .nested hhead hmembers
    | @constructor f v header s _ htail =>
      cases ho
      exact .constructor (wellFormed_callable htail
        (fun t ht => hw t (List.mem_append_right _ ht)) header) rfl
    | @method f ty v header _ s _ _ htail =>
      cases ho
      exact .method (wellFormed_callable htail (fun t ht => hw t (by simp [ht])) header)
    | @field f ty v header _ x t _ _ _ ht htail =>
      cases ho
      exact .field ⟨(hw t (by simp)).name x ht,
        isLiteralText_of_fieldTail htail fun t ht => hw t (by simp [ht]),
        isDeprecation_deprecation _⟩
    | block _ _ => cases ho

/-- A type of a file is well formed. -/
theorem wellFormed_topLevel {d : TypeDecl} (h : TopLevel r w d) (hw : ∀ t ∈ w, t.Faithful) :
    d.WellFormed := by
  obtain @⟨f, v, u, header, d, _, _, htail, _⟩ := h
  exact wellFormed_typeTail (fun _ _ hentry _ hv => wellFormed_memberEntry hentry hv) htail
    (Nat.le_refl _) (fun t ht => hw t (by simp [ht])) header

/-- The name of a package is made of simple names. -/
theorem isSimpleName_of_packageLine {x : String} (h : PackageLine r w x)
    (hw : ∀ t ∈ w, t.Faithful) :
    ∃ xs ≠ [], (∀ y ∈ xs, IsSimpleName y) ∧ x = ".".intercalate xs := by
  obtain ⟨_, _, hname, _⟩ := h
  cases hname with
  | @mk xs hxs =>
    refine ⟨xs, by cases hxs <;> simp, fun y hy => ?_, rfl⟩
    obtain ⟨u, hu, @⟨t, _, ht⟩⟩ := exists_sublist_of_separated hxs hy
    have hmem := hu.subset (List.mem_singleton.mpr rfl)
    exact (hw t (by simp [hmem])).name y ht

/-- A file is well formed if its tokens are faithful. -/
theorem wellFormed_file {u : CompileUnit} (h : File r w u) (hw : ∀ t ∈ w, t.Faithful) :
    u.WellFormed := by
  obtain @⟨p, i, v, e, x, imports, types, hp, _, htypes, _⟩ := h
  constructor
  · cases hp with
    | absent => exact .inl rfl
    | present hp => exact .inr (isSimpleName_of_packageLine hp fun t ht => hw t (by simp [ht]))
  · intro d hd
    obtain ⟨u, hu, htype⟩ := exists_sublist_of_repeated htypes hd
    refine wellFormed_topLevel htype fun t ht => hw t ?_
    simp [hu.subset ht]

end

/-! ## The compile unit of a text -/

/-- What is parsed is read from the tokens of the text. -/
theorem exists_tokens_of_parse {text : String} {u : CompileUnit}
    (h : CompileUnit.parse text = .ok u) :
    ∃ tokens, scan text = .ok tokens ∧ CompileUnit.ofTokens tokens.toArray = .ok u := by
  unfold CompileUnit.parse at h
  split at h
  · next tokens hscan => exact ⟨tokens, hscan, h⟩
  · cases h

/-- What is read from the tokens of a text is well formed. -/
theorem wellFormed_of_tokens {text : String} {tokens : List Token} {u : CompileUnit}
    (hscan : scan text = .ok tokens) (h : CompileUnit.ofTokens tokens.toArray = .ok u) :
    u.WellFormed := by
  obtain ⟨rest, hon⟩ := ofTokens_eq_ok.mp h
  obtain ⟨w, hw, hfile⟩ := sound_compileUnit hon
  refine wellFormed_file hfile fun t ht => ?_
  apply (spelled_of_scan hscan).faithful
  rw [← hw]
  exact List.mem_append_left _ ht

/-- **Compile units are well formed**, at every depth. In the compile unit of any text, every name
of a type, a field, a method, a constructor or a parameter is one identifier when it is scanned
alone, and so is each part of the name of the package; every deprecation text is one of two; a
constructor belongs to the type of its name; nothing is marked as made by a compiler; and the value
of a field is one literal, as it is written. -/
theorem parse_wellFormed {text : String} {u : CompileUnit} (h : CompileUnit.parse text = .ok u) :
    u.WellFormed := by
  obtain ⟨tokens, hscan, htokens⟩ := exists_tokens_of_parse h
  exact wellFormed_of_tokens hscan htokens

/-- An enumeration with a constant, and a constructor and a field inside a nested class. -/
def nestedText : String :=
  "package p.q;enum E\x7bC;class D\x7bD(int n)\x7b\x7dint x=-1;\x7d\x7d"

/-- A file with types inside types, in a package of two names. -/
theorem parse_wellFormed_nested :
    ∃ u, CompileUnit.parse nestedText = .ok u ∧ u.package.name = "p.q" ∧ u.WellFormed := by
  have h : (CompileUnit.parse nestedText).toOption.map (fun u => u.package.name) = some "p.q" := by
    decide +kernel
  rcases hparse : CompileUnit.parse nestedText with e | u
  · rw [hparse] at h
    cases h
  · rw [hparse] at h
    exact ⟨u, rfl, Option.some.inj h, parse_wellFormed hparse⟩

end ApiSurface
