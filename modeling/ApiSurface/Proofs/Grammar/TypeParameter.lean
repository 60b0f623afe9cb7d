import ApiSurface.Model.TypeParameter
import ApiSurface.Proofs.Grammar.TypeCanonical
import ApiSurface.Proofs.Grammar.WellFormed
import ApiSurface.Proofs.Text.Split

/-!
# Type parameters and their declaration texts

The grammar reads a type parameter as a text, and the model takes the text apart again: at the first
` extends ` into a name and its bounds, and these at every ` & `. Both words may stand inside a
bound too, where they belong to the type arguments. The name has no blank in it, so the first
` extends ` is the one behind the name; and as long as no type argument is an intersection, the only
`&` are those between the bounds (`ampersand_of_typeText`).

So a list of type parameters is read as texts from which the model recovers the names and the bounds
that stand in the source (`genericList_declares`).
-/

namespace ApiSurface

open Text

/-! ## Texts of declarations -/

namespace TypeParameter

/-- The text that declares the parameter. -/
def text (p : TypeParameter) : String :=
  match p.bounds with
  | [] => p.name
  | bounds => p.name ++ (" extends " ++ " & ".intercalate bounds)

/-- A name alone declares a parameter without bounds. -/
theorem ofDeclaration_alone {x : String} (hx : Tight x.toList) (hblank : ' ' ∉ x.toList) :
    ofDeclaration x = ⟨x, []⟩ := by
  have hcut : splitFirst? boundWord x.toList = none := splitFirst?_of_not_mem (u := []) hblank
  rw [ofDeclaration, trimmed_of_tight hx]
  simp only [hcut, String.ofList_toList]

/-- A name and bounds declare the parameter of this name with these bounds. -/
theorem ofDeclaration_bounded {x : String} {bounds : List String} (hx : Tight x.toList)
    (hblank : ' ' ∉ x.toList) (hne : bounds ≠ []) (htight : ∀ b ∈ bounds, Tight b.toList)
    (hmark : ∀ b ∈ bounds, '&' ∉ b.toList) :
    ofDeclaration (x ++ (" extends " ++ " & ".intercalate bounds)) = ⟨x, bounds⟩ := by
  have htext : (x ++ (" extends " ++ " & ".intercalate bounds)).toList =
      x.toList ++ boundWord ++ (" & ".intercalate bounds).toList := by
    rw [String.toList_append, String.toList_append, List.append_assoc]
    rfl
  have htrim : trimmed (x.toList ++ boundWord ++ (" & ".intercalate bounds).toList) =
      x.toList ++ boundWord ++ (" & ".intercalate bounds).toList := by
    rw [List.append_assoc]
    exact trimmed_of_tight (hx.around (tight_intercalate hne htight) _)
  have hcut : splitFirst? boundWord (x.toList ++ boundWord ++ (" & ".intercalate bounds).toList) =
      some (x.toList, (" & ".intercalate bounds).toList) :=
    splitFirst?_append (u := []) List.not_mem_nil hblank
  have hpieces : splitAll boundMark (by decide) (" & ".intercalate bounds).toList =
      bounds.map String.toList :=
    splitAll_intercalate (u := [' ']) (by decide) rfl (by decide) hne hmark
  rw [ofDeclaration, htext, htrim]
  simp only [hcut, hpieces, trimmed_pieces htight, trimmed_of_tight hx, String.ofList_toList]

end TypeParameter

/-! ## Characters of references -/

/-- No blank is part of a word. -/
theorem isBlank_of_isWordPart {c : Char} (h : isWordPart c = true) : isBlank c = false := by
  rw [← Bool.not_eq_true]
  intro hblank
  have hletter : isLetter c = false := inRanges_eq_false hblank (by decide +kernel)
  have hnumber : isNumber c = false := inRanges_eq_false hblank (by decide +kernel)
  simp only [isWordPart, hletter, hnumber, Bool.false_or, Bool.or_eq_true, beq_iff_eq] at h
  rcases h with rfl | rfl
  · exact absurd hblank (by decide)
  · exact absurd hblank (by decide)

/-- An identifier is made of word characters. -/
theorem forall_isWordPart_of_lexeme {x : String} (h : Lexeme (.identifier x) x.toList) :
    x.toList ≠ [] ∧ ∀ c ∈ x.toList, isWordPart c = true := by
  obtain ⟨-, -, c, ds, hx, hc, hds⟩ := h.of_identifier
  rw [hx]
  exact ⟨List.cons_ne_nil c ds,
    List.forall_mem_cons.mpr ⟨isWordPart_of_isWordStart hc, hds⟩⟩

/-- A name is tight. -/
theorem tight_of_lexeme {x : String} (h : Lexeme (.identifier x) x.toList) : Tight x.toList := by
  obtain ⟨hne, hparts⟩ := forall_isWordPart_of_lexeme h
  exact tight_of_forall hne fun c hc => isBlank_of_isWordPart (hparts c hc)

/-- A name has only characters of words in it. -/
theorem not_mem_of_lexeme {x : String} (h : Lexeme (.identifier x) x.toList) {c : Char}
    (hc : isWordPart c = false) : c ∉ x.toList := by
  intro hmem
  rw [(forall_isWordPart_of_lexeme h).2 c hmem] at hc
  cases hc

namespace Grammar

open Rule Phrase Derives

section

variable {w v : List Token}

/-- The names in a list of names are lexemes of identifiers. -/
theorem lexeme_of_name {xs : List String} {s : Symbol} (h : Separated s Name w xs)
    (hw : Worded w) : ∀ x ∈ xs, Lexeme (.identifier x) x.toList := by
  intro x hx
  obtain ⟨v, hv, @⟨t, _, ht⟩⟩ := exists_sublist_of_separated h hx
  exact hw t (hv.subset (List.mem_singleton.mpr rfl)) x ht

/-- Suffixes have only brackets and points in them. -/
theorem mem_suffixes {ss : List String} (h : Repeated Suffix w ss) :
    ∀ c ∈ (String.join ss).toList, c ∈ ['[', ']', '.'] := by
  induction h with
  | nil => simp
  | @cons w v x ss hx _ ih =>
    have hsuffix : ∀ c ∈ x.toList, c ∈ ['[', ']', '.'] := by
      cases hx with
      | brackets _ _ => simp
      | dots _ => simp
    have htext : (String.join (x :: ss)).toList = x.toList ++ (String.join ss).toList := by simp
    rw [htext]
    exact List.forall_mem_append.mpr ⟨hsuffix, ih⟩

/-- The text of a reference has no blank at either end. -/
theorem tight_of_typeText {x : String} (h : TypeText w x) (hw : Worded w) : Tight x.toList := by
  obtain @⟨n, g, s, y, args, ss, hn, hg, hs⟩ := h
  -- A name, perhaps arguments and perhaps suffixes: each is tight or missing.
  have hname : Tight y.toList := by
    obtain ⟨hxs⟩ := hn
    apply tight_intercalate hxs.ne_nil
    intro x hx
    exact tight_of_lexeme (lexeme_of_name hxs (worded_append.mp hw).1 x hx)
  have harguments : (argumentsText args).toList = [] ∨ Tight (argumentsText args).toList := by
    cases hg with
    | absent => exact .inl rfl
    | @present _ xs _ =>
      have hopen : Tight ['<'] := tight_of_forall (by decide) (List.forall_mem_singleton.mpr rfl)
      have hclose : Tight ['>'] := tight_of_forall (by decide) (List.forall_mem_singleton.mpr rfl)
      rw [toList_argumentsText]
      exact .inr (hopen.around hclose _)
  have hsuffixes : (String.join ss).toList = [] ∨ Tight (String.join ss).toList := by
    by_cases hnil : (String.join ss).toList = []
    · exact .inl hnil
    · have hplain : ∀ c ∈ ['[', ']', '.'], isBlank c = false := by
        simp only [List.forall_mem_cons]
        exact ⟨rfl, rfl, rfl, List.forall_mem_nil _⟩
      exact .inr (tight_of_forall hnil fun c hc => hplain c (mem_suffixes hs c hc))
  rw [String.toList_append, String.toList_append]
  exact (hname.append harguments).append hsuffixes

/-! ## Intersections inside references -/

/-- Where the text has an `&`, so has the word it was read from. -/
def Marked (w : List Token) (x : String) : Prop :=
  Worded w → '&' ∈ x.toList → ∃ t ∈ w, t.kind = .symbol .ampersand

/-- A text without an `&` has none to account for. -/
theorem marked_of_not_mem {x : String} (h : '&' ∉ x.toList) : Marked w x :=
  fun _ hmem => absurd hmem h

/-- Joined texts are marked if both parts are. -/
theorem Marked.append {x y : String} (hx : Marked w x) (hy : Marked v y) :
    Marked (w ++ v) (x ++ y) := by
  intro hwv hmem
  obtain ⟨hw, hv⟩ := worded_append.mp hwv
  rw [String.toList_append] at hmem
  rcases List.mem_append.mp hmem with hmem | hmem
  · obtain ⟨t, ht, hkind⟩ := hx hw hmem
    exact ⟨t, List.mem_append_left v ht, hkind⟩
  · obtain ⟨t, ht, hkind⟩ := hy hv hmem
    exact ⟨t, List.mem_append_right w ht, hkind⟩

/-- Texts with a separator between them are marked, if that has no `&` of its own. -/
theorem marked_intercalate {s : Symbol} {sep : String} {P : Phrase String} {xs : List String}
    (hsep : '&' ∈ sep.toList → s = .ampersand) (hP : ∀ ⦃w x⦄, P w x → Marked w x)
    (h : Separated s P w xs) : Marked w (sep.intercalate xs) := by
  intro hw hmem
  rcases mem_intercalate hmem with ⟨hmem, hlength⟩ | ⟨x, hx, hmem⟩
  · rw [← hsep hmem]
    exact h.exists_separator hlength
  · obtain ⟨v, hv, hx⟩ := exists_sublist_of_separated h hx
    obtain ⟨t, ht, hkind⟩ := hP hx (fun t ht => hw t (hv.subset ht)) hmem
    exact ⟨t, hv.subset ht, hkind⟩

/-- A dotted name is marked. -/
theorem marked_dottedName {x : String} (h : DottedName w x) : Marked w x := by
  obtain ⟨hxs⟩ := h
  refine marked_intercalate (by decide) ?_ hxs
  rintro _ x @⟨t, _, ht⟩ hw hmem
  have hlexeme := hw t (List.mem_singleton.mpr rfl) x ht
  exact absurd hmem (not_mem_of_lexeme hlexeme (by decide +kernel))

section

variable {T : Phrase String} (hT : ∀ ⦃w x⦄, T w x → Marked w x)
include hT

/-- A bound is marked if the types inside are. -/
theorem marked_bound {b : Option String} (h : Optional (Bound T) w b) : Marked w (b.getD "") := by
  rcases h with _ | @⟨t, w, xs, _, hxs⟩ | @⟨t, w, x, _, hx⟩
  · exact marked_of_not_mem (by decide)
  · exact Marked.append (w := [t]) (marked_of_not_mem (by decide))
      (marked_intercalate (fun _ => rfl) hT hxs)
  · exact Marked.append (w := [t]) (marked_of_not_mem (by decide)) (hT hx)

/-- An argument is marked if the types inside are. -/
theorem marked_argument {x : String} (h : Argument T w x) : Marked w x := by
  rcases h with @⟨t, w, b, _, hb⟩ | @⟨w, v, x, b, hx, hb⟩
  · exact Marked.append (w := [t]) (marked_of_not_mem (by decide)) (marked_bound hT hb)
  · exact (hT hx).append (marked_bound hT hb)

/-- Arguments are marked if the types inside are. -/
theorem marked_arguments {args : Option (List String)} (h : Optional (Generics T) w args) :
    Marked w (argumentsText args) := by
  rcases h with _ | @⟨_, xs, hlist⟩
  · exact marked_of_not_mem (by decide)
  · obtain @⟨t, u, w, _, _, hxs, _⟩ := hlist
    have hopen : Marked [t] "<" := marked_of_not_mem (by decide)
    have hclose : Marked [u] ">" := marked_of_not_mem (by decide)
    have hinside : Marked w (", ".intercalate xs) :=
      marked_intercalate (by decide) (fun _ _ => marked_argument hT) hxs
    have hword : [t] ++ w ++ [u] = t :: (w ++ [u]) := by simp
    rw [← hword]
    exact (hopen.append hinside).append hclose

/-- A reference in whose text an `&` stands has one among its tokens, if this holds of the
references inside it. -/
theorem marked_reference {x : String} (h : Reference T w x) : Marked w x := by
  obtain @⟨n, g, s, y, args, ss, hn, hg, hs⟩ := h
  have hsuffixes : Marked s (String.join ss) :=
    marked_of_not_mem fun hmem => absurd (mem_suffixes hs _ hmem) (by decide)
  rw [← List.append_assoc]
  exact ((marked_dottedName hn).append (marked_arguments hT hg)).append hsuffixes

end

/-- The only `&` in the text of a reference are those of the intersections inside it. -/
theorem ampersand_of_typeText {x : String} (h : TypeText w x) : Marked w x :=
  typeText_induction (fun _ _ => marked_reference fun _ _ h => h) h

end

/-! ## Declared parameters -/

/-- A type without intersections: those of its arguments, at any depth, are all it could have. -/
inductive PlainType : List Token → String → Prop
  | mk {w : List Token} {x : String} :
      TypeText w x → (∀ t ∈ w, t.kind ≠ .symbol .ampersand) → PlainType w x

/-- `T` or `T extends A & B` -/
inductive Declared : List Token → TypeParameter → Prop
  | alone {t : Token} {x : String} : t.kind = .identifier x → Declared [t] ⟨x, []⟩
  | bounded {t e : Token} {w : List Token} {x : String} {xs : List String} :
      t.kind = .identifier x → e.kind = .keyword .extendsKw → Separated .ampersand PlainType w xs →
      Declared (t :: e :: w) ⟨x, xs⟩

/-- `<T, U extends A & B>` -/
inductive DeclaredList : List Token → List TypeParameter → Prop
  | mk {t u : Token} {w : List Token} {ps : List TypeParameter} :
      t.kind = .symbol .less → Separated .comma Declared w ps → u.kind = .symbol .greater →
      DeclaredList (t :: (w ++ [u])) ps

section

variable {w : List Token}

/-- A name is a type. -/
theorem typeText_of_name {t : Token} {x : String} (ht : t.kind = .identifier x) :
    TypeText [t] x := by
  have hname : DottedName [t] (".".intercalate [x]) := .mk (.one (.mk ht))
  have htype := TypeText.mk hname .absent .nil
  rw [String.intercalate_singleton] at htype
  have htext : x ++ argumentsText none ++ String.join [] = x := by
    rw [argumentsText, String.append_empty]
    exact String.append_empty
  rwa [htext] at htype

/-- A declaration is read as an entry of a list, and this is its text. -/
theorem argument_of_declared {p : TypeParameter} (h : Declared w p) :
    Argument TypeText w p.text := by
  cases h with
  | @alone t x ht =>
    have hentry := Argument.type (typeText_of_name ht) .absent
    rwa [Option.getD_none, String.append_empty] at hentry
  | @bounded t e w x xs ht he hxs =>
    have hbounds : Separated .ampersand TypeText w xs := by
      have hmap := hxs.map (Q := TypeText) id fun _ _ h => h.1
      rwa [List.map_id] at hmap
    have hentry := Argument.type (typeText_of_name ht) (.present (.upper he hbounds))
    have htext : TypeParameter.text ⟨x, xs⟩ = x ++ (" extends " ++ " & ".intercalate xs) := by
      obtain ⟨b, bs, rfl⟩ := List.exists_cons_of_ne_nil hxs.ne_nil
      rfl
    rw [htext]
    exact hentry

/-- The parameter is found again in the text of its declaration. -/
theorem ofDeclaration_text {p : TypeParameter} (h : Declared w p) (hw : Worded w) :
    TypeParameter.ofDeclaration p.text = p := by
  cases h with
  | @alone t x ht =>
    have hlexeme := hw t List.mem_cons_self x ht
    exact TypeParameter.ofDeclaration_alone (tight_of_lexeme hlexeme)
      (not_mem_of_lexeme hlexeme (by decide +kernel))
  | @bounded t e w x xs ht he hxs =>
    have hlexeme := hw t List.mem_cons_self x ht
    have hbound : ∀ b ∈ xs, Tight b.toList ∧ '&' ∉ b.toList := by
      intro b hb
      obtain ⟨v, hv, ⟨htype, hplain⟩⟩ := exists_sublist_of_separated hxs hb
      have hworded : Worded v := fun t ht =>
        hw t (List.mem_cons_of_mem _ (List.mem_cons_of_mem _ (hv.subset ht)))
      refine ⟨tight_of_typeText htype hworded, fun hmem => ?_⟩
      obtain ⟨t, ht, hkind⟩ := ampersand_of_typeText htype hworded hmem
      exact hplain t ht hkind
    have hne := hxs.ne_nil
    obtain ⟨b, bs, rfl⟩ := List.exists_cons_of_ne_nil hne
    exact TypeParameter.ofDeclaration_bounded (tight_of_lexeme hlexeme)
      (not_mem_of_lexeme hlexeme (by decide +kernel)) hne (fun b hb => (hbound b hb).1)
      (fun b hb => (hbound b hb).2)

end

/-- **Type parameters survive as texts.** Where the entries of a list that is read from a text are
type parameters, their names and bounds are found again in the texts that the entries are read
as. -/
theorem genericList_declares {text : String} {tokens : List Token} (hscan : scan text = .ok tokens)
    {i j : Nat} (hi : i ≤ tokens.length) {entries : List String} {alternative : Option Failure}
    (hlist : genericList tokens.toArray i = .success entries j alternative)
    {ps : List TypeParameter} (hps : DeclaredList (tokens.extract i j) ps) :
    entries.map TypeParameter.ofDeclaration = ps := by
  have hon := on_of_success hi hlist
  have hworded : Worded (tokens.extract i j) := fun t ht =>
    (spelled_of_scan hscan).worded t ((extract_sublist tokens i j).subset ht)
  generalize tokens.extract i j = w at hon hworded hps
  obtain @⟨t, u, w, ps, ht, hps, hu⟩ := hps
  have hgenerics : Generics TypeText (t :: (w ++ [u])) (ps.map TypeParameter.text) :=
    .mk ht (hps.map TypeParameter.text fun _ _ hp => argument_of_declared hp) hu
  rw [complete_genericList _ hgenerics trivial (Nat.lt_succ_self _)] at hon
  obtain ⟨rfl, -⟩ := Prod.mk.inj (Option.some.inj hon)
  rw [List.map_map]
  have hp : ∀ p ∈ ps, TypeParameter.ofDeclaration p.text = p := by
    intro p hp
    obtain ⟨v, hv, hdeclared⟩ := exists_sublist_of_separated hps hp
    refine ofDeclaration_text hdeclared fun t ht => ?_
    exact hworded t (List.mem_cons_of_mem _ (List.mem_append_left _ (hv.subset ht)))
  exact (List.map_congr_left hp).trans (List.map_id ps)

/-- The tokens of a bound with the words of a bound inside it. -/
def nestedBound : List Token :=
  [⟨.identifier "A", "A", ⟨1, 12⟩⟩, ⟨.symbol .less, "<", ⟨1, 13⟩⟩,
    ⟨.symbol .question, "?", ⟨1, 14⟩⟩, ⟨.keyword .superKw, "super", ⟨1, 16⟩⟩,
    ⟨.identifier "B", "B", ⟨1, 22⟩⟩, ⟨.symbol .less, "<", ⟨1, 23⟩⟩,
    ⟨.symbol .question, "?", ⟨1, 24⟩⟩, ⟨.keyword .extendsKw, "extends", ⟨1, 26⟩⟩,
    ⟨.identifier "C", "C", ⟨1, 34⟩⟩, ⟨.symbol .greater, ">", ⟨1, 35⟩⟩,
    ⟨.symbol .greater, ">", ⟨1, 36⟩⟩]

/-- The tokens of a list in which this bound is one of two. -/
def nestedList : List Token :=
  ⟨.symbol .less, "<", ⟨1, 1⟩⟩ :: ⟨.identifier "T", "T", ⟨1, 2⟩⟩ ::
    ⟨.keyword .extendsKw, "extends", ⟨1, 4⟩⟩ :: (nestedBound ++
      [⟨.symbol .ampersand, "&", ⟨1, 37⟩⟩, ⟨.identifier "D", "D", ⟨1, 38⟩⟩,
        ⟨.symbol .comma, ",", ⟨1, 39⟩⟩, ⟨.identifier "U", "U", ⟨1, 40⟩⟩,
        ⟨.symbol .greater, ">", ⟨1, 41⟩⟩, ⟨.eof, "", ⟨1, 42⟩⟩])

/-- A wildcard inside a wildcard, as it is read from the tokens. -/
theorem run_nestedBound :
    typeRef.run nestedBound.toArray = .ok ("A<? super B<? extends C>>", 11) := by
  decide +kernel

/-- Two parameters, one of them with two bounds, as they are read from the tokens. -/
theorem genericList_nestedList :
    genericList nestedList.toArray 0 =
      .success ["T extends A<? super B<? extends C>> & D", "U"] 19 (some ⟨18, .several⟩) := by
  decide +kernel

/-- The tokens of the two parameters. -/
theorem scan_nestedList :
    scan "<T extends A<? super B<? extends C>>&D,U>" = .ok nestedList := by
  decide +kernel

/-- The first bound has no intersection in it. -/
theorem plainType_nestedBound : PlainType nestedBound "A<? super B<? extends C>>" := by
  obtain ⟨-, hon⟩ := (run_eq_ok_iff typeRef).mp run_nestedBound
  obtain ⟨w, hw, htype⟩ := sound_typeRef hon
  obtain rfl : w = nestedBound := (List.append_nil w).symm.trans hw
  exact .mk htype (by decide)

/-- The tokens declare the two parameters with their bounds. -/
theorem declaredList_nestedList :
    DeclaredList (nestedList.extract 0 19)
      [⟨"T", ["A<? super B<? extends C>>", "D"]⟩, ⟨"U", []⟩] := by
  have hbounds : Separated .ampersand PlainType
      (nestedBound ++ [⟨.symbol .ampersand, "&", ⟨1, 37⟩⟩, ⟨.identifier "D", "D", ⟨1, 38⟩⟩])
      ["A<? super B<? extends C>>", "D"] :=
    .more plainType_nestedBound rfl (.one (.mk (typeText_of_name rfl) (by decide)))
  exact .mk (w := _ ++ _ :: _) rfl (.more (.bounded rfl rfl hbounds) rfl (.one (.alone rfl))) rfl

/-- Two parameters, one of them with a bound in which wildcards are nested. -/
theorem genericList_declares_nested :
    scan "<T extends A<? super B<? extends C>>&D,U>" = .ok nestedList ∧
    ["T extends A<? super B<? extends C>> & D", "U"].map TypeParameter.ofDeclaration =
      [⟨"T", ["A<? super B<? extends C>>", "D"]⟩, ⟨"U", []⟩] :=
  ⟨scan_nestedList, genericList_declares scan_nestedList (Nat.zero_le _) genericList_nestedList
    declaredList_nestedList⟩

end Grammar

end ApiSurface
