import ApiSurface.Diagnostic
import ApiSurface.Proofs.Grammar.Declaration

/-!
# Files

The rule for whole files is sound and complete for `File` in the committed reading, and so is
reading a list of tokens into a compile unit: a list that ends with its only end of input is read as
`u` exactly if the productions derive `u` from it.

A package declaration may have annotations in front of it, and so may the first type of a file. The
rule tries the declaration first; where there is none, it reads the annotations of the first type,
misses the keyword behind them, and gives them back (`packageDeclaration_refuses`).

In the free reading this fails at two places, which the last section shows: a name and an assignment
mark are no annotation element by themselves, and a comma is no list of constants.
-/

namespace ApiSurface.Grammar

open Rule Phrase Derives

/-! ## Imports -/

/-- The rule for a point and what may stand behind it in an import. -/
def importStep : Rule String := do
  symbol .dot
  identifier <|> (do symbol .star; return "*")

instance : Local importStep := by
  unfold importStep
  infer_instance

/-- The target of an import is a name and any number of steps. -/
theorem importTarget_eq : importTarget = (do
    let first ← identifier
    let more ← many importStep
    return ".".intercalate (first :: more)) := rfl

/-- A step of an import begins with a point. -/
theorem importStep_begins : Begins ImportStep (oneOf [.symbol .dot]) := by
  rintro w x (⟨hd, _⟩ | ⟨hd, _⟩)
  · exact ⟨_, _, rfl, by rw [hd]; rfl⟩
  · exact ⟨_, _, rfl, by rw [hd]; rfl⟩

/-- What the rule for a step takes is one. -/
theorem sound_importStep : Sound importStep ImportStep := by
  intro l rest x h
  simp only [importStep, on_bind, on_orElse, on_pure, Option.bind_eq_some_iff,
    Option.or_eq_some_iff] at h
  obtain ⟨⟨_, m⟩, hm, hx⟩ := h
  obtain ⟨d, hd, rfl⟩ := on_symbol_eq_some.mp hm
  rcases hx with hx | ⟨-, ⟨_, k⟩, hk, he⟩
  · obtain ⟨t, ht, rfl⟩ := on_identifier_eq_some.mp hx
    exact ⟨[d, t], rfl, .name hd ht⟩
  · obtain ⟨t, ht, rfl⟩ := on_symbol_eq_some.mp hk
    cases he
    exact ⟨[d, t], rfl, .star hd ht⟩

/-- A step is what the rule for it takes. -/
theorem complete_importStep (n : Nat) : Complete n importStep ImportStep fun _ => True := by
  intro w rest x hw _ _
  cases hw with
  | name hd ht => simp [importStep, hd, ht]
  | @star d t hd ht =>
    have hno : t.identifier? = none := by simp [Token.identifier?, ht]
    simp [importStep, hd, ht, hno]

/-- What the rule for a target takes is one. -/
theorem sound_importTarget : Sound importTarget ImportTarget := by
  intro l rest x h
  simp only [importTarget_eq, on_bind, on_pure, Option.bind_eq_some_iff] at h
  obtain ⟨⟨y, m⟩, hy, ⟨ys, k⟩, hys, he⟩ := h
  obtain ⟨t, ht, rfl⟩ := on_identifier_eq_some.mp hy
  obtain ⟨w, rfl, hw⟩ := sound_importStep.many hys
  cases he
  exact ⟨t :: w, rfl, .mk ht hw⟩

/-- A target is taken up to where no step follows. -/
theorem complete_importTarget (n : Nat) :
    Complete n importTarget ImportTarget (Stops (oneOf [.symbol .dot])) := by
  intro w rest x hw hstop hlt
  cases hw with
  | @mk t y w ys ht hw =>
    have hnone := sound_importStep.refuses importStep_begins hstop
    have hsteps := Complete.many (complete_importStep n) (fun _ _ h => importStep_begins.ne_nil h)
      (fun _ _ _ _ => trivial) hw ⟨trivial, hnone⟩ (by simp at hlt ⊢; omega)
    simp [importTarget_eq, ht, hsteps]

/-- A target begins with a name. -/
theorem importTarget_begins : Begins ImportTarget isName := by
  rintro w x ⟨ht, _⟩
  exact ⟨_, _, rfl, by rw [ht]; rfl⟩

/-- An import begins with its keyword. -/
theorem importLine_begins : Begins ImportLine (oneOf [.keyword .importKw]) := by
  rintro w x ⟨ht, _, _, _⟩
  exact ⟨_, _, rfl, by rw [ht]; rfl⟩

/-- What the rule for the mark of an import takes is the mark. -/
theorem sound_staticMark : Sound (keyword .staticKw) StaticMark := by
  intro l rest u h
  obtain ⟨t, ht, rfl⟩ := on_keyword_eq_some.mp h
  exact ⟨[t], rfl, .mk ht⟩

/-- The mark of an import is what the rule for it takes. -/
theorem complete_staticMark (n : Nat) :
    Complete n (keyword .staticKw) StaticMark fun _ => True := by
  rintro w rest u ⟨ht⟩ _ _
  simp [ht]

/-- The mark of an import begins with its keyword. -/
theorem staticMark_begins : Begins StaticMark (oneOf [.keyword .staticKw]) := by
  rintro w u ⟨ht⟩
  exact ⟨_, _, rfl, by rw [ht]; rfl⟩

/-- What the rule for imports takes is an import. -/
theorem sound_importDeclaration : Sound importDeclaration ImportLine := by
  intro l rest x h
  simp only [importDeclaration, on_bind, on_discard, on_pure, Option.bind_eq_some_iff,
    Option.map_eq_some_iff] at h
  obtain ⟨⟨_, m⟩, hm, _, ⟨⟨o, k⟩, hk, rfl⟩, ⟨y, j⟩, hy, ⟨_, i⟩, hi, he⟩ := h
  obtain ⟨t, ht, rfl⟩ := on_keyword_eq_some.mp hm
  obtain ⟨s, rfl, hs⟩ := sound_staticMark.optional hk
  obtain ⟨w, rfl, hw⟩ := sound_importTarget hy
  obtain ⟨u, hu, rfl⟩ := on_symbol_eq_some.mp hi
  cases he
  exact ⟨t :: (s ++ (w ++ [u])), by simp, .mk ht hs hw hu⟩

/-- An import is what the rule for imports takes. -/
theorem complete_importDeclaration (n : Nat) :
    Complete n importDeclaration ImportLine fun _ => True := by
  intro w rest x hw _ _
  cases hw with
  | @mk t u s w o x ht hs hw hu =>
    have htarget : importTarget.on (w ++ u :: rest) = some (x, u :: rest) :=
      complete_importTarget _ hw (stops_of_kind hu rfl _) (Nat.lt_succ_self _)
    have hnone : (keyword .staticKw).on (w ++ u :: rest) = none :=
      sound_staticMark.refuses staticMark_begins
        (importTarget_begins.stops_name (fun _ => rfl) hw _)
    have hstatic := (complete_staticMark _).optional hs ⟨trivial, hnone⟩ (Nat.lt_succ_self _)
    simp [importDeclaration, ht, hstatic, htarget, hu]

/-! ## Types of a file -/

/-- The kinds that a type of a file begins with. -/
def topLevelStarts : List TokenKind := typeStarts ++ frontStarts

/-- A type of a file begins with its header or with the keyword for its kind. -/
theorem topLevel_begins (r : Reading) : Begins (TopLevel r) (oneOf topLevelStarts) := by
  rintro w a ⟨⟨hf⟩, hw, _⟩
  have hitem : Begins (FrontItem r) (oneOf topLevelStarts) :=
    (frontItem_begins r).mono (oneOf_subset (by decide))
  have htail : Begins (TypeTail r (MemberEntry r)) (oneOf topLevelStarts) :=
    (typeTail_begins r _).mono (oneOf_subset (by decide))
  obtain ⟨t, u, he, ht⟩ := hitem.repeated_append htail hf hw
  rw [← List.append_assoc, he]
  exact ⟨t, _, rfl, ht⟩

/-- What the rule for a semicolon takes is one. -/
theorem sound_semicolon : Sound (symbol .semicolon) Semicolon := by
  intro l rest u h
  obtain ⟨t, ht, rfl⟩ := on_symbol_eq_some.mp h
  exact ⟨[t], rfl, .mk ht⟩

/-- A semicolon begins with itself. -/
theorem semicolon_begins : Begins Semicolon (oneOf [.symbol .semicolon]) := by
  rintro w u ⟨ht⟩
  exact ⟨_, _, rfl, by rw [ht]; rfl⟩

/-- Semicolons are taken to the last. -/
theorem complete_semicolons (n : Nat) :
    Complete n (many (symbol .semicolon)) (Repeated Semicolon)
      (Stops (oneOf [.symbol .semicolon])) := by
  intro w rest us hw hstop hlt
  have hone : Complete n (symbol .semicolon) Semicolon fun _ => True := by
    rintro w rest u ⟨ht⟩ _ _
    simp [ht]
  exact Complete.many hone (fun _ _ h => semicolon_begins.ne_nil h) (fun _ _ _ _ => trivial) hw
    ⟨trivial, sound_semicolon.refuses semicolon_begins hstop⟩ hlt

/-- What the rule for the types of a file takes is one, with semicolons behind it. -/
theorem sound_topLevelType : Sound topLevelType (TopLevel .committed) := by
  intro l rest a h
  simp only [topLevelType, typeDeclaration, on_bind, on_discard, on_pure, Option.bind_eq_some_iff,
    Option.map_eq_some_iff] at h
  obtain ⟨⟨b, k⟩, ⟨⟨h, m⟩, hm, hb⟩, _, ⟨⟨us, j⟩, hus, rfl⟩, he⟩ := h
  obtain ⟨f, rfl, hf⟩ := sound_header hm
  obtain ⟨w, rfl, d, hd, rfl⟩ := sound_typeRest sound_member h hb
  obtain ⟨v, rfl, hv⟩ := sound_semicolon.many hus
  cases he
  exact ⟨f ++ (w ++ v), by simp, .mk hf hd hv⟩

/-- A type of a file is taken with all semicolons behind it. -/
theorem complete_topLevelType (n : Nat) :
    Complete n topLevelType (TopLevel .committed) (Stops (oneOf [.symbol .semicolon])) := by
  intro w rest a hw hstop _
  cases hw with
  | @mk f w v h d us hf hw hv =>
    have hheader : header.on (f ++ (w ++ (v ++ rest))) = some (h, w ++ (v ++ rest)) :=
      complete_header _ hf ((typeTail_begins _ _).stops (by decide) hw _) (Nat.lt_succ_self _)
    have htype : (typeRest member h).on (w ++ (v ++ rest)) = some (d h, v ++ rest) :=
      complete_typeRest sound_member (complete_member _) (entry_begins _) h ⟨d, hw, rfl⟩ trivial
        (Nat.lt_succ_self _)
    have hsemicolons := complete_semicolons _ hv hstop (Nat.lt_succ_self _)
    simp [topLevelType, typeDeclaration, hheader, htype, hsemicolons]

/-! ## Packages -/

/-- The kinds that continue the annotations before a package declaration, or the declaration. -/
def packageStops : List TokenKind :=
  .keyword .packageKw :: .symbol .atSign :: annotatedStops

/-- What the rule for the package declaration takes is one. -/
theorem sound_packageDeclaration : Sound packageDeclaration (PackageLine .committed) := by
  intro l rest x h
  simp only [packageDeclaration, annotations, on_bind, on_discard, on_pure,
    Option.bind_eq_some_iff, Option.map_eq_some_iff] at h
  obtain ⟨_, ⟨⟨xs, m⟩, hxs, rfl⟩, ⟨_, k⟩, hk, ⟨y, j⟩, hy, ⟨_, i⟩, hi, he⟩ := h
  obtain ⟨w, rfl, hw⟩ := sound_annotationName.many hxs
  obtain ⟨t, ht, hm⟩ := on_keyword_eq_some.mp hk
  simp only at hm
  subst hm
  obtain ⟨v, rfl, hv⟩ := sound_dottedName hy
  obtain ⟨u, hu, rfl⟩ := on_symbol_eq_some.mp hi
  cases he
  exact ⟨w ++ t :: (v ++ [u]), by simp, .mk hw ht hv hu⟩

/-- The package declaration is what the rule for it takes. -/
theorem complete_packageDeclaration (n : Nat) :
    Complete n packageDeclaration (PackageLine .committed) fun _ => True := by
  intro w rest x hw _ _
  cases hw with
  | @mk w v xs t u x hw ht hv hu =>
    have hannotations : annotations.on (w ++ t :: (v ++ u :: rest)) =
        some (xs, t :: (v ++ u :: rest)) :=
      complete_annotations _ hw (stops_of_kind ht rfl _) (Nat.lt_succ_self _)
    have hname : dottedName.on (v ++ u :: rest) = some (x, u :: rest) :=
      complete_dottedName _ hv (stops_of_kind hu rfl _) (Nat.lt_succ_self _)
    simp [packageDeclaration, hannotations, ht, hname, hu]

/-- Annotations without the keyword behind them are no package declaration. -/
theorem packageDeclaration_refuses {w l : List Token} {xs : List String}
    (hw : Repeated (Annotated .committed) w xs) (hl : Stops (oneOf packageStops) l) :
    packageDeclaration.on (w ++ l) = none := by
  have hannotations := complete_annotations _ hw (hl.subset (by decide)) (Nat.lt_succ_self _)
  have hno : (keyword .packageKw).on l = none := by
    rcases l with _ | ⟨t, l⟩
    · rfl
    · rw [on_keyword_cons]
      refine if_neg fun hk => ?_
      rw [stops_cons, hk] at hl
      cases hl
  simp [packageDeclaration, hannotations, hno]

/-- A header is a number of annotations, and something that is no annotation. -/
theorem front_split {w : List Token} {items : List HeaderItem}
    (h : Repeated (FrontItem .committed) w items) :
    ∃ a v xs, w = a ++ v ∧ Repeated (Annotated .committed) a xs ∧
      ∀ rest, Stops (oneOf packageStops) rest → Stops (oneOf packageStops) (v ++ rest) := by
  induction h with
  | nil => exact ⟨[], [], [], rfl, .nil, fun _ h => h⟩
  | @cons i w _ _ hi _ ih =>
    cases hi with
    | annotated hi =>
      obtain ⟨a, v, xs, rfl, ha, hv⟩ := ih
      exact ⟨i ++ a, v, _, by simp, .cons hi ha, hv⟩
    | @modifier t ht =>
      refine ⟨[], t :: w, [], rfl, .nil, fun rest _ => ?_⟩
      obtain ⟨k, hmem, hk⟩ := kind_of_isModifier ht
      have hne : ∀ k ∈ Keyword.modifiers, oneOf packageStops (.keyword k) = false := by decide
      exact stops_of_kind hk (hne k hmem) _
    | generics hi =>
      refine ⟨[], i ++ w, [], rfl, .nil, fun rest _ => ?_⟩
      rw [List.append_assoc]
      exact generics_begins.stops (by decide) hi _

/-- Without a package declaration, a file begins with annotations that belong to its first type. -/
theorem packageDeclaration_absent {i t rest : List Token} {e : Token} {imports : List String}
    {types : List TypeDecl} (hi : Repeated ImportLine i imports)
    (ht : Repeated (TopLevel .committed) t types) (he : e.kind = .eof) :
    packageDeclaration.on (i ++ (t ++ e :: rest)) = none := by
  cases hi with
  | cons hi _ =>
    rw [List.append_assoc]
    apply packageDeclaration_refuses (w := []) .nil
    exact importLine_begins.stops (by decide) hi _
  | nil =>
    cases ht with
    | nil => exact packageDeclaration_refuses .nil (stops_of_kind he rfl _)
    | cons ht _ =>
      obtain ⟨⟨hf⟩, hw, _⟩ := ht
      obtain ⟨a, v, xs, rfl, ha, hv⟩ := front_split hf
      simp only [List.append_assoc, List.nil_append]
      exact packageDeclaration_refuses ha (hv _ ((typeTail_begins _ _).stops (by decide) hw _))

/-! ## Whole files -/

/-- What the rule for files takes is a file. -/
theorem sound_compileUnit : Sound compileUnit (File .committed) := by
  intro l rest u h
  simp only [compileUnit, on_bind, on_pure, Option.bind_eq_some_iff] at h
  obtain ⟨⟨x, l₁⟩, hx, ⟨imports, l₂⟩, himports, ⟨types, l₃⟩, htypes, ⟨_, l₄⟩, hend, he⟩ := h
  obtain ⟨p, rfl, hp⟩ := sound_packageDeclaration.optional hx
  obtain ⟨i, rfl, hi⟩ := sound_importDeclaration.many himports
  obtain ⟨t, rfl, ht⟩ := sound_topLevelType.many htypes
  obtain ⟨e, hk, rfl⟩ := on_endOfInput_eq_some.mp hend
  cases he
  exact ⟨p ++ (i ++ (t ++ [e])), by simp, .mk hp hi ht hk⟩

/-- A file is what the rule for files takes. -/
theorem complete_compileUnit (n : Nat) :
    Complete n compileUnit (File .committed) fun _ => True := by
  intro w rest u hw _ _
  cases hw with
  | @mk p i t e x imports types hp hi ht he =>
    -- Each part is read up to where the next begins, which none of its own tokens can.
    have hpackage : (optional packageDeclaration).on (p ++ (i ++ (t ++ e :: rest))) =
        some (x, i ++ (t ++ e :: rest)) :=
      (complete_packageDeclaration _).optional hp ⟨trivial, packageDeclaration_absent hi ht he⟩
        (Nat.lt_succ_self _)
    have htypes : (many topLevelType).on (t ++ e :: rest) = some (types, e :: rest) := by
      have hnone := sound_topLevelType.refuses (topLevel_begins _) (stops_of_kind he rfl rest)
      exact Complete.many (complete_topLevelType _) (fun _ _ h => (topLevel_begins _).ne_nil h)
        (fun _ _ rest h => (topLevel_begins _).stops (by decide) h rest) ht
        ⟨stops_of_kind he rfl rest, hnone⟩ (Nat.lt_succ_self _)
    have himports : (many importDeclaration).on (i ++ (t ++ e :: rest)) =
        some (imports, t ++ e :: rest) := by
      have hstop : Stops (oneOf [.keyword .importKw]) (t ++ e :: rest) := by
        cases ht with
        | nil => exact stops_of_kind he rfl rest
        | cons h _ =>
          rw [List.append_assoc]
          exact (topLevel_begins _).stops (by decide) h _
      have hnone := sound_importDeclaration.refuses importLine_begins hstop
      exact Complete.many (complete_importDeclaration _)
        (fun _ _ h => importLine_begins.ne_nil h) (fun _ _ _ _ => trivial) hi ⟨trivial, hnone⟩
        (Nat.lt_succ_self _)
    simp [compileUnit, hpackage, himports, htypes, he]

/-! ## Lists of tokens -/

/-- The last token, and no other, is the end of the input. -/
def Terminated (ts : List Token) : Prop :=
  ∃ front last, ts = front ++ [last] ∧ last.kind = .eof ∧ ∀ t ∈ front, t.kind ≠ .eof

/-- Nothing follows the end of the input in a terminated list. -/
theorem Terminated.eq_nil_of_eof {v rest : List Token} {e : Token}
    (h : Terminated (v ++ e :: rest)) (he : e.kind = .eof) : rest = [] := by
  obtain ⟨front, last, hts, -, hfront⟩ := h
  rcases List.eq_nil_or_concat rest with rfl | ⟨r, z, rfl⟩
  · rfl
  · have hsplit : (v ++ e :: r) ++ [z] = front ++ [last] := by simpa using hts
    obtain ⟨rfl, -⟩ := List.append_inj' hsplit rfl
    exact absurd he (hfront e (by simp))

/-- A file ends with the end of the input. -/
theorem exists_eof_of_file {r : Reading} {w : List Token} {u : CompileUnit} (h : File r w u) :
    ∃ v e, w = v ++ [e] ∧ e.kind = .eof := by
  cases h with
  | @mk p i t e _ _ _ _ _ _ he => exact ⟨p ++ (i ++ t), e, by simp, he⟩

/-- Tokens are a compile unit if the rule for files reads one off their front. -/
theorem ofTokens_eq_ok {ts : List Token} {u : CompileUnit} :
    CompileUnit.ofTokens ts.toArray = .ok u ↔ ∃ rest, compileUnit.on ts = some (u, rest) := by
  unfold CompileUnit.ofTokens Rule.run Rule.on
  rcases compileUnit ts.toArray 0 with ⟨u', j, alternative⟩ | cause
  · simp
  · simp

/-- **Reading a file is deriving it.** A terminated list of tokens is read as the compile unit `u`
exactly if the productions, in the committed reading, derive `u` from it. -/
theorem ofTokens_iff_file {ts : List Token} (hts : Terminated ts) (u : CompileUnit) :
    CompileUnit.ofTokens ts.toArray = .ok u ↔ File .committed ts u := by
  rw [ofTokens_eq_ok]
  constructor
  · rintro ⟨rest, h⟩
    obtain ⟨w, rfl, hw⟩ := sound_compileUnit h
    obtain ⟨v, e, rfl, he⟩ := exists_eof_of_file hw
    rw [List.append_assoc, List.singleton_append] at hts
    rw [hts.eq_nil_of_eof he, List.append_nil]
    exact hw
  · intro h
    have hon : compileUnit.on (ts ++ []) = some (u, []) :=
      complete_compileUnit _ h trivial (Nat.lt_succ_self _)
    rw [List.append_nil] at hon
    exact ⟨[], hon⟩

/-- The tokens of `package p; enum E { C, }`. -/
def enumTokens : List Token :=
  [⟨.keyword .packageKw, "package", ⟨1, 1⟩⟩, ⟨.identifier "p", "p", ⟨1, 9⟩⟩,
    ⟨.symbol .semicolon, ";", ⟨1, 10⟩⟩, ⟨.keyword .enumKw, "enum", ⟨1, 12⟩⟩,
    ⟨.identifier "E", "E", ⟨1, 17⟩⟩, ⟨.symbol .leftBrace, "\x7b", ⟨1, 19⟩⟩,
    ⟨.identifier "C", "C", ⟨1, 21⟩⟩, ⟨.symbol .comma, ",", ⟨1, 22⟩⟩,
    ⟨.symbol .rightBrace, "\x7d", ⟨1, 24⟩⟩, ⟨.eof, "", ⟨1, 25⟩⟩]

/-- An enumeration with a constant, as tokens with one end. -/
theorem ofTokens_iff_file_enumTokens :
    Terminated enumTokens ∧
    CompileUnit.ofTokens enumTokens.toArray = .ok
      { package :=
          { name := "p"
            types := [{
              kind := .classKind "java.lang.Enum"
              name := "E"
              members := [.field
                { name := "C"
                  type := "E"
                  isStatic := true
                  isFinal := true
                  visibility := some .publicAccess }] }] }
        imports := [] } := by
  have hts : Terminated enumTokens := ⟨enumTokens.dropLast, _, rfl, rfl, by decide⟩
  refine ⟨hts, (ofTokens_iff_file hts _).mpr ?_⟩
  have hname : DottedName [⟨.identifier "p", "p", ⟨1, 9⟩⟩] "p" := .mk (.one (.mk rfl))
  have hpackage : PackageLine .committed (enumTokens.take 3) "p" := .mk .nil rfl hname rfl
  have hconstant : Constant .committed [⟨.identifier "C", "C", ⟨1, 21⟩⟩] ⟨[], "C"⟩ :=
    .mk .nil rfl .nil
  have hconstants : Constants .committed
      ([⟨.identifier "C", "C", ⟨1, 21⟩⟩] ++ [⟨.symbol .comma, ",", ⟨1, 22⟩⟩]) [⟨[], "C"⟩] :=
    .list (.comma (.one hconstant) rfl)
  have htail : TypeTail .committed (MemberEntry .committed) ((enumTokens.drop 3).take 6) _ :=
    .enumType rfl rfl .absent rfl hconstants .absent rfl
  have htype : TopLevel .committed ((enumTokens.drop 3).take 6) _ := .mk (.mk .nil) htail .nil
  exact .mk (.present hpackage) .nil (.cons htype .nil) rfl

/-! ## The free reading -/

/-- A file is refused where neither a package, nor an import, nor a type is found, nor the end. -/
theorem compileUnit_refuses {t : Token} {l : List Token}
    (hpackage : packageDeclaration.on (t :: l) = none) (htype : topLevelType.on (t :: l) = none)
    (himport : t.kind ≠ .keyword .importKw) (heof : t.kind ≠ .eof) :
    compileUnit.on (t :: l) = none := by
  have himports : importDeclaration.on (t :: l) = none := by simp [importDeclaration, himport]
  simp [compileUnit, on_optional, hpackage, on_many_of_none himports,
    on_many_of_none htype, heof]

/-- An annotation with a bare key between its brackets ends before the brackets. -/
theorem on_annotationName_of_bareKey {a m o k e c : Token} {x y : String}
    (ha : a.kind = .symbol .atSign) (hm : m.kind = .identifier x)
    (ho : o.kind = .symbol .leftParen) (hk : k.kind = .identifier y)
    (he : e.kind = .symbol .assign) (hc : c.kind = .symbol .rightParen) (l : List Token) :
    annotationName.on (a :: m :: o :: k :: e :: c :: l) =
      some (x, o :: k :: e :: c :: l) := by
  have helement : annotationElement.on (k :: e :: c :: l) = none := by
    have hkey : elementKey.on (k :: e :: c :: l) = some ((), c :: l) :=
      on_elementKey_eq_some.mpr ⟨k, e, y, hk, he, rfl⟩
    have hnoise := closing_ends (b := .round) hc isComma l
    simp [annotationElement_eq, on_optional, hkey, someNoiseUntil, hnoise]
  have helements : annotationElements.on (o :: k :: e :: c :: l) = none := by
    simp [annotationElements, ho, on_sepByTrailing, on_sepBy1_of_none helement, hk]
  have hname : dottedName.on (m :: o :: k :: e :: c :: l) = some (x, o :: k :: e :: c :: l) :=
    complete_dottedName _ (.mk (.one (.mk hm))) (stops_of_kind ho rfl _) (Nat.lt_succ_self _)
  simp [annotationName, ha, hname, on_optional, helements]

/-- No file begins with an annotation that has a bare key between its brackets. -/
theorem compileUnit_refuses_bareKey {a m o k e c : Token} {x y : String}
    (ha : a.kind = .symbol .atSign) (hm : m.kind = .identifier x)
    (ho : o.kind = .symbol .leftParen) (hk : k.kind = .identifier y)
    (he : e.kind = .symbol .assign) (hc : c.kind = .symbol .rightParen) (l : List Token) :
    compileUnit.on (a :: m :: o :: k :: e :: c :: l) = none := by
  have hfirst := on_annotationName_of_bareKey ha hm ho hk he hc l
  have hnext : annotationName.on (o :: k :: e :: c :: l) = none :=
    sound_annotationName.refuses (annotated_begins _) (stops_of_kind ho rfl _)
  have hannotations : annotations.on (a :: m :: o :: k :: e :: c :: l) =
      some ([x], o :: k :: e :: c :: l) :=
    on_many_of_some hfirst (by simp) (on_many_of_none hnext)
  have hitem : headerItem.on (a :: m :: o :: k :: e :: c :: l) =
      some (.annotated x, o :: k :: e :: c :: l) := by
    simp [headerItem, hfirst]
  have hitems := on_many_of_some hitem (by simp)
    (on_many_of_none (sound_headerItem.refuses (frontItem_begins _) (stops_of_kind ho rfl _)))
  refine compileUnit_refuses ?_ ?_ (by simp [ha]) (by simp [ha])
  · simp [packageDeclaration, hannotations, ho]
  · have hnone : ∀ h, (typeRest member h).on (o :: k :: e :: c :: l) = none := fun h =>
      typeRest_refuses sound_member h (stops_of_kind ho rfl _)
    simp [topLevelType, typeDeclaration, header, hitems, hnone]

/-- No file begins with an enumeration behind whose constants stands neither a semicolon nor a
closing brace. -/
theorem compileUnit_refuses_enumeration {k m o c : Token} {x : String} {l l' : List Token}
    {cs : List EnumConstant} (hk : k.kind = .keyword .enumKw) (hm : m.kind = .identifier x)
    (ho : o.kind = .symbol .leftBrace)
    (hconstants : (sepByTrailing enumConstant (symbol .comma)).on l = some (cs, c :: l'))
    (hsemicolon : c.kind ≠ .symbol .semicolon) (hbrace : c.kind ≠ .symbol .rightBrace) :
    compileUnit.on (k :: m :: o :: l) = none := by
  have hheader : header.on (k :: m :: o :: l) = some ({}, k :: m :: o :: l) :=
    complete_header _ (w := []) (.mk .nil) (stops_of_kind hk (by decide) _) (Nat.lt_succ_self _)
  have himplements : (clause .implementsKw).on (o :: l) = some ([], o :: l) :=
    complete_clause .implementsKw _ .absent (stops_of_kind ho rfl _) (Nat.lt_succ_self _)
  have hplain : (plainType member {}).on (k :: m :: o :: l) = none := by
    simp [plainType, typeWord, hk]
  have henum : (enumeration member {}).on (k :: m :: o :: l) = none := by
    simp [enumeration, enumBody, on_enumMembers, membersBehind, hk, hm, himplements, ho,
      hconstants, on_optional, hsemicolon, hbrace]
  refine compileUnit_refuses ?_ ?_ (by simp [hk]) (by simp [hk])
  · exact packageDeclaration_refuses .nil (stops_of_kind hk rfl _)
  · simp [topLevelType, typeDeclaration, hheader, typeRest, hplain, henum]

/-- No file begins with an enumeration that has a comma for its constants. -/
theorem compileUnit_refuses_loneComma {k m o c : Token} {x : String}
    (hk : k.kind = .keyword .enumKw) (hm : m.kind = .identifier x)
    (ho : o.kind = .symbol .leftBrace) (hc : c.kind = .symbol .comma) (l : List Token) :
    compileUnit.on (k :: m :: o :: c :: l) = none := by
  have hconstant : enumConstant.on (c :: l) = none :=
    sound_enumConstant.refuses (constant_begins _) (stops_of_kind hc rfl _)
  have hconstants :
      (sepByTrailing enumConstant (symbol .comma)).on (c :: l) = some ([], c :: l) := by
    rw [on_sepByTrailing, on_sepBy1_of_none hconstant]
    rfl
  exact compileUnit_refuses_enumeration hk hm ho hconstants (by simp [hc]) (by simp [hc])

/-- The tokens of `@A(a=) class B {}`. -/
def bareKeyTokens : List Token :=
  [⟨.symbol .atSign, "@", ⟨1, 1⟩⟩, ⟨.identifier "A", "A", ⟨1, 2⟩⟩,
    ⟨.symbol .leftParen, "(", ⟨1, 3⟩⟩, ⟨.identifier "a", "a", ⟨1, 4⟩⟩,
    ⟨.symbol .assign, "=", ⟨1, 5⟩⟩, ⟨.symbol .rightParen, ")", ⟨1, 6⟩⟩,
    ⟨.keyword .classKw, "class", ⟨1, 8⟩⟩, ⟨.identifier "B", "B", ⟨1, 14⟩⟩,
    ⟨.symbol .leftBrace, "\x7b", ⟨1, 16⟩⟩, ⟨.symbol .rightBrace, "\x7d", ⟨1, 17⟩⟩,
    ⟨.eof, "", ⟨1, 18⟩⟩]

/-- The tokens of `enum E { , }`. -/
def loneCommaTokens : List Token :=
  [⟨.keyword .enumKw, "enum", ⟨1, 1⟩⟩, ⟨.identifier "E", "E", ⟨1, 6⟩⟩,
    ⟨.symbol .leftBrace, "\x7b", ⟨1, 8⟩⟩, ⟨.symbol .comma, ",", ⟨1, 10⟩⟩,
    ⟨.symbol .rightBrace, "\x7d", ⟨1, 12⟩⟩, ⟨.eof, "", ⟨1, 13⟩⟩]

/-- An annotation whose element has a key and no value is a file of the free grammar. -/
theorem exists_free_bareKey : ∃ u, File .free bareKeyTokens u := by
  have hvalue : SomeNoise isComma
      [⟨.identifier "a", "a", ⟨1, 4⟩⟩, ⟨.symbol .assign, "=", ⟨1, 5⟩⟩] () :=
    .mk (NoiseItem.plain rfl rfl) (.cons (NoiseItem.plain rfl rfl) .nil)
  have helement : Element .free
      [⟨.identifier "a", "a", ⟨1, 4⟩⟩, ⟨.symbol .assign, "=", ⟨1, 5⟩⟩] () :=
    .value hvalue fun hr => nomatch hr
  have helements : Elements .free ((bareKeyTokens.drop 2).take 4) () :=
    .mk rfl (.items (.one helement)) rfl
  have hname : DottedName [⟨.identifier "A", "A", ⟨1, 2⟩⟩] "A" := .mk (.one (.mk rfl))
  have hannotated : Annotated .free (bareKeyTokens.take 6) "A" :=
    .mk rfl hname (.present helements)
  have htail : TypeTail .free (MemberEntry .free) ((bareKeyTokens.drop 6).take 4) _ :=
    .classType rfl rfl .absent .absent .absent rfl .nil rfl
  have htype : TopLevel .free (bareKeyTokens.take 10) _ :=
    .mk (.mk (.cons (.annotated hannotated) .nil)) htail .nil
  exact ⟨_, .mk .absent .nil (.cons htype .nil) rfl⟩

/-- An enumeration with a comma for its constants is a file of the free grammar. -/
theorem exists_free_loneComma : ∃ u, File .free loneCommaTokens u := by
  have hconstants : Constants .free [⟨.symbol .comma, ",", ⟨1, 10⟩⟩] [] := .loneComma rfl rfl
  have htail : TypeTail .free (MemberEntry .free) (loneCommaTokens.take 5) _ :=
    .enumType rfl rfl .absent rfl hconstants .absent rfl
  have htype : TopLevel .free (loneCommaTokens.take 5) _ := .mk (.mk .nil) htail .nil
  exact ⟨_, .mk .absent .nil (.cons htype .nil) rfl⟩

/-- A terminated list that is derived and refused separates reading from deriving. -/
theorem not_iff_of_refused {r : Reading} {ts : List Token} (hfile : ∃ u, File r ts u)
    (hnone : compileUnit.on ts = none) :
    ¬ ∀ u, CompileUnit.ofTokens ts.toArray = .ok u ↔ File r ts u := by
  intro h
  obtain ⟨u, hu⟩ := hfile
  obtain ⟨rest, hon⟩ := ofTokens_eq_ok.mp ((h u).mpr hu)
  rw [hnone] at hon
  cases hon

/-- In the free reading some files are derived and not read: one with a bare key for an annotation
element, and one with a comma for the constants of an enumeration. -/
theorem free_files_not_read :
    (Terminated bareKeyTokens ∧
      ¬ ∀ u, CompileUnit.ofTokens bareKeyTokens.toArray = .ok u ↔ File .free bareKeyTokens u) ∧
    (Terminated loneCommaTokens ∧
      ¬ ∀ u, CompileUnit.ofTokens loneCommaTokens.toArray = .ok u ↔
        File .free loneCommaTokens u) := by
  refine ⟨⟨⟨bareKeyTokens.dropLast, _, rfl, rfl, by decide⟩, ?_⟩,
    ⟨⟨loneCommaTokens.dropLast, _, rfl, rfl, by decide⟩, ?_⟩⟩
  · exact not_iff_of_refused exists_free_bareKey
      (compileUnit_refuses_bareKey rfl rfl rfl rfl rfl rfl _)
  · exact not_iff_of_refused exists_free_loneComma
      (compileUnit_refuses_loneComma rfl rfl rfl rfl _)

end ApiSurface.Grammar
