import ApiSurface.Proofs.Grammar.Body
import ApiSurface.Proofs.Grammar.Header

/-!
# Methods, constructors and fields behind their types

The rules for parameters, for the tail of a method or constructor and for the tail of a field are
sound and complete, whatever follows: each of them ends with a token that closes it.

A tail is told from its neighbours by one token. Behind the first name of a reference to a type
never stands a round bracket (`typeText_second`), so a method is not taken for a constructor; and
the tail of a field begins with none, so a field is not taken for a method.
-/

namespace ApiSurface.Grammar

open Rule Phrase Derives

/-! ## Endings -/

/-- The kinds that an ending begins with. -/
def endingStarts : List TokenKind :=
  [.symbol .semicolon, .keyword .defaultKw, .symbol .leftBrace]

/-- What ends a method begins with a semicolon, a brace or the default value. -/
theorem ending_begins : Begins Ending (oneOf endingStarts) := by
  intro w u h
  cases h with
  | semicolon ht => exact ⟨_, _, rfl, by rw [ht]; rfl⟩
  | default ht _ _ => exact ⟨_, _, rfl, by rw [ht]; rfl⟩
  | body hw =>
    obtain ⟨ht, _, _⟩ := hw
    exact ⟨_, _, rfl, by rw [ht]; rfl⟩

/-- What the rule for the end of a method takes is one. -/
theorem sound_callableEnd : Sound callableEnd Ending := by
  refine Sound.orElse ?_ (Sound.orElse ?_ ?_)
  · intro l rest u h
    obtain ⟨t, ht, rfl⟩ := on_symbol_eq_some.mp h
    exact ⟨[t], rfl, .semicolon ht⟩
  · intro l rest u h
    simp only [defaultValue, on_bind, Option.bind_eq_some_iff] at h
    obtain ⟨⟨_, m⟩, hl, ⟨_, k⟩, hm, hk⟩ := h
    obtain ⟨t, ht, rfl⟩ := on_keyword_eq_some.mp hl
    obtain ⟨w, rfl, hw⟩ := sound_someNoiseUntil isSemicolon hm
    obtain ⟨c, hc, rfl⟩ := on_symbol_eq_some.mp hk
    exact ⟨t :: (w ++ [c]), by simp, .default ht hw hc⟩
  · exact sound_block.mono fun _ _ h => .body h

/-- What ends a method is what the rule for it takes. -/
theorem complete_callableEnd (n : Nat) : Complete n callableEnd Ending fun _ => True := by
  intro w rest u hw _ hlt
  cases hw with
  | semicolon ht => simp [callableEnd, ht]
  | @default t c w ht hw hc =>
    have h := complete_someNoiseUntil isSemicolon n hw (semicolon_ends hc rest)
      (by simp at hlt ⊢; omega)
    simp [callableEnd, defaultValue, ht, h, hc]
  | body hw =>
    have h := complete_block n hw trivial hlt
    obtain ⟨t, v, rfl, hk⟩ := block_begins.exists_kind hw
    rw [List.cons_append] at h ⊢
    simp [callableEnd, defaultValue, hk, h]

/-! ## Parameters -/

/-- The kinds that a mark in front of a parameter begins with. -/
def markStarts : List TokenKind := [.symbol .atSign, .keyword .finalKw]

/-- A mark of a parameter begins with an at sign or is a keyword. -/
theorem parameterMark_begins (r : Reading) : Begins (ParameterMark r) (oneOf markStarts) := by
  intro w u h
  cases h with
  | annotated hw =>
    obtain ⟨ht, _, _⟩ := hw
    exact ⟨_, _, rfl, by rw [ht]; rfl⟩
  | final ht => exact ⟨_, _, rfl, by rw [ht]; rfl⟩

/-- The rule for one mark in front of a parameter. -/
def parameterMark : Rule Unit := discard annotationName <|> keyword .finalKw

instance : Local parameterMark := by
  unfold parameterMark
  infer_instance

/-- A parameter is its marks, a type and a name. -/
theorem parameter_eq : parameter = (do
    discard (many parameterMark)
    let type ← typeRef
    let name ← identifier
    return { name, type }) := rfl

/-- What the rule for a mark takes is one. -/
theorem sound_parameterMark : Sound parameterMark (ParameterMark .committed) := by
  refine Sound.orElse ?_ ?_
  · intro l rest u h
    rw [on_discard, Option.map_eq_some_iff] at h
    obtain ⟨⟨x, m⟩, hx, he⟩ := h
    obtain ⟨w, rfl, hw⟩ := sound_annotationName hx
    cases he
    exact ⟨w, rfl, .annotated hw⟩
  · intro l rest u h
    obtain ⟨t, ht, rfl⟩ := on_keyword_eq_some.mp h
    exact ⟨[t], rfl, .final ht⟩

/-- A mark is taken up to where no annotation goes on. -/
theorem complete_parameterMark (n : Nat) :
    Complete n parameterMark (ParameterMark .committed) (Stops (oneOf annotatedStops)) := by
  intro w rest u hw hstop hlt
  cases hw with
  | annotated hw => simp [parameterMark, complete_annotationName n hw hstop hlt]
  | final ht => simp [parameterMark, annotationName, ht]

/-- Marks are taken to the last, if a name follows. -/
theorem complete_parameterMarks (n : Nat) :
    Complete n (many parameterMark) (Repeated (ParameterMark .committed))
      (Stops (oneOf (markStarts ++ annotatedStops))) := by
  intro w rest us hw hstop hlt
  have hnone := sound_parameterMark.refuses (parameterMark_begins _) (hstop.subset (by decide))
  exact Complete.many (complete_parameterMark n) (fun _ _ h => (parameterMark_begins _).ne_nil h)
    (fun _ _ rest h => (parameterMark_begins _).stops (by decide) h rest) hw
    ⟨hstop.subset (by decide), hnone⟩ hlt

/-- A parameter begins with a mark or with the name of its type. -/
theorem formalParameter_begins (r : Reading) :
    Begins (FormalParameter r) (nameOr markStarts) := by
  rintro w p ⟨hm, hw, _⟩
  have hmark := (parameterMark_begins r).mono (nameOr_of_oneOf fun _ h => h)
  have htype := typeText_begins.mono (nameOr_of_isName markStarts)
  obtain ⟨t, u, h, ht⟩ := hmark.repeated_append htype hm hw
  rw [← List.append_assoc, h]
  exact ⟨t, _, rfl, ht⟩

/-- What the rule for a parameter takes is one. -/
theorem sound_parameter : Sound parameter (FormalParameter .committed) := by
  intro l rest p h
  simp only [parameter_eq, on_bind, on_discard, on_pure, Option.bind_eq_some_iff,
    Option.map_eq_some_iff] at h
  obtain ⟨_, ⟨⟨us, m⟩, hm, rfl⟩, ⟨ty, k⟩, hty, ⟨x, j⟩, hx, he⟩ := h
  obtain ⟨v, rfl, hv⟩ := sound_parameterMark.many hm
  obtain ⟨w, rfl, hw⟩ := sound_typeRef hty
  obtain ⟨t, ht, rfl⟩ := on_identifier_eq_some.mp hx
  cases he
  exact ⟨v ++ (w ++ [t]), by simp, .mk hv hw ht⟩

/-- A parameter is what the rule for it takes. -/
theorem complete_parameter (n : Nat) :
    Complete n parameter (FormalParameter .committed) fun _ => True := by
  intro w rest p hw _ hlt
  cases hw with
  | @mk m w us ty x t hm hw ht =>
    simp only [List.append_assoc, List.singleton_append] at hlt ⊢
    simp only [List.length_append, List.length_cons] at hlt
    have hmarks := complete_parameterMarks n hm
      (typeText_begins.stops_name (fun _ => rfl) hw (t :: rest)) (by simp; omega)
    have htype : typeRef.on (w ++ t :: rest) = some (ty, t :: rest) :=
      complete_typeRef n hw (stops_of_kind ht rfl _) (by simp; omega)
    simp [parameter_eq, hmarks, htype, ht]

/-- Parameters begin with a parenthesis. -/
theorem parameters_begins (r : Reading) : Begins (Parameters r) (oneOf [.symbol .leftParen]) := by
  rintro w ps ⟨ht, _, _⟩
  exact ⟨_, _, rfl, by rw [ht]; rfl⟩

/-- What the rule for parameters takes is a list of them. -/
theorem sound_parameters : Sound parameters (Parameters .committed) := by
  intro l rest ps h
  simp only [parameters, on_between, on_sepBy, Option.bind_eq_some_iff,
    Option.map_eq_some_iff] at h
  obtain ⟨⟨_, m⟩, hl, _, ⟨⟨qs, k⟩, hk, rfl⟩, ⟨_, j⟩, hj, he⟩ := h
  obtain ⟨t, ht, rfl⟩ := on_symbol_eq_some.mp hl
  obtain ⟨w, rfl, hw⟩ := (Sound.sepBy1 sound_parameter .comma).optional hk
  obtain ⟨c, hc, hj⟩ := on_symbol_eq_some.mp hj
  cases he
  refine ⟨t :: (w ++ [c]), ?_, .mk ht hw hc⟩
  simp only at hj
  rw [hj]
  simp

/-- Parameters are taken up to their closing parenthesis. -/
theorem complete_parameters (n : Nat) :
    Complete n parameters (Parameters .committed) fun _ => True := by
  intro w rest ps hw _ hlt
  cases hw with
  | @mk t c w qs ht hw hc =>
    have hnone : parameter.on (c :: rest) = none :=
      sound_parameter.refuses (formalParameter_begins _) (stops_of_kind hc rfl _)
    have hcomma : (discard (symbol .comma) >>= fun _ => parameter).on (c :: rest) = none :=
      on_afterSymbol_of_stops (stops_of_kind hc rfl _)
    have hitems := Complete.sepBy1 (complete_parameter n) .comma (fun _ _ _ => trivial)
    have h := hitems.optional hw ⟨⟨trivial, hcomma⟩, on_sepBy1_of_none hnone⟩
      (by simp at hlt ⊢; omega)
    simp [parameters, on_sepBy, ht, h, hc]

/-! ## Tails of methods and constructors -/

/-- What the rule for a signature takes is a name with all that follows it. -/
theorem sound_signature : Sound signature (CallableTail .committed) := by
  intro l rest s h
  simp only [signature, on_bind, on_pure, Option.bind_eq_some_iff] at h
  obtain ⟨⟨x, m⟩, hx, ⟨ps, k⟩, hps, ⟨es, j⟩, hes, ⟨_, i⟩, hend, he⟩ := h
  obtain ⟨t, ht, rfl⟩ := on_identifier_eq_some.mp hx
  obtain ⟨p, rfl, hp⟩ := sound_parameters hps
  obtain ⟨e, rfl, he'⟩ := sound_clause .throwsKw hes
  obtain ⟨z, rfl, hz⟩ := sound_callableEnd hend
  cases he
  exact ⟨t :: (p ++ (e ++ z)), by simp, .mk ht hp he' hz⟩

/-- A name with all that follows it is what the rule for a signature takes. -/
theorem complete_signature (n : Nat) :
    Complete n signature (CallableTail .committed) fun _ => True := by
  intro w rest s hw _ hlt
  cases hw with
  | @mk t x p e z ps es ht hp he hz =>
    simp only [List.cons_append, List.append_assoc] at hlt ⊢
    simp only [List.length_cons, List.length_append] at hlt
    have hparameters : parameters.on (p ++ (e ++ (z ++ rest))) = some (ps, e ++ (z ++ rest)) :=
      complete_parameters n hp trivial (by simp; omega)
    have hthrows := complete_clause .throwsKw n he (ending_begins.stops (by decide) hz rest)
      (by simp; omega)
    have hend : callableEnd.on (z ++ rest) = some ((), rest) :=
      complete_callableEnd n hz trivial (by simp; omega)
    simp [signature, ht, hparameters, hthrows, hend]

/-- A signature begins with a name. -/
theorem callableTail_begins (r : Reading) : Begins (CallableTail r) isName := by
  rintro w s ⟨ht, _, _, _⟩
  exact ⟨_, _, rfl, by rw [ht]; rfl⟩

/-- No signature is found where no round bracket stands behind the first token. -/
theorem signature_refuses {t : Token} {l : List Token}
    (h : Stops (oneOf [.symbol .leftParen]) l) : signature.on (t :: l) = none := by
  have hnone : parameters.on l = none := sound_parameters.refuses (parameters_begins _) h
  rcases hx : t.identifier? with _ | x
  · simp [signature, hx]
  · simp [signature, hx, hnone]

/-- Behind the first name of a reference to a type stands no round bracket, unless one stands behind
the reference. -/
theorem typeText_second {w : List Token} {x : String} (h : TypeText w x) {rest : List Token}
    (hrest : Stops (oneOf [.symbol .leftParen]) rest) :
    ∃ t v, w ++ rest = t :: v ∧ Stops (oneOf [.symbol .leftParen]) v := by
  cases h with
  | @mk m g s y args ss hm hg hs =>
    have hsuffixes : Stops (oneOf [.symbol .leftParen]) (s ++ rest) := by
      cases hs with
      | nil => exact hrest
      | cons h _ =>
        rw [List.append_assoc]
        exact suffix_begins.stops (by decide) h _
    have harguments : Stops (oneOf [.symbol .leftParen]) (g ++ (s ++ rest)) := by
      cases hg with
      | absent => exact hsuffixes
      | present h => exact generics_begins.stops (by decide) h _
    -- Behind the first name comes a point, or arguments, suffixes and the rest: no parenthesis.
    simp only [List.append_assoc]
    obtain ⟨hm⟩ := hm
    cases hm with
    | one hm =>
      obtain ⟨_⟩ := hm
      exact ⟨_, _, rfl, harguments⟩
    | more hm hdot _ =>
      obtain ⟨_⟩ := hm
      exact ⟨_, _, rfl, stops_of_kind hdot rfl _⟩

/-! ## Tails of fields -/

/-- A literal is read off a token that is one. -/
theorem on_literal_eq_some {l rest : List Token} {x : String} :
    literal.on l = some (x, rest) ↔ ∃ t, t.literal? = some x ∧ l = t :: rest := by
  rcases l with _ | ⟨t, l⟩
  · simp [literal]
  · simp only [literal, on_token_cons, Option.map_eq_some_iff, Prod.mk.injEq, List.cons.injEq]
    constructor
    · rintro ⟨y, hy, rfl, rfl⟩
      exact ⟨t, hy, rfl, rfl⟩
    · rintro ⟨t', hx, rfl, rfl⟩
      exact ⟨x, hx, rfl, rfl⟩

/-- A literal is no delimiter. -/
theorem not_delimiter_of_literal {t : Token} {x : String} (h : t.literal? = some x) :
    t.isDelimiter = false := by
  unfold Token.literal? at h
  split at h <;> simp_all [Token.isDelimiter]

/-- The rule for a literal that a semicolon ends. -/
def loneLiteral : Rule (Option String) := do
  let value ← literal
  symbol .semicolon
  return some value

instance : Local loneLiteral := by
  unfold loneLiteral
  infer_instance

/-- A value is a literal that stands alone, or noise up to the semicolon. -/
theorem fieldValue_eq : fieldValue =
    (loneLiteral <|> do someNoiseUntil isSemicolon; symbol .semicolon; return none) := rfl

/-- A literal stands alone if a semicolon is right behind it. -/
theorem on_loneLiteral_eq_some {l rest : List Token} {v : Option String} :
    loneLiteral.on l = some (v, rest) ↔
      ∃ t u x, t.literal? = some x ∧ u.kind = .symbol .semicolon ∧ v = some x ∧
        l = t :: u :: rest := by
  simp only [loneLiteral, on_bind, on_pure, Option.bind_eq_some_iff]
  constructor
  · rintro ⟨⟨x, m⟩, hx, ⟨_, k⟩, hk, he⟩
    obtain ⟨t, ht, rfl⟩ := on_literal_eq_some.mp hx
    obtain ⟨u, hu, rfl⟩ := on_symbol_eq_some.mp hk
    cases he
    exact ⟨t, u, x, ht, hu, rfl, rfl⟩
  · rintro ⟨t, u, x, ht, hu, rfl, rfl⟩
    refine ⟨(x, u :: rest), on_literal_eq_some.mpr ⟨t, ht, rfl⟩, ((), rest), ?_, rfl⟩
    exact on_symbol_eq_some.mpr ⟨u, hu, rfl⟩

/-- Noise up to a semicolon is read as a literal only if it is one. -/
theorem eq_literal_of_noise {w rest : List Token} {c : Token} {p : Option String × List Token}
    (hw : SomeNoise isSemicolon w ()) (h : loneLiteral.on (w ++ c :: rest) = some p) :
    ∃ t x, t.literal? = some x ∧ w = [t] := by
  obtain ⟨t, u, x, ht, hu, -, hl⟩ := on_loneLiteral_eq_some.mp h
  rcases w with _ | ⟨t', w⟩
  · exact absurd rfl (someNoise_ne_nil hw)
  · obtain ⟨rfl, hsecond⟩ := List.cons.inj hl
    obtain ⟨us, hus⟩ := repeated_of_someNoise hw
    obtain ⟨us, hus⟩ := noise_of_cons (not_delimiter_of_literal ht) hus
    refine ⟨t', x, ht, ?_⟩
    rcases w with _ | ⟨u', w⟩
    · rfl
    · -- The noise would go on with the semicolon.
      obtain ⟨rfl, -⟩ := List.cons.inj hsecond
      rcases head_of_noise hus with h | h <;> simp [hu, openings, isSemicolon] at h

/-- Behind the name of a field there is a semicolon or a sign of equality. -/
theorem fieldTail_begins : Begins FieldTail (oneOf [.symbol .semicolon, .symbol .assign]) := by
  intro w v h
  cases h with
  | plain ht => exact ⟨_, _, rfl, by rw [ht]; rfl⟩
  | literal ht _ _ => exact ⟨_, _, rfl, by rw [ht]; rfl⟩
  | expression ht _ _ _ => exact ⟨_, _, rfl, by rw [ht]; rfl⟩

/-- What the rule for the end of a field takes is one. -/
theorem sound_fieldEnd : Sound fieldEnd FieldTail := by
  refine Sound.orElse ?_ ?_
  · intro l rest v h
    simp only [on_bind, on_pure, Option.bind_eq_some_iff] at h
    obtain ⟨⟨_, m⟩, hl, he⟩ := h
    obtain ⟨t, ht, rfl⟩ := on_symbol_eq_some.mp hl
    cases he
    exact ⟨[t], rfl, .plain ht⟩
  · intro l rest v h
    simp only [on_bind, fieldValue_eq, on_orElse, on_pure, Option.bind_eq_some_iff] at h
    obtain ⟨⟨_, m⟩, hl, h⟩ := h
    obtain ⟨t, ht, rfl⟩ := on_symbol_eq_some.mp hl
    rcases Option.or_eq_some_iff.mp h with h | ⟨hnone, h⟩
    · obtain ⟨t', u, x, ht', hu, rfl, rfl⟩ := on_loneLiteral_eq_some.mp h
      exact ⟨[t, t', u], rfl, .literal ht ht' hu⟩
    · simp only [Option.bind_eq_some_iff] at h
      obtain ⟨⟨_, k⟩, hk, ⟨_, j⟩, hj, he⟩ := h
      obtain ⟨w, rfl, hw⟩ := sound_someNoiseUntil isSemicolon hk
      obtain ⟨u, hu, rfl⟩ := on_symbol_eq_some.mp hj
      cases he
      refine ⟨t :: (w ++ [u]), by simp, .expression ht hw ?_ hu⟩
      rintro v x hv rfl
      have hsome : loneLiteral.on (v :: u :: j) = some (some x, j) :=
        on_loneLiteral_eq_some.mpr ⟨v, u, x, hv, hu, rfl, rfl⟩
      exact absurd (hnone.symm.trans hsome) (by simp)

/-- What ends a field is what the rule for it takes. -/
theorem complete_fieldEnd (n : Nat) : Complete n fieldEnd FieldTail fun _ => True := by
  intro w rest v hw _ hlt
  cases hw with
  | plain ht => simp [fieldEnd, ht]
  | @literal t v u x ht hv hu =>
    have h : loneLiteral.on (v :: u :: rest) = some (some x, rest) :=
      on_loneLiteral_eq_some.mpr ⟨v, u, x, hv, hu, rfl, rfl⟩
    simp [fieldEnd, fieldValue_eq, ht, h]
  | @expression t u w ht hw hother hu =>
    have hnoise := complete_someNoiseUntil isSemicolon n hw (semicolon_ends hu rest)
      (by simp at hlt ⊢; omega)
    have hnone : loneLiteral.on (w ++ u :: rest) = none := by
      rcases h : loneLiteral.on (w ++ u :: rest) with _ | p
      · rfl
      · obtain ⟨t', x, ht', rfl⟩ := eq_literal_of_noise hw h
        exact absurd rfl (hother t' x ht')
    simp [fieldEnd, fieldValue_eq, ht, hnone, hnoise, hu]

end ApiSurface.Grammar
