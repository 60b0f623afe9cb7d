import ApiSurface.Proofs.Grammar.Word

/-!
# References to types

The rules for references to types are sound and complete for `TypeText`. A reference ends before any
token but a point, an angle bracket, a square bracket and an ellipsis (`typeStops`), and none of
these can follow a reference in a file. The induction is the one for recursive rules: the references
inside the angle brackets of a reference are read where fewer tokens are left.
-/

namespace ApiSurface.Grammar

open Rule Phrase Derives

section

variable (type : Rule String) [Local type]

instance : Local (typeBound type) := by
  unfold typeBound
  infer_instance

instance : Local (typeArgument type) := by
  unfold typeArgument
  infer_instance

instance : Local (typeArguments type) := by
  unfold typeArguments
  infer_instance

end

/-! ## Array brackets and ellipses -/

/-- The kinds that a suffix begins with. -/
def suffixStarts : List TokenKind := [.symbol .leftBracket, .symbol .ellipsis]

/-- A suffix begins with a square bracket or with three points. -/
theorem suffix_begins : Begins Suffix (oneOf suffixStarts) := by
  rintro w x (⟨ht, _⟩ | ht)
  · exact ⟨_, _, rfl, by rw [ht]; rfl⟩
  · exact ⟨_, _, rfl, by rw [ht]; rfl⟩

/-- What the rule for a suffix takes is one. -/
theorem sound_typeSuffix : Sound typeSuffix Suffix := by
  unfold typeSuffix
  refine Sound.orElse ?_ ?_
  · intro l rest x h
    simp only [on_bind, on_pure, Option.bind_eq_some_iff] at h
    obtain ⟨⟨_, m⟩, hl, ⟨_, k⟩, hm, he⟩ := h
    obtain ⟨t, ht, rfl⟩ := on_symbol_eq_some.mp hl
    obtain ⟨u, hu, rfl⟩ := on_symbol_eq_some.mp hm
    cases he
    exact ⟨[t, u], rfl, .brackets ht hu⟩
  · intro l rest x h
    simp only [on_bind, on_pure, Option.bind_eq_some_iff] at h
    obtain ⟨⟨_, m⟩, hl, he⟩ := h
    obtain ⟨t, ht, rfl⟩ := on_symbol_eq_some.mp hl
    cases he
    exact ⟨[t], rfl, .dots ht⟩

/-- A suffix is what the rule for it takes. -/
theorem complete_typeSuffix (n : Nat) : Complete n typeSuffix Suffix fun _ => True := by
  intro w rest x hw _ _
  cases hw with
  | brackets ht hu => simp [typeSuffix, ht, hu]
  | dots ht => simp [typeSuffix, ht]

/-! ## Bounds, arguments and lists of arguments -/

/-- The kinds that continue a reference to a type. -/
def typeStops : List TokenKind :=
  [.symbol .dot, .symbol .less, .symbol .leftBracket, .symbol .ellipsis]

/-- The kinds that continue a reference to a type or a list of bounds. -/
def boundStops : List TokenKind := .symbol .ampersand :: typeStops

/-- The kinds that a bound begins with. -/
def boundStarts : List TokenKind := [.keyword .extendsKw, .keyword .superKw]

section

variable {T : Phrase String} {type : Rule String} [Local type]

/-- A bound begins with one of its two keywords. -/
theorem bound_begins : Begins (Bound T) (oneOf boundStarts) := by
  rintro w x (⟨ht, _⟩ | ⟨ht, _⟩)
  · exact ⟨_, _, rfl, by rw [ht]; rfl⟩
  · exact ⟨_, _, rfl, by rw [ht]; rfl⟩

/-- What the rule for a bound takes is one, if types inside are. -/
theorem sound_typeBound (hT : Sound type T) : Sound (typeBound type) (Bound T) := by
  unfold typeBound
  refine Sound.orElse ?_ ?_
  · intro l rest x h
    simp only [on_bind, on_pure, Option.bind_eq_some_iff] at h
    obtain ⟨⟨_, m⟩, hl, ⟨xs, k⟩, hm, he⟩ := h
    obtain ⟨t, ht, rfl⟩ := on_keyword_eq_some.mp hl
    obtain ⟨w, rfl, hw⟩ := Sound.sepBy1 hT .ampersand hm
    cases he
    exact ⟨t :: w, rfl, .upper ht hw⟩
  · intro l rest x h
    simp only [on_bind, on_pure, Option.bind_eq_some_iff] at h
    obtain ⟨⟨_, m⟩, hl, ⟨y, k⟩, hm, he⟩ := h
    obtain ⟨t, ht, rfl⟩ := on_keyword_eq_some.mp hl
    obtain ⟨w, rfl, hw⟩ := hT hm
    cases he
    exact ⟨t :: w, rfl, .lower ht hw⟩

/-- A bound is taken up to where neither it nor its last type goes on. -/
theorem complete_typeBound {n : Nat} (hT : Complete n type T (Stops (oneOf typeStops))) :
    Complete n (typeBound type) (Bound T) (Stops (oneOf boundStops)) := by
  intro w rest x hw hstop hlt
  have htype : Stops (oneOf typeStops) rest := hstop.subset (by decide)
  have hand : Stops (oneOf [.symbol .ampersand]) rest := hstop.subset (by decide)
  cases hw with
  | @upper t w xs ht hw =>
    rw [List.cons_append, List.length_cons] at hlt
    have h := Complete.sepBy1 hT .ampersand (fun _ l ht => stops_of_kind ht rfl l) hw
      ⟨htype, on_afterSymbol_of_stops hand⟩ (by omega)
    simp [typeBound, ht, h]
  | @lower t w y ht hw =>
    rw [List.cons_append, List.length_cons] at hlt
    have h := hT hw htype (by omega)
    simp [typeBound, ht, h]

/-- The kinds that continue a type argument. -/
def argumentStops : List TokenKind := boundStarts ++ boundStops

/-- What the rule for an argument takes is one, if types inside are. -/
theorem sound_typeArgument (hT : Sound type T) : Sound (typeArgument type) (Argument T) := by
  intro l rest x h
  simp only [typeArgument, on_bind, on_pure, Option.bind_eq_some_iff] at h
  obtain ⟨⟨y, m⟩, hy, ⟨b, k⟩, hb, he⟩ := h
  cases he
  obtain ⟨v, rfl, hv⟩ := (sound_typeBound hT).optional hb
  rw [on_orElse, Option.or_eq_some_iff] at hy
  rcases hy with hy | ⟨-, hy⟩
  · simp only [on_bind, on_pure, Option.bind_eq_some_iff] at hy
    obtain ⟨⟨_, m'⟩, hq, he⟩ := hy
    obtain ⟨t, ht, rfl⟩ := on_symbol_eq_some.mp hq
    cases he
    exact ⟨t :: v, rfl, .wildcard ht hv⟩
  · obtain ⟨w, rfl, hw⟩ := hT hy
    exact ⟨w ++ v, List.append_assoc _ _ _, .type hw hv⟩

/-- The optional bound of an argument is taken or found missing. -/
theorem complete_optionalBound {n : Nat} (hS : Sound type T)
    (hT : Complete n type T (Stops (oneOf typeStops))) :
    Complete n (optional (typeBound type)) (Optional (Bound T)) (Stops (oneOf argumentStops)) := by
  intro w rest x hw hstop hlt
  have hnone := (sound_typeBound hS).refuses bound_begins (hstop.subset (by decide))
  exact (complete_typeBound hT).optional hw ⟨hstop.subset (by decide), hnone⟩ hlt

/-- An argument is taken up to where neither it nor its last type goes on. -/
theorem complete_typeArgument {n : Nat} (hS : Sound type T)
    (hT : Complete n type T (Stops (oneOf typeStops))) (hbegin : T.Begins isName) :
    Complete n (typeArgument type) (Argument T) (Stops (oneOf argumentStops)) := by
  intro w rest x hw hstop hlt
  cases hw with
  | @wildcard t w b ht hw =>
    have h := complete_optionalBound hS hT hw hstop (by simp at hlt ⊢; omega)
    simp [typeArgument, ht, h]
  | @type w v y b hw hv =>
    have hb := complete_optionalBound hS hT hv hstop (by simp at hlt ⊢; omega)
    have hv' : Stops (oneOf typeStops) (v ++ rest) := by
      cases hv with
      | absent => exact hstop.subset (by decide)
      | present hv => exact bound_begins.stops (by decide) hv rest
    have h := hT hw hv' (by simpa using hlt)
    obtain ⟨t, u, rfl, hname⟩ := hbegin hw
    obtain ⟨z, ht⟩ := exists_of_isName hname
    simp only [List.cons_append] at h
    simp [typeArgument, ht, h, hb]

/-- What the rule for arguments takes is a list of them, if types inside are. -/
theorem sound_typeArguments (hT : Sound type T) : Sound (typeArguments type) (Generics T) := by
  intro l rest xs h
  simp only [typeArguments, on_between, Option.bind_eq_some_iff, Option.map_eq_some_iff] at h
  obtain ⟨⟨_, m⟩, hl, ⟨ys, k⟩, hm, ⟨_, k'⟩, hk, he⟩ := h
  obtain ⟨t, ht, rfl⟩ := on_symbol_eq_some.mp hl
  obtain ⟨w, rfl, hw⟩ := Sound.sepBy1 (sound_typeArgument hT) .comma hm
  obtain ⟨u, hu, hk⟩ := on_symbol_eq_some.mp hk
  cases he
  refine ⟨t :: (w ++ [u]), ?_, .mk ht hw hu⟩
  simp only at hk
  rw [hk]
  simp

/-- Arguments begin with an angle bracket. -/
theorem generics_begins : Begins (Generics T) (oneOf [.symbol .less]) := by
  rintro w xs ⟨ht, _, _⟩
  exact ⟨_, _, rfl, by rw [ht]; rfl⟩

/-- Arguments are taken up to their closing bracket. -/
theorem complete_typeArguments {n : Nat} (hS : Sound type T)
    (hT : Complete n type T (Stops (oneOf typeStops))) (hbegin : T.Begins isName) :
    Complete n (typeArguments type) (Generics T) fun _ => True := by
  intro w rest xs hw _ hlt
  cases hw with
  | @mk t u w xs ht hw hu =>
    have hargument := complete_typeArgument hS hT hbegin
    have hend : Stops (oneOf argumentStops) (u :: rest) := stops_of_kind hu rfl rest
    have hcomma : (discard (symbol .comma) >>= fun _ => typeArgument type).on (u :: rest) = none :=
      on_afterSymbol_of_stops (stops_of_kind hu rfl _)
    have h := Complete.sepBy1 hargument .comma (fun _ l ht => stops_of_kind ht rfl l) hw
      ⟨hend, hcomma⟩ (by simp at hlt ⊢; omega)
    simp [typeArguments, ht, h, hu]

end

/-! ## References -/

/-- A type begins with a name. -/
theorem typeText_begins : Begins TypeText isName := by
  rintro w x ⟨hn, _, _⟩
  obtain ⟨t, v, rfl, ht⟩ := dottedName_begins hn
  exact ⟨t, _, rfl, ht⟩

/-- A name with arguments and suffixes, for references `T` inside the arguments -/
inductive Reference (T : Phrase String) : List Token → String → Prop
  | mk {n g s : List Token} {x : String} {args : Option (List String)} {ss : List String} :
      DottedName n x → Optional (Generics T) g args → Repeated Suffix s ss →
      Reference T (n ++ (g ++ s)) (x ++ argumentsText args ++ String.join ss)

/-- What the body of the rule takes is a reference, if types inside are. -/
theorem sound_typeRefBody {T : Phrase String} {type : Rule String} [Local type]
    (hT : Sound type T) : Sound (typeRefBody type) (Reference T) := by
  intro l rest x h
  simp only [typeRefBody, on_bind, on_pure, Option.bind_eq_some_iff] at h
  obtain ⟨⟨y, m⟩, hy, ⟨args, k⟩, hargs, ⟨ss, j⟩, hss, he⟩ := h
  obtain ⟨w, rfl, hw⟩ := sound_dottedName hy
  obtain ⟨g, rfl, hg⟩ := (sound_typeArguments hT).optional hargs
  obtain ⟨s, rfl, hs⟩ := sound_typeSuffix.many hss
  cases he
  exact ⟨w ++ (g ++ s), by simp, .mk hw hg hs⟩

/-- What the rule for types takes is a type. -/
theorem sound_typeRef : Sound typeRef TypeText := by
  apply Sound.recursive
  intro type _ hT
  refine (sound_typeRefBody hT).mono ?_
  rintro w x ⟨hn, hg, hs⟩
  exact .mk hn hg hs

/-- Array brackets and ellipses are taken to the last. -/
theorem complete_suffixes (n : Nat) :
    Complete n (many typeSuffix) (Repeated Suffix) (Stops (oneOf suffixStarts)) := by
  intro w rest ss hw hstop hlt
  have hnone := sound_typeSuffix.refuses suffix_begins hstop
  exact Complete.many (complete_typeSuffix n) (fun _ _ h => suffix_begins.ne_nil h)
    (fun _ _ _ _ => trivial) hw ⟨trivial, hnone⟩ hlt

/-- Behind the name and the arguments of a reference stands neither a point nor an angle bracket. -/
theorem suffixes_stops {s : List Token} {ss : List String} (hs : Repeated Suffix s ss)
    {rest : List Token} (hstop : Stops (oneOf typeStops) rest) :
    Stops (oneOf [.symbol .dot, .symbol .less]) (s ++ rest) := by
  cases hs with
  | nil => exact hstop.subset (by decide)
  | cons h _ =>
    rw [List.append_assoc]
    exact suffix_begins.stops (by decide) h _

/-- A type is taken up to where it does not go on. -/
theorem complete_typeRef (n : Nat) :
    Complete n typeRef TypeText (Stops (oneOf typeStops)) := by
  refine Complete.recursive sound_typeRef ?_ n
  intro n type _ hS hT w rest x hw hstop hlt
  cases hw with
  | @mk m g s y args ss hm hg hs =>
    have hpos := List.length_pos_iff.mpr (dottedName_begins.ne_nil hm)
    simp only [List.append_assoc] at hlt ⊢
    simp only [List.length_append] at hlt
    have hafter := suffixes_stops hs hstop
    have hname : dottedName.on (m ++ (g ++ (s ++ rest))) = some (y, g ++ (s ++ rest)) := by
      refine complete_dottedName (n + 1) hm ?_ (by simp; omega)
      cases hg with
      | absent => exact hafter.subset (by decide)
      | present hg => exact generics_begins.stops (by decide) hg _
    have hargs :
        (optional (typeArguments type)).on (g ++ (s ++ rest)) = some (args, s ++ rest) := by
      have hnone := (sound_typeArguments hS).refuses generics_begins (hafter.subset (by decide))
      exact (complete_typeArguments hS hT typeText_begins).optional hg ⟨trivial, hnone⟩
        (by simp; omega)
    have hsuffixes := complete_suffixes (n + 1) hs (hstop.subset (by decide)) (by simp; omega)
    simp [typeRefBody, hname, hargs, hsuffixes]

/-- What holds of every reference, if it holds of the references inside it, holds of all. -/
theorem typeText_induction {P : Phrase String} (h : ∀ ⦃w x⦄, Reference P w x → P w x)
    {w : List Token} {x : String} (hw : TypeText w x) : P w x := by
  have hsound : Sound typeRef P := by
    apply Sound.recursive
    intro type _ hT
    exact (sound_typeRefBody hT).mono h
  have hon : typeRef.on (w ++ []) = some (x, []) :=
    complete_typeRef _ hw (stops_nil _) (Nat.lt_succ_self _)
  obtain ⟨v, hv, hP⟩ := hsound hon
  obtain rfl : v = w := List.append_cancel_right hv
  exact hP

/-- What the rule for type parameters takes is a list of arguments. -/
theorem sound_genericList : Sound genericList (Generics TypeText) :=
  sound_typeArguments sound_typeRef

/-- A list of arguments is what the rule for type parameters takes. -/
theorem complete_genericList (n : Nat) :
    Complete n genericList (Generics TypeText) fun _ => True :=
  complete_typeArguments sound_typeRef (complete_typeRef n) typeText_begins

/-! ## Lists of types, and clauses -/

/-- The kinds that continue a list of types. -/
def listStops : List TokenKind := .symbol .comma :: typeStops

/-- What the rule for a list of types takes is one. -/
theorem sound_typeList : Sound typeList (Separated .comma TypeText) :=
  Sound.sepBy1 sound_typeRef .comma

/-- A list of types is taken up to where it does not go on. -/
theorem complete_typeList (n : Nat) :
    Complete n typeList (Separated .comma TypeText) (Stops (oneOf listStops)) := by
  intro w rest xs hw hstop hlt
  have hcomma : (discard (symbol .comma) >>= fun _ => typeRef).on rest = none :=
    on_afterSymbol_of_stops (hstop.subset (by decide))
  exact Complete.sepBy1 (complete_typeRef n) .comma (fun _ l ht => stops_of_kind ht rfl l) hw
    ⟨hstop.subset (by decide), hcomma⟩ hlt

/-- A clause gives its types, and none if the keyword is missing. -/
theorem on_clause (k : Keyword) (l : List Token) :
    (clause k).on l =
      ((optional (keyword k >>= fun _ => typeList)).on l).map fun p => (p.1.getD [], p.2) := by
  simp only [clause, on_bind, on_pure, Option.map_eq_bind, Function.comp_def]

/-- What the rule for a clause takes is one. -/
theorem sound_clause (k : Keyword) : Sound (clause k) (Clause k) := by
  intro l rest xs h
  rw [on_clause, on_optional] at h
  rcases hl : (keyword k >>= fun _ => typeList).on l with _ | ⟨ys, m⟩
  · rw [hl] at h
    cases h
    exact ⟨[], rfl, .absent⟩
  · rw [hl] at h
    cases h
    simp only [on_bind, Option.bind_eq_some_iff] at hl
    obtain ⟨⟨_, m'⟩, hk, hm⟩ := hl
    obtain ⟨t, ht, rfl⟩ := on_keyword_eq_some.mp hk
    obtain ⟨w, rfl, hw⟩ := sound_typeList hm
    exact ⟨t :: w, rfl, .present ht hw⟩

/-- A clause is taken up to where neither it nor its keyword follows. -/
theorem complete_clause (k : Keyword) (n : Nat) :
    Complete n (clause k) (Clause k) (Stops (oneOf (.keyword k :: listStops))) := by
  intro w rest xs hw hstop hlt
  rw [on_clause, on_optional]
  cases hw with
  | absent =>
    have hnone : (keyword k >>= fun _ => typeList).on rest = none := by
      rcases rest with _ | ⟨t, rest⟩
      · simp
      · have ht : ¬ t.kind = .keyword k := by
          intro hk
          rw [stops_cons, hk] at hstop
          simp [oneOf] at hstop
        simp [ht]
    simp [hnone]
  | @present t w xs ht hw =>
    have hstop' : Stops (oneOf listStops) rest :=
      hstop.subset fun _ hk => List.mem_cons_of_mem _ hk
    have h := complete_typeList n hw hstop' (by simp at hlt ⊢; omega)
    simp [ht, h]

end ApiSurface.Grammar
