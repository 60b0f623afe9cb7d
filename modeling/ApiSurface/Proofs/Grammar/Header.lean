import ApiSurface.Proofs.Grammar.Noise
import ApiSurface.Proofs.Grammar.TypeRef

/-!
# Annotations and headers

The rules for annotations and for what stands in front of a declaration are sound and complete for
`Annotated` and `Front`, in the `committed` reading.

The element of an annotation is the one place where the rule decides early: a name with an
assignment mark behind it is taken for the name of the element before the rule knows whether a value
follows. So the rule finds an element in all noise but a name and an assignment mark that stand
alone (`BareKey`), and this is what the committed reading says.
-/

namespace ApiSurface.Grammar

open Rule Phrase Derives

/-! ## Elements -/

/-- The rule for the name of an element. -/
def elementKey : Rule Unit := do
  discard identifier
  symbol .assign

instance : Local elementKey := by
  unfold elementKey
  infer_instance

/-- An element is a key, which may be missing, and noise up to a comma. -/
theorem annotationElement_eq :
    annotationElement = (do discard (optional elementKey); someNoiseUntil isComma) := rfl

/-- The name of an element is taken exactly where an identifier and an assignment mark begin. -/
theorem on_elementKey_eq_some {l rest : List Token} {u : Unit} :
    elementKey.on l = some (u, rest) ↔
      ∃ n e x, n.kind = .identifier x ∧ e.kind = .symbol .assign ∧ l = n :: e :: rest := by
  simp only [elementKey, on_bind, on_discard, Option.bind_eq_some_iff, Option.map_eq_some_iff]
  constructor
  · rintro ⟨_, ⟨⟨x, m⟩, hx, rfl⟩, hm⟩
    obtain ⟨n, hn, rfl⟩ := on_identifier_eq_some.mp hx
    obtain ⟨e, he, rfl⟩ := on_symbol_eq_some.mp hm
    exact ⟨n, e, x, hn, he, rfl⟩
  · rintro ⟨n, e, x, hn, he, rfl⟩
    exact ⟨((), e :: rest), ⟨(x, e :: rest), by simp [hn], rfl⟩, by simp [he]⟩

/-- What the rule for an element takes is one. -/
theorem sound_annotationElement : Sound annotationElement (Element .committed) := by
  intro l rest u h
  simp only [annotationElement_eq, on_bind, on_discard, on_optional, Option.bind_eq_some_iff,
    Option.map_eq_some_iff] at h
  obtain ⟨_, ⟨⟨key, m⟩, hkey, rfl⟩, hm⟩ := h
  obtain ⟨w, hw, hnoise⟩ := sound_someNoiseUntil isComma hm
  simp only at hw
  rcases hl : elementKey.on l with _ | ⟨_, k⟩
  · rw [hl] at hkey
    cases hkey
    refine ⟨w, hw, .value hnoise fun _ hbare => ?_⟩
    -- A bare key would have been taken for the name of an element.
    obtain ⟨hn, he⟩ := hbare
    have hsome : elementKey.on l = some ((), rest) :=
      on_elementKey_eq_some.mpr ⟨_, _, _, hn, he, hw.symm⟩
    rw [hl] at hsome
    cases hsome
  · rw [hl] at hkey
    cases hkey
    obtain ⟨n, e, x, hn, he, rfl⟩ := on_elementKey_eq_some.mp hl
    exact ⟨n :: e :: w, congrArg (n :: e :: ·) hw, .named hn he hnoise⟩

/-- Behind the name of an element the noise goes on, unless it is a bare key. -/
theorem someNoise_of_key {n e : Token} {x : String} {w : List Token}
    (hn : n.kind = .identifier x) (he : e.kind = .symbol .assign)
    (h : SomeNoise isComma (n :: e :: w) ()) (hbare : ¬ BareKey (n :: e :: w)) :
    SomeNoise isComma w () := by
  obtain ⟨us, hus⟩ := repeated_of_someNoise h
  obtain ⟨us, hus⟩ := noise_of_cons (by simp [Token.isDelimiter, hn]) hus
  obtain ⟨us, hus⟩ := noise_of_cons (by simp [Token.isDelimiter, he]) hus
  apply someNoise_of_repeated hus
  rintro rfl
  exact hbare (.mk hn he)

/-- An element is taken up to where no noise follows. -/
theorem complete_annotationElement (n : Nat) :
    Complete n annotationElement (Element .committed) fun rest =>
      (noiseItem isComma).on rest = none := by
  intro w rest u hw hnone hlt
  have hvalue : ∀ v : List Token, SomeNoise isComma v () → (v ++ rest).length < n →
      (someNoiseUntil isComma).on (v ++ rest) = some ((), rest) := fun v hv hlt =>
    complete_someNoiseUntil isComma n hv hnone hlt
  cases hw with
  | @named m e x w hm he hw =>
    have hkey : elementKey.on (m :: e :: (w ++ rest)) = some ((), w ++ rest) :=
      on_elementKey_eq_some.mpr ⟨m, e, x, hm, he, rfl⟩
    have h := hvalue w hw (by simp at hlt ⊢; omega)
    simp [annotationElement_eq, on_optional, hkey, h]
  | value hw hbare =>
    rcases hkey : elementKey.on (w ++ rest) with _ | ⟨_, k⟩
    · simp [annotationElement_eq, on_optional, hkey, hvalue w hw hlt]
    · obtain ⟨m, e, x, hm, he, hl⟩ := on_elementKey_eq_some.mp hkey
      rcases w with _ | ⟨m', _ | ⟨e', w⟩⟩
      · exact absurd rfl (someNoise_ne_nil hw)
      · -- The assignment mark would go on the noise.
        obtain ⟨-, rfl⟩ := List.cons.inj hl
        have hitem := complete_noiseItem isComma _
          (.plain (by simp [Token.isDelimiter, he]) (by rw [he]; rfl)) trivial
          (Nat.lt_succ_self ([e] ++ k).length)
        rw [List.singleton_append] at hitem
        simp [hnone] at hitem
      · simp only [List.cons_append, List.cons.injEq] at hl
        obtain ⟨rfl, rfl, rfl⟩ := hl
        have hrest := someNoise_of_key hm he hw (hbare rfl)
        have h := hvalue w hrest (by simp at hlt ⊢; omega)
        simp only [List.cons_append] at hkey ⊢
        simp [annotationElement_eq, on_optional, hkey, h]

/-- No element begins with a closing bracket. -/
theorem annotationElement_refuses {u : Token} (hu : u.kind = .symbol .rightParen)
    (l : List Token) : annotationElement.on (u :: l) = none := by
  have hnoise : (noiseItem isComma).on (u :: l) = none := closing_ends (b := .round) hu isComma l
  have hname : u.identifier? = none := by simp [Token.identifier?, hu]
  simp [annotationElement_eq, elementKey, on_optional, someNoiseUntil, hnoise, hname]

/-! ## Annotations -/

/-- What the rule for elements takes is a list of them. -/
theorem sound_annotationElements : Sound annotationElements (Elements .committed) := by
  intro l rest u h
  simp only [annotationElements, on_discard, on_between, Option.map_eq_some_iff,
    Option.bind_eq_some_iff] at h
  obtain ⟨_, ⟨⟨_, m⟩, hl, ⟨us, k⟩, hm, ⟨_, k'⟩, hk, rfl⟩, he⟩ := h
  obtain ⟨t, ht, rfl⟩ := on_symbol_eq_some.mp hl
  obtain ⟨w, rfl, hw⟩ := Sound.sepByTrailing sound_annotationElement hm
  obtain ⟨c, hc, hk⟩ := on_symbol_eq_some.mp hk
  cases he
  refine ⟨t :: (w ++ [c]), ?_, .mk ht hw hc⟩
  simp only at hk
  rw [hk]
  simp

/-- Elements are taken up to their closing parenthesis. -/
theorem complete_annotationElements (n : Nat) :
    Complete n annotationElements (Elements .committed) fun _ => True := by
  intro w rest u hw _ hlt
  cases hw with
  | @mk t c w us ht hw hc =>
    have hend := closing_ends (b := .round) hc isComma rest
    have h := Complete.sepByTrailing (complete_annotationElement n)
      (fun _ l ht => comma_ends ht l) hw
      ⟨hend, annotationElement_refuses hc rest, stops_of_kind hc rfl _⟩
      (by simp at hlt ⊢; omega)
    simp [annotationElements, ht, h, hc]

/-- Elements begin with a parenthesis. -/
theorem elements_begins (r : Reading) : Begins (Elements r) (oneOf [.symbol .leftParen]) := by
  rintro w u ⟨ht, _, _⟩
  exact ⟨_, _, rfl, by rw [ht]; rfl⟩

/-- An annotation begins with an at sign. -/
theorem annotated_begins (r : Reading) : Begins (Annotated r) (oneOf [.symbol .atSign]) := by
  rintro w x ⟨ht, _, _⟩
  exact ⟨_, _, rfl, by rw [ht]; rfl⟩

/-- What the rule for annotations takes is one. -/
theorem sound_annotationName : Sound annotationName (Annotated .committed) := by
  intro l rest x h
  simp only [annotationName, on_bind, on_discard, on_pure, Option.bind_eq_some_iff,
    Option.map_eq_some_iff] at h
  obtain ⟨⟨_, m⟩, hl, ⟨y, k⟩, hy, _, ⟨⟨e, j⟩, hj, rfl⟩, he⟩ := h
  obtain ⟨t, ht, rfl⟩ := on_symbol_eq_some.mp hl
  obtain ⟨w, rfl, hw⟩ := sound_dottedName hy
  obtain ⟨v, rfl, hv⟩ := sound_annotationElements.optional hj
  cases he
  exact ⟨t :: (w ++ v), by simp, .mk ht hw hv⟩

/-- The kinds that continue an annotation. -/
def annotatedStops : List TokenKind := [.symbol .dot, .symbol .leftParen]

/-- An annotation is taken up to where neither its name nor elements go on. -/
theorem complete_annotationName (n : Nat) :
    Complete n annotationName (Annotated .committed) (Stops (oneOf annotatedStops)) := by
  intro w rest x hw hstop hlt
  cases hw with
  | @mk t w v x e ht hw hv =>
    rw [List.cons_append, List.append_assoc] at hlt ⊢
    simp only [List.length_cons, List.length_append] at hlt
    have hname : dottedName.on (w ++ (v ++ rest)) = some (x, v ++ rest) := by
      refine complete_dottedName n hw ?_ (by simp; omega)
      cases hv with
      | absent => exact hstop.subset (by decide)
      | present hv => exact (elements_begins _).stops (by decide) hv rest
    have helements : (optional annotationElements).on (v ++ rest) = some (e, rest) := by
      have hnone := sound_annotationElements.refuses (elements_begins _) (hstop.subset (by decide))
      exact (complete_annotationElements n).optional hv ⟨trivial, hnone⟩ (by simp; omega)
    simp [annotationName, ht, hname, helements]

/-- Annotations are taken to the last, if none follows. -/
theorem complete_annotations (n : Nat) :
    Complete n annotations (Repeated (Annotated .committed))
      (Stops (oneOf (.symbol .atSign :: annotatedStops))) := by
  intro w rest xs hw hstop hlt
  have hnone := sound_annotationName.refuses (annotated_begins _) (hstop.subset (by decide))
  exact Complete.many (complete_annotationName n) (fun _ _ h => (annotated_begins _).ne_nil h)
    (fun _ _ rest h => (annotated_begins _).stops (by decide) h rest) hw
    ⟨hstop.subset (by decide), hnone⟩ hlt

/-! ## Headers -/

/-- The kinds that an item of a header begins with. -/
def frontStarts : List TokenKind :=
  [.symbol .atSign, .symbol .less] ++ Keyword.modifiers.map .keyword

/-- The kinds that continue a header. -/
def frontStops : List TokenKind := frontStarts ++ annotatedStops

/-- A modifier is one of the keywords for modifiers. -/
theorem kind_of_isModifier {t : Token} (h : t.isModifier = true) :
    ∃ k ∈ Keyword.modifiers, t.kind = .keyword k := by
  unfold Token.isModifier at h
  split at h
  · rename_i k hk
    exact ⟨k, by simpa [Keyword.isModifier] using h, hk⟩
  · cases h

/-- An item of a header begins with an at sign, an angle bracket or a modifier. -/
theorem frontItem_begins (r : Reading) : Begins (FrontItem r) (oneOf frontStarts) := by
  intro w i h
  cases h with
  | annotated hw =>
    obtain ⟨t, v, rfl, hk⟩ := (annotated_begins r).exists_kind hw
    exact ⟨t, v, rfl, by rw [hk]; decide⟩
  | @modifier t ht =>
    obtain ⟨k, hmem, hk⟩ := kind_of_isModifier ht
    refine ⟨t, [], rfl, ?_⟩
    rw [hk]
    simp [oneOf, frontStarts, hmem]
  | generics hw =>
    obtain ⟨t, v, rfl, hk⟩ := generics_begins.exists_kind hw
    exact ⟨t, v, rfl, by rw [hk]; decide⟩

/-- What the rule for items of a header takes is one. -/
theorem sound_headerItem : Sound headerItem (FrontItem .committed) := by
  refine Sound.orElse ?_ (Sound.orElse ?_ ?_)
  · intro l rest i h
    simp only [on_bind, on_pure, Option.bind_eq_some_iff] at h
    obtain ⟨⟨x, m⟩, hx, he⟩ := h
    obtain ⟨w, rfl, hw⟩ := sound_annotationName hx
    cases he
    exact ⟨w, rfl, .annotated hw⟩
  · intro l rest i h
    simp only [on_bind, on_pure, Option.bind_eq_some_iff] at h
    obtain ⟨⟨x, m⟩, hx, he⟩ := h
    cases he
    obtain ⟨t, ht, hlex, rfl⟩ := on_modifier_eq_some.mp hx
    subst hlex
    exact ⟨[t], rfl, .modifier ht⟩
  · intro l rest i h
    simp only [on_bind, on_pure, Option.bind_eq_some_iff] at h
    obtain ⟨⟨xs, m⟩, hxs, he⟩ := h
    obtain ⟨w, rfl, hw⟩ := sound_genericList hxs
    cases he
    exact ⟨w, rfl, .generics hw⟩

/-- An item of a header is taken up to where no annotation goes on. -/
theorem complete_headerItem (n : Nat) :
    Complete n headerItem (FrontItem .committed) (Stops (oneOf annotatedStops)) := by
  intro w rest i hw hstop hlt
  cases hw with
  | annotated hw =>
    have h := complete_annotationName n hw hstop hlt
    simp [headerItem, h]
  | @modifier t ht =>
    obtain ⟨k, hmem, hk⟩ := kind_of_isModifier ht
    have hno : annotationName.on (t :: rest) = none := by simp [annotationName, hk]
    simp [headerItem, hno, modifier, ht]
  | @generics w xs hw =>
    have h := complete_genericList n hw trivial hlt
    have hno : annotationName.on (w ++ rest) = none :=
      sound_annotationName.refuses (annotated_begins _) (generics_begins.stops (by decide) hw rest)
    have hno' : modifier.on (w ++ rest) = none := by
      obtain ⟨t, v, rfl, hk⟩ := generics_begins.exists_kind hw
      simp [modifier, Token.isModifier, hk]
    simp [headerItem, hno, hno', h]

/-- What the rule for headers takes is all that stands in front of a declaration. -/
theorem sound_header : Sound header (Front .committed) := by
  intro l rest h hl
  simp only [header, on_bind, on_pure, Option.bind_eq_some_iff] at hl
  obtain ⟨⟨items, m⟩, hm, he⟩ := hl
  obtain ⟨w, rfl, hw⟩ := sound_headerItem.many hm
  cases he
  exact ⟨w, rfl, .mk hw⟩

/-- A header is taken up to where no further item follows. -/
theorem complete_header (n : Nat) :
    Complete n header (Front .committed) (Stops (oneOf frontStops)) := by
  intro w rest h hw hstop hlt
  cases hw with
  | mk hw =>
    have hnone := sound_headerItem.refuses (frontItem_begins _) (hstop.subset (by decide))
    have hitems := Complete.many (complete_headerItem n)
      (fun _ _ h => (frontItem_begins _).ne_nil h)
      (fun _ _ rest h => (frontItem_begins _).stops (by decide) h rest) hw
      ⟨hstop.subset (by decide), hnone⟩ hlt
    simp [header, hitems]

end ApiSurface.Grammar
