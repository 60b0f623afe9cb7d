import ApiSurface.Proofs.Grammar.Derivation
import ApiSurface.Proofs.Grammar.Described

/-!
# Single tokens, lists with separators, and names

What the rules for one token do to a list, in both directions: an equation for a list that begins
with a known token, and what a success says about the list. Lists with separators are sound and
complete for `Separated` and `Trailing`; names and import targets follow from them.
-/

namespace ApiSurface.Grammar

open Rule Phrase Derives

variable {α : Type}

/-! ## One token -/

instance (p : Token → Bool) : Local (tokenWith p) := by
  unfold tokenWith
  infer_instance

/-- A rule for tokens of one kind fails at the end of a list. -/
@[simp] theorem on_exactly_nil (kind : TokenKind) (label : String) :
    (exactly kind label).on [] = none := rfl

/-- A rule for tokens of one kind reads the first of a list if it is of that kind. -/
@[simp] theorem on_exactly_cons (kind : TokenKind) (label : String) (t : Token) (l : List Token) :
    (exactly kind label).on (t :: l) = if t.kind = kind then some ((), l) else none := by
  unfold exactly
  rw [on_token_cons]
  split_ifs <;> rfl

/-- A token of one kind is taken exactly where it comes first. -/
theorem on_exactly_eq_some {kind : TokenKind} {label : String} {l rest : List Token} {u : Unit} :
    (exactly kind label).on l = some (u, rest) ↔ ∃ t, t.kind = kind ∧ l = t :: rest := by
  rcases l with _ | ⟨t, l⟩
  · simp
  · rw [on_exactly_cons]
    constructor
    · intro h
      split_ifs at h with hk
      cases h
      exact ⟨t, hk, rfl⟩
    · rintro ⟨t', hk, he⟩
      cases he
      rw [if_pos hk]

/-- No symbol stands at the end of a list. -/
@[simp] theorem on_symbol_nil (s : Symbol) : (symbol s).on [] = none := rfl

/-- A symbol is read if the first token is that symbol. -/
@[simp] theorem on_symbol_cons (s : Symbol) (t : Token) (l : List Token) :
    (symbol s).on (t :: l) = if t.kind = .symbol s then some ((), l) else none :=
  on_exactly_cons _ _ t l

/-- What is left by a symbol stands behind it. -/
theorem on_symbol_eq_some {s : Symbol} {l rest : List Token} {u : Unit} :
    (symbol s).on l = some (u, rest) ↔ ∃ t, t.kind = .symbol s ∧ l = t :: rest :=
  on_exactly_eq_some

/-- Behind the last token nothing begins with a symbol. -/
theorem between_behind {β : Type} (s : Symbol) (after : Rule β) (r : Rule α) {ts : Array Token}
    {i : Nat} (hi : ts.size ≤ i) :
    ∃ cause, (discard (between (symbol s) after r) : Rule Unit) ts i = .failure cause := by
  have hnone : ts[i]? = none := Array.getElem?_eq_none hi
  have hsymbol : symbol s ts i = .failure ⟨i, .one ("'" ++ s.text ++ "'")⟩ := by
    simp [symbol, exactly, token, hnone]
  exact ⟨_, discard_of_failure (bind_of_failure (discard_of_failure hsymbol))⟩

/-- No keyword stands at the end of a list. -/
@[simp] theorem on_keyword_nil (k : Keyword) : (keyword k).on [] = none := rfl

/-- A keyword is read if the first token is that keyword. -/
@[simp] theorem on_keyword_cons (k : Keyword) (t : Token) (l : List Token) :
    (keyword k).on (t :: l) = if t.kind = .keyword k then some ((), l) else none :=
  on_exactly_cons _ _ t l

/-- What is left by a keyword stands behind it. -/
theorem on_keyword_eq_some {k : Keyword} {l rest : List Token} {u : Unit} :
    (keyword k).on l = some (u, rest) ↔ ∃ t, t.kind = .keyword k ∧ l = t :: rest :=
  on_exactly_eq_some

/-- A list without tokens has no end of the input. -/
@[simp] theorem on_endOfInput_nil : endOfInput.on [] = none := rfl

/-- The end of the input is read if the first token is that. -/
@[simp] theorem on_endOfInput_cons (t : Token) (l : List Token) :
    endOfInput.on (t :: l) = if t.kind = .eof then some ((), l) else none :=
  on_exactly_cons _ _ t l

/-- What is left by the end of the input stands behind it. -/
theorem on_endOfInput_eq_some {l rest : List Token} {u : Unit} :
    endOfInput.on l = some (u, rest) ↔ ∃ t, t.kind = .eof ∧ l = t :: rest :=
  on_exactly_eq_some

/-- No identifier stands at the end of a list. -/
@[simp] theorem on_identifier_nil : identifier.on [] = none := rfl

/-- An identifier is read if the first token is one. -/
@[simp] theorem on_identifier_cons (t : Token) (l : List Token) :
    identifier.on (t :: l) = t.identifier?.map fun x => (x, l) :=
  on_token_cons _ _ t l

/-- The identifier of a token is that of its kind. -/
theorem identifier?_eq_some {t : Token} {x : String} :
    t.identifier? = some x ↔ t.kind = .identifier x := by
  unfold Token.identifier?
  split <;> simp_all

/-- An identifier is found under its kind. -/
@[simp] theorem identifier?_of_kind {t : Token} {x : String} (h : t.kind = .identifier x) :
    t.identifier? = some x := identifier?_eq_some.mpr h

/-- What is left by an identifier stands behind it. -/
theorem on_identifier_eq_some {l rest : List Token} {x : String} :
    identifier.on l = some (x, rest) ↔ ∃ t, t.kind = .identifier x ∧ l = t :: rest := by
  rcases l with _ | ⟨t, l⟩
  · simp
  · rw [on_identifier_cons, Option.map_eq_some_iff]
    simp only [identifier?_eq_some, Prod.mk.injEq, List.cons.injEq]
    constructor
    · rintro ⟨y, hy, rfl, rfl⟩
      exact ⟨t, hy, rfl, rfl⟩
    · rintro ⟨t', hk, rfl, rfl⟩
      exact ⟨x, hk, rfl, rfl⟩

/-- A modifier is read as its lexeme. -/
theorem on_modifier_eq_some {l rest : List Token} {x : String} :
    modifier.on l = some (x, rest) ↔
      ∃ t, t.isModifier = true ∧ t.lexeme = x ∧ l = t :: rest := by
  rcases l with _ | ⟨t, l⟩
  · simp [modifier]
  · simp only [modifier, on_token_cons, Option.map_eq_some_iff, Prod.mk.injEq, List.cons.injEq]
    constructor
    · rintro ⟨y, hy, rfl, rfl⟩
      split_ifs at hy with ht
      cases hy
      exact ⟨t, ht, rfl, rfl, rfl⟩
    · rintro ⟨t', ht, rfl, rfl, rfl⟩
      exact ⟨t.lexeme, if_pos ht, rfl, rfl⟩

/-! ## Lists with separators -/

/-- A separator and a word behind it. -/
def AfterSymbol (s : Symbol) (P : Phrase α) : Phrase α := fun w a =>
  ∃ t v, w = t :: v ∧ t.kind = .symbol s ∧ P v a

/-- A word, and words with a separator in front of each, are separated words. -/
theorem separated_of_repeated {s : Symbol} {P : Phrase α} {w v : List Token} {a : α} {as : List α}
    (hw : P w a) (hv : Repeated (AfterSymbol s P) v as) : Separated s P (w ++ v) (a :: as) := by
  induction hv generalizing w a with
  | nil =>
    rw [List.append_nil]
    exact .one hw
  | @cons w' v' a' as' hstep hrest ih =>
    obtain ⟨t, u, rfl, ht, hu⟩ := hstep
    exact .more hw ht (ih hu)

/-- What is taken behind a symbol is a word with the symbol in front. -/
theorem Sound.afterSymbol {r : Rule α} [Local r] {P : Phrase α} (hr : Sound r P) (s : Symbol) :
    Sound (discard (symbol s) >>= fun _ => r) (AfterSymbol s P) := by
  intro l rest a h
  simp only [on_bind, on_discard, Option.bind_eq_some_iff, Option.map_eq_some_iff] at h
  obtain ⟨_, ⟨⟨_, m⟩, hs, rfl⟩, hm⟩ := h
  obtain ⟨t, ht, rfl⟩ := on_symbol_eq_some.mp hs
  obtain ⟨w, rfl, hw⟩ := hr hm
  exact ⟨t :: w, rfl, t, w, rfl, ht, hw⟩

/-- What is taken with separators are words with the symbol between them. -/
theorem Sound.sepBy1 {r : Rule α} [Local r] {P : Phrase α} (hr : Sound r P) (s : Symbol) :
    Sound (sepBy1 r (symbol s)) (Separated s P) := by
  intro l rest as h
  simp only [on_sepBy1, Option.bind_eq_some_iff, Option.map_eq_some_iff] at h
  obtain ⟨⟨a, m⟩, ha, ⟨more, k⟩, hmore, he⟩ := h
  cases he
  obtain ⟨w, rfl, hw⟩ := hr ha
  obtain ⟨v, rfl, hv⟩ := (Sound.afterSymbol hr s).many hmore
  exact ⟨w ++ v, List.append_assoc _ _ _, separated_of_repeated hw hv⟩

/-- Separated words are taken to the last, if the separator may follow a word and no separator with
a word behind it follows the last. -/
theorem Complete.sepBy1 {n : Nat} {r : Rule α} [Local r] {P : Phrase α} {F : List Token → Prop}
    (hr : Complete n r P F) (s : Symbol)
    (hsep : ∀ (t : Token) (l : List Token), t.kind = .symbol s → F (t :: l)) :
    Complete n (sepBy1 r (symbol s)) (Separated s P) fun rest =>
      F rest ∧ (discard (symbol s) >>= fun _ => r).on rest = none := by
  intro w rest as hw hF hlt
  induction hw with
  | one hw =>
    rw [on_sepBy1, hr hw hF.1 hlt]
    simp only [Option.bind_some, on_many_of_none hF.2, Option.map_some]
  | @more w v t a as hw ht hv ih =>
    rw [List.append_assoc, List.cons_append] at hlt ⊢
    have hlen : (v ++ rest).length < n := by
      simp only [List.length_append, List.length_cons] at hlt ⊢
      omega
    -- What is read behind the separator by the induction is one more item of the repetition.
    have hrest := ih hlen
    simp only [on_sepBy1, Option.bind_eq_some_iff, Option.map_eq_some_iff] at hrest
    obtain ⟨⟨a', m⟩, ha', ⟨more, k⟩, hmore, he⟩ := hrest
    simp only [Prod.mk.injEq] at he
    obtain ⟨rfl, rfl⟩ := he
    have hstep : (discard (symbol s) >>= fun _ => r).on (t :: (v ++ k)) = some (a', m) := by
      simp [ht, ha']
    have hm : m.length < (t :: (v ++ k)).length :=
      Nat.lt_succ_of_le (length_le_of_on ha')
    rw [on_sepBy1, hr hw (hsep t _ ht) hlt]
    simp only [Option.bind_some, on_many_of_some hstep hm hmore, Option.map_some]

/-- Words with separators, of which there may be none, are an option. -/
theorem on_sepBy (r : Rule α) [Local r] (s : Symbol) (l : List Token) :
    (sepBy r (symbol s)).on l =
      ((optional (sepBy1 r (symbol s))).on l).map fun p => (p.1.getD [], p.2) := by
  simp only [sepBy, on_bind, on_pure, Option.map_eq_bind, Function.comp_def]

/-- Words with separators and perhaps one more, or nothing at all. -/
theorem on_sepByTrailing (r : Rule α) [Local r] (s : Symbol) (l : List Token) :
    (sepByTrailing r (symbol s)).on l =
      (((sepBy1 r (symbol s)).on l).bind fun p =>
        ((optional (symbol s)).on p.2).map fun q => (p.1, q.2)).or (some ([], l)) := by
  rcases h : (sepBy1 r (symbol s)).on l with _ | ⟨as, m⟩
  · simp [sepByTrailing, on_optional, h]
  · rcases hs : (symbol s).on m with _ | ⟨_, k⟩ <;> simp [sepByTrailing, on_optional, h, hs]

/-- Separators do not begin where the rule refuses. -/
theorem on_sepBy1_of_none {r : Rule α} [Local r] {s : Symbol} {l : List Token}
    (h : r.on l = none) : (sepBy1 r (symbol s)).on l = none := by
  rw [on_sepBy1, h]
  rfl

/-- No separator with a word behind it stands where no separator stands. -/
theorem on_afterSymbol_of_stops {r : Rule α} [Local r] {s : Symbol} {l : List Token}
    (h : Stops (oneOf [.symbol s]) l) : (discard (symbol s) >>= fun _ => r).on l = none := by
  rcases l with _ | ⟨t, l⟩
  · simp
  · rw [stops_cons] at h
    have ht : ¬ t.kind = .symbol s := by
      intro hk
      simp [oneOf, hk] at h
    simp [ht]

/-- What is taken with separators and perhaps one more are such words. -/
theorem Sound.sepByTrailing {r : Rule α} [Local r] {P : Phrase α} (hr : Sound r P) :
    Sound (sepByTrailing r (symbol .comma)) (Trailing P) := by
  intro l rest as h
  rw [on_sepByTrailing] at h
  rcases hl : (Rule.sepBy1 r (symbol .comma)).on l with _ | ⟨bs, m⟩
  · rw [hl] at h
    cases h
    exact ⟨[], rfl, .empty⟩
  · obtain ⟨w, rfl, hw⟩ := Sound.sepBy1 hr .comma hl
    simp only [hl, Option.bind_some, on_optional] at h
    rcases hs : (symbol .comma).on m with _ | ⟨u, k⟩
    · rw [hs] at h
      cases h
      exact ⟨w, rfl, .items hw⟩
    · obtain ⟨t, ht, rfl⟩ := on_symbol_eq_some.mp hs
      rw [hs] at h
      cases h
      exact ⟨w ++ [t], by simp, .comma hw ht⟩

/-- Words with commas and perhaps one more are taken, up to where none follows. -/
theorem Complete.sepByTrailing {n : Nat} {r : Rule α} [Local r] {P : Phrase α}
    {F : List Token → Prop} (hr : Complete n r P F)
    (hsep : ∀ (t : Token) (l : List Token), t.kind = .symbol .comma → F (t :: l)) :
    Complete n (sepByTrailing r (symbol .comma)) (Trailing P) fun rest =>
      F rest ∧ r.on rest = none ∧ Stops (oneOf [.symbol .comma]) rest := by
  have hitems := Complete.sepBy1 hr .comma hsep
  rintro w rest as hw ⟨hF, hnone, hcomma⟩ hlt
  have hno : (symbol .comma).on rest = none := by
    rcases rest with _ | ⟨t, rest⟩
    · rfl
    · rw [stops_cons] at hcomma
      have ht : ¬ t.kind = .symbol .comma := by
        intro hk
        simp [oneOf, hk] at hcomma
      simp [ht]
  rw [on_sepByTrailing]
  cases hw with
  | empty =>
    rw [List.nil_append, on_sepBy1_of_none hnone]
    rfl
  | items hw =>
    rw [hitems hw ⟨hF, on_afterSymbol_of_stops hcomma⟩ hlt]
    simp [on_optional, hno]
  | @comma w _ t hw ht =>
    -- Behind the last comma stands no word, so the repetition ends in front of it.
    have hstop : (discard (symbol .comma) >>= fun _ => r).on (t :: rest) = none := by
      simp [ht, hnone]
    rw [List.append_assoc, List.singleton_append] at hlt ⊢
    rw [hitems hw ⟨hsep t rest ht, hstop⟩ hlt]
    simp [on_optional, ht]

/-! ## Names -/

/-- What the rule for identifiers takes is a name. -/
theorem sound_identifier : Sound identifier Name := by
  intro l rest x h
  obtain ⟨t, ht, rfl⟩ := on_identifier_eq_some.mp h
  exact ⟨[t], rfl, .mk ht⟩

/-- A name begins with an identifier. -/
theorem name_begins : Begins Name isName := by
  rintro w x ⟨ht⟩
  exact ⟨_, _, rfl, by rw [ht]; rfl⟩

/-- A name is what the rule for identifiers takes. -/
theorem complete_identifier (n : Nat) : Complete n identifier Name fun _ => True := by
  intro w rest x hw _ _
  cases hw with
  | mk ht => simp [ht]

/-- A dotted name is a list of identifiers with points between them. -/
theorem on_dottedName (l : List Token) :
    dottedName.on l =
      ((sepBy1 identifier (symbol .dot)).on l).map fun p => (".".intercalate p.1, p.2) := by
  have hmany := on_many_congr (r := symbol .dot >>= fun _ => identifier)
    (s := discard (symbol .dot) >>= fun _ => identifier) (by simp)
  simp only [dottedName, on_sepBy1, on_bind, on_pure, hmany, Option.map_eq_bind, Option.bind_assoc,
    Option.bind_some, Function.comp_def]

/-- What the rule for dotted names takes is one. -/
theorem sound_dottedName : Sound dottedName DottedName := by
  intro l rest x h
  rw [on_dottedName, Option.map_eq_some_iff] at h
  obtain ⟨⟨xs, m⟩, hm, he⟩ := h
  cases he
  obtain ⟨w, hw, hxs⟩ := Sound.sepBy1 sound_identifier .dot hm
  exact ⟨w, hw, .mk hxs⟩

/-- A dotted name begins with an identifier. -/
theorem dottedName_begins : Begins DottedName isName := by
  rintro w x ⟨hxs⟩
  exact name_begins.separated .dot hxs

/-- A dotted name is taken up to where no point follows. -/
theorem complete_dottedName (n : Nat) :
    Complete n dottedName DottedName (Stops (oneOf [.symbol .dot])) := by
  intro w rest x hw hstop hlt
  cases hw with
  | mk hxs =>
    have h := Complete.sepBy1 (complete_identifier n) .dot (fun _ _ _ => trivial) hxs
      ⟨trivial, on_afterSymbol_of_stops hstop⟩ hlt
    rw [on_dottedName, h]
    rfl

end ApiSurface.Grammar
