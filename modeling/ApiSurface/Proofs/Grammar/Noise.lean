import ApiSurface.Proofs.Grammar.Word

/-!
# Brackets and noise

The rule for a bracket with balanced content is sound and complete for `Grouped`, whatever follows
the group, and the rules for runs of noise are sound and complete for `Noise` and `SomeNoise`. Since
a rule is a function, a list has at most one group at its front, and at most one noise item
(`noiseItem_unique`).
-/

namespace ApiSurface.Grammar

open Rule Phrase Derives

section

variable (stop : TokenKind → Bool)

end

/-! ## Tokens by a test -/

/-- A rule for a class of tokens fails at the end of a list. -/
@[simp] theorem on_tokenWith_nil (p : Token → Bool) : (tokenWith p).on [] = none := rfl

/-- A rule for a class of tokens reads the first of a list if it is one. -/
@[simp] theorem on_tokenWith_cons (p : Token → Bool) (t : Token) (l : List Token) :
    (tokenWith p).on (t :: l) = if p t then some ((), l) else none := by
  unfold tokenWith
  rw [on_token_cons]
  split_ifs <;> rfl

/-- What is left by a rule for a class of tokens stands behind one of the class. -/
theorem on_tokenWith_eq_some {p : Token → Bool} {l rest : List Token} {u : Unit} :
    (tokenWith p).on l = some (u, rest) ↔ ∃ t, p t = true ∧ l = t :: rest := by
  rcases l with _ | ⟨t, l⟩
  · simp
  · rw [on_tokenWith_cons]
    constructor
    · intro h
      split_ifs at h with ht
      cases h
      exact ⟨t, ht, rfl⟩
    · rintro ⟨t', ht, he⟩
      cases he
      rw [if_pos ht]

/-! ## Groups -/

/-- The kinds that open a bracket. -/
def openings : List TokenKind := [.symbol .leftParen, .symbol .leftBrace, .symbol .leftBracket]

/-- The opening symbol of a bracket is among those listed. -/
theorem opening_mem_openings (b : Bracket) : TokenKind.symbol b.opening ∈ openings := by
  cases b <;> decide

/-- A closing bracket is a delimiter. -/
theorem isDelimiter_of_closing {b : Bracket} {t : Token} (h : t.kind = .symbol b.closing) :
    t.isDelimiter = true := by
  cases b <;> simp [Token.isDelimiter, h, Bracket.closing]

/-- What is no delimiter opens no bracket. -/
theorem not_opening_of_plain {t : Token} (h : t.isDelimiter = false) : t.kind ∉ openings := by
  intro hmem
  simp only [openings, List.mem_cons, List.not_mem_nil, or_false] at hmem
  rcases hmem with hk | hk | hk <;> simp [Token.isDelimiter, hk] at h

/-- A group begins with an opening bracket. -/
theorem grouped_begins : Begins Grouped (oneOf openings) := by
  rintro w u ⟨⟨ht, _, _⟩⟩
  refine ⟨_, _, rfl, ?_⟩
  rw [ht]
  exact oneOf_iff.mpr (opening_mem_openings _)

/-- A rule for groups, or one token that is no bracket and does not satisfy `stop`. -/
def noiseWith (group : Rule Unit) (stop : TokenKind → Bool) : Rule Unit :=
  group <|> tokenWith fun t => !t.isDelimiter && !stop t.kind

/-- The test that no kind satisfies. -/
def never : TokenKind → Bool := fun _ => false

/-- The rule for an item of noise, with groups read by the rule for them. -/
theorem noiseItem_eq (stop : TokenKind → Bool) :
    noiseItem stop = noiseWith balancedGroup stop := rfl

/-- Where nothing stops it an item is a group or any plain token. -/
theorem noiseWith_never (group : Rule Unit) : noiseWith group never = (group <|> plainToken) := by
  simp [noiseWith, plainToken, never]

/-- An item of noise has tokens. -/
theorem noiseItem_ne_nil {stop : TokenKind → Bool} {w : List Token} {u : Unit}
    (h : NoiseItem stop w u) : w ≠ [] := by
  cases h with
  | plain _ _ => exact List.cons_ne_nil _ _
  | group h => exact grouped_begins.ne_nil h

section

variable {group : Rule Unit} {stop : TokenKind → Bool}

instance [Local group] : Local (noiseWith group stop) := by
  unfold noiseWith
  infer_instance

/-- What is taken for an item of noise is one, if groups are. -/
theorem sound_noiseWith (hG : Sound group Grouped) :
    Sound (noiseWith group stop) (NoiseItem stop) := by
  refine Sound.orElse ?_ ?_
  · intro l rest u h
    obtain ⟨w, hw, hg⟩ := hG h
    exact ⟨w, hw, .group hg⟩
  · intro l rest u h
    obtain ⟨t, ht, rfl⟩ := on_tokenWith_eq_some.mp h
    simp only [Bool.and_eq_true, Bool.not_eq_true'] at ht
    exact ⟨[t], rfl, .plain ht.1 ht.2⟩

/-- No noise item begins with a token that is no opening bracket and is a delimiter or satisfies
`stop`. -/
theorem noiseWith_refuses (hG : Sound group Grouped) {t : Token} (hopen : t.kind ∉ openings)
    (ht : t.isDelimiter = true ∨ stop t.kind = true) (l : List Token) :
    (noiseWith group stop).on (t :: l) = none := by
  have hgroup : group.on (t :: l) = none :=
    hG.refuses grouped_begins (stops_of_kind rfl (oneOf_eq_false.mpr hopen) l)
  rcases ht with ht | ht <;> simp [noiseWith, hgroup, ht]

/-- An item of noise is taken, if groups are. -/
theorem complete_noiseWith {n : Nat} (hS : Sound group Grouped)
    (hG : Complete n group Grouped fun _ => True) :
    Complete n (noiseWith group stop) (NoiseItem stop) fun _ => True := by
  intro w rest u hw _ hlt
  cases hw with
  | @plain t ht hstop =>
    have hgroup : group.on (t :: rest) = none :=
      hS.refuses grouped_begins
        (stops_of_kind rfl (oneOf_eq_false.mpr (not_opening_of_plain ht)) rest)
    simp [noiseWith, hgroup, ht, hstop]
  | group hg => simp [noiseWith, hG hg trivial hlt]

/-- Noise items are taken to the last, if none follows. -/
theorem complete_noiseItems {n : Nat} [Local group] (hS : Sound group Grouped)
    (hG : Complete n group Grouped fun _ => True) :
    Complete n (many (noiseWith group stop)) (Repeated (NoiseItem stop)) fun rest =>
      (noiseWith group stop).on rest = none := by
  intro w rest us hw hnone hlt
  exact Complete.many (complete_noiseWith hS hG) (fun _ _ h => noiseItem_ne_nil h)
    (fun _ _ _ _ => trivial) hw ⟨trivial, hnone⟩ hlt

end

/-! ## Balanced tokens are runs of noise -/

/-- Balanced tokens may be put together. -/
theorem balanced_append {w v : List Token} (hw : Balanced w) (hv : Balanced v) :
    Balanced (w ++ v) := by
  induction hw with
  | nil => exact hv
  | plain ht _ ih => exact .plain ht ih
  | @group b t u w' v' ht hw' hu _ _ ih =>
    rw [List.cons_append, List.append_assoc, List.cons_append]
    exact .group ht hw' hu ih

/-- An item of noise is balanced. -/
theorem balanced_of_noiseItem {stop : TokenKind → Bool} {w : List Token} {u : Unit}
    (h : NoiseItem stop w u) : Balanced w := by
  cases h with
  | plain ht _ => exact .plain ht .nil
  | group h =>
    obtain ⟨⟨ht, hw, hu⟩⟩ := h
    exact .group ht hw hu .nil

/-- Items of noise are balanced. -/
theorem balanced_of_repeated {stop : TokenKind → Bool} {w : List Token} {us : List Unit}
    (h : Repeated (NoiseItem stop) w us) : Balanced w := by
  induction h with
  | nil => exact .nil
  | cons hw _ ih => exact balanced_append (balanced_of_noiseItem hw) ih

/-- Balanced tokens are items of noise. -/
theorem exists_repeated_of_balanced {w : List Token} (h : Balanced w) :
    ∃ us, Repeated (NoiseItem never) w us := by
  induction h with
  | nil => exact ⟨[], .nil⟩
  | plain ht _ ih =>
    obtain ⟨us, hus⟩ := ih
    exact ⟨() :: us, .cons (.plain ht rfl) hus⟩
  | @group b t u w v ht hw hu _ _ ih =>
    obtain ⟨us, hus⟩ := ih
    have hcons := Repeated.cons (P := NoiseItem never) (.group (.mk (.mk ht hw hu))) hus
    rw [List.cons_append, List.append_assoc, List.singleton_append] at hcons
    exact ⟨() :: us, hcons⟩

/-! ## The rule for groups -/

/-- The rule for a bracket of one kind, by means of the groups inside it. -/
def enclosure (b : Bracket) (group : Rule Unit) : Rule Unit :=
  discard (between (symbol b.opening) (symbol b.closing) (many (noiseWith group never)))

/-- A group is one in round, curly or square brackets. -/
theorem groupBody_eq (group : Rule Unit) :
    groupBody group = (enclosure .round group <|> enclosure .curly group <|>
      enclosure .square group) := by
  unfold groupBody enclosure
  rw [noiseWith_never]
  rfl

section

variable {group : Rule Unit} [Local group]

/-- What is taken for a bracket with its content is one, if groups inside are. -/
theorem sound_enclosure (hG : Sound group Grouped) (b : Bracket) :
    Sound (enclosure b group) (Enclosed b) := by
  intro l rest u h
  simp only [enclosure, on_discard, on_between, Option.map_eq_some_iff,
    Option.bind_eq_some_iff] at h
  obtain ⟨_, ⟨⟨_, m⟩, hl, ⟨us, k⟩, hm, ⟨_, k'⟩, hk, rfl⟩, he⟩ := h
  obtain ⟨t, ht, rfl⟩ := on_symbol_eq_some.mp hl
  obtain ⟨w, rfl, hw⟩ := (sound_noiseWith hG).many hm
  obtain ⟨c, hc, hk⟩ := on_symbol_eq_some.mp hk
  cases he
  refine ⟨t :: (w ++ [c]), ?_, .mk ht (balanced_of_repeated hw) hc⟩
  simp only at hk
  rw [hk]
  simp

/-- A bracket with its content is taken, if groups inside are. -/
theorem complete_enclosure {n : Nat} (hS : Sound group Grouped)
    (hG : Complete n group Grouped fun _ => True) (b : Bracket) :
    Complete (n + 1) (enclosure b group) (Enclosed b) fun _ => True := by
  intro w rest u hw _ hlt
  cases hw with
  | @mk t c w ht hw hc =>
    obtain ⟨us, hus⟩ := exists_repeated_of_balanced hw
    have hopen : c.kind ∉ openings := by
      rw [hc]
      cases b <;> decide
    have hnone : (noiseWith group never).on (c :: rest) = none :=
      noiseWith_refuses hS hopen (.inl (isDelimiter_of_closing hc)) rest
    have h := complete_noiseItems hS hG hus hnone (by simp at hlt ⊢; omega)
    simp [enclosure, ht, h, hc]

/-- A bracket of another kind is refused at its first token. -/
theorem enclosure_refuses {b b' : Bracket} (hne : b ≠ b') {w rest : List Token} {u : Unit}
    (hw : Enclosed b' w u) : (enclosure b group).on (w ++ rest) = none := by
  obtain ⟨ht, _, _⟩ := hw
  cases b <;> cases b' <;> simp_all [enclosure, Bracket.opening]

end

/-- What the rule for groups takes is a group. -/
theorem sound_balancedGroup : Sound balancedGroup Grouped := by
  apply Sound.recursive
  intro group _ hG
  rw [groupBody_eq]
  refine Sound.orElse ?_ (Sound.orElse ?_ ?_)
  · exact (sound_enclosure hG .round).mono fun _ _ h => .mk h
  · exact (sound_enclosure hG .curly).mono fun _ _ h => .mk h
  · exact (sound_enclosure hG .square).mono fun _ _ h => .mk h

/-- A group is what the rule for groups takes. -/
theorem complete_balancedGroup (n : Nat) :
    Complete n balancedGroup Grouped fun _ => True := by
  refine Complete.recursive sound_balancedGroup ?_ n
  intro n group _ hS hG w rest u hw _ hlt
  cases hw with
  | @mk b w hw =>
    have h := complete_enclosure hS hG b hw trivial hlt
    rw [groupBody_eq]
    cases b with
    | round => simp [h]
    | curly => simp [h, enclosure_refuses (b := .round) (by decide) hw]
    | square =>
      simp [h, enclosure_refuses (b := .round) (by decide) hw,
        enclosure_refuses (b := .curly) (by decide) hw]

/-! ## Runs of noise -/

/-- What the rule for an item of noise takes is one. -/
theorem sound_noiseItem (stop : TokenKind → Bool) : Sound (noiseItem stop) (NoiseItem stop) :=
  sound_noiseWith sound_balancedGroup

/-- An item of noise is what the rule for it takes. -/
theorem complete_noiseItem (stop : TokenKind → Bool) (n : Nat) :
    Complete n (noiseItem stop) (NoiseItem stop) fun _ => True :=
  complete_noiseWith sound_balancedGroup (complete_balancedGroup n)

/-- A semicolon ends the noise up to a semicolon. -/
theorem semicolon_ends {t : Token} (ht : t.kind = .symbol .semicolon) (l : List Token) :
    (noiseItem isSemicolon).on (t :: l) = none :=
  noiseWith_refuses sound_balancedGroup (by rw [ht]; decide) (.inr (by rw [ht]; rfl)) l

/-- A comma ends the noise up to a comma. -/
theorem comma_ends {t : Token} (ht : t.kind = .symbol .comma) (l : List Token) :
    (noiseItem isComma).on (t :: l) = none :=
  noiseWith_refuses sound_balancedGroup (by rw [ht]; decide) (.inr (by rw [ht]; rfl)) l

/-- A closing bracket ends noise. -/
theorem closing_ends {b : Bracket} {t : Token} (ht : t.kind = .symbol b.closing)
    (stop : TokenKind → Bool) (l : List Token) : (noiseItem stop).on (t :: l) = none := by
  refine noiseWith_refuses sound_balancedGroup ?_ (.inl (isDelimiter_of_closing ht)) l
  rw [ht]
  cases b <;> decide

/-- A list has at most one noise item at its front. -/
theorem noiseItem_unique {stop : TokenKind → Bool} {w v m k : List Token} {a b : Unit}
    (hw : NoiseItem stop w a) (hv : NoiseItem stop v b) (h : w ++ m = v ++ k) : w = v ∧ m = k := by
  have h₁ := complete_noiseItem stop ((w ++ m).length + 1) hw trivial (Nat.lt_succ_self _)
  have h₂ := complete_noiseItem stop ((v ++ k).length + 1) hv trivial (Nat.lt_succ_self _)
  rw [h, h₂] at h₁
  simp only [Option.some.injEq, Prod.mk.injEq, true_and] at h₁
  subst h₁
  exact ⟨List.append_cancel_right h, rfl⟩

/-- A token that is no bracket, in front of noise, is an item of its own. -/
theorem noise_of_cons {stop : TokenKind → Bool} {t : Token} {w : List Token} {us : List Unit}
    (ht : t.isDelimiter = false) (h : Repeated (NoiseItem stop) (t :: w) us) :
    ∃ us, Repeated (NoiseItem stop) w us := by
  generalize hl : t :: w = l at h
  cases h with
  | nil => cases hl
  | cons hi hv =>
    cases hi with
    | plain _ _ =>
      obtain ⟨-, rfl⟩ := List.cons.inj hl
      exact ⟨_, hv⟩
    | group hg =>
      obtain ⟨t', v', rfl, hopen⟩ := grouped_begins hg
      obtain ⟨rfl, -⟩ := List.cons.inj hl
      exact absurd (oneOf_iff.mp hopen) (not_opening_of_plain ht)

/-- Noise begins with an opening bracket, or with a token that does not stop it. -/
theorem head_of_noise {stop : TokenKind → Bool} {t : Token} {w : List Token} {us : List Unit}
    (h : Repeated (NoiseItem stop) (t :: w) us) : t.kind ∈ openings ∨ stop t.kind = false := by
  generalize hl : t :: w = l at h
  cases h with
  | nil => cases hl
  | cons hi _ =>
    cases hi with
    | plain _ hstop =>
      obtain ⟨rfl, -⟩ := List.cons.inj hl
      exact .inr hstop
    | group hg =>
      obtain ⟨t', v', rfl, hopen⟩ := grouped_begins hg
      obtain ⟨rfl, -⟩ := List.cons.inj hl
      exact .inl (oneOf_iff.mp hopen)

/-- At least one item of noise is a sequence of items. -/
theorem repeated_of_someNoise {stop : TokenKind → Bool} {w : List Token} {u : Unit}
    (h : SomeNoise stop w u) : ∃ us, Repeated (NoiseItem stop) w us := by
  obtain ⟨hw, hv⟩ := h
  exact ⟨_, .cons hw hv⟩

/-- At least one item of noise has tokens. -/
theorem someNoise_ne_nil {stop : TokenKind → Bool} {w : List Token} {u : Unit}
    (h : SomeNoise stop w u) : w ≠ [] := by
  obtain ⟨hw, _⟩ := h
  exact List.append_ne_nil_of_left_ne_nil (noiseItem_ne_nil hw) _

/-- A sequence of items that has tokens is at least one item. -/
theorem someNoise_of_repeated {stop : TokenKind → Bool} {w : List Token} {us : List Unit}
    (h : Repeated (NoiseItem stop) w us) (hne : w ≠ []) : SomeNoise stop w () := by
  cases h with
  | nil => exact absurd rfl hne
  | cons hw hv => exact .mk hw hv

/-- What the rule for noise takes is noise. -/
theorem sound_noiseUntil (stop : TokenKind → Bool) : Sound (noiseUntil stop) (Noise stop) := by
  intro l rest u h
  simp only [noiseUntil, on_discard, Option.map_eq_some_iff] at h
  obtain ⟨⟨us, m⟩, hm, he⟩ := h
  cases he
  obtain ⟨w, hw, hus⟩ := (sound_noiseItem stop).many hm
  exact ⟨w, hw, .mk hus⟩

/-- Noise is taken up to where no item of it follows. -/
theorem complete_noiseUntil (stop : TokenKind → Bool) (n : Nat) :
    Complete n (noiseUntil stop) (Noise stop) fun rest => (noiseItem stop).on rest = none := by
  rintro w rest u ⟨hw⟩ hnone hlt
  have h := complete_noiseItems sound_balancedGroup (complete_balancedGroup n) hw hnone hlt
  simp [noiseUntil, noiseItem_eq, h]

/-- What the rule for at least one item takes is noise. -/
theorem sound_someNoiseUntil (stop : TokenKind → Bool) :
    Sound (someNoiseUntil stop) (SomeNoise stop) := by
  intro l rest u h
  simp only [someNoiseUntil, on_discard, on_many1, Option.map_eq_some_iff,
    Option.bind_eq_some_iff] at h
  obtain ⟨_, ⟨⟨_, m⟩, hl, ⟨us, k⟩, hm, rfl⟩, he⟩ := h
  cases he
  obtain ⟨w, rfl, hw⟩ := sound_noiseItem stop hl
  obtain ⟨v, rfl, hv⟩ := (sound_noiseItem stop).many hm
  exact ⟨w ++ v, List.append_assoc _ _ _, .mk hw hv⟩

/-- At least one item is taken, up to where none follows. -/
theorem complete_someNoiseUntil (stop : TokenKind → Bool) (n : Nat) :
    Complete n (someNoiseUntil stop) (SomeNoise stop) fun rest =>
      (noiseItem stop).on rest = none := by
  rintro w rest u ⟨hw, hv⟩ hnone hlt
  rw [List.append_assoc] at hlt ⊢
  have h₁ := complete_noiseItem stop n hw trivial hlt
  have h₂ := complete_noiseItems sound_balancedGroup (complete_balancedGroup n) hv hnone
    (by simp at hlt ⊢; omega)
  rw [← noiseItem_eq] at h₂
  simp [someNoiseUntil, h₁, h₂]

end ApiSurface.Grammar
