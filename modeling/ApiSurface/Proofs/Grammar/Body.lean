import ApiSurface.Proofs.Grammar.Noise

/-!
# Statements and blocks

The rule for blocks is sound and complete for `Block`, although it tries five kinds of statements in
a fixed order and each of them takes as much as it can.

The statements of a block are balanced, and whatever way the productions cut them, the last token is
a semicolon or a brace (`Closed`). Conversely balanced tokens that end so are read to their end:
some statement is found at their front (`FindsStatement`), what a statement takes is balanced, so
that it ends inside (`balanced_cancel`), and the tokens behind it end as before. Only the soundness
of the blocks inside is used, never their completeness.
-/

namespace ApiSurface.Grammar

open Rule Phrase Derives

/-! ## The rules for statements -/

/-- The rule for one inner item. -/
def innerItem : Rule Unit :=
  (tokenWith fun t => !t.isDelimiter && !isSemicolon t.kind) <|>
    (do lookahead (symbol .leftParen <|> symbol .leftBracket); balancedGroup)

instance : Local innerItem := by
  unfold innerItem
  infer_instance

/-- A part that braces end is inner items and a group that begins with a brace. -/
theorem bracedPart_eq : bracedPart = (do
    discard (many innerItem)
    lookahead (symbol .leftBrace)
    balancedGroup) := rfl

/-- The rule for one statement, by means of the blocks inside. -/
def statement (block : Rule Unit) : Rule Unit :=
  superCall <|> stubThrow <|> block <|> plainStatement <|> bracedStatement

instance (block : Rule Unit) [Local block] : Local (statement block) := by
  unfold statement
  infer_instance

/-- The rule for statements between braces, by means of a rule for one statement. -/
def braced (r : Rule Unit) : Rule Unit :=
  discard (between (symbol .leftBrace) (symbol .rightBrace) (many r))

instance (r : Rule Unit) [Local r] : Local (braced r) := by
  unfold braced
  infer_instance

/-- The body of the rule for blocks is statements in braces. -/
theorem blockBody_eq (block : Rule Unit) : blockBody block = braced (statement block) := rfl

/-! ## Soundness -/

/-- What the rule for inner items takes is one. -/
theorem sound_innerItem : Sound innerItem InnerItem := by
  refine Sound.orElse ?_ ?_
  · intro l rest u h
    obtain ⟨t, ht, rfl⟩ := on_tokenWith_eq_some.mp h
    simp only [Bool.and_eq_true, Bool.not_eq_true'] at ht
    exact ⟨[t], rfl, .plain ht.1 ht.2⟩
  · intro l rest u h
    simp only [on_bind, on_lookahead, Option.bind_eq_some_iff, Option.map_eq_some_iff] at h
    obtain ⟨_, ⟨⟨_, m⟩, hl, rfl⟩, hg⟩ := h
    obtain ⟨w, rfl, ⟨hw⟩⟩ := sound_balancedGroup hg
    refine ⟨w, rfl, ?_⟩
    rename_i b
    obtain ⟨ht, _, _⟩ := id hw
    cases b with
    | round => exact .round hw
    | curly => simp [ht, Bracket.opening] at hl
    | square => exact .square hw

/-- What the rule for a part that braces end takes is one. -/
theorem sound_bracedPart : Sound bracedPart BracedPart := by
  intro l rest u h
  simp only [bracedPart_eq, on_bind, on_discard, on_lookahead, Option.bind_eq_some_iff,
    Option.map_eq_some_iff] at h
  obtain ⟨_, ⟨⟨us, m⟩, hm, rfl⟩, _, ⟨⟨_, k⟩, hk, rfl⟩, hg⟩ := h
  obtain ⟨w, rfl, hw⟩ := sound_innerItem.many hm
  obtain ⟨v, hv, ⟨hgroup⟩⟩ := sound_balancedGroup hg
  rename_i b
  obtain ⟨ht, _, _⟩ := id hgroup
  simp only at hv hk
  subst hv
  cases b with
  | curly => exact ⟨_, List.append_assoc _ _ _, .mk hw hgroup⟩
  | round => simp [ht, Bracket.opening] at hk
  | square => simp [ht, Bracket.opening] at hk

section

variable {B : Phrase Unit}

/-- What is taken for a call of the superclass is a statement. -/
theorem sound_superCall : Sound superCall (Statement B) := by
  intro l rest u h
  simp only [superCall, on_bind, Option.bind_eq_some_iff] at h
  obtain ⟨⟨_, m⟩, hl, ⟨_, k⟩, hg, hend⟩ := h
  obtain ⟨t, ht, rfl⟩ := on_keyword_eq_some.mp hl
  obtain ⟨w, rfl, hw⟩ := sound_balancedGroup hg
  obtain ⟨s, hs, rfl⟩ := on_symbol_eq_some.mp hend
  exact ⟨t :: (w ++ [s]), by simp, .superCall ht hw hs⟩

/-- What is taken for the body of a stub is a statement. -/
theorem sound_stubThrow : Sound stubThrow (Statement B) := by
  intro l rest u h
  simp only [stubThrow, on_bind, on_between, Option.bind_eq_some_iff, Option.map_eq_some_iff] at h
  obtain ⟨⟨_, l₁⟩, h₁, ⟨_, l₂⟩, h₂, ⟨_, l₃⟩, h₃, _, ⟨⟨_, l₄⟩, h₄, ⟨_, l₅⟩, h₅, ⟨_, l₆⟩, h₆, rfl⟩,
    h₇⟩ := h
  obtain ⟨t, ht, rfl⟩ := on_keyword_eq_some.mp h₁
  obtain ⟨n, hn, rfl⟩ := on_keyword_eq_some.mp h₂
  obtain ⟨e, he, rfl⟩ := on_exactly_eq_some.mp h₃
  obtain ⟨o, ho, rfl⟩ := on_symbol_eq_some.mp h₄
  obtain ⟨m, hm, rfl⟩ := on_tokenWith_eq_some.mp h₅
  obtain ⟨c, hc, rfl⟩ := on_symbol_eq_some.mp h₆
  obtain ⟨s, hs, rfl⟩ := on_symbol_eq_some.mp h₇
  exact ⟨[t, n, e, o, m, c, s], rfl, .stubThrow ht hn he ho (by simpa using hm) hc hs⟩

/-- What is taken up to a semicolon is a statement. -/
theorem sound_plainStatement : Sound plainStatement (Statement B) := by
  intro l rest u h
  simp only [plainStatement, on_bind, Option.bind_eq_some_iff] at h
  obtain ⟨⟨_, m⟩, hm, hend⟩ := h
  obtain ⟨w, rfl, hw⟩ := sound_noiseUntil isSemicolon hm
  obtain ⟨s, hs, rfl⟩ := on_symbol_eq_some.mp hend
  exact ⟨w ++ [s], by simp, .plain hw hs⟩

/-- What is taken up to closing braces is a statement. -/
theorem sound_bracedStatement : Sound bracedStatement (Statement B) := by
  intro l rest u h
  simp only [bracedStatement, on_discard, on_many1, Option.map_eq_some_iff,
    Option.bind_eq_some_iff] at h
  obtain ⟨_, ⟨⟨_, m⟩, hm, ⟨us, k⟩, hk, rfl⟩, he⟩ := h
  cases he
  obtain ⟨w, rfl, hw⟩ := sound_bracedPart hm
  obtain ⟨v, rfl, hv⟩ := sound_bracedPart.many hk
  exact ⟨w ++ v, List.append_assoc _ _ _, .braced hw hv⟩

/-- The statements behind the two that are told by their first word. -/
theorem sound_anyStatement {block : Rule Unit} (hB : Sound block B) :
    Sound (block <|> plainStatement <|> bracedStatement) (Statement B) := by
  refine Sound.orElse ?_ (sound_plainStatement.orElse sound_bracedStatement)
  exact hB.mono fun _ _ hb => .block hb

/-- What the rule for statements takes is one, if blocks inside are. -/
theorem sound_statement {block : Rule Unit} (hB : Sound block B) :
    Sound (statement block) (Statement B) :=
  sound_superCall.orElse (sound_stubThrow.orElse (sound_anyStatement hB))

end

/-- Statements between braces are a block. -/
theorem sound_braced {r : Rule Unit} [Local r] (hr : Sound r (Statement Block)) :
    Sound (braced r) Block := by
  intro l rest u h
  simp only [braced, on_discard, on_between, Option.map_eq_some_iff, Option.bind_eq_some_iff] at h
  obtain ⟨_, ⟨⟨_, m⟩, hl, ⟨us, k⟩, hm, ⟨_, k'⟩, hk, rfl⟩, he⟩ := h
  obtain ⟨t, ht, rfl⟩ := on_symbol_eq_some.mp hl
  obtain ⟨w, rfl, hw⟩ := hr.many hm
  obtain ⟨c, hc, hk⟩ := on_symbol_eq_some.mp hk
  cases he
  refine ⟨t :: (w ++ [c]), ?_, .mk ht hw hc⟩
  simp only at hk
  rw [hk]
  simp

/-- What the rule for blocks takes is a block. -/
theorem sound_block : Sound block Block := by
  apply Sound.recursive
  intro block _ hB
  rw [blockBody_eq]
  exact sound_braced (sound_statement hB)

/-! ## The tokens of statements -/

/-- Balanced tokens, the last of which is a semicolon or a brace. -/
structure Closed (w : List Token) : Prop where
  /-- The brackets are closed. -/
  balanced : Balanced w
  /-- A statement may end behind the last token. -/
  last : ∀ t ∈ w.getLast?, t.kind = .symbol .semicolon ∨ t.kind = .symbol .rightBrace

/-- No tokens are closed. -/
theorem closed_nil : Closed [] := ⟨.nil, by simp⟩

/-- Balanced tokens and a semicolon are closed. -/
theorem closed_semicolon {w : List Token} {t : Token} (hw : Balanced w)
    (ht : t.kind = .symbol .semicolon) : Closed (w ++ [t]) := by
  refine ⟨balanced_append hw (.plain ?_ .nil), ?_⟩
  · simp [Token.isDelimiter, ht]
  · simp [ht]

/-- A bracket through the one that closes it is balanced. -/
theorem balanced_of_enclosed {b : Bracket} {w : List Token} {u : Unit} (h : Enclosed b w u) :
    Balanced w := by
  obtain ⟨ht, hw, hu⟩ := h
  exact .group ht hw hu .nil

/-- Balanced tokens and a group in braces are closed. -/
theorem closed_enclosed {v w : List Token} {u : Unit} (hv : Balanced v) (hw : Enclosed .curly w u) :
    Closed (v ++ w) := by
  refine ⟨balanced_append hv (balanced_of_enclosed hw), ?_⟩
  obtain ⟨_, _, hc⟩ := hw
  intro t ht
  rw [← List.cons_append, ← List.append_assoc, List.getLast?_concat, Option.mem_some_iff] at ht
  subst ht
  exact .inr hc

/-- Closed tokens may be put together. -/
theorem closed_append {v w : List Token} (hv : Closed v) (hw : Closed w) : Closed (v ++ w) := by
  refine ⟨balanced_append hv.balanced hw.balanced, ?_⟩
  intro t ht
  rw [List.getLast?_append] at ht
  rcases hl : w.getLast? with _ | t'
  · rw [hl, Option.none_or] at ht
    exact hv.last t ht
  · rw [hl, Option.some_or] at ht
    exact hw.last t (hl ▸ ht)

/-- What is left of closed tokens behind balanced ones is closed. -/
theorem Closed.of_append {v w : List Token} (h : Closed (v ++ w)) (hw : Balanced w) :
    Closed w := by
  refine ⟨hw, fun t ht => h.last t ?_⟩
  rw [List.getLast?_append, Option.mem_def.mp ht]
  rfl

/-- Inner items are balanced. -/
theorem balanced_of_inner {w : List Token} {us : List Unit} (h : Repeated InnerItem w us) :
    Balanced w := by
  induction h with
  | nil => exact .nil
  | cons hw _ ih =>
    refine balanced_append ?_ ih
    cases hw with
    | plain ht _ => exact .plain ht .nil
    | round hw => exact balanced_of_enclosed hw
    | square hw => exact balanced_of_enclosed hw

/-- A part that braces end is closed. -/
theorem closed_of_bracedPart {w : List Token} {u : Unit} (h : BracedPart w u) : Closed w := by
  obtain ⟨hw, hv⟩ := h
  exact closed_enclosed (balanced_of_inner hw) hv

/-- Parts that braces end are closed. -/
theorem closed_of_bracedParts {w : List Token} {us : List Unit} (h : Repeated BracedPart w us) :
    Closed w := by
  induction h with
  | nil => exact closed_nil
  | cons hw _ ih => exact closed_append (closed_of_bracedPart hw) ih

/-- A statement is closed, if the blocks inside are groups in braces. -/
theorem closed_of_statement {B : Phrase Unit} {w : List Token} {u : Unit}
    (hB : B w u → Enclosed .curly w u) (h : Statement B w u) : Closed w := by
  cases h with
  | @superCall t u w ht hw hu =>
    have hplain : t.isDelimiter = false := by simp [Token.isDelimiter, ht]
    have hitem : NoiseItem never w () := .group hw
    have hbalanced := balanced_of_noiseItem hitem
    exact closed_semicolon (.plain hplain hbalanced) hu
  | @stubThrow t n e o m c u ht hn he ho hm hc hu =>
    have hcall : Balanced [o, m, c] :=
      .group (b := .round) ho (.plain (by simp [Token.isDelimiter, hm]) .nil) hc .nil
    refine closed_semicolon (w := [t, n, e, o, m, c]) ?_ hu
    refine .plain ?_ (.plain ?_ (.plain ?_ hcall))
    · simp [Token.isDelimiter, ht]
    · simp [Token.isDelimiter, hn]
    · simp [Token.isDelimiter, he]
  | block hb => exact closed_enclosed .nil (hB hb)
  | plain hw hu =>
    obtain ⟨hw⟩ := hw
    exact closed_semicolon (balanced_of_repeated hw) hu
  | braced hw hv => exact closed_append (closed_of_bracedPart hw) (closed_of_bracedParts hv)

/-- Statements are closed, if the blocks inside are in braces. -/
theorem closed_of_statements {B : Phrase Unit} {n : Nat}
    (hB : ∀ ⦃v : List Token⦄ ⦃u : Unit⦄, v.length < n → B v u → Enclosed .curly v u)
    {w : List Token} {us : List Unit} (h : Repeated (Statement B) w us) (hlt : w.length < n) :
    Closed w := by
  induction h with
  | nil => exact closed_nil
  | @cons w v u us hw _ ih =>
    rw [List.length_append] at hlt
    exact closed_append (closed_of_statement (hB (by omega)) hw) (ih (by omega))

/-- A block is a group in braces. -/
theorem enclosed_of_block {w : List Token} {u : Unit} (h : Block w u) : Enclosed .curly w u := by
  -- The blocks inside are shorter.
  induction hn : w.length using Nat.strongRecOn generalizing w u with
  | _ n ih =>
    obtain ⟨ht, hw, hu⟩ := h
    have hclosed := closed_of_statements (n := n) (fun v u hv hb => ih _ hv hb rfl) hw
      (by simp at hn; omega)
    exact .mk ht hclosed.balanced hu

/-! ## What a statement leaves -/

/-- A closing brace opens no bracket. -/
theorem closing_not_opening {u : Token} (hu : u.kind = .symbol .rightBrace) :
    u.kind ∉ openings := by
  rw [hu]
  decide

/-- Balanced tokens at the front of others, behind which a brace closes, end inside them. -/
theorem balanced_cancel {m w r rest : List Token} {u : Token} (hm : Balanced m) (hw : Balanced w)
    (hu : u.kind = .symbol .rightBrace) (h : m ++ r = w ++ u :: rest) :
    ∃ v, w = m ++ v ∧ r = v ++ u :: rest ∧ Balanced v := by
  have hdelimiter : u.isDelimiter = true := isDelimiter_of_closing (b := .curly) hu
  -- Item by item: what `m` begins with is also the first item of `w`. There is one, since the brace
  -- behind `w` is no item.
  induction hm generalizing w with
  | nil => exact ⟨w, rfl, h, hw⟩
  | @plain t m ht _ ih =>
    cases hw with
    | nil =>
      obtain ⟨rfl, -⟩ := List.cons.inj h
      rw [ht] at hdelimiter
      cases hdelimiter
    | plain _ hw =>
      obtain ⟨rfl, h'⟩ := List.cons.inj h
      obtain ⟨v, rfl, hr, hv⟩ := ih hw h'
      exact ⟨v, rfl, hr, hv⟩
    | @group b _ _ _ _ ht' _ _ _ =>
      obtain ⟨rfl, -⟩ := List.cons.inj h
      exact absurd (ht' ▸ opening_mem_openings b) (not_opening_of_plain ht)
  | @group b t c m₁ m₂ ht hm₁ hc _ _ ih =>
    cases hw with
    | nil =>
      obtain ⟨rfl, -⟩ := List.cons.inj h
      exact absurd (ht ▸ opening_mem_openings b) (closing_not_opening hu)
    | plain ht' _ =>
      obtain ⟨rfl, -⟩ := List.cons.inj h
      exact absurd (ht ▸ opening_mem_openings b) (not_opening_of_plain ht')
    | @group b' t' c' w₁ w₂ ht' hw₁ hc' hw₂ =>
      have hfirst : NoiseItem never (t :: (m₁ ++ [c])) () := .group (.mk (.mk ht hm₁ hc))
      have hsecond : NoiseItem never (t' :: (w₁ ++ [c'])) () := .group (.mk (.mk ht' hw₁ hc'))
      obtain ⟨heq, hrest⟩ := noiseItem_unique (m := m₂ ++ r) (k := w₂ ++ u :: rest) hfirst hsecond
        (by simpa using h)
      obtain ⟨v, rfl, hr, hv⟩ := ih hw₂ hrest
      refine ⟨v, ?_, hr, hv⟩
      rw [List.append_cons w₁ c', List.append_cons m₁ c, ← List.cons_append, ← heq]
      simp

/-- A statement has tokens, if a block has. -/
theorem statement_ne_nil {B : Phrase Unit} {w : List Token} {u : Unit}
    (hB : B w u → w ≠ []) (h : Statement B w u) : w ≠ [] := by
  cases h with
  | superCall _ _ _ => exact List.cons_ne_nil _ _
  | stubThrow _ _ _ _ _ _ _ => exact List.cons_ne_nil _ _
  | block hb => exact hB hb
  | plain _ _ => simp
  | braced hw _ =>
    obtain ⟨_, ⟨_, _, _⟩⟩ := hw
    simp

/-- A block begins with a brace. -/
theorem block_begins : Begins Block (oneOf [.symbol .leftBrace]) := by
  rintro w u ⟨ht, _, _⟩
  exact ⟨_, _, rfl, by rw [ht]; rfl⟩

/-! ## A statement is found -/

/-- Noise with a semicolon in it, or else with a group in braces, or else with neither. -/
inductive FirstEnd : List Token → Prop
  | semicolon {v r : List Token} {t : Token} {us : List Unit} :
      Repeated (NoiseItem isSemicolon) v us → t.kind = .symbol .semicolon → FirstEnd (v ++ t :: r)
  | braces {v c r : List Token} {us : List Unit} :
      Repeated InnerItem v us → Enclosed .curly c () → FirstEnd (v ++ (c ++ r))
  | neither {w : List Token} {us : List Unit} : Repeated InnerItem w us → FirstEnd w

/-- An inner item is an item of the noise up to a semicolon. -/
theorem noiseItem_of_inner {w : List Token} {u : Unit} (h : InnerItem w u) :
    NoiseItem isSemicolon w u := by
  cases h with
  | plain ht hs => exact .plain ht hs
  | round hw => exact .group (.mk hw)
  | square hw => exact .group (.mk hw)

/-- An inner item in front of noise changes nothing. -/
theorem FirstEnd.inner_append {i w : List Token} {u : Unit} (hi : InnerItem i u) (h : FirstEnd w) :
    FirstEnd (i ++ w) := by
  cases h with
  | semicolon hv ht =>
    rw [← List.append_assoc]
    exact .semicolon (.cons (noiseItem_of_inner hi) hv) ht
  | braces hv hc =>
    rw [← List.append_assoc]
    exact .braces (.cons hi hv) hc
  | neither hw => exact .neither (.cons hi hw)

/-- A group in braces in front of noise comes behind any semicolon in it, and before all else. -/
theorem FirstEnd.braces_append {i w : List Token} (hi : Enclosed .curly i ()) (h : FirstEnd w) :
    FirstEnd (i ++ w) := by
  cases h with
  | semicolon hv ht =>
    rw [← List.append_assoc]
    exact .semicolon (.cons (.group (.mk hi)) hv) ht
  | braces _ _ => exact .braces (v := []) .nil hi
  | neither _ => exact .braces (v := []) .nil hi

/-- Noise has a semicolon in it, or else a group in braces, or else neither. -/
theorem firstEnd_of_repeated {w : List Token} {us : List Unit}
    (h : Repeated (NoiseItem never) w us) : FirstEnd w := by
  induction h with
  | nil => exact .neither .nil
  | @cons i w _ _ hi _ ih =>
    cases hi with
    | @plain t ht _ =>
      by_cases hs : t.kind = .symbol .semicolon
      · exact .semicolon .nil hs
      · exact ih.inner_append (.plain ht (by simpa [isSemicolon] using hs))
    | group hg =>
      obtain ⟨hb⟩ := hg
      rename_i b
      cases b with
      | round => exact ih.inner_append (.round hb)
      | square => exact ih.inner_append (.square hb)
      | curly => exact ih.braces_append hb

/-- Neither a semicolon nor a brace ends a run of inner items. -/
theorem last_of_inner {w : List Token} {us : List Unit} (h : Repeated InnerItem w us) :
    ∀ t ∈ w.getLast?, t.kind ≠ .symbol .semicolon ∧ t.kind ≠ .symbol .rightBrace := by
  induction h with
  | nil => simp
  | @cons i w _ _ hi _ ih =>
    intro t ht
    rw [List.getLast?_append, Option.mem_def, Option.or_eq_some_iff] at ht
    rcases ht with ht | ⟨-, ht⟩
    · exact ih t ht
    · cases hi with
      | @plain t' hplain hs =>
        obtain rfl : t' = t := by simpa using ht
        refine ⟨by simpa [isSemicolon] using hs, ?_⟩
        intro hk
        simp [Token.isDelimiter, hk] at hplain
      | round hw =>
        obtain ⟨_, _, hc⟩ := hw
        rw [← List.cons_append, List.getLast?_concat, Option.some.injEq] at ht
        rw [← ht, hc]
        decide
      | square hw =>
        obtain ⟨_, _, hc⟩ := hw
        rw [← List.cons_append, List.getLast?_concat, Option.some.injEq] at ht
        rw [← ht, hc]
        decide

/-- An inner item has tokens. -/
theorem innerItem_ne_nil {w : List Token} {u : Unit} (h : InnerItem w u) : w ≠ [] :=
  noiseItem_ne_nil (noiseItem_of_inner h)

/-- An inner item is what the rule for it takes. -/
theorem complete_innerItem (n : Nat) : Complete n innerItem InnerItem fun _ => True := by
  intro w rest u hw _ hlt
  cases hw with
  | plain ht hs => simp [innerItem, ht, hs]
  | round hw =>
    have h := complete_balancedGroup n (.mk hw) trivial hlt
    obtain ⟨ht, _, _⟩ := hw
    simp only [List.cons_append, List.append_assoc, List.nil_append] at h
    simp [innerItem, h, ht, Bracket.opening, Token.isDelimiter]
  | square hw =>
    have h := complete_balancedGroup n (.mk hw) trivial hlt
    obtain ⟨ht, _, _⟩ := hw
    simp only [List.cons_append, List.append_assoc, List.nil_append] at h
    simp [innerItem, h, ht, Bracket.opening, Token.isDelimiter]

/-- Inner items and a group in braces are one part of a statement. -/
theorem on_bracedPart {v c : List Token} {us : List Unit} (hv : Repeated InnerItem v us)
    (hc : Enclosed .curly c ()) (rest : List Token) :
    bracedPart.on (v ++ (c ++ rest)) = some ((), rest) := by
  have hgroup := complete_balancedGroup ((c ++ rest).length + 1) (.mk hc) trivial
    (Nat.lt_succ_self _)
  cases hc with
  | @mk t u w ht _ _ =>
    have hnone : innerItem.on (t :: (w ++ [u]) ++ rest) = none := by
      simp [innerItem, ht, Bracket.opening, Token.isDelimiter]
    have hitems := Complete.many (complete_innerItem _) (fun _ _ h => innerItem_ne_nil h)
      (fun _ _ _ _ => trivial) hv ⟨trivial, hnone⟩ (Nat.lt_succ_self _)
    simp only [List.cons_append, List.append_assoc, List.nil_append] at hgroup hitems
    simp [bracedPart_eq, hitems, hgroup, ht, Bracket.opening]

/-- Noise and a semicolon are a statement. -/
theorem on_plainStatement {v : List Token} {us : List Unit} {t : Token}
    (hv : Repeated (NoiseItem isSemicolon) v us) (ht : t.kind = .symbol .semicolon)
    (rest : List Token) : plainStatement.on (v ++ t :: rest) = some ((), rest) := by
  have h := complete_noiseUntil isSemicolon _ (.mk hv) (semicolon_ends ht rest)
    (Nat.lt_succ_self _)
  simp [plainStatement, h, ht]

/-- The rule takes a statement off the front of any closed tokens. -/
def FindsStatement (r : Rule Unit) : Prop :=
  ∀ ⦃w : List Token⦄, Closed w → w ≠ [] → ∀ rest, r.on (w ++ rest) ≠ none

/-- A statement is found by its semicolon or by its braces. -/
theorem findsStatement_plainOrBraced : FindsStatement (plainStatement <|> bracedStatement) := by
  intro w hw hne rest
  obtain ⟨us, hus⟩ := exists_repeated_of_balanced hw.balanced
  cases firstEnd_of_repeated hus with
  | @semicolon v r t us hv ht =>
    have h := on_plainStatement hv ht (r ++ rest)
    simp [h]
  | @braces v c r us hv hc =>
    have h := on_bracedPart hv hc (r ++ rest)
    obtain ⟨as, m, hm⟩ := exists_on_many bracedPart (r ++ rest)
    simp [bracedStatement, h, hm]
  | neither hw' =>
    obtain ⟨t, ht⟩ := Option.ne_none_iff_exists'.mp (mt List.getLast?_eq_none_iff.mp hne)
    have hnot := last_of_inner hw' t ht
    rcases hw.last t ht with h | h
    · exact absurd h hnot.1
    · exact absurd h hnot.2

/-- Ways that are tried first do not keep a statement from being found. -/
theorem FindsStatement.orElse {s : Rule Unit} (hs : FindsStatement s) (r : Rule Unit) :
    FindsStatement (r <|> s) := by
  intro w hw hne rest h
  rw [on_orElse, Option.or_eq_none_iff] at h
  exact hs hw hne rest h.2

/-- The rule for statements finds one, whatever the rule for blocks is. -/
theorem findsStatement_statement (block : Rule Unit) : FindsStatement (statement block) :=
  ((findsStatement_plainOrBraced.orElse block).orElse stubThrow).orElse superCall

/-! ## Completeness -/

/-- Closed tokens in front of a closing brace are read as statements, to the last. -/
theorem on_statements {r : Rule Unit} [Local r] (hr : Sound r (Statement Block))
    (hfinds : FindsStatement r) {w : List Token} (hw : Closed w) {u : Token}
    (hu : u.kind = .symbol .rightBrace) (rest : List Token) :
    ∃ us, (many r).on (w ++ u :: rest) = some (us, u :: rest) := by
  induction hn : w.length using Nat.strongRecOn generalizing w with
  | _ n ih =>
    rcases hs : r.on (w ++ u :: rest) with _ | ⟨a, l⟩
    · obtain rfl : w = [] := Decidable.byContradiction fun hne => hfinds hw hne _ hs
      exact ⟨[], on_many_of_none hs⟩
    · -- What the statement takes is balanced, and so ends before the brace.
      obtain ⟨m, hm, hstatement⟩ := hr hs
      have hclosed := closed_of_statement enclosed_of_block hstatement
      have hpos := List.length_pos_iff.mpr (statement_ne_nil block_begins.ne_nil hstatement)
      obtain ⟨v, rfl, rfl, hv⟩ := balanced_cancel hclosed.balanced hw.balanced hu hm
      rw [List.length_append] at hn
      obtain ⟨us, hus⟩ := ih _ (by omega) (hw.of_append hv) rfl
      exact ⟨a :: us, on_many_of_some hs (by simp; omega) hus⟩

/-- Closed tokens between braces are read to the closing brace. -/
theorem on_braced {r : Rule Unit} [Local r] (hr : Sound r (Statement Block))
    (hfinds : FindsStatement r) {w : List Token} (hw : Closed w) {t u : Token}
    (ht : t.kind = .symbol .leftBrace) (hu : u.kind = .symbol .rightBrace) (rest : List Token) :
    (braced r).on (t :: (w ++ u :: rest)) = some ((), rest) := by
  obtain ⟨us, hus⟩ := on_statements hr hfinds hw hu rest
  simp only [braced, on_discard, on_between, on_symbol_cons, ht, if_pos, Option.bind_some, hus, hu,
    Option.map_some]

/-- The tokens of a block, between its braces, are closed. -/
theorem closed_of_block {w : List Token} {us : List Unit} (h : Repeated (Statement Block) w us) :
    Closed w :=
  closed_of_statements (fun _ _ _ h => enclosed_of_block h) h (Nat.lt_succ_self _)

/-- A block is what the rule for blocks takes. -/
theorem complete_block (n : Nat) : Complete n block Block fun _ => True := by
  rintro w rest u hw _ _
  cases hw with
  | @mk t c w us ht hw hc =>
    rw [List.cons_append, List.append_assoc, List.singleton_append, block, on_recursive, ← block,
      blockBody_eq]
    have hinner := sound_block.below (t :: (w ++ c :: rest)).length
    exact on_braced (sound_statement hinner) (findsStatement_statement _) (closed_of_block hw) ht hc
      rest

end ApiSurface.Grammar
