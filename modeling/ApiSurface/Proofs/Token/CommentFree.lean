import ApiSurface.Proofs.Token.Lookahead

/-!
# Texts without comments, in parentheses

`Uncommented cs kinds` says that a text is read without a fault and without a comment, and of which
kinds its tokens are. If such a text stands in parentheses, the closing one is never taken for a
part of it: its tokens are of the same kinds, and then comes the parenthesis
(`Uncommented.scanFrom_parenthesis`). This asks that the parentheses in the text are closed in it
(`RoundClosed`), since one that is not may open a ratio that ends behind the text.

The opening parenthesis is another matter. It is none if a ratio stands there, and this ratio may be
the whole text in parentheses. If it is not, it ends inside the text, whose tokens are then two
numbers with a slash between them and a closing parenthesis (`Uncommented.ratio?_eq_none`).
-/

namespace ApiSurface

open Text

/-! ## Texts without comments -/

/-- The text is read without a fault and without a comment, into tokens of the given kinds. -/
inductive Uncommented : List Char → List TokenKind → Prop
  | nil : Uncommented [] []
  | token {c : Char} {rest lexeme after : List Char} {kind : TokenKind} {kinds : List TokenKind} :
      Piece.read c rest = .token kind lexeme after → Uncommented after kinds →
      Uncommented (c :: rest) (kind :: kinds)
  | gap {c : Char} {rest skipped after : List Char} {kinds : List TokenKind} :
      Piece.read c rest = .gap skipped after → c ≠ '/' → Uncommented after kinds →
      Uncommented (c :: rest) kinds

/-- The text is read without a fault and without a comment. -/
def CommentFree (cs : List Char) : Prop := ∃ kinds, Uncommented cs kinds

namespace Uncommented

variable {cs : List Char} {kinds : List TokenKind}

/-- The first piece of a text without comments is a token or blank, and what is left of the text is
without comments again. -/
theorem of_cons {c : Char} {rest : List Char} (h : Uncommented (c :: rest) kinds) :
    match Piece.read c rest with
    | .token kind _ after => ∃ ks, kinds = kind :: ks ∧ Uncommented after ks
    | .gap _ after => c ≠ '/' ∧ Uncommented after kinds
    | .fault _ => False := by
  cases h with
  | token hpiece hmore =>
    rw [hpiece]
    exact ⟨_, rfl, hmore⟩
  | gap hpiece hc hmore =>
    rw [hpiece]
    exact ⟨hc, hmore⟩

/-- The token that such a text begins with, and the text behind it. -/
theorem of_token {c : Char} {rest lexeme after : List Char} {kind : TokenKind}
    (h : Uncommented (c :: rest) kinds) (hread : Piece.read c rest = .token kind lexeme after) :
    ∃ ks, kinds = kind :: ks ∧ Uncommented after ks := by
  have hcons := h.of_cons
  rwa [hread] at hcons

/-- What such a text begins with is skipped, and is no comment. -/
theorem of_gap {c : Char} {rest skipped after : List Char} (h : Uncommented (c :: rest) kinds)
    (hread : Piece.read c rest = .gap skipped after) : c ≠ '/' ∧ Uncommented after kinds := by
  have hcons := h.of_cons
  rwa [hread] at hcons

/-- Such a text is not refused. -/
theorem read_ne_fault {c : Char} {rest : List Char} (h : Uncommented (c :: rest) kinds)
    (cause : ScanFault) : Piece.read c rest ≠ .fault cause := by
  intro hread
  have hcons := h.of_cons
  rwa [hread] at hcons

/-- No text that is read begins with a byte-order mark. -/
theorem dropMark_eq (h : Uncommented cs kinds) : dropMark cs = cs := by
  apply dropMark_of_head
  intro hmark
  obtain ⟨rest, rfl⟩ := List.head?_eq_some_iff.mp hmark
  exact h.read_ne_fault _ (Piece.read_byteOrderMark rest)

/-- A slash divides, as it opens no comment. -/
theorem read_slash {rest : List Char} (h : Uncommented ('/' :: rest) kinds) :
    rest.head? ≠ some '/' ∧ rest.head? ≠ some '*' := by
  constructor
  · intro hslash
    obtain ⟨more, rfl⟩ := List.head?_eq_some_iff.mp hslash
    exact (h.of_gap (Piece.read_lineComment more)).1 rfl
  · intro hstar
    obtain ⟨more, rfl⟩ := List.head?_eq_some_iff.mp hstar
    have hread := Piece.read_blockComment more
    unfold Piece.ofComment at hread
    split at hread
    · exact (h.of_gap hread).1 rfl
    · exact h.read_ne_fault _ hread

/-- The text holds the spelling of each of its tokens. -/
theorem spelling_subset (h : Uncommented cs kinds) {kind : TokenKind} (hkind : kind ∈ kinds) :
    kind.spelling ⊆ cs := by
  induction h with
  | nil => exact absurd hkind List.not_mem_nil
  | @token c rest lexeme after k kinds hpiece _ ih =>
    obtain ⟨-, -, happend, -⟩ := Piece.of_read_token hpiece
    rw [← happend]
    rcases List.mem_cons.mp hkind with rfl | hkind
    · rw [← (Piece.lexeme_of_read hpiece).eq_spelling]
      exact List.subset_append_left lexeme after
    · exact List.subset_append_of_subset_right lexeme (ih hkind)
  | @gap c rest skipped after kinds hpiece _ _ ih =>
    obtain ⟨-, -, happend, -⟩ := Piece.of_read_gap hpiece
    rw [← happend]
    exact List.subset_append_of_subset_right skipped (ih hkind)

/-! ## Along the scan -/

/-- If every piece of the text is the same with `v` behind the text, the scan comes to `v` with
tokens of the same kinds. What makes the pieces the same may be a property of the tokens left. -/
theorem scanFrom_append {Q : List TokenKind → Prop} {v : List Char}
    (htail : ∀ kind ks, Q (kind :: ks) → Q ks)
    (hread : ∀ c u ks, Uncommented (c :: u) ks → Q ks →
      Piece.read c (u ++ v) = (Piece.read c u).followedBy v)
    (h : Uncommented cs kinds) (hkinds : Q kinds) (p : Position) (before : List Token) :
    ∃ (q : Position) (ts : List Token), ts.map Token.kind = kinds ∧
      scanFrom p (cs ++ v) before = scanFrom q v (ts.reverse ++ before) := by
  -- Along the pieces of the text; the position and the tokens before change with each.
  induction h generalizing p before with
  | nil => exact ⟨p, [], rfl, rfl⟩
  | @token c rest lexeme after kind kinds hpiece hmore ih =>
    have hpiece' := hread c rest _ (.token hpiece hmore) hkinds
    rw [hpiece] at hpiece'
    obtain ⟨q, ts, hts, hscan⟩ := ih (htail _ _ hkinds) (p.after lexeme)
      (⟨kind, String.ofList lexeme, p⟩ :: before)
    refine ⟨q, ⟨kind, String.ofList lexeme, p⟩ :: ts, by rw [List.map_cons, hts], ?_⟩
    rw [List.cons_append, scanFrom_of_token hpiece', hscan, List.reverse_cons, List.append_assoc,
      List.singleton_append]
  | @gap c rest skipped after kinds hpiece hc hmore ih =>
    have hpiece' := hread c rest _ (.gap hpiece hc hmore) hkinds
    rw [hpiece] at hpiece'
    obtain ⟨q, ts, hts, hscan⟩ := ih hkinds (p.after skipped) before
    refine ⟨q, ts, hts, ?_⟩
    rw [List.cons_append, scanFrom_of_gap hpiece', hscan]

/-- The tokens of a text are of its kinds. -/
theorem map_kind_of_scan {text : String} {inner : List Token} {e : Token}
    (h : Uncommented text.toList kinds) (hscan : scan text = .ok (inner ++ [e])) :
    inner.map Token.kind = kinds := by
  have hnil : ∀ a : Piece, a = a.followedBy [] := by
    rintro (_ | _ | _) <;> simp [Piece.followedBy]
  obtain ⟨q, ts, hts, hscan'⟩ := scanFrom_append (Q := fun _ => True) (v := [])
    (fun _ _ _ => trivial) (fun c u _ _ _ => by rw [List.append_nil, ← hnil]) h trivial
    Position.start []
  rw [List.append_nil, List.append_nil, ← h.dropMark_eq, scanFrom, List.reverse_cons,
    List.reverse_reverse] at hscan'
  obtain ⟨rfl, -⟩ := List.append_inj' (Except.ok.inj (hscan.symm.trans hscan')) rfl
  exact hts

end Uncommented

/-! ## A closing parenthesis behind the text -/

/-- Behind every opening parenthesis there is a closing one. -/
def RoundClosed : List TokenKind → Prop
  | [] => True
  | kind :: ks => (kind = .symbol .leftParen → .symbol .rightParen ∈ ks) ∧ RoundClosed ks

/-- Parentheses closed in each of two parts are closed in the whole. -/
theorem RoundClosed.append {ks ls : List TokenKind} (hks : RoundClosed ks) (hls : RoundClosed ls) :
    RoundClosed (ks ++ ls) := by
  induction ks with
  | nil => exact hls
  | cons kind ks ih =>
    exact ⟨fun hkind => List.mem_append_left ls (hks.1 hkind), ih hks.2⟩

namespace Piece

/-- A quoted text that is closed stays so, whatever follows. -/
theorem ofQuoted_append {quote : Char} (kind : String → TokenKind) {cause : ScanFault}
    (hbreak : isBreak quote = false) (hslash : quote ≠ '\\') {u : List Char}
    (hclosed : ofQuoted quote kind cause u ≠ fault cause) (v : List Char) :
    ofQuoted quote kind cause (u ++ v) = (ofQuoted quote kind cause u).followedBy v := by
  unfold ofQuoted at hclosed ⊢
  cases hquoted : quoted? quote u with
  | none =>
    rw [hquoted] at hclosed
    exact absurd rfl hclosed
  | some x =>
    rw [quoted?_append_of_some hbreak hslash hquoted]
    rfl

end Piece

namespace Uncommented

variable {cs : List Char} {kinds : List TokenKind}

/-- An opening parenthesis is closed in the text, be it a token or the beginning of a ratio. -/
theorem closing_mem {u : List Char} (h : Uncommented ('(' :: u) kinds)
    (hclosed : RoundClosed kinds) : ')' ∈ u := by
  cases hratio : Numeral.ratio? ('(' :: u) with
  | some x =>
    obtain ⟨inside, hn, -⟩ := (Numeral.isRatio_of_ratio? hratio).exists_inside
    have happend := Numeral.append_of_ratio? hratio
    rw [hn, List.cons_append, List.append_assoc] at happend
    rw [← (List.cons.inj happend).2]
    exact List.mem_append_right inside List.mem_cons_self
  | none =>
    obtain ⟨ks, rfl, hks⟩ := h.of_token (Piece.read_leftParen hratio)
    exact hks.spelling_subset (hclosed.1 rfl) (List.mem_singleton.mpr rfl)

/-- The closing parenthesis behind the text belongs to none of its pieces. -/
theorem read_parenthesis {c : Char} {u : List Char} (h : Uncommented (c :: u) kinds)
    (hclosed : RoundClosed kinds) (v : List Char) :
    Piece.read c (u ++ ')' :: v) = (Piece.read c u).followedBy (')' :: v) := by
  have hbehind : ∀ d, d ≠ ')' → ((u ++ ')' :: v).head? = some d ↔ u.head? = some d) := fun d hd =>
    head?_append_eq_some (by simpa using hd.symm)
  rcases Piece.plain_cases c with hword | rfl | rfl | rfl | rfl | hplain
  · rw [Piece.read_of_isWordStart hword, Piece.read_of_isWordStart hword]
    exact Piece.ofWord_append (boundary_cons.mpr rfl) c u
  · obtain ⟨hslash, hstar⟩ := h.read_slash
    rw [Piece.read_division hslash hstar, Piece.read_division]
    · rfl
    · rwa [ne_eq, hbehind _ (by decide)]
    · rwa [ne_eq, hbehind _ (by decide)]
  · exact Piece.read_at_append_of_boundary (boundary_cons.mpr rfl) u
  · exact Piece.ofQuoted_append _ rfl (by decide) (h.read_ne_fault _) _
  · exact Piece.ofQuoted_append _ rfl (by decide) (h.read_ne_fault _) _
  · refine Piece.read_append_of_boundary hplain (boundary_cons.mpr rfl) (by simp) ?_
    rintro rfl
    exact Piece.ofParenthesis_append (Numeral.ratio?_append_of_mem (h.closing_mem hclosed) _)

/-- The scan of a text comes to the closing parenthesis behind it, with tokens of the same kinds. -/
theorem scanFrom_parenthesis (h : Uncommented cs kinds) (hclosed : RoundClosed kinds)
    (v : List Char) (p : Position) (before : List Token) :
    ∃ (q : Position) (ts : List Token), ts.map Token.kind = kinds ∧
      scanFrom p (cs ++ ')' :: v) before = scanFrom q (')' :: v) (ts.reverse ++ before) :=
  scanFrom_append (fun _ _ h => h.2) (fun _ _ _ hu hks => hu.read_parenthesis hks v) h hclosed p
    before

/-! ## The opening parenthesis in front of the text -/

/-- Blanks in front may be taken away. -/
theorem of_blanks {gap rest : List Char} (hgap : ∀ c ∈ gap, Numeral.isGap c = true)
    (h : Uncommented (gap ++ rest) kinds) : Uncommented rest kinds := by
  induction gap with
  | nil => exact h
  | cons c gap ih =>
    rw [List.forall_mem_cons] at hgap
    have hread : Piece.read c (gap ++ rest) = .gap [c] (gap ++ rest) := by
      rcases Numeral.isGap_iff.mp hgap.1 with rfl | rfl <;> rfl
    exact ih hgap.2 (h.of_gap hread).2

/-- A numeral with gaps around it is one token. -/
theorem of_spaced {spaced rest : List Char} (hspaced : Numeral.IsSpaced spaced)
    (hrest : Boundary Numeral.goesOn rest) (h : Uncommented (spaced ++ rest) kinds) :
    ∃ n ks, kinds = .number n :: ks ∧ Uncommented rest ks := by
  obtain @⟨gap, n, gap', hbefore, hn, hafter⟩ := hspaced
  obtain ⟨c, m, rfl⟩ := List.exists_cons_of_ne_nil hn.ne_nil
  rw [List.append_assoc, List.append_assoc] at h
  have hread := Piece.read_numeral hn (Numeral.boundary_goesOn_gap hafter hrest)
  obtain ⟨ks, rfl, hks⟩ := (h.of_blanks hbefore).of_token hread
  exact ⟨_, ks, rfl, hks.of_blanks hafter⟩

/-- What follows the opening parenthesis of a ratio is read as two numbers with a slash between them
and a closing parenthesis. -/
theorem of_ratio {inside rest : List Char} (hn : Numeral.IsRatio ('(' :: (inside ++ [')'])))
    (h : Uncommented (inside ++ ')' :: rest) kinds) :
    ∃ m n ks, kinds =
      .number m :: .operator '/' :: .number n :: .symbol .rightParen :: ks := by
  generalize he : '(' :: (inside ++ [')']) = cs at hn
  obtain @⟨above, below, habove, hbelow⟩ := hn
  have hinside : inside ++ [')'] = (above ++ '/' :: below) ++ [')'] := by
    simpa using he
  obtain rfl := List.append_cancel_right hinside
  rw [List.append_assoc, List.cons_append] at h
  obtain ⟨m, ks₁, rfl, hdivision⟩ := h.of_spaced habove (boundary_cons.mpr rfl)
  obtain ⟨hslash, hstar⟩ := hdivision.read_slash
  obtain ⟨ks₂, rfl, hlower⟩ := hdivision.of_token (Piece.read_division hslash hstar)
  obtain ⟨n, ks₃, rfl, hbehind⟩ := hlower.of_spaced hbelow (boundary_cons.mpr rfl)
  have hclose : Piece.read ')' rest = .token (.symbol .rightParen) [')'] rest := rfl
  obtain ⟨ks, rfl, -⟩ := hbehind.of_token hclose
  exact ⟨m, n, ks, rfl⟩

/-- The opening parenthesis in front of a text begins no ratio, unless that is the whole text in
parentheses or ends inside the text. -/
theorem ratio?_eq_none (h : Uncommented cs kinds)
    (hwhole : ¬ Numeral.IsRatio ('(' :: (cs ++ [')'])))
    (hinside : ∀ m n ks, kinds ≠
      .number m :: .operator '/' :: .number n :: .symbol .rightParen :: ks) (rest : List Char) :
    Numeral.ratio? ('(' :: (cs ++ ')' :: rest)) = none := by
  rw [Option.eq_none_iff_forall_ne_some]
  rintro ⟨n, more⟩ hsome
  have hn := Numeral.isRatio_of_ratio? hsome
  have happend : '(' :: ((cs ++ [')']) ++ rest) = n ++ more := by
    rw [Numeral.append_of_ratio? hsome, List.append_assoc, List.singleton_append]
  obtain ⟨behind, hbehind⟩ := hn.exists_append_of_mem (by simp) happend
  obtain ⟨inside, rfl, -⟩ := hn.exists_inside
  rcases List.eq_nil_or_concat behind with rfl | ⟨behind, close, rfl⟩
  · rw [List.append_nil] at hbehind
    exact hwhole (hbehind ▸ hn)
  · have hcs : cs ++ [')'] = (inside ++ ')' :: behind) ++ [close] := by
      simpa using hbehind
    obtain ⟨rfl, -⟩ := List.append_inj' hcs rfl
    obtain ⟨m, n, ks, hkinds⟩ := h.of_ratio hn
    exact hinside m n ks hkinds

end Uncommented

end ApiSurface
