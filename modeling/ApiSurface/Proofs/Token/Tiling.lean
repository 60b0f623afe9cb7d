import ApiSurface.Proofs.Text.Position
import ApiSurface.Proofs.Token.Numeral
import ApiSurface.Token.Scan

/-!
# Tokens tile their text

The tokens of a text stand in it side by side, in order, and what lies between two of them is a
*gap*: blanks, line breaks and whole comments. `Tiles cs e tokens` says this of the text `cs` from
the offset `e` on, with the offsets of every token, and gives the position of each token as counted
from the text before it.

One piece of a text is either a token without a line break at its end or a piece of a gap
(`Piece.read_fits`). Reading piece after piece keeps two facts: the position is the one behind the
text read so far, and the text is never cut between a carriage return and a line feed. From these
the tiling follows by induction along the scan (`exists_tiles_of_scanFrom`).
-/

namespace ApiSurface

open Text

/-! ## Gaps -/

/-- One piece of a gap, with the text behind it. A comment to the end of the line goes on to a line
break or the end of the text; any other comment ends with the first `*/` in it. -/
inductive GapPiece : List Char → List Char → Prop
  | blank {c : Char} {behind : List Char} : c = ' ' ∨ c = '\t' ∨ c = '\x0c' → GapPiece [c] behind
  | lineFeed {behind : List Char} : GapPiece ['\n'] behind
  | carriageReturn {behind : List Char} : behind.head? ≠ some '\n' → GapPiece ['\r'] behind
  | returnAndFeed {behind : List Char} : GapPiece ['\r', '\n'] behind
  | lineComment {text behind : List Char} :
      (∀ c ∈ text, isBreak c = false) → (∀ c ∈ behind.head?, isBreak c = true) →
      GapPiece ('/' :: '/' :: text) behind
  | blockComment {text behind : List Char} :
      ¬ ['*', '/'] <:+: text → GapPiece ('/' :: '*' :: (text ++ ['*', '/'])) behind

/-- Any number of pieces, with the text behind them. -/
inductive Gap : List Char → List Char → Prop
  | nil {behind : List Char} : Gap [] behind
  | cons {piece more behind : List Char} :
      GapPiece piece (more ++ behind) → Gap more behind → Gap (piece ++ more) behind

/-- A gap may go on with one more piece. -/
theorem Gap.append_piece {gap piece behind : List Char} (h : Gap gap (piece ++ behind))
    (hpiece : GapPiece piece behind) : Gap (gap ++ piece) behind := by
  generalize hl : piece ++ behind = l at h
  induction h with
  | nil =>
    have hone : Gap (piece ++ []) behind := .cons hpiece .nil
    simpa using hone
  | @cons first more l hfirst _ ih =>
    subst hl
    rw [List.append_assoc]
    rw [← List.append_assoc] at hfirst
    exact .cons hfirst (ih rfl)

/-! ## Tilings -/

/-- The tokens tile the text from the offset `e` on: a gap, a token between two offsets, and so on,
and at the end a gap and the token for the end of the input. Each token stands at the position
counted from the text before its offset. -/
inductive Tiles (cs : List Char) : Nat → List Token → Prop
  | done {e : Nat} {t : Token} :
      e ≤ cs.length → Gap (cs.drop e) [] → t.kind = .eof → t.lexeme = "" →
      t.position = positionBehind cs → Tiles cs e [t]
  | token {e o e' : Nat} {t : Token} {ts : List Token} :
      e ≤ o → Gap (cs.extract e o) (cs.drop o) → o < e' → e' ≤ cs.length → t.kind ≠ .eof →
      t.lexeme.toList = cs.extract o e' → t.position = positionBehind (cs.take o) →
      Tiles cs e' ts → Tiles cs e (t :: ts)

/-- A gap and a token in front of a tiling, with the text cut at their ends. -/
theorem tiles_cons {read gap lexeme rest : List Char} {t : Token} {ts : List Token}
    (hgap : Gap gap (lexeme ++ rest)) (hne : lexeme ≠ []) (hkind : t.kind ≠ .eof)
    (hlexeme : t.lexeme = String.ofList lexeme)
    (hposition : t.position = positionBehind (read ++ gap))
    (hts : Tiles (read ++ gap ++ lexeme ++ rest) (read ++ gap ++ lexeme).length ts) :
    Tiles (read ++ gap ++ lexeme ++ rest) read.length (t :: ts) := by
  have hpos := List.length_pos_iff.mpr hne
  have hlength : (read ++ gap ++ lexeme).length = (read ++ gap).length + lexeme.length :=
    List.length_append
  have hdrop : (read ++ gap ++ lexeme ++ rest).drop (read ++ gap).length = lexeme ++ rest := by
    rw [List.append_assoc, List.drop_left]
  have htake : (read ++ gap ++ lexeme ++ rest).take (read ++ gap).length = read ++ gap := by
    rw [List.append_assoc, List.take_left]
  have hgap' : (read ++ gap ++ lexeme ++ rest).extract read.length (read ++ gap).length = gap := by
    simp
  have hlexeme' : (read ++ gap ++ lexeme ++ rest).extract (read ++ gap).length
      (read ++ gap ++ lexeme).length = lexeme := by
    rw [List.extract_eq_take_drop, hdrop, hlength, Nat.add_sub_cancel_left, List.take_left]
  refine .token (o := (read ++ gap).length) ?_ ?_ ?_ ?_ hkind ?_ ?_ hts
  · rw [List.length_append]
    exact Nat.le_add_right _ _
  · rw [hgap', hdrop]
    exact hgap
  · omega
  · exact (List.prefix_append _ rest).length_le
  · rw [hlexeme, hlexeme', String.toList_ofList]
  · rw [hposition, htake]

/-! ## What a piece can be -/

/-- No carriage return stands in a numeral. -/
theorem Numeral.not_mem_of_read? {cs numeral rest : List Char}
    (h : read? cs = some (numeral, rest)) : '\r' ∉ numeral := by
  intro hreturn
  exact absurd ((isNumeral_of_read? h).forall_mem '\r' hreturn) (by decide)

/-- A comment ends with the first `*/` in it. -/
theorem exists_text_of_closeComment? {cs inside after : List Char}
    (h : closeComment? cs = some (inside, after)) :
    ∃ text, inside = text ++ ['*', '/'] ∧ ¬ ['*', '/'] <:+: text := by
  fun_induction closeComment? cs generalizing inside after with
  | case1 => cases h
  | case2 rest =>
    simp only [Option.some.injEq, Prod.mk.injEq] at h
    exact ⟨[], h.1.symm, by decide⟩
  | case3 c rest hpair ih =>
    obtain ⟨⟨more, after'⟩, hmore, he⟩ := Option.map_eq_some_iff.mp h
    simp only [Prod.mk.injEq] at he
    obtain ⟨rfl, rfl⟩ := he
    obtain ⟨text, rfl, htext⟩ := ih hmore
    refine ⟨c :: text, rfl, ?_⟩
    rw [List.infix_cons_iff, not_or]
    refine ⟨?_, htext⟩
    -- An end in front would have been found before.
    rintro ⟨tail, htail⟩
    simp only [List.cons_append, List.nil_append, List.cons.injEq] at htail
    obtain ⟨rfl, rfl⟩ := htail
    exact hpair _ rfl (append_of_closeComment? hmore).symm

/-- A word is not the end of the input. -/
theorem ofWord_ne_eof (word : String) : TokenKind.ofWord word ≠ .eof := by
  unfold TokenKind.ofWord
  split <;> simp

/-- There is no carriage return in a word. -/
theorem not_mem_takeWhile_word (cs : List Char) : '\r' ∉ cs.takeWhile isWordPart := by
  intro hc
  have hpart := List.mem_takeWhile_imp hc
  have hnot : isWordPart '\r' = false := by decide
  rw [hnot] at hpart
  cases hpart

/-- A text does not end with a character that is not in it. -/
theorem getLast?_ne_of_not_mem {c : Char} {cs : List Char} (h : c ∉ cs) : cs.getLast? ≠ some c :=
  fun hlast => h (List.mem_of_getLast? hlast)

namespace Piece

/-- A token is not the end of the input, what is skipped is a piece of a gap, and neither ends
inside a line break. -/
def Fits : Piece → Prop
  | token kind lexeme rest => kind ≠ .eof ∧ Seam lexeme rest
  | gap skipped rest => GapPiece skipped rest ∧ Seam skipped rest
  | fault _ => True

/-- A quoted text fits, since it ends with its quote. -/
theorem ofQuoted_fits {quote : Char} {kind : String → TokenKind} (cause : ScanFault)
    (rest : List Char) (hquote : quote ≠ '\r') (hkind : ∀ s, kind s ≠ .eof) :
    (ofQuoted quote kind cause rest).Fits := by
  unfold ofQuoted
  split
  · refine ⟨hkind _, ?_⟩
    rw [← List.cons_append]
    exact seam_concat hquote _ _
  · trivial

/-- A comment fits, since it ends with its end mark. -/
theorem ofComment_fits (rest : List Char) : (ofComment rest).Fits := by
  unfold ofComment
  split
  · next h =>
    obtain ⟨text, rfl, htext⟩ := exists_text_of_closeComment? h
    refine ⟨.blockComment htext, ?_⟩
    rw [List.append_cons text '*', ← List.cons_append, ← List.cons_append]
    exact seam_concat (by decide) _ _
  · trivial

/-- A parenthesis fits, and so does the ratio that it begins. -/
theorem ofParenthesis_fits (rest : List Char) : (ofParenthesis rest).Fits := by
  unfold ofParenthesis
  split
  · next h =>
    obtain ⟨above, below, rfl, -⟩ := Numeral.eq_of_ratio? h
    have hend : '(' :: (above ++ '/' :: (below ++ [')'])) =
        ('(' :: (above ++ '/' :: below)) ++ [')'] := by simp
    refine ⟨by simp, ?_⟩
    rw [hend]
    exact seam_concat (by decide) _ _
  · exact ⟨by simp, seam_of_last (by decide) _⟩

/-- A word fits. -/
theorem ofWord_fits {c : Char} (hc : c ≠ '\r') (rest : List Char) : (ofWord c rest).Fits := by
  refine ⟨ofWord_ne_eof _, seam_of_last (getLast?_ne_of_not_mem ?_) _⟩
  rw [List.mem_cons, not_or]
  exact ⟨hc.symm, not_mem_takeWhile_word rest⟩

/-- A mark fits. -/
theorem ofMark_fits {c : Char} (hc : c ≠ '\r') (rest : List Char) : (ofMark c rest).Fits := by
  have hlast : [c].getLast? ≠ some '\r' := by simpa using hc
  unfold ofMark
  split
  · exact ⟨by simp, seam_of_last hlast _⟩
  · split
    · exact ⟨by simp, seam_of_last hlast _⟩
    · trivial

/-- What is skipped as one character is a blank or a line feed. -/
theorem blank_fits {c : Char} (h : c = ' ' ∨ c = '\t' ∨ c = '\x0c' ∨ c = '\n')
    (rest : List Char) : (gap [c] rest).Fits := by
  rcases h with rfl | rfl | rfl | rfl
  · exact ⟨.blank (by simp), seam_of_last (by decide) _⟩
  · exact ⟨.blank (by simp), seam_of_last (by decide) _⟩
  · exact ⟨.blank (by simp), seam_of_last (by decide) _⟩
  · exact ⟨.lineFeed, seam_of_last (by decide) _⟩

/-- A comment to the end of the line goes on to a line break or the end of the text. -/
theorem lineComment_fits {rest : List Char} (h : rest.head? = some '/') :
    (gap ('/' :: rest.takeWhile (!isBreak ·)) (rest.dropWhile (!isBreak ·))).Fits := by
  obtain ⟨text, rfl⟩ : ∃ text, rest = '/' :: text := ⟨_, (cons_tail_of_head? h).symm⟩
  have hslash : (!isBreak '/') = true := by decide
  rw [List.takeWhile_cons_of_pos (p := fun c => !isBreak c) (a := '/') hslash,
    List.dropWhile_cons_of_pos (p := fun c => !isBreak c) (a := '/') hslash]
  have htext : ∀ c ∈ text.takeWhile (!isBreak ·), isBreak c = false := by
    intro c hc
    simpa using List.mem_takeWhile_imp hc
  refine ⟨.lineComment htext ?_, seam_of_last (getLast?_ne_of_not_mem ?_) _⟩
  · intro c hc
    have hhead := List.head?_dropWhile_not (fun c => !isBreak c) text
    rw [Option.mem_def.mp hc] at hhead
    simpa using hhead
  · simp only [List.mem_cons, not_or]
    refine ⟨by decide, by decide, fun hc => ?_⟩
    exact absurd (htext _ hc) (by decide)

/-- A choice of two pieces fits if both do. -/
theorem fits_ite {q : Prop} [Decidable q] {a b : Piece} (ha : q → a.Fits) (hb : ¬ q → b.Fits) :
    (if q then a else b).Fits :=
  iteInduction (motive := Fits) ha hb

/-- Every piece of a text is a token or a piece of a gap, unless it is a fault. -/
theorem read_fits (c : Char) (rest : List Char) : (read c rest).Fits := by
  unfold read
  rcases hnumeral : Numeral.read? (c :: rest) with _ | ⟨lexeme, after⟩
  · refine fits_ite (fun h => blank_fits h rest) fun _ => ?_
    refine fits_ite (fun _ => fits_ite ?_ ?_) fun hc => ?_
    · exact fun _ => ⟨.returnAndFeed, seam_of_last (by decide) _⟩
    · exact fun h => ⟨.carriageReturn h, fun hs => h hs.2⟩
    refine fits_ite (fun h => lineComment_fits h.2) fun _ => ?_
    refine fits_ite (fun _ => ofComment_fits rest.tail) fun _ => ?_
    refine fits_ite (fun _ => ofQuoted_fits _ rest (by decide) (by simp)) fun _ => ?_
    refine fits_ite (fun _ => ofQuoted_fits _ rest (by decide) (by simp)) fun _ => ?_
    refine fits_ite (fun _ => ofParenthesis_fits rest) fun _ => ?_
    refine fits_ite (fun _ => ⟨by simp, seam_of_last (by decide) _⟩) fun _ => ?_
    refine fits_ite (fun _ => ⟨by simp, seam_of_last (by decide) _⟩) fun _ => ?_
    exact fits_ite (fun _ => ofWord_fits hc rest) fun _ => ofMark_fits hc rest
  · have hnot := Numeral.not_mem_of_read? hnumeral
    exact ⟨by simp, seam_of_last (getLast?_ne_of_not_mem hnot) _⟩

/-- A token that is read is part of the text, and parts no line break. -/
theorem of_read_token {c : Char} {rest lexeme after : List Char} {kind : TokenKind}
    (h : read c rest = token kind lexeme after) :
    kind ≠ .eof ∧ lexeme ≠ [] ∧ lexeme ++ after = c :: rest ∧ Seam lexeme after := by
  have hsplits := read_splits c rest
  have hfits := read_fits c rest
  rw [h] at hsplits hfits
  exact ⟨hfits.1, hsplits.1, hsplits.2, hfits.2⟩

/-- What is skipped is a piece of a gap, and parts no line break. -/
theorem of_read_gap {c : Char} {rest skipped after : List Char}
    (h : read c rest = gap skipped after) :
    GapPiece skipped after ∧ skipped ≠ [] ∧ skipped ++ after = c :: rest ∧ Seam skipped after := by
  have hsplits := read_splits c rest
  have hfits := read_fits c rest
  rw [h] at hsplits hfits
  exact ⟨hfits.1, hsplits.1, hsplits.2, hfits.2⟩

end Piece

/-! ## Along the scan -/

/-- Behind a token scanning goes on from the end of its lexeme. -/
theorem scanFrom_of_token {p : Position} {c : Char} {rest lexeme after : List Char}
    {kind : TokenKind} (h : Piece.read c rest = .token kind lexeme after) (before : List Token) :
    scanFrom p (c :: rest) before =
      scanFrom (p.after lexeme) after (⟨kind, String.ofList lexeme, p⟩ :: before) := by
  rw [scanFrom]
  split <;> simp_all

/-- Behind a gap scanning goes on from the end of it. -/
theorem scanFrom_of_gap {p : Position} {c : Char} {rest skipped after : List Char}
    (h : Piece.read c rest = .gap skipped after) (before : List Token) :
    scanFrom p (c :: rest) before = scanFrom (p.after skipped) after before := by
  rw [scanFrom]
  split <;> simp_all

/-- A fault ends the scan where it is found. -/
theorem scanFrom_of_fault {p : Position} {c : Char} {rest : List Char} {cause : ScanFault}
    (h : Piece.read c rest = .fault cause) (before : List Token) :
    scanFrom p (c :: rest) before = .error ⟨cause, p⟩ := by
  rw [scanFrom]
  split <;> simp_all

/-- Behind one more piece, the position is again the one behind the text read. -/
theorem after_piece {done piece rest : List Char} (hseam : Seam done (piece ++ rest)) :
    (Position.start.after done).after piece = Position.start.after (done ++ piece) :=
  (Position.after_append _ (seam_of_append hseam)).symm

/-- If the text read so far ends with a gap, and `p` is the position behind it, the tokens that the
scan adds tile the text from the start of this gap on. -/
theorem exists_tiles_of_scanFrom {p : Position} {cs : List Char} {before tokens : List Token}
    (h : scanFrom p cs before = .ok tokens) {read gap : List Char} (hgap : Gap gap cs)
    (hseam : Seam (read ++ gap) cs) (hp : p = Position.start.after (read ++ gap)) :
    ∃ more, tokens = before.reverse ++ more ∧ Tiles (read ++ gap ++ cs) read.length more := by
  fun_induction scanFrom p cs before generalizing read gap with
  | case1 p before =>
    cases h
    refine ⟨_, List.reverse_cons, .done ?_ ?_ rfl rfl ?_⟩
    · simp
    · simpa using hgap
    · rw [List.append_nil, ← Position.after_start]
      exact hp
  | case2 p before c rest kind lexeme after hread _ ih =>
    obtain ⟨hkind, hne, happend, hlexeme⟩ := Piece.of_read_token hread
    rw [← happend] at hgap hseam ⊢
    -- The token ends the gap; the next one is still empty.
    have hseam' : Seam (read ++ gap ++ lexeme ++ []) after := by
      rw [List.append_nil]
      exact (seam_append hne).mpr hlexeme
    have hp' : p.after lexeme = Position.start.after (read ++ gap ++ lexeme ++ []) := by
      rw [List.append_nil, hp, after_piece hseam]
    obtain ⟨more, rfl, hmore⟩ := ih h .nil hseam' hp'
    rw [List.append_nil] at hmore
    refine ⟨⟨kind, String.ofList lexeme, p⟩ :: more, by simp, ?_⟩
    rw [← List.append_assoc]
    exact tiles_cons hgap hne hkind rfl (by rw [← Position.after_start]; exact hp) hmore
  | case3 p before c rest skipped after hread _ ih =>
    obtain ⟨hpiece, hne, happend, hskipped⟩ := Piece.of_read_gap hread
    rw [← happend] at hgap hseam ⊢
    -- The gap goes on with what is skipped.
    have hseam' : Seam (read ++ (gap ++ skipped)) after := by
      rw [← List.append_assoc]
      exact (seam_append hne).mpr hskipped
    have hp' : p.after skipped = Position.start.after (read ++ (gap ++ skipped)) := by
      rw [← List.append_assoc, hp, after_piece hseam]
    obtain ⟨more, rfl, hmore⟩ := ih h (hgap.append_piece hpiece) hseam' hp'
    refine ⟨more, rfl, ?_⟩
    simpa only [List.append_assoc] using hmore
  | case4 p before c rest cause hread => cases h

/-- **Tokens tile their text.** Where a text, without a byte-order mark in front, is read into
tokens, they stand in it in order with gaps between them, the last and only the last of them marks
the end, and each has the position counted from the text before it. -/
theorem scan_tiles {text : String} {tokens : List Token} (h : scan text = .ok tokens) :
    Tiles (dropMark text.toList) 0 tokens := by
  have hscan : scanFrom Position.start (dropMark text.toList) [] = .ok tokens := h
  have hseam : Seam ([] ++ []) (dropMark text.toList) := seam_nil _
  have hp : Position.start = Position.start.after ([] ++ []) := (Position.after_nil _).symm
  obtain ⟨more, rfl, hmore⟩ := exists_tiles_of_scanFrom hscan .nil hseam hp
  exact hmore

/-- Two tokens with a comment and a line break between them. -/
theorem scan_two_lines :
    scan "a //\r\n;" = .ok [⟨.identifier "a", "a", ⟨1, 1⟩⟩, ⟨.symbol .semicolon, ";", ⟨2, 1⟩⟩,
      ⟨.eof, "", ⟨2, 2⟩⟩] := by
  have htext : dropMark "a //\r\n;".toList = ['a', ' ', '/', '/', '\r', '\n', ';'] := by decide
  have hname : Piece.read 'a' [' ', '/', '/', '\r', '\n', ';'] =
      .token (.identifier "a") ['a'] [' ', '/', '/', '\r', '\n', ';'] := by decide
  have hcomment : Piece.read '/' ['/', '\r', '\n', ';'] = .gap ['/', '/'] ['\r', '\n', ';'] := by
    decide
  rw [scan, htext, scanFrom_of_token hname, scanFrom_of_gap (by rfl), scanFrom_of_gap hcomment,
    scanFrom_of_gap (by rfl), List.tail_cons, scanFrom_of_token (by rfl), scanFrom]
  rfl

/-- A comment to the end of a line, with a line break of two characters behind it. -/
theorem scan_tiles_two_lines :
    scan "a //\r\n;" = .ok [⟨.identifier "a", "a", ⟨1, 1⟩⟩, ⟨.symbol .semicolon, ";", ⟨2, 1⟩⟩,
      ⟨.eof, "", ⟨2, 2⟩⟩] ∧
    Tiles (dropMark "a //\r\n;".toList) 0 [⟨.identifier "a", "a", ⟨1, 1⟩⟩,
      ⟨.symbol .semicolon, ";", ⟨2, 1⟩⟩, ⟨.eof, "", ⟨2, 2⟩⟩] :=
  ⟨scan_two_lines, scan_tiles scan_two_lines⟩

end ApiSurface
