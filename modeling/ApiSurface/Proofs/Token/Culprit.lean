import ApiSurface.Proofs.Token.Lookahead

/-!
# Faults point at what causes them

Where a text cannot be read into tokens, the scan says why and at which position. Here it is shown
that both are right (`scan_error_culprit`): the text up to that position is read without a fault,
and what begins there is of the kind that the fault names (`Culprit`): a quoted text that is not
closed on its line, a comment that is not closed at all, or a character that begins no token.

To cut the text at the fault takes away what earlier pieces may have looked at. They are read as
before all the same. What causes a fault is *detached*: no numeral or ratio goes on into it
(`Culprit.detached`). Words, quoted texts and comments that end in front of it end by themselves.
What is left is an at sign with the word `interface` behind it, which is a token of its own if no
longer word follows. Here the scan itself helps: it came to the fault, so no word was read across it
(`ReadUpTo.boundary_of_word`).
-/

namespace ApiSurface

open Text

/-! ## What a fault blames -/

/-- The number of backslashes at the end of a text. -/
def trailingBackslashes (cs : List Char) : Nat := (cs.reverse.takeWhile (· == '\\')).length

/-- What stands behind the text is escaped: an odd number of backslashes precedes it. -/
def Escapes (front : List Char) : Prop := trailingBackslashes front % 2 = 1

/-- Every quote on the line is escaped. -/
def Unclosed (quote : Char) (rest : List Char) : Prop :=
  ∀ front back, rest.takeWhile (!isBreak ·) = front ++ quote :: back → Escapes front

/-- A character that begins no token and is not passed over. -/
structure Foreign (c : Char) : Prop where
  blank : c ≠ ' ' ∧ c ≠ '\t' ∧ c ≠ '\x0c'
  lineBreak : isBreak c = false
  digit : c.isDigit = false
  word : isWordStart c = false
  quote : c ≠ '"' ∧ c ≠ '\''
  mark : Symbol.ofChar? c = none ∧ isOperator c = false

/-- What a text begins with if it has the given fault in front. -/
inductive Culprit : ScanFault → List Char → Prop
  | openString {rest : List Char} : Unclosed '"' rest → Culprit .openString ('"' :: rest)
  | openCharacter {rest : List Char} : Unclosed '\'' rest → Culprit .openCharacter ('\'' :: rest)
  | openComment {rest : List Char} : ¬ ['*', '/'] <:+: rest →
      Culprit .openComment ('/' :: '*' :: rest)
  | unexpected {c : Char} {rest : List Char} : Foreign c → Culprit (.unexpected c) (c :: rest)

/-! ### Quoted texts and comments -/

/-- The backslashes at the end go on into the text in front if there is nothing else. -/
theorem trailingBackslashes_append (pre cs : List Char) :
    trailingBackslashes (pre ++ cs) = trailingBackslashes cs +
      if trailingBackslashes cs = cs.length then trailingBackslashes pre else 0 := by
  unfold trailingBackslashes
  rw [List.reverse_append, List.takeWhile_append, List.length_reverse]
  split
  · next hall => rw [List.length_append, List.length_reverse, hall]
  · rw [Nat.add_zero]

/-- Backslashes in pairs in front do not matter. -/
theorem Escapes.append {pre front : List Char} (h : Escapes front)
    (hpre : trailingBackslashes pre % 2 = 0) : Escapes (pre ++ front) := by
  rw [Escapes, trailingBackslashes_append]
  rw [Escapes] at h
  split <;> omega

/-- Another character ends with no backslash. -/
theorem trailingBackslashes_plain {c : Char} (hc : c ≠ '\\') : trailingBackslashes [c] = 0 := by
  simp [trailingBackslashes, hc]

/-- An escape ends with no backslash that would escape what follows. -/
theorem trailingBackslashes_pair (c : Char) : trailingBackslashes ['\\', c] % 2 = 0 := by
  by_cases hc : c = '\\'
  · subst hc
    rfl
  · simp [trailingBackslashes, hc]

/-- A line ends with a break and goes on with any other character. -/
theorem takeWhile_line_cons (c : Char) (cs : List Char) :
    (c :: cs).takeWhile (!isBreak ·) =
      if isBreak c then [] else c :: cs.takeWhile (!isBreak ·) := by
  by_cases hc : isBreak c = true
  · simp [hc]
  · simp [hc]

/-- Where no closing quote is found, every quote on the line is escaped. -/
theorem unclosed_of_quoted? {quote : Char} {cs : List Char} (hslash : quote ≠ '\\')
    (h : quoted? quote cs = none) : Unclosed quote cs := by
  intro front back hline
  -- A quote is never the backslash that begins the line.
  have hfirst : ∀ {line front : List Char}, '\\' :: line = front ++ quote :: back →
      ∃ more, front = '\\' :: more ∧ line = more ++ quote :: back := by
    intro line front hl
    rcases List.cons_eq_append_iff.mp hl with ⟨-, hq⟩ | hmore
    · exact absurd (List.cons.inj hq).1 hslash
    · exact hmore
  fun_induction quoted? quote cs generalizing front with
  | case1 => simp at hline
  | case2 escaped rest hbreak =>
    rw [takeWhile_line_cons, if_neg (by decide), takeWhile_line_cons, if_pos hbreak] at hline
    obtain ⟨more, -, hmore⟩ := hfirst hline
    simp at hmore
  | case3 escaped rest hbreak ih =>
    rw [takeWhile_line_cons, if_neg (by decide), takeWhile_line_cons, if_neg hbreak] at hline
    obtain ⟨more, rfl, hmore⟩ := hfirst hline
    rcases List.cons_eq_append_iff.mp hmore with ⟨rfl, -⟩ | ⟨front, rfl, hfront⟩
    · rfl
    · have hescapes := ih (Option.map_eq_none_iff.mp h) front hfront
      exact hescapes.append (trailingBackslashes_pair escaped)
  | case4 c rest hpair hstop =>
    rw [takeWhile_line_cons] at hline
    by_cases hbreak : isBreak c = true
    · rw [if_pos hbreak] at hline
      simp at hline
    · -- A backslash at the end of the text.
      obtain rfl : c = '\\' := by simpa [hbreak] using hstop
      rw [if_neg hbreak] at hline
      obtain ⟨more, -, hmore⟩ := hfirst hline
      cases rest with
      | nil => simp at hmore
      | cons d rest => exact absurd rfl (hpair d rest rfl)
  | case5 => cases h
  | case6 c rest hpair hplain hquote ih =>
    simp only [Bool.or_eq_true, beq_iff_eq, not_or] at hplain
    rw [takeWhile_line_cons, if_neg hplain.1] at hline
    rcases List.cons_eq_append_iff.mp hline with ⟨-, hq⟩ | ⟨front, rfl, hfront⟩
    · exact absurd (beq_iff_eq.mpr (List.cons.inj hq).1.symm) hquote
    · have hescapes := ih (Option.map_eq_none_iff.mp h) front hfront
      show Escapes ([c] ++ front)
      exact hescapes.append (by rw [trailingBackslashes_plain hplain.2])

/-- Where no end of a comment is found, there is none. -/
theorem not_infix_of_closeComment? {cs : List Char} (h : closeComment? cs = none) :
    ¬ ['*', '/'] <:+: cs := by
  fun_induction closeComment? cs with
  | case1 => simp
  | case2 => cases h
  | case3 c rest hpair ih =>
    rw [List.infix_cons_iff, not_or]
    refine ⟨?_, ih (Option.map_eq_none_iff.mp h)⟩
    rintro ⟨tail, htail⟩
    obtain ⟨rfl, hrest⟩ := List.cons.inj htail
    exact hpair tail rfl hrest.symm

/-! ### Pieces -/

namespace Piece

/-- A fault names what the text begins with. -/
def Blames (cs : List Char) : Piece → Prop
  | fault cause => Culprit cause cs
  | _ => True

/-- A choice of two pieces blames rightly if both do. -/
theorem blames_ite {cs : List Char} {q : Prop} [Decidable q] {a b : Piece}
    (ha : q → a.Blames cs) (hb : ¬ q → b.Blames cs) : (if q then a else b).Blames cs :=
  iteInduction (motive := Blames cs) ha hb

/-- A quoted text is refused where every quote on the line is escaped. -/
theorem ofQuoted_blames {quote : Char} (kind : String → TokenKind) {cause : ScanFault}
    {rest : List Char} (hslash : quote ≠ '\\')
    (h : Unclosed quote rest → Culprit cause (quote :: rest)) :
    (ofQuoted quote kind cause rest).Blames (quote :: rest) := by
  unfold ofQuoted
  split
  · trivial
  · next hnone => exact h (unclosed_of_quoted? hslash hnone)

/-- A comment is refused where it has no end mark. -/
theorem ofComment_blames (rest : List Char) :
    (ofComment rest).Blames ('/' :: '*' :: rest) := by
  unfold ofComment
  split
  · trivial
  · next hnone => exact .openComment (not_infix_of_closeComment? hnone)

/-- A parenthesis is never refused. -/
theorem ofParenthesis_blames (rest cs : List Char) : (ofParenthesis rest).Blames cs := by
  unfold ofParenthesis
  split <;> trivial

/-- Where no numeral is read there is no digit. -/
theorem isDigit_of_read?_eq_none {c : Char} {rest : List Char}
    (h : Numeral.read? (c :: rest) = none) : c.isDigit = false := by
  rw [← Bool.not_eq_true]
  intro hdigit
  have hsign : Numeral.isSign c = false := by
    rw [← Bool.not_eq_true]
    intro hs
    simp only [Numeral.isSign, Bool.or_eq_true, beq_iff_eq] at hs
    rcases hs with rfl | rfl <;> exact absurd hdigit (by decide)
  have hstart : Numeral.startsMagnitude (c :: rest) = true :=
    Numeral.startsMagnitude_iff.mpr (.inl ⟨c, rest, rfl, hdigit⟩)
  simp [Numeral.read?, Numeral.single, hsign, hstart] at h

/-- A fault is caused by what stands at the front of the text. -/
theorem read_blames (c : Char) (rest : List Char) : (read c rest).Blames (c :: rest) := by
  unfold read
  rcases hnumeral : Numeral.read? (c :: rest) with _ | ⟨lexeme, after⟩
  · refine blames_ite (fun _ => trivial) fun hblank => ?_
    refine blames_ite (fun _ => blames_ite (fun _ => trivial) fun _ => trivial) fun hreturn => ?_
    refine blames_ite (fun _ => trivial) fun _ => ?_
    refine blames_ite (fun h => ?_) fun _ => ?_
    · have hcomment := ofComment_blames rest.tail
      rwa [cons_tail_of_head? h.2, ← h.1] at hcomment
    refine blames_ite (fun h => ?_) fun hstring => ?_
    · subst h
      exact ofQuoted_blames _ (by decide) .openString
    refine blames_ite (fun h => ?_) fun hcharacter => ?_
    · subst h
      exact ofQuoted_blames _ (by decide) .openCharacter
    refine blames_ite (fun _ => ofParenthesis_blames _ _) fun _ => ?_
    refine blames_ite (fun _ => trivial) fun _ => ?_
    refine blames_ite (fun _ => trivial) fun _ => ?_
    refine blames_ite (fun _ => trivial) fun hword => ?_
    unfold ofMark
    split
    · trivial
    · next hsymbol =>
      refine blames_ite (fun _ => trivial) fun hoperator => .unexpected ?_
      simp only [not_or] at hblank
      exact {
        blank := ⟨hblank.1, hblank.2.1, hblank.2.2.1⟩
        lineBreak := by simp [isBreak, hblank.2.2.2, hreturn]
        digit := isDigit_of_read?_eq_none hnumeral
        word := by simpa using hword
        quote := ⟨hstring, hcharacter⟩
        mark := ⟨hsymbol, by simpa using hoperator⟩ }
  · trivial

/-- The fault of a piece names what the text begins with. -/
theorem culprit_of_fault {c : Char} {rest : List Char} {cause : ScanFault}
    (h : read c rest = fault cause) : Culprit cause (c :: rest) := by
  have hblames := read_blames c rest
  rwa [h] at hblames

end Piece

/-! ## What causes a fault is detached -/

/-- The small hexadecimal digits begin words. -/
theorem isWordStart_of_lower {c : Char} (h : 'a' ≤ c) (h' : c ≤ 'f') : isWordStart c = true := by
  have hlow : 0x61 ≤ c.toNat := h
  have hhigh : c.toNat ≤ 0x66 := h'
  have hletter : isLetter c = true := by
    unfold isLetter letterRanges
    rw [inRanges, if_neg (by omega), if_neg (by omega)]
    exact inRanges_cons_of_mem (by omega) (by omega)
  simp [isWordStart, hletter]

/-- The large hexadecimal digits begin words. -/
theorem isWordStart_of_upper {c : Char} (h : 'A' ≤ c) (h' : c ≤ 'F') : isWordStart c = true := by
  have hlow : 0x41 ≤ c.toNat := h
  have hhigh : c.toNat ≤ 0x46 := h'
  have hletter : isLetter c = true := inRanges_cons_of_mem (by omega) (by omega)
  simp [isWordStart, hletter]

/-- The characters of numerals are digits, signs, the point, and characters of words. -/
theorem isNumeralPart_cases {c : Char} (h : Numeral.isNumeralPart c = true) :
    c.isDigit = true ∨ isWordStart c = true ∨ c = '.' ∨ c = '+' ∨ c = '-' := by
  simp only [Numeral.isNumeralPart, Numeral.isSign, Numeral.goesOn, Numeral.isGroupedHexDigit,
    Numeral.isHexDigit, Bool.or_eq_true, Bool.and_eq_true, decide_eq_true_eq, beq_iff_eq] at h
  rcases h with (rfl | rfl) | ((((((hdigit | hlower) | hupper) | rfl) | hsuffix) | rfl) | rfl) | rfl
  · exact .inr (.inr (.inr (.inl rfl)))
  · exact .inr (.inr (.inr (.inr rfl)))
  · exact .inl hdigit
  · exact .inr (.inl (isWordStart_of_lower hlower.1 hlower.2))
  · exact .inr (.inl (isWordStart_of_upper hupper.1 hupper.2))
  · exact .inr (.inl rfl)
  · have hletter : ['L', 'l', 'F', 'f', 'D', 'd'].all isWordStart = true := rfl
    have hmem := Numeral.isSuffix_iff.mp hsuffix
    exact .inr (.inl (List.all_eq_true.mp hletter c (by simpa using hmem)))
  · exact .inr (.inr (.inl rfl))
  · exact .inr (.inl rfl)
  · exact .inr (.inl rfl)

/-- A foreign character is none of a numeral. -/
theorem Foreign.isNumeralPart {c : Char} (h : Foreign c) : Numeral.isNumeralPart c = false := by
  rw [← Bool.not_eq_true]
  intro hpart
  have hmark := h.mark
  rcases isNumeralPart_cases hpart with hdigit | hword | rfl | rfl | rfl
  · rw [h.digit] at hdigit
    cases hdigit
  · rw [h.word] at hword
    cases hword
  · exact absurd hmark.1 (by decide)
  · exact absurd hmark.2 (by decide)
  · exact absurd hmark.2 (by decide)

/-- No numeral goes on into a text that is refused. -/
theorem Culprit.detached {cause : ScanFault} {v : List Char} (h : Culprit cause v) :
    Numeral.Detached v := by
  cases h with
  | openString _ => exact ⟨boundary_cons.mpr rfl, by rintro rest ⟨⟩⟩
  | openCharacter _ => exact ⟨boundary_cons.mpr rfl, by rintro rest ⟨⟩⟩
  | openComment _ =>
    refine ⟨boundary_cons.mpr rfl, fun rest hrest => .inr ?_⟩
    rw [← (List.cons.inj hrest).2]
    rfl
  | @unexpected c rest hc =>
    have hclose : c ≠ ')' := by
      rintro rfl
      exact absurd hc.mark.1 (by decide)
    refine ⟨boundary_cons.mpr ?_, fun more hmore => ?_⟩
    · simp [hc.isNumeralPart, Numeral.isGap, hc.blank.1, hc.blank.2.1, hclose]
    · obtain ⟨rfl, -⟩ := List.cons.inj hmore
      exact absurd hc.mark.2 (by decide)

/-- What causes a fault begins with a character that neither breaks the line nor goes on with the
opening of a comment. -/
theorem Culprit.exists_head {cause : ScanFault} {v : List Char} (h : Culprit cause v) :
    ∃ c rest, v = c :: rest ∧ isBreak c = false ∧ c ≠ '*' := by
  cases h with
  | openString _ => exact ⟨_, _, rfl, rfl, by decide⟩
  | openCharacter _ => exact ⟨_, _, rfl, rfl, by decide⟩
  | openComment _ => exact ⟨_, _, rfl, rfl, by decide⟩
  | @unexpected c rest hc =>
    refine ⟨c, rest, rfl, hc.lineBreak, ?_⟩
    rintro rfl
    exact absurd hc.mark.1 (by decide)

/-! ## The text in front of a fault -/

/-- Reading piece after piece, the text is used up just when `v` is left. -/
inductive ReadUpTo (v : List Char) : List Char → Prop
  | nil : ReadUpTo v []
  | token {c : Char} {u lexeme w : List Char} {kind : TokenKind} :
      Piece.read c (u ++ v) = .token kind lexeme (w ++ v) → ReadUpTo v w → ReadUpTo v (c :: u)
  | gap {c : Char} {u skipped w : List Char} :
      Piece.read c (u ++ v) = .gap skipped (w ++ v) → ReadUpTo v w → ReadUpTo v (c :: u)

/-- A word that is used up does not go on in `v`. -/
theorem ReadUpTo.boundary_of_word {v : List Char} {c : Char} {u : List Char}
    (h : ReadUpTo v (c :: u)) (hc : isWordStart c = true) (hu : ∀ d ∈ u, isWordPart d = true) :
    Boundary isWordPart v := by
  cases h with
  | @token _ _ lexeme w kind hread _ =>
    rw [Piece.read_of_isWordStart hc, Piece.ofWord] at hread
    have hrest := (Piece.token.inj hread).2.2
    rw [List.dropWhile_append_of_pos hu] at hrest
    have hnone : [] = v.takeWhile isWordPart := (run_cut (u := []) hrest).1
    cases v with
    | nil => exact boundary_nil _
    | cons d v => simpa [boundary_cons] using hnone
  | gap hread _ =>
    rw [Piece.read_of_isWordStart hc] at hread
    cases hread

/-- A piece that leaves `w ++ v` takes what stands before it. -/
theorem exists_of_piece_append {c : Char} {piece rest w v : List Char} (hne : piece ≠ [])
    (h : piece ++ (w ++ v) = c :: rest) : ∃ u, rest = u ++ v ∧ piece ++ w = c :: u := by
  obtain ⟨d, piece, rfl⟩ := List.exists_cons_of_ne_nil hne
  obtain ⟨rfl, rfl⟩ := List.cons.inj h
  exact ⟨piece ++ w, (List.append_assoc _ _ _).symm, rfl⟩

/-- A scan that fails has read the text up to the fault, and gives the position behind it. -/
theorem exists_culprit_of_scanFrom {p : Position} {cs : List Char} {before : List Token}
    {e : ScanError} (h : scanFrom p cs before = .error e) :
    ∃ u v, cs = u ++ v ∧ ReadUpTo v u ∧ Culprit e.cause v ∧ e.position = p.after u := by
  fun_induction scanFrom p cs before with
  | case1 p before => cases h
  | case2 p before c rest kind lexeme after hread _ ih =>
    obtain ⟨w, v, rfl, hw, hculprit, hposition⟩ := ih h
    obtain ⟨-, hne, happend, hseam⟩ := Piece.of_read_token hread
    obtain ⟨u, rfl, hu⟩ := exists_of_piece_append hne happend
    refine ⟨c :: u, v, rfl, .token hread hw, hculprit, ?_⟩
    rw [hposition, ← hu, Position.after_append p (seam_of_append hseam)]
  | case3 p before c rest skipped after hread _ ih =>
    obtain ⟨w, v, rfl, hw, hculprit, hposition⟩ := ih h
    obtain ⟨-, hne, happend, hseam⟩ := Piece.of_read_gap hread
    obtain ⟨u, rfl, hu⟩ := exists_of_piece_append hne happend
    refine ⟨c :: u, v, rfl, .gap hread hw, hculprit, ?_⟩
    rw [hposition, ← hu, Position.after_append p (seam_of_append hseam)]
  | case4 p before c rest cause hread =>
    cases h
    exact ⟨[], c :: rest, rfl, .nil, Piece.culprit_of_fault hread, (Position.after_nil p).symm⟩

/-! ## Cutting the text at the fault -/

namespace Piece

/-- The piece with `v` behind it, if it leaves `v` and reading comes to it, is the piece `cut`. -/
def Cuts (v : List Char) (cut : Piece) : Piece → Prop
  | token kind lexeme rest => ∀ w, rest = w ++ v → ReadUpTo v w → cut = token kind lexeme w
  | gap skipped rest => ∀ w, rest = w ++ v → cut = gap skipped w
  | fault _ => True

/-- A piece that is read alike without the text behind it is cut. -/
theorem cuts_followedBy (v : List Char) (piece : Piece) : Cuts v piece (piece.followedBy v) := by
  cases piece with
  | token kind lexeme rest =>
    intro w hw _
    rw [List.append_cancel_right hw]
  | gap skipped rest =>
    intro w hw
    rw [List.append_cancel_right hw]
  | fault cause => trivial

/-- A quoted text that ends before a text is cut there. -/
theorem ofQuoted_cuts {quote : Char} (kind : String → TokenKind) (cause : ScanFault)
    (hbreak : isBreak quote = false) (hslash : quote ≠ '\\') (u v : List Char) :
    Cuts v (ofQuoted quote kind cause u) (ofQuoted quote kind cause (u ++ v)) := by
  rcases hquoted : quoted? quote (u ++ v) with _ | ⟨content, rest⟩
  · rw [ofQuoted.eq_def quote kind cause (u ++ v), hquoted]
    trivial
  · rw [ofQuoted.eq_def quote kind cause (u ++ v), hquoted]
    rintro w rfl _
    rw [ofQuoted, quoted?_cut hbreak hslash hquoted]

/-- A comment that ends before a text is cut there. -/
theorem ofComment_cuts (u v : List Char) : Cuts v (ofComment u) (ofComment (u ++ v)) := by
  rcases hclose : closeComment? (u ++ v) with _ | ⟨inside, rest⟩
  · rw [ofComment.eq_def (u ++ v), hclose]
    trivial
  · rw [ofComment.eq_def (u ++ v), hclose]
    rintro w rfl
    rw [ofComment, closeComment?_cut hclose]

/-- A word that ends before a text is cut there. -/
theorem ofWord_cuts (c : Char) (u v : List Char) : Cuts v (ofWord c u) (ofWord c (u ++ v)) := by
  intro w hw _
  obtain ⟨htaken, hleft⟩ := run_cut hw
  rw [ofWord, htaken, hleft]

/-- A slash opens a comment with a character of `u`, or the comment runs into `v`. -/
theorem read_slash_cuts {cause : ScanFault} {v : List Char} (hv : Culprit cause v)
    (u : List Char) : Cuts v (read '/' u) (read '/' (u ++ v)) := by
  cases u with
  | nil =>
    obtain ⟨d, rest, rfl, -, hstar⟩ := hv.exists_head
    by_cases hslash : d = '/'
    · subst hslash
      rw [List.nil_append, read_lineComment]
      intro w hw
      -- The comment would take a part of `v`, of which nothing may be taken.
      have hlength := congrArg List.length hw
      have hle := (List.dropWhile_suffix (!isBreak ·) (l := rest)).length_le
      rw [List.length_append, List.length_cons] at hlength
      omega
    · rw [List.nil_append, read_division (by simp) (by simp),
        read_division (by simpa using hslash) (by simpa using hstar)]
      exact cuts_followedBy (d :: rest) (token (.operator '/') ['/'] [])
  | cons a u =>
    rw [List.cons_append]
    by_cases hslash : a = '/'
    · subst hslash
      rw [read_lineComment, read_lineComment]
      intro w hw
      obtain ⟨htaken, hleft⟩ := run_cut hw
      rw [htaken, hleft]
    by_cases hstar : a = '*'
    · subst hstar
      rw [read_blockComment, read_blockComment]
      exact ofComment_cuts u v
    · rw [read_division (by simpa using hslash) (by simpa using hstar),
        read_division (by simpa using hslash) (by simpa using hstar)]
      exact cuts_followedBy v (token (.operator '/') ['/'] (a :: u))

/-- An at sign and the word behind it are read as before, since the word was not read on into
`v`. -/
theorem read_at_cuts (u v : List Char) : Cuts v (read '@' u) (read '@' (u ++ v)) := by
  -- What follows the word decides, and that is in `u` unless the word ends it.
  have hsame : ∀ d w, startsInterface (interfaceWord ++ d :: w) =
      startsInterface (interfaceWord ++ d :: w ++ v) := by
    intro d w
    rw [List.append_assoc, startsInterface_append, startsInterface_append]
    rfl
  rw [read_at, read_at]
  by_cases hfull : startsInterface (u ++ v) = true
  · rw [if_pos hfull]
    intro w hw _
    obtain ⟨more, hmore⟩ := exists_of_startsInterface hfull
    rw [hmore, List.drop_left] at hw
    rw [hw, ← List.append_assoc] at hmore
    obtain rfl := List.append_cancel_right hmore
    have hcut : startsInterface (interfaceWord ++ w) = true := by
      cases w with
      | nil => rfl
      | cons d w => rwa [hsame]
    rw [if_pos hcut, List.drop_left]
  · rw [if_neg hfull]
    intro w hw hread
    obtain rfl := List.append_cancel_right hw
    have hcut : ¬ startsInterface u = true := by
      intro hu
      obtain ⟨more, rfl⟩ := exists_of_startsInterface hu
      cases more with
      | nil =>
        rw [List.append_nil] at hread hfull
        have hboundary : Boundary isWordPart v :=
          hread.boundary_of_word rfl fun d hd =>
            forall_isWordPart_interfaceWord d (List.mem_cons_of_mem _ hd)
        rw [startsInterface_append_of_boundary hboundary] at hfull
        exact hfull rfl
      | cons d more => exact hfull (hsame d more ▸ hu)
    rw [if_neg hcut]

/-- Pieces in front of what causes a fault are read without it in the same way. -/
theorem read_cuts {cause : ScanFault} {v : List Char} (hv : Culprit cause v) (c : Char)
    (u : List Char) : Cuts v (read c u) (read c (u ++ v)) := by
  rcases plain_cases c with hword | rfl | rfl | rfl | rfl | hplain
  · rw [read_of_isWordStart hword, read_of_isWordStart hword]
    exact ofWord_cuts c u v
  · exact read_slash_cuts hv u
  · exact read_at_cuts u v
  · exact ofQuoted_cuts _ _ rfl (by decide) u v
  · exact ofQuoted_cuts _ _ rfl (by decide) u v
  · have hfeed : v.head? ≠ some '\n' := by
      obtain ⟨d, rest, rfl, hbreak, -⟩ := hv.exists_head
      intro hd
      obtain rfl := Option.some.inj hd
      cases hbreak
    rw [read_append hplain hv.detached fun _ => hfeed]
    exact cuts_followedBy v _

end Piece

/-- The text up to what causes a fault is read without a fault, and ends where the fault is. -/
theorem ReadUpTo.exists_scanFrom {cause : ScanFault} {u v : List Char} (h : ReadUpTo v u)
    (hv : Culprit cause v) (p : Position) (before : List Token) :
    ∃ more, scanFrom p u before = .ok (before.reverse ++ more ++ [⟨.eof, "", p.after u⟩]) := by
  -- The pieces are those that are read with `v` behind them, and are read alike without it.
  induction h generalizing p before with
  | nil =>
    refine ⟨[], ?_⟩
    rw [scanFrom, List.reverse_cons, List.append_nil, Position.after_nil]
  | @token c u lexeme w kind hread hw ih =>
    have hcuts := Piece.read_cuts hv c u
    rw [hread] at hcuts
    have hcut := hcuts w rfl hw
    obtain ⟨-, -, happend, hseam⟩ := Piece.of_read_token hcut
    obtain ⟨more, hmore⟩ := ih (p.after lexeme) (⟨kind, String.ofList lexeme, p⟩ :: before)
    refine ⟨⟨kind, String.ofList lexeme, p⟩ :: more, ?_⟩
    rw [scanFrom_of_token hcut, hmore, ← happend, Position.after_append p hseam]
    simp
  | @gap c u skipped w hread hw ih =>
    have hcuts := Piece.read_cuts hv c u
    rw [hread] at hcuts
    have hcut := hcuts w rfl
    obtain ⟨-, -, happend, hseam⟩ := Piece.of_read_gap hcut
    obtain ⟨more, hmore⟩ := ih (p.after skipped) before
    refine ⟨more, ?_⟩
    rw [scanFrom_of_gap hcut, hmore, ← happend, Position.after_append p hseam]

/-- No text that is read begins with a byte-order mark. -/
theorem ReadUpTo.dropMark_eq {u v : List Char} (h : ReadUpTo v u) : dropMark u = u := by
  apply dropMark_of_head
  cases h with
  | nil => simp
  | token hread _ =>
    intro hmark
    obtain rfl := Option.some.inj hmark
    rw [Piece.read_byteOrderMark] at hread
    cases hread
  | gap hread _ =>
    intro hmark
    obtain rfl := Option.some.inj hmark
    rw [Piece.read_byteOrderMark] at hread
    cases hread

/-- **A fault points at what causes it.** Where a text, without a byte-order mark in front, cannot
be read into tokens, it is cut by some offset in two: the text before the offset is read into
tokens, the last of which marks its end at the position of the fault, and the text behind the offset
begins with what the fault names. -/
theorem scan_error_culprit {text : String} {e : ScanError} (h : scan text = .error e) :
    ∃ o ≤ (dropMark text.toList).length,
      (∃ tokens, scan (String.ofList ((dropMark text.toList).take o)) =
        .ok (tokens ++ [⟨.eof, "", e.position⟩])) ∧
      Culprit e.cause ((dropMark text.toList).drop o) := by
  obtain ⟨u, v, htext, hu, hv, hposition⟩ := exists_culprit_of_scanFrom h
  obtain ⟨tokens, htokens⟩ := hu.exists_scanFrom hv Position.start []
  refine ⟨u.length, ?_, ⟨tokens, ?_⟩, ?_⟩
  · rw [htext, List.length_append]
    exact Nat.le_add_right _ _
  · rw [htext, List.take_left, scan, String.toList_ofList, hu.dropMark_eq, htokens, hposition]
    rfl
  · rw [htext, List.drop_left]
    exact hv

/-- The numeral looks ahead for the digits of an exponent, and the second quote is escaped. -/
theorem scan_escapedQuote :
    scan "a\r\n=1e+\"\\\"" = .error ⟨.openString, ⟨2, 5⟩⟩ := by
  decide +kernel

/-- A string whose only closing quote is escaped, behind two tokens and a numeral. -/
theorem scan_error_culprit_escapedQuote :
    scan "a\r\n=1e+\"\\\"" = .error ⟨.openString, ⟨2, 5⟩⟩ ∧
    ∃ o ≤ (dropMark "a\r\n=1e+\"\\\"".toList).length,
      (∃ tokens, scan (String.ofList ((dropMark "a\r\n=1e+\"\\\"".toList).take o)) =
        .ok (tokens ++ [⟨.eof, "", ⟨2, 5⟩⟩])) ∧
      Culprit .openString ((dropMark "a\r\n=1e+\"\\\"".toList).drop o) :=
  ⟨scan_escapedQuote, scan_error_culprit scan_escapedQuote⟩

end ApiSurface
