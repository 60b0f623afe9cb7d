import ApiSurface.Proofs.Token.Lookahead

/-!
# The style of line breaks does not matter

A line may end with a line feed, a carriage return, or both. `unifyBreaks` writes every line break
as a line feed, and the scan of the new text is that of the old one (`scan_unifyBreaks`): the same
tokens at the same positions, or the same fault at the same position.

The two scans go side by side, piece by piece (`Piece.read_unifyBreaks`). A line break is a piece of
its own on both sides. Any other piece but a block comment is read from its own line: it does not
depend on what follows the line (`Piece.read_append_of_lineEnd`), so it does not see how the line
ends. A block comment goes on over line breaks, and its end is found in both texts at the same place
(`closeComment?_unifyBreaks`).
-/

namespace ApiSurface

open Text

/-! ## One style of line breaks -/

/-- The text with each carriage return replaced by a line feed, together with the line feed directly
behind it if there is one. -/
def Text.unifyBreaks : List Char → List Char
  | [] => []
  | '\r' :: '\n' :: rest => '\n' :: unifyBreaks rest
  | '\r' :: rest => '\n' :: unifyBreaks rest
  | c :: rest => c :: unifyBreaks rest

/-- A carriage return alone becomes a line feed. -/
theorem unifyBreaks_return {rest : List Char} (h : rest.head? ≠ some '\n') :
    unifyBreaks ('\r' :: rest) = '\n' :: unifyBreaks rest := by
  rw [unifyBreaks]
  rintro more rfl
  exact h rfl

/-- Any other character stays. -/
theorem unifyBreaks_cons {c : Char} (hc : c ≠ '\r') (rest : List Char) :
    unifyBreaks (c :: rest) = c :: unifyBreaks rest := by
  rw [unifyBreaks]
  · intro more hreturn
    exact absurd hreturn hc
  · exact hc

/-- A character that breaks no line is no carriage return. -/
theorem ne_return_of_no_break {c : Char} (hc : isBreak c = false) : c ≠ '\r' := by
  rintro rfl
  cases hc

/-- A text without line breaks stays as it is. -/
theorem unifyBreaks_append {u : List Char} (hu : ∀ c ∈ u, isBreak c = false) (v : List Char) :
    unifyBreaks (u ++ v) = u ++ unifyBreaks v := by
  induction u with
  | nil => rfl
  | cons c u ih =>
    rw [List.forall_mem_cons] at hu
    rw [List.cons_append, unifyBreaks_cons (ne_return_of_no_break hu.1), ih hu.2, List.cons_append]

/-- A text without line breaks stays as it is. -/
theorem unifyBreaks_of_no_break {u : List Char} (hu : ∀ c ∈ u, isBreak c = false) :
    unifyBreaks u = u := by
  simpa [unifyBreaks] using unifyBreaks_append hu []

/-- The new text begins with a character other than a line break if the old one does. -/
theorem head?_unifyBreaks {c : Char} (hc : isBreak c = false) (cs : List Char) :
    (unifyBreaks cs).head? = some c ↔ cs.head? = some c := by
  have hfeed : '\n' ≠ c := by
    rintro rfl
    cases hc
  have hreturn := (ne_return_of_no_break hc).symm
  fun_cases unifyBreaks cs with
  | case1 => rfl
  | case2 rest => simp [hfeed, hreturn]
  | case3 rest _ => simp [hfeed, hreturn]
  | case4 d rest _ _ => rfl

/-- Lines and columns are counted alike. -/
theorem after_unifyBreaks (p : Position) (cs : List Char) :
    p.after (unifyBreaks cs) = p.after cs := by
  have hfeed : ∀ (p : Position) (rest : List Char),
      p.after ('\n' :: rest) = p.nextLine.after rest := fun p rest => rfl
  fun_induction unifyBreaks cs generalizing p with
  | case1 => rfl
  | case2 rest ih => rw [hfeed, ih, Position.after]
  | case3 rest hpair ih =>
    rw [hfeed, ih, Position.after]
    · rfl
    · exact fun more _ hmore => hpair more hmore
  | case4 c rest hpair hreturn ih =>
    rw [Position.after, Position.after]
    · rw [ih, ih]
    · exact fun more hc => absurd hc hreturn
    · exact fun more hc => absurd hc hreturn

/-- The mark in front may be dropped before or after. -/
theorem dropMark_unifyBreaks (cs : List Char) :
    dropMark (unifyBreaks cs) = unifyBreaks (dropMark cs) := by
  by_cases hmark : cs.head? = some '\uFEFF'
  · obtain ⟨rest, rfl⟩ := List.head?_eq_some_iff.mp hmark
    rw [unifyBreaks_cons (by decide)]
    rfl
  · have hmark' := mt (head?_unifyBreaks (by decide) cs).mp hmark
    rw [dropMark_of_head hmark, dropMark_of_head hmark']

/-! ## Pieces end with their line -/

/-- The text ends, or goes on with a line break. -/
def LineEnd (v : List Char) : Prop := ∀ c ∈ v.head?, isBreak c = true

/-- Whether a line ends here is decided by the first character. -/
theorem lineEnd_cons {c : Char} {v : List Char} : LineEnd (c :: v) ↔ isBreak c = true := by
  simp [LineEnd]

/-- The end of a line is a boundary of every class without line breaks. -/
theorem LineEnd.boundary {p : Char → Bool} {v : List Char} (hv : LineEnd v)
    (hfeed : p '\n' = false) (hreturn : p '\r' = false) : Boundary p v := by
  intro c hc
  rw [← Bool.not_eq_true]
  intro hp
  have hbreak := hv c hc
  rw [isBreak_eq_false hp hfeed hreturn] at hbreak
  cases hbreak

/-- No numeral goes on behind the end of a line. -/
theorem LineEnd.detached {v : List Char} (hv : LineEnd v) : Numeral.Detached v where
  boundary := hv.boundary rfl rfl
  slash := by
    rintro rest rfl
    cases lineEnd_cons.mp hv

/-- Where a line ends in the old text, it ends in the new one. -/
theorem LineEnd.unifyBreaks {v : List Char} (hv : LineEnd v) : LineEnd (unifyBreaks v) := by
  fun_cases Text.unifyBreaks v with
  | case1 => exact hv
  | case2 rest => exact lineEnd_cons.mpr rfl
  | case3 rest _ => exact lineEnd_cons.mpr rfl
  | case4 d rest _ _ => exact lineEnd_cons.mpr (lineEnd_cons.mp hv)

/-- A quoted text is read character by character, up to a quote or a line break. -/
theorem quoted?_cons {quote c : Char} (hc : c ≠ '\\') (rest : List Char) :
    quoted? quote (c :: rest) =
      if isBreak c then none
      else if c == quote then some ([], rest)
      else (quoted? quote rest).map fun x => (c :: x.1, x.2) := by
  rw [quoted?]
  · simp [hc]
  · exact fun escaped more hslash => absurd hslash hc

/-- No quoted text is closed behind the end of the line. -/
theorem quoted?_of_lineEnd (quote : Char) {v : List Char} (hv : LineEnd v) :
    quoted? quote v = none ∧ quoted? quote ('\\' :: v) = none := by
  cases v with
  | nil => exact ⟨rfl, rfl⟩
  | cons d v =>
    have hd := lineEnd_cons.mp hv
    have hslash : d ≠ '\\' := by
      rintro rfl
      cases hd
    exact ⟨by rw [quoted?_cons hslash, if_pos hd], by rw [quoted?, if_pos hd]⟩

/-- A quoted text does not go on behind its line. -/
theorem quoted?_append_of_lineEnd (quote : Char) {v : List Char} (hv : LineEnd v)
    (u : List Char) : quoted? quote (u ++ v) = (quoted? quote u).map fun x => (x.1, x.2 ++ v) := by
  fun_induction quoted? quote u with
  | case1 => exact (quoted?_of_lineEnd quote hv).1
  | case2 escaped rest hbreak =>
    rw [List.cons_append, List.cons_append, quoted?, if_pos hbreak]
    rfl
  | case3 escaped rest hbreak ih =>
    rw [List.cons_append, List.cons_append, quoted?, if_neg hbreak, ih, Option.map_map,
      Option.map_map]
    rfl
  | case4 c rest hpair hstop =>
    by_cases hslash : c = '\\'
    · -- A backslash at the end of the line.
      subst hslash
      cases rest with
      | nil => exact (quoted?_of_lineEnd quote hv).2
      | cons d rest => exact absurd rfl (hpair d rest rfl)
    · have hbreak : isBreak c = true := by simpa [hslash] using hstop
      rw [List.cons_append, quoted?_cons hslash, if_pos hbreak]
      rfl
  | case5 c rest hpair hplain hquote =>
    simp only [Bool.or_eq_true, beq_iff_eq, not_or] at hplain
    rw [List.cons_append, quoted?_cons hplain.2, if_neg hplain.1, if_pos hquote]
    rfl
  | case6 c rest hpair hplain hquote ih =>
    simp only [Bool.or_eq_true, beq_iff_eq, not_or] at hplain
    rw [List.cons_append, quoted?_cons hplain.2, if_neg hplain.1, if_neg hquote, ih,
      Option.map_map, Option.map_map]
    rfl

namespace Piece

/-- A quoted text is read alike with the end of its line behind it. -/
theorem ofQuoted_append_of_lineEnd (quote : Char) (kind : String → TokenKind) (cause : ScanFault)
    {v : List Char} (hv : LineEnd v) (u : List Char) :
    ofQuoted quote kind cause (u ++ v) = (ofQuoted quote kind cause u).followedBy v := by
  rw [ofQuoted, ofQuoted, quoted?_append_of_lineEnd quote hv]
  cases quoted? quote u <;> rfl

/-- A slash that opens no block comment is read from its own line. -/
theorem read_slash_append_of_lineEnd {u v : List Char} (hv : LineEnd v)
    (hstar : u.head? ≠ some '*') : read '/' (u ++ v) = (read '/' u).followedBy v := by
  by_cases hslash : u.head? = some '/'
  · obtain ⟨u, rfl⟩ := List.head?_eq_some_iff.mp hslash
    have hrun := Numeral.run_endsBefore (hv.boundary (p := (!isBreak ·)) rfl rfl) u
    simp only [Numeral.run, Prod.mk.injEq] at hrun
    rw [List.cons_append, read_lineComment, read_lineComment, hrun.1, hrun.2]
    rfl
  · -- The end of the line does not complete the opening of a comment.
    have hhead : ∀ d, isBreak d = false → ((u ++ v).head? = some d ↔ u.head? = some d) := by
      intro d hd
      refine head?_append_eq_some fun hvd => ?_
      rw [hv d hvd] at hd
      cases hd
    rw [read_division hslash hstar, read_division]
    · rfl
    · rwa [ne_eq, hhead _ rfl]
    · rwa [ne_eq, hhead _ rfl]

/-- A piece that begins in a line and is no block comment does not depend on what follows the
line. -/
theorem read_append_of_lineEnd {c : Char} {u v : List Char} (hv : LineEnd v)
    (hc : isBreak c = false) (hcomment : ¬ (c = '/' ∧ u.head? = some '*')) :
    read c (u ++ v) = (read c u).followedBy v := by
  rcases plain_cases c with hword | rfl | rfl | rfl | rfl | hplain
  · rw [read_of_isWordStart hword, read_of_isWordStart hword]
    exact ofWord_append (hv.boundary rfl rfl) c u
  · exact read_slash_append_of_lineEnd hv fun hstar => hcomment ⟨rfl, hstar⟩
  · exact read_at_append_of_boundary (hv.boundary rfl rfl) u
  · exact ofQuoted_append_of_lineEnd _ _ _ hv u
  · exact ofQuoted_append_of_lineEnd _ _ _ hv u
  · exact read_append hplain hv.detached (fun h => absurd h (ne_return_of_no_break hc)) u

end Piece

/-! ## Block comments go on over line breaks -/

/-- A comment is read character by character, up to its end mark. -/
theorem closeComment?_cons {c : Char} {rest : List Char} (h : ¬ (c = '*' ∧ rest.head? = some '/')) :
    closeComment? (c :: rest) = (closeComment? rest).map fun x => (c :: x.1, x.2) := by
  rw [closeComment?]
  rintro more hstar rfl
  exact h ⟨hstar, rfl⟩

/-- A block comment ends at the same place in both texts. -/
theorem closeComment?_unifyBreaks (cs : List Char) :
    closeComment? (unifyBreaks cs) =
      (closeComment? cs).map fun x => (unifyBreaks x.1, unifyBreaks x.2) := by
  fun_induction unifyBreaks cs with
  | case1 => rfl
  | case2 rest ih =>
    rw [closeComment?_cons (by simp), closeComment?_cons (by simp), closeComment?_cons (by simp),
      ih]
    simp only [Option.map_map]
    rfl
  | case3 rest hpair ih =>
    rw [closeComment?_cons (by simp), closeComment?_cons (by simp), ih, Option.map_map,
      Option.map_map]
    refine Option.map_congr fun x hx => ?_
    -- The comment does not go on with a line feed, as the text does not.
    have hfeed : x.1.head? ≠ some '\n' := by
      intro hhead
      obtain ⟨inside, hinside⟩ := List.head?_eq_some_iff.mp hhead
      have happend := append_of_closeComment? hx
      rw [hinside] at happend
      exact hpair _ happend.symm
    simp only [Function.comp_apply, unifyBreaks_return hfeed]
  | case4 c rest hpair hreturn ih =>
    by_cases hclose : c = '*' ∧ rest.head? = some '/'
    · obtain ⟨rfl, hslash⟩ := hclose
      obtain ⟨more, rfl⟩ := List.head?_eq_some_iff.mp hslash
      rw [unifyBreaks_cons (by decide)]
      rfl
    · have hclose' : ¬ (c = '*' ∧ (unifyBreaks rest).head? = some '/') := by
        rwa [head?_unifyBreaks rfl]
      rw [closeComment?_cons hclose, closeComment?_cons hclose', ih, Option.map_map, Option.map_map]
      refine Option.map_congr fun x _ => ?_
      simp only [Function.comp_apply, unifyBreaks_cons hreturn]

/-! ## The two scans side by side -/

namespace Piece

/-- The piece with line feeds for line breaks. -/
def unify : Piece → Piece
  | token kind lexeme rest => token kind lexeme (unifyBreaks rest)
  | gap skipped rest => gap (unifyBreaks skipped) (unifyBreaks rest)
  | fault cause => fault cause

/-- A comment with line feeds for line breaks ends in the same place. -/
theorem ofComment_unifyBreaks (rest : List Char) :
    ofComment (unifyBreaks rest) = (ofComment rest).unify := by
  rw [ofComment, ofComment, closeComment?_unifyBreaks]
  cases closeComment? rest with
  | none => rfl
  | some x =>
    show gap ('/' :: '*' :: unifyBreaks x.1) _ = gap (unifyBreaks ('/' :: '*' :: x.1)) _
    rw [unifyBreaks_cons (by decide), unifyBreaks_cons (by decide)]

/-- A piece from a line without line breaks keeps what it took. -/
theorem followedBy_unifyBreaks {cs : List Char} {a : Piece} (h : a.Splits cs)
    (hcs : ∀ c ∈ cs, isBreak c = false) (v : List Char) :
    a.followedBy (unifyBreaks v) = (a.followedBy v).unify := by
  cases a with
  | token kind lexeme rest =>
    obtain ⟨-, rfl⟩ := h
    rw [List.forall_mem_append] at hcs
    simp only [followedBy, unify, unifyBreaks_append hcs.2]
  | gap skipped rest =>
    obtain ⟨-, rfl⟩ := h
    rw [List.forall_mem_append] at hcs
    simp only [followedBy, unify, unifyBreaks_append hcs.2, unifyBreaks_of_no_break hcs.1]
  | fault cause => rfl

/-- A line feed is skipped. -/
theorem read_feed (rest : List Char) : read '\n' rest = gap ['\n'] rest := by
  have hnumeral := read?_eq_none (c := '\n') rfl rfl (by decide) rest
  simp [read, hnumeral]

/-- In the middle of a line, the same piece stands at the front of both texts. -/
theorem read_unifyBreaks_of_no_break {c : Char} (hc : isBreak c = false) (rest : List Char) :
    read c (unifyBreaks rest) = (read c rest).unify := by
  by_cases hcomment : c = '/' ∧ rest.head? = some '*'
  · obtain ⟨rfl, hstar⟩ := hcomment
    obtain ⟨rest, rfl⟩ := List.head?_eq_some_iff.mp hstar
    rw [unifyBreaks_cons (by decide), read_blockComment, read_blockComment, ofComment_unifyBreaks]
  · -- Only the rest of the line is read.
    obtain ⟨line, v, rfl, hline, hv⟩ : ∃ line v, rest = line ++ v ∧
        (∀ d ∈ line, isBreak d = false) ∧ LineEnd v := by
      refine ⟨_, _, (List.takeWhile_append_dropWhile (p := (!isBreak ·))).symm, fun d hd => ?_,
        fun d hd => ?_⟩
      · simpa using List.mem_takeWhile_imp hd
      · have hhead := List.head?_dropWhile_not (!isBreak ·) rest
        rw [Option.mem_def.mp hd] at hhead
        simpa using hhead
    have hcomment' : ¬ (c = '/' ∧ line.head? = some '*') := by
      rintro ⟨hslash, hstar⟩
      exact hcomment ⟨hslash, by rw [List.head?_append, hstar, Option.some_or]⟩
    rw [unifyBreaks_append hline, read_append_of_lineEnd hv.unifyBreaks hc hcomment',
      read_append_of_lineEnd hv hc hcomment']
    exact followedBy_unifyBreaks (read_splits c line) (List.forall_mem_cons.mpr ⟨hc, hline⟩) v

/-- The same piece stands at the front of both texts, but for the line breaks in it. -/
theorem read_unifyBreaks (c : Char) (rest : List Char) :
    ∃ d more, unifyBreaks (c :: rest) = d :: more ∧
      read d more = (read c rest).unify := by
  by_cases hreturn : c = '\r'
  · subst hreturn
    rw [read_return]
    by_cases hfeed : rest.head? = some '\n'
    · obtain ⟨rest, rfl⟩ := List.head?_eq_some_iff.mp hfeed
      exact ⟨'\n', unifyBreaks rest, rfl, by rw [read_feed, if_pos hfeed]; rfl⟩
    · exact ⟨'\n', unifyBreaks rest, unifyBreaks_return hfeed,
        by rw [read_feed, if_neg hfeed]; rfl⟩
  · refine ⟨c, unifyBreaks rest, unifyBreaks_cons hreturn rest, ?_⟩
    by_cases hfeed : c = '\n'
    · subst hfeed
      rw [read_feed, read_feed]
      rfl
    · exact read_unifyBreaks_of_no_break (by simp [isBreak, hreturn, hfeed]) rest

end Piece

/-- Scanning from any position is not changed by what the line breaks are. -/
theorem scanFrom_unifyBreaks (p : Position) (cs : List Char) (before : List Token) :
    scanFrom p (unifyBreaks cs) before = scanFrom p cs before := by
  fun_induction scanFrom p cs before with
  | case1 p before => rw [unifyBreaks, scanFrom]
  | case2 p before c rest kind lexeme after hread hlt ih =>
    obtain ⟨d, more, hmore, hread'⟩ := Piece.read_unifyBreaks c rest
    rw [hread] at hread'
    rw [hmore, scanFrom_of_token hread', ih]
  | case3 p before c rest skipped after hread hlt ih =>
    obtain ⟨d, more, hmore, hread'⟩ := Piece.read_unifyBreaks c rest
    rw [hread] at hread'
    rw [hmore, scanFrom_of_gap hread', after_unifyBreaks, ih]
  | case4 p before c rest cause hread =>
    obtain ⟨d, more, hmore, hread'⟩ := Piece.read_unifyBreaks c rest
    rw [hread] at hread'
    rw [hmore, scanFrom_of_fault hread']

/-- A text and the text with line feeds for line breaks have the same tokens at the same positions,
or the same fault at the same position. -/
theorem scan_unifyBreaks (text : String) :
    scan (String.ofList (unifyBreaks text.toList)) = scan text := by
  rw [scan, scan, String.toList_ofList, dropMark_unifyBreaks, scanFrom_unifyBreaks]

end ApiSurface
