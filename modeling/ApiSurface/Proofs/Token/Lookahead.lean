import ApiSurface.Proofs.Token.Lexeme

/-!
# How far reading looks ahead

Where a piece of a text ends may depend on what stands behind it. This module says for which texts
`v` it does not: whatever is read of `u ++ v` is read of `u` alone in the same way, with `v` left
over. For the cuts that numerals are made of this is `Cut.EndsBefore v`, and it composes as the cuts
do. It holds of a numeral if `v` does not begin with a character of numerals
(`Numeral.read?_append_of_boundary`), and of a ratio if moreover `v` does not begin like the inside
of one (`Detached`, `Numeral.ratio?_append_of_detached`), or if the parenthesis in front of it is
closed in `u` (`Numeral.ratio?_append_of_mem`).

Runs, quoted texts and block comments end where they end without any look ahead: if what is read of
`u ++ v` lies in `u`, it is read of `u` (`run_cut`, `quoted?_cut`, `closeComment?_cut`). Pieces that
begin with any other character are covered by `Piece.read_append`, except that an at sign looks for
the end of the word behind it.
-/

namespace ApiSurface

open Text

/-- A character that does not begin the text behind begins the whole if it begins the front. -/
theorem head?_append_eq_some {c : Char} {u v : List Char} (h : v.head? ≠ some c) :
    (u ++ v).head? = some c ↔ u.head? = some c := by
  cases u with
  | nil => simpa using h
  | cons d u => simp

/-- A boundary of a class does not begin with a character of it. -/
theorem head?_ne_of_boundary {p : Char → Bool} {c : Char} {v : List Char} (h : Boundary p v)
    (hc : p c = true) : v.head? ≠ some c := by
  intro hhead
  rw [h c hhead] at hc
  cases hc

namespace Numeral

/-! ## Cuts -/

/-- The cut takes the same of a text, whether `v` follows the text or not. -/
def Cut.EndsBefore (v : List Char) (f : Cut) : Prop := ∀ u, f (u ++ v) = ((f u).1, (f u).2 ++ v)

/-- A run ends before a boundary of its class. -/
theorem run_endsBefore {p : Char → Bool} {v : List Char} (hv : Boundary p v) :
    (run p).EndsBefore v := by
  intro u
  induction u with
  | nil =>
    show run p ([] ++ v) = ([], v)
    exact run_append (by simp) hv
  | cons c u ih =>
    simp only [run, Prod.mk.injEq] at ih ⊢
    by_cases hc : p c = true
    · simp [hc, ih]
    · simp [hc]

/-- A single character is not looked for behind a boundary of its class. -/
theorem single_endsBefore {p : Char → Bool} {v : List Char} (hv : Boundary p v) :
    (single p).EndsBefore v := by
  intro u
  cases u with
  | nil => exact single_append .none hv
  | cons c u =>
    rw [List.cons_append, single, single]
    split <;> rfl

/-- Two cuts, one behind the other, end before a text if both do. -/
theorem Cut.EndsBefore.andThen {v : List Char} {f g : Cut} (hf : f.EndsBefore v)
    (hg : g.EndsBefore v) : (f.andThen g).EndsBefore v := by
  intro u
  simp only [Cut.andThen, hf u, hg (f u).2]

/-- A fraction ends before a text that begins with no digit and no point. -/
theorem fraction_endsBefore {v : List Char} (hdigit : Boundary isGroupedDigit v)
    (hpoint : v.head? ≠ some '.') : fraction.EndsBefore v := by
  have hother : ∀ w : List Char, w.head? ≠ some '.' → fraction w = ([], w) := by
    intro w hw
    rw [fraction]
    rintro rest rfl
    exact hw rfl
  intro u
  cases u with
  | nil => exact hother v hpoint
  | cons c u =>
    by_cases hc : c = '.'
    · subst hc
      rw [List.cons_append, fraction, fraction, run_endsBefore hdigit u]
      simp only [head?_append_eq_some hpoint]
      split <;> rfl
    · rw [List.cons_append, hother _ (by simpa using hc), hother _ (by simpa using hc)]
      rfl

/-- An exponent ends before a text that could be no part of it. -/
theorem exponent_endsBefore {v : List Char} (hsign : Boundary isSign v)
    (hdigit : Boundary Char.isDigit v) (hletter : Boundary (fun c => c == 'e' || c == 'E') v) :
    exponent.EndsBefore v := by
  intro u
  cases u with
  | nil => exact exponent_append .none hdigit hletter
  | cons c u =>
    simp only [List.cons_append, exponent, single_endsBefore hsign u,
      run_endsBefore hdigit (single isSign u).2]
    split_ifs <;> rfl

/-! ## Numerals -/

/-- Behind a boundary of numerals every part of a numeral ends. -/
theorem decimal_endsBefore {v : List Char} (hv : Boundary isNumeralPart v) :
    decimal.EndsBefore v := by
  have hgrouped : Boundary isGroupedDigit v :=
    hv.mono fun c hc => by simp [isNumeralPart, goesOn_of_groupedDigit hc]
  have hsign : Boundary isSign v := hv.mono fun c hc => by simp [isNumeralPart, hc]
  have hdigit : Boundary Char.isDigit v := hgrouped.mono fun c hc => by simp [isGroupedDigit, hc]
  have hletter : Boundary (fun c => c == 'e' || c == 'E') v := by
    refine hv.mono fun c hc => ?_
    simp only [Bool.or_eq_true, beq_iff_eq] at hc
    rcases hc with rfl | rfl <;> rfl
  exact ((run_endsBefore hgrouped).andThen
    (fraction_endsBefore hgrouped (head?_ne_of_boundary hv rfl))).andThen
      (exponent_endsBefore hsign hdigit hletter)

/-- A magnitude ends before a text that begins with no character of numerals. -/
theorem magnitude_endsBefore {v : List Char} (hv : Boundary isNumeralPart v) :
    magnitude.EndsBefore v := by
  have hhex : Boundary isGroupedHexDigit v :=
    hv.mono fun c hc => by simp [isNumeralPart, goesOn, hc]
  intro u
  by_cases hmark : ∃ x rest, u = '0' :: x :: rest ∧ (x = 'x' ∨ x = 'X')
  · obtain ⟨x, rest, rfl, hx⟩ := hmark
    have hx' : (x == 'x' || x == 'X') = true := by simpa using hx
    simp only [List.cons_append, magnitude, hx', if_true, run_endsBefore hhex rest]
  · have hdecimal : magnitude u = decimal u := by
      rcases magnitude_cases u with ⟨x, rest, hu, hx, -⟩ | h
      · exact absurd ⟨x, rest, hu, hx⟩ hmark
      · exact h
    -- Neither the zero nor the mark of a hexadecimal number can be in `v`.
    have hdecimal' : magnitude (u ++ v) = decimal (u ++ v) := by
      rcases magnitude_cases (u ++ v) with ⟨x, rest, hu, hx, -⟩ | h
      · exfalso
        rcases u with _ | ⟨c, _ | ⟨d, u⟩⟩
        · rw [List.nil_append] at hu
          exact head?_ne_of_boundary (c := '0') hv rfl (by rw [hu]; rfl)
        · obtain ⟨-, rfl⟩ := List.cons.inj hu
          rcases hx with rfl | rfl <;> exact absurd (boundary_cons.mp hv) (by decide)
        · simp only [List.cons_append, List.cons.injEq] at hu
          exact hmark ⟨d, u, by rw [hu.1], by rwa [hu.2.1]⟩
      · exact h
    rw [hdecimal, hdecimal']
    exact decimal_endsBefore hv u

/-- Digits are characters of numerals. -/
theorem isNumeralPart_of_isDigit {c : Char} (h : c.isDigit = true) : isNumeralPart c = true := by
  have hgrouped : isGroupedDigit c = true := by simp [isGroupedDigit, h]
  simp [isNumeralPart, goesOn_of_groupedDigit hgrouped]

/-- Whether a magnitude begins here does not depend on such a text behind it. -/
theorem startsMagnitude_append_of_boundary {v : List Char} (hv : Boundary isNumeralPart v)
    (u : List Char) : startsMagnitude (u ++ v) = startsMagnitude u := by
  rw [Bool.eq_iff_iff]
  refine ⟨fun h => ?_, fun h => startsMagnitude_append h v⟩
  have hstart : ∀ {c : Char} {rest : List Char}, v = c :: rest → isNumeralPart c ≠ true := by
    rintro c rest rfl
    rw [boundary_cons.mp hv]
    exact Bool.false_ne_true
  rcases startsMagnitude_iff.mp h with ⟨c, rest, hu, hc⟩ | ⟨d, rest, hu, hd⟩
  · cases u with
    | nil => exact absurd (isNumeralPart_of_isDigit hc) (hstart hu)
    | cons a u =>
      obtain ⟨rfl, -⟩ := List.cons.inj hu
      exact startsMagnitude_iff.mpr (.inl ⟨a, u, rfl, hc⟩)
  · rcases u with _ | ⟨a, _ | ⟨b, u⟩⟩
    · exact absurd rfl (hstart hu)
    · exact absurd (isNumeralPart_of_isDigit hd) (hstart (List.cons.inj hu).2)
    · simp only [List.cons_append, List.cons.injEq] at hu
      obtain ⟨rfl, rfl, -⟩ := hu
      exact startsMagnitude_iff.mpr (.inr ⟨b, u, rfl, hd⟩)

/-- A numeral does not depend on what follows a boundary of numerals. -/
theorem read?_append_of_boundary {v : List Char} (hv : Boundary isNumeralPart v)
    (u : List Char) : read? (u ++ v) = (read? u).map fun x => (x.1, x.2 ++ v) := by
  have hsign : Boundary isSign v := hv.mono fun c hc => by simp [isNumeralPart, hc]
  have hsuffix : Boundary isSuffix v := hv.mono fun c hc => by simp [isNumeralPart, goesOn, hc]
  have hnumeral := ((single_endsBefore hsign).andThen (magnitude_endsBefore hv)).andThen
    (single_endsBefore hsuffix) u
  rw [read?, read?, single_endsBefore hsign u, startsMagnitude_append_of_boundary hv, hnumeral]
  split <;> rfl

/-! ## Ratios -/

/-- No numeral or ratio goes on into the text: it does not begin with a character from inside one,
and a slash at its front opens a comment. -/
structure Detached (v : List Char) : Prop where
  boundary : Boundary (fun c => isNumeralPart c || isGap c || c == ')') v
  slash : ∀ rest, v = '/' :: rest → rest.head? = some '/' ∨ rest.head? = some '*'

/-- A detached text begins with no character of numerals. -/
theorem Detached.numeral {v : List Char} (hv : Detached v) : Boundary isNumeralPart v :=
  hv.boundary.mono fun c hc => by simp [hc]

/-- An item of a list stands before, at or behind another. -/
theorem mem_or_eq_of_append_cons {u tail a c : List Char} {d b : Char}
    (h : u ++ d :: tail = a ++ b :: c) : d ∈ a ∨ (d = b ∧ tail = c) ∨ d ∈ c := by
  rcases List.append_eq_append_iff.mp h with ⟨t, rfl, ht⟩ | ⟨t, rfl, ht⟩
  · cases t with
    | nil => exact .inr (.inl (List.cons.inj ht))
    | cons e t =>
      obtain ⟨rfl, -⟩ := List.cons.inj ht
      exact .inl (List.mem_append_right u List.mem_cons_self)
  · cases t with
    | nil => exact .inr (.inl ⟨(List.cons.inj ht).1.symm, (List.cons.inj ht).2.symm⟩)
    | cons e t =>
      obtain ⟨-, rfl⟩ := List.cons.inj ht
      exact .inr (.inr (List.mem_append_right t List.mem_cons_self))

/-- A ratio does not begin in front of a detached text and end in it. -/
theorem IsRatio.exists_append {v : List Char} (hv : Detached v) {u n rest : List Char}
    (hn : IsRatio n) (h : '(' :: (u ++ v) = n ++ rest) : ∃ more, '(' :: u = n ++ more := by
  obtain @⟨above, below, habove, hbelow⟩ := hn
  have hinside : ∀ d ∈ v.head?, (isGap d || isNumeralPart d) ≠ true ∧ d ≠ ')' := by
    intro d hd
    have hnot := hv.boundary d hd
    simp only [Bool.or_eq_false_iff, beq_eq_false_iff_ne] at hnot
    exact ⟨by simp [hnot.1], hnot.2⟩
  rcases List.append_eq_append_iff.mp (show ('(' :: u) ++ v = _ from h) with
    ⟨tail, htail, hrest⟩ | ⟨more, hmore, -⟩
  · rcases tail with _ | ⟨d, tail⟩
    · exact ⟨[], by rw [htail, List.append_nil, List.append_nil]⟩
    · -- The first character of `v` would be one from inside a ratio.
      exfalso
      obtain ⟨hd, hclose⟩ := hinside d (by rw [hrest]; rfl)
      rcases mem_or_eq_of_append_cons (List.cons.inj htail).2.symm with hup | ⟨rfl, rfl⟩ | hlow
      · exact hd (habove.forall_mem d hup)
      · have hhead := hv.slash (below ++ ')' :: rest) (by simp [hrest])
        rcases below with _ | ⟨b, below⟩
        · simp at hhead
        · have hb := hbelow.forall_mem b List.mem_cons_self
          simp only [List.cons_append, List.head?_cons, Option.some.injEq] at hhead
          rcases hhead with rfl | rfl <;> exact absurd hb (by decide)
      · rcases List.mem_append.mp hlow with hlow | hlow
        · exact hd (hbelow.forall_mem d hlow)
        · exact hclose (List.mem_singleton.mp hlow)
  · exact ⟨more, hmore⟩

/-- A ratio does not depend on what follows if none that begins in the text goes on behind it. -/
theorem ratio?_append_of_exists {u v : List Char}
    (h : ∀ n rest, IsRatio n → '(' :: (u ++ v) = n ++ rest → ∃ more, '(' :: u = n ++ more) :
    ratio? ('(' :: (u ++ v)) = (ratio? ('(' :: u)).map fun x => (x.1, x.2 ++ v) := by
  cases hratio : ratio? ('(' :: u) with
  | some x =>
    obtain ⟨n, rest⟩ := x
    have happend : '(' :: (u ++ v) = n ++ (rest ++ v) := by
      rw [← List.append_assoc, append_of_ratio? hratio]
      rfl
    rw [happend, ratio?_append (isRatio_of_ratio? hratio)]
    rfl
  | none =>
    rw [Option.map_none, Option.eq_none_iff_forall_ne_some]
    rintro ⟨n, rest⟩ hsome
    have hn := isRatio_of_ratio? hsome
    obtain ⟨more, hmore⟩ := h n rest hn (append_of_ratio? hsome).symm
    rw [hmore, ratio?_append hn] at hratio
    cases hratio

/-- A ratio is read alike with a detached text behind it. -/
theorem ratio?_append_of_detached {v : List Char} (hv : Detached v) (u : List Char) :
    ratio? ('(' :: (u ++ v)) = (ratio? ('(' :: u)).map fun x => (x.1, x.2 ++ v) :=
  ratio?_append_of_exists fun _ _ hn h => hn.exists_append hv h

/-- A ratio is closed by the first closing parenthesis in it. -/
theorem IsRatio.exists_inside {n : List Char} (h : IsRatio n) :
    ∃ inside, n = '(' :: (inside ++ [')']) ∧ ')' ∉ inside := by
  obtain @⟨above, below, habove, hbelow⟩ := h
  refine ⟨above ++ '/' :: below, by simp, ?_⟩
  rw [List.mem_append, List.mem_cons]
  rintro (hclose | hclose | hclose)
  · exact absurd (habove.forall_mem _ hclose) (by decide)
  · exact absurd hclose (by decide)
  · exact absurd (hbelow.forall_mem _ hclose) (by decide)

/-- Where a parenthesis is closed, no ratio goes on behind it. -/
theorem IsRatio.exists_append_of_mem {u v n rest : List Char} (hn : IsRatio n) (hu : ')' ∈ u)
    (h : '(' :: (u ++ v) = n ++ rest) : ∃ more, '(' :: u = n ++ more := by
  obtain ⟨inside, rfl, hinside⟩ := hn.exists_inside
  obtain ⟨front, more, rfl, hfront⟩ := List.eq_append_cons_of_mem hu
  have hcut : front ++ ')' :: (more ++ v) = inside ++ ')' :: rest := by
    simpa using h
  have hclose : ∀ cs : List Char, Boundary (· != ')') (')' :: cs) := fun cs => boundary_cons.mpr rfl
  obtain ⟨rfl, -⟩ := append_inj_of_boundary (forall_bne hfront) (forall_bne hinside) (hclose _)
    (hclose _) hcut
  exact ⟨more, by simp⟩

/-- A ratio is read alike with any text behind its closing parenthesis. -/
theorem ratio?_append_of_mem {u : List Char} (hu : ')' ∈ u) (v : List Char) :
    ratio? ('(' :: (u ++ v)) = (ratio? ('(' :: u)).map fun x => (x.1, x.2 ++ v) :=
  ratio?_append_of_exists fun _ _ hn h => hn.exists_append_of_mem hu h

end Numeral

/-! ## Runs, quoted texts and comments -/

/-- A run of `u ++ v` that leaves all of `v` is a run of `u`. -/
theorem run_cut {p : Char → Bool} {u v w : List Char} (h : (u ++ v).dropWhile p = w ++ v) :
    u.takeWhile p = (u ++ v).takeWhile p ∧ u.dropWhile p = w := by
  have hboth := List.takeWhile_append_dropWhile (p := p) (l := u ++ v)
  have htaken : ∀ c ∈ (u ++ v).takeWhile p, p c = true := fun c hc => List.mem_takeWhile_imp hc
  have hboundary : Boundary p w := by
    intro c hc
    have hhead := List.head?_dropWhile_not p (u ++ v)
    rw [h, List.head?_append, hc, Option.some_or] at hhead
    exact hhead
  generalize (u ++ v).takeWhile p = taken at hboth htaken ⊢
  rw [h, ← List.append_assoc] at hboth
  obtain rfl := List.append_cancel_right hboth
  exact ⟨takeWhile_append_boundary htaken hboundary, dropWhile_append_boundary htaken hboundary⟩

/-- A quoted text is closed by its own characters, whatever follows. -/
theorem quoted?_cut {quote : Char} (hbreak : isBreak quote = false) (hslash : quote ≠ '\\')
    {u v content w : List Char} (h : quoted? quote (u ++ v) = some (content, w ++ v)) :
    quoted? quote u = some (content, w) := by
  have hu : u = content ++ quote :: w := by
    have happend := append_of_quoted? h
    rw [← List.cons_append, ← List.append_assoc] at happend
    exact (List.append_cancel_right happend).symm
  rw [hu]
  exact quoted?_append (isQuoted_of_quoted? h) hbreak hslash w

/-- A quoted text that is closed stays so, whatever follows. -/
theorem quoted?_append_of_some {quote : Char} (hbreak : isBreak quote = false)
    (hslash : quote ≠ '\\') {u content w : List Char} (h : quoted? quote u = some (content, w))
    (v : List Char) : quoted? quote (u ++ v) = some (content, w ++ v) := by
  rw [← append_of_quoted? h, List.append_assoc, List.cons_append]
  exact quoted?_append (isQuoted_of_quoted? h) hbreak hslash (w ++ v)

/-- A comment is closed by its own characters, whatever follows. -/
theorem closeComment?_append {cs inside after : List Char}
    (h : closeComment? cs = some (inside, after)) (rest : List Char) :
    closeComment? (inside ++ rest) = some (inside, rest) := by
  fun_induction closeComment? cs generalizing inside after with
  | case1 => cases h
  | case2 more =>
    obtain ⟨rfl, -⟩ := Prod.mk.inj (Option.some.inj h)
    rfl
  | case3 c more hpair ih =>
    obtain ⟨⟨inside', after'⟩, hmore, he⟩ := Option.map_eq_some_iff.mp h
    obtain ⟨rfl, -⟩ := Prod.mk.inj he
    rw [List.cons_append, closeComment?, ih hmore]
    · rfl
    · -- A comment that ended here would have ended here before.
      rintro x rfl hx
      obtain ⟨_ | ⟨d, text⟩, rfl, -⟩ := exists_text_of_closeComment? hmore
      · cases hx
      · obtain ⟨rfl, -⟩ := List.cons.inj hx
        exact hpair _ rfl (append_of_closeComment? hmore).symm

/-- A comment that ends before a text ends in the same place without it. -/
theorem closeComment?_cut {u v inside w : List Char}
    (h : closeComment? (u ++ v) = some (inside, w ++ v)) :
    closeComment? u = some (inside, w) := by
  have hu : u = inside ++ w := by
    have happend := append_of_closeComment? h
    rw [← List.append_assoc] at happend
    exact (List.append_cancel_right happend).symm
  rw [hu]
  exact closeComment?_append h w

/-! ## Words and marks -/

/-- Whether a text begins with a word of a class does not depend on what follows a boundary. -/
theorem isPrefixOf_append_of_boundary {p : Char → Bool} {word v : List Char}
    (hword : ∀ c ∈ word, p c = true) (hv : Boundary p v) (u : List Char) :
    word.isPrefixOf (u ++ v) = word.isPrefixOf u := by
  induction word generalizing u with
  | nil => rfl
  | cons c word ih =>
    rw [List.forall_mem_cons] at hword
    cases u with
    | nil =>
      cases v with
      | nil => rfl
      | cons d v =>
        have hne : c ≠ d := by
          rintro rfl
          exact head?_ne_of_boundary hv hword.1 rfl
        simp [List.isPrefixOf, hne]
    | cons d u => simp [List.isPrefixOf, ih hword.2]

/-- The keyword for interfaces consists of characters of words. -/
theorem forall_isWordPart_interfaceWord : ∀ c ∈ interfaceWord, isWordPart c = true :=
  List.all_eq_true.mp rfl

/-- The keyword stands here if no character of words follows it. -/
theorem startsInterface_append (w : List Char) :
    startsInterface (interfaceWord ++ w) = !w.head?.any isWordPart := by
  have hstart : interfaceWord.isPrefixOf (interfaceWord ++ w) = true :=
    List.isPrefixOf_iff_prefix.mpr (List.prefix_append _ _)
  rw [startsInterface, hstart, List.drop_left, Bool.true_and]

/-- Where the keyword stands the text begins with it. -/
theorem exists_of_startsInterface {cs : List Char} (h : startsInterface cs = true) :
    ∃ w, cs = interfaceWord ++ w := by
  rw [startsInterface, Bool.and_eq_true] at h
  exact ⟨_, (append_drop_of_isPrefixOf h.1).symm⟩

/-- Whether the keyword stands here does not depend on a text that ends a word. -/
theorem startsInterface_append_of_boundary {v : List Char} (hv : Boundary isWordPart v)
    (u : List Char) : startsInterface (u ++ v) = startsInterface u := by
  have hword := isPrefixOf_append_of_boundary forall_isWordPart_interfaceWord hv u
  by_cases hu : interfaceWord.isPrefixOf u = true
  · obtain ⟨w, rfl⟩ := List.isPrefixOf_iff_prefix.mp hu
    rw [List.append_assoc, startsInterface_append, startsInterface_append]
    cases w with
    | nil =>
      cases v with
      | nil => rfl
      | cons d v => simp [boundary_cons.mp hv]
    | cons d w => rfl
  · rw [startsInterface, startsInterface, hword]
    simp [hu]

namespace Piece

/-- The piece with more text behind it. -/
def followedBy (v : List Char) : Piece → Piece
  | token kind lexeme rest => token kind lexeme (rest ++ v)
  | gap skipped rest => gap skipped (rest ++ v)
  | fault cause => fault cause

/-- A parenthesis is read alike if the ratio that it may begin is. -/
theorem ofParenthesis_append {u v : List Char}
    (h : Numeral.ratio? ('(' :: (u ++ v)) =
      (Numeral.ratio? ('(' :: u)).map fun x => (x.1, x.2 ++ v)) :
    ofParenthesis (u ++ v) = (ofParenthesis u).followedBy v := by
  rw [ofParenthesis, ofParenthesis, h]
  cases Numeral.ratio? ('(' :: u) <;> rfl

/-- A word is read alike with a text behind it that ends words. -/
theorem ofWord_append {v : List Char} (hv : Boundary isWordPart v) (c : Char) (u : List Char) :
    ofWord c (u ++ v) = (ofWord c u).followedBy v := by
  have hrun := Numeral.run_endsBefore hv u
  simp only [Numeral.run, Prod.mk.injEq] at hrun
  rw [ofWord, ofWord, hrun.1, hrun.2]
  rfl

/-- A mark is read alike with any text behind it. -/
theorem ofMark_append (c : Char) (u v : List Char) :
    ofMark c (u ++ v) = (ofMark c u).followedBy v := by
  unfold ofMark
  split
  · rfl
  · split <;> rfl

/-! ## Pieces by their first character -/

/-- Two slashes begin a comment to the end of the line. -/
theorem read_lineComment (rest : List Char) : read '/' ('/' :: rest) =
    gap ('/' :: '/' :: rest.takeWhile (!isBreak ·)) (rest.dropWhile (!isBreak ·)) := by
  have hnumeral := read?_eq_none (c := '/') rfl rfl (by decide) ('/' :: rest)
  simp [read, hnumeral, isBreak]

/-- A slash and a star begin a comment to its end mark. -/
theorem read_blockComment (rest : List Char) : read '/' ('*' :: rest) = ofComment rest := by
  have hnumeral := read?_eq_none (c := '/') rfl rfl (by decide) ('*' :: rest)
  simp [read, hnumeral]

/-- Any other slash is an operator. -/
theorem read_division {rest : List Char} (hslash : rest.head? ≠ some '/')
    (hstar : rest.head? ≠ some '*') : read '/' rest = token (.operator '/') ['/'] rest := by
  have hnumeral := read?_eq_none (c := '/') rfl rfl (by decide) rest
  have hmark : ofMark '/' rest = token (.operator '/') ['/'] rest := rfl
  have hword : isWordStart '/' = false := by decide
  simp [read, hnumeral, hslash, hstar, hmark, hword]

/-- An at sign is read with the keyword for interfaces if that follows. -/
theorem read_at (rest : List Char) : read '@' rest =
    if startsInterface rest then
      token (.symbol .atInterface) ('@' :: interfaceWord) (rest.drop interfaceWord.length)
    else token (.symbol .atSign) ['@'] rest := by
  have hnumeral := read?_eq_none (c := '@') rfl rfl (by decide) rest
  have hmark : ofMark '@' rest = token (.symbol .atSign) ['@'] rest := rfl
  have hword : isWordStart '@' = false := by decide
  simp [read, hnumeral, hmark, hword]

/-- A carriage return is skipped with the line feed behind it. -/
theorem read_return (rest : List Char) : read '\r' rest =
    if rest.head? = some '\n' then gap ['\r', '\n'] rest.tail else gap ['\r'] rest := by
  have hnumeral := read?_eq_none (c := '\r') rfl rfl (by decide) rest
  simp [read, hnumeral]

/-- An at sign is read alike with a text behind it that ends words. -/
theorem read_at_append_of_boundary {v : List Char} (hv : Boundary isWordPart v) (u : List Char) :
    read '@' (u ++ v) = (read '@' u).followedBy v := by
  rw [read_at, read_at, startsInterface_append_of_boundary hv]
  split
  · next hstart =>
    obtain ⟨w, rfl⟩ := exists_of_startsInterface hstart
    rfl
  · rfl

/-- A character that begins no word, comment or quoted text, and is no at sign. -/
structure Plain (c : Char) : Prop where
  word : isWordStart c = false
  slash : c ≠ '/'
  atSign : c ≠ '@'
  string : c ≠ '"'
  character : c ≠ '\''

/-- A character begins a word, a comment or a quoted text, is a slash or an at sign, or is plain. -/
theorem plain_cases (c : Char) :
    isWordStart c = true ∨ c = '/' ∨ c = '@' ∨ c = '"' ∨ c = '\'' ∨ Plain c := by
  by_contra h
  simp only [not_or] at h
  obtain ⟨hword, hslash, hat, hstring, hcharacter, hplain⟩ := h
  exact hplain ⟨by simpa using hword, hslash, hat, hstring, hcharacter⟩

/-- A piece that begins with a plain character is the same whether the text goes on behind a
boundary of numerals or not, unless it is a parenthesis for which that makes a difference. -/
theorem read_append_of_boundary {c : Char} (hc : Plain c) {u v : List Char}
    (hv : Boundary Numeral.isNumeralPart v) (hbreak : c = '\r' → v.head? ≠ some '\n')
    (hparenthesis : c = '(' → ofParenthesis (u ++ v) = (ofParenthesis u).followedBy v) :
    read c (u ++ v) = (read c u).followedBy v := by
  by_cases hreturn : c = '\r'
  · subst hreturn
    simp only [read_return, head?_append_eq_some (hbreak rfl)]
    split
    · next hfeed =>
      obtain ⟨u, rfl⟩ := List.head?_eq_some_iff.mp hfeed
      rfl
    · rfl
  · -- Reading looks for a numeral, then for two points, and then at the next character only.
    have hnumeral : Numeral.read? (c :: (u ++ v)) =
        (Numeral.read? (c :: u)).map fun x => (x.1, x.2 ++ v) :=
      Numeral.read?_append_of_boundary hv (c :: u)
    have hpoints : ['.', '.'].isPrefixOf (u ++ v) = ['.', '.'].isPrefixOf u :=
      isPrefixOf_append_of_boundary (List.all_eq_true.mp rfl) hv u
    have hellipsis : ['.', '.'].isPrefixOf u = true → (u ++ v).drop 2 = u.drop 2 ++ v := by
      intro hu
      obtain ⟨more, rfl⟩ := List.isPrefixOf_iff_prefix.mp hu
      rfl
    unfold read
    rw [hnumeral]
    cases hread : Numeral.read? (c :: u) with
    | some x => rfl
    | none =>
      simp only [Option.map_none, hreturn, hc.slash, hc.atSign, hc.string, hc.character, hc.word,
        false_and, if_false, Bool.false_eq_true, hpoints, apply_ite (followedBy v),
        ← ofMark_append]
      refine if_congr Iff.rfl rfl (ite_congr rfl hparenthesis fun _ => ?_)
      split
      · next h => rw [hellipsis h.2]; rfl
      · rfl

/-- A piece that begins with a plain character is the same whether a detached text follows or
not. -/
theorem read_append {c : Char} (hc : Plain c) {v : List Char} (hv : Numeral.Detached v)
    (hbreak : c = '\r' → v.head? ≠ some '\n') (u : List Char) :
    read c (u ++ v) = (read c u).followedBy v :=
  read_append_of_boundary hc hv.numeral hbreak fun _ =>
    ofParenthesis_append (Numeral.ratio?_append_of_detached hv u)

end Piece

end ApiSurface
