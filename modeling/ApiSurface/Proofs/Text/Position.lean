import ApiSurface.Text.Position
import Mathlib.Data.List.TakeWhile

/-!
# Lines and columns counted from the text

`Position.after` moves a position along a text. Here the position behind a text is counted from the
text itself: the line is one more than the number of its line breaks (`breaks`), the column one more
than the number of characters behind the last of them (`sinceBreak`). `after_start` says that both
are the same.

Positions compose along a split of a text, unless the split separates a carriage return from the
line feed behind it (`Seam`, `after_append`).
-/

namespace ApiSurface.Text

/-- The number of line breaks, a carriage return and the line feed behind it counted once. -/
def breaks : List Char → Nat
  | [] => 0
  | '\r' :: '\n' :: rest => breaks rest + 1
  | c :: rest => if isBreak c then breaks rest + 1 else breaks rest

/-- The number of characters behind the last line break. -/
def sinceBreak (cs : List Char) : Nat := (cs.reverse.takeWhile fun c => !isBreak c).length

/-- The position behind a text, counted from its line breaks. -/
def positionBehind (cs : List Char) : Position := ⟨1 + breaks cs, 1 + sinceBreak cs⟩

/-- A split that does not part a carriage return from a line feed. -/
def Seam (u v : List Char) : Prop := ¬ (u.getLast? = some '\r' ∧ v.head? = some '\n')

/-- Nothing is cut at the beginning of a text. -/
theorem seam_nil (v : List Char) : Seam [] v := by
  simp [Seam]

/-- A part that does not end with a carriage return can be followed by anything. -/
theorem seam_of_last {u : List Char} (h : u.getLast? ≠ some '\r') (v : List Char) : Seam u v :=
  fun hs => h hs.1

/-- Behind a character other than a carriage return no line break is cut. -/
theorem seam_concat {c : Char} (hc : c ≠ '\r') (u v : List Char) : Seam (u ++ [c]) v := by
  refine seam_of_last ?_ v
  rw [List.getLast?_concat, ne_eq, Option.some.injEq]
  exact hc

/-- Only the end of the first part counts. -/
theorem seam_append {u w v : List Char} (hw : w ≠ []) : Seam (u ++ w) v ↔ Seam w v := by
  obtain ⟨c, hc⟩ := Option.ne_none_iff_exists'.mp (mt List.getLast?_eq_none_iff.mp hw)
  rw [Seam, Seam, List.getLast?_append, hc, Option.some_or]

/-- Only the beginning of the second part counts. -/
theorem seam_of_append {u w v : List Char} (h : Seam u (w ++ v)) : Seam u w := by
  rintro ⟨hu, hhead⟩
  refine h ⟨hu, ?_⟩
  rw [List.head?_append, hhead, Option.some_or]

/-- A cut parts no line break after the first character is taken away, if it parted none before. -/
theorem seam_of_cons {c : Char} {u v : List Char} (h : Seam (c :: u) v) : Seam u v := by
  rcases u with _ | ⟨d, u⟩
  · exact seam_nil v
  · have hd : Seam ([c] ++ d :: u) v := h
    exact (seam_append (List.cons_ne_nil d u)).mp hd

/-- A line break does not begin in the first part and end in the second. -/
theorem not_pair_of_seam {u v w : List Char} (h : Seam ('\r' :: u) v)
    (hu : ∀ w, '\r' = '\r' → u = '\n' :: w → False) (hw : u ++ v = '\n' :: w) : False := by
  rcases u with _ | ⟨d, u⟩
  · rw [List.nil_append] at hw
    exact h ⟨rfl, by rw [hw]; rfl⟩
  · obtain ⟨rfl, -⟩ := List.cons.inj hw
    exact hu u rfl rfl

/-- What stands in front of the last line break does not count for the column. -/
theorem sinceBreak_cons (c : Char) (cs : List Char) :
    sinceBreak (c :: cs) =
      if cs.any isBreak then sinceBreak cs else if isBreak c then cs.length else cs.length + 1 := by
  unfold sinceBreak
  rw [List.reverse_cons, List.takeWhile_append]
  -- A character in front counts only if no line break stands behind it.
  by_cases hcs : cs.any isBreak = true
  · have hne : (cs.reverse.takeWhile fun c => !isBreak c).length ≠ cs.reverse.length := by
      intro hlen
      have hall := List.takeWhile_eq_self_iff.mp
        ((List.takeWhile_prefix _).eq_of_length hlen)
      obtain ⟨d, hd, hbreak⟩ := List.any_eq_true.mp hcs
      simpa [hbreak] using hall d (List.mem_reverse.mpr hd)
    rw [if_neg hne, if_pos hcs]
  · have hall : cs.reverse.takeWhile (fun c => !isBreak c) = cs.reverse := by
      rw [List.takeWhile_eq_self_iff]
      intro d hd
      have hnot : ¬ isBreak d = true := fun hb =>
        hcs (List.any_eq_true.mpr ⟨d, List.mem_reverse.mp hd, hb⟩)
      simpa using hnot
    rw [hall, if_pos rfl, if_neg hcs]
    by_cases hc : isBreak c = true
    · simp [hc]
    · simp [hc]

/-- A text without line breaks lies behind the last one entirely. -/
theorem sinceBreak_of_no_break {cs : List Char} (h : cs.any isBreak = false) :
    sinceBreak cs = cs.length := by
  rcases cs with _ | ⟨c, cs⟩
  · rfl
  · rw [List.any_cons, Bool.or_eq_false_iff] at h
    rw [sinceBreak_cons, if_neg (by simp [h.2]), if_neg (by simp [h.1])]
    rfl

/-- A line break in front does not count for the column. -/
theorem sinceBreak_break {c : Char} (hc : isBreak c = true) (cs : List Char) :
    sinceBreak (c :: cs) = sinceBreak cs := by
  rw [sinceBreak_cons]
  by_cases hcs : cs.any isBreak = true
  · rw [if_pos hcs]
  · rw [if_neg hcs, if_pos hc, sinceBreak_of_no_break (by simpa using hcs)]

namespace Position

/-- On a new line the column is counted from the start. -/
theorem column_nextLine (p : Position) (cs : List Char) :
    (if cs.any isBreak then 1 + sinceBreak cs else p.nextLine.column + cs.length) =
      1 + sinceBreak cs := by
  by_cases hcs : cs.any isBreak = true
  · rw [if_pos hcs]
  · rw [if_neg hcs, sinceBreak_of_no_break (by simpa using hcs)]
    rfl

/-- The position behind a text is given by its line breaks and the characters behind the last. -/
theorem after_eq (p : Position) (cs : List Char) :
    p.after cs = ⟨p.line + breaks cs,
      if cs.any isBreak then 1 + sinceBreak cs else p.column + cs.length⟩ := by
  fun_induction Position.after p cs with
  | case1 p => simp [breaks]
  | case2 p rest ih =>
    have hbreak : ('\r' :: '\n' :: rest).any isBreak = true := rfl
    rw [ih, column_nextLine, hbreak, breaks, sinceBreak_break rfl, sinceBreak_break rfl]
    simp [nextLine]
    omega
  | case3 p c rest hpair hc ih =>
    have hbreak : (c :: rest).any isBreak = true := by rw [List.any_cons, hc, Bool.true_or]
    rw [ih, column_nextLine, hbreak, breaks, if_pos hc, sinceBreak_break hc]
    · simp [nextLine]
      omega
    · exact hpair
  | case4 p c rest hpair hc ih =>
    rw [ih, breaks, if_neg hc, sinceBreak_cons]
    · by_cases hrest : rest.any isBreak = true
      · simp [hrest, nextColumn]
      · simp [hrest, hc, nextColumn]
        omega
    · exact hpair

/-- The position behind a text is the start moved over the text. -/
theorem after_start (cs : List Char) : start.after cs = positionBehind cs := by
  rw [after_eq, positionBehind]
  by_cases hcs : cs.any isBreak = true
  · rw [if_pos hcs]
    rfl
  · rw [if_neg hcs, sinceBreak_of_no_break (by simpa using hcs)]
    rfl

/-- Positions compose along a split that parts no line break. -/
theorem after_append (p : Position) {u v : List Char} (h : Seam u v) :
    p.after (u ++ v) = (p.after u).after v := by
  fun_induction Position.after p u with
  | case1 p => rfl
  | case2 p rest ih =>
    rw [List.cons_append, List.cons_append, after]
    exact ih (seam_of_cons (seam_of_cons h))
  | case3 p c rest hpair hc ih =>
    rw [List.cons_append, after, if_pos hc]
    · exact ih (seam_of_cons h)
    · rintro w rfl hw
      exact not_pair_of_seam h hpair hw
  | case4 p c rest hpair hc ih =>
    rw [List.cons_append, after, if_neg hc]
    · exact ih (seam_of_cons h)
    · rintro w rfl hw
      exact not_pair_of_seam h hpair hw

end Position

end ApiSurface.Text
