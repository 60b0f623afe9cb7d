import ApiSurface.Text.Split
import ApiSurface.Text.Blank
import ApiSurface.Proofs.Text.Boundary
import Mathlib.Data.String.Basic

/-!
# Cutting a joined text, and trimming the pieces

A separator is written here as `u ++ mark :: v`, where the mark does not occur in `u`. If it occurs
in no piece of a text either, then the first separator of the text stands where its first mark
stands: the text is cut where it was joined (`splitFirst?_append`), and all pieces of a joined text
are found again (`splitAll_intercalate`).

Trimming leaves a text alone that has no blank at either end (`trimmed_of_tight`).
-/

namespace ApiSurface.Text

/-! ## Separators with a mark -/

section

variable {u v : List Char} {mark : Char} (hu : mark ∉ u)
include hu

/-- A text in which the mark comes later does not begin with the separator. -/
theorem afterStart?_eq_none {c : Char} {before rest : List Char} (h : mark ∉ c :: before) :
    afterStart? (u ++ mark :: v) (c :: (before ++ (u ++ mark :: rest))) = none := by
  rw [Option.eq_none_iff_forall_ne_some]
  intro behind hbehind
  have htext := afterStart?_eq_some.mp hbehind
  have hfirst : mark ∉ c :: before ++ u := by
    rw [List.mem_append, not_or]
    exact ⟨h, hu⟩
  have hcut : u ++ (mark :: v ++ behind) = (c :: before ++ u) ++ mark :: rest := by
    simpa using htext
  have hlength := congrArg List.length (append_inj_of_boundary (forall_bne hu) (forall_bne hfirst)
    (boundary_cons.mpr (by simp)) (boundary_cons.mpr (by simp)) hcut).1
  simp at hlength
  omega

/-- A text is cut at the separator, if the mark does not come before. -/
theorem splitFirst?_append {before behind : List Char} (h : mark ∉ before) :
    splitFirst? (u ++ mark :: v) (before ++ (u ++ mark :: v) ++ behind) =
      some (before, behind) := by
  induction before with
  | nil =>
    obtain ⟨c, cs, hcs⟩ := List.exists_cons_of_ne_nil
      (List.append_ne_nil_of_right_ne_nil u (List.cons_ne_nil mark v))
    have hstart : afterStart? (u ++ mark :: v) (c :: (cs ++ behind)) = some behind :=
      afterStart?_eq_some.mpr (by rw [hcs]; rfl)
    rw [List.nil_append, hcs, List.cons_append, ← hcs, splitFirst?, hstart]
  | cons c before ih =>
    have hrest := ih fun hmem => h (List.mem_cons_of_mem c hmem)
    have hnone : afterStart? (u ++ mark :: v) (c :: (before ++ (u ++ mark :: (v ++ behind)))) =
        none := afterStart?_eq_none hu h
    have htext : c :: before ++ (u ++ mark :: v) ++ behind =
        c :: (before ++ (u ++ mark :: (v ++ behind))) := by simp
    rw [htext, splitFirst?, hnone]
    simp only [List.append_assoc, List.cons_append] at hrest
    rw [hrest]
    rfl

omit hu in
/-- A text without the mark is not cut. -/
theorem splitFirst?_of_not_mem {cs : List Char} (h : mark ∉ cs) :
    splitFirst? (u ++ mark :: v) cs = none := by
  induction cs with
  | nil => simp [splitFirst?]
  | cons c cs ih =>
    have hnone : afterStart? (u ++ mark :: v) (c :: cs) = none := by
      rw [Option.eq_none_iff_forall_ne_some]
      intro behind hbehind
      rw [← afterStart?_eq_some.mp hbehind] at h
      exact h (by simp)
    rw [splitFirst?, hnone, ih fun hmem => h (List.mem_cons_of_mem c hmem)]
    rfl

/-- A joined text is cut into the pieces it was joined from. -/
theorem splitAll_intercalate {sep : String} (hsep : sep.toList = u ++ mark :: v)
    (hne : u ++ mark :: v ≠ []) {xs : List String} (hxs : xs ≠ [])
    (h : ∀ x ∈ xs, mark ∉ x.toList) :
    splitAll (u ++ mark :: v) hne (sep.intercalate xs).toList = xs.map String.toList := by
  induction xs with
  | nil => exact absurd rfl hxs
  | cons x xs ih =>
    obtain ⟨hx, hmore⟩ := List.forall_mem_cons.mp h
    by_cases hnil : xs = []
    · subst hnil
      rw [String.intercalate_singleton, splitAll, splitFirst?_of_not_mem hx]
      rfl
    · have hcut : splitFirst? (u ++ mark :: v)
          (x.toList ++ (u ++ mark :: v) ++ (sep.intercalate xs).toList) =
            some (x.toList, (sep.intercalate xs).toList) := splitFirst?_append hu hx
      rw [String.intercalate_cons_of_ne_nil hnil, String.toList_append, String.toList_append, hsep,
        splitAll, hcut]
      simp only [ih hnil hmore, List.map_cons]

end

/-- A character of a joined text is from one of its pieces, or from a separator between two. -/
theorem mem_intercalate {c : Char} {sep : String} {xs : List String}
    (h : c ∈ (sep.intercalate xs).toList) :
    (c ∈ sep.toList ∧ 1 < xs.length) ∨ ∃ x ∈ xs, c ∈ x.toList := by
  induction xs with
  | nil => simp at h
  | cons x xs ih =>
    by_cases hnil : xs = []
    · subst hnil
      rw [String.intercalate_singleton] at h
      exact .inr ⟨x, List.mem_cons_self, h⟩
    · rw [String.intercalate_cons_of_ne_nil hnil, String.toList_append, String.toList_append,
        List.mem_append, List.mem_append] at h
      have hlength : 1 < (x :: xs).length :=
        Nat.succ_lt_succ (List.length_pos_iff.mpr hnil)
      rcases h with (h | h) | h
      · exact .inr ⟨x, List.mem_cons_self, h⟩
      · exact .inl ⟨h, hlength⟩
      · rcases ih h with ⟨hsep, -⟩ | ⟨y, hy, hc⟩
        · exact .inl ⟨hsep, hlength⟩
        · exact .inr ⟨y, List.mem_cons_of_mem x hy, hc⟩

/-! ## Blanks at the ends -/

/-- The text has a first and a last character, and neither is a blank. -/
structure Tight (cs : List Char) : Prop where
  first : ∃ c, cs.head? = some c ∧ isBlank c = false
  last : ∃ c, cs.getLast? = some c ∧ isBlank c = false

/-- Only the ends of a text count. -/
theorem Tight.around {cs ds : List Char} (hcs : Tight cs) (hds : Tight ds) (between : List Char) :
    Tight (cs ++ (between ++ ds)) := by
  obtain ⟨c, hc, hblank⟩ := hcs.first
  obtain ⟨d, hd, hblank'⟩ := hds.last
  refine ⟨⟨c, ?_, hblank⟩, ⟨d, ?_, hblank'⟩⟩
  · rw [List.head?_append, hc, Option.some_or]
  · rw [List.getLast?_append, List.getLast?_append, hd, Option.some_or, Option.some_or]

/-- A tight text may go on with another or with nothing. -/
theorem Tight.append {cs ds : List Char} (hcs : Tight cs) (hds : ds = [] ∨ Tight ds) :
    Tight (cs ++ ds) := by
  rcases hds with rfl | hds
  · rwa [List.append_nil]
  · exact hcs.around hds []

/-- A tight text has a character. -/
theorem Tight.ne_nil {cs : List Char} (h : Tight cs) : cs ≠ [] := by
  rintro rfl
  obtain ⟨c, hc, -⟩ := h.first
  cases hc

/-- A text in which no character is a blank. -/
theorem tight_of_forall {cs : List Char} (hne : cs ≠ []) (h : ∀ c ∈ cs, isBlank c = false) :
    Tight cs := by
  refine ⟨⟨cs.head hne, List.head?_eq_some_head hne, h _ (List.head_mem hne)⟩, ?_⟩
  exact ⟨cs.getLast hne, List.getLast?_eq_some_getLast hne, h _ (List.getLast_mem hne)⟩

/-- Nothing is dropped from a text that begins with no blank. -/
theorem dropWhile_of_head {cs : List Char} {c : Char} (hc : cs.head? = some c)
    (hblank : isBlank c = false) : cs.dropWhile isBlank = cs := by
  obtain ⟨ds, rfl⟩ := List.head?_eq_some_iff.mp hc
  exact List.dropWhile_cons_of_neg (by simp [hblank])

/-- Trimming takes nothing from a tight text. -/
theorem trimmed_of_tight {cs : List Char} (h : Tight cs) : trimmed cs = cs := by
  obtain ⟨c, hc, hblank⟩ := h.first
  obtain ⟨d, hd, hblank'⟩ := h.last
  have hreverse : cs.reverse.head? = some d := by rw [List.head?_reverse, hd]
  rw [trimmed, dropWhile_of_head hc hblank, dropWhile_of_head hreverse hblank',
    List.reverse_reverse]

/-- Tight pieces are joined to a tight text, whatever the separator. -/
theorem tight_intercalate {sep : String} {xs : List String} (hne : xs ≠ [])
    (h : ∀ x ∈ xs, Tight x.toList) : Tight (sep.intercalate xs).toList := by
  induction xs with
  | nil => exact absurd rfl hne
  | cons x xs ih =>
    obtain ⟨hx, hmore⟩ := List.forall_mem_cons.mp h
    by_cases hnil : xs = []
    · subst hnil
      rwa [String.intercalate_singleton]
    · rw [String.intercalate_cons_of_ne_nil hnil, String.toList_append, String.toList_append,
        List.append_assoc]
      exact hx.around (ih hnil hmore) _

/-- Trimming tight pieces and leaving out the empty ones changes nothing. -/
theorem trimmed_pieces {xs : List String} (h : ∀ x ∈ xs, Tight x.toList) :
    (((xs.map String.toList).map trimmed).filter (!·.isEmpty)).map String.ofList = xs := by
  have htrimmed : (xs.map String.toList).map trimmed = xs.map String.toList := by
    rw [List.map_map]
    exact List.map_congr_left fun x hx => trimmed_of_tight (h x hx)
  have hkept : (xs.map String.toList).filter (!·.isEmpty) = xs.map String.toList := by
    rw [List.filter_eq_self, List.forall_mem_map]
    intro x hx
    simpa using (h x hx).ne_nil
  rw [htrimmed, hkept, List.map_map]
  exact (List.map_congr_left fun x _ => String.ofList_toList).trans (List.map_id _)

/-! ## Classes without blanks -/

/-- A number found in a table of ranges lies between the ends of one of them. -/
theorem exists_range_of_inRanges {n : Nat} {ranges : List (Nat × Nat)}
    (h : inRanges n ranges = true) : ∃ r ∈ ranges, r.1 ≤ n ∧ n ≤ r.2 := by
  induction ranges with
  | nil => cases h
  | cons r more ih =>
    obtain ⟨first, last⟩ := r
    rw [inRanges] at h
    split_ifs at h with hlow hhigh
    · exact ⟨_, List.mem_cons_self, Nat.le_of_not_lt hlow, hhigh⟩
    · obtain ⟨r, hr, hn⟩ := ih h
      exact ⟨r, List.mem_cons_of_mem _ hr, hn⟩

/-- Classes whose ranges do not meet have no character in common. -/
theorem inRanges_eq_false {n : Nat} {ranges others : List (Nat × Nat)}
    (h : inRanges n ranges = true)
    (hapart : ∀ r ∈ ranges, ∀ s ∈ others, r.2 < s.1 ∨ s.2 < r.1) : inRanges n others = false := by
  rw [← Bool.not_eq_true]
  intro hother
  obtain ⟨r, hr, hrn⟩ := exists_range_of_inRanges h
  obtain ⟨s, hs, hsn⟩ := exists_range_of_inRanges hother
  have := hapart r hr s hs
  omega

end ApiSurface.Text
