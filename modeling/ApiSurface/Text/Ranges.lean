/-!
# Character classes as ranges of code points

A class of characters is an ascending list of disjoint closed ranges. The look-up walks the list
and stops at the first range that starts above the character, so a character below the first
range is decided in one step.
-/

namespace ApiSurface.Text

/-- Whether `n` lies in one of the ascending ranges. -/
def inRanges (n : Nat) : List (Nat × Nat) → Bool
  | [] => false
  | (first, last) :: more => if n < first then false else if n ≤ last then true else inRanges n more

/-- A code point below the first range belongs to no range. -/
theorem inRanges_cons_of_lt {n first last : Nat} {more : List (Nat × Nat)} (h : n < first) :
    inRanges n ((first, last) :: more) = false := by
  simp [inRanges, h]

/-- A code point of the first range belongs to the class. -/
theorem inRanges_cons_of_mem {n first last : Nat} {more : List (Nat × Nat)} (h : first ≤ n)
    (h' : n ≤ last) : inRanges n ((first, last) :: more) = true := by
  simp [inRanges, Nat.not_lt.mpr h, h']

end ApiSurface.Text
