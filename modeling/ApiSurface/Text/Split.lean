/-!
# Cutting a text at a separator

The first occurrence of a separator cuts a text into what stands before and what stands behind it;
all occurrences, taken from the left without overlap, cut it into pieces.
-/

namespace ApiSurface.Text

/-- What stands behind `start`, if the text begins with it. -/
def afterStart? : (start cs : List Char) → Option (List Char)
  | [], cs => some cs
  | _ :: _, [] => none
  | c :: start, d :: cs => if c = d then afterStart? start cs else none

/-- A text begins with `start` exactly if it is `start` followed by what stands behind it. -/
theorem afterStart?_eq_some {start cs behind : List Char} :
    afterStart? start cs = some behind ↔ start ++ behind = cs := by
  induction start generalizing cs with
  | nil => simp [afterStart?, eq_comm]
  | cons c start ih =>
    cases cs with
    | nil => simp [afterStart?]
    | cons d cs =>
      by_cases hcd : c = d
      · simp [afterStart?, hcd, ih]
      · simp [afterStart?, hcd]

/-- What stands before and behind the first occurrence of `sep`. -/
def splitFirst? (sep : List Char) : List Char → Option (List Char × List Char)
  | [] => if sep = [] then some ([], []) else none
  | c :: rest =>
    match afterStart? sep (c :: rest) with
    | some behind => some ([], behind)
    | none => (splitFirst? sep rest).map fun (before, behind) => (c :: before, behind)

/-- What stands behind the first occurrence is no longer than the text without the separator. -/
theorem length_of_splitFirst? {sep cs before behind : List Char}
    (h : splitFirst? sep cs = some (before, behind)) :
    before.length + sep.length + behind.length = cs.length := by
  induction cs generalizing before behind with
  | nil =>
    simp only [splitFirst?] at h
    split at h
    · simp_all
    · simp at h
  | cons c rest ih =>
    simp only [splitFirst?] at h
    split at h
    · next hp =>
      simp only [Option.some.injEq, Prod.mk.injEq] at h
      obtain ⟨rfl, rfl⟩ := h
      simp [← afterStart?_eq_some.mp hp]
    · obtain ⟨⟨a, b⟩, hab, he⟩ := Option.map_eq_some_iff.mp h
      simp only [Prod.mk.injEq] at he
      obtain ⟨rfl, rfl⟩ := he
      have := ih hab
      simp only [List.length_cons]
      omega

/-- The pieces of a text between the occurrences of a separator that is not empty. -/
def splitAll (sep : List Char) (hsep : sep ≠ []) (cs : List Char) : List (List Char) :=
  match _h : splitFirst? sep cs with
  | none => [cs]
  | some (before, behind) => before :: splitAll sep hsep behind
termination_by cs.length
decreasing_by
  have h1 := length_of_splitFirst? _h
  have h2 := List.length_pos_iff.mpr hsep
  omega

/-- The text behind the last occurrence of `c`, or the whole text if there is none. -/
def afterLast (c : Char) (cs : List Char) : List Char :=
  (cs.reverse.takeWhile (· != c)).reverse

end ApiSurface.Text
