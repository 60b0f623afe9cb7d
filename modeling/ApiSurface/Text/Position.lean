/-!
# Positions in a text

A position is a one-based line and column. A line ends with a line feed, a carriage return, or a
carriage return directly followed by a line feed, which together end one line. Every other
character, a tab too, takes one column.
-/

namespace ApiSurface.Text

/-- A one-based line and column. -/
structure Position where
  line : Nat
  column : Nat
deriving DecidableEq, Repr

namespace Position

/-- Where a text begins. -/
def start : Position := ⟨1, 1⟩

/-- The first column of the next line. -/
def nextLine (p : Position) : Position := ⟨p.line + 1, 1⟩

/-- The next column of the same line. -/
def nextColumn (p : Position) : Position := ⟨p.line, p.column + 1⟩

end Position

/-- The characters that end a line. -/
def isBreak (c : Char) : Bool := c == '\n' || c == '\r'

namespace Position

/-- The position behind a text that begins at the given position. -/
def after (p : Position) : List Char → Position
  | [] => p
  | '\r' :: '\n' :: rest => p.nextLine.after rest
  | c :: rest => if isBreak c then p.nextLine.after rest else p.nextColumn.after rest

/-- Nothing read, the position stays. -/
@[simp] theorem after_nil (p : Position) : p.after [] = p := by
  simp [after]

/-- A text without line breaks stays on its line. -/
theorem after_of_no_break (p : Position) (cs : List Char) (h : ∀ c ∈ cs, isBreak c = false) :
    p.after cs = ⟨p.line, p.column + cs.length⟩ := by
  induction cs generalizing p with
  | nil => simp
  | cons c rest ih =>
    have hc : isBreak c = false := h c (by simp)
    have hne : ¬ c = '\r' := by rintro rfl; simp [isBreak] at hc
    have step : p.after (c :: rest) = p.nextColumn.after rest := by
      rw [after]
      · simp [hc]
      · intro _ hr; exact absurd hr hne
    rw [step, ih _ fun d hd => h d (by simp [hd])]
    simp [nextColumn]
    omega

end Position

end ApiSurface.Text
