import ApiSurface.Text.Letter
import ApiSurface.Text.Digit
import ApiSurface.Token.Basic
import ApiSurface.Token.Numeral

/-!
# From text to tokens

`Piece.read` says what stands at the front of a text: a token, a gap (blanks, a line break, a
comment) or a fault. `scan` reads piece after piece until the text ends; the last token, and only
the last, marks the end of the input. Gaps leave no trace but in the positions of later tokens.

A piece that is not a fault is a nonempty front part of the text (`Piece.read_splits`), so the text
left to read gets shorter with every piece; that is why `scan` ends.
-/

namespace ApiSurface

open Text

/-! ## Faults -/

/-- Why a text is not a sequence of tokens. -/
inductive ScanFault where
  | unexpected (c : Char)
  | openString
  | openCharacter
  | openComment
deriving DecidableEq, Repr

/-- A fault and the position where the offending piece begins. -/
structure ScanError where
  cause : ScanFault
  position : Position
deriving DecidableEq, Repr

/-- The fault in words, with its position. -/
def ScanError.message (e : ScanError) : String :=
  let subject := match e.cause with
    | .unexpected c => "Unexpected character '" ++ String.singleton c ++ "'"
    | .openString => "Unterminated string"
    | .openCharacter => "Unterminated character literal"
    | .openComment => "Unterminated block comment"
  subject ++ " at line " ++ toString e.position.line ++ ", column " ++ toString e.position.column

/-! ## Words, quoted texts and comments -/

/-- The characters that may begin a word. -/
def isWordStart (c : Char) : Bool := isLetter c || c == '_' || c == '$'

/-- The characters that may continue a word. -/
def isWordPart (c : Char) : Bool := isLetter c || isNumber c || c == '_' || c == '$'

/-- A word is a keyword if it spells one, and an identifier otherwise. -/
def TokenKind.ofWord (word : String) : TokenKind :=
  match Keyword.ofWord? word with
  | some k => .keyword k
  | none => .identifier word

/-- Cuts the text behind an opening quote at the closing quote: the content, and what follows the
closing quote. A backslash takes the next character with it, and a line break ends the search. -/
def quoted? (quote : Char) : List Char → Option (List Char × List Char)
  | [] => none
  | '\\' :: escaped :: rest =>
    if isBreak escaped then none
    else (quoted? quote rest).map fun (content, after) => ('\\' :: escaped :: content, after)
  | c :: rest =>
    if isBreak c || c == '\\' then none
    else if c == quote then some ([], rest)
    else (quoted? quote rest).map fun (content, after) => (c :: content, after)

/-- Cuts a text behind the first end of a block comment. -/
def closeComment? : List Char → Option (List Char × List Char)
  | [] => none
  | '*' :: '/' :: rest => some (['*', '/'], rest)
  | c :: rest => (closeComment? rest).map fun (inside, after) => (c :: inside, after)

/-- The word that follows the at sign of an annotation type declaration. -/
def interfaceWord : List Char := ['i', 'n', 't', 'e', 'r', 'f', 'a', 'c', 'e']

/-- Whether the text begins with exactly the word for an annotation type declaration. -/
def startsInterface (cs : List Char) : Bool :=
  interfaceWord.isPrefixOf cs && !((cs.drop interfaceWord.length).head?.any isWordPart)

/-! ## Pieces -/

/-- What stands at the front of a text. -/
inductive Piece where
  | token (kind : TokenKind) (lexeme rest : List Char)
  | gap (skipped rest : List Char)
  | fault (cause : ScanFault)
deriving DecidableEq, Repr

namespace Piece

/-- A literal in quotes whose opening quote has been read. -/
def ofQuoted (quote : Char) (kind : String → TokenKind) (cause : ScanFault) (rest : List Char) :
    Piece :=
  match quoted? quote rest with
  | some (content, after) =>
    token (kind (String.ofList content)) (quote :: (content ++ [quote])) after
  | none => fault cause

/-- A block comment whose first two characters have been read. -/
def ofComment (rest : List Char) : Piece :=
  match closeComment? rest with
  | some (inside, after) => gap ('/' :: '*' :: inside) after
  | none => fault .openComment

/-- A ratio, or the parenthesis alone. -/
def ofParenthesis (rest : List Char) : Piece :=
  match Numeral.ratio? ('(' :: rest) with
  | some (lexeme, after) => token (.number (String.ofList lexeme)) lexeme after
  | none => token (.symbol .leftParen) ['('] rest

/-- A word that begins with `c`. -/
def ofWord (c : Char) (rest : List Char) : Piece :=
  let word := c :: rest.takeWhile isWordPart
  token (TokenKind.ofWord (String.ofList word)) word (rest.dropWhile isWordPart)

/-- A symbol or an operator of one character. -/
def ofMark (c : Char) (rest : List Char) : Piece :=
  match Symbol.ofChar? c with
  | some s => token (.symbol s) [c] rest
  | none => if isOperator c then token (.operator c) [c] rest else fault (.unexpected c)

/-- What stands at the front of the text `c :: rest`. A numeral comes before everything else, so
that a sign or a point directly before a digit belongs to the number. -/
def read (c : Char) (rest : List Char) : Piece :=
  match Numeral.read? (c :: rest) with
  | some (lexeme, after) => token (.number (String.ofList lexeme)) lexeme after
  | none =>
    if c = ' ' ∨ c = '\t' ∨ c = '\x0c' ∨ c = '\n' then gap [c] rest
    else if c = '\r' then
      if rest.head? = some '\n' then gap ['\r', '\n'] rest.tail else gap ['\r'] rest
    else if c = '/' ∧ rest.head? = some '/' then
      gap ('/' :: rest.takeWhile (!isBreak ·)) (rest.dropWhile (!isBreak ·))
    else if c = '/' ∧ rest.head? = some '*' then ofComment rest.tail
    else if c = '"' then ofQuoted '"' .string .openString rest
    else if c = '\'' then ofQuoted '\'' .character .openCharacter rest
    else if c = '(' then ofParenthesis rest
    else if c = '.' ∧ ['.', '.'].isPrefixOf rest then
      token (.symbol .ellipsis) ['.', '.', '.'] (rest.drop 2)
    else if c = '@' ∧ startsInterface rest then
      token (.symbol .atInterface) ('@' :: interfaceWord) (rest.drop interfaceWord.length)
    else if isWordStart c then ofWord c rest
    else ofMark c rest

/-- A piece that is no fault is a nonempty front part of the text, with the text behind it. -/
def Splits (cs : List Char) : Piece → Prop
  | token _ lexeme rest => lexeme ≠ [] ∧ lexeme ++ rest = cs
  | gap skipped rest => skipped ≠ [] ∧ skipped ++ rest = cs
  | fault _ => True

end Piece

/-! ## Every piece is a front part of the text -/

/-- The content, the closing quote and the rest make up the text behind the opening quote. -/
theorem append_of_quoted? {quote : Char} {cs content after : List Char}
    (h : quoted? quote cs = some (content, after)) : content ++ quote :: after = cs := by
  fun_induction quoted? quote cs generalizing content after with
  | case1 => simp at h
  | case2 => simp at h
  | case3 escaped rest _ ih =>
    obtain ⟨⟨a, b⟩, hab, he⟩ := Option.map_eq_some_iff.mp h
    simp only [Prod.mk.injEq] at he
    obtain ⟨rfl, rfl⟩ := he
    simp [ih hab]
  | case4 => simp at h
  | case5 c rest _ _ hq =>
    simp only [Option.some.injEq, Prod.mk.injEq] at h
    obtain ⟨rfl, rfl⟩ := h
    simp_all
  | case6 c rest _ _ _ ih =>
    obtain ⟨⟨a, b⟩, hab, he⟩ := Option.map_eq_some_iff.mp h
    simp only [Prod.mk.injEq] at he
    obtain ⟨rfl, rfl⟩ := he
    simp [ih hab]

/-- The inside of a block comment and the rest make up the text. -/
theorem append_of_closeComment? {cs inside after : List Char}
    (h : closeComment? cs = some (inside, after)) : inside ++ after = cs := by
  fun_induction closeComment? cs generalizing inside after with
  | case1 => simp at h
  | case2 rest =>
    simp only [Option.some.injEq, Prod.mk.injEq] at h
    obtain ⟨rfl, rfl⟩ := h
    simp
  | case3 c rest _ ih =>
    obtain ⟨⟨a, b⟩, hab, he⟩ := Option.map_eq_some_iff.mp h
    simp only [Prod.mk.injEq] at he
    obtain ⟨rfl, rfl⟩ := he
    simp [ih hab]

/-- A beginning of a text, and what is left without it, are the text. -/
theorem append_drop_of_isPrefixOf {pre cs : List Char} (h : pre.isPrefixOf cs) :
    pre ++ cs.drop pre.length = cs := by
  obtain ⟨more, rfl⟩ := List.isPrefixOf_iff_prefix.mp h
  simp

/-- The first character and the others are the text. -/
theorem cons_tail_of_head? {c : Char} {cs : List Char} (h : cs.head? = some c) :
    c :: cs.tail = cs := by
  cases cs <;> simp_all

namespace Piece

/-- The piece for a quoted text and what is left are what was there, with the quote in front. -/
theorem ofQuoted_splits (quote : Char) (kind : String → TokenKind) (cause : ScanFault)
    (rest : List Char) : (ofQuoted quote kind cause rest).Splits (quote :: rest) := by
  unfold ofQuoted
  split
  · next h => simp [Splits, append_of_quoted? h]
  · trivial

/-- The piece for a comment and what is left behind it are what was there. -/
theorem ofComment_splits (rest : List Char) : (ofComment rest).Splits ('/' :: '*' :: rest) := by
  unfold ofComment
  split
  · next h => simp [Splits, append_of_closeComment? h]
  · trivial

/-- The piece for a parenthesis, or for its ratio, and what is left are what was there. -/
theorem ofParenthesis_splits (rest : List Char) : (ofParenthesis rest).Splits ('(' :: rest) := by
  unfold ofParenthesis
  split
  · next h => exact ⟨Numeral.ne_nil_of_ratio? h, Numeral.append_of_ratio? h⟩
  · simp [Splits]

/-- The piece for a word and what is left behind it are what was there. -/
theorem ofWord_splits (c : Char) (rest : List Char) : (ofWord c rest).Splits (c :: rest) := by
  simp [ofWord, Splits]

/-- The piece for a mark of one or two characters and what is left are what was there. -/
theorem ofMark_splits (c : Char) (rest : List Char) : (ofMark c rest).Splits (c :: rest) := by
  unfold ofMark
  split
  · simp [Splits]
  · split <;> simp [Splits]

/-- A choice between two pieces splits a text if each does where it is chosen. -/
theorem splits_ite {q : Prop} [Decidable q] {a b : Piece} {cs : List Char}
    (ha : q → a.Splits cs) (hb : ¬ q → b.Splits cs) : (if q then a else b).Splits cs :=
  iteInduction (motive := Splits cs) ha hb

/-- Whatever stands at the front of a text is a nonempty front part of it, unless it is a fault. -/
theorem read_splits (c : Char) (rest : List Char) : (read c rest).Splits (c :: rest) := by
  unfold read
  rcases hnumeral : Numeral.read? (c :: rest) with _ | ⟨lexeme, after⟩
  · refine splits_ite (fun _ => by simp [Splits]) fun _ => ?_
    refine splits_ite (fun hc => ?_) fun _ => ?_
    · refine splits_ite (fun hn => ?_) fun _ => ?_
      · simp [Splits, hc, cons_tail_of_head? hn]
      · simp [Splits, hc]
    refine splits_ite (fun h => by simp [Splits, h.1]) fun _ => ?_
    refine splits_ite (fun h => ?_) fun _ => ?_
    · have hcomment := ofComment_splits rest.tail
      rwa [cons_tail_of_head? h.2, ← h.1] at hcomment
    refine splits_ite (fun h => h ▸ ofQuoted_splits _ _ _ _) fun _ => ?_
    refine splits_ite (fun h => h ▸ ofQuoted_splits _ _ _ _) fun _ => ?_
    refine splits_ite (fun h => h ▸ ofParenthesis_splits _) fun _ => ?_
    refine splits_ite (fun h => ?_) fun _ => ?_
    · simpa [Splits, h.1] using append_drop_of_isPrefixOf h.2
    refine splits_ite (fun h => ?_) fun _ => ?_
    · have hword : interfaceWord.isPrefixOf rest := by
        have hstart := h.2
        simp only [startsInterface, Bool.and_eq_true] at hstart
        exact hstart.1
      simpa [Splits, h.1] using append_drop_of_isPrefixOf hword
    exact splits_ite (fun _ => ofWord_splits _ _) fun _ => ofMark_splits _ _
  · exact ⟨Numeral.ne_nil_of_read? hnumeral, Numeral.append_of_read? hnumeral⟩

/-- Behind a token the text is shorter. -/
theorem length_lt_of_token {c : Char} {rest lexeme after : List Char} {kind : TokenKind}
    (h : read c rest = token kind lexeme after) : after.length < (c :: rest).length := by
  have hs := read_splits c rest
  rw [h] at hs
  obtain ⟨hne, happ⟩ := hs
  have := List.length_pos_iff.mpr hne
  rw [← happ, List.length_append]
  omega

/-- Behind a gap the text is shorter. -/
theorem length_lt_of_gap {c : Char} {rest skipped after : List Char}
    (h : read c rest = gap skipped after) : after.length < (c :: rest).length := by
  have hs := read_splits c rest
  rw [h] at hs
  obtain ⟨hne, happ⟩ := hs
  have := List.length_pos_iff.mpr hne
  rw [← happ, List.length_append]
  omega

end Piece

/-! ## The whole text -/

/-- Reads the pieces of a text that begins at position `p`. The tokens before it are given last
first. -/
def scanFrom (p : Position) (cs : List Char) (before : List Token) :
    Except ScanError (List Token) :=
  match cs with
  | [] => .ok (⟨.eof, "", p⟩ :: before).reverse
  | c :: rest =>
    match h : Piece.read c rest with
    | .token kind lexeme after =>
      have := Piece.length_lt_of_token h
      scanFrom (p.after lexeme) after (⟨kind, String.ofList lexeme, p⟩ :: before)
    | .gap skipped after =>
      have := Piece.length_lt_of_gap h
      scanFrom (p.after skipped) after before
    | .fault cause => .error ⟨cause, p⟩
termination_by cs.length
decreasing_by all_goals exact this

/-- The text without a byte-order mark in front. -/
def dropMark : List Char → List Char
  | '\uFEFF' :: rest => rest
  | cs => cs

/-- The tokens of a text, the last of which marks its end. -/
def scan (text : String) : Except ScanError (List Token) :=
  scanFrom Position.start (dropMark text.toList) []

end ApiSurface
