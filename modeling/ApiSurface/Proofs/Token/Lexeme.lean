import ApiSurface.Proofs.Token.Numeral
import ApiSurface.Proofs.Token.Tiling
import Mathlib.Data.List.Basic

/-!
# Reading the lexemes of a text again

What a token is may depend on the text behind it: a sign belongs to the digits that follow it, two
points in a row end a numeral before them, a parenthesis opens a ratio if one follows, and a slash a
comment. None of this is left in the token. `Lexeme kind cs` says which characters a token of a kind
can be read from, without regard to what follows them. Every token that is read has such a lexeme
(`lexeme_of_read`), and a lexeme with a line feed behind it, or nothing, is read as the same token
again (`read_lexeme`).

So a text may be replaced by the lexemes of its tokens, each on a line of its own: the tokens are
the same, and each stands at the start of its line (`scan_lexemeLines`).
-/

namespace ApiSurface

open Text

/-! ## Quoted texts -/

/-- What may stand between two quotes: no line break, and the quote and a backslash only behind a
backslash. -/
inductive IsQuoted (quote : Char) : List Char → Prop
  | nil : IsQuoted quote []
  | escaped {c : Char} {cs : List Char} : isBreak c = false → IsQuoted quote cs →
      IsQuoted quote ('\\' :: c :: cs)
  | plain {c : Char} {cs : List Char} : isBreak c = false → c ≠ '\\' → c ≠ quote →
      IsQuoted quote cs → IsQuoted quote (c :: cs)

/-- What is read up to the closing quote is quoted content. -/
theorem isQuoted_of_quoted? {quote : Char} {cs content after : List Char}
    (h : quoted? quote cs = some (content, after)) : IsQuoted quote content := by
  fun_induction quoted? quote cs generalizing content after with
  | case1 => cases h
  | case2 => cases h
  | case3 c rest hbreak ih =>
    obtain ⟨⟨more, after'⟩, hmore, he⟩ := Option.map_eq_some_iff.mp h
    obtain ⟨rfl, -⟩ := Prod.mk.inj he
    exact .escaped (by simpa using hbreak) (ih hmore)
  | case4 => cases h
  | case5 c rest _ _ _ =>
    obtain ⟨rfl, -⟩ := Prod.mk.inj (Option.some.inj h)
    exact .nil
  | case6 c rest _ hplain hquote ih =>
    obtain ⟨⟨more, after'⟩, hmore, he⟩ := Option.map_eq_some_iff.mp h
    obtain ⟨rfl, -⟩ := Prod.mk.inj he
    simp only [Bool.or_eq_true, beq_iff_eq, not_or, Bool.not_eq_true] at hplain
    exact .plain hplain.1 hplain.2 (by simpa using hquote) (ih hmore)

/-- Quoted content is read up to the quote behind it. -/
theorem quoted?_append {quote : Char} {cs : List Char} (h : IsQuoted quote cs)
    (hbreak : isBreak quote = false) (hslash : quote ≠ '\\') (rest : List Char) :
    quoted? quote (cs ++ quote :: rest) = some (cs, rest) := by
  induction h with
  | nil =>
    rw [List.nil_append, quoted?]
    · simp [hbreak, hslash]
    · intro c more he
      exact absurd he hslash
  | @escaped c cs hc _ ih =>
    simp only [List.cons_append, quoted?, hc, Bool.false_eq_true, if_false, ih, Option.map_some]
  | @plain c cs hc hne hquote _ ih =>
    rw [List.cons_append, quoted?]
    · simp [hc, hne, hquote, ih]
    · intro d more he
      exact absurd he hne

/-- Quoted content stands on one line. -/
theorem IsQuoted.no_break {quote : Char} {cs : List Char} (h : IsQuoted quote cs) :
    ∀ c ∈ cs, isBreak c = false := by
  induction h with
  | nil => simp
  | escaped hc _ ih =>
    intro d hd
    simp only [List.mem_cons] at hd
    rcases hd with rfl | rfl | hd
    · rfl
    · exact hc
    · exact ih d hd
  | plain hc _ _ _ ih =>
    intro d hd
    rcases List.mem_cons.mp hd with rfl | hd
    · exact hc
    · exact ih d hd

/-! ## Lexemes -/

/-- The characters from which a token of the given kind can be read. -/
inductive Lexeme : TokenKind → List Char → Prop
  | numeral {n : List Char} : Numeral.IsNumeral n → Lexeme (.number (String.ofList n)) n
  | ratio {n : List Char} : Numeral.IsRatio n → Lexeme (.number (String.ofList n)) n
  | string {content : List Char} : IsQuoted '"' content →
      Lexeme (.string (String.ofList content)) ('"' :: (content ++ ['"']))
  | character {content : List Char} : IsQuoted '\'' content →
      Lexeme (.character (String.ofList content)) ('\'' :: (content ++ ['\'']))
  | word {c : Char} {cs : List Char} : isWordStart c = true → (∀ d ∈ cs, isWordPart d = true) →
      Lexeme (TokenKind.ofWord (String.ofList (c :: cs))) (c :: cs)
  | ellipsis : Lexeme (.symbol .ellipsis) ['.', '.', '.']
  | atInterface : Lexeme (.symbol .atInterface) ('@' :: interfaceWord)
  | symbol {c : Char} {s : Symbol} : Symbol.ofChar? c = some s → Lexeme (.symbol s) [c]
  | operator {c : Char} : isOperator c = true → Lexeme (.operator c) [c]

/-- How a token of the kind is written. -/
def TokenKind.spelling : TokenKind → List Char
  | .identifier name => name.toList
  | .string content => '"' :: (content.toList ++ ['"'])
  | .character content => '\'' :: (content.toList ++ ['\''])
  | .number spelling => spelling.toList
  | .keyword k => k.word.toList
  | .symbol s => s.text.toList
  | .operator c => [c]
  | .eof => []

/-- A word is spelled as it is written, a keyword too. -/
theorem TokenKind.spelling_ofWord (word : String) :
    (TokenKind.ofWord word).spelling = word.toList := by
  unfold TokenKind.ofWord
  rcases hk : Keyword.ofWord? word with _ | k
  · rfl
  · show k.word.toList = word.toList
    rw [Keyword.word_of_ofWord? hk]

/-- A kind has one lexeme at most. -/
theorem Lexeme.eq_spelling {kind : TokenKind} {cs : List Char} (h : Lexeme kind cs) :
    cs = kind.spelling := by
  cases h with
  | numeral _ => exact String.toList_ofList.symm
  | ratio _ => exact String.toList_ofList.symm
  | string _ => rw [TokenKind.spelling, String.toList_ofList]
  | character _ => rw [TokenKind.spelling, String.toList_ofList]
  | word _ _ => rw [TokenKind.spelling_ofWord, String.toList_ofList]
  | ellipsis => rfl
  | atInterface => rfl
  | symbol hs =>
    unfold Symbol.ofChar? at hs
    split at hs <;> cases hs <;> rfl
  | operator _ => rfl

/-- An identifier is spelled as its name, which is a word and no keyword. -/
theorem Lexeme.of_identifier {x : String} {cs : List Char} (h : Lexeme (.identifier x) cs) :
    cs = x.toList ∧ Keyword.ofWord? x = none ∧
      ∃ c ds, cs = c :: ds ∧ isWordStart c = true ∧ ∀ d ∈ ds, isWordPart d = true := by
  have hspelling := h.eq_spelling
  generalize hkind : TokenKind.identifier x = kind at h
  cases h with
  | @word c ds hc hds =>
    refine ⟨hspelling, ?_, c, ds, rfl, hc, hds⟩
    unfold TokenKind.ofWord at hkind
    split at hkind
    · cases hkind
    · next hnone =>
      cases hkind
      exact hnone
  | _ => cases hkind

namespace Piece

/-- A token has a lexeme of its kind. -/
def Spells : Piece → Prop
  | token kind lexeme _ => Lexeme kind lexeme
  | _ => True

/-- A choice of two pieces spells if both do. -/
theorem spells_ite {q : Prop} [Decidable q] {a b : Piece} (ha : q → a.Spells)
    (hb : ¬ q → b.Spells) : (if q then a else b).Spells :=
  iteInduction (motive := Spells) ha hb

/-- A quoted text is a lexeme of its kind. -/
theorem ofQuoted_spells {quote : Char} {kind : String → TokenKind} (cause : ScanFault)
    (rest : List Char) (h : ∀ content, IsQuoted quote content →
      Lexeme (kind (String.ofList content)) (quote :: (content ++ [quote]))) :
    (ofQuoted quote kind cause rest).Spells := by
  unfold ofQuoted
  split
  · next hquoted => exact h _ (isQuoted_of_quoted? hquoted)
  · trivial

/-- A comment is no token. -/
theorem ofComment_spells (rest : List Char) : (ofComment rest).Spells := by
  unfold ofComment
  split <;> trivial

/-- A parenthesis, or the ratio that it begins, is a lexeme of its kind. -/
theorem ofParenthesis_spells (rest : List Char) : (ofParenthesis rest).Spells := by
  unfold ofParenthesis
  split
  · next hratio => exact .ratio (Numeral.isRatio_of_ratio? hratio)
  · exact .symbol rfl

/-- A mark is a lexeme of its kind. -/
theorem ofMark_spells (c : Char) (rest : List Char) : (ofMark c rest).Spells := by
  unfold ofMark
  split
  · next hsymbol => exact .symbol hsymbol
  · exact spells_ite (fun h => .operator h) fun _ => trivial

/-- Every token that is read has a lexeme of its kind. -/
theorem read_spells (c : Char) (rest : List Char) : (read c rest).Spells := by
  unfold read
  rcases hnumeral : Numeral.read? (c :: rest) with _ | ⟨lexeme, after⟩
  · refine spells_ite (fun _ => trivial) fun _ => ?_
    refine spells_ite (fun _ => spells_ite (fun _ => trivial) fun _ => trivial) fun _ => ?_
    refine spells_ite (fun _ => trivial) fun _ => ?_
    refine spells_ite (fun _ => ofComment_spells _) fun _ => ?_
    refine spells_ite (fun _ => ofQuoted_spells _ rest fun _ h => .string h) fun _ => ?_
    refine spells_ite (fun _ => ofQuoted_spells _ rest fun _ h => .character h) fun _ => ?_
    refine spells_ite (fun _ => ofParenthesis_spells rest) fun _ => ?_
    refine spells_ite (fun _ => Lexeme.ellipsis) fun _ => ?_
    refine spells_ite (fun _ => Lexeme.atInterface) fun _ => ?_
    refine spells_ite (fun h => ?_) fun _ => ofMark_spells c rest
    exact .word h fun d hd => List.mem_takeWhile_imp hd
  · exact .numeral (Numeral.isNumeral_of_read? hnumeral)

/-- A token that is read has a lexeme of its kind. -/
theorem lexeme_of_read {c : Char} {rest lexeme after : List Char} {kind : TokenKind}
    (h : read c rest = token kind lexeme after) : Lexeme kind lexeme := by
  have hspells := read_spells c rest
  rw [h] at hspells
  exact hspells

/-! ## Lexemes are read again -/

/-- No digit begins a word. -/
theorem isWordStart_of_isDigit {c : Char} (h : c.isDigit = true) : isWordStart c = false := by
  have hbelow : c.toNat < 0x41 := by
    simp only [Char.isDigit, Bool.and_eq_true, decide_eq_true_eq] at h
    have hle : c.toNat ≤ 57 := h.2
    omega
  have hletter : isLetter c = false := inRanges_cons_of_lt hbelow
  have hmark : c ≠ '_' := by
    rintro rfl
    exact absurd h (by decide)
  have hsign : c ≠ '$' := by
    rintro rfl
    exact absurd h (by decide)
  simp [isWordStart, hletter, hmark, hsign]

/-- No numeral begins with a character that is no digit, sign or point. -/
theorem read?_eq_none {c : Char} (hdigit : c.isDigit = false) (hsign : Numeral.isSign c = false)
    (hpoint : c ≠ '.') (rest : List Char) : Numeral.read? (c :: rest) = none := by
  have hstart : ¬ Numeral.startsMagnitude (c :: rest) = true := by
    rw [Numeral.startsMagnitude_iff]
    rintro (⟨d, more, he, hd⟩ | ⟨d, more, he, -⟩)
    · rw [← (List.cons.inj he).1, hdigit] at hd
      cases hd
    · exact hpoint (List.cons.inj he).1
  simp [Numeral.read?, Numeral.single, hsign, hstart]

/-- A byte-order mark begins no piece. -/
theorem read_byteOrderMark (rest : List Char) :
    read '\uFEFF' rest = fault (.unexpected '\uFEFF') := by
  have hnumeral := read?_eq_none (c := '\uFEFF') rfl rfl (by decide) rest
  have hword : isWordStart '\uFEFF' = false := by decide +kernel
  simp [read, hnumeral, hword, ofMark, Symbol.ofChar?, isOperator]

/-- A word is read where a character begins one. -/
theorem read_of_isWordStart {c : Char} (h : isWordStart c = true) (rest : List Char) :
    read c rest = ofWord c rest := by
  have hnot : [' ', '\t', '\x0c', '\n', '\r', '/', '"', '\'', '(', '.', '@', '+', '-'].any
      isWordStart = false := by decide
  have hne : ∀ d ∈ [' ', '\t', '\x0c', '\n', '\r', '/', '"', '\'', '(', '.', '@', '+', '-'],
      c ≠ d := by
    intro d hd he
    rw [he] at h
    exact List.any_eq_false.mp hnot d hd h
  simp only [List.forall_mem_cons] at hne
  obtain ⟨h1, h2, h3, h4, h5, h6, h7, h8, h9, h10, h11, h12, h13, -⟩ := hne
  have hdigit : c.isDigit = false := by
    rw [← Bool.not_eq_true]
    intro hdigit
    rw [isWordStart_of_isDigit hdigit] at h
    cases h
  have hnumeral := read?_eq_none hdigit (by simp [Numeral.isSign, h12, h13]) h10 rest
  simp [read, hnumeral, h, h1, h2, h3, h4, h5, h6, h7, h8, h9, h10, h11]

/-- A numeral is read whole where the next character cannot go on with it. -/
theorem read_numeral {c : Char} {cs rest : List Char} (h : Numeral.IsNumeral (c :: cs))
    (hrest : Boundary Numeral.goesOn rest) :
    read c (cs ++ rest) = token (.number (String.ofList (c :: cs))) (c :: cs) rest := by
  have hread : Numeral.read? (c :: (cs ++ rest)) = some (c :: cs, rest) :=
    Numeral.read?_append h hrest
  simp only [read, hread]

/-- A ratio is read whole wherever it stands. -/
theorem read_ratio {cs : List Char} (h : Numeral.IsRatio ('(' :: cs)) (rest : List Char) :
    read '(' (cs ++ rest) = token (.number (String.ofList ('(' :: cs))) ('(' :: cs) rest := by
  have hread : Numeral.ratio? ('(' :: (cs ++ rest)) = some ('(' :: cs, rest) :=
    Numeral.ratio?_append h rest
  show ofParenthesis _ = _
  simp only [ofParenthesis, hread]

/-- A parenthesis that begins no ratio is read alone. -/
theorem read_leftParen {rest : List Char} (h : Numeral.ratio? ('(' :: rest) = none) :
    read '(' rest = token (.symbol .leftParen) ['('] rest := by
  show ofParenthesis rest = _
  rw [ofParenthesis, h]

/-- A lexeme with a line feed behind it, or the end of the text, is read as the token it was read
as. -/
theorem read_lexeme {kind : TokenKind} {c : Char} {cs : List Char} (h : Lexeme kind (c :: cs))
    {rest : List Char} (hrest : ∀ d ∈ rest.head?, d = '\n') :
    read c (cs ++ rest) = token kind (c :: cs) rest := by
  have hend : ∀ p : Char → Bool, p '\n' = false → Boundary p rest := by
    intro p hp d hd
    rw [hrest d hd, hp]
  -- Marks of one character look at the character behind them.
  have hcases : rest = [] ∨ ∃ more, rest = '\n' :: more := by
    rcases rest with _ | ⟨d, more⟩
    · exact .inl rfl
    · exact .inr ⟨more, by rw [hrest d rfl]⟩
  cases h with
  | numeral hn => exact read_numeral hn (hend _ rfl)
  | ratio hn =>
    cases hn with
    | mk habove hbelow => exact read_ratio (.mk habove hbelow) rest
  | @string content hq =>
    have hread := quoted?_append hq rfl (by decide) rest
    show ofQuoted '"' .string .openString _ = _
    rw [List.append_assoc, List.singleton_append, ofQuoted, hread]
  | @character content hq =>
    have hread := quoted?_append hq rfl (by decide) rest
    show ofQuoted '\'' .character .openCharacter _ = _
    rw [List.append_assoc, List.singleton_append, ofQuoted, hread]
  | word hc hcs =>
    have hword : Boundary isWordPart rest := hend _ rfl
    rw [read_of_isWordStart hc, ofWord]
    simp only [takeWhile_append_boundary hcs hword, dropWhile_append_boundary hcs hword]
  | ellipsis => rfl
  | atInterface => rcases hcases with rfl | ⟨more, rfl⟩ <;> rfl
  | symbol hs =>
    unfold Symbol.ofChar? at hs
    split at hs <;> cases hs <;> rcases hcases with rfl | ⟨more, rfl⟩ <;> rfl
  | operator hc =>
    simp only [isOperator, List.contains_eq_mem, List.mem_cons, List.not_mem_nil, or_false,
      decide_eq_true_eq] at hc
    rcases hc with rfl | rfl | rfl | rfl | rfl | rfl | rfl | rfl | rfl <;>
      rcases hcases with rfl | ⟨more, rfl⟩ <;> rfl

end Piece

/-! ## Lexemes on lines of their own -/

/-- A character of a class without line breaks is none. -/
theorem isBreak_eq_false {p : Char → Bool} {c : Char} (hc : p c = true)
    (hfeed : p '\n' = false) (hreturn : p '\r' = false) : isBreak c = false := by
  rw [← Bool.not_eq_true]
  intro hbreak
  simp only [isBreak, Bool.or_eq_true, beq_iff_eq] at hbreak
  rcases hbreak with rfl | rfl
  · rw [hfeed] at hc
    cases hc
  · rw [hreturn] at hc
    cases hc

/-- A lexeme stays on its line. -/
theorem Lexeme.no_break {kind : TokenKind} {cs : List Char} (h : Lexeme kind cs) :
    ∀ c ∈ cs, isBreak c = false := by
  intro c hc
  cases h with
  | numeral hn => exact isBreak_eq_false (hn.forall_mem c hc) rfl rfl
  | ratio hn =>
    obtain ⟨habove, hbelow⟩ := hn
    simp only [List.mem_cons, List.mem_append, List.not_mem_nil, or_false] at hc
    rcases hc with rfl | hc | rfl | hc | rfl
    · rfl
    · exact isBreak_eq_false (p := fun c => Numeral.isGap c || Numeral.isNumeralPart c)
        (habove.forall_mem c hc) rfl rfl
    · rfl
    · exact isBreak_eq_false (p := fun c => Numeral.isGap c || Numeral.isNumeralPart c)
        (hbelow.forall_mem c hc) rfl rfl
    · rfl
  | string hq =>
    simp only [List.mem_cons, List.mem_append, List.not_mem_nil, or_false] at hc
    rcases hc with rfl | hc | rfl
    · rfl
    · exact hq.no_break c hc
    · rfl
  | character hq =>
    simp only [List.mem_cons, List.mem_append, List.not_mem_nil, or_false] at hc
    rcases hc with rfl | hc | rfl
    · rfl
    · exact hq.no_break c hc
    · rfl
  | word hstart hparts =>
    rcases List.mem_cons.mp hc with rfl | hc
    · exact isBreak_eq_false hstart rfl rfl
    · exact isBreak_eq_false (hparts c hc) rfl rfl
  | ellipsis => exact Bool.eq_false_iff.mpr (List.any_eq_false.mp rfl c hc)
  | atInterface => exact Bool.eq_false_iff.mpr (List.any_eq_false.mp rfl c hc)
  | symbol hs =>
    rw [List.mem_singleton] at hc
    subst hc
    exact isBreak_eq_false (p := fun c => (Symbol.ofChar? c).isSome) (by simp [hs]) rfl rfl
  | operator ho =>
    rw [List.mem_singleton] at hc
    subst hc
    exact isBreak_eq_false ho rfl rfl

/-- No lexeme begins with a byte-order mark. -/
theorem Lexeme.head_ne_mark {kind : TokenKind} {c : Char} {cs : List Char}
    (h : Lexeme kind (c :: cs)) : c ≠ '\uFEFF' := by
  rintro rfl
  cases h with
  | numeral hn => exact absurd (hn.forall_mem _ List.mem_cons_self) (by decide)
  | ratio hn => cases hn
  | word hc _ => exact absurd hc (by decide +kernel)
  | symbol hs => cases hs
  | operator ho => exact absurd ho (by decide)

/-- Tokens with lexemes of their kinds, and behind them the end of the input. -/
inductive Spelled : List Token → Prop
  | done {t : Token} : t.kind = .eof → t.lexeme = "" → Spelled [t]
  | token {t : Token} {ts : List Token} : Lexeme t.kind t.lexeme.toList → Spelled ts →
      Spelled (t :: ts)

/-- Each of the tokens has a lexeme of its kind, or marks the end of the input. -/
theorem Spelled.of_mem {ts : List Token} (h : Spelled ts) :
    ∀ t ∈ ts, (t.kind = .eof ∧ t.lexeme = "") ∨ Lexeme t.kind t.lexeme.toList := by
  induction h with
  | done hkind hlexeme => exact List.forall_mem_singleton.mpr (.inl ⟨hkind, hlexeme⟩)
  | token ht _ ih => exact List.forall_mem_cons.mpr ⟨.inr ht, ih⟩

/-- The names of identifiers are lexemes. -/
theorem Spelled.lexeme_of_identifier {ts : List Token} (h : Spelled ts) {t : Token} (ht : t ∈ ts)
    {x : String} (hx : t.kind = .identifier x) : Lexeme (.identifier x) x.toList := by
  rcases h.of_mem t ht with ⟨hkind, -⟩ | hlexeme
  · rw [hkind] at hx
    cases hx
  · rw [hx] at hlexeme
    rwa [← hlexeme.of_identifier.1]

/-- What is scanned behind some tokens is spelled. -/
theorem exists_spelled_of_scanFrom {p : Position} {cs : List Char} {before tokens : List Token}
    (h : scanFrom p cs before = .ok tokens) :
    ∃ more, tokens = before.reverse ++ more ∧ Spelled more := by
  fun_induction scanFrom p cs before with
  | case1 p before =>
    cases h
    exact ⟨_, List.reverse_cons, .done rfl rfl⟩
  | case2 p before c rest kind lexeme after hread _ ih =>
    obtain ⟨more, rfl, hmore⟩ := ih h
    refine ⟨⟨kind, String.ofList lexeme, p⟩ :: more, by simp, .token ?_ hmore⟩
    rw [String.toList_ofList]
    exact Piece.lexeme_of_read hread
  | case3 p before c rest skipped after hread _ ih => exact ih h
  | case4 p before c rest cause hread => cases h

/-- The tokens of a text have lexemes of their kinds, and the end of the input comes last. -/
theorem spelled_of_scan {text : String} {tokens : List Token} (h : scan text = .ok tokens) :
    Spelled tokens := by
  obtain ⟨more, htokens, hmore⟩ := exists_spelled_of_scanFrom h
  rw [List.reverse_nil, List.nil_append] at htokens
  rwa [htokens]

/-- There is a token, be it the end of the input. -/
theorem Spelled.ne_nil {ts : List Token} (h : Spelled ts) : ts ≠ [] := by
  cases h <;> simp

/-- No lexeme is empty. -/
theorem Lexeme.ne_nil {kind : TokenKind} {cs : List Char} (h : Lexeme kind cs) : cs ≠ [] := by
  cases h with
  | numeral hn => exact hn.ne_nil
  | ratio hn => cases hn; simp
  | _ => simp

/-- A lexeme and a line feed are read as a token, and the text goes on with the next line. -/
theorem scanFrom_line {kind : TokenKind} {cs : List Char} (h : Lexeme kind cs) (k : Nat)
    (rest : List Char) (before : List Token) :
    scanFrom ⟨k, 1⟩ (cs ++ '\n' :: rest) before =
      scanFrom ⟨k + 1, 1⟩ rest (⟨kind, String.ofList cs, ⟨k, 1⟩⟩ :: before) := by
  obtain ⟨c, cs, rfl⟩ := List.exists_cons_of_ne_nil h.ne_nil
  have hposition : (Position.after ⟨k, 1⟩ (c :: cs)).after ['\n'] = ⟨k + 1, 1⟩ := by
    rw [Position.after_of_no_break _ _ h.no_break]
    rfl
  rw [List.cons_append, scanFrom_of_token (Piece.read_lexeme h (by simp)), scanFrom_of_gap (by rfl),
    hposition]

/-- The lexemes of the tokens, each on a line of its own. -/
def lexemeLines (tokens : List Token) : String := "\n".intercalate (tokens.map Token.lexeme)

/-- The lexeme of a token stands on the first line, and the others behind it. -/
theorem lexemeLines_cons {t : Token} {ts : List Token} (h : ts ≠ []) :
    (lexemeLines (t :: ts)).toList = t.lexeme.toList ++ '\n' :: (lexemeLines ts).toList := by
  have hne : ts.map Token.lexeme ≠ [] := by simpa using h
  rw [lexemeLines, List.map_cons, String.intercalate_cons_of_ne_nil hne]
  simp [lexemeLines]

/-- Lines are read into their tokens, one for each line. -/
theorem scanFrom_lexemeLines {ts : List Token} (h : Spelled ts) (k : Nat) (before : List Token) :
    scanFrom ⟨k + 1, 1⟩ (lexemeLines ts).toList before =
      .ok (before.reverse ++ ts.mapIdx fun i t => { t with position := ⟨k + i + 1, 1⟩ }) := by
  induction h generalizing k before with
  | @done t hkind hlexeme =>
    have htext : (lexemeLines [t]).toList = [] := by simp [lexemeLines, hlexeme]
    rw [htext, scanFrom]
    simp [hkind, hlexeme]
  | @token t ts ht hts ih =>
    rw [lexemeLines_cons hts.ne_nil, scanFrom_line ht, ih (k + 1)]
    simp [List.mapIdx_cons, Nat.add_assoc, Nat.add_comm 1]

/-- Nothing is dropped from a text that does not begin with a mark. -/
theorem dropMark_of_head {cs : List Char} (h : cs.head? ≠ some '\uFEFF') : dropMark cs = cs := by
  unfold dropMark
  split
  · exact absurd rfl h
  · rfl

/-- A lexeme that stands alone is read as its token. -/
theorem scan_lexeme {kind : TokenKind} {x : String} (h : Lexeme kind x.toList) :
    scan x = .ok [⟨kind, x, Position.start⟩, ⟨.eof, "", Position.start.after x.toList⟩] := by
  obtain ⟨c, cs, hx⟩ := List.exists_cons_of_ne_nil h.ne_nil
  have htext : String.ofList (c :: cs) = x := by rw [← hx, String.ofList_toList]
  rw [hx] at h
  have hread : Piece.read c (cs ++ []) = .token kind (c :: cs) [] := Piece.read_lexeme h (by simp)
  rw [List.append_nil] at hread
  rw [scan, hx, dropMark_of_head (by simpa using h.head_ne_mark), scanFrom_of_token hread, scanFrom,
    htext]
  rfl

/-- No lexeme begins with a mark. -/
theorem Spelled.dropMark_lines {ts : List Token} (h : Spelled ts) :
    dropMark (lexemeLines ts).toList = (lexemeLines ts).toList := by
  apply dropMark_of_head
  cases h with
  | @done t _ hlexeme => simp [lexemeLines, hlexeme]
  | @token t ts ht hts =>
    obtain ⟨c, cs, hcs⟩ := List.exists_cons_of_ne_nil ht.ne_nil
    rw [hcs] at ht
    rw [lexemeLines_cons hts.ne_nil, hcs, List.cons_append, List.head?_cons, ne_eq,
      Option.some.injEq]
    exact ht.head_ne_mark

/-- **A text may be replaced by the lexemes of its tokens.** Written on lines of their own, the
lexemes are read into tokens of the same kinds with the same lexemes in the same order, and the
first column of each line is the position of its token. -/
theorem scan_lexemeLines {text : String} {tokens : List Token} (h : scan text = .ok tokens) :
    scan (lexemeLines tokens) =
      .ok (tokens.mapIdx fun i t => { t with position := ⟨i + 1, 1⟩ }) := by
  obtain ⟨more, htokens, hmore⟩ := exists_spelled_of_scanFrom h
  rw [List.reverse_nil, List.nil_append] at htokens
  subst htokens
  show scanFrom ⟨0 + 1, 1⟩ (dropMark (lexemeLines tokens).toList) [] = _
  rw [hmore.dropMark_lines, scanFrom_lexemeLines hmore]
  simp

/-- A signed numeral that two points end, and a ratio with a blank in it. -/
theorem scan_points :
    scan "-1..(2 /3)" = .ok [⟨.number "-1", "-1", ⟨1, 1⟩⟩, ⟨.symbol .dot, ".", ⟨1, 3⟩⟩,
      ⟨.symbol .dot, ".", ⟨1, 4⟩⟩, ⟨.number "(2 /3)", "(2 /3)", ⟨1, 5⟩⟩,
      ⟨.eof, "", ⟨1, 11⟩⟩] := by
  decide +kernel

/-- Numbers, points and a ratio, on one line and on four. -/
theorem scan_lexemeLines_points :
    scan "-1..(2 /3)" = .ok [⟨.number "-1", "-1", ⟨1, 1⟩⟩, ⟨.symbol .dot, ".", ⟨1, 3⟩⟩,
      ⟨.symbol .dot, ".", ⟨1, 4⟩⟩, ⟨.number "(2 /3)", "(2 /3)", ⟨1, 5⟩⟩,
      ⟨.eof, "", ⟨1, 11⟩⟩] ∧
    scan "-1\n.\n.\n(2 /3)\n" = .ok [⟨.number "-1", "-1", ⟨1, 1⟩⟩,
      ⟨.symbol .dot, ".", ⟨2, 1⟩⟩, ⟨.symbol .dot, ".", ⟨3, 1⟩⟩,
      ⟨.number "(2 /3)", "(2 /3)", ⟨4, 1⟩⟩, ⟨.eof, "", ⟨5, 1⟩⟩] :=
  ⟨scan_points, scan_lexemeLines scan_points⟩

end ApiSurface
