import ApiSurface.Proofs.Grammar.File
import ApiSurface.Proofs.Grammar.TypeCanonical
import ApiSurface.Proofs.Token.CommentFree

/-!
# The arguments of a constant

The constants of an enumeration may have arguments, and these are passed over. Any balanced text
without comments may stand there, with one exception: two numbers with a slash between them are, in
parentheses, a ratio. This is a single token and no list of arguments, and a file that has it behind
a constant is refused (`parse_constantArguments`).

So the text in parentheses is read in one of two ways, and neither depends on what follows it:
as an opening parenthesis, the tokens of the text, and a closing parenthesis
(`Uncommented.readAs_parenthesized`), or as a number (`readAs_ratio`).
-/

namespace ApiSurface

open Text

/-! ## Texts in parentheses -/

/-- A text in parentheses, where its parentheses are closed and no ratio begins. -/
theorem Uncommented.readAs_parenthesized {cs : List Char} {kinds : List TokenKind}
    (h : Uncommented cs kinds) (hclosed : RoundClosed kinds)
    (hratio : ∀ rest, Numeral.ratio? ('(' :: (cs ++ ')' :: rest)) = none) :
    ReadAs ('(' :: (cs ++ [')']))
      (.symbol .leftParen :: (kinds ++ [.symbol .rightParen])) := by
  intro p rest before _
  have hopen := Piece.read_leftParen (hratio rest)
  have hclose : Piece.read ')' rest = .token (.symbol .rightParen) [')'] rest := rfl
  obtain ⟨q, ts, hts, hscan⟩ := h.scanFrom_parenthesis hclosed rest (p.after ['('])
    (⟨.symbol .leftParen, String.ofList ['('], p⟩ :: before)
  refine ⟨q.after [')'], ⟨.symbol .leftParen, String.ofList ['('], p⟩ ::
    (ts ++ [⟨.symbol .rightParen, String.ofList [')'], q⟩]), by simp [hts], ?_⟩
  rw [List.cons_append, List.append_assoc, List.singleton_append, scanFrom_of_token hopen, hscan,
    scanFrom_of_token hclose]
  simp

/-- A ratio is read as one number. -/
theorem readAs_ratio {cs : List Char} (h : Numeral.IsRatio ('(' :: cs)) :
    ReadAs ('(' :: cs) [.number (String.ofList ('(' :: cs))] := by
  have hread := readAs_nil.token cs fun rest => Piece.read_ratio h ([] ++ rest)
  rwa [List.append_nil] at hread

namespace Grammar

open Rule Phrase Derives

/-! ## Balanced tokens, by their kinds -/

/-- Balanced tokens have a closing parenthesis behind every opening one. -/
theorem roundClosed_of_balanced {w : List Token} (h : Balanced w) :
    RoundClosed (w.map Token.kind) := by
  induction h with
  | nil => trivial
  | @plain t w ht _ ih =>
    refine ⟨fun hkind => ?_, ih⟩
    simp [Token.isDelimiter, hkind] at ht
  | @group b t u w v ht _ hu _ ihw ihv =>
    rw [List.map_cons, List.map_append, List.map_cons]
    refine ⟨fun hkind => ?_, ihw.append ⟨fun hkind => ?_, ihv⟩⟩
    · have hround : b = .round := by
        rw [ht] at hkind
        cases b <;> first | rfl | cases hkind
      rw [hu, hround]
      exact List.mem_append_right _ List.mem_cons_self
    · rw [hu] at hkind
      cases b <;> cases hkind

/-- Whether tokens are balanced depends only on their kinds. -/
theorem balanced_of_kinds {w v : List Token} (h : Balanced w)
    (hv : v.map Token.kind = w.map Token.kind) : Balanced v := by
  induction h generalizing v with
  | nil =>
    obtain rfl := List.map_eq_nil_iff.mp hv
    exact .nil
  | @plain t w ht _ ih =>
    obtain ⟨t', v', rfl, hkind, hv'⟩ := List.map_eq_cons_iff.mp hv
    refine .plain ?_ (ih hv')
    rwa [Token.isDelimiter, hkind]
  | @group b t u w w' ht _ hu _ ih ih' =>
    rw [List.map_cons, List.map_append, List.map_cons] at hv
    obtain ⟨t', v, rfl, hkind, hv⟩ := List.map_eq_cons_iff.mp hv
    obtain ⟨inner, v, rfl, hinner, hv⟩ := List.map_eq_append_iff.mp hv
    obtain ⟨u', v', rfl, hkind', hv'⟩ := List.map_eq_cons_iff.mp hv
    exact .group (hkind.trans ht) (ih hinner) (hkind'.trans hu) (ih' hv')

/-- If no bracket is opened first, none is closed first, and the rest is balanced again. -/
theorem balanced_tail {w : List Token} {k : TokenKind} {ks : List TokenKind} (h : Balanced w)
    (hkinds : w.map Token.kind = k :: ks) (hopen : ∀ b : Bracket, k ≠ .symbol b.opening) :
    (∀ b : Bracket, k ≠ .symbol b.closing) ∧ ∃ v, Balanced v ∧ v.map Token.kind = ks := by
  cases h with
  | nil => cases hkinds
  | @plain t w ht hw =>
    obtain ⟨rfl, rfl⟩ := List.cons.inj hkinds
    refine ⟨fun b hclose => ?_, w, hw, rfl⟩
    cases b <;> simp [Token.isDelimiter, hclose, Bracket.closing] at ht
  | @group b t u w v ht _ _ _ =>
    obtain ⟨rfl, -⟩ := List.cons.inj hkinds
    exact absurd ht (hopen b)

/-- Balanced tokens do not begin with the inside of a ratio and a closing parenthesis. -/
theorem kinds_ne_of_balanced {w : List Token} (h : Balanced w) (m n : String)
    (ks : List TokenKind) : w.map Token.kind ≠
      .number m :: .operator '/' :: .number n :: .symbol .rightParen :: ks := by
  intro hkinds
  obtain ⟨-, w₁, h₁, hkinds⟩ := balanced_tail h hkinds fun b => by simp
  obtain ⟨-, w₂, h₂, hkinds⟩ := balanced_tail h₁ hkinds fun b => by simp
  obtain ⟨-, w₃, h₃, hkinds⟩ := balanced_tail h₂ hkinds fun b => by simp
  obtain ⟨hclose, -⟩ := balanced_tail h₃ hkinds fun b => by cases b <;> simp [Bracket.opening]
  exact hclose .round rfl

/-! ## The tokens of the file -/

/-- A file that declares an enumeration with one constant, and nothing else. -/
def singleConstant (enumName name : String) : CompileUnit where
  package :=
    { name := ""
      types := [{
        kind := .classKind "java.lang.Enum"
        name := enumName
        members := [.field
          { name
            type := enumName
            isStatic := true
            isFinal := true
            visibility := some .publicAccess }] }] }
  imports := []

/-- A group in brackets behind the constant is passed over. -/
theorem file_singleConstant {k m o n r e : Token} {x y : String} {w : List Token}
    (hk : k.kind = .keyword .enumKw) (hm : m.kind = .identifier x)
    (ho : o.kind = .symbol .leftBrace) (hn : n.kind = .identifier y) (hw : Grouped w ())
    (hr : r.kind = .symbol .rightBrace) (he : e.kind = .eof) :
    File .committed (k :: m :: o :: n :: (w ++ [r, e])) (singleConstant x y) := by
  have hgroups : Repeated Grouped (w ++ []) [()] := .cons hw .nil
  have hconstant : Constant .committed ([] ++ n :: (w ++ [])) ⟨[], y⟩ := .mk .nil hn hgroups
  have htail := TypeTail.enumType (M := MemberEntry .committed) hk hm .absent ho
    (.list (.items (.one hconstant))) .absent hr
  have htype := TopLevel.mk (.mk .nil) htail .nil
  have hfile := File.mk .absent .nil (.cons htype .nil) he
  simp only [List.nil_append, List.append_nil, List.append_assoc, List.cons_append] at hfile
  exact hfile

/-- A number behind a constant is neither passed over nor the end of the constants. -/
theorem compileUnit_refuses_number {k m o n c : Token} {x y z : String}
    (hk : k.kind = .keyword .enumKw) (hm : m.kind = .identifier x)
    (ho : o.kind = .symbol .leftBrace) (hn : n.kind = .identifier y) (hc : c.kind = .number z)
    (l : List Token) : compileUnit.on (k :: m :: o :: n :: c :: l) = none := by
  have hconstant : Constant .committed [n] ⟨[], y⟩ := .mk .nil hn .nil
  have hnone : enumConstant.on (c :: l) = none :=
    sound_enumConstant.refuses (constant_begins _) (stops_of_kind hc rfl _)
  have hconstants : (sepByTrailing enumConstant (symbol .comma)).on (n :: c :: l) =
      some ([⟨[], y⟩], c :: l) :=
    Complete.sepByTrailing (complete_enumConstant _) (fun _ l ht => stops_of_kind ht rfl l)
      (.items (.one hconstant)) ⟨stops_of_kind hc rfl _, hnone, stops_of_kind hc rfl _⟩
      (Nat.lt_succ_self _)
  exact compileUnit_refuses_enumeration hk hm ho hconstants (by simp [hc]) (by simp [hc])

/-- Tokens that the rule for files refuses are answered with diagnostics. -/
theorem exists_diagnostics_of_refused {ts : List Token} (h : compileUnit.on ts = none) :
    ∃ diagnostics, CompileUnit.ofTokens ts.toArray = .error (.tokens diagnostics) := by
  unfold Rule.on at h
  unfold CompileUnit.ofTokens Rule.run
  rcases hrun : compileUnit ts.toArray 0 with ⟨u, j, alternative⟩ | cause
  · rw [hrun] at h
    cases h
  · exact ⟨_, rfl⟩

/-- The kinds of the tokens in front of what stands behind the constant `y`. -/
def constantKinds (x y : String) : List TokenKind :=
  [.keyword .enumKw, .identifier x, .symbol .leftBrace, .identifier y]

/-- An enumeration is read if its constant has balanced arguments in parentheses. -/
theorem ofTokens_of_parenthesized {ts w : List Token} {e : Token} {x y : String}
    (hkinds : ts.map Token.kind = constantKinds x y ++
      (.symbol .leftParen :: (w.map Token.kind ++ [.symbol .rightParen]) ++ [.symbol .rightBrace]))
    (hw : Balanced w) (he : e.kind = .eof) :
    CompileUnit.ofTokens (ts ++ [e]).toArray = .ok (singleConstant x y) := by
  simp only [constantKinds, List.cons_append, List.nil_append, List.append_assoc,
    List.map_eq_cons_iff, List.map_eq_append_iff, List.map_eq_nil_iff] at hkinds
  obtain ⟨k, _, rfl, hk, m, _, rfl, hm, o, _, rfl, ho, n, _, rfl, hn, l, _, rfl, hl, v, _, rfl, hv,
    c, _, rfl, hc, r, _, rfl, hr, rfl⟩ := hkinds
  have hgroup : Grouped (l :: (v ++ [c])) () :=
    .mk (b := .round) (.mk hl (balanced_of_kinds hw hv) hc)
  have hfile := file_singleConstant hk hm ho hn hgroup hr he
  have hon : compileUnit.on (_ ++ []) = some (singleConstant x y, []) :=
    complete_compileUnit _ hfile trivial (Nat.lt_succ_self _)
  refine ofTokens_eq_ok.mpr ⟨[], ?_⟩
  simpa using hon

/-- An enumeration is refused if a number stands behind its constant. -/
theorem ofTokens_of_number {ts : List Token} {e : Token} {x y z : String}
    (hkinds : ts.map Token.kind = constantKinds x y ++ ([.number z] ++ [.symbol .rightBrace])) :
    ∃ diagnostics, CompileUnit.ofTokens (ts ++ [e]).toArray = .error (.tokens diagnostics) := by
  simp only [constantKinds, List.cons_append, List.nil_append, List.map_eq_cons_iff,
    List.map_eq_nil_iff] at hkinds
  obtain ⟨k, _, rfl, hk, m, _, rfl, hm, o, _, rfl, ho, n, _, rfl, hn, c, _, rfl, hc, -⟩ := hkinds
  exact exists_diagnostics_of_refused (compileUnit_refuses_number hk hm ho hn hc _)

/-! ## The text of the file -/

/-- If the text behind the constant is read as tokens of some kinds, they stand between the constant
and the brace in the tokens of the file. -/
theorem readAs_singleConstant {cs : List Char} {kinds : List TokenKind}
    (h : ReadAs ('(' :: cs) kinds) :
    ReadAs ("enum E \x7b A".toList ++ (('(' :: cs) ++ " \x7d".toList))
      (constantKinds "E" "A" ++ (kinds ++ [.symbol .rightBrace])) := by
  have hword : ReadAs ['A'] [.identifier "A"] := readAs_letters (by decide)
  have hbrace : ReadAs ['\x7b', ' ', 'A'] [.symbol .leftBrace, .identifier "A"] :=
    hword.blank.mark fun _ => rfl
  have hname : ReadAs ['E'] [.identifier "E"] := readAs_letters (by decide)
  have henum : ReadAs ['e', 'n', 'u', 'm'] [.keyword .enumKw] := readAs_letters (by decide)
  have hend : ReadAs [' ', '\x7d'] [.symbol .rightBrace] := (readAs_nil.mark fun _ => rfl).blank
  have hbehind := h.append hend (boundary_cons.mpr rfl)
  have hfront := henum.append (hname.append hbrace.blank (boundary_cons.mpr rfl)).blank
    (boundary_cons.mpr rfl)
  exact hfront.append hbehind (boundary_cons.mpr rfl)

/-- What is parsed is what the tokens of the text are read as. -/
theorem parse_of_scan {text : String} {tokens : List Token} (h : scan text = .ok tokens) :
    CompileUnit.parse text = CompileUnit.ofTokens tokens.toArray := by
  rw [CompileUnit.parse, h]

/-- The text of the file, with the arguments in their parentheses as one part. -/
theorem toList_withArguments (s : String) : ("enum E \x7b A(" ++ s ++ ") \x7d").toList =
    "enum E \x7b A".toList ++ (('(' :: (s.toList ++ [')'])) ++ " \x7d".toList) := by
  simp

/-- If the arguments in their parentheses are a ratio, the file is refused for its tokens. -/
theorem parse_of_ratio {s : String} (h : Numeral.IsRatio ('(' :: (s.toList ++ [')']))) :
    ∃ diagnostics,
      CompileUnit.parse ("enum E \x7b A(" ++ s ++ ") \x7d") = .error (.tokens diagnostics) := by
  have hread := readAs_singleConstant (readAs_ratio h)
  rw [← toList_withArguments] at hread
  obtain ⟨ts, e, hscan, htokens, -⟩ := hread.scan
  rw [parse_of_scan hscan]
  exact ofTokens_of_number htokens

/-- If they are none, and balanced, the file is read as if there were no arguments. -/
theorem parse_of_balanced {s : String} {inner : List Token}
    (h : Uncommented s.toList (inner.map Token.kind)) (hinner : Balanced inner)
    (hratio : ¬ Numeral.IsRatio ('(' :: (s.toList ++ [')']))) :
    CompileUnit.parse ("enum E \x7b A(" ++ s ++ ") \x7d") = .ok (singleConstant "E" "A") := by
  have hread := readAs_singleConstant (h.readAs_parenthesized (roundClosed_of_balanced hinner)
    (h.ratio?_eq_none hratio (kinds_ne_of_balanced hinner)))
  rw [← toList_withArguments] at hread
  obtain ⟨ts, e, hscan, htokens, he⟩ := hread.scan
  rw [parse_of_scan hscan]
  exact ofTokens_of_parenthesized htokens hinner he

/-- **The arguments of a constant are passed over, unless they are a ratio.** A balanced text
without comments, in parentheses behind the constant of an enumeration, is read as if it were not
there. But if the text in its parentheses is a ratio, the file is refused with diagnostics. -/
theorem parse_constantArguments {s : String} {inner : List Token} {e : Token}
    (hscan : scan s = .ok (inner ++ [e])) (hfree : CommentFree s.toList)
    (hinner : Balanced inner) :
    (¬ Numeral.IsRatio ('(' :: (s.toList ++ [')'])) →
      CompileUnit.parse ("enum E \x7b A(" ++ s ++ ") \x7d") = .ok (singleConstant "E" "A")) ∧
    (Numeral.IsRatio ('(' :: (s.toList ++ [')'])) → ∃ diagnostics,
      CompileUnit.parse ("enum E \x7b A(" ++ s ++ ") \x7d") = .error (.tokens diagnostics)) := by
  obtain ⟨kinds, hkinds⟩ := hfree
  obtain rfl := hkinds.map_kind_of_scan hscan
  exact ⟨parse_of_balanced hkinds hinner, parse_of_ratio⟩

/-- Two pairs of parentheses around two numbers with a slash: the inner pair is a ratio, and the
outer one the arguments. -/
theorem parse_constantArguments_ratio :
    scan "(1/2)" = .ok ([⟨.number "(1/2)", "(1/2)", ⟨1, 1⟩⟩] ++ [⟨.eof, "", ⟨1, 6⟩⟩]) ∧
    CompileUnit.parse ("enum E \x7b A(" ++ "(1/2)" ++ ") \x7d") = .ok (singleConstant "E" "A") := by
  have hscan : scan "(1/2)" =
      .ok ([⟨.number "(1/2)", "(1/2)", ⟨1, 1⟩⟩] ++ [⟨.eof, "", ⟨1, 6⟩⟩]) := by decide +kernel
  have hpiece : Piece.read '(' ['1', '/', '2', ')'] =
      .token (.number "(1/2)") ['(', '1', '/', '2', ')'] [] := by decide
  have hratio : ¬ Numeral.IsRatio ('(' :: ("(1/2)".toList ++ [')'])) := by
    intro h
    have hread : Numeral.ratio? ('(' :: ("(1/2)".toList ++ [')'])) = none := by decide
    have hwhole := Numeral.ratio?_append h []
    rw [List.append_nil, hread] at hwhole
    cases hwhole
  exact ⟨hscan, (parse_constantArguments hscan ⟨_, .token hpiece .nil⟩ (.plain rfl .nil)).1 hratio⟩

/-- Two numbers with a slash between them are balanced, and no arguments. -/
theorem not_all_arguments_passed_over :
    ¬ ∀ (s : String) (inner : List Token) (e : Token), scan s = .ok (inner ++ [e]) →
      CommentFree s.toList → Balanced inner →
      ∃ u, CompileUnit.parse ("enum E \x7b A(" ++ s ++ ") \x7d") = .ok u := by
  intro h
  have hscan : scan "1/2" = .ok ([⟨.number "1", "1", ⟨1, 1⟩⟩, ⟨.operator '/', "/", ⟨1, 2⟩⟩,
      ⟨.number "2", "2", ⟨1, 3⟩⟩] ++ [⟨.eof, "", ⟨1, 4⟩⟩]) := by decide +kernel
  have hupper : Piece.read '1' ['/', '2'] = .token (.number "1") ['1'] ['/', '2'] := by decide
  have hslash : Piece.read '/' ['2'] = .token (.operator '/') ['/'] ['2'] := by decide
  have hlower : Piece.read '2' [] = .token (.number "2") ['2'] [] := by decide
  have hfree : CommentFree "1/2".toList :=
    ⟨_, .token hupper (.token hslash (.token hlower .nil))⟩
  obtain ⟨u, hparse⟩ := h "1/2" _ _ hscan hfree
    (.plain rfl (.plain rfl (.plain rfl .nil)))
  have hratio : Numeral.ratio? ('(' :: ("1/2".toList ++ [')'])) =
      some ('(' :: ("1/2".toList ++ [')']), []) := by decide
  obtain ⟨diagnostics, hrefused⟩ := parse_of_ratio (Numeral.isRatio_of_ratio? hratio)
  rw [hrefused] at hparse
  cases hparse

end Grammar

end ApiSurface
