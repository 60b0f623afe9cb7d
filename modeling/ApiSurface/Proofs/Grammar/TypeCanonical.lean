import ApiSurface.Proofs.Grammar.Layout
import ApiSurface.Proofs.Grammar.TypeRef
import ApiSurface.Proofs.Token.Lexeme

/-!
# The text of a reference to a type is canonical

A reference to a type is read as a text of its own making: the blanks of the file are gone, and
others stand around bounds and behind commas. This text is scanned into tokens of the same kinds as
those that the reference was read from, so that it is read as itself again
(`typeText_canonical`).

The two ends are tied by the productions. `ReadAs cs kinds` says that a text is scanned into tokens
of some kinds wherever no word goes on behind it, and each production of a reference is one lemma
about it; the induction is the one for recursive rules (`Sound.recursive`). No token of a reference
depends on the blanks around it for two reasons: a word ends before every mark that the text puts
behind it, and behind a point stands a word or another point, never a digit.
-/

namespace ApiSurface

open Text

/-! ## Texts that are read as tokens of given kinds -/

/-- The text is scanned into tokens of the given kinds, whatever was read before it and wherever no
word goes on behind it. -/
def ReadAs (cs : List Char) (kinds : List TokenKind) : Prop :=
  ∀ (p : Position) (rest : List Char) (before : List Token), Boundary isWordPart rest →
    ∃ (q : Position) (ts : List Token), ts.map Token.kind = kinds ∧
      scanFrom p (cs ++ rest) before = scanFrom q rest (ts.reverse ++ before)

/-- The empty text is read as no tokens. -/
theorem readAs_nil : ReadAs [] [] := fun p _ _ _ => ⟨p, [], rfl, rfl⟩

/-- Texts are read one after the other, if the second does not go on with a word. -/
theorem ReadAs.append {cs ds : List Char} {ks ls : List TokenKind} (hcs : ReadAs cs ks)
    (hds : ReadAs ds ls) (hseam : Boundary isWordPart ds) : ReadAs (cs ++ ds) (ks ++ ls) := by
  intro p rest before hrest
  obtain ⟨q, ts, hts, hscan⟩ := hcs p (ds ++ rest) before (hseam.append hrest)
  obtain ⟨q', ts', hts', hscan'⟩ := hds q rest (ts.reverse ++ before) hrest
  refine ⟨q', ts ++ ts', by rw [List.map_append, hts, hts'], ?_⟩
  rw [List.append_assoc, hscan, hscan', List.reverse_append, List.append_assoc]

/-- One token in front, if it is read off whatever the text goes on with. -/
theorem ReadAs.token {c : Char} {cs : List Char} {kind : TokenKind} {kinds : List TokenKind}
    (hcs : ReadAs cs kinds) (lexeme : List Char)
    (hread : ∀ rest, Piece.read c (lexeme ++ (cs ++ rest)) =
      .token kind (c :: lexeme) (cs ++ rest)) :
    ReadAs (c :: (lexeme ++ cs)) (kind :: kinds) := by
  intro p rest before hrest
  obtain ⟨q, ts, hts, hscan⟩ := hcs (p.after (c :: lexeme)) rest
    (⟨kind, String.ofList (c :: lexeme), p⟩ :: before) hrest
  refine ⟨q, ⟨kind, String.ofList (c :: lexeme), p⟩ :: ts, by rw [List.map_cons, hts], ?_⟩
  rw [List.cons_append, List.append_assoc, scanFrom_of_token (hread rest), hscan]
  simp

/-- One mark in front that no other character belongs to. -/
theorem ReadAs.mark {c : Char} {cs : List Char} {s : Symbol} {kinds : List TokenKind}
    (hcs : ReadAs cs kinds) (hread : ∀ rest, Piece.read c rest = .token (.symbol s) [c] rest) :
    ReadAs (c :: cs) (.symbol s :: kinds) :=
  hcs.token [] fun rest => hread (cs ++ rest)

/-- Three points are read as one token. -/
theorem ReadAs.ellipsis {cs : List Char} {kinds : List TokenKind} (hcs : ReadAs cs kinds) :
    ReadAs ('.' :: '.' :: '.' :: cs) (.symbol .ellipsis :: kinds) :=
  hcs.token ['.', '.'] fun _ => rfl

/-- A point in front of a word begins neither a numeral nor an ellipsis. -/
theorem ReadAs.point {c : Char} {cs : List Char} {kinds : List TokenKind}
    (hcs : ReadAs (c :: cs) kinds) (hc : isWordStart c = true) :
    ReadAs ('.' :: c :: cs) (.symbol .dot :: kinds) := by
  refine hcs.token [] fun rest => ?_
  have hdigit : c.isDigit = false := by
    by_contra hdigit
    rw [Piece.isWordStart_of_isDigit (by simpa using hdigit)] at hc
    cases hc
  have hpoint : c ≠ '.' := by
    rintro rfl
    exact absurd hc (by decide)
  have hnumeral : Numeral.read? ('.' :: c :: (cs ++ rest)) = none := by
    simp [Numeral.read?, Numeral.single, Numeral.isSign, Numeral.startsMagnitude, hdigit]
  have hword : isWordStart '.' = false := by decide
  simp [Piece.read, hnumeral, hpoint.symm, hword, Piece.ofMark, Symbol.ofChar?]

/-- A blank in front is passed over. -/
theorem ReadAs.blank {cs : List Char} {kinds : List TokenKind} (hcs : ReadAs cs kinds) :
    ReadAs (' ' :: cs) kinds := by
  intro p rest before hrest
  obtain ⟨q, ts, hts, hscan⟩ := hcs (p.after [' ']) rest before hrest
  refine ⟨q, ts, hts, ?_⟩
  rw [List.cons_append, scanFrom_of_gap (by rfl), hscan]

/-- A word is read as a word, where no word goes on behind it. -/
theorem readAs_word {c : Char} {cs : List Char} (hc : isWordStart c = true)
    (hcs : ∀ d ∈ cs, isWordPart d = true) :
    ReadAs (c :: cs) [TokenKind.ofWord (String.ofList (c :: cs))] := by
  intro p rest before hrest
  have hread : Piece.read c (cs ++ rest) =
      .token (TokenKind.ofWord (String.ofList (c :: cs))) (c :: cs) rest := by
    rw [Piece.read_of_isWordStart hc, Piece.ofWord]
    simp only [takeWhile_append_boundary hcs hrest, dropWhile_append_boundary hcs hrest]
  refine ⟨p.after (c :: cs), [⟨_, String.ofList (c :: cs), p⟩], rfl, ?_⟩
  rw [List.cons_append, scanFrom_of_token hread]
  rfl

/-- A word between two blanks. -/
theorem ReadAs.betweenBlanks {word cs : List Char} {kind : TokenKind} {kinds : List TokenKind}
    (hword : ReadAs word [kind]) (hcs : ReadAs cs kinds) :
    ReadAs (' ' :: (word ++ ' ' :: cs)) (kind :: kinds) :=
  (hword.append hcs.blank (boundary_cons.mpr rfl)).blank

/-- No text that is read begins with a byte-order mark. -/
theorem ReadAs.dropMark {cs : List Char} {kinds : List TokenKind} (h : ReadAs cs kinds) :
    dropMark cs = cs := by
  apply dropMark_of_head
  intro hmark
  obtain ⟨ds, rfl⟩ := List.head?_eq_some_iff.mp hmark
  obtain ⟨q, ts, -, hscan⟩ := h Position.start [] [] (boundary_nil _)
  rw [List.append_nil, scanFrom_of_fault (Piece.read_byteOrderMark ds), scanFrom] at hscan
  cases hscan

/-- A text that is read as tokens of some kinds is scanned into them and the end of the input. -/
theorem ReadAs.scan {x : String} {kinds : List TokenKind} (h : ReadAs x.toList kinds) :
    ∃ ts e, scan x = .ok (ts ++ [e]) ∧ ts.map Token.kind = kinds ∧ e.kind = .eof := by
  obtain ⟨q, ts, hts, hscan⟩ := h Position.start [] [] (boundary_nil _)
  refine ⟨ts, ⟨.eof, "", q⟩, ?_, hts, rfl⟩
  rw [List.append_nil, List.append_nil, scanFrom, List.reverse_cons, List.reverse_reverse] at hscan
  rw [ApiSurface.scan, h.dropMark, hscan]

/-! ## Words -/

/-- An identifier is read as itself, and begins as words do. -/
theorem Lexeme.readAs_identifier {x : String} (h : Lexeme (.identifier x) x.toList) :
    (∃ c ds, x.toList = c :: ds ∧ isWordStart c = true) ∧ ReadAs x.toList [.identifier x] := by
  obtain ⟨-, hkeyword, c, ds, hx, hc, hds⟩ := h.of_identifier
  have hkind : TokenKind.ofWord (String.ofList (c :: ds)) = .identifier x := by
    rw [← hx, String.ofList_toList, TokenKind.ofWord, hkeyword]
  have hread := readAs_word hc hds
  rw [hkind, ← hx] at hread
  exact ⟨⟨c, ds, hx, hc⟩, hread⟩

/-- What begins a word also goes on with one. -/
theorem isWordPart_of_isWordStart {c : Char} (h : isWordStart c = true) : isWordPart c = true := by
  simp only [isWordStart, isWordPart, Bool.or_eq_true] at h ⊢
  rcases h with (h | h) | h
  · exact .inl (.inl (.inl h))
  · exact .inl (.inr h)
  · exact .inr h

/-- A word of letters alone. -/
theorem readAs_letters {c : Char} {cs : List Char} (h : (c :: cs).all isWordStart = true) :
    ReadAs (c :: cs) [TokenKind.ofWord (String.ofList (c :: cs))] := by
  obtain ⟨hc, hcs⟩ := List.forall_mem_cons.mp (List.all_eq_true.mp h)
  exact readAs_word hc fun d hd => isWordPart_of_isWordStart (hcs d hd)

/-- The word `extends` is read as its keyword. -/
theorem readAs_extends : ReadAs "extends".toList [.keyword .extendsKw] :=
  readAs_letters (c := 'e') (by decide)

/-- The word `super` is read as its keyword. -/
theorem readAs_super : ReadAs "super".toList [.keyword .superKw] :=
  readAs_letters (c := 's') (by decide)

/-- The identifiers among the tokens are words. -/
def Worded (w : List Token) : Prop :=
  ∀ t ∈ w, ∀ x, t.kind = .identifier x → Lexeme (.identifier x) x.toList

/-- The identifiers of joined words are words if those of both parts are. -/
theorem worded_append {w v : List Token} : Worded (w ++ v) ↔ Worded w ∧ Worded v :=
  List.forall_mem_append

/-- The identifiers are words if that of the first token and those of the others are. -/
theorem worded_cons {t : Token} {w : List Token} :
    Worded (t :: w) ↔ (∀ x, t.kind = .identifier x → Lexeme (.identifier x) x.toList) ∧ Worded w :=
  List.forall_mem_cons

/-- The identifiers of a text are words. -/
theorem Spelled.worded {ts : List Token} (h : Spelled ts) : Worded ts := fun _ ht _ hx =>
  h.lexeme_of_identifier ht hx

/-- The lexeme of a token is the spelling of its kind. -/
theorem Spelled.lexeme_eq {ts : List Token} (h : Spelled ts) :
    ∀ t ∈ ts, t.lexeme.toList = t.kind.spelling := by
  intro t ht
  rcases h.of_mem t ht with ⟨hkind, hlexeme⟩ | hlexeme
  · rw [hkind, hlexeme]
    rfl
  · exact hlexeme.eq_spelling

namespace Grammar

open Rule Phrase Derives

/-! ## The productions, as texts -/

/-- The text is read as tokens of the kinds of the word, if the identifiers of the word are
words. -/
def Rendered (w : List Token) (x : String) : Prop :=
  Worded w → ReadAs x.toList (w.map Token.kind)

/-- Texts with a separator between them are read in turn. A property `Q` of how a text begins may
be asked for behind the separator. -/
theorem readAs_intercalate {s : Symbol} (sep : String) {P : Phrase String} (Q : List Char → Prop)
    (hsep : ∀ ⦃cs kinds⦄, Q cs → ReadAs cs kinds →
      ReadAs (sep.toList ++ cs) (.symbol s :: kinds))
    (hseam : ∀ cs, Boundary isWordPart (sep.toList ++ cs)) (hQ : ∀ ⦃cs⦄ ds, Q cs → Q (cs ++ ds))
    (hP : ∀ ⦃w x⦄, P w x → Worded w → Q x.toList ∧ ReadAs x.toList (w.map Token.kind))
    {w : List Token} {xs : List String} (h : Separated s P w xs) (hw : Worded w) :
    Q (sep.intercalate xs).toList ∧ ReadAs (sep.intercalate xs).toList (w.map Token.kind) := by
  induction h with
  | one hx =>
    rw [String.intercalate_singleton]
    exact hP hx hw
  | @more w v t x xs hx ht hxs ih =>
    obtain ⟨hw, hv⟩ := worded_append.mp hw
    obtain ⟨hQx, hread⟩ := hP hx hw
    obtain ⟨hQxs, hmore⟩ := ih (worded_cons.mp hv).2
    have hne : xs ≠ [] := by cases hxs <;> simp
    rw [String.intercalate_cons_of_ne_nil hne, String.toList_append, String.toList_append,
      List.append_assoc, List.map_append, List.map_cons, ht]
    exact ⟨hQ _ hQx, hread.append (hsep hQxs hmore) (hseam _)⟩

/-- The same for a separator that asks for nothing behind it. -/
theorem readAs_separated {s : Symbol} (sep : String) {P : Phrase String}
    (hsep : ∀ ⦃cs kinds⦄, ReadAs cs kinds → ReadAs (sep.toList ++ cs) (.symbol s :: kinds))
    (hseam : ∀ cs, Boundary isWordPart (sep.toList ++ cs)) (hP : ∀ ⦃w x⦄, P w x → Rendered w x)
    {w : List Token} {xs : List String} (h : Separated s P w xs) (hw : Worded w) :
    ReadAs (sep.intercalate xs).toList (w.map Token.kind) := by
  refine (readAs_intercalate sep (fun _ => True) ?_ hseam ?_ ?_ h hw).2
  · exact fun _ _ _ hread => hsep hread
  · exact fun _ _ _ => trivial
  · exact fun _ _ hx hw => ⟨trivial, hP hx hw⟩

/-- A dotted name is read as the tokens that it was made of. -/
theorem rendered_dottedName {w : List Token} {x : String} (h : DottedName w x) : Rendered w x := by
  intro hw
  obtain ⟨hxs⟩ := h
  refine (readAs_intercalate "." (fun cs => ∃ c ds, cs = c :: ds ∧ isWordStart c = true)
    ?_ ?_ ?_ ?_ hxs hw).2
  · rintro _ kinds ⟨c, ds, rfl, hc⟩ hread
    exact hread.point hc
  · exact fun cs => boundary_cons.mpr rfl
  · rintro _ ds ⟨c, cs, rfl, hc⟩
    exact ⟨c, cs ++ ds, rfl, hc⟩
  · rintro _ x ⟨ht⟩ hw
    rw [List.map_singleton, ht]
    exact (hw _ (List.mem_singleton.mpr rfl) x ht).readAs_identifier

/-- Suffixes are read as their tokens, and end a word in front of them. -/
theorem readAs_suffixes {w : List Token} {ss : List String} (h : Repeated Suffix w ss) :
    ReadAs (String.join ss).toList (w.map Token.kind) ∧
      Boundary isWordPart (String.join ss).toList := by
  induction h with
  | nil => exact ⟨readAs_nil, boundary_nil _⟩
  | @cons w v x ss hx _ ih =>
    have htext : (String.join (x :: ss)).toList = x.toList ++ (String.join ss).toList := by
      simp
    rw [htext, List.map_append]
    rcases hx with ⟨ht, hu⟩ | ht
    · rw [List.map_cons, List.map_singleton, ht, hu]
      exact ⟨(ih.1.mark fun _ => rfl).mark fun _ => rfl, boundary_cons.mpr rfl⟩
    · rw [List.map_singleton, ht]
      exact ⟨ih.1.ellipsis, boundary_cons.mpr rfl⟩

/-- Arguments as they are written: with commas, and in angle brackets. -/
theorem toList_argumentsText (xs : List String) :
    (argumentsText (some xs)).toList = '<' :: ((", ".intercalate xs).toList ++ ['>']) := by
  simp [argumentsText]

section

variable {T : Phrase String} (hT : ∀ ⦃w x⦄, T w x → Rendered w x)
include hT

/-- A bound is read as its tokens, and ends a word in front of it. -/
theorem readAs_bound {w : List Token} {x : String} (h : Bound T w x) (hw : Worded w) :
    ReadAs x.toList (w.map Token.kind) ∧ Boundary isWordPart x.toList := by
  rcases h with @⟨t, w, xs, ht, hxs⟩ | @⟨t, w, x, ht, hx⟩
  · have hread : ReadAs (" & ".intercalate xs).toList (w.map Token.kind) := by
      refine readAs_separated " & " ?_ ?_ hT hxs (worded_cons.mp hw).2
      · exact fun _ _ hread => (hread.blank.mark fun _ => rfl).blank
      · exact fun _ => boundary_cons.mpr rfl
    rw [List.map_cons, ht, String.toList_append]
    exact ⟨readAs_extends.betweenBlanks hread, boundary_cons.mpr rfl⟩
  · rw [List.map_cons, ht, String.toList_append]
    exact ⟨readAs_super.betweenBlanks (hT hx (worded_cons.mp hw).2), boundary_cons.mpr rfl⟩

/-- So is a bound that may be missing. -/
theorem readAs_optionalBound {w : List Token} {b : Option String} (h : Optional (Bound T) w b)
    (hw : Worded w) :
    ReadAs (b.getD "").toList (w.map Token.kind) ∧ Boundary isWordPart (b.getD "").toList := by
  cases h with
  | absent => exact ⟨readAs_nil, boundary_nil _⟩
  | present h => exact readAs_bound hT h hw

/-- An argument is read as the tokens that it was made of. -/
theorem rendered_argument {w : List Token} {x : String} (h : Argument T w x) : Rendered w x := by
  intro hw
  rcases h with @⟨t, w, b, ht, hb⟩ | @⟨w, v, x, b, hx, hb⟩
  · have hbound := readAs_optionalBound hT hb (worded_cons.mp hw).2
    rw [List.map_cons, ht, String.toList_append]
    exact hbound.1.mark fun _ => rfl
  · obtain ⟨hw, hv⟩ := worded_append.mp hw
    have hbound := readAs_optionalBound hT hb hv
    rw [List.map_append, String.toList_append]
    exact (hT hx hw).append hbound.1 hbound.2

/-- A list of arguments, with its angle brackets. -/
theorem readAs_generics {w : List Token} {xs : List String} (h : Generics T w xs)
    (hw : Worded w) : ReadAs (argumentsText (some xs)).toList (w.map Token.kind) := by
  obtain @⟨t, u, w, xs, ht, hxs, hu⟩ := h
  have hinside : ReadAs (", ".intercalate xs).toList (w.map Token.kind) := by
    refine readAs_separated ", " ?_ ?_ (fun _ _ => rendered_argument hT) hxs ?_
    · exact fun _ _ hread => hread.blank.mark fun _ => rfl
    · exact fun _ => boundary_cons.mpr rfl
    · exact (worded_append.mp (worded_cons.mp hw).2).1
  have hclose : ReadAs ['>'] [.symbol .greater] := readAs_nil.mark fun _ => rfl
  rw [toList_argumentsText, List.map_cons, List.map_append, List.map_singleton, ht, hu]
  exact (hinside.append hclose (boundary_cons.mpr rfl)).mark fun _ => rfl

/-- A reference is rendered if the references inside it are. -/
theorem rendered_reference {w : List Token} {x : String} (h : Reference T w x) : Rendered w x := by
  intro hw
  obtain @⟨n, g, s, y, args, ss, hn, hg, hs⟩ := h
  obtain ⟨hwn, hw⟩ := worded_append.mp hw
  obtain ⟨hwg, -⟩ := worded_append.mp hw
  obtain ⟨hsuffixes, hseam⟩ := readAs_suffixes hs
  have harguments : ReadAs (argumentsText args).toList (g.map Token.kind) ∧
      Boundary isWordPart (argumentsText args).toList := by
    cases hg with
    | absent => exact ⟨readAs_nil, boundary_nil _⟩
    | present hg =>
      refine ⟨readAs_generics hT hg hwg, ?_⟩
      rw [toList_argumentsText]
      exact boundary_cons.mpr rfl
  rw [String.toList_append, String.toList_append, List.append_assoc, List.map_append,
    List.map_append]
  exact (rendered_dottedName hn hwn).append (harguments.1.append hsuffixes hseam)
    (harguments.2.append hseam)

end

/-- The text of a reference is read as tokens of the kinds that it was read from. -/
theorem sound_rendered : Sound typeRef Rendered := by
  apply Sound.recursive
  intro type _ hT
  exact (sound_typeRefBody hT).mono fun _ _ => rendered_reference fun _ _ h => h

/-! ## Reading the text again -/

/-- A kind has one spelling, so that the content of spelled tokens follows from their kinds. -/
theorem map_content_of_spelled {l : List Token}
    (h : ∀ t ∈ l, t.lexeme.toList = t.kind.spelling) :
    l.map Token.content = (l.map Token.kind).map fun k => (k, String.ofList k.spelling) := by
  rw [List.map_map]
  refine List.map_congr_left fun t ht => ?_
  rw [Function.comp_apply, ← h t ht, String.ofList_toList]
  rfl

/-- What is read from tokens is read from every text that is scanned into tokens of their kinds. -/
theorem run_of_readAs {α : Type} {r : Rule α} [Local r] (hfree : PositionFree r)
    {text x : String} {w rest : List Token} {a : α} (hscan : scan text = .ok (w ++ rest))
    (hx : ReadAs x.toList (w.map Token.kind))
    (hr : ∀ e : Token, e.kind = .eof → r.on (w ++ [e]) = some (a, [e])) :
    ∃ ts e, scan x = .ok (ts ++ [e]) ∧ e.kind = .eof ∧
      r.run (ts ++ [e]).toArray = .ok (a, ts.length) := by
  obtain ⟨ts, e, hscan', hkinds, he⟩ := hx.scan
  refine ⟨ts, e, hscan', he, ?_⟩
  have hw := (List.forall_mem_append.mp (spelled_of_scan hscan).lexeme_eq).1
  have hts := (List.forall_mem_append.mp (spelled_of_scan hscan').lexeme_eq).1
  have hsame : SameContent (w ++ [e]).toArray (ts ++ [e]).toArray := by
    simp only [SameContent, List.map_toArray, List.map_append, map_content_of_spelled hw,
      map_content_of_spelled hts, hkinds]
  have hlength : w.length = ts.length := by
    rw [← List.length_map (f := Token.kind), ← hkinds, List.length_map]
  have hrun : r.run (w ++ [e]).toArray = .ok (a, w.length) := by
    refine (run_eq_ok_iff r).mpr ⟨by simp, ?_⟩
    rw [List.drop_left]
    exact hr e he
  rw [← hlength, ← hrun, Rule.run, Rule.run, hfree hsame]

/-- **The text of a type is canonical.** The text that a reference to a type is read as is scanned
without a fault and read as itself again, to its end; and so is the text of a list of type arguments
with a comma and a blank between them. -/
theorem typeText_canonical {text : String} {tokens : List Token} (h : scan text = .ok tokens) :
    (∀ s n, typeRef.run tokens.toArray = .ok (s, n) →
      ∃ ts e, scan s = .ok (ts ++ [e]) ∧ e.kind = .eof ∧
        typeRef.run (ts ++ [e]).toArray = .ok (s, ts.length)) ∧
    (∀ es n, genericList.run tokens.toArray = .ok (es, n) →
      ∃ ts e, scan ("<" ++ ", ".intercalate es ++ ">") = .ok (ts ++ [e]) ∧ e.kind = .eof ∧
        genericList.run (ts ++ [e]).toArray = .ok (es, ts.length)) := by
  have hworded := (spelled_of_scan h).worded
  constructor
  · intro s n hrun
    obtain ⟨-, hon⟩ := (run_eq_ok_iff typeRef).mp hrun
    obtain ⟨w, hw, htype⟩ := sound_typeRef hon
    obtain ⟨v, hv, hrendered⟩ := sound_rendered hon
    -- The word that is rendered is the one that is read, as both stand in front of the same rest.
    obtain rfl : v = w := List.append_cancel_right (hv.trans hw.symm)
    rw [← hw] at h hworded
    have hread := hrendered (worded_append.mp hworded).1
    refine run_of_readAs (positionFree_of_described typeRef) h hread fun e he => ?_
    exact complete_typeRef _ htype (stops_of_kind he rfl []) (Nat.lt_succ_self _)
  · intro es n hrun
    obtain ⟨-, hon⟩ := (run_eq_ok_iff genericList).mp hrun
    obtain ⟨w, hw, hlist⟩ := sound_genericList hon
    obtain ⟨v, hv, hrendered⟩ := sound_typeArguments sound_rendered hon
    obtain rfl : v = w := List.append_cancel_right (hv.trans hw.symm)
    rw [← hw] at h hworded
    have hread := readAs_generics (fun _ _ h => h) hrendered (worded_append.mp hworded).1
    refine run_of_readAs (positionFree_of_described genericList) h hread fun e _ => ?_
    exact complete_genericList _ hlist trivial (Nat.lt_succ_self _)

/-- The tokens of a list of arguments with blanks where its canonical text has none, and none where
that has one. -/
def spacedTokens : Array Token :=
  #[⟨.symbol .less, "<", ⟨1, 1⟩⟩, ⟨.symbol .question, "?", ⟨1, 2⟩⟩,
    ⟨.keyword .superKw, "super", ⟨1, 3⟩⟩, ⟨.identifier "a", "a", ⟨1, 9⟩⟩,
    ⟨.symbol .dot, ".", ⟨1, 10⟩⟩, ⟨.identifier "b", "b", ⟨1, 11⟩⟩,
    ⟨.symbol .comma, ",", ⟨1, 13⟩⟩, ⟨.identifier "c", "c", ⟨1, 14⟩⟩,
    ⟨.symbol .greater, ">", ⟨1, 15⟩⟩, ⟨.eof, "", ⟨1, 16⟩⟩]

/-- The arguments, as they are read from the tokens. -/
theorem run_spacedTokens : genericList.run spacedTokens = .ok (["? super a.b", "c"], 9) := by
  decide +kernel

/-- A list of arguments with blanks in other places than it is written with. -/
theorem typeText_canonical_spaced :
    scan "<?super a.b ,c>" = .ok spacedTokens.toList ∧
    ∃ ts e, scan "<? super a.b, c>" = .ok (ts ++ [e]) ∧ e.kind = .eof ∧
      genericList.run (ts ++ [e]).toArray = .ok (["? super a.b", "c"], ts.length) := by
  have hscan : scan "<?super a.b ,c>" = .ok spacedTokens.toList := by decide +kernel
  exact ⟨hscan, (typeText_canonical hscan).2 _ _ run_spacedTokens⟩

end Grammar

end ApiSurface
