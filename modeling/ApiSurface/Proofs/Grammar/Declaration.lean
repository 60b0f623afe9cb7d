import ApiSurface.Proofs.Grammar.Callable

/-!
# Types and members

The rules for types and for members are sound and complete for `TypeTail` and `MemberEntry`,
whatever follows. Types hold members and members hold types; the recursion goes through the members,
so the rules for types are treated for any rule that stands for the members, and `complete_member`
closes the circle by the induction for recursive rules.

The alternatives of a member are told apart behind its header. A type begins with a word of its own
(`typeStarts`), a constructor with a name and a round bracket, a method and a field with a reference
to a type, and a block with a brace.
-/

namespace ApiSurface.Grammar

open Rule Phrase Derives

section

variable (member : Rule (Option Member)) [Local member] (h : Header)

instance : Local (typeBody member) := by
  unfold typeBody
  infer_instance

instance : Local (plainType member h) := by
  unfold plainType
  infer_instance

instance : Local (enumMembers member) := by
  unfold enumMembers
  infer_instance

instance : Local (enumBody member) := by
  unfold enumBody
  infer_instance

instance : Local (enumeration member h) := by
  unfold enumeration
  infer_instance

instance : Local (typeRest member h) := by
  unfold typeRest
  infer_instance

end

section

variable (h : Header)

end

/-- The rule for a member behind its header. -/
def memberRest (member : Rule (Option Member)) (h : Header) : Rule (Option Member) :=
  (do return some (.ofType (← typeRest member h))) <|>
  (do return some (← constructorRest h)) <|>
  (do return some (← methodRest h)) <|>
  (do return some (← fieldRest h)) <|>
  (do block; return none)

instance (member : Rule (Option Member)) [Local member] (h : Header) :
    Local (memberRest member h) := by
  unfold memberRest
  infer_instance

/-- A member is a semicolon alone, or a header and what stands behind it. -/
theorem memberBody_eq (member : Rule (Option Member)) :
    memberBody member =
      ((do symbol .semicolon; return none) <|> (do let h ← header; memberRest member h)) := rfl

/-! ## The kinds that declarations begin with -/

/-- The kinds that a type behind its header begins with. -/
def typeStarts : List TokenKind :=
  [.keyword .classKw, .keyword .interfaceKw, .symbol .atInterface, .keyword .enumKw]

/-- The kinds, besides identifiers, that a member with a header begins with. -/
def headedStarts : List TokenKind := .symbol .leftBrace :: (typeStarts ++ frontStarts)

/-- The kinds, besides identifiers, that a member begins with. -/
def entryStarts : List TokenKind := .symbol .semicolon :: headedStarts

/-- A type behind its header begins with the keyword for its kind. -/
theorem typeTail_begins (r : Reading) (M : Phrase (Option Member)) :
    Begins (TypeTail r M) (oneOf typeStarts) := by
  intro w d h
  cases h with
  | classType hk _ _ _ _ _ _ _ => exact ⟨_, _, rfl, by rw [hk]; rfl⟩
  | interfaceType hk _ _ _ _ _ _ _ =>
    rcases hk with hk | hk
    · exact ⟨_, _, rfl, by rw [hk]; rfl⟩
    · exact ⟨_, _, rfl, by rw [hk]; rfl⟩
  | enumType hk _ _ _ _ _ _ => exact ⟨_, _, rfl, by rw [hk]; rfl⟩

/-- What has a header begins with an item of the header, or as it does without one. -/
theorem front_append_begins {α : Type} {r : Reading} {f v : List Token} {h : Header} {Q : Phrase α}
    {b : α} (hf : Front r f h) (hQ : Q.Begins (nameOr headedStarts)) (hv : Q v b) :
    ∃ t u, f ++ v = t :: u ∧ nameOr headedStarts t.kind = true := by
  obtain ⟨hf⟩ := hf
  exact ((frontItem_begins r).mono (nameOr_of_oneOf (by decide))).repeated_append hQ hf hv

/-- A type may begin a member with a header. -/
theorem typeTail_begins_headed (r : Reading) (M : Phrase (Option Member)) :
    Begins (TypeTail r M) (nameOr headedStarts) :=
  (typeTail_begins r M).mono (nameOr_of_oneOf (by decide))

/-- So may a constructor or a method, from its name on. -/
theorem callableTail_begins_headed (r : Reading) :
    Begins (CallableTail r) (nameOr headedStarts) :=
  (callableTail_begins r).mono (nameOr_of_isName _)

/-- So may the type of a field or a method. -/
theorem typeText_begins_headed : Begins TypeText (nameOr headedStarts) :=
  typeText_begins.mono (nameOr_of_isName _)

/-- So may a block. -/
theorem block_begins_headed : Begins Block (nameOr headedStarts) :=
  block_begins.mono (nameOr_of_oneOf (by decide))

/-- What begins a member with a header begins a member. -/
theorem nameOr_entry_of_headed {k : TokenKind} (h : nameOr headedStarts k = true) :
    nameOr entryStarts k = true := by
  rw [nameOr, Bool.or_eq_true] at h
  rcases h with h | h
  · exact nameOr_of_isName _ _ h
  · exact nameOr_of_oneOf (fun _ => List.mem_cons_of_mem _) _ h

/-- A member begins with a semicolon, or like a member with a header. -/
theorem entry_begins (r : Reading) : Begins (MemberEntry r) (nameOr entryStarts) := by
  intro w m h
  cases h with
  | empty ht => exact ⟨_, _, rfl, by rw [ht]; rfl⟩
  | type hf hw =>
    obtain ⟨t, u, he, ht⟩ := front_append_begins hf (typeTail_begins_headed r _) hw
    exact ⟨t, u, he, nameOr_entry_of_headed ht⟩
  | constructor hf hw =>
    obtain ⟨t, u, he, ht⟩ := front_append_begins hf (callableTail_begins_headed r) hw
    exact ⟨t, u, he, nameOr_entry_of_headed ht⟩
  | @method f ty w _ _ _ hf hty _ =>
    obtain ⟨t, u, he, ht⟩ := front_append_begins hf typeText_begins_headed hty
    exact ⟨t, u ++ w, by rw [← List.append_assoc, he]; rfl, nameOr_entry_of_headed ht⟩
  | @field f ty w _ _ _ n _ hf hty _ _ =>
    obtain ⟨t, u, he, ht⟩ := front_append_begins hf typeText_begins_headed hty
    exact ⟨t, u ++ n :: w, by rw [← List.append_assoc, he]; rfl, nameOr_entry_of_headed ht⟩
  | block hf hw =>
    obtain ⟨t, u, he, ht⟩ := front_append_begins hf block_begins_headed hw
    exact ⟨t, u, he, nameOr_entry_of_headed ht⟩

/-! ## Classes and interfaces -/

/-- The kind of the token for a word that introduces a type. -/
def typeWordKind : TypeWord → TokenKind
  | .classWord => .keyword .classKw
  | .interfaceWord => .keyword .interfaceKw
  | .annotationWord => .symbol .atInterface

/-- The keyword of a type is read off its token. -/
theorem on_typeWord_eq_some {l rest : List Token} {word : TypeWord} :
    typeWord.on l = some (word, rest) ↔ ∃ t, t.kind = typeWordKind word ∧ l = t :: rest := by
  constructor
  · intro h
    simp only [typeWord, on_orElse, on_bind, on_pure, Option.or_eq_some_iff,
      Option.bind_eq_some_iff] at h
    rcases h with ⟨⟨_, m⟩, hm, he⟩ | ⟨-, ⟨⟨_, m⟩, hm, he⟩ | ⟨-, ⟨_, m⟩, hm, he⟩⟩
    · obtain ⟨t, ht, rfl⟩ := on_keyword_eq_some.mp hm
      cases he
      exact ⟨t, ht, rfl⟩
    · obtain ⟨t, ht, rfl⟩ := on_keyword_eq_some.mp hm
      cases he
      exact ⟨t, ht, rfl⟩
    · obtain ⟨t, ht, rfl⟩ := on_symbol_eq_some.mp hm
      cases he
      exact ⟨t, ht, rfl⟩
  · rintro ⟨t, ht, rfl⟩
    cases word <;> simp [typeWord, ht, typeWordKind]

/-- The type that a word, a name and the lists behind them declare. -/
def plainDecl (word : TypeWord) (h : Header) (x : String) (gs : Option (List String))
    (es is : List String) (ms : List (Option Member)) : TypeDecl :=
  match word with
  | .classWord =>
    h.type (.classKind (es.head?.getD defaultSuperclass)) x (gs.getD []) is (ms.filterMap id)
  | .interfaceWord | .annotationWord =>
    h.type .interfaceKind x (gs.getD []) (es ++ is) (ms.filterMap id)

/-- A clause may stand in front of what does not begin with its keyword. -/
theorem clause_stops {k : Keyword} {q : TokenKind → Bool} {w rest : List Token}
    {xs : List String} (hw : Clause k w xs) (hk : q (.keyword k) = false) (hrest : Stops q rest) :
    Stops q (w ++ rest) := by
  cases hw with
  | absent => exact hrest
  | present ht _ => exact stops_of_kind ht hk _

/-- Types behind the header `h`, for members `M`. -/
def TypeUnder (h : Header) (M : Phrase (Option Member)) : Phrase TypeDecl := fun w a =>
  ∃ d, TypeTail .committed M w d ∧ a = d h

section

variable {M : Phrase (Option Member)} {member : Rule (Option Member)} [Local member]

/-- What the rule for classes and interfaces takes is one, if members inside are. -/
theorem sound_plainType (hM : Sound member M) (h : Header) :
    Sound (plainType member h) (TypeUnder h M) := by
  intro l rest a hl
  simp only [plainType, typeBody, on_bind, on_between, on_pure, Option.bind_eq_some_iff,
    Option.map_eq_some_iff] at hl
  obtain ⟨⟨word, l₁⟩, hword, ⟨x, l₂⟩, hx, ⟨gs, l₃⟩, hgs, ⟨es, l₄⟩, hes, ⟨is, l₅⟩, his, _,
    ⟨_, ⟨⟨_, l₆⟩, hopen, ⟨ms, l₇⟩, hms, ⟨_, l₈⟩, hclose, rfl⟩, hbody⟩, he⟩ := hl
  obtain ⟨k, hk, rfl⟩ := on_typeWord_eq_some.mp hword
  obtain ⟨n, hn, rfl⟩ := on_identifier_eq_some.mp hx
  obtain ⟨g, rfl, hg⟩ := sound_genericList.optional hgs
  obtain ⟨e, rfl, he'⟩ := sound_clause .extendsKw hes
  obtain ⟨i, rfl, hi⟩ := sound_clause .implementsKw his
  obtain ⟨t, ht, rfl⟩ := on_symbol_eq_some.mp hopen
  obtain ⟨w, rfl, hw⟩ := hM.many hms
  obtain ⟨u, hu, hl₇⟩ := on_symbol_eq_some.mp hclose
  simp only at hl₇
  subst hl₇
  cases hbody
  cases he
  refine ⟨k :: n :: (g ++ (e ++ (i ++ t :: (w ++ [u])))), by simp, ?_⟩
  cases word with
  | classWord => exact ⟨_, .classType hk hn hg he' hi ht hw hu, rfl⟩
  | interfaceWord => exact ⟨_, .interfaceType (.inl hk) hn hg he' hi ht hw hu, rfl⟩
  | annotationWord => exact ⟨_, .interfaceType (.inr hk) hn hg he' hi ht hw hu, rfl⟩

/-- Members are taken to the last, if none can begin behind them. -/
theorem complete_members {n : Nat} (hS : Sound member M)
    (hM : Complete n member M fun _ => True) (hbegin : M.Begins (nameOr entryStarts)) :
    Complete n (many member) (Repeated M) (Stops (nameOr entryStarts)) := by
  intro w rest ms hw hstop hlt
  exact Complete.many hM (fun _ _ h => hbegin.ne_nil h) (fun _ _ _ _ => trivial) hw
    ⟨trivial, hS.refuses hbegin hstop⟩ hlt

/-- A class or an interface is taken, if members inside are. -/
theorem on_plainType {n : Nat} (hS : Sound member M) (hM : Complete n member M fun _ => True)
    (hbegin : M.Begins (nameOr entryStarts)) (h : Header) (word : TypeWord) (rest : List Token)
    {k m t u : Token} {x : String} {g e i w : List Token} {gs : Option (List String)}
    {es is : List String} {ms : List (Option Member)} (hk : k.kind = typeWordKind word)
    (hm : m.kind = .identifier x) (hg : Optional (Generics TypeText) g gs)
    (he : Clause .extendsKw e es) (hi : Clause .implementsKw i is)
    (ht : t.kind = .symbol .leftBrace) (hw : Repeated M w ms) (hu : u.kind = .symbol .rightBrace)
    (hlt : (w ++ u :: rest).length < n) :
    (plainType member h).on (k :: m :: (g ++ (e ++ (i ++ t :: (w ++ u :: rest))))) =
      some (plainDecl word h x gs es is ms, rest) := by
  have hword :
      typeWord.on (k :: m :: (g ++ (e ++ (i ++ t :: (w ++ u :: rest))))) = some (word, _) :=
    on_typeWord_eq_some.mpr ⟨k, hk, rfl⟩
  have hbrace : ∀ {q : TokenKind → Bool}, q (.symbol .leftBrace) = false →
      Stops q (t :: (w ++ u :: rest)) := fun hq => stops_of_kind ht hq _
  have hgenerics : (optional genericList).on (g ++ (e ++ (i ++ t :: (w ++ u :: rest)))) =
      some (gs, e ++ (i ++ t :: (w ++ u :: rest))) := by
    have hnone : genericList.on (e ++ (i ++ t :: (w ++ u :: rest))) = none :=
      sound_genericList.refuses generics_begins
        (clause_stops he rfl (clause_stops hi rfl (hbrace rfl)))
    exact (complete_genericList _).optional hg ⟨trivial, hnone⟩ (Nat.lt_succ_self _)
  have hextends := complete_clause .extendsKw _ he
    (clause_stops hi rfl (hbrace rfl)) (Nat.lt_succ_self _)
  have himplements := complete_clause .implementsKw _ hi (hbrace rfl) (Nat.lt_succ_self _)
  have hmembers := complete_members hS hM hbegin hw (stops_of_kind hu rfl _) hlt
  simp only [plainType, typeBody, on_bind, on_between, hword, on_identifier_cons,
    identifier?_of_kind hm, hgenerics, hextends, himplements, hmembers, on_symbol_cons, ht, hu,
    if_pos, Option.bind_some, Option.map_some, on_pure]
  cases word <;> rfl

end

/-! ## Enumerations -/

/-- A constant begins with an annotation or its name. -/
theorem constant_begins (r : Reading) : Begins (Constant r) (nameOr [.symbol .atSign]) := by
  rintro w c ⟨hw, hn, _⟩
  have hannotated := (annotated_begins r).mono (nameOr_of_oneOf fun _ h => h)
  have hname := name_begins.mono (nameOr_of_isName [.symbol .atSign])
  obtain ⟨t, u, he, ht⟩ := hannotated.repeated_append hname hw (.mk hn)
  rw [List.append_cons, he]
  exact ⟨t, _, rfl, ht⟩

/-- What the rule for a constant takes is one. -/
theorem sound_enumConstant : Sound enumConstant (Constant .committed) := by
  intro l rest c h
  simp only [enumConstant, constantTail, annotations, on_bind, on_discard, on_pure,
    Option.bind_eq_some_iff, Option.map_eq_some_iff] at h
  obtain ⟨⟨xs, m⟩, hxs, ⟨x, k⟩, hx, _, ⟨⟨us, j⟩, hus, rfl⟩, he⟩ := h
  obtain ⟨w, rfl, hw⟩ := sound_annotationName.many hxs
  obtain ⟨t, ht, rfl⟩ := on_identifier_eq_some.mp hx
  obtain ⟨v, rfl, hv⟩ := sound_balancedGroup.many hus
  cases he
  exact ⟨w ++ t :: v, by simp, .mk hw ht hv⟩

/-- A constant is taken up to where no group follows. -/
theorem complete_enumConstant (n : Nat) :
    Complete n enumConstant (Constant .committed) (Stops (oneOf openings)) := by
  intro w rest c hw hstop hlt
  cases hw with
  | @mk w v xs t x us hw ht hv =>
    rw [List.append_assoc, List.cons_append] at hlt ⊢
    have hannotations := complete_annotations n hw (stops_of_kind ht rfl _) hlt
    have hnone := sound_balancedGroup.refuses grouped_begins hstop
    have hgroups := Complete.many (complete_balancedGroup n)
      (fun _ _ h => grouped_begins.ne_nil h) (fun _ _ _ _ => trivial) hv ⟨trivial, hnone⟩
      (by simp at hlt ⊢; omega)
    simp [enumConstant, constantTail, hannotations, ht, hgroups]

section

variable {M : Phrase (Option Member)} {member : Rule (Option Member)} [Local member]

/-- The rule for a semicolon and the members behind it. -/
def membersBehind (member : Rule (Option Member)) : Rule (List (Option Member)) := do
  symbol .semicolon
  many member

/-- An enumeration gives the members behind its constants, and none if it has none. -/
theorem on_enumMembers (l : List Token) :
    (enumMembers member).on l = ((optional (membersBehind member)).on l).map fun p =>
      ((p.1.getD []).filterMap id, p.2) := by
  simp only [enumMembers, membersBehind, on_bind, on_pure, Option.map_eq_bind,
    Function.comp_def]

/-- What is taken behind the constants are members, if members inside are. -/
theorem sound_membersBehind (hM : Sound member M) {l rest : List Token}
    {ms : Option (List (Option Member))}
    (h : (optional (membersBehind member)).on l = some (ms, rest)) :
    ∃ w, w ++ rest = l ∧ MoreMembers M w (ms.getD []) := by
  rw [on_optional] at h
  rcases hl : (membersBehind member).on l with _ | ⟨ns, m⟩
  · rw [hl] at h
    cases h
    exact ⟨[], rfl, .absent⟩
  · rw [hl] at h
    cases h
    simp only [membersBehind, on_bind, Option.bind_eq_some_iff] at hl
    obtain ⟨⟨_, k⟩, hk, hm⟩ := hl
    obtain ⟨t, ht, rfl⟩ := on_symbol_eq_some.mp hk
    obtain ⟨w, rfl, hw⟩ := hM.many hm
    exact ⟨t :: w, rfl, .present ht hw⟩

/-- The members behind the constants are taken, up to the closing brace. -/
theorem on_membersBehind {n : Nat} (hS : Sound member M) (hM : Complete n member M fun _ => True)
    (hbegin : M.Begins (nameOr entryStarts)) {w : List Token} {ms : List (Option Member)}
    (hw : MoreMembers M w ms) {u : Token} (hu : u.kind = .symbol .rightBrace) {rest : List Token}
    (hlt : (w ++ u :: rest).length < n) :
    ∃ o, o.getD [] = ms ∧
      (optional (membersBehind member)).on (w ++ u :: rest) = some (o, u :: rest) := by
  cases hw with
  | absent =>
    have hnone : (membersBehind member).on (u :: rest) = none := by simp [membersBehind, hu]
    exact ⟨none, rfl, by simp [on_optional, hnone]⟩
  | @present t w ms ht hw =>
    have hmembers := complete_members hS hM hbegin hw (stops_of_kind hu rfl _)
      (Nat.lt_of_succ_lt hlt)
    exact ⟨some ms, rfl, by simp [on_optional, membersBehind, ht, hmembers]⟩

/-- What the rule for enumerations takes is one, if members inside are. -/
theorem sound_enumeration (hM : Sound member M) (h : Header) :
    Sound (enumeration member h) (TypeUnder h M) := by
  intro l rest a hl
  simp only [enumeration, enumBody, on_bind, on_between, on_enumMembers, on_pure,
    Option.bind_eq_some_iff, Option.map_eq_some_iff] at hl
  obtain ⟨⟨_, l₁⟩, hword, ⟨x, l₂⟩, hx, ⟨is, l₃⟩, his, _,
    ⟨⟨_, l₄⟩, hopen, _, ⟨⟨cs, l₅⟩, hcs, _, ⟨⟨ms, l₆⟩, hms, rfl⟩, hpair⟩, ⟨_, l₇⟩, hclose, rfl⟩,
    he⟩ := hl
  cases hpair
  obtain ⟨k, hk, rfl⟩ := on_keyword_eq_some.mp hword
  obtain ⟨n, hn, rfl⟩ := on_identifier_eq_some.mp hx
  obtain ⟨i, rfl, hi⟩ := sound_clause .implementsKw his
  obtain ⟨t, ht, rfl⟩ := on_symbol_eq_some.mp hopen
  obtain ⟨c, rfl, hc⟩ := Sound.sepByTrailing sound_enumConstant hcs
  obtain ⟨w, rfl, hw⟩ := sound_membersBehind hM hms
  obtain ⟨u, hu, hl₆⟩ := on_symbol_eq_some.mp hclose
  simp only at hl₆
  subst hl₆
  cases he
  exact ⟨k :: n :: (i ++ t :: (c ++ (w ++ [u]))), by simp,
    _, .enumType hk hn hi ht (.list hc) hw hu, rfl⟩

/-- Behind the constants of an enumeration stands neither another constant nor a comma. -/
theorem moreMembers_stops {w : List Token} {ms : List (Option Member)} (hw : MoreMembers M w ms)
    {u : Token} (hu : u.kind = .symbol .rightBrace) (rest : List Token) {p : TokenKind → Bool}
    (hsemicolon : p (.symbol .semicolon) = false) (hbrace : p (.symbol .rightBrace) = false) :
    Stops p (w ++ u :: rest) := by
  cases hw with
  | absent => simpa [hu] using hbrace
  | present ht _ => simpa [ht] using hsemicolon

/-- An enumeration is taken, if members inside are. -/
theorem on_enumeration {n : Nat} (hS : Sound member M) (hM : Complete n member M fun _ => True)
    (hbegin : M.Begins (nameOr entryStarts)) (h : Header) (rest : List Token) {k m t u : Token}
    {x : String} {i c w : List Token} {is : List String} {cs : List EnumConstant}
    {ms : List (Option Member)} (hk : k.kind = .keyword .enumKw) (hm : m.kind = .identifier x)
    (hi : Clause .implementsKw i is) (ht : t.kind = .symbol .leftBrace)
    (hc : Trailing (Constant .committed) c cs) (hw : MoreMembers M w ms)
    (hu : u.kind = .symbol .rightBrace) (hlt : (w ++ u :: rest).length < n) :
    (enumeration member h).on (k :: m :: (i ++ t :: (c ++ (w ++ u :: rest)))) =
      some (h.type (.classKind enumSuperclass) x [] is
        (cs.map (fun c => .field (c.field x)) ++ ms.filterMap id), rest) := by
  have himplements : (clause .implementsKw).on (i ++ t :: (c ++ (w ++ u :: rest))) =
      some (is, t :: (c ++ (w ++ u :: rest))) :=
    complete_clause .implementsKw _ hi (stops_of_kind ht rfl _) (Nat.lt_succ_self _)
  have hconstants : (sepByTrailing enumConstant (symbol .comma)).on (c ++ (w ++ u :: rest)) =
      some (cs, w ++ u :: rest) := by
    have hnone : enumConstant.on (w ++ u :: rest) = none :=
      sound_enumConstant.refuses (constant_begins _) (moreMembers_stops hw hu rest rfl rfl)
    exact Complete.sepByTrailing (complete_enumConstant _)
      (fun _ l ht => stops_of_kind ht rfl l) hc
      ⟨moreMembers_stops hw hu rest rfl rfl, hnone, moreMembers_stops hw hu rest rfl rfl⟩
      (Nat.lt_succ_self _)
  obtain ⟨o, rfl, hmembers⟩ := on_membersBehind hS hM hbegin hw hu hlt
  simp only [enumeration, enumBody, on_enumMembers, on_bind, on_between, on_keyword_cons, hk,
    on_identifier_cons, identifier?_of_kind hm, himplements, hconstants, hmembers, on_symbol_cons,
    ht, hu, if_pos, Option.bind_some, Option.map_some, on_pure]

/-! ## Types -/

/-- What is taken behind a header is a type under it, if members inside are. -/
theorem sound_typeRest (hM : Sound member M) (h : Header) :
    Sound (typeRest member h) (TypeUnder h M) :=
  (sound_plainType hM h).orElse (sound_enumeration hM h)

/-- A type under a header begins with the keyword for its kind. -/
theorem typeUnder_begins (h : Header) : Begins (TypeUnder h M) (oneOf typeStarts) := by
  rintro w a ⟨d, hd, -⟩
  exact typeTail_begins _ M hd

/-- A type under a header is taken, if members inside are. -/
theorem complete_typeRest {n : Nat} (hS : Sound member M)
    (hM : Complete n member M fun _ => True) (hbegin : M.Begins (nameOr entryStarts))
    (h : Header) : Complete (n + 1) (typeRest member h) (TypeUnder h M) fun _ => True := by
  rintro w rest a ⟨d, hd, rfl⟩ _ hlt
  rw [typeRest, on_orElse]
  cases hd with
  | @classType k m t u x g e i w gs es is ms hk hm hg he hi ht hw hu =>
    have htype := on_plainType hS hM hbegin h .classWord rest hk hm hg he hi ht hw hu
      (by simp at hlt ⊢; omega)
    simp [htype, plainDecl]
  | @interfaceType k m t u x g e i w gs es is ms hk hm hg he hi ht hw hu =>
    rcases hk with hk | hk
    · have htype := on_plainType hS hM hbegin h .interfaceWord rest hk hm hg he hi ht hw hu
        (by simp at hlt ⊢; omega)
      simp [htype, plainDecl]
    · have htype := on_plainType hS hM hbegin h .annotationWord rest hk hm hg he hi ht hw hu
        (by simp at hlt ⊢; omega)
      simp [htype, plainDecl]
  | @enumType k m t u x i c w is cs ms hk hm hi ht hc hw hu =>
    cases hc with
    | list hc =>
      have htype := on_enumeration hS hM hbegin h rest hk hm hi ht hc hw hu
        (by simp at hlt ⊢; omega)
      -- The rule for classes and interfaces is tried first, and refuses the keyword.
      have hnone :
          (plainType member h).on (k :: m :: (i ++ t :: (c ++ (w ++ u :: rest)))) = none := by
        simp [plainType, typeWord, hk]
      simp [htype, hnone]
    | loneComma hfree _ => cases hfree

end

/-! ## Members -/

/-- What is taken behind a header makes a member with it, if members inside are. -/
theorem sound_memberRest {member : Rule (Option Member)} [Local member]
    (hM : Sound member (MemberEntry .committed)) {f : List Token} {h : Header}
    (hf : Front .committed f h) {l rest : List Token} {m : Option Member}
    (hl : (memberRest member h).on l = some (m, rest)) :
    ∃ w, w ++ rest = l ∧ MemberEntry .committed (f ++ w) m := by
  simp only [memberRest, on_orElse, on_bind, on_pure, Option.or_eq_some_iff,
    Option.bind_eq_some_iff] at hl
  -- A type, a constructor, a method, a field or a block, in the order in which they are tried.
  rcases hl with ⟨⟨a, l₁⟩, ha, he⟩ | ⟨-, ⟨⟨a, l₁⟩, ha, he⟩ | ⟨-, ⟨⟨a, l₁⟩, ha, he⟩ |
    ⟨-, ⟨⟨a, l₁⟩, ha, he⟩ | ⟨-, ⟨a, l₁⟩, ha, he⟩⟩⟩⟩
  · obtain ⟨w, rfl, d, hd, rfl⟩ := sound_typeRest hM h ha
    cases he
    exact ⟨w, rfl, .type hf hd⟩
  · simp only [constructorRest, on_bind, on_pure, Option.bind_eq_some_iff] at ha
    obtain ⟨⟨s, l₂⟩, hs, ha⟩ := ha
    cases ha
    obtain ⟨w, rfl, hw⟩ := sound_signature hs
    cases he
    exact ⟨w, rfl, .constructor hf hw⟩
  · simp only [methodRest, on_bind, on_pure, Option.bind_eq_some_iff] at ha
    obtain ⟨⟨ty, l₂⟩, hty, ⟨s, l₃⟩, hs, ha⟩ := ha
    cases ha
    obtain ⟨t, rfl, ht⟩ := sound_typeRef hty
    obtain ⟨w, rfl, hw⟩ := sound_signature hs
    cases he
    exact ⟨t ++ w, by simp, .method hf ht hw⟩
  · simp only [fieldRest, on_bind, on_pure, Option.bind_eq_some_iff] at ha
    obtain ⟨⟨ty, l₂⟩, hty, ⟨x, l₃⟩, hx, ⟨v, l₄⟩, hv, ha⟩ := ha
    cases ha
    obtain ⟨t, rfl, ht⟩ := sound_typeRef hty
    obtain ⟨n, hn, rfl⟩ := on_identifier_eq_some.mp hx
    obtain ⟨w, rfl, hw⟩ := sound_fieldEnd hv
    cases he
    exact ⟨t ++ n :: w, by simp, .field hf ht hn hw⟩
  · obtain ⟨w, rfl, hw⟩ := sound_block ha
    cases he
    exact ⟨w, rfl, .block hf hw⟩

/-- What the rule for members takes is a member. -/
theorem sound_member : Sound member (MemberEntry .committed) := by
  apply Sound.recursive
  intro member _ hM
  rw [memberBody_eq]
  refine Sound.orElse ?_ ?_
  · intro l rest m h
    simp only [on_bind, on_pure, Option.bind_eq_some_iff] at h
    obtain ⟨⟨_, k⟩, hk, he⟩ := h
    obtain ⟨t, ht, rfl⟩ := on_symbol_eq_some.mp hk
    cases he
    exact ⟨[t], rfl, .empty ht⟩
  · intro l rest m h
    simp only [on_bind, Option.bind_eq_some_iff] at h
    obtain ⟨⟨h, k⟩, hk, hm⟩ := h
    obtain ⟨f, rfl, hf⟩ := sound_header hk
    obtain ⟨w, rfl, hw⟩ := sound_memberRest hM hf hm
    exact ⟨f ++ w, List.append_assoc _ _ _, hw⟩

section

variable {member : Rule (Option Member)} [Local member]

/-- A member with a header is what stands behind the header. -/
theorem on_memberBody {α : Type} {Q : Phrase α} {f v : List Token} {h : Header} {b : α}
    (hf : Front .committed f h) (hQ : Q.Begins (nameOr headedStarts)) (hv : Q v b)
    {rest : List Token} (hstop : Stops (oneOf frontStops) (v ++ rest)) :
    (memberBody member).on (f ++ (v ++ rest)) = (memberRest member h).on (v ++ rest) := by
  have hheader := complete_header _ hf hstop (Nat.lt_succ_self _)
  have hno : (symbol .semicolon).on (f ++ (v ++ rest)) = none := by
    obtain ⟨t, u, he, ht⟩ := front_append_begins hf hQ hv
    rw [← List.append_assoc, he, List.cons_append, on_symbol_cons]
    refine if_neg fun hk => ?_
    rw [hk] at ht
    cases ht
  simp [memberBody_eq, hno, hheader]

/-- No type stands behind a header where no word for one does. -/
theorem typeRest_refuses {M : Phrase (Option Member)} (hM : Sound member M) (h : Header)
    {l : List Token} (hl : Stops (oneOf typeStarts) l) : (typeRest member h).on l = none :=
  (sound_typeRest hM h).refuses (typeUnder_begins h) hl

/-- A reference to a type, with a name behind it, is not the beginning of a constructor. -/
theorem constructorRest_refuses {t : List Token} {ty : String} (ht : TypeText t ty) (h : Header)
    {rest : List Token} (hrest : Stops (oneOf [.symbol .leftParen]) rest) :
    (constructorRest h).on (t ++ rest) = none := by
  obtain ⟨u, v, hl, hv⟩ := typeText_second ht hrest
  rw [hl]
  simp [constructorRest, signature_refuses hv]

section Behind

variable (hS : Sound member (MemberEntry .committed)) (h : Header) (rest : List Token)
include hS

/-- Parameters behind a header are those of a constructor. -/
theorem on_memberRest_constructor {w : List Token} {s : Signature}
    (hw : CallableTail .committed w s) :
    (memberRest member h).on (w ++ rest) = some (some (.constructor (h.constructor s)), rest) := by
  have hsignature := complete_signature _ hw trivial (Nat.lt_succ_self (w ++ rest).length)
  have hnone := typeRest_refuses hS h ((callableTail_begins _).stops_name (fun _ => rfl) hw rest)
  simp [memberRest, hnone, constructorRest, hsignature]

/-- A type and parameters behind a header are those of a method. -/
theorem on_memberRest_method {t w : List Token} {ty : String} {s : Signature} (ht : TypeText t ty)
    (hw : CallableTail .committed w s) :
    (memberRest member h).on (t ++ (w ++ rest)) = some (some (.method (h.method ty s)), rest) := by
  have hnext : ∀ {q : TokenKind → Bool}, (∀ x, q (.identifier x) = false) →
      Stops q (w ++ rest) := fun hq => (callableTail_begins _).stops_name hq hw rest
  have hreturn := complete_typeRef _ ht (hnext fun _ => rfl) (Nat.lt_succ_self _)
  have hsignature := complete_signature _ hw trivial (Nat.lt_succ_self (w ++ rest).length)
  have hnone := typeRest_refuses hS h (typeText_begins.stops_name (fun _ => rfl) ht (w ++ rest))
  have hnot := constructorRest_refuses ht h (hnext fun _ => rfl)
  simp [memberRest, hnone, hnot, methodRest, hreturn, hsignature]

/-- A type and a name without parameters behind a header are those of a field. -/
theorem on_memberRest_field {t w : List Token} {c : Token} {ty x : String} {v : Option String}
    (ht : TypeText t ty) (hc : c.kind = .identifier x) (hw : FieldTail w v) :
    (memberRest member h).on (t ++ c :: (w ++ rest)) =
      some (some (.field (h.field ty x v)), rest) := by
  have hnext : ∀ {q : TokenKind → Bool}, (∀ x, q (.identifier x) = false) →
      Stops q (c :: (w ++ rest)) := fun hq => stops_of_kind hc (hq x) _
  have htype := complete_typeRef _ ht (hnext fun _ => rfl) (Nat.lt_succ_self _)
  have hend := complete_fieldEnd _ hw trivial (Nat.lt_succ_self (w ++ rest).length)
  have hnone := typeRest_refuses hS h
    (typeText_begins.stops_name (fun _ => rfl) ht (c :: (w ++ rest)))
  have hnot := constructorRest_refuses ht h (hnext fun _ => rfl)
  have hnot' : signature.on (c :: (w ++ rest)) = none :=
    signature_refuses (fieldTail_begins.stops (by decide) hw rest)
  simp [memberRest, hnone, hnot, methodRest, htype, hnot', fieldRest, hc, hend]

/-- A block behind a header is an initialiser, which declares nothing. -/
theorem on_memberRest_block {w : List Token} (hw : Block w ()) :
    (memberRest member h).on (w ++ rest) = some (none, rest) := by
  have hblock := complete_block _ hw trivial (Nat.lt_succ_self (w ++ rest).length)
  have hnone := typeRest_refuses hS h (block_begins.stops (by decide) hw rest)
  have htype : typeRef.on (w ++ rest) = none :=
    sound_typeRef.refuses typeText_begins (block_begins.stops (by decide) hw rest)
  have hname : signature.on (w ++ rest) = none :=
    sound_signature.refuses (callableTail_begins _) (block_begins.stops (by decide) hw rest)
  simp [memberRest, hnone, constructorRest, methodRest, fieldRest, htype, hname, hblock]

end Behind

/-- The body of the rule for members reads every entry, if the rule inside reads shorter ones. -/
theorem complete_memberBody {n : Nat} (hS : Sound member (MemberEntry .committed))
    (hM : Complete n member (MemberEntry .committed) fun _ => True) :
    Complete (n + 1) (memberBody member) (MemberEntry .committed) fun _ => True := by
  intro w rest m hw _ hlt
  -- The rules are tried in order, so each kind of member has to be refused by those in front.
  cases hw with
  | empty ht => simp [memberBody_eq, ht]
  | @type f w h d hf hw =>
    have htype : (typeRest member h).on (w ++ rest) = some (d h, rest) :=
      complete_typeRest hS hM (entry_begins _) h ⟨d, hw, rfl⟩ trivial (by simp at hlt ⊢; omega)
    rw [List.append_assoc, on_memberBody hf (typeTail_begins_headed _ _) hw
      ((typeTail_begins _ _).stops (by decide) hw rest)]
    simp [memberRest, htype]
  | @constructor f w h s hf hw =>
    rw [List.append_assoc, on_memberBody hf (callableTail_begins_headed _) hw
      ((callableTail_begins _).stops_name (fun _ => rfl) hw rest)]
    exact on_memberRest_constructor hS h rest hw
  | @method f t w h ty s hf ht hw =>
    rw [List.append_assoc, List.append_assoc, on_memberBody hf typeText_begins_headed ht
      (typeText_begins.stops_name (fun _ => rfl) ht _)]
    exact on_memberRest_method hS h rest ht hw
  | @field f t w h ty x c v hf ht hc hw =>
    rw [List.append_assoc, List.append_assoc, on_memberBody hf typeText_begins_headed ht
      (typeText_begins.stops_name (fun _ => rfl) ht _)]
    exact on_memberRest_field hS h rest ht hc hw
  | @block f w h hf hw =>
    rw [List.append_assoc, on_memberBody hf block_begins_headed hw
      (block_begins.stops (by decide) hw rest)]
    exact on_memberRest_block hS h rest hw

end

/-- A member is what the rule for members takes. -/
theorem complete_member (n : Nat) : Complete n member (MemberEntry .committed) fun _ => True :=
  Complete.recursive sound_member (fun _ _ _ hS hM => complete_memberBody hS hM) n

end ApiSurface.Grammar
