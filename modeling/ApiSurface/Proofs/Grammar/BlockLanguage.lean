import ApiSurface.Proofs.Grammar.Body

/-!
# The language of bodies

Which tokens the rule for blocks takes, in closed form and without the statements. Between the two
braces stands a list of *items*, each of them one token or one bracket with balanced content, and
all that counts is the last of them: it is a semicolon or a group in braces (`BodyWord`).

Nothing in this depends on the two kinds of statements that are told by their first words. They come
first among the alternatives of a statement; `blockAfter stubs` is the rule for blocks with any
other rules for statements in their place, in the blocks inside too. As long as each of these takes
statements of the grammar, the rule reads the same language (`on_blockAfter_iff`), for two reasons:
the alternatives behind them find a statement wherever one is left, and whatever a statement takes
is balanced.
-/

namespace ApiSurface.Grammar

open Rule Phrase Derives

/-! ## Words of items -/

/-- A token that is no bracket, or a bracket through the one that closes it. -/
def Item (w : List Token) : Prop := NoiseItem never w ()

/-- An item that a body may end with: a semicolon or a group in braces. -/
inductive LastItem : List Token → Prop
  | semicolon {t : Token} : t.kind = .symbol .semicolon → LastItem [t]
  | braces {w : List Token} : Enclosed .curly w () → LastItem w

/-- A brace, items of which the last may end a body, and the brace that closes the first. -/
inductive BodyWord : List Token → Prop
  | mk {t u : Token} {items : List (List Token)} :
      t.kind = .symbol .leftBrace → (∀ item ∈ items, Item item) →
      (∀ item ∈ items.getLast?, LastItem item) → u.kind = .symbol .rightBrace →
      BodyWord (t :: (items.flatten ++ [u]))

/-- Balanced tokens are a sequence of items. -/
theorem exists_items_of_balanced {w : List Token} (h : Balanced w) :
    ∃ items : List (List Token), items.flatten = w ∧ ∀ item ∈ items, Item item := by
  obtain ⟨us, hus⟩ := exists_repeated_of_balanced h
  clear h
  induction hus with
  | nil => exact ⟨[], rfl, by simp⟩
  | @cons item v u us hitem _ ih =>
    obtain ⟨items, rfl, hitems⟩ := ih
    exact ⟨item :: items, rfl, List.forall_mem_cons.mpr ⟨hitem, hitems⟩⟩

/-- A sequence of items is balanced. -/
theorem balanced_of_items {items : List (List Token)} (h : ∀ item ∈ items, Item item) :
    Balanced items.flatten := by
  induction items with
  | nil => exact .nil
  | cons item items ih =>
    obtain ⟨hitem, hitems⟩ := List.forall_mem_cons.mp h
    exact balanced_append (balanced_of_noiseItem hitem) (ih hitems)

/-- An item whose last token is a semicolon or a closing brace is a semicolon or a group in
braces. -/
theorem lastItem_of_getLast {item : List Token} (h : Item item)
    (hlast : ∀ t ∈ item.getLast?, t.kind = .symbol .semicolon ∨ t.kind = .symbol .rightBrace) :
    LastItem item := by
  rcases h with @⟨t, hplain, -⟩ | ⟨⟨hgroup⟩⟩
  · rcases hlast t rfl with ht | ht
    · exact .semicolon ht
    · simp [Token.isDelimiter, ht] at hplain
  · rename_i b
    obtain ⟨_, _, hc⟩ := id hgroup
    have hend := hlast _ (by rw [← List.cons_append, List.getLast?_concat]; rfl)
    rw [hc] at hend
    cases b with
    | round => simp [Bracket.closing] at hend
    | curly => exact .braces hgroup
    | square => simp [Bracket.closing] at hend

/-- Closed tokens are items of which the last may end a body. -/
theorem closed_iff_items {w : List Token} :
    Closed w ↔ ∃ items : List (List Token), items.flatten = w ∧ (∀ item ∈ items, Item item) ∧
      ∀ item ∈ items.getLast?, LastItem item := by
  constructor
  · intro h
    obtain ⟨items, rfl, hitems⟩ := exists_items_of_balanced h.balanced
    refine ⟨items, rfl, hitems, fun item hitem => ?_⟩
    obtain ⟨front, rfl⟩ := List.getLast?_eq_some_iff.mp hitem
    have hmem : Item item := hitems item (by simp)
    refine lastItem_of_getLast hmem fun t ht => h.last t ?_
    rw [List.flatten_append, List.flatten_singleton, List.getLast?_append, Option.mem_def.mp ht]
    rfl
  · rintro ⟨items, rfl, hitems, hlast⟩
    rcases List.eq_nil_or_concat items with rfl | ⟨front, item, rfl⟩
    · exact closed_nil
    · rw [List.concat_eq_append] at hitems hlast ⊢
      have hfront : Balanced front.flatten :=
        balanced_of_items fun i hi => hitems i (List.mem_append_left _ hi)
      rw [List.flatten_append, List.flatten_singleton]
      cases hlast item (by simp) with
      | semicolon ht => exact closed_semicolon hfront ht
      | braces hw => exact closed_enclosed hfront hw

/-- A block is a word of items between braces. -/
theorem bodyWord_of_block {w : List Token} {u : Unit} (h : Block w u) : BodyWord w := by
  obtain ⟨ht, hw, hu⟩ := h
  obtain ⟨items, rfl, hitems, hlast⟩ := closed_iff_items.mp (closed_of_block hw)
  exact .mk ht hitems hlast hu

/-! ## Blocks with other statements in front -/

/-- The rule for one statement, with the rules `stubs` before the others. -/
def statementAfter (stubs : List (Rule Unit)) (block : Rule Unit) : Rule Unit :=
  stubs.foldr (fun r s => r <|> s) (block <|> plainStatement <|> bracedStatement)

/-- Statements between braces, with the rules `stubs` before the others, here and in the blocks
inside. -/
def blockAfter (stubs : List (Rule Unit)) : Rule Unit :=
  recursive fun block => braced (statementAfter stubs block)

/-- The rule for blocks is the one with both of its own rules in front. -/
theorem block_eq_blockAfter : block = blockAfter [superCall, stubThrow] := rfl

/-- A statement looks at the tokens that are left only, if the rules in front do. -/
theorem local_statementAfter {stubs : List (Rule Unit)} (h : ∀ r ∈ stubs, Local r)
    (block : Rule Unit) [Local block] : Local (statementAfter stubs block) := by
  unfold statementAfter
  induction stubs with
  | nil =>
    rw [List.foldr_nil]
    infer_instance
  | cons r stubs ih =>
    obtain ⟨hr, hstubs⟩ := List.forall_mem_cons.mp h
    have := ih hstubs
    rw [List.foldr_cons]
    infer_instance

/-- Statements in front of others are statements. -/
theorem sound_statementAfter {stubs : List (Rule Unit)}
    (h : ∀ r ∈ stubs, Sound r (Statement Block)) {block : Rule Unit} (hB : Sound block Block) :
    Sound (statementAfter stubs block) (Statement Block) := by
  unfold statementAfter
  induction stubs with
  | nil => exact sound_anyStatement hB
  | cons r stubs ih =>
    obtain ⟨hr, hstubs⟩ := List.forall_mem_cons.mp h
    exact hr.orElse (ih hstubs)

/-- A statement is found whatever rules are tried in front. -/
theorem findsStatement_statementAfter (stubs : List (Rule Unit)) (block : Rule Unit) :
    FindsStatement (statementAfter stubs block) := by
  unfold statementAfter
  induction stubs with
  | nil => exact findsStatement_plainOrBraced.orElse block
  | cons r stubs ih => exact ih.orElse r

/-- Behind the last token no block begins. -/
theorem blockAfter_behind (stubs : List (Rule Unit)) {ts : Array Token} {i : Nat}
    (hi : ts.size ≤ i) : ∃ cause, blockAfter stubs ts i = .failure cause := by
  rw [blockAfter, recursive_eq, braced]
  exact between_behind .leftBrace _ _ hi

/-- Rules for statements of the grammar. -/
class StatementRules (stubs : List (Rule Unit)) : Prop where
  /-- They look at the tokens that are left only. -/
  local_of : ∀ r ∈ stubs, Local r
  /-- They take statements. -/
  sound : ∀ r ∈ stubs, Sound r (Statement Block)

instance : StatementRules [superCall, stubThrow] where
  local_of := by
    intro r hr
    simp only [List.mem_cons, List.not_mem_nil, or_false] at hr
    rcases hr with rfl | rfl
    · infer_instance
    · infer_instance
  sound := by
    intro r hr
    simp only [List.mem_cons, List.not_mem_nil, or_false] at hr
    rcases hr with rfl | rfl
    · exact sound_superCall
    · exact sound_stubThrow

/-- Some of the rules may be left out. -/
theorem StatementRules.sublist {stubs stubs' : List (Rule Unit)} [StatementRules stubs]
    (h : stubs'.Sublist stubs) : StatementRules stubs' where
  local_of r hr := StatementRules.local_of r (h.subset hr)
  sound r hr := StatementRules.sound r (h.subset hr)

section

variable (stubs : List (Rule Unit)) [StatementRules stubs]

instance (block : Rule Unit) [Local block] : Local (statementAfter stubs block) :=
  local_statementAfter StatementRules.local_of block

instance : Local (recursive fun block => braced (statementAfter stubs block)) :=
  local_recursive fun _ _ => inferInstance

instance : Local (blockAfter stubs) :=
  inferInstanceAs (Local (recursive _))

/-- What the rule for blocks takes is a block, whatever rules are tried in front. -/
theorem sound_blockAfter : Sound (blockAfter stubs) Block := by
  apply Sound.recursive
  intro block _ hB
  exact sound_braced (sound_statementAfter StatementRules.sound hB)

/-- The rule takes exactly the words of items between braces, whatever follows them. -/
theorem on_blockAfter_iff {l rest : List Token} :
    (blockAfter stubs).on l = some ((), rest) ↔ ∃ w, w ++ rest = l ∧ BodyWord w := by
  constructor
  · intro h
    obtain ⟨w, hw, hblock⟩ := sound_blockAfter stubs h
    exact ⟨w, hw, bodyWord_of_block hblock⟩
  · rintro ⟨w, rfl, @⟨t, u, items, ht, hitems, hlast, hu⟩⟩
    have hclosed := closed_iff_items.mpr ⟨items, rfl, hitems, hlast⟩
    rw [List.cons_append, List.append_assoc, List.singleton_append, blockAfter, on_recursive,
      ← blockAfter]
    have hinner := (sound_blockAfter stubs).below (t :: (items.flatten ++ u :: rest)).length
    exact on_braced (sound_statementAfter StatementRules.sound hinner)
      (findsStatement_statementAfter stubs _) hclosed ht hu rest

/-- At any index, the rule succeeds up to another exactly where a word of items between braces
stands between the two. -/
theorem blockAfter_iff (ts : Array Token) (i j : Nat) :
    (∃ alternative, blockAfter stubs ts i = .success () j alternative) ↔
      ∃ w rest, ts.toList.drop i = w ++ rest ∧ j = i + w.length ∧ BodyWord w := by
  rw [exists_success_iff_append_of_fails _ fun _ _ => blockAfter_behind stubs]
  constructor
  · rintro ⟨w, rest, hw, hj, hon⟩
    obtain ⟨v, hv, hbody⟩ := (on_blockAfter_iff stubs).mp hon
    obtain rfl := List.append_cancel_right hv
    exact ⟨v, rest, hw, hj, hbody⟩
  · rintro ⟨w, rest, hw, hj, hbody⟩
    exact ⟨w, rest, hw, hj, (on_blockAfter_iff stubs).mpr ⟨w, rfl, hbody⟩⟩

end

/-- **The language of bodies**: a block is read between two indices exactly where a brace stands,
with the brace that closes it, and the last item between the two, if there is one, is a semicolon
or a group in braces. Without the rules for the calls of a superclass and for the stub exception,
or without one of them, the same is read. -/
theorem block_reads_bodies (ts : Array Token) (i j : Nat) {stubs : List (Rule Unit)}
    (hstubs : stubs.Sublist [superCall, stubThrow]) :
    ((∃ alternative, block ts i = .success () j alternative) ↔
      ∃ w rest, ts.toList.drop i = w ++ rest ∧ j = i + w.length ∧ BodyWord w) ∧
    ((∃ alternative, blockAfter stubs ts i = .success () j alternative) ↔
      ∃ alternative, block ts i = .success () j alternative) := by
  have hblock := blockAfter_iff [superCall, stubThrow] ts i j
  rw [← block_eq_blockAfter] at hblock
  have := StatementRules.sublist hstubs
  exact ⟨hblock, (blockAfter_iff stubs ts i j).trans hblock.symm⟩

/-- The tokens of a body whose one item is a group in braces that holds no statement. -/
def innerGroup : Array Token :=
  #[⟨.symbol .leftBrace, "\x7b", ⟨1, 1⟩⟩, ⟨.symbol .leftBrace, "\x7b", ⟨1, 2⟩⟩,
    ⟨.identifier "a", "a", ⟨1, 3⟩⟩, ⟨.symbol .rightBrace, "\x7d", ⟨1, 4⟩⟩,
    ⟨.symbol .rightBrace, "\x7d", ⟨1, 5⟩⟩, ⟨.eof, "", ⟨1, 6⟩⟩]

/-- A body with a group in braces inside, read without rules in front. -/
theorem block_reads_bodies_innerGroup :
    ([] : List (Rule Unit)).Sublist [superCall, stubThrow] ∧
    ∃ alternative, blockAfter [] innerGroup 0 = .success () 5 alternative := by
  have hnone : ([] : List (Rule Unit)).Sublist [superCall, stubThrow] := List.nil_sublist _
  have hread := block_reads_bodies innerGroup 0 5 hnone
  have hinner : Balanced [⟨.identifier "a", "a", ⟨1, 3⟩⟩] := .plain rfl .nil
  have hgroup : Enclosed .curly ((innerGroup.toList.drop 1).take 3) () := .mk rfl hinner rfl
  have hitems : ∀ item ∈ [(innerGroup.toList.drop 1).take 3], Item item :=
    List.forall_mem_singleton.mpr (.group (.mk hgroup))
  have hlast : ∀ item ∈ [(innerGroup.toList.drop 1).take 3].getLast?, LastItem item := by
    intro item hitem
    cases hitem
    exact .braces hgroup
  have hbody : BodyWord (innerGroup.toList.take 5) := .mk rfl hitems hlast rfl
  exact ⟨hnone, hread.2.mpr (hread.1.mpr ⟨_, innerGroup.toList.drop 5, rfl, rfl, hbody⟩)⟩

end ApiSurface.Grammar
