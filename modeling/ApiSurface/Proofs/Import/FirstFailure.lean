import ApiSurface.Proofs.Grammar.FailurePlace
import ApiSurface.Proofs.Import.Declarations

/-!
# The first failure decides an import

An item of a source *fails* if it is no entry but an error, or if it is a stub source whose bytes
are no text, whose text has a fault, or whose tokens are no compile unit (`Fails`); it *passes*
otherwise. In the last two cases there is one diagnostic, at the fault or at the token that the
grammar fails at. One step of an import does one of two things: it ends the import with the error of
an item that fails, or it counts an item that passes and collects its package (`step_eq_error`,
`step_of_passes`). A run over items that pass therefore reaches what `Progress.behind` says,
whatever follows (`read_append`), and the first item that fails ends it there (`read_of_fails`).

Entries that are no stub sources are counted and otherwise passed over: without them a run takes the
same course (`read_filter`).
-/

namespace ApiSurface

/-! ## Items that fail and items that pass -/

/-- The item ends an import with the given error. -/
inductive Fails : Except ImportError Entry → ImportError → Prop
  /-- It is no entry but an error. -/
  | noEntry {cause : ImportError} : Fails (.error cause) cause
  /-- Its bytes are no text. -/
  | noText {entry : Entry} {fault : Text.Utf8.Fault} : entry.isSource = true →
      Text.Utf8.decode entry.contents = .error fault →
      Fails (.ok entry) (.notText entry.name fault)
  /-- Its text has a fault. -/
  | noTokens {entry : Entry} {text : String} {e : ScanError} : entry.isSource = true →
      Text.Utf8.decode entry.contents = .ok text → scan text = .error e →
      Fails (.ok entry) (.notSource entry.name [⟨.error, e.position, e.cause.summary⟩])
  /-- The grammar fails at one of its tokens. -/
  | noUnit {entry : Entry} {text : String} {tokens : List Token} {failure : Failure} {t : Token} :
      entry.isSource = true → Text.Utf8.decode entry.contents = .ok text →
      scan text = .ok tokens → Grammar.compileUnit tokens.toArray 0 = .failure failure →
      tokens[failure.index]? = some t →
      Fails (.ok entry) (.notSource entry.name [⟨.error, t.position, blame t failure.expected⟩])

/-- The item does not end an import. -/
def Passes (item : Except ImportError Entry) : Prop := ∀ cause, ¬ Fails item cause

/-- Whether the item is an entry that is no stub source. -/
def isPassedOver : Except ImportError Entry → Bool
  | .ok entry => !entry.isSource
  | .error _ => false

/-- Every item is passed over or not. -/
theorem countP_isPassedOver (items : List (Except ImportError Entry)) :
    items.countP (!isPassedOver ·) + items.countP isPassedOver = items.length := by
  rw [List.length_eq_countP_add_countP isPassedOver, Nat.add_comm]
  congr 2
  funext item
  cases isPassedOver item <;> rfl

/-- A stub source fails with the error of reading its package. -/
theorem fails_ok_iff {entry : Entry} (hsource : entry.isSource = true) {cause : ImportError} :
    Fails (.ok entry) cause ↔ entry.package = .error cause := by
  constructor
  · rintro (_ | ⟨_, hdecode⟩ | ⟨_, hdecode, hscan⟩ | ⟨_, hdecode, hscan, hrun, ht⟩)
    · rw [Entry.package, hdecode]
    · simp only [Entry.package, hdecode, CompileUnit.parse, hscan, ParseError.diagnostics,
        Diagnostic.ofScanError]
    · simp only [Entry.package, hdecode, parse_of_failure hscan hrun ht, ParseError.diagnostics]
  · intro h
    rw [Entry.package] at h
    rcases hdecode : Text.Utf8.decode entry.contents with fault | text
    · simp only [hdecode, Except.error.injEq] at h
      exact h ▸ .noText hsource hdecode
    · rcases hparse : CompileUnit.parse text with fault | unit
      · simp only [hdecode, hparse, Except.error.injEq] at h
        rcases hscan : scan text with e | tokens
        · rw [CompileUnit.parse, hscan] at hparse
          cases hparse
          exact h ▸ .noTokens hsource hdecode hscan
        · obtain ⟨failure, -, t, hrun, -, -, ht, -, rfl⟩ := exists_failure_of_parse hscan hparse
          exact h ▸ .noUnit hsource hdecode hscan hrun ht
      · simp [hdecode, hparse] at h

/-- An entry that gives a package does not end an import. -/
theorem passes_of_package {entry : Entry} {package : Package} (h : entry.package = .ok package) :
    Passes (.ok entry) := by
  intro cause hfails
  by_cases hsource : entry.isSource = true
  · rw [fails_ok_iff hsource, h] at hfails
    cases hfails
  · cases hfails with
    | noText hs => exact hsource hs
    | noTokens hs => exact hsource hs
    | noUnit hs => exact hsource hs

/-- An entry that is no stub source does not end an import. -/
theorem passes_of_passedOver {item : Except ImportError Entry} (h : isPassedOver item = true) :
    Passes item := by
  rintro cause (_ | ⟨hsource, _⟩ | ⟨hsource, _, _⟩ | ⟨hsource, _, _, _, _⟩)
  · cases h
  · simp [isPassedOver, hsource] at h
  · simp [isPassedOver, hsource] at h
  · simp [isPassedOver, hsource] at h

/-- Either all items pass, or there is a first one that fails. -/
theorem passes_or_first_failure (items : List (Except ImportError Entry)) :
    (∀ item ∈ items, Passes item) ∨
      ∃ before item rest cause, items = before ++ item :: rest ∧
        (∀ other ∈ before, Passes other) ∧ Fails item cause := by
  induction items with
  | nil => exact .inl fun item hmem => absurd hmem List.not_mem_nil
  | cons item more ih =>
    by_cases hitem : Passes item
    · rcases ih with hmore | ⟨before, other, rest, cause, rfl, hbefore, hother⟩
      · exact .inl (List.forall_mem_cons.mpr ⟨hitem, hmore⟩)
      · exact .inr ⟨item :: before, other, rest, cause, rfl,
          List.forall_mem_cons.mpr ⟨hitem, hbefore⟩, hother⟩
    · simp only [Passes, not_forall, not_not] at hitem
      obtain ⟨cause, hcause⟩ := hitem
      exact .inr ⟨[], item, more, cause, rfl, fun other hmem => absurd hmem List.not_mem_nil,
        hcause⟩

namespace Batch

/-! ## One step -/

/-- What has been read behind items that all pass. -/
def Progress.behind (p : Progress) (items : List (Except ImportError Entry)) : Progress where
  visited := p.visited + items.length
  parsed := p.parsed + items.countP (!isPassedOver ·)
  skipped := p.skipped + items.countP isPassedOver
  fragments := (items.filterMap parsed?).reverse ++ p.fragments

/-- A step fails if and only if its item ends the import, and for the same cause. -/
theorem step_eq_error {p : Progress} {item : Except ImportError Entry} {cause : ImportError} :
    p.step item = .error cause ↔ Fails item cause := by
  rcases item with other | entry
  · constructor
    · intro h
      cases h
      exact .noEntry
    · rintro ⟨⟩
      rfl
  · by_cases hsource : entry.isSource = true
    · rw [fails_ok_iff hsource, Progress.step, if_pos hsource]
      rcases entry.package with other | package
      · simp
      · simp
    · rw [Progress.step, if_neg hsource]
      constructor
      · intro h
        cases h
      · intro h
        have hpasses : Passes (.ok entry) := passes_of_passedOver (by simp [isPassedOver, hsource])
        exact absurd h (hpasses cause)

/-- A step over any other item gives the progress behind it. -/
theorem step_of_passes {p : Progress} {item : Except ImportError Entry} (h : Passes item) :
    p.step item = .ok (p.behind [item]) := by
  rcases item with cause | entry
  · exact absurd .noEntry (h cause)
  · by_cases hsource : entry.isSource = true
    · rcases hpackage : entry.package with cause | package
      · exact absurd ((fails_ok_iff hsource).mpr hpackage) (h cause)
      · simp [Progress.step, Progress.behind, hsource, hpackage, isPassedOver, parsed?_ok hsource,
          Except.toOption]
    · simp [Progress.step, Progress.behind, hsource, isPassedOver,
        parsed?_of_not_isSource (Bool.eq_false_iff.mpr hsource)]

/-! ## A run -/

/-- The progress behind some items is reached one item at a time. -/
theorem behind_cons (p : Progress) (item : Except ImportError Entry)
    (more : List (Except ImportError Entry)) :
    p.behind (item :: more) = (p.behind [item]).behind more := by
  have hfragments : (item :: more).filterMap parsed? =
      [item].filterMap parsed? ++ more.filterMap parsed? := by
    rw [← List.singleton_append, List.filterMap_append]
  have hcount : ∀ test : Except ImportError Entry → Bool,
      (item :: more).countP test = [item].countP test + more.countP test := by
    intro test
    rw [← List.singleton_append, List.countP_append]
  simp only [Progress.behind, hfragments, hcount, List.length_cons, List.length_nil,
    List.reverse_append, List.append_assoc, Progress.mk.injEq, and_true]
  omega

/-- Items that pass are read, whatever follows them. -/
theorem read_append {items : List (Except ImportError Entry)} (h : ∀ item ∈ items, Passes item)
    (p : Progress) (rest : List (Except ImportError Entry)) :
    p.read (items ++ rest) = (p.behind items).read rest ∧
      taken p (items ++ rest) = items.length + taken (p.behind items) rest := by
  induction items generalizing p with
  | nil => simp [Progress.behind]
  | cons item more ih =>
    have hstep := step_of_passes (p := p) (h item List.mem_cons_self)
    obtain ⟨hread, htaken⟩ := ih (fun other ho => h other (List.mem_cons_of_mem item ho))
      (p.behind [item])
    rw [behind_cons, List.cons_append]
    constructor
    · rw [Progress.read, hstep]
      exact hread
    · rw [taken, hstep]
      simp only [htaken, List.length_cons]
      omega

/-- Where no item ends the import all of them are read. -/
theorem read_of_passes {items : List (Except ImportError Entry)}
    (h : ∀ item ∈ items, Passes item) (p : Progress) :
    p.read items = .ok (p.behind items) ∧ taken p items = items.length := by
  have hrun := read_append h p []
  rw [List.append_nil] at hrun
  exact hrun

/-- The first item that fails ends a run, and nothing behind it is taken. -/
theorem read_of_fails {before : List (Except ImportError Entry)}
    (hbefore : ∀ other ∈ before, Passes other) {item : Except ImportError Entry}
    {cause : ImportError} (hitem : Fails item cause) (p : Progress)
    (rest : List (Except ImportError Entry)) :
    p.read (before ++ item :: rest) = .error cause ∧
      taken p (before ++ item :: rest) = before.length + 1 := by
  obtain ⟨hread, htaken⟩ := read_append hbefore p (item :: rest)
  have hstep : (p.behind before).step item = .error cause := step_eq_error.mpr hitem
  constructor
  · rw [hread, Progress.read, hstep]
  · rw [htaken, taken, hstep]

/-! ## Entries that are passed over -/

/-- The progress without the numbers of all entries and of those passed over. -/
def Progress.uncounted (p : Progress) : Progress := { p with visited := 0, skipped := 0 }

/-- Entries that are no stub sources only change how many were counted. -/
theorem uncounted_behind_filter (p : Progress) (items : List (Except ImportError Entry)) :
    (p.behind (items.filter (!isPassedOver ·))).uncounted = (p.behind items).uncounted := by
  have hparsed : (items.filter (!isPassedOver ·)).filterMap parsed? = items.filterMap parsed? := by
    rw [List.filterMap_filter]
    apply List.filterMap_congr
    rintro (cause | entry) _
    · rfl
    · by_cases hsource : entry.isSource = true
      · simp [isPassedOver, hsource]
      · simp [isPassedOver, hsource,
          parsed?_of_not_isSource (Bool.eq_false_iff.mpr hsource)]
  simp [Progress.uncounted, Progress.behind, hparsed, List.countP_filter]

/-- Entries that are passed over do not change the course of a run. -/
theorem read_filter (p : Progress) (items : List (Except ImportError Entry)) :
    (p.read (items.filter (!isPassedOver ·))).map Progress.uncounted =
      (p.read items).map Progress.uncounted := by
  rcases passes_or_first_failure items with hall | ⟨before, item, rest, cause, rfl, hbefore, hitem⟩
  · have hfilter : ∀ item ∈ items.filter (!isPassedOver ·), Passes item := fun item hmem =>
      hall item (List.mem_of_mem_filter hmem)
    rw [(read_of_passes hall p).1, (read_of_passes hfilter p).1]
    exact congrArg Except.ok (uncounted_behind_filter p items)
  · have hfilter : ∀ other ∈ before.filter (!isPassedOver ·), Passes other := fun other hmem =>
      hbefore other (List.mem_of_mem_filter hmem)
    have hstays : isPassedOver item = false := by
      by_contra hover
      exact passes_of_passedOver (eq_true_of_ne_false hover) cause hitem
    rw [List.filter_append, List.filter_cons_of_pos (by rw [hstays]; rfl),
      (read_of_fails hbefore hitem p rest).1, (read_of_fails hfilter hitem p _).1]

end Batch

/-! ## Whole imports -/

/-- The result of an import without the numbers of all entries and of those passed over. -/
def Imported.uncounted (r : Imported) : Imported :=
  { r with report := { r.report with entriesVisited := 0, entriesSkipped := 0 } }

/-- A result depends on those numbers in its report alone. -/
theorem uncounted_importEntries (s : Settings) (items : List (Except ImportError Entry)) :
    (importEntries s items).map Imported.uncounted =
      ((Batch.Progress.read {} items).map Batch.Progress.uncounted).map
        fun p => (p.finish s).uncounted := by
  rw [importEntries]
  rcases Batch.Progress.read {} items with cause | progress
  · rfl
  · rfl

/-- **The first failure decides an import.** If an item fails and all before it pass, the import
fails with the error of that item and takes no item behind it, whatever follows. If all items pass,
the import succeeds with the normal form of the packages of the stub sources, less those that the
settings leave out, and counts every item as read or as passed over. In both cases entries that are
no stub sources, whatever their contents, may come and go: nothing else than the numbers of all
entries and of those passed over can change. -/
theorem importEntries_first_failure (s : Settings) :
    (∀ (before rest : List (Except ImportError Entry)) (item : Except ImportError Entry)
        (cause : ImportError),
      (∀ other ∈ before, Passes other) → Fails item cause →
      importEntries s (before ++ item :: rest) = .error cause ∧
      entriesTaken (before ++ item :: rest) = before.length + 1) ∧
    (∀ items : List (Except ImportError Entry), (∀ item ∈ items, Passes item) →
      ∃ result, importEntries s items = .ok result ∧
        result.api =
          Api.normalize ((items.filterMap parsed?).filter fun p => !s.leavesOut p.name) ∧
        result.report.filesParsed + result.report.entriesSkipped = result.report.entriesVisited ∧
        result.report.entriesVisited = items.length ∧
        result.report.entriesSkipped = items.countP isPassedOver ∧
        entriesTaken items = items.length) ∧
    ∀ items items' : List (Except ImportError Entry),
      items.filter (!isPassedOver ·) = items'.filter (!isPassedOver ·) →
      (importEntries s items).map Imported.uncounted =
        (importEntries s items').map Imported.uncounted := by
  refine ⟨fun before rest item cause hbefore hitem => ?_, fun items hall => ?_,
    fun items items' hsame => ?_⟩
  · obtain ⟨hread, htaken⟩ := Batch.read_of_fails hbefore hitem {} rest
    refine ⟨?_, htaken⟩
    rw [importEntries, hread]
    rfl
  · obtain ⟨hread, htaken⟩ := Batch.read_of_passes hall {}
    refine ⟨(Batch.Progress.behind {} items).finish s, ?_, ?_, ?_, ?_, ?_, htaken⟩
    · rw [importEntries, hread]
      rfl
    · simp [Batch.Progress.finish, Batch.Progress.behind, Batch.kept]
    · simpa [Batch.Progress.finish, Batch.Progress.behind] using countP_isPassedOver items
    · simp [Batch.Progress.finish, Batch.Progress.behind]
    · simp [Batch.Progress.finish, Batch.Progress.behind]
  · rw [uncounted_importEntries, uncounted_importEntries, ← Batch.read_filter, hsame,
      Batch.read_filter]

/-- A stub source with a class whose superclass is missing. -/
def brokenEntry : Entry := ⟨"B.java", "class B extends\x7b\x7d".toUTF8⟩

/-- A stub source with a comment that has no end. -/
def openEntry : Entry := ⟨"O.java", "class O\x7b/*".toUTF8⟩

/-- The tokens of the class whose superclass is missing. -/
def brokenTokens : List Token :=
  [⟨.keyword .classKw, "class", ⟨1, 1⟩⟩, ⟨.identifier "B", "B", ⟨1, 7⟩⟩,
    ⟨.keyword .extendsKw, "extends", ⟨1, 9⟩⟩, ⟨.symbol .leftBrace, "\x7b", ⟨1, 16⟩⟩,
    ⟨.symbol .rightBrace, "\x7d", ⟨1, 17⟩⟩, ⟨.eof, "", ⟨1, 18⟩⟩]

/-- The grammar fails at the brace, where the superclass should stand. -/
theorem compileUnit_brokenTokens :
    Grammar.compileUnit brokenTokens.toArray 0 = .failure ⟨3, .one "identifier"⟩ := by
  decide +kernel

/-- The class without its superclass is refused at the brace. -/
theorem fails_brokenEntry : Fails (.ok brokenEntry)
    (.notSource "B.java" [⟨.error, ⟨1, 16⟩, "unexpected `\x7b`, expected identifier"⟩]) := by
  have hdecode : Text.Utf8.decode brokenEntry.contents = .ok "class B extends\x7b\x7d" := by
    decide +kernel
  have hscan : scan "class B extends\x7b\x7d" = .ok brokenTokens := by decide +kernel
  exact .noUnit (by decide) hdecode hscan compileUnit_brokenTokens rfl

/-- The comment without an end is refused where it begins. -/
theorem fails_openEntry : Fails (.ok openEntry)
    (.notSource "O.java" [⟨.error, ⟨1, 9⟩, "unterminated block comment"⟩]) := by
  have hdecode : Text.Utf8.decode openEntry.contents = .ok "class O\x7b/*" := by decide +kernel
  have hscan : scan "class O\x7b/*" = .error ⟨.openComment, ⟨1, 9⟩⟩ := by decide +kernel
  exact .noTokens (by decide) hdecode hscan

/-- All entries of the batch with nested types pass. -/
theorem passes_nestedBatch : ∀ item ∈ nestedBatch, Passes item := by
  rw [nestedBatch, List.forall_mem_cons, List.forall_mem_cons, List.forall_mem_singleton]
  exact ⟨passes_of_package package_nestedEntry, passes_of_package package_supportEntry,
    passes_of_passedOver (by decide)⟩

/-- A class without its superclass and a comment without an end, behind files that pass. -/
theorem importEntries_first_failure_brokenEntry :
    (importEntries { frameworkOnly := true }
        (nestedBatch ++ .ok brokenEntry :: [.ok openEntry, .error (.badDirectory "stubs")]) =
          .error (.notSource "B.java"
            [⟨.error, ⟨1, 16⟩, "unexpected `\x7b`, expected identifier"⟩]) ∧
      entriesTaken (nestedBatch ++
        .ok brokenEntry :: [.ok openEntry, .error (.badDirectory "stubs")]) = 4) ∧
    importEntries { frameworkOnly := true } (nestedBatch ++ .ok openEntry :: [.ok brokenEntry]) =
      .error (.notSource "O.java" [⟨.error, ⟨1, 9⟩, "unterminated block comment"⟩]) ∧
    (∃ result, importEntries { frameworkOnly := true } nestedBatch = .ok result ∧
      result.api = Api.normalize [⟨"", [nestingClass]⟩] ∧ result.report.entriesSkipped = 1) ∧
    (importEntries { frameworkOnly := true }
        [.ok nestedEntry, .ok notesEntry, .ok supportEntry, .ok notesEntry]).map
          Imported.uncounted =
      (importEntries { frameworkOnly := true } nestedBatch).map Imported.uncounted := by
  have hkept : ([⟨"", [nestingClass]⟩, supportPackage].filter fun p =>
      !({ frameworkOnly := true } : Settings).leavesOut p.name) = [⟨"", [nestingClass]⟩] := by
    rfl
  refine ⟨?_, ?_, ?_, ?_⟩
  · exact (importEntries_first_failure _).1 _ _ _ _ passes_nestedBatch fails_brokenEntry
  · exact ((importEntries_first_failure _).1 _ _ _ _ passes_nestedBatch fails_openEntry).1
  · obtain ⟨result, himport, hapi, -, -, hskipped, -⟩ :=
      (importEntries_first_failure { frameworkOnly := true }).2.1 _ passes_nestedBatch
    rw [filterMap_parsed?_nestedBatch, hkept] at hapi
    exact ⟨result, himport, hapi, hskipped⟩
  · exact (importEntries_first_failure _).2.2 _ _ rfl

end ApiSurface
