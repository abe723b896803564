import GeneralSearch.Ranked.TextIndex
import GeneralSearch.Query.Planner
import GeneralSearch.Lib.Exec

/-! `RankedSearchInput`: a ranked request is analyzed and bound to the text indexes of one snapshot.
The constructors of the normalized nodes check what the planner relies on; an input carries these
facts as a field. -/

namespace GeneralSearch.Ranked

open GeneralSearch.Index GeneralSearch.Planner GeneralSearch.Storage

/-- The exceptions of a ranked search; `analyzer` is whatever an analyzer throws. -/
inductive Failure where
  | illegalArgument (message : String)
  | illegalState (message : String)
  | cursor (reason : String)
  | nullPointer
  | indexOutOfBounds
  | arithmetic
  | analyzer
  deriving DecidableEq, Repr

/-- Scores with their arithmetic: `ScoreArithmetic`, the formulas of `Bm25Scorer`, the mean document
length of a total and a count, and the similarity of a term at an edit distance.  The checks that a
score is finite and not negative are left out with the numbers. -/
structure Scoring (Score : Type) where
  Config : Type
  zero : Score
  add : Score → Score → Score
  multiply : Score → Score → Score
  mean : ℕ → ℕ → Score
  inverseDocumentFrequency : ℕ → ℕ → Score
  normalization : Config → Score → ℕ → Score
  termScore : Score → ℕ → Config → Score → Score
  similarity : ℕ → ℕ → Score

/-! ### Queries -/

/-- `AnalyzedToken`. -/
structure AnalyzedToken where
  term : JString
  positionIncrement : ℕ
  nonempty : term ≠ []

variable {T : Type} {S : Schema T} {Score : Type}

/-- The names of the text fields and their analyzers; `none` stands for `null`. -/
structure TextFields (S : Schema T) where
  name : S.TextField → String
  analyzeWithPositions : S.TextField → JString →
    Except Failure (Option (List (Option AnalyzedToken)))

inductive SearchLeafKind where
  | text
  | phrase
  | fuzzy
  deriving DecidableEq, Repr

/-- `SearchQueryNode`. -/
inductive SearchQueryNode (S : Schema T) (Score : Type) where
  | leaf (kind : SearchLeafKind) (field : S.TextField) (text : JString) (slop : ℕ)
  | bool (must should : List (SearchQueryNode S Score)) (minimumShouldMatch : Option ℕ)
  | boost (query : SearchQueryNode S Score) (multiplier : Score)

/-- `SearchRequest`; `identity` says which of the request objects it is. -/
structure SearchRequest (S : Schema T) (ops : Scoring Score) where
  query : SearchQueryNode S Score
  filter : Option (Query S)
  limit : ℕ
  bm25 : ops.Config
  identity : ℕ
  limit_pos : 0 < limit

/-! ### Snapshots -/

def IndexSnapshot.isText : IndexSnapshot S → Bool
  | .text .. => true
  | _ => false

/-- An index of the registry, a text index with all that ranked search reads of it. -/
inductive RankedIndex (S : Schema T) where
  | text (textField : S.TextField) (index : TextIndexSnapshot)
  | other (index : IndexSnapshot S) (notText : IndexSnapshot.isText index = false)

/-- The dictionary with other values under its keys. -/
def mapValues {K V W : Type} (f : V → W) : AvlNode K V → AvlNode K W
  | .leaf => .leaf
  | .node key value left right weight aggregateWeight height size =>
    .node key (f value) (mapValues f left) (mapValues f right) weight aggregateWeight height size

/-- The index as the candidate planner reads it. -/
def RankedIndex.toIndexSnapshot : RankedIndex S → IndexSnapshot S
  | .text textField index =>
    .text textField (mapValues PostingList.documents index.postings) index.indexedDocumentCount
  | .other index _ => index

/-- The snapshot as the candidate planner reads it. -/
def structured (snapshot : SearchSnapshot T (RankedIndex S)) : SearchSnapshot T (IndexSnapshot S) :=
  { snapshot with indexes := snapshot.indexes.map RankedIndex.toIndexSnapshot }

/-- The indexes show the documents, and the dictionaries of the text indexes their terms. -/
structure Synced (snapshot : SearchSnapshot T (RankedIndex S)) : Prop where
  structured : InSync (structured snapshot)
  spelled : ∀ field index, .text field index ∈ snapshot.indexes → index.Spelled

/-! ### Analysis -/

/-- `invalidAnalysis`. -/
def invalidAnalysis (fields : TextFields S) (field : S.TextField) (detail : String) : Failure :=
  .illegalArgument ("Analyzer for text field '" ++ fields.name field ++ "' " ++ detail)

/-- `PositionedTerm`. -/
structure PositionedTerm where
  term : JString
  logicalPosition : ℕ
  deriving DecidableEq, Repr

/-- The loop of `analyze`; `advanced` is one more than its `logicalPosition`, which starts at
`-1`. -/
def positionedTerms (fields : TextFields S) (field : S.TextField) :
    ℕ → ℕ → List (Option AnalyzedToken) → Except Failure (List PositionedTerm)
  | _, _, [] => .ok []
  | index, _, none :: _ =>
    .error (invalidAnalysis fields field ("returned a null token at index " ++ toString index))
  | index, advanced, some token :: rest =>
    if index = 0 ∧ token.positionIncrement < 1 then
      .error (invalidAnalysis fields field "returned a non-positive first position increment")
    else if advanced + token.positionIncrement - 1 > 2147483647 then
      .error (invalidAnalysis fields field
        ("overflowed logical position at token index " ++ toString index))
    else do
      let terms ← positionedTerms fields field (index + 1) (advanced + token.positionIncrement) rest
      return ⟨token.term, advanced + token.positionIncrement - 1⟩ :: terms

/-- `LinkedHashSet.add`. -/
def linkedAdd (terms : List JString) (term : JString) : List JString :=
  if term ∈ terms then terms else terms ++ [term]

/-- `PositionedAnalysis`. -/
structure PositionedAnalysis where
  occurrences : List PositionedTerm
  distinctTerms : List JString

/-- `RankedSearchInput.analyze`. -/
def analyze (fields : TextFields S) (field : S.TextField) (text : JString) :
    Except Failure PositionedAnalysis := do
  match ← fields.analyzeWithPositions field text with
  | none => throw (invalidAnalysis fields field "returned a null token list")
  | some tokens =>
    let occurrences ← positionedTerms fields field 0 0 tokens
    return ⟨occurrences, (occurrences.map (·.term)).foldl linkedAdd []⟩

/-- `PhraseSlot`. -/
structure PhraseSlot where
  relativePosition : ℕ
  alternatives : List JString
  deriving DecidableEq, Repr

/-- The loop of `phraseSlots` once its first occurrence has opened a slot. -/
def slotsFrom (firstPosition currentRelativePosition : ℕ) (alternatives : List JString) :
    List PositionedTerm → List PhraseSlot
  | [] => [⟨currentRelativePosition, alternatives⟩]
  | occurrence :: rest =>
    let relativePosition := occurrence.logicalPosition - firstPosition
    if relativePosition ≠ currentRelativePosition then
      ⟨currentRelativePosition, alternatives⟩ ::
        slotsFrom firstPosition relativePosition [occurrence.term] rest
    else slotsFrom firstPosition currentRelativePosition (linkedAdd alternatives occurrence.term) rest

/-- `RankedSearchInput.phraseSlots`. -/
def phraseSlots : List PositionedTerm → List PhraseSlot
  | [] => []
  | occurrence :: rest => slotsFrom occurrence.logicalPosition 0 [occurrence.term] rest

/-! ### Normalized nodes -/

/-- `NormalizedScoringNode`. -/
inductive NormalizedScoringNode (S : Schema T) (Score : Type) where
  | text (textField : S.TextField) (frozenTerms : List JString)
      (textIndex : Option TextIndexSnapshot)
  | phrase (textField : S.TextField) (slots : List PhraseSlot) (scoringTerms : List JString)
      (textIndex : Option TextIndexSnapshot) (slop : ℕ)
  | fuzzy (textField : S.TextField) (normalizedTerm : Option JString)
      (textIndex : Option TextIndexSnapshot)
  | bool (must should : List (NormalizedScoringNode S Score)) (minimumShouldMatch : ℕ)
  | boost (child : NormalizedScoringNode S Score) (multiplier : Score)

/-- `requireTextIndex`: the first text index of the field. -/
def requireTextIndex (fields : TextFields S) (snapshot : SearchSnapshot T (RankedIndex S))
    (field : S.TextField) : Except Failure TextIndexSnapshot :=
  match snapshot.indexes.findSome? fun index => match index with
    | .text textField index => if textField = field then some index else none
    | .other .. => none with
  | some index => .ok index
  | none => .error (.illegalState
      ("ranked search requires the canonical text index: " ++ fields.name field))

/-- A text index is required only by a node that reads it. -/
def textIndexFor (fields : TextFields S) (snapshot : SearchSnapshot T (RankedIndex S))
    (field : S.TextField) (needed : Bool) : Except Failure (Option TextIndexSnapshot) :=
  if needed then some <$> requireTextIndex fields snapshot field else .ok none

/-- `new NormalizedBoolNode`. -/
def normalizedBool (must should : List (NormalizedScoringNode S Score)) (minimumShouldMatch : ℕ) :
    Except Failure (NormalizedScoringNode S Score) :=
  if should.length < minimumShouldMatch then
    .error (.illegalArgument "minimumShouldMatch must be within the SHOULD clause count")
  else if minimumShouldMatch = 0 ∧ must.isEmpty then
    .error (.illegalArgument "minimumShouldMatch zero requires at least one MUST clause")
  else .ok (.bool must should minimumShouldMatch)

section

variable [LinearOrder Score]

/-- `new NormalizedBoostNode`. -/
def normalizedBoost (ops : Scoring Score) (child : NormalizedScoringNode S Score)
    (multiplier : Score) : Except Failure (NormalizedScoringNode S Score) :=
  if multiplier ≤ ops.zero then
    .error (.illegalArgument "boost must be finite and positive")
  else .ok (.boost child multiplier)

/-- The leaves of `RankedSearchInput.normalize`: `normalizedText`, `normalizedPhrase` and
`normalizedFuzzy`. -/
def normalizeLeaf (fields : TextFields S) (snapshot : SearchSnapshot T (RankedIndex S))
    (kind : SearchLeafKind) (field : S.TextField) (analysis : PositionedAnalysis) (slop : ℕ) :
    Except Failure (NormalizedScoringNode S Score) :=
  match kind with
  | .text => do
    let textIndex ← textIndexFor fields snapshot field (!analysis.distinctTerms.isEmpty)
    return .text field analysis.distinctTerms textIndex
  | .phrase => do
    let slots := phraseSlots analysis.occurrences
    let textIndex ← textIndexFor fields snapshot field (!slots.isEmpty)
    return .phrase field slots analysis.distinctTerms textIndex slop
  | .fuzzy => do
    let tokenCount := analysis.occurrences.length
    if tokenCount > 1 then
      throw (invalidAnalysis fields field ("returned " ++ toString tokenCount ++
        " tokens for a fuzzy query; exactly one is required"))
    let normalizedTerm := analysis.occurrences.head?.map (·.term)
    let textIndex ← textIndexFor fields snapshot field normalizedTerm.isSome
    return .fuzzy field normalizedTerm textIndex

mutual

/-- `RankedSearchInput.normalize`. -/
def normalize (fields : TextFields S) (ops : Scoring Score)
    (snapshot : SearchSnapshot T (RankedIndex S)) :
    SearchQueryNode S Score → Except Failure (NormalizedScoringNode S Score)
  | .leaf kind field text slop => do
    normalizeLeaf fields snapshot kind field (← analyze fields field text) slop
  | .bool must should minimumShouldMatch => do
    let must ← normalizeEach fields ops snapshot must
    let should ← normalizeEach fields ops snapshot should
    normalizedBool must should (minimumShouldMatch.getD (if must.isEmpty then 1 else 0))
  | .boost query multiplier => do
    normalizedBoost ops (← normalize fields ops snapshot query) multiplier

def normalizeEach (fields : TextFields S) (ops : Scoring Score)
    (snapshot : SearchSnapshot T (RankedIndex S)) :
    List (SearchQueryNode S Score) → Except Failure (List (NormalizedScoringNode S Score))
  | [] => .ok []
  | query :: rest => do
    return (← normalize fields ops snapshot query) :: (← normalizeEach fields ops snapshot rest)

end

end

mutual

/-- `containsNonEmptyScoringLeaf`. -/
def containsNonEmptyScoringLeaf : NormalizedScoringNode S Score → Bool
  | .text _ frozenTerms _ => !frozenTerms.isEmpty
  | .phrase _ slots _ _ _ => !slots.isEmpty
  | .fuzzy _ normalizedTerm _ => normalizedTerm.isSome
  | .bool must should _ => anyNonEmptyScoringLeaf must || anyNonEmptyScoringLeaf should
  | .boost child _ => containsNonEmptyScoringLeaf child

def anyNonEmptyScoringLeaf : List (NormalizedScoringNode S Score) → Bool
  | [] => false
  | child :: rest => containsNonEmptyScoringLeaf child || anyNonEmptyScoringLeaf rest

end

/-! ### Prepared nodes -/

section

variable {fields : TextFields S} {snapshot : SearchSnapshot T (RankedIndex S)}

/-- The positions start at zero and increase, and every slot has an alternative. -/
structure Slots (slots : List PhraseSlot) : Prop where
  first : ∀ slot, slots.head? = some slot → slot.relativePosition = 0
  increasing : slots.Pairwise fun a b => a.relativePosition < b.relativePosition
  nonempty : ∀ slot ∈ slots, slot.alternatives ≠ []

/-- The text index is that of the field in the snapshot. -/
def Reads (snapshot : SearchSnapshot T (RankedIndex S)) (field : S.TextField)
    (textIndex : Option TextIndexSnapshot) : Prop :=
  ∃ index, textIndex = some index ∧ .text field index ∈ snapshot.indexes

mutual

/-- What the constructors of the normalized nodes have checked. -/
def Prepared [LinearOrder Score] (ops : Scoring Score)
    (snapshot : SearchSnapshot T (RankedIndex S)) : NormalizedScoringNode S Score → Prop
  | .text textField frozenTerms textIndex =>
    (frozenTerms ≠ [] → Reads snapshot textField textIndex) ∧ ∀ term ∈ frozenTerms, term ≠ []
  | .phrase textField slots scoringTerms textIndex _ =>
    (slots ≠ [] → Reads snapshot textField textIndex) ∧ Slots slots ∧
      ∀ term ∈ scoringTerms, term ≠ [] ∧ ∃ slot ∈ slots, term ∈ slot.alternatives
  | .fuzzy textField normalizedTerm textIndex => ∀ term, normalizedTerm = some term →
    term ≠ [] ∧ Reads snapshot textField textIndex
  | .bool must should minimumShouldMatch =>
    AllPrepared ops snapshot must ∧ AllPrepared ops snapshot should ∧
      minimumShouldMatch ≤ should.length ∧ (minimumShouldMatch = 0 → must ≠ [])
  | .boost child multiplier => Prepared ops snapshot child ∧ ops.zero < multiplier

def AllPrepared [LinearOrder Score] (ops : Scoring Score)
    (snapshot : SearchSnapshot T (RankedIndex S)) : List (NormalizedScoringNode S Score) → Prop
  | [] => True
  | child :: rest => Prepared ops snapshot child ∧ AllPrepared ops snapshot rest

end

theorem mem_linkedAdd {terms : List JString} {term t : JString} :
    t ∈ linkedAdd terms term ↔ t ∈ terms ∨ t = term := by
  unfold linkedAdd
  split
  · rename_i h
    exact ⟨.inl, fun ht => ht.elim id fun heq => heq ▸ h⟩
  · rw [List.mem_append, List.mem_singleton]

theorem mem_foldl_linkedAdd {terms added : List JString} {t : JString} :
    t ∈ terms.foldl linkedAdd added ↔ t ∈ added ∨ t ∈ terms := by
  induction terms generalizing added with
  | nil => simp
  | cons term rest ih => rw [List.foldl_cons, ih, mem_linkedAdd, List.mem_cons, or_assoc]

/-- Logical positions never go back. -/
theorem positionedTerms_ordered {field : S.TextField} {index advanced : ℕ}
    {tokens : List (Option AnalyzedToken)} {terms : List PositionedTerm}
    (h : positionedTerms fields field index advanced tokens = .ok terms)
    (hindex : index ≠ 0 → advanced ≠ 0) :
    (∀ o ∈ terms, advanced ≤ o.logicalPosition + 1 ∧ o.term ≠ []) ∧
      terms.Pairwise fun a b => a.logicalPosition ≤ b.logicalPosition := by
  induction tokens generalizing index advanced terms with
  | nil =>
    cases h
    exact ⟨nofun, .nil⟩
  | cons token rest ih =>
    cases token with
    | none => cases h
    | some token =>
      rw [positionedTerms] at h
      split at h
      · cases h
      rename_i hfirst
      split at h
      · cases h
      obtain ⟨later, hlater, hterms⟩ := Lib.bind_eq_ok.mp h
      cases hterms
      have hadvanced : advanced + token.positionIncrement ≠ 0 := by
        by_cases hzero : index = 0
        · omega
        · have := hindex hzero
          omega
      obtain ⟨hbound, hordered⟩ := ih hlater fun _ => hadvanced
      refine ⟨List.forall_mem_cons.mpr ⟨⟨by dsimp only; omega, token.nonempty⟩, fun o ho => ?_⟩,
        List.pairwise_cons.mpr ⟨fun o ho => ?_, hordered⟩⟩
      · have := (hbound o ho).1
        exact ⟨by omega, (hbound o ho).2⟩
      · have := (hbound o ho).1
        dsimp only
        omega

/-- The slots that a run of occurrences opens. -/
theorem slotsFrom_slots (firstPosition current : ℕ) (alternatives : List JString)
    {occurrences : List PositionedTerm} (halternatives : alternatives ≠ [])
    (hbound : ∀ o ∈ occurrences, firstPosition + current ≤ o.logicalPosition)
    (hordered : occurrences.Pairwise fun a b => a.logicalPosition ≤ b.logicalPosition) :
    let slots := slotsFrom firstPosition current alternatives occurrences
    (∃ first, slots.head? = some first ∧ first.relativePosition = current) ∧
      (∀ slot ∈ slots, current ≤ slot.relativePosition ∧ slot.alternatives ≠ []) ∧
      slots.Pairwise (fun a b => a.relativePosition < b.relativePosition) ∧
      ∀ term, (term ∈ alternatives ∨ ∃ o ∈ occurrences, o.term = term) →
        ∃ slot ∈ slots, term ∈ slot.alternatives := by
  induction occurrences generalizing current alternatives with
  | nil =>
    refine ⟨⟨_, rfl, rfl⟩, ?_, List.pairwise_singleton _ _, fun term hterm => ?_⟩
    · intro slot hslot
      rw [List.mem_singleton.mp hslot]
      exact ⟨Nat.le_refl _, halternatives⟩
    · rcases hterm with hterm | ⟨o, ho, -⟩
      · exact ⟨_, List.mem_singleton_self _, hterm⟩
      · cases ho
  | cons o rest ih =>
    obtain ⟨ho, hrest⟩ := List.forall_mem_cons.mp hbound
    obtain ⟨hle, hordered⟩ := List.pairwise_cons.mp hordered
    unfold slotsFrom
    dsimp only
    split
    · -- A new position closes the slot that is open.
      rename_i hne
      obtain ⟨-, hslots, hincreasing, hterms⟩ :=
        ih (o.logicalPosition - firstPosition) [o.term] (by simp)
          (fun o' ho' => by have := hle o' ho'; omega) hordered
      refine ⟨⟨_, rfl, rfl⟩, ?_, List.pairwise_cons.mpr ⟨fun slot hslot => ?_, hincreasing⟩,
        fun term hterm => ?_⟩
      · refine List.forall_mem_cons.mpr ⟨⟨Nat.le_refl _, halternatives⟩, fun slot hslot => ?_⟩
        have := (hslots slot hslot).1
        exact ⟨by omega, (hslots slot hslot).2⟩
      · have := (hslots slot hslot).1
        dsimp only
        omega
      · rcases hterm with hterm | ⟨o', ho', rfl⟩
        · exact ⟨_, List.mem_cons_self, hterm⟩
        · rcases List.mem_cons.mp ho' with rfl | ho'
          · obtain ⟨slot, hslot, hmem⟩ := hterms o'.term (.inl (by simp))
            exact ⟨slot, List.mem_cons_of_mem _ hslot, hmem⟩
          · obtain ⟨slot, hslot, hmem⟩ := hterms o'.term (.inr ⟨o', ho', rfl⟩)
            exact ⟨slot, List.mem_cons_of_mem _ hslot, hmem⟩
    · have hadded : linkedAdd alternatives o.term ≠ [] := by
        intro hnil
        have hmem : o.term ∈ linkedAdd alternatives o.term := mem_linkedAdd.mpr (.inr rfl)
        rw [hnil] at hmem
        cases hmem
      obtain ⟨hfirst, hslots, hincreasing, hterms⟩ := ih current _ hadded hrest hordered
      refine ⟨hfirst, hslots, hincreasing, fun term hterm => hterms term ?_⟩
      rcases hterm with hterm | ⟨o', ho', rfl⟩
      · exact .inl (mem_linkedAdd.mpr (.inl hterm))
      · rcases List.mem_cons.mp ho' with rfl | ho'
        · exact .inl (mem_linkedAdd.mpr (.inr rfl))
        · exact .inr ⟨o', ho', rfl⟩

theorem phraseSlots_slots {occurrences : List PositionedTerm}
    (hordered : occurrences.Pairwise fun a b => a.logicalPosition ≤ b.logicalPosition) :
    Slots (phraseSlots occurrences) ∧
      ∀ o ∈ occurrences, ∃ slot ∈ phraseSlots occurrences, o.term ∈ slot.alternatives := by
  cases occurrences with
  | nil => exact ⟨⟨nofun, .nil, nofun⟩, nofun⟩
  | cons o rest =>
    obtain ⟨hle, hordered⟩ := List.pairwise_cons.mp hordered
    obtain ⟨⟨first, hfirst, hzero⟩, hslots, hincreasing, hterms⟩ :=
      slotsFrom_slots o.logicalPosition 0 [o.term] (by simp) hle hordered
    refine ⟨⟨fun slot hslot => ?_, hincreasing, fun slot hslot => (hslots slot hslot).2⟩,
      fun o' ho' => hterms o'.term ?_⟩
    · rw [phraseSlots, hfirst] at hslot
      cases hslot
      exact hzero
    · rcases List.mem_cons.mp ho' with rfl | ho'
      · exact .inl (by simp)
      · exact .inr ⟨o', ho', rfl⟩

theorem textIndexFor_reads {field : S.TextField} {needed : Bool}
    {textIndex : Option TextIndexSnapshot}
    (h : textIndexFor fields snapshot field needed = .ok textIndex) (hneeded : needed = true) :
    Reads snapshot field textIndex := by
  subst hneeded
  unfold textIndexFor requireTextIndex at h
  rw [if_pos rfl] at h
  split at h
  · rename_i index hfind
    cases h
    obtain ⟨candidate, hcandidate, hindex⟩ := List.exists_of_findSome?_eq_some hfind
    cases candidate with
    | text textField index' =>
      simp only [Option.ite_none_right_eq_some, Option.some.injEq] at hindex
      obtain ⟨rfl, rfl⟩ := hindex
      exact ⟨_, rfl, hcandidate⟩
    | other => cases hindex
  · cases h

variable [LinearOrder Score] {ops : Scoring Score}

theorem analyze_occurrences {field : S.TextField} {text : JString} {analysis : PositionedAnalysis}
    (h : analyze fields field text = .ok analysis) :
    (∀ o ∈ analysis.occurrences, o.term ≠ []) ∧
      (analysis.occurrences.Pairwise fun a b => a.logicalPosition ≤ b.logicalPosition) ∧
      ∀ term ∈ analysis.distinctTerms, ∃ o ∈ analysis.occurrences, o.term = term := by
  obtain ⟨tokens, -, h⟩ := Lib.bind_eq_ok.mp h
  cases tokens with
  | none => cases h
  | some tokens =>
    obtain ⟨occurrences, hoccurrences, h⟩ := Lib.bind_eq_ok.mp h
    cases h
    obtain ⟨hterms, hordered⟩ := positionedTerms_ordered hoccurrences (absurd rfl)
    refine ⟨fun o ho => (hterms o ho).2, hordered, fun term hterm => ?_⟩
    have hmem := (mem_foldl_linkedAdd.mp hterm).resolve_left List.not_mem_nil
    exact List.mem_map.mp hmem

theorem normalizeLeaf_prepared {kind : SearchLeafKind} {field : S.TextField} {text : JString}
    {analysis : PositionedAnalysis} (hanalysis : analyze fields field text = .ok analysis)
    {slop : ℕ} {node : NormalizedScoringNode S Score}
    (h : normalizeLeaf fields snapshot kind field analysis slop = .ok node) :
    Prepared ops snapshot node := by
  obtain ⟨hterms, hordered, hdistinct⟩ := analyze_occurrences hanalysis
  cases kind with
  | text =>
    obtain ⟨textIndex, hindex, h⟩ := Lib.bind_eq_ok.mp h
    cases h
    refine ⟨fun hne => textIndexFor_reads hindex (by simpa using hne), fun term hterm => ?_⟩
    obtain ⟨o, ho, rfl⟩ := hdistinct term hterm
    exact hterms o ho
  | phrase =>
    obtain ⟨textIndex, hindex, h⟩ := Lib.bind_eq_ok.mp h
    cases h
    obtain ⟨hslots, hcovered⟩ := phraseSlots_slots hordered
    refine ⟨fun hne => textIndexFor_reads hindex (by simpa using hne), hslots,
      fun term hterm => ?_⟩
    obtain ⟨o, ho, rfl⟩ := hdistinct term hterm
    exact ⟨hterms o ho, hcovered o ho⟩
  | fuzzy =>
    unfold normalizeLeaf at h
    dsimp only at h
    split at h
    · cases h
    obtain ⟨textIndex, hindex, h⟩ := Lib.bind_eq_ok.mp h
    cases h
    intro term hterm
    obtain ⟨o, ho, rfl⟩ := Option.map_eq_some_iff.mp hterm
    exact ⟨hterms o (List.mem_of_mem_head? ho), textIndexFor_reads hindex (by rw [hterm]; rfl)⟩

mutual

/-- What `normalize` returns has passed the checks of its nodes. -/
theorem normalize_prepared : ∀ {query : SearchQueryNode S Score}
    {node : NormalizedScoringNode S Score}, normalize fields ops snapshot query = .ok node →
    Prepared ops snapshot node
  | .leaf kind field text slop, node, h => by
    rw [normalize] at h
    obtain ⟨analysis, hanalysis, h⟩ := Lib.bind_eq_ok.mp h
    exact normalizeLeaf_prepared hanalysis h
  | .bool must should minimumShouldMatch, node, h => by
    rw [normalize] at h
    obtain ⟨must', hmust, h⟩ := Lib.bind_eq_ok.mp h
    obtain ⟨should', hshould, h⟩ := Lib.bind_eq_ok.mp h
    generalize minimumShouldMatch.getD _ = minimum at h
    unfold normalizedBool at h
    split at h
    · cases h
    split at h
    · cases h
    rename_i hle hzero
    cases h
    refine ⟨normalizeEach_prepared hmust, normalizeEach_prepared hshould, by omega,
      fun hmin hnil => hzero ⟨hmin, ?_⟩⟩
    rw [hnil]
    rfl
  | .boost query multiplier, node, h => by
    rw [normalize] at h
    obtain ⟨child, hchild, h⟩ := Lib.bind_eq_ok.mp h
    unfold normalizedBoost at h
    split at h
    · cases h
    rename_i hpositive
    cases h
    exact ⟨normalize_prepared hchild, not_le.mp hpositive⟩

theorem normalizeEach_prepared : ∀ {queries : List (SearchQueryNode S Score)}
    {nodes : List (NormalizedScoringNode S Score)},
    normalizeEach fields ops snapshot queries = .ok nodes → AllPrepared ops snapshot nodes
  | [], nodes, h => by
    rw [normalizeEach] at h
    cases h
    trivial
  | query :: rest, nodes, h => by
    rw [normalizeEach] at h
    obtain ⟨node, hnode, h⟩ := Lib.bind_eq_ok.mp h
    obtain ⟨others, hothers, h⟩ := Lib.bind_eq_ok.mp h
    cases h
    exact ⟨normalize_prepared hnode, normalizeEach_prepared hothers⟩

end

end

/-! ### The input -/

/-- `RankedSearchInput`. -/
structure RankedSearchInput (S : Schema T) [LinearOrder Score] (ops : Scoring Score) where
  snapshot : SearchSnapshot T (RankedIndex S)
  root : NormalizedScoringNode S Score
  filter : Option (Query S)
  limit : ℕ
  config : ops.Config
  hasNonEmptyScoringLeaf : Bool
  limit_pos : 0 < limit
  prepared : Prepared ops snapshot root
  hasNonEmptyScoringLeaf_eq : hasNonEmptyScoringLeaf = containsNonEmptyScoringLeaf root

/-- `RankedSearchInput.from`. -/
def RankedSearchInput.ofRequest [LinearOrder Score] {ops : Scoring Score} (fields : TextFields S)
    (snapshot : SearchSnapshot T (RankedIndex S)) (request : SearchRequest S ops) :
    Except Failure (RankedSearchInput S ops) :=
  match h : normalize fields ops snapshot request.query with
  | .error failure => .error failure
  | .ok root => .ok {
      snapshot
      root
      filter := request.filter
      limit := request.limit
      config := request.bm25
      hasNonEmptyScoringLeaf := containsNonEmptyScoringLeaf root
      limit_pos := request.limit_pos
      prepared := normalize_prepared h
      hasNonEmptyScoringLeaf_eq := rfl }

end GeneralSearch.Ranked
