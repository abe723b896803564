import GeneralSearch.Ranked.Input

/-! `SearchPlanner` and the plan nodes that it prepares.  A node has a bitmap of candidates and
evaluates one document to its score; `compile_covers` says that no node evaluates a document outside
its candidates, at any depth. -/

namespace GeneralSearch.Ranked

open GeneralSearch.Index GeneralSearch.Planner GeneralSearch.Storage

variable {T : Type} {S : Schema T} {Score : Type} [LinearOrder Score] {ops : Scoring Score}

/-! ### BM25 -/

/-- `ScoringTerm`. -/
structure ScoringTerm (Score : Type) where
  term : JString
  posting : PostingList
  inverseDocumentFrequency : Score

/-- `new ScoringTerm`. -/
def ScoringTerm.make (term : JString) (posting : PostingList) (inverseDocumentFrequency : Score) :
    Except Failure (ScoringTerm Score) :=
  if term = [] then .error (.illegalArgument "term must not be empty")
  else .ok ⟨term, posting, inverseDocumentFrequency⟩

/-- `TextIndexSnapshot.averageDocumentLength`. -/
def averageDocumentLength (ops : Scoring Score) (index : TextIndexSnapshot) : Score :=
  if index.indexedDocumentCount = 0 then ops.zero
  else ops.mean index.totalDocumentLength index.indexedDocumentCount

/-- `Bm25Scorer.evaluate`; a `ScoreMatch` is a score, or `none` without a match. -/
def bm25 (ops : Scoring Score) (textIndex : TextIndexSnapshot)
    (scoringTerms : List (ScoringTerm Score)) (config : ops.Config) (average : Score) (docId : ℕ)
    (matchAlreadyEstablished : Bool) : Option Score :=
  let documentLength := textIndex.documentLength docId
  if average = ops.zero ∨ documentLength = 0 then
    if matchAlreadyEstablished then some ops.zero else none
  else
    let normalization := ops.normalization config average documentLength
    let (matched, score) := scoringTerms.foldl
      (fun (r : Bool × Score) term =>
        let termFrequency := term.posting.termFrequency docId
        if termFrequency = 0 then r
        else (true, ops.add r.2
          (ops.termScore term.inverseDocumentFrequency termFrequency config normalization)))
      (matchAlreadyEstablished, ops.zero)
    if matched then some score else none

/-! ### Phrases -/

/-- The binary search of `latestAtOrBefore`; `bound` is one more than its `high`. -/
def latestSearch (positions : List ℕ) (maximum : ℤ) (low bound : ℕ) (candidate : ℤ) : ℤ :=
  if low < bound then
    let middle := low + (bound - 1 - low) / 2
    let position : ℤ := positions.getD middle 0
    if position ≤ maximum then latestSearch positions maximum (middle + 1) bound position
    else latestSearch positions maximum low middle candidate
  else candidate
termination_by bound - low

/-- `PhrasePositionAccess.latestAtOrBefore`, `-1` without such a position. -/
def latestAtOrBefore (alternatives : List PostingList) (docId : ℕ) (maximum : ℤ) : ℤ :=
  if maximum < 0 then -1
  else alternatives.foldl (fun latest posting =>
    max latest (latestSearch (posting.positions docId) maximum 0 (posting.termFrequency docId) (-1)))
    (-1)

/-- The binary search of `earliestAtOrAfter`. -/
def earliestSearch (positions : List ℕ) (minimum : ℤ) (low bound : ℕ) (candidate : ℤ) : ℤ :=
  if low < bound then
    let middle := low + (bound - 1 - low) / 2
    let position : ℤ := positions.getD middle 0
    if position ≥ minimum then earliestSearch positions minimum low middle position
    else earliestSearch positions minimum (middle + 1) bound candidate
  else candidate
termination_by bound - low

/-- `PhrasePositionAccess.earliestAtOrAfter`, `-1` without such a position. -/
def earliestAtOrAfter (alternatives : List PostingList) (docId : ℕ) (minimum : ℤ) : ℤ :=
  if minimum > 2147483647 then -1
  else alternatives.foldl (fun earliest posting =>
    let candidate := earliestSearch (posting.positions docId) minimum 0
      (posting.termFrequency docId) (-1)
    if candidate ≥ 0 ∧ (earliest < 0 ∨ candidate < earliest) then candidate else earliest) (-1)

/-- `PhrasePlan`; the anchor slot is `none` in an empty plan. -/
structure PhrasePlan (ops : Scoring Score) where
  textIndex : Option TextIndexSnapshot
  scoringTerms : List (ScoringTerm Score)
  candidates : Finset ℕ
  config : ops.Config
  averageDocumentLength : Score
  relativePositions : List ℕ
  alternativesBySlot : List (List PostingList)
  anchorSlot : Option ℕ
  requestedSlop : ℕ

namespace PhrasePlan

variable (plan : PhrasePlan ops)

def relativePosition (slot : ℕ) : ℤ := plan.relativePositions.getD slot 0

def alternatives (slot : ℕ) : List PostingList := plan.alternativesBySlot.getD slot []

/-- `PhrasePositionAccess.matchesAt`. -/
def matchesAt (docId anchorSlot anchorDocumentPosition : ℕ) : Bool :=
  (List.range plan.relativePositions.length).all fun slot => slot = anchorSlot ||
    let required := (anchorDocumentPosition : ℤ) +
      (plan.relativePosition slot - plan.relativePosition anchorSlot)
    decide (0 ≤ required ∧ required ≤ 2147483647) &&
      (plan.alternatives slot).any fun posting => required.toNat ∈ posting.positions docId

/-- The positions that drive the verification of a phrase. -/
def anchorPositions (docId anchorSlot : ℕ) : List ℕ :=
  (plan.alternatives anchorSlot).flatMap fun posting => posting.positions docId

/-- The first loop of `consumedAt`, from the slot before `slot` down to the first one. -/
def selectLeft (docId : ℕ) : ℕ → ℤ → Option ℤ
  | 0, left => some left
  | slot + 1, left =>
    let selected := latestAtOrBefore (plan.alternatives slot) docId
      (left - (plan.relativePosition (slot + 1) - plan.relativePosition slot))
    if selected < 0 then none else selectLeft docId slot selected

/-- The second loop of `consumedAt`. -/
def selectRight (docId : ℕ) : List ℕ → ℤ → Option ℤ
  | [], right => some right
  | slot :: rest, right =>
    let selected := earliestAtOrAfter (plan.alternatives slot) docId
      (right + (plan.relativePosition slot - plan.relativePosition (slot - 1)))
    if selected < 0 then none else selectRight docId rest selected

/-- `PhrasePositionAccess.consumedAt`. -/
def consumedAt (docId anchorSlot anchorDocumentPosition : ℕ) : ℤ :=
  let slots := plan.relativePositions.length
  match plan.selectLeft docId anchorSlot anchorDocumentPosition,
    plan.selectRight docId (List.range' (anchorSlot + 1) (slots - (anchorSlot + 1)))
      anchorDocumentPosition with
  | some left, some right =>
    (right - left) - (plan.relativePosition (slots - 1) - plan.relativePosition 0)
  | _, _ => -1

/-- The loops of `minimumConsumedSlop`, which end at zero. -/
def minimumConsumed (consumed : ℕ → ℤ) (requestedSlop : ℕ) : Option ℤ → List ℕ → Option ℤ
  | best, [] => best
  | best, position :: rest =>
    if 0 ≤ consumed position ∧ consumed position ≤ requestedSlop then
      let best := best.elim (consumed position) (min · (consumed position))
      if best = 0 then some 0 else minimumConsumed consumed requestedSlop (some best) rest
    else minimumConsumed consumed requestedSlop best rest

/-- `PhrasePlan.consumedSlop`, `none` for a negative result. -/
def consumedSlop (docId : ℕ) : Option ℤ :=
  match plan.textIndex, plan.anchorSlot with
  | some _, some anchorSlot =>
    if docId ∉ plan.candidates then none
    else if plan.requestedSlop = 0 then
      if (plan.anchorPositions docId anchorSlot).any fun position =>
        plan.matchesAt docId anchorSlot position then some 0 else none
    else minimumConsumed (plan.consumedAt docId anchorSlot) plan.requestedSlop none
      (plan.anchorPositions docId anchorSlot)
  | _, _ => none

/-- `PhrasePlan.evaluate`. -/
def evaluate (docId : ℕ) : Option Score :=
  match plan.consumedSlop docId, plan.textIndex with
  | some _, some textIndex =>
    bm25 ops textIndex plan.scoringTerms plan.config plan.averageDocumentLength docId true
  | _, _ => none

end PhrasePlan

/-! ### Text and fuzzy leaves -/

/-- `TextPlan`. -/
structure TextPlan (ops : Scoring Score) where
  textIndex : Option TextIndexSnapshot
  scoringTerms : List (ScoringTerm Score)
  candidates : Finset ℕ
  config : ops.Config
  averageDocumentLength : Score

/-- `TextPlan.evaluate`. -/
def TextPlan.evaluate (plan : TextPlan ops) (docId : ℕ) : Option Score :=
  plan.textIndex.bind fun textIndex =>
    bm25 ops textIndex plan.scoringTerms plan.config plan.averageDocumentLength docId false

/-- `FuzzyScoringExpansion`. -/
structure FuzzyScoringExpansion (Score : Type) where
  term : JString
  scoringTerm : ScoringTerm Score
  editDistance : ℕ
  similarity : Score

/-- `FuzzyPlan`. -/
structure FuzzyPlan (ops : Scoring Score) where
  textIndex : Option TextIndexSnapshot
  expansions : List (FuzzyScoringExpansion Score)
  candidates : Finset ℕ
  config : ops.Config
  averageDocumentLength : Score

namespace FuzzyPlan

variable (plan : FuzzyPlan ops)

/-- The BM25 score of one expansion in `evaluateFuzzy`. -/
def expansionScore (textIndex : TextIndexSnapshot) (docId : ℕ)
    (expansion : FuzzyScoringExpansion Score) : Score :=
  let documentLength := textIndex.documentLength docId
  if documentLength = 0 ∨ plan.averageDocumentLength = ops.zero then ops.zero
  else ops.termScore expansion.scoringTerm.inverseDocumentFrequency
    (expansion.scoringTerm.posting.termFrequency docId) plan.config
    (ops.normalization plan.config plan.averageDocumentLength documentLength)

/-- The first loop of `evaluateFuzzy`: the exact term has priority. -/
def exactTerm (textIndex : TextIndexSnapshot) (docId : ℕ) :
    List (FuzzyScoringExpansion Score) → Option (Score × JString)
  | [] => none
  | expansion :: rest =>
    if expansion.editDistance ≠ 0 then none
    else if 0 < expansion.scoringTerm.posting.termFrequency docId then
      some (plan.expansionScore textIndex docId expansion, expansion.term)
    else exactTerm textIndex docId rest

/-- The second loop of `evaluateFuzzy`. -/
def bestTerm (textIndex : TextIndexSnapshot) (docId : ℕ) (best : Option (Score × JString))
    (expansion : FuzzyScoringExpansion Score) : Option (Score × JString) :=
  if expansion.editDistance = 0 ∨ expansion.scoringTerm.posting.termFrequency docId = 0 then best
  else
    let weightedScore := ops.multiply (plan.expansionScore textIndex docId expansion)
      expansion.similarity
    if best.all fun b => b.1 < weightedScore then some (weightedScore, expansion.term) else best

/-- `FuzzyPlan.evaluateFuzzy`: the score and the selected term. -/
def evaluateFuzzy (docId : ℕ) : Option (Score × JString) :=
  match plan.textIndex with
  | none => none
  | some textIndex =>
    if docId ∉ plan.candidates then none
    else match plan.exactTerm textIndex docId plan.expansions with
    | some evaluation => some evaluation
    | none => plan.expansions.foldl (plan.bestTerm textIndex docId) none

end FuzzyPlan

/-! ### Plan nodes -/

/-- `ScoringPlanNode`. -/
inductive ScoringPlanNode (ops : Scoring Score) where
  | text (plan : TextPlan ops)
  | phrase (plan : PhrasePlan ops)
  | fuzzy (plan : FuzzyPlan ops)
  | bool (must should : List (ScoringPlanNode ops)) (minimumShouldMatch : ℕ)
      (candidates : Finset ℕ)
  | boost (child : ScoringPlanNode ops) (multiplier : Score)

/-- `ScoringPlanNode.candidates`. -/
def ScoringPlanNode.candidates : ScoringPlanNode ops → Finset ℕ
  | .text plan => plan.candidates
  | .phrase plan => plan.candidates
  | .fuzzy plan => plan.candidates
  | .bool _ _ _ candidates => candidates
  | .boost child _ => child.candidates

mutual

/-- `ScoringPlanNode.evaluate`. -/
def ScoringPlanNode.evaluate (docId : ℕ) : ScoringPlanNode ops → Option Score
  | .text plan => plan.evaluate docId
  | .phrase plan => plan.evaluate docId
  | .fuzzy plan => (plan.evaluateFuzzy docId).map Prod.fst
  | .bool must should minimumShouldMatch _ =>
    match evaluateMust docId ops.zero must with
    | none => none
    | some score =>
      let (matchedShouldCount, score) := evaluateShould docId (0, score) should
      if matchedShouldCount < minimumShouldMatch then none else some score
  | .boost child multiplier => (child.evaluate docId).map (ops.multiply · multiplier)

/-- The first loop of `BoolPlan.evaluate`. -/
def evaluateMust (docId : ℕ) (score : Score) : List (ScoringPlanNode ops) → Option Score
  | [] => some score
  | child :: rest =>
    match child.evaluate docId with
    | none => none
    | some result => evaluateMust docId (ops.add score result) rest

/-- The second loop of `BoolPlan.evaluate`: how many children matched, and the score. -/
def evaluateShould (docId : ℕ) (r : ℕ × Score) : List (ScoringPlanNode ops) → ℕ × Score
  | [] => r
  | child :: rest =>
    match child.evaluate docId with
    | none => evaluateShould docId r rest
    | some result => evaluateShould docId (r.1 + 1, ops.add r.2 result) rest

end

mutual

/-- A node and all nodes below it. -/
def ScoringPlanNode.nodes : ScoringPlanNode ops → List (ScoringPlanNode ops)
  | .bool must should minimumShouldMatch candidates =>
    .bool must should minimumShouldMatch candidates :: (nodesOf must ++ nodesOf should)
  | .boost child multiplier => .boost child multiplier :: child.nodes
  | node => [node]

def nodesOf : List (ScoringPlanNode ops) → List (ScoringPlanNode ops)
  | [] => []
  | child :: rest => child.nodes ++ nodesOf rest

end

/-! ### The planner -/

/-- `SearchPlanner.compileText`, the loop over the terms. -/
def textTerms (ops : Scoring Score) (textIndex : TextIndexSnapshot) :
    List JString → Except Failure (List (ScoringTerm Score))
  | [] => .ok []
  | term :: rest =>
    let posting := textIndex.posting term
    if posting.documentFrequency = 0 then textTerms ops textIndex rest
    else do
      let scoringTerm ← ScoringTerm.make term posting
        (ops.inverseDocumentFrequency textIndex.indexedDocumentCount posting.documentFrequency)
      return scoringTerm :: (← textTerms ops textIndex rest)

/-- The union of candidate bitmaps, empty for none. -/
def unionAll (bitmaps : List (Finset ℕ)) : Finset ℕ := bitmaps.foldl (· ∪ ·) ∅

/-- `SearchPlanner.compileText`. -/
def compileText (ops : Scoring Score) (config : ops.Config) (frozenTerms : List JString)
    (textIndex : Option TextIndexSnapshot) : Except Failure (TextPlan ops) :=
  if frozenTerms.isEmpty then .ok ⟨none, [], ∅, config, ops.zero⟩
  else match textIndex with
  | none => .error .nullPointer
  | some textIndex => do
    let scoringTerms ← textTerms ops textIndex frozenTerms
    return ⟨some textIndex, scoringTerms, unionAll (scoringTerms.map (·.posting.documents)), config,
      averageDocumentLength ops textIndex⟩

/-- `IndexedCandidates`. -/
structure IndexedCandidates where
  slotIndex : ℕ
  candidates : Finset ℕ

/-- The order of `compilePhrase`: the smaller bitmap, then the earlier slot. -/
def IndexedCandidates.le (a b : IndexedCandidates) : Prop :=
  a.candidates.card < b.candidates.card ∨
    (a.candidates.card = b.candidates.card ∧ a.slotIndex ≤ b.slotIndex)

instance : DecidableRel IndexedCandidates.le := fun _ _ => inferInstanceAs (Decidable (_ ∨ _))

/-- The slot with the fewest candidates, the first of them. -/
def anchorOf (slots : List IndexedCandidates) : ℕ :=
  (slots.foldl (fun (r : ℕ × ℕ) slot =>
    if slot.candidates.card < r.2 then (slot.slotIndex, slot.candidates.card) else r)
    (0, 2147483647)).1

/-- The loop of `compilePhrase` over the scoring terms; `known` are the terms of the slots. -/
def phraseTerms (ops : Scoring Score) (textIndex : TextIndexSnapshot) (known : List JString) :
    List JString → Except Failure (List (ScoringTerm Score))
  | [] => .ok []
  | term :: rest =>
    if term ∉ known then .error .nullPointer
    else
      let posting := textIndex.posting term
      if posting.documentFrequency = 0 then phraseTerms ops textIndex known rest
      else do
        let scoringTerm ← ScoringTerm.make term posting
          (ops.inverseDocumentFrequency textIndex.indexedDocumentCount posting.documentFrequency)
        return scoringTerm :: (← phraseTerms ops textIndex known rest)

/-- `PhrasePlan.validateSlots`. -/
def validateSlots (anchorSlot : ℕ) (relativePositions : List ℕ)
    (alternativesBySlot : List (List PostingList)) : Except Failure Unit :=
  if relativePositions.length ≤ anchorSlot then
    .error (.illegalArgument "anchorSlot is out of range")
  else if relativePositions.head? ≠ some 0 then
    .error (.illegalArgument "the first relative position must be zero")
  else if ¬ relativePositions.Pairwise (· < ·) then
    .error (.illegalArgument "relative positions must be strictly increasing")
  else if alternativesBySlot.any List.isEmpty then
    .error (.illegalArgument "every phrase slot requires at least one alternative")
  else .ok ()

/-- `SearchPlanner.compilePhrase`. -/
def compilePhrase (ops : Scoring Score) (config : ops.Config) (slots : List PhraseSlot)
    (scoringTerms : List JString) (textIndex : Option TextIndexSnapshot) (slop : ℕ) :
    Except Failure (PhrasePlan ops) :=
  if slots.isEmpty then .ok ⟨none, [], ∅, config, ops.zero, [], [], none, slop⟩
  else match textIndex with
  | none => .error .nullPointer
  | some textIndex => do
    let alternativesBySlot := slots.map fun slot => slot.alternatives.map textIndex.posting
    let slotCandidates := alternativesBySlot.zipIdx.map fun (alternatives, slotIndex) =>
      (⟨slotIndex, unionAll (alternatives.map (·.documents))⟩ : IndexedCandidates)
    let anchorSlot := anchorOf slotCandidates
    let candidates := match slotCandidates.insertionSort IndexedCandidates.le with
      | [] => ∅
      | first :: rest => intersectFrom first.candidates (rest.map (·.candidates))
    let prepared ← phraseTerms ops textIndex (slots.flatMap (·.alternatives)) scoringTerms
    let relativePositions := slots.map (·.relativePosition)
    validateSlots anchorSlot relativePositions alternativesBySlot
    return ⟨some textIndex, prepared, candidates, config, averageDocumentLength ops textIndex,
      relativePositions, alternativesBySlot, some anchorSlot, slop⟩

/-- `FuzzyExpansion`. -/
structure FuzzyExpansion (Score : Type) where
  term : JString
  posting : PostingList
  editDistance : ℕ
  similarity : Score

/-- `EXPANSION_ORDER`. -/
def FuzzyExpansion.le (a b : FuzzyExpansion Score) : Prop :=
  a.editDistance < b.editDistance ∨
    (a.editDistance = b.editDistance ∧ (compareCodePoints a.term b.term).isLE)

instance : DecidableRel (@FuzzyExpansion.le Score) :=
  fun _ _ => inferInstanceAs (Decidable (_ ∨ _))

/-- `new FuzzyExpansion`, for a term that the dictionary gives with its distance. -/
def FuzzyExpansion.make (ops : Scoring Score) (textIndex : TextIndexSnapshot)
    (normalizedQueryTerm : JString) (found : JString × ℕ) :
    Except Failure (FuzzyExpansion Score) :=
  if found.1 = [] then .error (.illegalArgument "term must not be empty")
  else if 2 < found.2 then .error (.illegalArgument "editDistance must be between 0 and 2")
  else .ok ⟨found.1, textIndex.posting found.1, found.2, ops.similarity found.2
    (max (codePoints normalizedQueryTerm).length (codePoints found.1).length)⟩

/-- `TrieFuzzyTermExpander.expand`. -/
def expand (ops : Scoring Score) (textIndex : TextIndexSnapshot) (normalizedQueryTerm : JString)
    (maxEdits : ℕ) : Except Failure (List (FuzzyExpansion Score)) :=
  if normalizedQueryTerm = [] then
    .error (.illegalArgument "normalizedQueryTerm must not be empty")
  else if 2 < maxEdits then .error (.illegalArgument "maxEdits must be between 0 and 2")
  else do
    let expansions ← (textIndex.withinEditDistance normalizedQueryTerm maxEdits).mapM
      (FuzzyExpansion.make ops textIndex normalizedQueryTerm)
    return expansions.insertionSort FuzzyExpansion.le

/-- One round of the loop of `SearchPlanner.compileFuzzy`. -/
def fuzzyScoringExpansion (ops : Scoring Score) (textIndex : TextIndexSnapshot)
    (expansion : FuzzyExpansion Score) : Except Failure (FuzzyScoringExpansion Score) :=
  if expansion.posting.documentFrequency = 0 then
    .error (.illegalState ("fuzzy vocabulary term has an empty posting: " ++
      String.ofList ((codePoints expansion.term).map Char.ofNat)))
  else do
    let scoringTerm ← ScoringTerm.make expansion.term expansion.posting
      (ops.inverseDocumentFrequency textIndex.indexedDocumentCount
        expansion.posting.documentFrequency)
    return ⟨expansion.term, scoringTerm, expansion.editDistance, expansion.similarity⟩

/-- `FuzzyPlan.validateExpansions`; `terms` and `previous` are what the loop has seen. -/
def validateExpansions (normalizedQueryTerm : JString) (terms : List JString)
    (previous : Option (FuzzyScoringExpansion Score)) :
    List (FuzzyScoringExpansion Score) → Except Failure Unit
  | [] => .ok ()
  | expansion :: rest =>
    if expansion.term ∈ terms then
      .error (.illegalArgument "fuzzy expansions must contain unique terms")
    else if decide (expansion.editDistance = 0) ≠ decide (expansion.term = normalizedQueryTerm) then
      .error (.illegalArgument "only the normalized query term may have distance zero")
    else if previous.any fun p => expansion.editDistance < p.editDistance ||
        (p.editDistance = expansion.editDistance &&
          (compareCodePoints p.term expansion.term).isGE) then
      .error (.illegalArgument "fuzzy expansions must use deterministic order")
    else validateExpansions normalizedQueryTerm (expansion.term :: terms) (some expansion) rest

/-- `SearchPlanner.compileFuzzy`. -/
def compileFuzzy (ops : Scoring Score) (config : ops.Config) (normalizedTerm : Option JString)
    (textIndex : Option TextIndexSnapshot) : Except Failure (FuzzyPlan ops) :=
  match normalizedTerm, textIndex with
  | none, _ => .ok ⟨none, [], ∅, config, ops.zero⟩
  | some _, none => .error .nullPointer
  | some term, some textIndex => do
    let lexicalExpansions ← expand ops textIndex term (autoMaxEdits term)
    let scoringExpansions ← lexicalExpansions.mapM (fuzzyScoringExpansion ops textIndex)
    validateExpansions term [] none scoringExpansions
    return ⟨some textIndex, scoringExpansions,
      unionAll (scoringExpansions.map (·.scoringTerm.posting.documents)), config,
      averageDocumentLength ops textIndex⟩

/-- `SearchPlanner.intersectCandidates`, `none` for no children. -/
def intersectCandidates (children : List (ScoringPlanNode ops)) : Option (Finset ℕ) :=
  match children.insertionSort fun a b => a.candidates.card ≤ b.candidates.card with
  | [] => none
  | first :: rest => some (intersectFrom first.candidates (rest.map (·.candidates)))

/-- The documents that the map of occurrence counts has with at least `minimumShouldMatch`. -/
def countedCandidates (children : List (ScoringPlanNode ops)) (minimumShouldMatch : ℕ) :
    Finset ℕ :=
  let occurrences := children.flatMap fun child => setBits child.candidates
  (occurrences.filter fun docId => minimumShouldMatch ≤ occurrences.count docId).toFinset

/-- `SearchPlanner.thresholdCandidates`. -/
def thresholdCandidates (children : List (ScoringPlanNode ops)) (minimumShouldMatch : ℕ) :
    Except Failure (Finset ℕ) :=
  if minimumShouldMatch = 1 then
    if children.isEmpty then .error .nullPointer
    else .ok (unionAll (children.map (·.candidates)))
  else if minimumShouldMatch = children.length then
    (intersectCandidates children).elim (.error .nullPointer) .ok
  else .ok (countedCandidates children minimumShouldMatch)

/-- `SearchPlanner.boolCandidates`. -/
def boolCandidates (must should : List (ScoringPlanNode ops)) (minimumShouldMatch : ℕ) :
    Except Failure (Finset ℕ) :=
  let mustCandidates := intersectCandidates must
  if minimumShouldMatch = 0 then mustCandidates.elim (.error .nullPointer) .ok
  else do
    let shouldCandidates ← thresholdCandidates should minimumShouldMatch
    return mustCandidates.elim shouldCandidates (· ∩ shouldCandidates)

/-- `new BoolPlan`. -/
def boolPlan (must should : List (ScoringPlanNode ops)) (minimumShouldMatch : ℕ)
    (candidates : Finset ℕ) : Except Failure (ScoringPlanNode ops) :=
  if should.length < minimumShouldMatch then
    .error (.illegalArgument "minimumShouldMatch must be within the SHOULD clause count")
  else if minimumShouldMatch = 0 ∧ must.isEmpty then
    .error (.illegalArgument "minimumShouldMatch zero requires at least one MUST clause")
  else .ok (.bool must should minimumShouldMatch candidates)

/-- `new BoostPlan`. -/
def boostPlan (child : ScoringPlanNode ops) (multiplier : Score) :
    Except Failure (ScoringPlanNode ops) :=
  if multiplier ≤ ops.zero then .error (.illegalArgument "boost must be finite and positive")
  else .ok (.boost child multiplier)

mutual

/-- `SearchPlanner.compile`. -/
def compile (ops : Scoring Score) (config : ops.Config) :
    NormalizedScoringNode S Score → Except Failure (ScoringPlanNode ops)
  | .text _ frozenTerms textIndex => .text <$> compileText ops config frozenTerms textIndex
  | .phrase _ slots scoringTerms textIndex slop =>
    .phrase <$> compilePhrase ops config slots scoringTerms textIndex slop
  | .fuzzy _ normalizedTerm textIndex => .fuzzy <$> compileFuzzy ops config normalizedTerm textIndex
  | .bool must should minimumShouldMatch => do
    let must ← compileChildren ops config must
    let should ← compileChildren ops config should
    boolPlan must should minimumShouldMatch (← boolCandidates must should minimumShouldMatch)
  | .boost child multiplier => do
    boostPlan (← compile ops config child) multiplier

/-- `SearchPlanner.compileChildren`. -/
def compileChildren (ops : Scoring Score) (config : ops.Config) :
    List (NormalizedScoringNode S Score) → Except Failure (List (ScoringPlanNode ops))
  | [] => .ok []
  | child :: rest => do
    return (← compile ops config child) :: (← compileChildren ops config rest)

end

/-- `SearchPlan`. -/
structure SearchPlan (S : Schema T) (ops : Scoring Score) where
  snapshot : SearchSnapshot T (RankedIndex S)
  root : ScoringPlanNode ops
  candidates : Finset ℕ
  filter : Option (Query S)
  limit : ℕ
  limit_pos : 0 < limit

/-- `SearchPlanner.plan`. -/
def SearchPlan.of (mode : RangePlanningMode) (input : RankedSearchInput S ops) :
    Except Failure (SearchPlan S ops) := do
  let root ← compile ops input.config input.root
  if !input.hasNonEmptyScoringLeaf then
    return ⟨input.snapshot, root, ∅, input.filter, input.limit, input.limit_pos⟩
  else
    let filterCandidates := input.filter.bind (Planner.plan mode (structured input.snapshot))
    let candidates := filterCandidates.elim root.candidates (root.candidates ∩ ·.bitmap)
    return ⟨input.snapshot, root, candidates, input.filter, input.limit, input.limit_pos⟩

end GeneralSearch.Ranked
