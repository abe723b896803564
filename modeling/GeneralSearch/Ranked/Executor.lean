import GeneralSearch.Ranked.Coverage
import GeneralSearch.Lib.Selection
import Mathlib.Data.Prod.Lex

/-! `SearchExecutor`.  A search returns the first hits of the ranking of all matching documents, and
the pages that cursors lead through are the ranking cut into pieces. -/

namespace GeneralSearch.Ranked

open GeneralSearch.Index GeneralSearch.Planner GeneralSearch.Storage

variable {T : Type} {S : Schema T} {Score : Type} [LinearOrder Score] {ops : Scoring Score}

/-! ### The executor -/

/-- `SearchExecutor.RankedCandidate`. -/
structure RankedCandidate (T Score : Type) where
  docId : ℕ
  document : T
  score : Score

/-- `SearchHit`. -/
structure SearchHit (T Score : Type) where
  document : T
  score : Score

def RankedCandidate.hit (candidate : RankedCandidate T Score) : SearchHit T Score :=
  ⟨candidate.document, candidate.score⟩

/-- `SearchExecutor.isBetter`. -/
def isBetter (candidate currentWorst : RankedCandidate T Score) : Prop :=
  currentWorst.score < candidate.score ∨
    (candidate.score = currentWorst.score ∧ candidate.docId < currentWorst.docId)

/-- `SearchExecutor.worstFirst`: `a` comes before `b`, or they compare as equal. -/
def worstFirst (a b : RankedCandidate T Score) : Prop :=
  a.score < b.score ∨ (a.score = b.score ∧ b.docId ≤ a.docId)

/-- `SearchExecutor.bestFirst`. -/
def bestFirst (a b : RankedCandidate T Score) : Prop :=
  b.score < a.score ∨ (a.score = b.score ∧ a.docId ≤ b.docId)

instance : DecidableRel (@isBetter T Score _) :=
  fun _ _ => inferInstanceAs (Decidable (_ ∨ _))

instance : DecidableRel (@worstFirst T Score _) :=
  fun _ _ => inferInstanceAs (Decidable (_ ∨ _))

instance : DecidableRel (@bestFirst T Score _) :=
  fun _ _ => inferInstanceAs (Decidable (_ ∨ _))

/-- One candidate for the bounded queue, whose head is the worst of its elements. -/
def offerCandidate (limit : ℕ) (top : List (RankedCandidate T Score))
    (candidate : RankedCandidate T Score) : List (RankedCandidate T Score) :=
  if top.length < limit then top.orderedInsert worstFirst candidate
  else match top with
  | [] => []
  | worst :: rest =>
    if isBetter candidate worst then rest.orderedInsert worstFirst candidate else worst :: rest

/-- A document that is active, satisfies the filter and is matched by the plan. -/
def matching (snapshot : SearchSnapshot T (RankedIndex S)) (filter : Option (Query S))
    (root : ScoringPlanNode ops) (docId : ℕ) : Option (RankedCandidate T Score) :=
  (snapshot.get docId).bind fun document =>
    if filter.any fun query => !query.matchesDocument document then none
    else (root.evaluate docId).map (⟨docId, document, ·⟩)

/-- The documents of a plan that `forEachSetBit` comes to and that match, in its order. -/
def SearchPlan.scored (plan : SearchPlan S ops) : List (RankedCandidate T Score) :=
  (setBits plan.candidates).filterMap (matching plan.snapshot plan.filter plan.root)

/-- `SearchExecutor.rankedCandidates`. -/
def SearchPlan.rankedCandidates (plan : SearchPlan S ops) : List (RankedCandidate T Score) :=
  if plan.candidates = ∅ then []
  else (plan.scored.foldl (offerCandidate plan.limit) []).insertionSort bestFirst

/-- `SearchExecutor.execute`. -/
def SearchPlan.execute (plan : SearchPlan S ops) : List (SearchHit T Score) :=
  plan.rankedCandidates.map RankedCandidate.hit

/-- All matching documents, by descending score and then by ascending document id. -/
def ranking (snapshot : SearchSnapshot T (RankedIndex S)) (filter : Option (Query S))
    (root : ScoringPlanNode ops) : List (RankedCandidate T Score) :=
  ((setBits snapshot.activeDocuments).filterMap (matching snapshot filter root)).insertionSort
    bestFirst

/-! ### Pages -/

/-- `PageAnchor`. -/
structure PageAnchor (Score : Type) where
  score : Score
  documentId : ℕ

/-- `SearchAfterCursor`: one of the engine or another implementation.  Objects that are compared by
identity are numbers. -/
inductive SearchAfterCursor (Score : Type) where
  | builtIn (ownerToken searchRequest snapshotVersion : ℕ) (anchor : PageAnchor Score)
  | foreign

inductive TotalHitsMode where
  | disabled
  | exact
  deriving DecidableEq, Repr

/-- `SearchPageRequest`. -/
structure SearchPageRequest (S : Schema T) (ops : Scoring Score) where
  searchRequest : SearchRequest S ops
  after : Option (SearchAfterCursor Score)
  totalHitsMode : TotalHitsMode

/-- `SearchPageResult`. -/
structure SearchPageResult (T Score : Type) where
  hits : List (SearchHit T Score)
  nextCursor : Option (SearchAfterCursor Score)
  totalHits : Option ℕ

/-- `SearchExecutor.PageAccumulator`. -/
structure PageAccumulator (T Score : Type) where
  limit : ℕ
  exact : Bool
  after : Option (PageAnchor Score)
  top : List (RankedCandidate T Score)
  exactTotalHits : ℕ
  eligibleMatches : ℕ

/-- `PageAccumulator.isAfter`. -/
def isAfter (candidate : RankedCandidate T Score) (after : PageAnchor Score) : Prop :=
  candidate.score < after.score ∨
    (candidate.score = after.score ∧ after.documentId < candidate.docId)

instance (candidate : RankedCandidate T Score) (after : PageAnchor Score) :
    Decidable (isAfter candidate after) :=
  inferInstanceAs (Decidable (_ ∨ _))

/-- `PageAccumulator.recordMatch`. -/
def PageAccumulator.recordMatch (page : PageAccumulator T Score)
    (candidate : RankedCandidate T Score) : PageAccumulator T Score :=
  let page := if page.exact then { page with exactTotalHits := page.exactTotalHits + 1 } else page
  if page.after.any fun after => !decide (isAfter candidate after) then page
  else { page with
    eligibleMatches := page.eligibleMatches + 1
    top := offerCandidate page.limit page.top candidate }

/-- `SearchExecutor.rankedPageCandidates`. -/
def SearchPlan.rankedPageCandidates (plan : SearchPlan S ops) (totalHitsMode : TotalHitsMode)
    (after : Option (PageAnchor Score)) : PageAccumulator T Score :=
  let page := ⟨plan.limit, decide (totalHitsMode = .exact), after, [], 0, 0⟩
  if plan.candidates = ∅ then page else plan.scored.foldl PageAccumulator.recordMatch page

/-- `SearchExecutor.executePage`. -/
def SearchPlan.executePage (plan : SearchPlan S ops) (totalHitsMode : TotalHitsMode)
    (after : Option (PageAnchor Score)) (cursorOwnerToken searchRequest snapshotVersion : ℕ) :
    Except Failure (SearchPageResult T Score) := do
  let page := plan.rankedPageCandidates totalHitsMode after
  let ranked := page.top.insertionSort bestFirst
  let nextCursor ←
    if page.top.length < page.eligibleMatches then
      match ranked.getLast? with
      | none => throw .nullPointer
      | some last => pure (some (.builtIn cursorOwnerToken searchRequest snapshotVersion
          ⟨last.score, last.docId⟩))
    else pure none
  return ⟨ranked.map RankedCandidate.hit, nextCursor,
    if totalHitsMode = .exact then some page.exactTotalHits else none⟩

/-- `SearchExecutionAccess.validateCursor`. -/
def validateCursor (after : Option (SearchAfterCursor Score))
    (searchRequest snapshotVersion cursorOwnerToken : ℕ) :
    Except Failure (Option (PageAnchor Score)) :=
  match after with
  | none => .ok none
  | some .foreign => .error (.cursor "UNSUPPORTED_CURSOR")
  | some (.builtIn ownerToken request version anchor) =>
    if ownerToken ≠ cursorOwnerToken then .error (.cursor "DIFFERENT_ENGINE")
    else if request ≠ searchRequest then .error (.cursor "DIFFERENT_REQUEST")
    else if version ≠ snapshotVersion then .error (.cursor "STALE_SNAPSHOT")
    else .ok (some anchor)

/-- `SearchExecutionAccess.searchPage`. -/
def searchPage (fields : TextFields S) (mode : RangePlanningMode)
    (snapshot : SearchSnapshot T (RankedIndex S)) (cursorOwnerToken : ℕ)
    (request : SearchPageRequest S ops) : Except Failure (SearchPageResult T Score) := do
  let after ← validateCursor request.after request.searchRequest.identity snapshot.version
    cursorOwnerToken
  let input ← RankedSearchInput.ofRequest fields snapshot request.searchRequest
  let plan ← SearchPlan.of mode input
  plan.executePage request.totalHitsMode after cursorOwnerToken request.searchRequest.identity
    snapshot.version

/-- The pages that following the cursors gives, from a cursor and a page number on until a page has
no cursor; every page may ask for the total in its own mode. -/
inductive Pages (fetch : TotalHitsMode → Option (SearchAfterCursor Score) →
    Except Failure (SearchPageResult T Score)) (modes : ℕ → TotalHitsMode) :
    ℕ → Option (SearchAfterCursor Score) → List (SearchPageResult T Score) → Prop where
  | last {number after page} : fetch (modes number) after = .ok page → page.nextCursor = none →
    Pages fetch modes number after [page]
  | more {number after page cursor rest} : fetch (modes number) after = .ok page →
    page.nextCursor = some cursor → Pages fetch modes (number + 1) (some cursor) rest →
    Pages fetch modes number after (page :: rest)

/-! ### Ranks -/

/-- The rank of a candidate, the smaller the better. -/
def RankedCandidate.rank (candidate : RankedCandidate T Score) : Scoreᵒᵈ ×ₗ ℕ :=
  toLex (OrderDual.toDual candidate.score, candidate.docId)

theorem bestFirst_iff {a b : RankedCandidate T Score} : bestFirst a b ↔ a.rank ≤ b.rank := by
  rw [RankedCandidate.rank, RankedCandidate.rank, Prod.Lex.toLex_le_toLex]
  exact Iff.rfl

theorem worstFirst_iff {a b : RankedCandidate T Score} : worstFirst a b ↔ b.rank ≤ a.rank := by
  rw [← bestFirst_iff, worstFirst, bestFirst, eq_comm]

theorem isBetter_iff {a b : RankedCandidate T Score} : isBetter a b ↔ a.rank < b.rank := by
  rw [RankedCandidate.rank, RankedCandidate.rank, Prod.Lex.toLex_lt_toLex]
  exact Iff.rfl

theorem insertionSort_bestFirst (l : List (RankedCandidate T Score)) :
    l.insertionSort bestFirst = Selection.ranked RankedCandidate.rank l := by
  have hrel : (bestFirst : RankedCandidate T Score → RankedCandidate T Score → Prop) =
      fun a b => a.rank ≤ b.rank := by
    funext a b
    exact propext bestFirst_iff
  unfold Selection.ranked
  congr!

theorem orderedInsert_worstFirst (l : List (RankedCandidate T Score))
    (candidate : RankedCandidate T Score) :
    l.orderedInsert worstFirst candidate = Selection.add RankedCandidate.rank l candidate := by
  have hrel : (worstFirst : RankedCandidate T Score → RankedCandidate T Score → Prop) =
      fun a b => b.rank ≤ a.rank := by
    funext a b
    exact propext worstFirst_iff
  unfold Selection.add
  congr!

theorem offerCandidate_eq (limit : ℕ) :
    offerCandidate limit = Selection.offer (@RankedCandidate.rank T Score) limit := by
  funext top candidate
  unfold offerCandidate Selection.offer
  simp only [orderedInsert_worstFirst, isBetter_iff]
  split
  · rfl
  · cases top <;> rfl

/-! ### The ranking -/

section

variable {snapshot : SearchSnapshot T (RankedIndex S)} {filter : Option (Query S)}
  {root : ScoringPlanNode ops}

theorem matching_docId {d : ℕ} {candidate : RankedCandidate T Score}
    (h : matching snapshot filter root d = some candidate) : candidate.docId = d := by
  obtain ⟨document, -, h⟩ := Option.bind_eq_some_iff.mp h
  split at h
  · cases h
  · obtain ⟨score, -, rfl⟩ := Option.map_eq_some_iff.mp h
    rfl

/-- What matches is active, satisfies the filter and is matched by the root. -/
theorem matching_spec {d : ℕ} {candidate : RankedCandidate T Score}
    (h : matching snapshot filter root d = some candidate) :
    d ∈ snapshot.activeDocuments ∧ snapshot.get d = some candidate.document ∧
      (∀ query ∈ filter, query.matchesDocument candidate.document = true) ∧
      root.evaluate d = some candidate.score := by
  obtain ⟨document, hget, h⟩ := Option.bind_eq_some_iff.mp h
  split at h
  · cases h
  rename_i hfilter
  obtain ⟨score, hscore, rfl⟩ := Option.map_eq_some_iff.mp h
  refine ⟨?_, hget, fun query hquery => ?_, hscore⟩
  · by_contra hd
    simp [SearchSnapshot.get, hd] at hget
  · rw [Option.mem_def.mp hquery] at hfilter
    simpa using hfilter

variable (snapshot filter root) in
/-- The matching documents in ascending order. -/
def allMatches : List (RankedCandidate T Score) :=
  (setBits snapshot.activeDocuments).filterMap (matching snapshot filter root)

theorem ranking_eq :
    ranking snapshot filter root =
      Selection.ranked RankedCandidate.rank (allMatches snapshot filter root) :=
  insertionSort_bestFirst _

theorem allMatches_nodup :
    ((allMatches snapshot filter root).map RankedCandidate.rank).Nodup := by
  have hdocs : ((allMatches snapshot filter root).map RankedCandidate.docId).Nodup := by
    have hsub : ((allMatches snapshot filter root).map RankedCandidate.docId).Sublist
        (setBits snapshot.activeDocuments) := by
      unfold allMatches
      induction setBits snapshot.activeDocuments with
      | nil => exact .slnil
      | cons d rest ih =>
        cases hd : matching snapshot filter root d with
        | none => simpa [hd] using ih.cons d
        | some candidate =>
          rw [List.filterMap_cons_some hd, List.map_cons, matching_docId hd]
          exact ih.cons_cons d
    exact hsub.nodup (setBits_nodup _)
  refine List.Nodup.of_map (fun rank => (ofLex rank).2) ?_
  rw [List.map_map]
  exact hdocs

end

/-- What planning an input gives. -/
structure Planned (input : RankedSearchInput S ops) (plan : SearchPlan S ops) : Prop where
  snapshot : plan.snapshot = input.snapshot
  filter : plan.filter = input.filter
  limit : plan.limit = input.limit
  compiled : compile ops input.config input.root = .ok plan.root
  covering : Covering plan.root
  candidates : ∀ d candidate, matching input.snapshot input.filter plan.root d = some candidate →
    d ∈ plan.candidates

theorem planned (mode : RangePlanningMode) {input : RankedSearchInput S ops}
    (hsync : Synced input.snapshot) :
    ∃ plan, SearchPlan.of mode input = .ok plan ∧ Planned input plan := by
  have hcompiled : ∃ root, Compiled input.config input.root root :=
    compile_compiled hsync.spelled input.prepared
  obtain ⟨root, hok, hcovering, hsilent⟩ := hcompiled
  unfold SearchPlan.of
  rw [hok, input.hasNonEmptyScoringLeaf_eq]
  dsimp only [bind, Except.bind]
  cases hleaf : containsNonEmptyScoringLeaf input.root with
  | false =>
    refine ⟨_, rfl, rfl, rfl, rfl, hok, hcovering, fun d candidate h => ?_⟩
    have hscore := (matching_spec h).2.2.2
    rw [hsilent hleaf d] at hscore
    cases hscore
  | true =>
    refine ⟨_, rfl, rfl, rfl, rfl, hok, hcovering, fun d candidate h => ?_⟩
    obtain ⟨-, hget, hfilter, hscore⟩ := matching_spec h
    have hroot : d ∈ root.candidates := hcovering.mem hscore
    dsimp only
    cases hplan : input.filter.bind (Planner.plan mode (structured input.snapshot)) with
    | none => exact hroot
    | some result =>
      obtain ⟨query, hquery, hresult⟩ := Option.bind_eq_some_iff.mp hplan
      have hcovers := plan_planCovers mode hsync.structured query result hresult
      exact Finset.mem_inter.mpr
        ⟨hroot, hcovers.1 d candidate.document hget (hfilter query hquery)⟩

section

variable {input : RankedSearchInput S ops} {plan : SearchPlan S ops}

/-- The candidates lose no match. -/
theorem Planned.scored_eq (h : Planned input plan) :
    plan.scored = allMatches input.snapshot input.filter plan.root := by
  have hguard : ∀ ids : List ℕ, ids.filterMap (matching input.snapshot input.filter plan.root) =
      (ids.filter fun d => (matching input.snapshot input.filter plan.root d).isSome).filterMap
        (matching input.snapshot input.filter plan.root) := by
    intro ids
    rw [List.filterMap_filter]
    refine List.filterMap_congr fun d _ => ?_
    cases matching input.snapshot input.filter plan.root d <;> rfl
  unfold SearchPlan.scored allMatches
  rw [h.snapshot, h.filter, hguard, hguard (setBits input.snapshot.activeDocuments)]
  refine congrArg _ (filter_setBits_eq fun d hd => ?_)
  obtain ⟨candidate, hcandidate⟩ := Option.isSome_iff_exists.mp hd
  exact iff_of_true (h.candidates d candidate hcandidate) (matching_spec hcandidate).1

/-- The early return for no candidates agrees with the loop. -/
theorem scored_eq_nil (h : plan.candidates = ∅) : plan.scored = [] := by
  rw [SearchPlan.scored, h]
  rfl

theorem Planned.rankedCandidates_eq (h : Planned input plan) :
    plan.rankedCandidates =
      (ranking input.snapshot input.filter plan.root).take input.limit := by
  have hloop : plan.rankedCandidates =
      (plan.scored.foldl (offerCandidate plan.limit) []).insertionSort bestFirst := by
    unfold SearchPlan.rankedCandidates
    split
    · rename_i hempty
      rw [scored_eq_nil hempty]
      rfl
    · rfl
  rw [hloop, insertionSort_bestFirst, offerCandidate_eq, h.scored_eq,
    (Selection.foldl_offer plan.limit_pos allMatches_nodup).1, ranking_eq, h.limit]

end

/-- A search plans every prepared input of a snapshot whose indexes are in sync, the plan is the
compiled query, every node of it has every document that it matches among its candidates, and the
hits are the first of the ranking of all matching documents. -/
theorem search_eq_top (mode : RangePlanningMode) {input : RankedSearchInput S ops}
    (hsync : Synced input.snapshot) :
    ∃ plan, SearchPlan.of mode input = .ok plan ∧
      compile ops input.config input.root = .ok plan.root ∧
      (∀ node ∈ plan.root.nodes, ∀ d score, node.evaluate d = some score → d ∈ node.candidates) ∧
      plan.execute = ((ranking input.snapshot input.filter plan.root).take input.limit).map
        RankedCandidate.hit := by
  obtain ⟨plan, hplan, hplanned⟩ := planned mode hsync
  exact ⟨plan, hplan, hplanned.compiled, hplanned.covering,
    congrArg _ hplanned.rankedCandidates_eq⟩

/-! ### A snapshot of words -/

/-- Documents are numbered words; the word of a document is its one term. -/
def wordSchema : Schema (ℕ × JString) where
  StringField := Unit
  ObjectField := Empty
  TextField := Unit
  Value f := nomatch f
  valueEq f := nomatch f
  compareTo f := nomatch f
  lawful f := nomatch f
  stringOf _ t := some t.2
  valueOf f := nomatch f
  source _ := ()
  analyze _ text := text.toList

def wordFields : TextFields wordSchema where
  name _ := "word"
  analyzeWithPositions _ text :=
    .ok (some (if h : text = [] then [] else [some ⟨text, 1, h⟩]))

/-- Scores that count occurrences. -/
def counts : Scoring ℕ where
  Config := Unit
  zero := 0
  add := (· + ·)
  multiply := (· * ·)
  mean total count := total / count
  inverseDocumentFrequency _ _ := 1
  normalization _ _ _ := 1
  termScore weight frequency _ _ := weight * frequency
  similarity _ _ := 1

/-- The documents 0 and 1 are the word "a". -/
def wordIndex : TextIndexSnapshot where
  postings := .node [97] ((PostingList.empty.withPositions 0 [0] (by decide) (by decide)).withPositions
    1 [0] (by decide) (by decide)) .leaf .leaf 2 2 1 1
  fuzzyDictionary := some (.node none (.cons 97 (.node (some [97]) .nil) .nil))
  documentLengths := .node (0 : ℕ) 1 .leaf (.node (1 : ℕ) 1 .leaf .leaf 1 1 1 1) 1 2 2 2
  totalDocumentLength := 2

def wordSnapshot : SearchSnapshot (ℕ × JString) (RankedIndex wordSchema) where
  documents d := if d = 0 ∨ d = 1 then some (d, [97]) else none
  activeDocuments := {0, 1}
  indexes := [.text () wordIndex]
  version := 3

def wordRequest : SearchRequest wordSchema counts where
  query := .bool [] [.leaf .text () [97] 0, .boost (.leaf .fuzzy () [97] 0) 2] (some 1)
  filter := none
  limit := 1
  bm25 := ()
  identity := 9
  limit_pos := Nat.one_pos

theorem wordSnapshot_synced : Synced wordSnapshot := by
  refine ⟨⟨by decide, fun index hindex => ?_⟩, fun field index hindex => ?_⟩
  · rw [show (structured wordSnapshot).indexes = [_] from rfl, List.mem_singleton] at hindex
    subst hindex
    intro term d
    have hget : wordSnapshot.get d = if d = 0 ∨ d = 1 then some (d, [97]) else none := by
      by_cases hd : d = 0 ∨ d = 1 <;> simp [SearchSnapshot.get, wordSnapshot, hd]
    have hposted : d ∈ orEmpty ((mapValues PostingList.documents wordIndex.postings).get
        JString.compareTo term) ↔ term = [97] ∧ (d = 0 ∨ d = 1) := by
      rw [wordIndex, mapValues, AvlNode.get]
      cases hterm : JString.compareTo term [97] with
      | eq =>
        obtain rfl := Std.LawfulEqCmp.eq_of_compare hterm
        simp [orEmpty, PostingList.withPositions, PostingList.empty, or_comm]
      | lt | gt =>
        have hne : term ≠ [97] := fun heq => by simp [heq, Std.ReflCmp.compare_self] at hterm
        simp [orEmpty, mapValues, AvlNode.get, hne]
    refine hposted.trans ?_
    change _ ↔ ∃ t, wordSnapshot.get d = some t ∧ _
    rw [hget]
    by_cases hd : d = 0 ∨ d = 1 <;>
      simp [hd, Schema.documentTerms, wordSchema]
  · rw [show wordSnapshot.indexes = [_] from rfl, List.mem_singleton] at hindex
    cases hindex
    exact ⟨by decide, by decide, by decide, by decide⟩

theorem ofRequest_ok {fields : TextFields S} {snapshot : SearchSnapshot T (RankedIndex S)}
    {request : SearchRequest S ops} {input : RankedSearchInput S ops}
    (h : RankedSearchInput.ofRequest fields snapshot request = .ok input) :
    normalize fields ops snapshot request.query = .ok input.root ∧
      input.config = request.bm25 ∧ input.snapshot = snapshot ∧
      input.filter = request.filter ∧ input.limit = request.limit := by
  unfold RankedSearchInput.ofRequest at h
  split at h
  · cases h
  · rename_i hroot
    cases h
    exact ⟨hroot, rfl, rfl, rfl, rfl⟩

/-- The clause "a" counts one occurrence and the boosted fuzzy clause two, so both documents score 3
and the first is the one that fits the limit. -/
theorem search_eq_top_words : ∃ input,
    RankedSearchInput.ofRequest wordFields wordSnapshot wordRequest = .ok input ∧
    ∃ plan, SearchPlan.of .costAware input = .ok plan ∧
      plan.execute = [⟨(0, [97]), 3⟩] ∧
      ((ranking wordSnapshot none plan.root).take 1).map RankedCandidate.hit =
        [⟨(0, [97]), 3⟩] := by
  obtain ⟨input, hinput⟩ : ∃ input,
      RankedSearchInput.ofRequest wordFields wordSnapshot wordRequest = .ok input := ⟨_, rfl⟩
  have hhits : (SearchPlan.of .costAware input).map SearchPlan.execute =
      .ok [⟨(0, [97]), 3⟩] := by
    cases hinput
    rfl
  obtain ⟨-, -, hsnapshot, hfilter, hlimit⟩ := ofRequest_ok hinput
  obtain ⟨plan, hplan, -, -, htop⟩ :=
    search_eq_top .costAware (hsnapshot.symm ▸ wordSnapshot_synced)
  rw [hplan] at hhits
  have hfound := Except.ok.inj hhits
  rw [hsnapshot, hfilter, hlimit, hfound] at htop
  exact ⟨input, hinput, plan, hplan, hfound, htop.symm⟩

/-! ### One page -/

/-- What stands behind the anchor. -/
def eligible (after : Option (PageAnchor Score)) (l : List (RankedCandidate T Score)) :
    List (RankedCandidate T Score) :=
  l.filter fun candidate => after.all fun anchor => decide (isAfter candidate anchor)

theorem recordMatch_eq (page : PageAccumulator T Score) (candidate : RankedCandidate T Score) :
    page.recordMatch candidate = { page with
      exactTotalHits := page.exactTotalHits + if page.exact then 1 else 0
      eligibleMatches := page.eligibleMatches + (eligible page.after [candidate]).length
      top := (eligible page.after [candidate]).foldl (offerCandidate page.limit) page.top } := by
  obtain ⟨limit, exact, after, top, total, count⟩ := page
  have hcases : (after.any fun anchor => !decide (isAfter candidate anchor)) =
      !after.all fun anchor => decide (isAfter candidate anchor) := by
    cases after <;> rfl
  unfold PageAccumulator.recordMatch eligible
  cases hall : after.all fun anchor => decide (isAfter candidate anchor) <;>
    cases exact <;> simp [hcases, hall]

/-- The loop of a page. -/
theorem foldl_recordMatch (page : PageAccumulator T Score) (l : List (RankedCandidate T Score)) :
    l.foldl PageAccumulator.recordMatch page = { page with
      exactTotalHits := page.exactTotalHits + if page.exact then l.length else 0
      eligibleMatches := page.eligibleMatches + (eligible page.after l).length
      top := (eligible page.after l).foldl (offerCandidate page.limit) page.top } := by
  induction l generalizing page with
  | nil => simp [eligible]
  | cons candidate rest ih =>
    have hsplit : eligible page.after (candidate :: rest) =
        eligible page.after [candidate] ++ eligible page.after rest :=
      List.filter_append [candidate] rest
    rw [List.foldl_cons, ih, recordMatch_eq, hsplit, List.foldl_append, List.length_append]
    dsimp only
    congr 1
    · cases page.exact
      · rfl
      · simp only [if_true, List.length_cons]
        omega
    · omega

/-- The anchor that a page stands behind after the first `n` of the ranking. -/
def Reached (full : List (RankedCandidate T Score)) : ℕ → Option (PageAnchor Score) → Prop
  | 0, after => after = none
  | n + 1, after => ∃ last, full[n]? = some last ∧ after = some ⟨last.score, last.docId⟩

/-- The page that shows the hits behind the first `n` of the ranking. -/
structure PageAt (cursor : PageAnchor Score → SearchAfterCursor Score)
    (full : List (RankedCandidate T Score)) (limit : ℕ) (totalHitsMode : TotalHitsMode) (n : ℕ)
    (page : SearchPageResult T Score) : Prop where
  hits : page.hits = ((full.drop n).take limit).map RankedCandidate.hit
  total : page.totalHits = if totalHitsMode = .exact then some full.length else none
  more : n + limit < full.length →
    ∃ anchor, page.nextCursor = some (cursor anchor) ∧ Reached full (n + limit) (some anchor)
  last : full.length ≤ n + limit → page.nextCursor = none

theorem isAfter_iff {candidate last : RankedCandidate T Score} :
    isAfter candidate ⟨last.score, last.docId⟩ ↔ last.rank < candidate.rank := by
  rw [← isBetter_iff, isAfter, isBetter, eq_comm]

/-- Behind the first `n` of the ranking stand the others. -/
theorem ranked_eligible {l : List (RankedCandidate T Score)}
    (hd : (l.map RankedCandidate.rank).Nodup) {n : ℕ} {after : Option (PageAnchor Score)}
    (h : Reached (Selection.ranked RankedCandidate.rank l) n after) :
    Selection.ranked RankedCandidate.rank (eligible after l) =
      (Selection.ranked RankedCandidate.rank l).drop n := by
  cases n with
  | zero =>
    cases h
    have hall : eligible none l = l := List.filter_eq_self.mpr fun _ _ => rfl
    rw [hall, List.drop_zero]
  | succ n =>
    obtain ⟨last, hlast, rfl⟩ := h
    have hbehind : eligible (some ⟨last.score, last.docId⟩) l =
        l.filter fun candidate => last.rank < candidate.rank := by
      refine List.filter_congr fun candidate _ => ?_
      simp only [Option.all_some, isAfter_iff]
    rw [hbehind, Selection.ranked_filter _ hd]
    exact Selection.filter_behind (Selection.ranked_lt hd) hlast

section

variable {input : RankedSearchInput S ops} {plan : SearchPlan S ops}

/-- One page, behind the first `n` of the ranking. -/
theorem Planned.executePage_spec (h : Planned input plan) (totalHitsMode : TotalHitsMode)
    (ownerToken searchRequest snapshotVersion : ℕ) {n : ℕ} {after : Option (PageAnchor Score)}
    (hafter : Reached (ranking input.snapshot input.filter plan.root) n after) :
    ∃ page, plan.executePage totalHitsMode after ownerToken searchRequest snapshotVersion =
        .ok page ∧
      PageAt (.builtIn ownerToken searchRequest snapshotVersion)
        (ranking input.snapshot input.filter plan.root) input.limit totalHitsMode n page := by
  rw [ranking_eq] at hafter ⊢
  set found := allMatches input.snapshot input.filter plan.root with hfound
  have hd : (found.map RankedCandidate.rank).Nodup := allMatches_nodup
  have hde : ((eligible after found).map RankedCandidate.rank).Nodup :=
    (List.filter_sublist.map _).nodup hd
  have hpage : plan.rankedPageCandidates totalHitsMode after =
      ⟨plan.limit, decide (totalHitsMode = .exact), after,
        (eligible after found).foldl (offerCandidate plan.limit) [],
        if totalHitsMode = .exact then found.length else 0, (eligible after found).length⟩ := by
    have hloop : plan.rankedPageCandidates totalHitsMode after =
        plan.scored.foldl PageAccumulator.recordMatch
          ⟨plan.limit, decide (totalHitsMode = .exact), after, [], 0, 0⟩ := by
      unfold SearchPlan.rankedPageCandidates
      dsimp only
      split
      · rename_i hempty
        rw [scored_eq_nil hempty]
        rfl
      · rfl
    rw [hloop, foldl_recordMatch, h.scored_eq]
    simp [hfound]
  obtain ⟨htop, hlen⟩ := Selection.foldl_offer plan.limit_pos hde
  have hbehind := ranked_eligible hd hafter
  have hcount : (eligible after found).length = found.length - n := by
    have hlength := congrArg List.length hbehind
    rwa [List.length_drop, Selection.length_ranked, Selection.length_ranked] at hlength
  rw [hbehind, h.limit] at htop
  rw [hcount, h.limit] at hlen
  unfold SearchPlan.executePage
  rw [hpage]
  dsimp only
  rw [insertionSort_bestFirst, offerCandidate_eq, h.limit, htop, hlen, hcount]
  have htotal : (if totalHitsMode = .exact then
      some (if totalHitsMode = .exact then found.length else 0) else none) =
      if totalHitsMode = .exact then
        some (Selection.ranked RankedCandidate.rank found).length else none := by
    rw [Selection.length_ranked]
    cases totalHitsMode <;> rfl
  rw [htotal]
  by_cases hmore : n + input.limit < found.length
  · -- The last hit of a full page is the anchor of the next one.
    obtain ⟨k, hk⟩ := Nat.exists_eq_succ_of_ne_zero input.limit_pos.ne'
    rw [hk] at hmore ⊢
    obtain ⟨last, hlast⟩ : ∃ last,
        (Selection.ranked RankedCandidate.rank found)[n + k]? = some last :=
      ⟨_, List.getElem?_eq_getElem (by rw [Selection.length_ranked]; omega)⟩
    have hgetLast : (((Selection.ranked RankedCandidate.rank found).drop n).take
        (k + 1)).getLast? = some last := by
      rw [List.getLast?_eq_getElem?, List.length_take, List.length_drop, Selection.length_ranked,
        List.getElem?_take_of_lt (by omega), List.getElem?_drop, ← hlast]
      congr 1
      omega
    rw [if_pos (by omega), Nat.succ_eq_add_one, hgetLast]
    refine ⟨_, rfl, rfl, rfl, fun _ => ?_, fun hle => ?_⟩
    · exact ⟨⟨last.score, last.docId⟩, rfl, last, hlast, rfl⟩
    · rw [Selection.length_ranked] at hle
      omega
  · rw [if_neg (by omega)]
    refine ⟨_, rfl, rfl, rfl, fun hlt => ?_, fun _ => rfl⟩
    rw [Selection.length_ranked] at hlt
    omega

end

/-! ### Following the cursors -/

section

variable {fetch : TotalHitsMode → Option (SearchAfterCursor Score) →
    Except Failure (SearchPageResult T Score)} {modes : ℕ → TotalHitsMode}

omit [LinearOrder Score] in
theorem Pages.unique {number : ℕ} {after : Option (SearchAfterCursor Score)}
    {pages others : List (SearchPageResult T Score)} (h : Pages fetch modes number after pages)
    (h' : Pages fetch modes number after others) : others = pages := by
  induction h generalizing others with
  | last hpage hnone =>
    cases h' with
    | last hpage' => rw [Except.ok.inj (hpage'.symm.trans hpage)]
    | more hpage' hsome =>
      rw [Except.ok.inj (hpage'.symm.trans hpage), hnone] at hsome
      cases hsome
  | more hpage hsome _ ih =>
    cases h' with
    | last hpage' hnone =>
      rw [Except.ok.inj (hpage'.symm.trans hpage), hsome] at hnone
      cases hnone
    | more hpage' hsome' hrest =>
      obtain rfl := Except.ok.inj (hpage'.symm.trans hpage)
      obtain rfl := Option.some.inj (hsome'.symm.trans hsome)
      rw [ih hrest]

variable (fetch modes) in
omit [LinearOrder Score] in
/-- From behind the first `n` of the ranking on, the pages show the others. -/
theorem pages_from {cursor : PageAnchor Score → SearchAfterCursor Score}
    {full : List (RankedCandidate T Score)} {limit : ℕ} (hlimit : 0 < limit)
    (hfetch : ∀ mode n after, Reached full n after → ∃ page,
      fetch mode (after.map cursor) = .ok page ∧ PageAt cursor full limit mode n page)
    (number n : ℕ) (after : Option (PageAnchor Score)) (h : Reached full n after) :
    ∃ pages, Pages fetch modes number (after.map cursor) pages ∧
      pages.flatMap (·.hits) = (full.drop n).map RankedCandidate.hit ∧
      ∀ i page, pages[i]? = some page →
        PageAt cursor full limit (modes (number + i)) (n + i * limit) page ∧
        (i + 1 < pages.length → n + (i + 1) * limit < full.length) := by
  induction hrest : full.length - n using Nat.strong_induction_on generalizing number n after with
  | _ rest ih =>
    obtain ⟨page, hpage, hat⟩ := hfetch (modes number) n after h
    by_cases hmore : n + limit < full.length
    · obtain ⟨anchor, hcursor, hreached⟩ := hat.more hmore
      obtain ⟨pages, hpages, hhits, hall⟩ :=
        ih (full.length - (n + limit)) (by omega) (number + 1) (n + limit) _ hreached rfl
      refine ⟨page :: pages, .more hpage hcursor hpages, ?_, fun i page' hi => ?_⟩
      · rw [List.flatMap_cons, hhits, hat.hits, ← List.map_append, ← List.drop_drop,
          List.take_append_drop]
      · cases i with
        | zero =>
          cases hi
          exact ⟨by simpa using hat, fun _ => by omega⟩
        | succ i =>
          obtain ⟨hat', hlt⟩ := hall i page' hi
          have hnumber : number + 1 + i = number + (i + 1) := by omega
          have hstart : n + limit + i * limit = n + (i + 1) * limit := by
            rw [Nat.succ_mul]
            omega
          have hend : n + limit + (i + 1) * limit = n + (i + 1 + 1) * limit := by
            rw [Nat.succ_mul (i + 1)]
            omega
          rw [hnumber, hstart] at hat'
          rw [hend] at hlt
          exact ⟨hat', fun hi => hlt (by rw [List.length_cons] at hi; omega)⟩
    · refine ⟨[page], .last hpage (hat.last (by omega)), ?_, fun i page' hi => ?_⟩
      · rw [List.flatMap_cons, List.flatMap_nil, List.append_nil, hat.hits,
          List.take_of_length_le (by rw [List.length_drop]; omega)]
      · cases i with
        | zero =>
          cases hi
          exact ⟨by simpa using hat, fun hi => absurd hi (by simp)⟩
        | succ i => cases hi

end

theorem searchPage_at {fields : TextFields S} {mode : RangePlanningMode}
    {snapshot : SearchSnapshot T (RankedIndex S)} {request : SearchRequest S ops}
    {input : RankedSearchInput S ops} {plan : SearchPlan S ops}
    (hinput : RankedSearchInput.ofRequest fields snapshot request = .ok input)
    (hplan : SearchPlan.of mode input = .ok plan) (hplanned : Planned input plan)
    (ownerToken : ℕ) (totalHitsMode : TotalHitsMode) (n : ℕ) (after : Option (PageAnchor Score))
    (h : Reached (ranking input.snapshot input.filter plan.root) n after) :
    ∃ page, searchPage fields mode snapshot ownerToken ⟨request,
        after.map (.builtIn ownerToken request.identity snapshot.version), totalHitsMode⟩ =
        .ok page ∧
      PageAt (.builtIn ownerToken request.identity snapshot.version)
        (ranking input.snapshot input.filter plan.root) input.limit totalHitsMode n page := by
  obtain ⟨page, hpage, hat⟩ := hplanned.executePage_spec totalHitsMode ownerToken
    request.identity snapshot.version h
  refine ⟨page, ?_, hat⟩
  have hcursor : validateCursor
      (after.map (.builtIn ownerToken request.identity snapshot.version)) request.identity
      snapshot.version ownerToken = .ok after := by
    cases after <;> simp [validateCursor]
  unfold searchPage
  dsimp only
  rw [hcursor, hinput]
  dsimp only [bind, Except.bind]
  rw [hplan]
  exact hpage

/-- The pages that the cursors lead through show the ranking of all documents that the compiled query
matches, which is strictly in order, from its first element to its last.  Every page but the last is full, there is a
cursor exactly where more follows, and an exact total counts the ranking. -/
theorem pages_cover {fields : TextFields S} {snapshot : SearchSnapshot T (RankedIndex S)}
    (hsync : Synced snapshot) (mode : RangePlanningMode) (ownerToken : ℕ)
    {request : SearchRequest S ops} {input : RankedSearchInput S ops}
    (hinput : RankedSearchInput.ofRequest fields snapshot request = .ok input)
    (modes : ℕ → TotalHitsMode) :
    ∃ plan pages, SearchPlan.of mode input = .ok plan ∧
      (∃ root, normalize fields ops snapshot request.query = .ok root ∧
        compile ops request.bm25 root = .ok plan.root) ∧
      let fetch := fun totalHitsMode after =>
        searchPage fields mode snapshot ownerToken ⟨request, after, totalHitsMode⟩
      let full := ranking snapshot request.filter plan.root
      Pages fetch modes 0 none pages ∧
      (∀ others, Pages fetch modes 0 none others → others = pages) ∧
      pages.flatMap (·.hits) = full.map RankedCandidate.hit ∧
      full.Pairwise isBetter ∧
      ∀ i page, pages[i]? = some page →
        (i + 1 < pages.length → page.hits.length = request.limit) ∧
        (page.nextCursor.isSome ↔ full.drop ((i + 1) * request.limit) ≠ []) ∧
        page.totalHits = if modes i = .exact then some full.length else none := by
  obtain ⟨hroot, hconfig, hsnapshot, hfilter, hlimit⟩ := ofRequest_ok hinput
  obtain ⟨plan, hplan, hplanned⟩ := planned mode (hsnapshot.symm ▸ hsync)
  have hcompiled := hplanned.compiled
  rw [hconfig] at hcompiled
  have hfetch := searchPage_at hinput hplan hplanned ownerToken
  rw [hsnapshot, hfilter, hlimit] at hfetch
  obtain ⟨pages, hpages, hhits, hall⟩ := pages_from
    (fun totalHitsMode after =>
      searchPage fields mode snapshot ownerToken ⟨request, after, totalHitsMode⟩)
    modes request.limit_pos hfetch 0 0 none rfl
  refine ⟨plan, pages, hplan, ⟨_, hroot, hcompiled⟩, hpages, fun _ h => hpages.unique h, hhits, ?_, fun i page hi => ?_⟩
  · rw [ranking_eq]
    exact (Selection.ranked_lt allMatches_nodup).imp isBetter_iff.mpr
  · obtain ⟨hat, hlt⟩ := hall i page hi
    have hend : 0 + i * request.limit + request.limit = (i + 1) * request.limit := by
      rw [Nat.succ_mul, Nat.zero_add]
    refine ⟨fun hi => ?_, ?_, by simpa using hat.total⟩
    · have := hlt hi
      rw [hat.hits, List.length_map, List.length_take, List.length_drop]
      omega
    · rw [Ne, List.drop_eq_nil_iff, not_le]
      constructor
      · intro hsome
        by_contra hle
        rw [hat.last (by omega)] at hsome
        cases hsome
      · intro hlt
        obtain ⟨anchor, hcursor, -⟩ := hat.more (by omega)
        rw [hcursor]
        rfl

/-- Two documents of the same score, one on each page. -/
theorem pages_cover_words :
    ∃ (plan : SearchPlan wordSchema counts) (pages : List (SearchPageResult (ℕ × JString) ℕ)),
      Pages (fun totalHitsMode after =>
          searchPage wordFields .costAware wordSnapshot 4 ⟨wordRequest, after, totalHitsMode⟩)
        (fun _ => .exact) 0 none pages ∧
      pages.map (·.hits) = [[⟨(0, [97]), 3⟩], [⟨(1, [97]), 3⟩]] ∧
      pages.map (·.totalHits) = [some 2, some 2] ∧
      (ranking wordSnapshot none plan.root).map RankedCandidate.hit =
        [⟨(0, [97]), 3⟩, ⟨(1, [97]), 3⟩] := by
  obtain ⟨input, hinput⟩ : ∃ input,
      RankedSearchInput.ofRequest wordFields wordSnapshot wordRequest = .ok input := ⟨_, rfl⟩
  obtain ⟨plan, pages, -, -, hpages, hunique, hhits, -⟩ :=
    pages_cover wordSnapshot_synced .costAware 4 hinput fun _ => .exact
  obtain rfl := hunique _ (.more rfl rfl (.last rfl rfl))
  exact ⟨plan, _, hpages, rfl, rfl, hhits.symm.trans rfl⟩

end GeneralSearch.Ranked
