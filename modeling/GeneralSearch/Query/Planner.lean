import GeneralSearch.Query.Candidates

/-! `CandidatePlanner` and `SnapshotSearcher`.  The planner looks for an index bitmap that covers a
query; costs decide which of several indexes is read and whether one more intersection pays, and a
bitmap is marked exact only when no document has to be verified.  `plan_covers` says that this
never loses a document, `search_eq` that a search returns what the linear scan returns. -/

namespace GeneralSearch.Planner

open GeneralSearch.Storage GeneralSearch.Index

variable {T : Type} {S : Schema T}

/-! ### Costs -/

/-- `EstimatedAccessPath`. -/
structure EstimatedAccessPath (S : Schema T) where
  index : IndexSnapshot S
  query : Query S
  estimate : CandidateEstimate

def EstimatedAccessPath.materialize (path : EstimatedAccessPath S) : Option CandidateResult :=
  path.index.candidates path.query

/-- `PlannerCostModel.accessPathWork` in quarters of its unit, which makes the penalty of 1.25 a
whole number; the doubles of the source are exact for these values. -/
def accessPathWork (estimate : CandidateEstimate) : ℕ :=
  (estimate.estimatedCandidateCardinality * 8 + estimate.estimatedSourceCount * 2) *
    match estimate.quality with
    | .approximate => 5
    | .exact => 4

/-- `PlannerCostModel.preferIndex`. -/
def preferIndex (estimate : CandidateEstimate) (activeDocumentCount : ℕ) : Bool :=
  activeDocumentCount < 64 || accessPathWork estimate ≤ activeDocumentCount * 4

/-- `PlannerCostModel.intersectionPays`. -/
def intersectionPays (estimate : CandidateEstimate) (currentCandidateCardinality : ℕ) : Bool :=
  estimate.quality = .exact &&
    estimate.estimatedCandidateCardinality < currentCandidateCardinality &&
    (estimate.estimatedCandidateCardinality + 63) / 64 + estimate.estimatedSourceCount * 2 <
      currentCandidateCardinality - estimate.estimatedCandidateCardinality

def accuracyRank : CandidateAccuracy → ℕ
  | .exact => 0
  | .superset => 1

/-- `pathComparator().compare(a, b) <= 0`. -/
def pathLE (a b : EstimatedAccessPath S) : Bool :=
  accessPathWork a.estimate < accessPathWork b.estimate ||
    (accessPathWork a.estimate = accessPathWork b.estimate &&
      (a.estimate.estimatedCandidateCardinality < b.estimate.estimatedCandidateCardinality ||
        (a.estimate.estimatedCandidateCardinality = b.estimate.estimatedCandidateCardinality &&
          accuracyRank a.estimate.accuracy ≤ accuracyRank b.estimate.accuracy)))

/-- `Stream.min` for a nonempty stream: the earlier of two equal elements stays. -/
def streamMin {α : Type} (le : α → α → Bool) (first : α) (rest : List α) : α :=
  rest.foldl (fun a b => if le a b then a else b) first

/-- `IndexRegistry.candidates`. -/
def registryCandidates (indexes : List (IndexSnapshot S)) (query : Query S) :
    Option CandidateResult :=
  match indexes.filterMap (·.candidates query) with
  | [] => none
  | first :: rest => some (streamMin (fun a b => a.bitmap.card < b.bitmap.card ||
      (a.bitmap.card = b.bitmap.card && accuracyRank a.accuracy ≤ accuracyRank b.accuracy))
      first rest)

/-- `CandidatePlanner.estimatedPaths`. -/
def estimatedPaths (indexes : List (IndexSnapshot S)) (query : Query S) :
    List (EstimatedAccessPath S) :=
  indexes.filterMap fun index => (index.estimateCandidates query).map (⟨index, query, ·⟩)

/-! ### Plans -/

/-- `CandidatePlanner.exact`. -/
def exact (bitmap : Finset ℕ) : Option CandidateResult := some ⟨bitmap, .exact⟩

/-- One more child of a conjunction or disjunction: a superset makes the whole a superset. -/
def CandidateAccuracy.meet (accuracy child : CandidateAccuracy) : CandidateAccuracy :=
  if child = .superset then .superset else accuracy

/-- `CandidatePlanner.complementExact`. -/
def complementExact (activeDocuments : Finset ℕ) (child : Option CandidateResult) :
    Option CandidateResult :=
  match child with
  | some ⟨bitmap, .exact⟩ => exact (activeDocuments \ bitmap)
  | _ => none

/-- The loop of `CandidatePlanner.planOr` behind its first child. -/
def orLoop (result : CandidateResult) : List (Option CandidateResult) → Option CandidateResult
  | [] => some result
  | none :: _ => none
  | some child :: rest =>
    orLoop ⟨result.bitmap ∪ child.bitmap, result.accuracy.meet child.accuracy⟩ rest

/-- `CandidatePlanner.planOr` on the plans of its children. -/
def planOr : List (Option CandidateResult) → Option CandidateResult
  | [] => exact ∅
  | none :: _ => none
  | some first :: rest => orLoop first rest

/-- The first loop of `CandidatePlanner.planAndCompatibility`; `error` is its early return. -/
def collectIndexed (indexed : List (Finset ℕ)) (accuracy : CandidateAccuracy) :
    List (Option CandidateResult) →
      Except CandidateResult (List (Finset ℕ) × CandidateAccuracy)
  | [] => .ok (indexed, accuracy)
  | none :: rest => collectIndexed indexed .superset rest
  | some child :: rest =>
    if child.bitmap = ∅ then .error ⟨∅, .exact⟩
    else collectIndexed (indexed ++ [child.bitmap]) (accuracy.meet child.accuracy) rest

/-- The second loop of `CandidatePlanner.planAndCompatibility`. -/
def intersectIndexed (candidates : Finset ℕ) (accuracy : CandidateAccuracy) :
    List (Finset ℕ) → CandidateResult
  | [] => ⟨candidates, accuracy⟩
  | bitmap :: rest =>
    if candidates ∩ bitmap = ∅ then ⟨∅, .exact⟩
    else intersectIndexed (candidates ∩ bitmap) accuracy rest

/-- `CandidatePlanner.planAndCompatibility` on the plans of its children. -/
def planAndCompatibility (children : List (Option CandidateResult)) : Option CandidateResult :=
  match collectIndexed [] .exact children with
  | .error result => some result
  | .ok (indexed, accuracy) =>
    match indexed.insertionSort fun a b => a.card ≤ b.card with
    | [] => none
    | first :: rest => some (intersectIndexed first accuracy rest)

/-- The plan of a query that an index answers by itself: the best estimated path, or else the
smallest candidates of the registry. -/
def planDirect (indexes : List (IndexSnapshot S)) (query : Query S) :
    Option (Option CandidateResult) :=
  match estimatedPaths indexes query with
  | first :: rest => some (streamMin pathLE first rest).materialize
  | [] => (registryCandidates indexes query).map some

mutual

/-- `CandidatePlanner.planCompatibility`. -/
def planCompatibility (snapshot : SearchSnapshot T (IndexSnapshot S)) :
    Query S → Option CandidateResult
  | .matchAll => (planDirect snapshot.indexes .matchAll).getD (exact snapshot.activeDocuments)
  | .and queries => (planDirect snapshot.indexes (.and queries)).getD
      (planAndCompatibility (planEach snapshot queries))
  | .or queries => (planDirect snapshot.indexes (.or queries)).getD
      (planOr (planEach snapshot queries))
  | .not query => (planDirect snapshot.indexes (.not query)).getD
      (complementExact snapshot.activeDocuments (planCompatibility snapshot query))
  | query => (planDirect snapshot.indexes query).getD none

/-- The plans of the children of a conjunction or disjunction. -/
def planEach (snapshot : SearchSnapshot T (IndexSnapshot S)) :
    List (Query S) → List (Option CandidateResult)
  | [] => []
  | query :: rest => planCompatibility snapshot query :: planEach snapshot rest

end

/-- What the first loop of `CandidatePlanner.planAnd` collects. -/
structure AndChildren (S : Schema T) where
  estimated : List (EstimatedAccessPath S)
  compatibilityCandidates : List CandidateResult
  allChildrenPlanned : Bool

/-- The first loop of `CandidatePlanner.planAnd`; `error` is its early return. -/
def collectAnd (snapshot : SearchSnapshot T (IndexSnapshot S)) (children : AndChildren S) :
    List (Query S) → Except CandidateResult (AndChildren S)
  | [] => .ok children
  | filter :: rest =>
    match estimatedPaths snapshot.indexes filter with
    | first :: others =>
      collectAnd snapshot
        { children with estimated := children.estimated ++ [streamMin pathLE first others] } rest
    | [] =>
      match planCompatibility snapshot filter with
      | none => collectAnd snapshot { children with allChildrenPlanned := false } rest
      | some child =>
        if child.bitmap = ∅ then .error ⟨∅, .exact⟩
        else collectAnd snapshot
          { children with
            compatibilityCandidates := children.compatibilityCandidates ++ [child] } rest

/-- The intersections of `CandidatePlanner.planAnd` with its estimated paths: a path whose
intersection does not pay is left to the verification. -/
def intersectEstimated (candidates : Finset ℕ) (accuracy : CandidateAccuracy)
    (allChildrenPlanned : Bool) : List (EstimatedAccessPath S) →
      Except CandidateResult (Finset ℕ × CandidateAccuracy × Bool)
  | [] => .ok (candidates, accuracy, allChildrenPlanned)
  | path :: rest =>
    if !intersectionPays path.estimate candidates.card then
      intersectEstimated candidates accuracy false rest
    else match path.materialize with
    | none => intersectEstimated candidates accuracy false rest
    | some materialized =>
      if candidates ∩ materialized.bitmap = ∅ then .error ⟨∅, .exact⟩
      else intersectEstimated (candidates ∩ materialized.bitmap)
        (accuracy.meet materialized.accuracy) allChildrenPlanned rest

/-- The intersections of `CandidatePlanner.planAnd` with its materialized children, and its
result. -/
def intersectCompatibility (candidates : Finset ℕ) (accuracy : CandidateAccuracy)
    (allChildrenPlanned : Bool) : List CandidateResult → CandidateResult
  | [] => ⟨candidates, if allChildrenPlanned then accuracy else .superset⟩
  | child :: rest =>
    if candidates ∩ child.bitmap = ∅ then ⟨∅, .exact⟩
    else intersectCompatibility (candidates ∩ child.bitmap) (accuracy.meet child.accuracy)
      allChildrenPlanned rest

/-- `CandidatePlanner.planAnd` behind the choice of its first candidates. -/
def intersectChildren (first : CandidateResult) (allChildrenPlanned : Bool)
    (estimated : List (EstimatedAccessPath S)) (compatibilityCandidates : List CandidateResult) :
    CandidateResult :=
  if first.bitmap = ∅ then ⟨∅, .exact⟩
  else match intersectEstimated first.bitmap first.accuracy allChildrenPlanned estimated with
  | .error result => result
  | .ok (candidates, accuracy, planned) =>
    intersectCompatibility candidates accuracy planned compatibilityCandidates

/-- `CandidatePlanner.planAnd`. -/
def planAnd (snapshot : SearchSnapshot T (IndexSnapshot S)) (filters : List (Query S)) :
    Option CandidateResult :=
  match collectAnd snapshot ⟨[], [], true⟩ filters with
  | .error result => some result
  | .ok children =>
    let estimated := children.estimated.insertionSort fun a b => pathLE a b
    let firstPath := estimated.findIdx? fun path =>
      preferIndex path.estimate snapshot.activeDocuments.card
    let others := match firstPath with
      | none => estimated
      | some i => estimated.eraseIdx i
    match firstPath.bind (estimated[·]?) with
    | some path =>
      match path.materialize with
      | some first => some (intersectChildren first children.allChildrenPlanned others
          children.compatibilityCandidates)
      | none => fromCompatibility false others children.compatibilityCandidates
    | none => fromCompatibility children.allChildrenPlanned others
        children.compatibilityCandidates
where
  /-- Without a path to start from, the smallest materialized child is the first one. -/
  fromCompatibility (allChildrenPlanned : Bool) (estimated : List (EstimatedAccessPath S))
      (compatibilityCandidates : List CandidateResult) : Option CandidateResult :=
    match compatibilityCandidates.insertionSort fun a b => a.bitmap.card ≤ b.bitmap.card with
    | [] => none
    | first :: rest => some (intersectChildren first allChildrenPlanned estimated rest)

/-- `RangePlanningMode`, the only setting of `PlannerConfig`. -/
inductive RangePlanningMode where
  | costAware
  | forceIndex
  | forceScan
  deriving DecidableEq, Repr

def Query.isRange : Query S → Bool
  | .range .. => true
  | _ => false

/-- `CandidatePlanner.plan`. -/
def plan (mode : RangePlanningMode) (snapshot : SearchSnapshot T (IndexSnapshot S))
    (filter : Query S) : Option CandidateResult :=
  match estimatedPaths snapshot.indexes filter with
  | first :: rest =>
    let selected := streamMin pathLE first rest
    if filter.isRange then
      if mode = .forceScan then none
      else if mode = .costAware &&
          !preferIndex selected.estimate snapshot.activeDocuments.card then none
      else selected.materialize
    else selected.materialize
  | [] =>
    if filter.isRange && mode = .forceScan then none
    else match registryCandidates snapshot.indexes filter with
    | some legacy => some legacy
    | none =>
      match filter with
      | .matchAll => exact snapshot.activeDocuments
      | .and queries => planAnd snapshot queries
      | .or queries => planOr (planEach snapshot queries)
      | .not query => complementExact snapshot.activeDocuments (planCompatibility snapshot query)
      | _ => none

/-- `SnapshotSearcher.search`. -/
def search (mode : RangePlanningMode) (snapshot : SearchSnapshot T (IndexSnapshot S))
    (query : Query S) : List T :=
  let candidates := ((plan mode snapshot query).map (·.bitmap)).getD snapshot.activeDocuments
  (setBits candidates).filterMap fun docId =>
    (snapshot.get docId).filter fun document => query.matchesDocument document

/-! ### Plans cover their query -/

/-- Every active id has its document, and every registered index shows the documents. -/
structure InSync (snapshot : SearchSnapshot T (IndexSnapshot S)) : Prop where
  documents : ∀ d ∈ snapshot.activeDocuments, (snapshot.documents d).isSome = true
  indexes : ∀ index ∈ snapshot.indexes, index.InSync snapshot.get

/-- A plan that is there covers the query. -/
def PlanCovers (get : ℕ → Option T) (query : Query S) (planned : Option CandidateResult) : Prop :=
  ∀ result, planned = some result → Covers get query result

theorem allMatch_iff {document : T} {queries : List (Query S)} :
    Query.allMatch document queries = true ↔
      ∀ query ∈ queries, query.matchesDocument document = true := by
  induction queries with
  | nil => simp [Query.allMatch]
  | cons query rest ih => simp [Query.allMatch, ih]

theorem anyMatch_iff {document : T} {queries : List (Query S)} :
    Query.anyMatch document queries = true ↔
      ∃ query ∈ queries, query.matchesDocument document = true := by
  induction queries with
  | nil => simp [Query.anyMatch]
  | cons query rest ih => simp [Query.anyMatch, ih]

theorem streamMin_mem {α : Type} (le : α → α → Bool) (first : α) (rest : List α) :
    streamMin le first rest ∈ first :: rest := by
  unfold streamMin
  induction rest generalizing first with
  | nil => simp
  | cons a rest ih =>
    rw [List.foldl_cons]
    split
    · rcases List.mem_cons.mp (ih first) with h | h
      · rw [h]
        exact List.mem_cons_self
      · exact List.mem_cons_of_mem _ (List.mem_cons_of_mem _ h)
    · exact List.mem_cons_of_mem _ (ih a)

section

variable {snapshot : SearchSnapshot T (IndexSnapshot S)} (h : InSync snapshot)
include h

omit h in
theorem mem_estimatedPaths {indexes : List (IndexSnapshot S)} {query : Query S}
    {path : EstimatedAccessPath S} (hp : path ∈ estimatedPaths indexes query) :
    path.query = query ∧ path.index ∈ indexes := by
  obtain ⟨index, hindex, hpath⟩ := List.mem_filterMap.mp hp
  obtain ⟨estimate, -, rfl⟩ := Option.map_eq_some_iff.mp hpath
  exact ⟨rfl, hindex⟩

theorem materialize_covers {path : EstimatedAccessPath S} (hp : path.index ∈ snapshot.indexes) :
    PlanCovers snapshot.get path.query path.materialize :=
  fun _ hr => candidates_covers (h.indexes _ hp) hr

theorem bestPath_covers {query : Query S} {first : EstimatedAccessPath S}
    {rest : List (EstimatedAccessPath S)}
    (hpaths : estimatedPaths snapshot.indexes query = first :: rest) :
    PlanCovers snapshot.get query (streamMin pathLE first rest).materialize := by
  obtain ⟨hquery, hindex⟩ := mem_estimatedPaths (hpaths ▸ streamMin_mem pathLE first rest)
  rw [← hquery]
  exact materialize_covers h hindex

theorem registryCandidates_covers (query : Query S) :
    PlanCovers snapshot.get query (registryCandidates snapshot.indexes query) := by
  intro result hr
  unfold registryCandidates at hr
  split at hr
  · cases hr
  · next first rest hlist =>
    cases hr
    obtain ⟨index, hindex, hcandidates⟩ := List.mem_filterMap.mp (hlist ▸ streamMin_mem _ first rest)
    exact candidates_covers (h.indexes _ hindex) hcandidates

theorem planDirect_covers {query : Query S} {otherwise : Option CandidateResult}
    (hotherwise : PlanCovers snapshot.get query otherwise) :
    PlanCovers snapshot.get query ((planDirect snapshot.indexes query).getD otherwise) := by
  unfold planDirect
  split
  · next first rest hpaths => exact bestPath_covers h hpaths
  · cases hlegacy : registryCandidates snapshot.indexes query with
    | none => exact hotherwise
    | some result =>
      intro r hr
      cases hr
      exact registryCandidates_covers h query _ hlegacy

theorem matchAll_covers : Covers snapshot.get (.matchAll : Query S)
    ⟨snapshot.activeDocuments, .exact⟩ := by
  refine ⟨fun d t ht _ => ?_, fun _ d hd => ?_⟩
  · by_contra hd
    simp [SearchSnapshot.get, show d ∉ snapshot.activeDocuments from hd] at ht
  · obtain ⟨t, ht⟩ := Option.isSome_iff_exists.mp (h.documents d hd)
    have hd' : d ∈ snapshot.activeDocuments := hd
    exact ⟨t, by simp [SearchSnapshot.get, hd', ht], rfl⟩

/-- The complement of exact candidates is exact; that of a superset would lose documents. -/
theorem complementExact_covers {query : Query S} {child : Option CandidateResult}
    (hchild : PlanCovers snapshot.get query child) :
    PlanCovers snapshot.get (.not query)
      (complementExact snapshot.activeDocuments child) := by
  intro result hr
  unfold complementExact at hr
  split at hr
  · next bitmap =>
    cases hr
    obtain ⟨hsuperset, hexact⟩ := hchild _ rfl
    obtain ⟨hall, hactive⟩ := matchAll_covers h
    refine ⟨fun d t ht hm => ?_, fun _ d hd => ?_⟩
    · rw [Query.matchesDocument, Bool.not_eq_true'] at hm
      refine Finset.mem_sdiff.mpr ⟨hall d t ht rfl, fun hd => ?_⟩
      obtain ⟨t', ht', hm'⟩ := hexact rfl d hd
      rw [ht] at ht'
      cases ht'
      rw [hm] at hm'
      cases hm'
    · obtain ⟨hd, hnot⟩ := Finset.mem_sdiff.mp hd
      obtain ⟨t, ht, -⟩ := hactive rfl d hd
      refine ⟨t, ht, ?_⟩
      rw [Query.matchesDocument, Bool.not_eq_true']
      by_contra hm
      exact hnot (hsuperset d t ht (by simpa using hm))
  · cases hr

end

/-! ### Disjunctions -/

section

variable {get : ℕ → Option T}

theorem meet_eq_exact {a b : CandidateAccuracy} : a.meet b = .exact ↔ a = .exact ∧ b = .exact := by
  cases a <;> cases b <;> simp [CandidateAccuracy.meet]

/-- The loop over the children of a disjunction: `done` are the queries that the result covers. -/
theorem orLoop_covers {done rest : List (Query S)} {children : List (Option CandidateResult)}
    (hchildren : List.Forall₂ (PlanCovers get) rest children) {result : CandidateResult}
    (hresult : Covers get (.or done) result) :
    PlanCovers get (.or (done ++ rest)) (orLoop result children) := by
  induction hchildren generalizing done result with
  | nil =>
    intro r hr
    cases hr
    simpa using hresult
  | @cons query child rest children hchild _ ih =>
    cases child with
    | none => exact fun _ hr => nomatch hr
    | some child =>
      obtain ⟨hs, he⟩ := hchild _ rfl
      obtain ⟨hsuperset, hexact⟩ := hresult
      have hstep : Covers get (.or (done ++ [query]))
          ⟨result.bitmap ∪ child.bitmap, result.accuracy.meet child.accuracy⟩ := by
        refine ⟨fun d t ht hm => ?_, fun hacc d hd => ?_⟩
        · rw [Query.matchesDocument, anyMatch_iff] at hm
          obtain ⟨q, hq, hm⟩ := hm
          rcases List.mem_append.mp hq with hq | hq
          · refine Finset.mem_union_left _ (hsuperset d t ht ?_)
            rw [Query.matchesDocument, anyMatch_iff]
            exact ⟨q, hq, hm⟩
          · rw [List.mem_singleton.mp hq] at hm
            exact Finset.mem_union_right _ (hs d t ht hm)
        · obtain ⟨hr, hc⟩ := meet_eq_exact.mp hacc
          simp only [Query.matchesDocument, anyMatch_iff]
          rcases Finset.mem_union.mp hd with hd | hd
          · obtain ⟨t, ht, hm⟩ := hexact hr d hd
            rw [Query.matchesDocument, anyMatch_iff] at hm
            obtain ⟨q, hq, hm⟩ := hm
            exact ⟨t, ht, q, List.mem_append_left _ hq, hm⟩
          · obtain ⟨t, ht, hm⟩ := he hc d hd
            exact ⟨t, ht, query, by simp, hm⟩
      have hrest := ih hstep
      rwa [List.append_assoc, List.singleton_append] at hrest

theorem planOr_covers {queries : List (Query S)} {children : List (Option CandidateResult)}
    (hchildren : List.Forall₂ (PlanCovers get) queries children) :
    PlanCovers get (.or queries) (planOr children) := by
  cases hchildren with
  | nil =>
    intro r hr
    cases hr
    exact ⟨fun d t _ hm => by simp at hm,
      fun _ d hd => absurd hd (Finset.notMem_empty d)⟩
  | @cons query child rest children hchild hrest =>
    cases child with
    | none => exact fun _ hr => nomatch hr
    | some child =>
      obtain ⟨hs, he⟩ := hchild _ rfl
      have hfirst : Covers get (.or [query]) child := by
        simpa [Covers] using And.intro hs he
      exact orLoop_covers hrest hfirst

/-! ### Conjunctions

A conjunction is planned by intersecting the candidates of its children one after the other.
`Narrows` is the invariant: no matching document is lost, and as long as the accuracy is exact and
every child is planned, a candidate matches every child except those that are still to come. -/

/-- The candidates hold every document that matches all filters, and a candidate satisfies every
filter that is not pending, unless some child was skipped or inexact. -/
structure Narrows (get : ℕ → Option T) (filters : List (Query S)) (candidates : Finset ℕ)
    (isExact : Prop) (pending : Query S → Prop) : Prop where
  superset : ∀ d t, get d = some t → (∀ q ∈ filters, q.matchesDocument t = true) → d ∈ candidates
  exact : isExact → ∀ d ∈ candidates, ∃ t, get d = some t ∧
    ∀ q ∈ filters, q.matchesDocument t = true ∨ pending q

theorem Narrows.covers {filters : List (Query S)} {candidates : Finset ℕ} {isExact : Prop}
    {pending : Query S → Prop} (h : Narrows get filters candidates isExact pending)
    {accuracy : CandidateAccuracy} (hexact : accuracy = .exact → isExact)
    (hpending : accuracy = .exact → ∀ q ∈ filters, ¬ pending q) :
    Covers get (.and filters) ⟨candidates, accuracy⟩ := by
  refine ⟨fun d t ht hm => h.superset d t ht ?_, fun hacc d hd => ?_⟩
  · rwa [Query.matchesDocument, allMatch_iff] at hm
  · obtain ⟨t, ht, hall⟩ := h.exact (hexact hacc) d hd
    refine ⟨t, ht, ?_⟩
    rw [Query.matchesDocument, allMatch_iff]
    exact fun q hq => (hall q hq).resolve_right (hpending hacc q hq)

/-- Empty candidates are exact whatever is still to come. -/
theorem Narrows.covers_empty {filters : List (Query S)} {candidates : Finset ℕ} {isExact : Prop}
    {pending : Query S → Prop} (h : Narrows get filters candidates isExact pending)
    (hempty : candidates = ∅) : Covers get (.and filters) ⟨∅, .exact⟩ := by
  refine ⟨fun d t ht hm => ?_, fun _ d hd => absurd hd (Finset.notMem_empty d)⟩
  rw [Query.matchesDocument, allMatch_iff] at hm
  exact hempty ▸ h.superset d t ht hm

theorem Narrows.mono {filters : List (Query S)} {candidates : Finset ℕ} {isExact isExact' : Prop}
    {pending pending' : Query S → Prop} (h : Narrows get filters candidates isExact pending)
    (hexact : isExact' → isExact) (hpending : isExact' → ∀ q ∈ filters, pending q → pending' q) :
    Narrows get filters candidates isExact' pending' where
  superset := h.superset
  exact he d hd := by
    obtain ⟨t, ht, hall⟩ := h.exact (hexact he) d hd
    exact ⟨t, ht, fun q hq => (hall q hq).imp_right (hpending he q hq)⟩

/-- One more intersection, with a bitmap that loses no document of one of the filters; a filter
that the bitmap decides exactly is no longer pending. -/
theorem Narrows.inter {filters : List (Query S)} {candidates : Finset ℕ} {isExact isExact' : Prop}
    {pending pending' : Query S → Prop} (h : Narrows get filters candidates isExact pending)
    {bitmap : Finset ℕ} (hbitmap : ∃ q ∈ filters, Covers get q ⟨bitmap, .superset⟩)
    (hexact : isExact' → isExact)
    (hpending : isExact' → ∀ q ∈ filters, pending q →
      pending' q ∨ Covers get q ⟨bitmap, .exact⟩) :
    Narrows get filters (candidates ∩ bitmap) isExact' pending' where
  superset d t ht hall := by
    obtain ⟨q, hq, hs, -⟩ := hbitmap
    exact Finset.mem_inter.mpr ⟨h.superset d t ht hall, hs d t ht (hall q hq)⟩
  exact he d hd := by
    obtain ⟨hc, hb⟩ := Finset.mem_inter.mp hd
    obtain ⟨t, ht, hall⟩ := h.exact (hexact he) d hc
    refine ⟨t, ht, fun q hq => ?_⟩
    rcases hall q hq with hm | hp
    · exact .inl hm
    rcases hpending he q hq hp with hp' | hcovers
    · exact .inr hp'
    · obtain ⟨t', ht', hm⟩ := hcovers.2 rfl d hb
      rw [ht] at ht'
      cases ht'
      exact .inl hm

/-- Candidates that cover one of the filters are a start. -/
theorem Covers.narrows {filters : List (Query S)} {query : Query S} (hq : query ∈ filters)
    {first : CandidateResult} (h : Covers get query first) {isExact : Prop}
    {pending : Query S → Prop} (hexact : isExact → first.accuracy = .exact)
    (hpending : isExact → ∀ q ∈ filters, Covers get q first ∨ pending q) :
    Narrows get filters first.bitmap isExact pending where
  superset d t ht hall := h.1 d t ht (hall query hq)
  exact he d hd := by
    obtain ⟨t, ht, -⟩ := h.2 (hexact he) d hd
    refine ⟨t, ht, fun q hqf => (hpending he q hqf).imp_left fun hcovers => ?_⟩
    obtain ⟨t', ht', hm⟩ := hcovers.2 (hexact he) d hd
    rw [ht] at ht'
    cases ht'
    exact hm

/-- Less accuracy is covered as well. -/
theorem Covers.weaken {query : Query S} {bitmap : Finset ℕ} {accuracy accuracy' : CandidateAccuracy}
    (h : Covers get query ⟨bitmap, accuracy⟩) (hacc : accuracy' = .exact → accuracy = .exact) :
    Covers get query ⟨bitmap, accuracy'⟩ := ⟨h.1, fun he => h.2 (hacc he)⟩

theorem Covers.superset {query : Query S} {result : CandidateResult} (h : Covers get query result) :
    Covers get query ⟨result.bitmap, .superset⟩ := ⟨h.1, nofun⟩

theorem Covers.exact {query : Query S} {result : CandidateResult} (h : Covers get query result)
    (hacc : result.accuracy = .exact) : Covers get query ⟨result.bitmap, .exact⟩ :=
  ⟨h.1, fun _ => h.2 hacc⟩

/-! #### Nested conjunctions -/

/-- The bitmaps collected for the filters `done`. -/
structure Indexed (get : ℕ → Option T) (done : List (Query S)) (indexed : List (Finset ℕ))
    (accuracy : CandidateAccuracy) : Prop where
  sound : ∀ b ∈ indexed, ∃ q ∈ done, Covers get q ⟨b, accuracy⟩
  complete : accuracy = .exact → ∀ q ∈ done, ∃ b ∈ indexed, Covers get q ⟨b, .exact⟩

theorem collectIndexed_covers {done rest : List (Query S)}
    {children : List (Option CandidateResult)}
    (hchildren : List.Forall₂ (PlanCovers get) rest children) {indexed : List (Finset ℕ)}
    {accuracy : CandidateAccuracy} (h : Indexed get done indexed accuracy) :
    match collectIndexed indexed accuracy children with
    | .error result => Covers get (.and (done ++ rest)) result
    | .ok (indexed, accuracy) => Indexed get (done ++ rest) indexed accuracy := by
  induction hchildren generalizing done indexed accuracy with
  | nil => simpa [collectIndexed] using h
  | @cons query child rest children hchild _ ih =>
    cases child with
    | none =>
      have hskip : Indexed get (done ++ [query]) indexed .superset := by
        refine ⟨fun b hb => ?_, nofun⟩
        obtain ⟨q, hq, hcovers⟩ := h.sound b hb
        exact ⟨q, List.mem_append_left _ hq, hcovers.weaken nofun⟩
      simpa [collectIndexed] using ih hskip
    | some child =>
      have hcovers := hchild _ rfl
      by_cases hempty : child.bitmap = ∅
      · -- no document matches this filter, so none matches all of them
        simp only [collectIndexed, hempty, if_true]
        refine ⟨fun d t ht hm => ?_, fun _ d hd => absurd hd (Finset.notMem_empty d)⟩
        rw [Query.matchesDocument, allMatch_iff] at hm
        exact hempty ▸ hcovers.1 d t ht (hm query (by simp))
      · have hadd : Indexed get (done ++ [query]) (indexed ++ [child.bitmap])
            (accuracy.meet child.accuracy) := by
          constructor
          · intro b hb
            rcases List.mem_append.mp hb with hb | hb
            · obtain ⟨q, hq, hc⟩ := h.sound b hb
              exact ⟨q, List.mem_append_left _ hq, hc.weaken fun he => (meet_eq_exact.mp he).1⟩
            · rw [List.mem_singleton.mp hb]
              exact ⟨query, by simp, hcovers.weaken fun he => (meet_eq_exact.mp he).2⟩
          · intro hacc q hq
            obtain ⟨ha, hc⟩ := meet_eq_exact.mp hacc
            rcases List.mem_append.mp hq with hq | hq
            · obtain ⟨b, hb, hcov⟩ := h.complete ha q hq
              exact ⟨b, List.mem_append_left _ hb, hcov⟩
            · rw [List.mem_singleton.mp hq]
              exact ⟨child.bitmap, by simp, hcovers.exact hc⟩
        have hrest := ih hadd
        rw [List.append_assoc, List.singleton_append] at hrest
        simpa only [collectIndexed, hempty, if_false] using hrest

theorem intersectIndexed_covers {filters : List (Query S)} {candidates : Finset ℕ}
    {accuracy : CandidateAccuracy} {rest : List (Finset ℕ)}
    (hsound : ∀ b ∈ rest, ∃ q ∈ filters, Covers get q ⟨b, .superset⟩)
    (h : Narrows get filters candidates (accuracy = .exact)
      fun q => ∃ b ∈ rest, Covers get q ⟨b, .exact⟩) :
    Covers get (.and filters) (intersectIndexed candidates accuracy rest) := by
  induction rest generalizing candidates with
  | nil => exact h.covers id (by simp)
  | cons bitmap rest ih =>
    have hinter : Narrows get filters (candidates ∩ bitmap) (accuracy = .exact)
        fun q => ∃ b ∈ rest, Covers get q ⟨b, .exact⟩ := by
      refine h.inter (hsound bitmap List.mem_cons_self) id fun _ q _ hp => ?_
      obtain ⟨b, hb, hcovers⟩ := hp
      rcases List.mem_cons.mp hb with rfl | hb
      · exact .inr hcovers
      · exact .inl ⟨b, hb, hcovers⟩
    unfold intersectIndexed
    split
    · next hempty => exact hinter.covers_empty hempty
    · exact ih (fun b hb => hsound b (List.mem_cons_of_mem _ hb)) hinter

theorem planAndCompatibility_covers {queries : List (Query S)}
    {children : List (Option CandidateResult)}
    (hchildren : List.Forall₂ (PlanCovers get) queries children) :
    PlanCovers get (.and queries) (planAndCompatibility children) := by
  intro result hr
  unfold planAndCompatibility at hr
  have hcollect := collectIndexed_covers hchildren
    (show Indexed get ([] : List (Query S)) [] .exact from ⟨by simp, by simp⟩)
  rw [List.nil_append] at hcollect
  split at hr
  · next early hearly =>
    cases hr
    rwa [hearly] at hcollect
  · next indexed accuracy hok =>
    rw [hok] at hcollect
    obtain ⟨hsound, hcomplete⟩ := hcollect
    have hperm := List.perm_insertionSort (fun a b : Finset ℕ => a.card ≤ b.card) indexed
    split at hr
    · cases hr
    · next first rest hsort =>
      cases hr
      rw [hsort] at hperm
      obtain ⟨q, hq, hfirst⟩ := hsound first (hperm.mem_iff.mp List.mem_cons_self)
      refine intersectIndexed_covers (fun b hb => ?_) (hfirst.narrows hq id fun hacc q' hq' => ?_)
      · obtain ⟨q', hq', hb'⟩ := hsound b (hperm.mem_iff.mp (List.mem_cons_of_mem _ hb))
        exact ⟨q', hq', hb'.weaken nofun⟩
      · obtain ⟨b, hb, hcovers⟩ := hcomplete hacc q' hq'
        rcases List.mem_cons.mp (hperm.mem_iff.mpr hb) with rfl | hb
        · exact .inl (hcovers.weaken fun _ => rfl)
        · exact .inr ⟨b, hb, hcovers⟩

end

/-! #### Compatibility plans -/

mutual

/-- Compatibility plans cover their query, by induction on the query. -/
theorem planCompatibility_covers {snapshot : SearchSnapshot T (IndexSnapshot S)}
    (h : InSync snapshot) :
    ∀ query : Query S, PlanCovers snapshot.get query (planCompatibility snapshot query)
  | .matchAll => planDirect_covers h fun _ hr => by cases hr; exact matchAll_covers h
  | .and queries => planDirect_covers h (planAndCompatibility_covers (planEach_covers h queries))
  | .or queries => planDirect_covers h (planOr_covers (planEach_covers h queries))
  | .not query => planDirect_covers h (complementExact_covers h (planCompatibility_covers h query))
  | .equal _ _ => planDirect_covers h nofun
  | .range _ _ _ => planDirect_covers h nofun
  | .prefixed _ _ => planDirect_covers h nofun
  | .term _ _ => planDirect_covers h nofun
  | .anyTerms _ _ => planDirect_covers h nofun
  | .allTerms _ _ => planDirect_covers h nofun
  | .predicate _ => planDirect_covers h nofun

theorem planEach_covers {snapshot : SearchSnapshot T (IndexSnapshot S)} (h : InSync snapshot) :
    ∀ queries : List (Query S),
      List.Forall₂ (PlanCovers snapshot.get) queries (planEach snapshot queries)
  | [] => .nil
  | query :: rest => .cons (planCompatibility_covers h query) (planEach_covers h rest)

end

/-! #### The outermost conjunction -/

section

variable {snapshot : SearchSnapshot T (IndexSnapshot S)} {filters : List (Query S)}

/-- The children collected for the filters `done`. -/
structure Collected (snapshot : SearchSnapshot T (IndexSnapshot S)) (done : List (Query S))
    (children : AndChildren S) : Prop where
  paths : ∀ p ∈ children.estimated, p.query ∈ done ∧ p.index ∈ snapshot.indexes
  results : ∀ r ∈ children.compatibilityCandidates, ∃ q ∈ done, Covers snapshot.get q r
  complete : children.allChildrenPlanned = true → ∀ q ∈ done,
    (∃ p ∈ children.estimated, p.query = q) ∨
      ∃ r ∈ children.compatibilityCandidates, Covers snapshot.get q r

theorem collectAnd_covers (h : InSync snapshot) {done : List (Query S)} (rest : List (Query S))
    {children : AndChildren S} (hdone : Collected snapshot done children) :
    match collectAnd snapshot children rest with
    | .error result => Covers snapshot.get (.and (done ++ rest)) result
    | .ok children => Collected snapshot (done ++ rest) children := by
  induction rest generalizing done children with
  | nil => simpa [collectAnd] using hdone
  | cons filter rest ih =>
    rw [show done ++ filter :: rest = done ++ [filter] ++ rest by simp]
    have hpaths : ∀ p ∈ children.estimated,
        p.query ∈ done ++ [filter] ∧ p.index ∈ snapshot.indexes := fun p hp =>
      ⟨List.mem_append_left _ (hdone.paths p hp).1, (hdone.paths p hp).2⟩
    have hresults : ∀ r ∈ children.compatibilityCandidates,
        ∃ q ∈ done ++ [filter], Covers snapshot.get q r := by
      intro r hr
      obtain ⟨q, hq, hcovers⟩ := hdone.results r hr
      exact ⟨q, List.mem_append_left _ hq, hcovers⟩
    unfold collectAnd
    cases hestimated : estimatedPaths snapshot.indexes filter with
    | cons first others =>
      refine ih ⟨fun p hp => ?_, hresults, fun hplanned q hq => ?_⟩
      · rcases List.mem_append.mp hp with hp | hp
        · exact hpaths p hp
        · rw [List.mem_singleton.mp hp]
          obtain ⟨hquery, hindex⟩ :=
            mem_estimatedPaths (hestimated ▸ streamMin_mem pathLE first others)
          exact ⟨by simp [hquery], hindex⟩
      · rcases List.mem_append.mp hq with hq | hq
        · refine (hdone.complete hplanned q hq).imp_left ?_
          rintro ⟨p, hp, hpq⟩
          exact ⟨p, List.mem_append_left _ hp, hpq⟩
        · rw [List.mem_singleton.mp hq]
          refine .inl ⟨_, List.mem_append_right _ (List.mem_singleton_self _), ?_⟩
          exact (mem_estimatedPaths (hestimated ▸ streamMin_mem pathLE first others)).1
    | nil =>
      cases hplan : planCompatibility snapshot filter with
      | none => exact ih ⟨hpaths, hresults, nofun⟩
      | some child =>
        have hcovers := planCompatibility_covers h filter child hplan
        by_cases hempty : child.bitmap = ∅
        · simp only [hempty, if_true]
          refine ⟨fun d t ht hm => ?_, fun _ d hd => absurd hd (Finset.notMem_empty d)⟩
          rw [Query.matchesDocument, allMatch_iff] at hm
          exact hempty ▸ hcovers.1 d t ht (hm filter (by simp))
        · simp only [hempty, if_false]
          refine ih ⟨hpaths, fun r hr => ?_, fun hplanned q hq => ?_⟩
          · rcases List.mem_append.mp hr with hr | hr
            · exact hresults r hr
            · rw [List.mem_singleton.mp hr]
              exact ⟨filter, by simp, hcovers⟩
          · rcases List.mem_append.mp hq with hq | hq
            · refine (hdone.complete hplanned q hq).imp_right ?_
              rintro ⟨r, hr, hc⟩
              exact ⟨r, List.mem_append_left _ hr, hc⟩
            · rw [List.mem_singleton.mp hq]
              exact .inr ⟨child, by simp, hcovers⟩

theorem intersectCompatibility_covers {get : ℕ → Option T} {candidates : Finset ℕ}
    {accuracy : CandidateAccuracy} {planned : Bool} {rest : List CandidateResult}
    (hrest : ∀ r ∈ rest, ∃ q ∈ filters, Covers get q r)
    (h : Narrows get filters candidates (accuracy = .exact ∧ planned = true)
      fun q => ∃ r ∈ rest, Covers get q r) :
    Covers get (.and filters) (intersectCompatibility candidates accuracy planned rest) := by
  induction rest generalizing candidates accuracy with
  | nil =>
    unfold intersectCompatibility
    cases planned with
    | false => exact h.covers nofun nofun
    | true => exact h.covers (fun he => ⟨he, rfl⟩) (by simp)
  | cons child rest ih =>
    have hinter : Narrows get filters (candidates ∩ child.bitmap)
        (accuracy.meet child.accuracy = .exact ∧ planned = true)
        fun q => ∃ r ∈ rest, Covers get q r := by
      obtain ⟨q, hq, hchild⟩ := hrest child List.mem_cons_self
      refine h.inter ⟨q, hq, hchild.superset⟩ (fun he => ⟨(meet_eq_exact.mp he.1).1, he.2⟩)
        fun he q' _ hp => ?_
      obtain ⟨r, hr, hcovers⟩ := hp
      rcases List.mem_cons.mp hr with rfl | hr
      · exact .inr (hcovers.exact (meet_eq_exact.mp he.1).2)
      · exact .inl ⟨r, hr, hcovers⟩
    unfold intersectCompatibility
    split
    · next hempty => exact hinter.covers_empty hempty
    · exact ih (fun r hr => hrest r (List.mem_cons_of_mem _ hr)) hinter

theorem intersectEstimated_covers (h : InSync snapshot) {candidates : Finset ℕ}
    {accuracy : CandidateAccuracy} {planned : Bool} {rest : List (EstimatedAccessPath S)}
    {later : Query S → Prop}
    (hrest : ∀ p ∈ rest, p.query ∈ filters ∧ p.index ∈ snapshot.indexes)
    (hnarrows : Narrows snapshot.get filters candidates (accuracy = .exact ∧ planned = true)
      fun q => (∃ p ∈ rest, p.query = q) ∨ later q) :
    match intersectEstimated candidates accuracy planned rest with
    | .error result => Covers snapshot.get (.and filters) result
    | .ok (candidates, accuracy, planned) =>
      Narrows snapshot.get filters candidates (accuracy = .exact ∧ planned = true) later := by
  induction rest generalizing candidates accuracy planned with
  | nil => simpa [intersectEstimated] using hnarrows
  | cons path rest ih =>
    have hrest' : ∀ p ∈ rest, p.query ∈ filters ∧ p.index ∈ snapshot.indexes :=
      fun p hp => hrest p (List.mem_cons_of_mem _ hp)
    -- a skipped path leaves a filter to the verification, so nothing is claimed exact
    have hunplanned : Narrows snapshot.get filters candidates
        (accuracy = .exact ∧ false = true) fun q => (∃ p ∈ rest, p.query = q) ∨ later q :=
      hnarrows.mono (fun he => absurd he.2 Bool.false_ne_true)
        fun he => absurd he.2 Bool.false_ne_true
    have hskip := ih hrest' hunplanned
    unfold intersectEstimated
    by_cases hpays : intersectionPays path.estimate candidates.card = true
    · simp only [hpays, Bool.not_true, Bool.false_eq_true, if_false]
      cases hmaterialize : path.materialize with
      | none => exact hskip
      | some materialized =>
        obtain ⟨hquery, hindex⟩ := hrest path List.mem_cons_self
        have hcovers := materialize_covers h hindex _ hmaterialize
        have hinter : Narrows snapshot.get filters (candidates ∩ materialized.bitmap)
            (accuracy.meet materialized.accuracy = .exact ∧ planned = true)
            fun q => (∃ p ∈ rest, p.query = q) ∨ later q := by
          refine hnarrows.inter ⟨path.query, hquery, hcovers.superset⟩
            (fun he => ⟨(meet_eq_exact.mp he.1).1, he.2⟩) fun he q _ hp => ?_
          rcases hp with ⟨p, hp, rfl⟩ | hlater
          · rcases List.mem_cons.mp hp with rfl | hp
            · exact .inr (hcovers.exact (meet_eq_exact.mp he.1).2)
            · exact .inl (.inl ⟨p, hp, rfl⟩)
          · exact .inl (.inr hlater)
        by_cases hempty : candidates ∩ materialized.bitmap = ∅
        · simp only [hempty, if_true]
          exact hinter.covers_empty hempty
        · simp only [hempty, if_false]
          exact ih hrest' hinter
    · simpa [hpays] using hskip

/-- Whatever child comes first, the intersections cover the conjunction. -/
theorem intersectChildren_covers (h : InSync snapshot) {query : Query S} (hquery : query ∈ filters)
    {first : CandidateResult} (hfirst : Covers snapshot.get query first) {planned : Bool}
    {others : List (EstimatedAccessPath S)} {results : List CandidateResult}
    (hothers : ∀ p ∈ others, p.query ∈ filters ∧ p.index ∈ snapshot.indexes)
    (hresults : ∀ r ∈ results, ∃ q ∈ filters, Covers snapshot.get q r)
    (hcomplete : planned = true → ∀ q ∈ filters, Covers snapshot.get q first ∨
      (∃ p ∈ others, p.query = q) ∨ ∃ r ∈ results, Covers snapshot.get q r) :
    Covers snapshot.get (.and filters) (intersectChildren first planned others results) := by
  have hstart : Narrows snapshot.get filters first.bitmap
      (first.accuracy = .exact ∧ planned = true)
      fun q => (∃ p ∈ others, p.query = q) ∨ ∃ r ∈ results, Covers snapshot.get q r :=
    hfirst.narrows hquery And.left fun he => hcomplete he.2
  unfold intersectChildren
  split
  · next hempty => exact hstart.covers_empty hempty
  · have hestimated := intersectEstimated_covers h hothers hstart
    split
    · next early hearly => rwa [hearly] at hestimated
    · next candidates accuracy rest hok =>
      rw [hok] at hestimated
      exact intersectCompatibility_covers hresults hestimated

theorem fromCompatibility_covers (h : InSync snapshot) {planned : Bool}
    {others : List (EstimatedAccessPath S)} {results : List CandidateResult}
    (hothers : ∀ p ∈ others, p.query ∈ filters ∧ p.index ∈ snapshot.indexes)
    (hresults : ∀ r ∈ results, ∃ q ∈ filters, Covers snapshot.get q r)
    (hcomplete : planned = true → ∀ q ∈ filters,
      (∃ p ∈ others, p.query = q) ∨ ∃ r ∈ results, Covers snapshot.get q r) :
    PlanCovers snapshot.get (.and filters)
      (planAnd.fromCompatibility planned others results) := by
  intro result hr
  unfold planAnd.fromCompatibility at hr
  have hperm := List.perm_insertionSort
    (fun a b : CandidateResult => a.bitmap.card ≤ b.bitmap.card) results
  split at hr
  · cases hr
  · next first rest hsort =>
    cases hr
    rw [hsort] at hperm
    obtain ⟨q, hq, hfirst⟩ := hresults first (hperm.mem_iff.mp List.mem_cons_self)
    refine intersectChildren_covers h hq hfirst hothers
      (fun r hr => hresults r (hperm.mem_iff.mp (List.mem_cons_of_mem _ hr)))
      fun hplanned q' hq' => ?_
    rcases hcomplete hplanned q' hq' with hpath | ⟨r, hr, hcovers⟩
    · exact .inr (.inl hpath)
    · rcases List.mem_cons.mp (hperm.mem_iff.mpr hr) with rfl | hr
      · exact .inl hcovers
      · exact .inr (.inr ⟨r, hr, hcovers⟩)

theorem planAnd_covers (h : InSync snapshot) :
    PlanCovers snapshot.get (.and filters) (planAnd snapshot filters) := by
  intro result hr
  have hcollect := collectAnd_covers h filters
    (show Collected snapshot [] ⟨[], [], true⟩ from ⟨by simp, by simp, by simp⟩)
  rw [List.nil_append] at hcollect
  unfold planAnd at hr
  split at hr
  · next early hearly =>
    cases hr
    rwa [hearly] at hcollect
  · next children hok =>
    rw [hok] at hcollect
    obtain ⟨hpaths, hresults, hcomplete⟩ := hcollect
    have hperm := List.perm_insertionSort (fun a b : EstimatedAccessPath S => pathLE a b)
      children.estimated
    generalize children.estimated.insertionSort (fun a b => pathLE a b) = estimated at hr hperm
    have hsorted : ∀ p ∈ estimated, p.query ∈ filters ∧ p.index ∈ snapshot.indexes :=
      fun p hp => hpaths p (hperm.mem_iff.mp hp)
    have hall : children.allChildrenPlanned = true → ∀ q ∈ filters,
        (∃ p ∈ estimated, p.query = q) ∨
          ∃ r ∈ children.compatibilityCandidates, Covers snapshot.get q r := by
      intro hplanned q hq
      refine (hcomplete hplanned q hq).imp_left ?_
      rintro ⟨p, hp, hpq⟩
      exact ⟨p, hperm.mem_iff.mpr hp, hpq⟩
    cases hfirst : estimated.findIdx? fun path =>
        preferIndex path.estimate snapshot.activeDocuments.card with
    | none =>
      simp only [hfirst, Option.bind_none] at hr
      exact fromCompatibility_covers h hsorted hresults hall result hr
    | some i =>
      obtain ⟨hi, -⟩ := List.findIdx?_eq_some_iff_getElem.mp hfirst
      simp only [hfirst, Option.bind_some, List.getElem?_eq_getElem hi] at hr
      have hothers : ∀ p ∈ estimated.eraseIdx i,
          p.query ∈ filters ∧ p.index ∈ snapshot.indexes :=
        fun p hp => hsorted p (List.mem_of_mem_eraseIdx hp)
      obtain ⟨hquery, hindex⟩ := hsorted _ (List.getElem_mem hi)
      cases hmaterialize : (estimated[i]).materialize with
      | none =>
        simp only [hmaterialize] at hr
        exact fromCompatibility_covers h hothers hresults
          (fun hf => absurd hf Bool.false_ne_true) result hr
      | some first =>
        rw [hmaterialize] at hr
        cases hr
        have hcovers := materialize_covers h hindex first hmaterialize
        refine intersectChildren_covers h hquery hcovers hothers hresults fun hplanned q hq => ?_
        rcases hall hplanned q hq with ⟨p, hp, rfl⟩ | hresult
        · have hsplit := (List.getElem_cons_eraseIdx_perm hi).mem_iff.mpr hp
          rcases List.mem_cons.mp hsplit with rfl | hp
          · exact .inl hcovers
          · exact .inr (.inl ⟨p, hp, rfl⟩)
        · exact .inr (.inr hresult)

/-! ### Searches -/

/-- Every plan covers its query, for every planner configuration. -/
theorem plan_planCovers (mode : RangePlanningMode) (h : InSync snapshot) (filter : Query S) :
    PlanCovers snapshot.get filter (plan mode snapshot filter) := by
  unfold plan
  split
  · next first rest hpaths =>
    have hbest := bestPath_covers h hpaths
    dsimp only
    split
    · split
      · exact nofun
      · split
        · exact nofun
        · exact hbest
    · exact hbest
  · split
    · exact nofun
    · split
      · next legacy hlegacy =>
        intro r hr
        cases hr
        exact registryCandidates_covers h filter _ hlegacy
      · split
        · intro r hr
          cases hr
          exact matchAll_covers h
        · exact planAnd_covers h
        · exact planOr_covers (planEach_covers h _)
        · exact complementExact_covers h (planCompatibility_covers h _)
        · exact nofun

end

/-- The ids of the active documents that satisfy the query, in ascending order. -/
def linearScan (snapshot : SearchSnapshot T (IndexSnapshot S)) (query : Query S) : List ℕ :=
  (setBits snapshot.activeDocuments).filter fun d =>
    (snapshot.get d).any fun document => query.matchesDocument document

theorem mem_linearScan {snapshot : SearchSnapshot T (IndexSnapshot S)} {query : Query S} {d : ℕ} :
    d ∈ linearScan snapshot query ↔
      ∃ t, snapshot.get d = some t ∧ query.matchesDocument t = true := by
  simp only [linearScan, List.mem_filter, mem_setBits, Option.any_eq_true]
  constructor
  · rintro ⟨-, t, ht, hm⟩
    exact ⟨t, ht, hm⟩
  · rintro ⟨t, ht, hm⟩
    refine ⟨?_, t, ht, hm⟩
    by_contra hd
    simp [SearchSnapshot.get, hd] at ht

/-- Ascending lists with the same elements are equal. -/
theorem filter_setBits_eq {candidates active : Finset ℕ} {p : ℕ → Bool}
    (h : ∀ d, p d = true → (d ∈ candidates ↔ d ∈ active)) :
    (setBits candidates).filter p = (setBits active).filter p := by
  have hperm : ((setBits candidates).filter p).Perm ((setBits active).filter p) := by
    rw [List.perm_ext_iff_of_nodup ((setBits_nodup _).filter _) ((setBits_nodup _).filter _)]
    intro d
    simp only [List.mem_filter, mem_setBits]
    exact and_congr_left fun hp => h d hp
  exact hperm.eq_of_pairwise (fun a b _ _ hab hba => absurd (Nat.lt_trans hab hba) (by omega))
    ((setBits_ascending _).filter _) ((setBits_ascending _).filter _)

theorem filterMap_get_eq {get : ℕ → Option T} {test : T → Bool} (ids : List ℕ) :
    (ids.filterMap fun d => (get d).filter test).map some =
      (ids.filter fun d => (get d).any test).map get := by
  induction ids with
  | nil => rfl
  | cons d rest ih =>
    cases hget : get d with
    | none => simpa [hget] using ih
    | some t =>
      by_cases ht : test t = true
      · simpa [List.filterMap_cons, Option.filter_some, hget, ht] using ih
      · simpa [List.filterMap_cons, Option.filter_some, hget, ht] using ih

/-- A search returns the documents of the scan. -/
theorem InSync.search_scans {snapshot : SearchSnapshot T (IndexSnapshot S)} (h : InSync snapshot)
    (mode : RangePlanningMode) (query : Query S) :
    (search mode snapshot query).map some = (linearScan snapshot query).map snapshot.get := by
  unfold search
  dsimp only
  rw [filterMap_get_eq, linearScan]
  refine congrArg (List.map snapshot.get) (filter_setBits_eq fun d hd => ?_)
  obtain ⟨t, ht, hm⟩ := (Option.any_eq_true ..).mp hd
  have hactive := (matchAll_covers h).1 d t ht rfl
  refine iff_of_true ?_ hactive
  cases hresult : plan mode snapshot query with
  | none => exact hactive
  | some result => exact (plan_planCovers mode h query result hresult).1 d t ht hm

/-- Indexed search is the linear scan: a plan contains every active document that matches, it is
exactly these when it is marked exact, and a search returns exactly these documents, each once, in
ascending document id. -/
theorem search_eq_linearScan (mode : RangePlanningMode)
    {snapshot : SearchSnapshot T (IndexSnapshot S)} (h : InSync snapshot) (query : Query S) :
    (∀ result, plan mode snapshot query = some result →
      (∀ d ∈ linearScan snapshot query, d ∈ result.bitmap) ∧
        (result.accuracy = .exact → ∀ d, d ∈ result.bitmap ↔ d ∈ linearScan snapshot query)) ∧
      (search mode snapshot query).map some = (linearScan snapshot query).map snapshot.get ∧
      (linearScan snapshot query).Pairwise (· < ·) := by
  have hplan := plan_planCovers mode h query
  refine ⟨fun result hr => ?_, ?_, (setBits_ascending _).filter _⟩
  · obtain ⟨hsuperset, hexact⟩ := hplan result hr
    have hsub : ∀ d ∈ linearScan snapshot query, d ∈ result.bitmap := by
      intro d hd
      obtain ⟨t, ht, hm⟩ := mem_linearScan.mp hd
      exact hsuperset d t ht hm
    exact ⟨hsub, fun hacc d => ⟨fun hd => mem_linearScan.mpr (hexact hacc d hd), hsub d⟩⟩
  · exact h.search_scans mode query

/-! ### A snapshot of numbers -/

/-- Documents are numbers with one numeric field, the number itself. -/
def numberSchema : Schema ℕ where
  StringField := Empty
  ObjectField := Unit
  TextField := Empty
  Value _ := ℕ
  compareTo _ := compare
  stringOf f := nomatch f
  valueOf _ t := some t
  source f := nomatch f
  analyze f := nomatch f

def numberField : numberSchema.Field := .inr ()

/-- Documents 5 and 7 under the ids 0 and 1, with a range index. -/
def numberSnapshot : SearchSnapshot ℕ (IndexSnapshot numberSchema) where
  documents d := if d = 0 then some 5 else if d = 1 then some 7 else none
  activeDocuments := {0, 1}
  indexes := [.range numberField (.node (5 : ℕ) {0} .leaf
    (.node (7 : ℕ) {1} .leaf .leaf 1 1 1 1) 1 2 2 2)]
  version := 2

theorem numberSnapshot_get (d : ℕ) : numberSnapshot.get d =
    if d = 0 then some 5 else if d = 1 then some 7 else none := by
  by_cases h0 : d = 0
  · simp [SearchSnapshot.get, numberSnapshot, h0]
  · by_cases h1 : d = 1 <;> simp [SearchSnapshot.get, numberSnapshot, h0, h1]

theorem numberSnapshot_inSync : InSync numberSnapshot := by
  refine ⟨by decide, fun index hindex => ?_⟩
  rw [show numberSnapshot.indexes = [_] from rfl, List.mem_singleton] at hindex
  subst hindex
  refine ⟨?_, fun k bitmap d hk hd => ?_, fun d t v ht hv => ?_⟩
  · unfold AvlNode.Ordered
    decide
  · simp only [AvlNode.entries, List.nil_append, List.mem_cons, List.not_mem_nil, or_false] at hk
    rcases hk with ⟨rfl, rfl⟩ | ⟨rfl, rfl⟩
    · rw [Finset.mem_singleton.mp hd]
      exact ⟨5, (5 : ℕ), rfl, rfl, by decide⟩
    · rw [Finset.mem_singleton.mp hd]
      exact ⟨7, (7 : ℕ), rfl, rfl, by decide⟩
  · rw [numberSnapshot_get] at ht
    cases hv
    by_cases h0 : d = 0
    · simp only [h0, if_true, Option.some.injEq] at ht
      subst ht h0
      exact ⟨(5 : ℕ), {0}, by simp [AvlNode.entries], by simp, by decide⟩
    · by_cases h1 : d = 1
      · simp only [h1, if_true, Option.some.injEq, one_ne_zero, if_false] at ht
        subst ht h1
        exact ⟨(7 : ℕ), {1}, by simp [AvlNode.entries], by simp, by decide⟩
      · simp [h0, h1] at ht

/-- The numbers that are not between 0 and 5. -/
def numberQuery : Query numberSchema := .not (.range numberField (0 : ℕ) (5 : ℕ))

theorem search_eq_linearScan_number : linearScan numberSnapshot numberQuery = [1] ∧
    (search .costAware numberSnapshot numberQuery).map some =
      (linearScan numberSnapshot numberQuery).map numberSnapshot.get :=
  ⟨by decide, (search_eq_linearScan .costAware numberSnapshot_inSync numberQuery).2.1⟩

end GeneralSearch.Planner
