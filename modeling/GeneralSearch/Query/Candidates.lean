import GeneralSearch.Storage.Snapshot
import GeneralSearch.Index.AvlMap
import GeneralSearch.Index.Equality
import GeneralSearch.Query.Query
import Mathlib.Data.List.Sort

/-! The candidates that an index offers for a query, and the estimates by which the planner chooses
among them: `EqualityIndexSnapshot`, `RangeIndexSnapshot`, `PrefixIndexSnapshot`,
`TextIndexSnapshot`, and indexes of an application behind the same interface.  An index that is in
sync with the documents offers only candidates that cover the query (`candidates_covers`). -/

namespace GeneralSearch.Planner

open GeneralSearch.Storage GeneralSearch.Index

inductive CandidateAccuracy where
  | exact
  | superset
  deriving DecidableEq, Repr

structure CandidateResult where
  bitmap : Finset ℕ
  accuracy : CandidateAccuracy
  deriving DecidableEq

inductive EstimateQuality where
  | exact
  | approximate
  deriving DecidableEq, Repr

structure CandidateEstimate where
  estimatedCandidateCardinality : ℕ
  estimatedSourceCount : ℕ
  quality : EstimateQuality
  accuracy : CandidateAccuracy
  deriving DecidableEq, Repr

/-- The layers of `ImmutableOverlayMap` that a lookup reads. -/
inductive ImmutableOverlayMap (K V : Type) where
  | root (rootValues : JMap K V)
  | overlay (parent : ImmutableOverlayMap K V) (replacements : JMap K V) (removals : List K)

/-- `ImmutableOverlayMap.get`: the first layer from the top that names the key decides. -/
def ImmutableOverlayMap.get {K V : Type} [DecidableEq K] (key : K) :
    ImmutableOverlayMap K V → Option V
  | .root rootValues => rootValues.lookup key
  | .overlay parent replacements removals =>
    match replacements.lookup key with
    | some replacement => some replacement
    | none => if key ∈ removals then none else parent.get key

variable {T : Type}

/-- `IndexSnapshot`.  `custom` is an index of the application; its second function is there when it
is an `EstimatingIndexSnapshot`.  Of a posting list only the documents are read here. -/
inductive IndexSnapshot (S : Schema T) where
  | equality (field : S.Field) (values : ImmutableOverlayMap (S.Val field) (Finset ℕ))
  | range (field : S.Field) (values : AvlNode (S.Val field) (Finset ℕ))
  | prefixes (field : S.StringField) (values : AvlNode JString (Finset ℕ))
  | text (textField : S.TextField) (postings : AvlNode JString (Finset ℕ))
      (indexedDocumentCount : ℕ)
  | custom (candidates : Query S → Option CandidateResult)
      (estimateCandidates : Option (Query S → Option CandidateEstimate))

/-- `BitmapUnion` over the entries of a visit. -/
def bitmapUnion {K : Type} (entries : List (K × Finset ℕ)) : Finset ℕ :=
  entries.foldl (fun union e => union ∪ e.2) ∅

/-- The bitmap of a lookup, `ImmutableBitmap.empty()` for `null`. -/
def orEmpty (bitmap : Option (Finset ℕ)) : Finset ℕ := bitmap.getD ∅

/-- `RangeIndexSnapshot.getByRange`. -/
def getByRange {K : Type} (compareTo : K → K → Ordering) (values : AvlNode K (Finset ℕ))
    (minValue maxValue : K) : Finset ℕ :=
  if compareTo minValue maxValue = .gt then ∅
  else bitmapUnion (values.visit compareTo (some minValue) true (some maxValue) true)

/-- `PrefixIndexSnapshot.exclusiveUpperBound`: the last code unit that is not the largest one is
incremented and the rest dropped; the loop runs from the end. -/
def exclusiveUpperBound (start : JString) : Option JString :=
  loop start.reverse
where
  loop : List JChar → Option JString
    | [] => none
    | c :: rest => if c ≠ JChar.maxValue then some (rest.reverse ++ [c + 1]) else loop rest

/-- `PrefixIndexSnapshot.getByPrefix`. -/
def getByPrefix (values : AvlNode JString (Finset ℕ)) (start : JString) : Finset ℕ :=
  if start = [] then bitmapUnion (values.visit JString.compareTo none true none true)
  else bitmapUnion (values.visit JString.compareTo (some start) true (exclusiveUpperBound start)
    false)

/-- `TextIndexSnapshot.union`. -/
def termUnion (postings : AvlNode JString (Finset ℕ)) (terms : List JString) : Finset ℕ :=
  (terms.filterMap (postings.get JString.compareTo)).foldl (· ∪ ·) ∅

/-- The loop of `TextIndexSnapshot.intersection`, which ends at an empty bitmap. -/
def intersectFrom (candidates : Finset ℕ) : List (Finset ℕ) → Finset ℕ
  | [] => candidates
  | source :: rest =>
    if candidates ∩ source = ∅ then candidates ∩ source
    else intersectFrom (candidates ∩ source) rest

/-- The postings of all terms, or `none` when a term has none. -/
def sourcesOf (postings : AvlNode JString (Finset ℕ)) : List JString → Option (List (Finset ℕ))
  | [] => some []
  | term :: rest =>
    match postings.get JString.compareTo term, sourcesOf postings rest with
    | some posting, some sources => some (posting :: sources)
    | _, _ => none

/-- `TextIndexSnapshot.intersection`. -/
def termIntersection (postings : AvlNode JString (Finset ℕ)) (terms : List JString) : Finset ℕ :=
  match sourcesOf postings terms with
  | none => ∅
  | some sources =>
    match sources.insertionSort (fun a b => a.card ≤ b.card) with
    | [] => ∅
    | first :: rest => intersectFrom first rest

variable {S : Schema T}

namespace IndexSnapshot

/-- `IndexSnapshot.candidates`. -/
def candidates : IndexSnapshot S → Query S → Option CandidateResult
  | .equality field values, .equal f expectedValue =>
    if h : f = field then
      match h ▸ expectedValue with
      | none => none
      | some value => some ⟨orEmpty (values.get value), .exact⟩
    else none
  | .range field values, .equal f expectedValue =>
    if h : f = field then
      match h ▸ expectedValue with
      | none => none
      | some value => some ⟨orEmpty (values.get (S.cmp field) value), .superset⟩
    else none
  | .range field values, .range f minValue maxValue =>
    if h : f = field then
      some ⟨getByRange (S.cmp field) values (h ▸ minValue) (h ▸ maxValue), .exact⟩
    else none
  | .prefixes field values, .prefixed f start =>
    if f = field then some ⟨getByPrefix values start, .exact⟩ else none
  | .prefixes field values, .equal (.inl f) expectedValue =>
    if f = field then
      match (expectedValue : Option JString) with
      | none => none
      | some value => some ⟨orEmpty (values.get JString.compareTo value), .exact⟩
    else none
  | .text textField postings _, .term f t =>
    if f = textField then some ⟨orEmpty (postings.get JString.compareTo t), .exact⟩ else none
  | .text textField postings _, .anyTerms f terms =>
    if f = textField then some ⟨termUnion postings terms, .exact⟩ else none
  | .text textField postings _, .allTerms f terms =>
    if f = textField then some ⟨termIntersection postings terms, .exact⟩ else none
  | .custom candidates _, query => candidates query
  | _, _ => none

/-- The estimate for one bucket: its cardinality, and whether it is there. -/
def bucketEstimate (bitmap : Option (Finset ℕ)) (accuracy : CandidateAccuracy) :
    CandidateEstimate :=
  match bitmap with
  | none => ⟨0, 0, .exact, accuracy⟩
  | some bitmap => ⟨bitmap.card, 1, .exact, accuracy⟩

/-- The estimate of `TextIndexSnapshot` for `AnyTermsQuery`. -/
def anyTermsEstimate (postings : AvlNode JString (Finset ℕ)) (indexedDocumentCount : ℕ)
    (terms : List JString) : CandidateEstimate :=
  let sources := terms.filterMap (postings.get JString.compareTo)
  ⟨min indexedDocumentCount (sources.map Finset.card).sum, sources.length,
    if sources.length ≤ 1 then .exact else .approximate, .exact⟩

/-- The estimate of `TextIndexSnapshot` for `AllTermsQuery`; `2147483647` is the initial
minimum. -/
def allTermsEstimate (postings : AvlNode JString (Finset ℕ)) (terms : List JString) :
    CandidateEstimate :=
  if terms = [] then ⟨0, 0, .exact, .exact⟩
  else match sourcesOf postings terms with
  | none => ⟨0, 0, .exact, .exact⟩
  | some sources =>
    ⟨sources.foldl (fun minimum s => min minimum s.card) 2147483647, terms.length,
      if terms.length = 1 then .exact else .approximate, .exact⟩

/-- `EstimatingIndexSnapshot.estimateCandidates`, `none` also for an index without estimates. -/
def estimateCandidates : IndexSnapshot S → Query S → Option CandidateEstimate
  | .equality field values, .equal f expectedValue =>
    if h : f = field then
      match h ▸ expectedValue with
      | none => none
      | some value => some (bucketEstimate (values.get value) .exact)
    else none
  | .range field values, .equal f expectedValue =>
    if h : f = field then
      match h ▸ expectedValue with
      | none => none
      | some value => some (bucketEstimate (values.get (S.cmp field) value) .superset)
    else none
  | .range field values, .range f minValue maxValue =>
    if h : f = field then
      let lower : S.Val field := h ▸ minValue
      let upper : S.Val field := h ▸ maxValue
      if S.cmp field lower upper = .gt then some ⟨0, 0, .exact, .exact⟩
      else some ⟨values.aggregateWeightInRange (S.cmp field) (some lower) true (some upper) true,
        values.entryCountInRange (S.cmp field) (some lower) true (some upper) true,
        .exact, .exact⟩
    else none
  | .prefixes field values, .prefixed f start =>
    if f = field then
      let lowerBound := if start = [] then none else some start
      let upperBound := if start = [] then none else exclusiveUpperBound start
      some ⟨values.aggregateWeightInRange JString.compareTo lowerBound true upperBound false,
        values.entryCountInRange JString.compareTo lowerBound true upperBound false,
        .exact, .exact⟩
    else none
  | .prefixes field values, .equal (.inl f) expectedValue =>
    if f = field then
      match (expectedValue : Option JString) with
      | none => none
      | some value => some (bucketEstimate (values.get JString.compareTo value) .exact)
    else none
  | .text textField postings _, .term f t =>
    if f = textField then some (bucketEstimate (postings.get JString.compareTo t) .exact)
    else none
  | .text textField postings indexedDocumentCount, .anyTerms f terms =>
    if f = textField then some (anyTermsEstimate postings indexedDocumentCount terms) else none
  | .text textField postings _, .allTerms f terms =>
    if f = textField then some (allTermsEstimate postings terms) else none
  | .custom _ (some estimateCandidates), query => estimateCandidates query
  | _, _ => none

end IndexSnapshot

/-! ### Indexes in sync with the documents -/

/-- The candidates contain every document that matches, and only such documents when they are
marked exact. -/
def Covers (get : ℕ → Option T) (query : Query S) (result : CandidateResult) : Prop :=
  (∀ d t, get d = some t → query.matchesDocument t = true → d ∈ result.bitmap) ∧
    (result.accuracy = .exact →
      ∀ d ∈ result.bitmap, ∃ t, get d = some t ∧ query.matchesDocument t = true)

/-- The ordered dictionary lists each document under the key that its value compares equal to. -/
structure HoldsValues {K : Type} (compareTo : K → K → Ordering) (get : ℕ → Option T)
    (valueOf : T → Option K) (values : AvlNode K (Finset ℕ)) : Prop where
  ordered : values.Ordered compareTo
  sound : ∀ k bitmap d, (k, bitmap) ∈ values.entries → d ∈ bitmap →
    ∃ t v, get d = some t ∧ valueOf t = some v ∧ compareTo v k = .eq
  complete : ∀ d t v, get d = some t → valueOf t = some v →
    ∃ k bitmap, (k, bitmap) ∈ values.entries ∧ d ∈ bitmap ∧ compareTo v k = .eq

/-- The index shows the documents; an index of the application keeps its contract. -/
def IndexSnapshot.InSync (get : ℕ → Option T) : IndexSnapshot S → Prop
  | .equality field values => ∀ value d, d ∈ orEmpty (values.get value) ↔
      ∃ t, get d = some t ∧ S.fieldValue field t = some value
  | .range field values => HoldsValues (S.cmp field) get (S.fieldValue field) values
  | .prefixes field values => HoldsValues JString.compareTo get (S.stringOf field) values
  | .text textField postings _ => ∀ term d, d ∈ orEmpty (postings.get JString.compareTo term) ↔
      ∃ t, get d = some t ∧ term ∈ S.documentTerms textField t
  | .custom candidates _ => ∀ query result, candidates query = some result →
      Covers get query result

theorem mem_foldl_union {α : Type} (f : α → Finset ℕ) (l : List α) (initial : Finset ℕ) (d : ℕ) :
    d ∈ l.foldl (fun union a => union ∪ f a) initial ↔ d ∈ initial ∨ ∃ a ∈ l, d ∈ f a := by
  induction l generalizing initial with
  | nil => simp
  | cons a rest ih => simp [ih, or_assoc]

theorem mem_bitmapUnion {K : Type} {entries : List (K × Finset ℕ)} {d : ℕ} :
    d ∈ bitmapUnion entries ↔ ∃ e ∈ entries, d ∈ e.2 := by
  simp [bitmapUnion, mem_foldl_union]

section

variable {K : Type} {compareTo : K → K → Ordering} [Std.TransCmp compareTo]
  {get : ℕ → Option T} {valueOf : T → Option K} {values : AvlNode K (Finset ℕ)}

open Std

/-- A lookup finds the documents whose value compares equal to the key. -/
theorem HoldsValues.mem_get (h : HoldsValues compareTo get valueOf values) {key : K} {d : ℕ} :
    d ∈ orEmpty (values.get compareTo key) ↔
      ∃ t v, get d = some t ∧ valueOf t = some v ∧ compareTo v key = .eq := by
  constructor
  · intro hd
    cases hget : values.get compareTo key with
    | none => simp [orEmpty, hget] at hd
    | some bitmap =>
      obtain ⟨k, hk, heq⟩ := (AvlNode.get_eq_some_iff h.ordered).mp hget
      obtain ⟨t, v, ht, hv, hvk⟩ := h.sound k bitmap d hk (by simpa [orEmpty, hget] using hd)
      exact ⟨t, v, ht, hv, TransCmp.eq_trans hvk (OrientedCmp.eq_symm heq)⟩
  · rintro ⟨t, v, ht, hv, heq⟩
    obtain ⟨k, bitmap, hk, hd, hvk⟩ := h.complete d t v ht hv
    have hget := (AvlNode.get_eq_some_iff h.ordered).mpr
      ⟨k, hk, TransCmp.eq_trans (OrientedCmp.eq_symm heq) hvk⟩
    simpa [orEmpty, hget] using hd

theorem aboveLower_congr {lowerBound : Option K} {inclusive : Bool} {a b : K}
    (h : compareTo a b = .eq) :
    AvlNode.aboveLower compareTo lowerBound inclusive a =
      AvlNode.aboveLower compareTo lowerBound inclusive b := by
  cases lowerBound with
  | none => rfl
  | some lower => simp [AvlNode.aboveLower, TransCmp.congr_left h]

theorem belowUpper_congr {upperBound : Option K} {inclusive : Bool} {a b : K}
    (h : compareTo a b = .eq) :
    AvlNode.belowUpper compareTo upperBound inclusive a =
      AvlNode.belowUpper compareTo upperBound inclusive b := by
  cases upperBound with
  | none => rfl
  | some upper => simp [AvlNode.belowUpper, TransCmp.congr_left h]

/-- The union over a visited range has the documents whose value is in the range. -/
theorem HoldsValues.mem_visit (h : HoldsValues compareTo get valueOf values)
    {lowerBound : Option K} {lowerInclusive : Bool} {upperBound : Option K}
    {upperInclusive : Bool} {d : ℕ} :
    d ∈ bitmapUnion
        (values.visit compareTo lowerBound lowerInclusive upperBound upperInclusive) ↔
      ∃ t v, get d = some t ∧ valueOf t = some v ∧
        AvlNode.aboveLower compareTo lowerBound lowerInclusive v = true ∧
        AvlNode.belowUpper compareTo upperBound upperInclusive v = true := by
  rw [mem_bitmapUnion]
  constructor
  · rintro ⟨⟨k, bitmap⟩, he, hd⟩
    obtain ⟨hk, habove, hbelow⟩ := (AvlNode.mem_visit h.ordered).mp he
    obtain ⟨t, v, ht, hv, heq⟩ := h.sound k bitmap d hk hd
    refine ⟨t, v, ht, hv, ?_, ?_⟩
    · rw [aboveLower_congr heq]
      exact habove
    · rw [belowUpper_congr heq]
      exact hbelow
  · rintro ⟨t, v, ht, hv, habove, hbelow⟩
    obtain ⟨k, bitmap, hk, hd, heq⟩ := h.complete d t v ht hv
    refine ⟨(k, bitmap), (AvlNode.mem_visit h.ordered).mpr ⟨hk, ?_, ?_⟩, hd⟩
    · rw [← aboveLower_congr heq]
      exact habove
    · rw [← belowUpper_congr heq]
      exact hbelow

theorem HoldsValues.mem_getByRange (h : HoldsValues compareTo get valueOf values)
    {minValue maxValue : K} {d : ℕ} :
    d ∈ getByRange compareTo values minValue maxValue ↔
      ∃ t v, get d = some t ∧ valueOf t = some v ∧
        (compareTo v minValue).isGE = true ∧ (compareTo v maxValue).isLE = true := by
  have hbounds : ∀ v, AvlNode.aboveLower compareTo (some minValue) true v = true ↔
      (compareTo v minValue).isGE = true := by
    intro v
    cases hc : compareTo v minValue <;> simp [AvlNode.aboveLower, hc]
  have hupper : ∀ v, AvlNode.belowUpper compareTo (some maxValue) true v = true ↔
      (compareTo v maxValue).isLE = true := by
    intro v
    cases hc : compareTo v maxValue <;> simp [AvlNode.belowUpper, hc]
  unfold getByRange
  split
  · next hgt =>
    simp only [Finset.notMem_empty, false_iff]
    rintro ⟨t, v, -, -, hge, hle⟩
    have hle' := TransCmp.isLE_trans (OrientedCmp.isLE_of_isGE hge) hle
    simp [hgt] at hle'
  · simp only [h.mem_visit, hbounds, hupper]

end

/-! ### Strings with a common start -/

/-- The upper bound by recursion from the first code unit. -/
def upperBoundFrom : JString → Option JString
  | [] => none
  | c :: rest =>
    match upperBoundFrom rest with
    | some bound => some (c :: bound)
    | none => if c ≠ JChar.maxValue then some [c + 1] else none

theorem exclusiveUpperBound_loop_append (l : List JChar) (c : JChar) :
    exclusiveUpperBound.loop (l ++ [c]) =
      match exclusiveUpperBound.loop l with
      | some bound => some (c :: bound)
      | none => if c ≠ JChar.maxValue then some [c + 1] else none := by
  induction l with
  | nil => simp [exclusiveUpperBound.loop]
  | cons d rest ih =>
    simp only [List.cons_append, exclusiveUpperBound.loop, List.reverse_append,
      List.reverse_cons, List.reverse_nil, List.nil_append, ih]
    by_cases hd : d = JChar.maxValue <;> simp [hd]

/-- The loop from the end computes the recursion from the start. -/
theorem exclusiveUpperBound_eq (start : JString) :
    exclusiveUpperBound start = upperBoundFrom start := by
  unfold exclusiveUpperBound
  induction start with
  | nil => rfl
  | cons c rest ih =>
    rw [List.reverse_cons, exclusiveUpperBound_loop_append, ih, upperBoundFrom]

theorem compareTo_cons (a b : JChar) (as bs : JString) :
    JString.compareTo (a :: as) (b :: bs) = (compare a b).then (JString.compareTo as bs) :=
  List.compareLex_cons_cons

/-- The strings that start with `start` are those from it on and below the exclusive bound. -/
theorem isPrefixOf_iff (start value : JString) :
    start.isPrefixOf value = true ↔
      (JString.compareTo value start).isGE = true ∧
        ∀ bound ∈ upperBoundFrom start, JString.compareTo value bound = .lt := by
  induction start generalizing value with
  | nil =>
    have hge : (JString.compareTo value []).isGE = true := by cases value <;> rfl
    simp [upperBoundFrom, hge]
  | cons c rest ih =>
    cases value with
    | nil => exact ⟨nofun, fun h => nomatch h.1⟩
    | cons d tail =>
      simp only [List.isPrefixOf, Bool.and_eq_true, beq_iff_eq, ih, compareTo_cons, upperBoundFrom]
      rcases lt_trichotomy d c with hdc | hdc | hdc
      · have hcmp : compare d c = .lt := compare_lt_iff_lt.mpr hdc
        simp [hcmp, hdc.ne']
      · subst hdc
        simp only [true_and, Std.ReflCmp.compare_self, Ordering.eq_then]
        cases hu : upperBoundFrom rest with
        | some bound => simp [compareTo_cons]
        | none =>
          by_cases hmax : d = JChar.maxValue
          · simp [hmax]
          · have hlt : compare d (d + 1) = .lt := compare_lt_iff_lt.mpr (JChar.lt_add_one hmax)
            simp [hmax, compareTo_cons, hlt]
      · have hcmp : compare d c = .gt := compare_gt_iff_gt.mpr hdc
        simp only [hdc.ne, false_and, hcmp, Ordering.gt_then, Ordering.isGE_gt, true_and,
          false_iff, not_forall]
        cases hu : upperBoundFrom rest with
        | some bound => exact ⟨c :: bound, rfl, by simp [compareTo_cons, hcmp]⟩
        | none =>
          refine ⟨[c + 1], by simp [JChar.ne_maxValue_of_lt hdc], ?_⟩
          rw [compareTo_cons]
          rcases (Fin.add_one_le_of_lt hdc).lt_or_eq with hlt | rfl
          · simp [compare_gt_iff_gt.mpr hlt]
          · have hself : compare (c + 1) (c + 1) = .eq := Std.ReflCmp.compare_self
            rw [hself, Ordering.eq_then]
            cases tail <;> exact nofun

variable {get : ℕ → Option T}

theorem HoldsValues.mem_getByPrefix {valueOf : T → Option JString}
    {values : AvlNode JString (Finset ℕ)}
    (h : HoldsValues JString.compareTo get valueOf values) {start : JString} {d : ℕ} :
    d ∈ getByPrefix values start ↔
      ∃ t v, get d = some t ∧ valueOf t = some v ∧ start.isPrefixOf v = true := by
  unfold getByPrefix
  split
  · next hempty =>
    subst hempty
    simp [h.mem_visit, AvlNode.aboveLower, AvlNode.belowUpper]
  · rw [h.mem_visit, exclusiveUpperBound_eq]
    have hrange : ∀ v, (AvlNode.aboveLower JString.compareTo (some start) true v = true ∧
        AvlNode.belowUpper JString.compareTo (upperBoundFrom start) false v = true) ↔
        start.isPrefixOf v = true := by
      intro v
      rw [isPrefixOf_iff]
      refine and_congr ?_ ?_
      · cases hc : JString.compareTo v start <;> simp [AvlNode.aboveLower, hc]
      · cases hu : upperBoundFrom start <;> simp [AvlNode.belowUpper]
    simp only [hrange]

/-! ### Candidates cover the query -/

theorem mem_termUnion {postings : AvlNode JString (Finset ℕ)} {terms : List JString} {d : ℕ} :
    d ∈ termUnion postings terms ↔
      ∃ term ∈ terms, d ∈ orEmpty (postings.get JString.compareTo term) := by
  have hfold := mem_foldl_union id (terms.filterMap (postings.get JString.compareTo)) ∅ d
  simp only [id_eq, Finset.notMem_empty, false_or, List.mem_filterMap] at hfold
  rw [termUnion, hfold]
  constructor
  · rintro ⟨bitmap, ⟨term, hterm, hget⟩, hd⟩
    exact ⟨term, hterm, by simpa [orEmpty, hget] using hd⟩
  · rintro ⟨term, hterm, hd⟩
    cases hget : postings.get JString.compareTo term with
    | none => simp [orEmpty, hget] at hd
    | some bitmap => exact ⟨bitmap, ⟨term, hterm, hget⟩, by simpa [orEmpty, hget] using hd⟩

theorem mem_intersectFrom {candidates : Finset ℕ} {sources : List (Finset ℕ)} {d : ℕ} :
    d ∈ intersectFrom candidates sources ↔ d ∈ candidates ∧ ∀ s ∈ sources, d ∈ s := by
  induction sources generalizing candidates with
  | nil => simp [intersectFrom]
  | cons source rest ih =>
    unfold intersectFrom
    split
    · next hempty =>
      have hnot : d ∉ candidates ∩ source := by simp [hempty]
      rw [Finset.mem_inter] at hnot
      simp only [Finset.mem_inter, List.mem_cons, forall_eq_or_imp]
      tauto
    · simp only [ih, Finset.mem_inter, List.mem_cons, forall_eq_or_imp, and_assoc]

theorem sourcesOf_eq_none {postings : AvlNode JString (Finset ℕ)} {terms : List JString}
    (h : sourcesOf postings terms = none) :
    ∃ term ∈ terms, postings.get JString.compareTo term = none := by
  induction terms with
  | nil => cases h
  | cons term rest ih =>
    cases hget : postings.get JString.compareTo term with
    | none => exact ⟨term, List.mem_cons_self, hget⟩
    | some posting =>
      cases hrest : sourcesOf postings rest with
      | none =>
        obtain ⟨t, ht, hnone⟩ := ih hrest
        exact ⟨t, List.mem_cons_of_mem _ ht, hnone⟩
      | some sources => simp [sourcesOf, hget, hrest] at h

theorem sourcesOf_eq_some {postings : AvlNode JString (Finset ℕ)} {terms : List JString}
    {sources : List (Finset ℕ)} (h : sourcesOf postings terms = some sources) :
    sources = terms.map fun term => orEmpty (postings.get JString.compareTo term) := by
  induction terms generalizing sources with
  | nil => cases h; rfl
  | cons term rest ih =>
    cases hget : postings.get JString.compareTo term with
    | none => simp [sourcesOf, hget] at h
    | some posting =>
      cases hrest : sourcesOf postings rest with
      | none => simp [sourcesOf, hget, hrest] at h
      | some later =>
        simp only [sourcesOf, hget, hrest, Option.some.injEq] at h
        rw [← h, ih hrest]
        simp [orEmpty, hget]

/-- The documents that have every term; a term without a posting empties the intersection. -/
theorem mem_termIntersection {postings : AvlNode JString (Finset ℕ)} {terms : List JString}
    (hne : terms ≠ []) {d : ℕ} :
    d ∈ termIntersection postings terms ↔
      ∀ term ∈ terms, d ∈ orEmpty (postings.get JString.compareTo term) := by
  unfold termIntersection
  cases hmap : sourcesOf postings terms with
  | none =>
    obtain ⟨term, hterm, hget⟩ := sourcesOf_eq_none hmap
    simp only [Finset.notMem_empty, false_iff, not_forall]
    exact ⟨term, hterm, by simp [orEmpty, hget]⟩
  | some sources =>
    have hsources := sourcesOf_eq_some hmap
    have hperm := List.perm_insertionSort (fun a b : Finset ℕ => a.card ≤ b.card) sources
    have hall : (∀ s ∈ sources, d ∈ s) ↔
        ∀ term ∈ terms, d ∈ orEmpty (postings.get JString.compareTo term) := by
      simp [hsources]
    rw [← hall]
    simp only
    cases hsort : sources.insertionSort (fun a b : Finset ℕ => a.card ≤ b.card) with
    | nil =>
      rw [hsort, List.nil_perm, hsources, List.map_eq_nil_iff] at hperm
      exact absurd hperm hne
    | cons first rest =>
      rw [hsort] at hperm
      simp only [mem_intersectFrom, ← hperm.mem_iff, List.mem_cons, forall_eq_or_imp]

/-- Candidates that are the matching documents cover the query. -/
theorem Covers.of_iff {query : Query S} {bitmap : Finset ℕ} {accuracy : CandidateAccuracy}
    (h : ∀ d, d ∈ bitmap ↔ ∃ t, get d = some t ∧ query.matchesDocument t = true) :
    Covers get query ⟨bitmap, accuracy⟩ :=
  ⟨fun d t ht hm => (h d).mpr ⟨t, ht, hm⟩, fun _ d hd => (h d).mp hd⟩

theorem equality_covers {field : S.Field}
    {values : ImmutableOverlayMap (S.Val field) (Finset ℕ)}
    (h : (IndexSnapshot.equality field values).InSync get) (value : S.Val field) :
    Covers get (.equal field (some value)) ⟨orEmpty (values.get value), .exact⟩ :=
  .of_iff fun d => by simpa using h value d

theorem range_equal_covers {field : S.Field} {values : AvlNode (S.Val field) (Finset ℕ)}
    (h : HoldsValues (S.cmp field) get (S.fieldValue field) values) (value : S.Val field) :
    Covers get (.equal field (some value))
      ⟨orEmpty (values.get (S.cmp field) value), .superset⟩ := by
  refine ⟨fun d t ht hm => h.mem_get.mpr ⟨t, value, ht, ?_, Std.ReflCmp.compare_self⟩, nofun⟩
  simpa using hm

theorem range_covers {field : S.Field} {values : AvlNode (S.Val field) (Finset ℕ)}
    (h : HoldsValues (S.cmp field) get (S.fieldValue field) values)
    (minValue maxValue : S.Val field) :
    Covers get (.range field minValue maxValue)
      ⟨getByRange (S.cmp field) values minValue maxValue, .exact⟩ := by
  refine .of_iff fun d => ?_
  rw [h.mem_getByRange]
  refine exists_congr fun t => ?_
  cases hv : S.fieldValue field t with
  | none => simp [hv]
  | some v => simp [hv]

theorem prefixed_covers {field : S.StringField} {values : AvlNode JString (Finset ℕ)}
    (h : HoldsValues JString.compareTo get (S.stringOf field) values) (start : JString) :
    Covers get (.prefixed field start : Query S) ⟨getByPrefix values start, .exact⟩ := by
  refine .of_iff fun d => ?_
  rw [h.mem_getByPrefix]
  refine exists_congr fun t => ?_
  cases hv : S.stringOf field t with
  | none => simp [hv]
  | some v => simp [hv]

/-- `String.compareTo` identifies only equal strings, so the lookup is exact. -/
theorem prefixes_equal_covers {field : S.StringField} {values : AvlNode JString (Finset ℕ)}
    (h : HoldsValues JString.compareTo get (S.stringOf field) values) (value : JString) :
    Covers get (.equal (.inl field) (some value) : Query S)
      ⟨orEmpty (values.get JString.compareTo value), .exact⟩ := by
  refine .of_iff fun d => ?_
  rw [h.mem_get]
  refine exists_congr fun t => ?_
  simp only [Query.matchesDocument, decide_eq_true_eq, Std.LawfulEqCmp.compare_eq_iff_eq]
  constructor
  · rintro ⟨v, ht, hv, rfl⟩
    exact ⟨ht, hv⟩
  · rintro ⟨ht, hv⟩
    exact ⟨value, ht, hv, rfl⟩

section

variable {textField : S.TextField} {postings : AvlNode JString (Finset ℕ)} {count : ℕ}
  (h : (IndexSnapshot.text textField postings count).InSync get)
include h

theorem term_covers (term : JString) :
    Covers get (.term textField term : Query S)
      ⟨orEmpty (postings.get JString.compareTo term), .exact⟩ :=
  .of_iff fun d => by simpa using h term d

theorem anyTerms_covers (terms : List JString) :
    Covers get (.anyTerms textField terms : Query S) ⟨termUnion postings terms, .exact⟩ := by
  refine .of_iff fun d => ?_
  rw [mem_termUnion]
  simp only [Query.matchesDocument, List.any_eq_true, decide_eq_true_eq]
  constructor
  · rintro ⟨term, hterm, hd⟩
    obtain ⟨t, ht, hin⟩ := (h term d).mp hd
    exact ⟨t, ht, term, hterm, hin⟩
  · rintro ⟨t, ht, term, hterm, hin⟩
    exact ⟨term, hterm, (h term d).mpr ⟨t, ht, hin⟩⟩

theorem allTerms_covers (terms : List JString) :
    Covers get (.allTerms textField terms : Query S)
      ⟨termIntersection postings terms, .exact⟩ := by
  refine .of_iff fun d => ?_
  cases terms with
  | nil => simp [termIntersection, sourcesOf]
  | cons first rest =>
    rw [mem_termIntersection (List.cons_ne_nil _ _)]
    simp only [Query.matchesDocument, List.isEmpty_cons, Bool.not_false, Bool.true_and,
      List.all_eq_true, decide_eq_true_eq]
    constructor
    · intro hall
      obtain ⟨t, ht, -⟩ := (h first d).mp (hall first List.mem_cons_self)
      refine ⟨t, ht, fun term hterm => ?_⟩
      obtain ⟨t', ht', hin⟩ := (h term d).mp (hall term hterm)
      rw [ht] at ht'
      cases ht'
      exact hin
    · rintro ⟨t, ht, hall⟩ term hterm
      exact (h term d).mpr ⟨t, ht, hall term hterm⟩

end

/-- Every index in sync offers only candidates that cover the query. -/
theorem candidates_covers {index : IndexSnapshot S} (h : index.InSync get) {query : Query S}
    {result : CandidateResult} (hr : index.candidates query = some result) :
    Covers get query result := by
  cases index with
  | custom candidates estimate => exact h query result hr
  | equality field values =>
    cases query with
    | equal f expectedValue =>
      simp only [IndexSnapshot.candidates] at hr
      split at hr
      · next hf =>
        subst hf
        cases expectedValue with
        | none => cases hr
        | some value => cases hr; exact equality_covers h value
      · cases hr
    | _ => cases hr
  | range field values =>
    cases query with
    | equal f expectedValue =>
      simp only [IndexSnapshot.candidates] at hr
      split at hr
      · next hf =>
        subst hf
        cases expectedValue with
        | none => cases hr
        | some value => cases hr; exact range_equal_covers h value
      · cases hr
    | range f minValue maxValue =>
      simp only [IndexSnapshot.candidates] at hr
      split at hr
      · next hf =>
        subst hf
        cases hr
        exact range_covers h minValue maxValue
      · cases hr
    | _ => cases hr
  | prefixes field values =>
    cases query with
    | prefixed f start =>
      simp only [IndexSnapshot.candidates] at hr
      split at hr
      · next hf =>
        subst hf
        cases hr
        exact prefixed_covers h start
      · cases hr
    | equal f expectedValue =>
      cases f with
      | inr f => cases hr
      | inl f =>
        simp only [IndexSnapshot.candidates] at hr
        split at hr
        · next hf =>
          subst hf
          cases expectedValue with
          | none => cases hr
          | some value => cases hr; exact prefixes_equal_covers h value
        · cases hr
    | _ => cases hr
  | text textField postings count =>
    cases query with
    | term f t =>
      simp only [IndexSnapshot.candidates] at hr
      split at hr
      · next hf =>
        subst hf
        cases hr
        exact term_covers h t
      · cases hr
    | anyTerms f terms =>
      simp only [IndexSnapshot.candidates] at hr
      split at hr
      · next hf =>
        subst hf
        cases hr
        exact anyTerms_covers h terms
      · cases hr
    | allTerms f terms =>
      simp only [IndexSnapshot.candidates] at hr
      split at hr
      · next hf =>
        subst hf
        cases hr
        exact allTerms_covers h terms
      · cases hr
    | _ => cases hr

end GeneralSearch.Planner
