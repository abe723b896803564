import GeneralSearch.Index.ValueIndex
import GeneralSearch.Query.Planner

/-! Indexes that their builders maintain, as the planner reads them.  Whatever adds, updates, removals
and builds lie behind it, an index shows the documents, and it answers every query with the same
candidates and the same estimates as an index built from scratch (`incremental_eq_rebuild`). -/

namespace GeneralSearch.Planner

open GeneralSearch.Storage GeneralSearch.Index GeneralSearch.Lib

variable {T : Type} {S : Schema T}

/-- The layers of an overlay map without its size. -/
def layers {K V : Type} [DecidableEq K] :
    Index.ImmutableOverlayMap K V → Planner.ImmutableOverlayMap K V
  | .root rootValues => .root rootValues
  | .overlay parent replacements removals _ => .overlay (layers parent) replacements removals.keys

theorem get_layers {K V : Type} [DecidableEq K] (m : Index.ImmutableOverlayMap K V) (key : K) :
    (layers m).get key = m.get key := by
  induction m with
  | root rootValues => rfl
  | overlay parent replacements removals size ih =>
    rw [layers, ImmutableOverlayMap.get, Index.ImmutableOverlayMap.get, ih]
    cases replacements.lookup key with
    | some replacement => rfl
    | none => exact if_congr AList.mem_keys.symm rfl rfl

/-- `PrefixIndexSnapshot.values`; its buffer is a `HashMap`. -/
def prefixValues : BitmapDictionary JString := orderedValues (fun a b => a == b) JString.compareTo

/-- `IndexStatistics`. -/
structure IndexStatistics where
  indexedDocumentCount : ℕ
  distinctKeyCount : ℤ
  deriving DecidableEq, Repr

/-- The definition that an index was created from. -/
inductive IndexDefinition (S : Schema T) where
  | equality (field : S.Field)
  | range (field : S.Field)
  | prefixes (field : S.StringField)

/-- An index that a builder has built, with its statistics.  The builder has been through calls
consistent with the documents. -/
inductive Incremental (docs : ℕ → Option T) :
    IndexDefinition S → IndexSnapshot S → IndexStatistics → Prop
  | equality {field order s} {b : ValueIndexBuilder (equalityValues (S.Val field))} :
      Maintained _ (S.fieldValue field) b docs → order.Perm b.dirty → b.build order = .ok s →
      Incremental docs (.equality field) (.equality field (layers s.values))
        ⟨s.indexedDocumentCount, s.values.size.toInt⟩
  | range {field order s} {b : ValueIndexBuilder (rangeValues (S.cmp field))} :
      Maintained _ (S.fieldValue field) b docs → order.Perm b.dirty → b.build order = .ok s →
      Incremental docs (.range field) (.range field s.values)
        ⟨s.indexedDocumentCount, AvlNode.size s.values⟩
  | prefixes {field order s} {b : ValueIndexBuilder prefixValues} :
      Maintained _ (S.stringOf field) b docs → order.Perm b.dirty → b.build order = .ok s →
      Incremental docs (.prefixes field) (.prefixes field s.values)
        ⟨s.indexedDocumentCount, AvlNode.size s.values⟩

/-! ### Trees of one map -/

section

variable {K : Type} {compareTo : K → K → Ordering} [Std.TransCmp compareTo]
  {bitmaps : K → Option (Finset ℕ)} {root root' : AvlNode K (Finset ℕ)} {lowerBound : Option K}
  {lowerInclusive : Bool} {upperBound : Option K} {upperInclusive : Bool}

open AvlChange

/-- A visit of any range meets the same bitmaps in the same order. -/
theorem visit_values_eq (h : Holds compareTo cardinality bitmaps root)
    (h' : Holds compareTo cardinality bitmaps root') :
    (root.visit compareTo lowerBound lowerInclusive upperBound upperInclusive).map Prod.snd =
      (root'.visit compareTo lowerBound lowerInclusive upperBound upperInclusive).map Prod.snd := by
  let inside := fun e : K × Finset ℕ =>
    AvlNode.within compareTo lowerBound lowerInclusive upperBound upperInclusive e.1
  have hinside : ∀ e e' : K × Finset ℕ, compareTo e.1 e'.1 = .eq ∧ e.2 = e'.2 →
      (inside e = true ↔ inside e' = true) := by
    intro e e' heq
    simp only [inside, AvlNode.within]
    rw [aboveLower_congr heq.1, belowUpper_congr heq.1]
  have hfilter := List.rel_filter (p := inside) (q := inside) hinside (h.forall₂ h')
  rw [AvlNode.visit_eq_filter h.ordered, AvlNode.visit_eq_filter h'.ordered]
  refine List.forall₂_eq_eq_eq ▸ ?_
  rw [List.forall₂_map_left_iff, List.forall₂_map_right_iff]
  exact hfilter.imp fun _ _ heq => heq.2

theorem bitmapUnion_eq (h : Holds compareTo cardinality bitmaps root)
    (h' : Holds compareTo cardinality bitmaps root') :
    bitmapUnion (root.visit compareTo lowerBound lowerInclusive upperBound upperInclusive) =
      bitmapUnion (root'.visit compareTo lowerBound lowerInclusive upperBound upperInclusive) := by
  unfold bitmapUnion
  rw [← List.foldl_map (f := Prod.snd) (g := fun union bitmap => union ∪ bitmap),
    visit_values_eq h h', List.foldl_map]

theorem entryCountInRange_agree (h : Holds compareTo cardinality bitmaps root)
    (h' : Holds compareTo cardinality bitmaps root') :
    root.entryCountInRange compareTo lowerBound lowerInclusive upperBound upperInclusive =
      root'.entryCountInRange compareTo lowerBound lowerInclusive upperBound upperInclusive := by
  rw [AvlNode.entryCountInRange_eq h.sound h.ordered, AvlNode.entryCountInRange_eq h'.sound h'.ordered,
    ← List.length_map Prod.snd, visit_values_eq h h', List.length_map]

theorem aggregateWeightInRange_agree (h : Holds compareTo cardinality bitmaps root)
    (h' : Holds compareTo cardinality bitmaps root') :
    root.aggregateWeightInRange compareTo lowerBound lowerInclusive upperBound upperInclusive =
      root'.aggregateWeightInRange compareTo lowerBound lowerInclusive upperBound upperInclusive := by
  have hvalues := congrArg (List.map cardinality)
    (@visit_values_eq _ _ _ _ _ _ lowerBound lowerInclusive upperBound upperInclusive h h')
  rw [List.map_map, List.map_map] at hvalues
  have hsum := congrArg List.sum hvalues
  rw [← Int.natCast_inj, AvlNode.aggregateWeightInRange_eq h.sound h.ordered,
    AvlNode.aggregateWeightInRange_eq h'.sound h'.ordered]
  exact hsum

theorem size_agree (h : Holds compareTo cardinality bitmaps root)
    (h' : Holds compareTo cardinality bitmaps root') : root.size = root'.size := by
  rw [h.sound.size_eq, h'.sound.size_eq]
  exact (h.forall₂ h').length_eq

/-- The tree lists the documents under their values. -/
theorem holdsValues {docs : ℕ → Option T} {valueOf : T → Option K} {same : K → K → Bool}
    (hsame : ∀ a b, same a b = true ↔ compareTo a b = .eq)
    (h : Holds compareTo cardinality bitmaps root)
    (hlists : Lists same (fun d => docs d >>= valueOf) bitmaps) :
    HoldsValues compareTo docs valueOf root := by
  have hmem : ∀ key d, d ∈ (bitmaps key).getD ∅ ↔
      ∃ t v, docs d = some t ∧ valueOf t = some v ∧ compareTo v key = .eq := by
    intro key d
    rw [hlists.mem]
    constructor
    · rintro ⟨v, hv, hkey⟩
      obtain ⟨t, ht, hvalue⟩ := Option.bind_eq_some_iff.mp hv
      exact ⟨t, v, ht, hvalue, (hsame v key).mp hkey⟩
    · rintro ⟨t, v, ht, hvalue, hkey⟩
      exact ⟨v, Option.bind_eq_some_iff.mpr ⟨t, ht, hvalue⟩, (hsame v key).mpr hkey⟩
  refine ⟨h.ordered, fun k bitmap d hk hd => ?_, fun d t v ht hv => ?_⟩
  · have hget : bitmaps k = some bitmap := by
      rw [← h.get_eq]
      exact (AvlNode.get_eq_some_iff h.ordered).mpr ⟨k, hk, Std.ReflCmp.compare_self⟩
    exact (hmem k d).mp (by rw [hget]; exact hd)
  · have hd := (hmem v d).mpr ⟨t, v, ht, hv, Std.ReflCmp.compare_self⟩
    cases hbitmap : bitmaps v with
    | none => simp [hbitmap] at hd
    | some bitmap =>
      rw [hbitmap] at hd
      obtain ⟨k, hk, hkey⟩ := (AvlNode.get_eq_some_iff h.ordered).mp ((h.get_eq v).trans hbitmap)
      exact ⟨k, bitmap, hk, hd, hkey⟩

theorem getByRange_agree (h : Holds compareTo cardinality bitmaps root)
    (h' : Holds compareTo cardinality bitmaps root') (minValue maxValue : K) :
    getByRange compareTo root minValue maxValue = getByRange compareTo root' minValue maxValue := by
  unfold getByRange
  rw [bitmapUnion_eq h h']

end

/-! ### Answers -/

/-- Two indexes answer every query with the same candidates and the same estimates. -/
def Alike (index index' : IndexSnapshot S) : Prop :=
  ∀ query, index.candidates query = index'.candidates query ∧
    index.estimateCandidates query = index'.estimateCandidates query

theorem alike_equality {field : S.Field} {values values' : ImmutableOverlayMap (S.Val field) (Finset ℕ)}
    (h : ∀ key, values.get key = values'.get key) :
    Alike (.equality field values) (.equality field values') := by
  intro query
  cases query with
  | equal f expectedValue =>
    unfold IndexSnapshot.candidates IndexSnapshot.estimateCandidates
    by_cases hf : f = field
    · subst hf
      simp only [dite_true, h, and_self]
    · simp only [dif_neg hf, and_self]
  | _ => exact ⟨rfl, rfl⟩

theorem alike_range {field : S.Field} {values values' : AvlNode (S.Val field) (Finset ℕ)}
    {bitmaps : S.Val field → Option (Finset ℕ)}
    (h : AvlChange.Holds (S.cmp field) cardinality bitmaps values)
    (h' : AvlChange.Holds (S.cmp field) cardinality bitmaps values') :
    Alike (.range field values) (.range field values') := by
  intro query
  cases query with
  | equal f expectedValue =>
    unfold IndexSnapshot.candidates IndexSnapshot.estimateCandidates
    by_cases hf : f = field
    · subst hf
      simp only [dite_true, h.get_eq, h'.get_eq, and_self]
    · simp only [dif_neg hf, and_self]
  | range f minValue maxValue =>
    unfold IndexSnapshot.candidates IndexSnapshot.estimateCandidates
    by_cases hf : f = field
    · subst hf
      simp only [dite_true]
      rw [getByRange_agree h h', aggregateWeightInRange_agree h h', entryCountInRange_agree h h']
      exact ⟨rfl, rfl⟩
    · simp only [dif_neg hf, and_self]
  | _ => exact ⟨rfl, rfl⟩

theorem getByPrefix_agree {values values' : AvlNode JString (Finset ℕ)}
    {bitmaps : JString → Option (Finset ℕ)}
    (h : AvlChange.Holds JString.compareTo cardinality bitmaps values)
    (h' : AvlChange.Holds JString.compareTo cardinality bitmaps values') (start : JString) :
    getByPrefix values start = getByPrefix values' start := by
  unfold getByPrefix
  rw [bitmapUnion_eq h h', bitmapUnion_eq h h']

theorem alike_prefixes {field : S.StringField} {values values' : AvlNode JString (Finset ℕ)}
    {bitmaps : JString → Option (Finset ℕ)}
    (h : AvlChange.Holds JString.compareTo cardinality bitmaps values)
    (h' : AvlChange.Holds JString.compareTo cardinality bitmaps values') :
    Alike (S := S) (.prefixes field values) (.prefixes field values') := by
  intro query
  cases query with
  | equal f expectedValue =>
    cases f with
    | inr f => exact ⟨rfl, rfl⟩
    | inl f =>
      unfold IndexSnapshot.candidates IndexSnapshot.estimateCandidates
      cases expectedValue with
      | none => exact ⟨rfl, rfl⟩
      | some value =>
        have hget : values.get JString.compareTo value = values'.get JString.compareTo value :=
          (h.get_eq value).trans (h'.get_eq value).symm
        by_cases hf : f = field
        · simp only [if_pos hf]
          exact ⟨congrArg (fun bitmap => some (CandidateResult.mk (orEmpty bitmap) .exact)) hget,
            congrArg (fun bitmap => some (IndexSnapshot.bucketEstimate bitmap .exact)) hget⟩
        · simp only [if_neg hf, and_self]
  | prefixed f start =>
    unfold IndexSnapshot.candidates IndexSnapshot.estimateCandidates
    simp only
    rw [getByPrefix_agree h h', aggregateWeightInRange_agree h h', entryCountInRange_agree h h']
    exact ⟨rfl, rfl⟩
  | _ => exact ⟨rfl, rfl⟩

theorem sourcesOf_agree {postings postings' : AvlNode JString (Finset ℕ)}
    (h : ∀ term, postings.get JString.compareTo term = postings'.get JString.compareTo term)
    (terms : List JString) : sourcesOf postings terms = sourcesOf postings' terms := by
  induction terms with
  | nil => rfl
  | cons term rest ih => rw [sourcesOf, sourcesOf, ih, h]

theorem alike_text {field : S.TextField} {postings postings' : AvlNode JString (Finset ℕ)}
    {count : ℕ}
    (h : ∀ term, postings.get JString.compareTo term = postings'.get JString.compareTo term) :
    Alike (S := S) (.text field postings count) (.text field postings' count) := by
  intro query
  cases query with
  | term f t => simp only [IndexSnapshot.candidates, IndexSnapshot.estimateCandidates, h, and_self]
  | anyTerms f terms =>
    simp only [IndexSnapshot.candidates, IndexSnapshot.estimateCandidates, termUnion,
      IndexSnapshot.anyTermsEstimate, h, and_self]
  | allTerms f terms =>
    simp only [IndexSnapshot.candidates, IndexSnapshot.estimateCandidates, termIntersection,
      IndexSnapshot.allTermsEstimate, sourcesOf_agree h, and_self]
  | _ => exact ⟨rfl, rfl⟩

/-! ### Maintained indexes -/

section

variable {docs : ℕ → Option T} {K : Type} {map : BitmapDictionary K}
  {s s' : ValueIndexSnapshot map} {value : ℕ → Option K}

/-- Snapshots of the same documents hold the same bitmaps. -/
theorem shows_agree {laws : map.Lawful} (h : s.Shows laws value) (h' : s'.Shows laws value) :
    s.indexedDocumentCount = s'.indexedDocumentCount ∧ ∃ bitmaps,
      laws.Holds s.values bitmaps ∧ laws.Holds s'.values bitmaps ∧
        Lists map.same value bitmaps := by
  obtain ⟨bitmaps, hholds, hlists⟩ := h.bitmaps
  obtain ⟨bitmaps', hholds', hlists'⟩ := h'.bitmaps
  obtain rfl := hlists.unique hlists'
  exact ⟨h.count.unique h'.count, bitmaps, hholds, hholds', hlists⟩

/-- The order of a field identifies the keys of its buffer. -/
theorem rangeValues_same {compareTo : K → K → Ordering} (a b : K) :
    (compareTo a b).isEq = true ↔ compareTo a b = .eq := by
  cases compareTo a b <;> decide

theorem prefixValues_same (a b : JString) : (a == b) = true ↔ JString.compareTo a b = .eq := by
  rw [beq_iff_eq]
  exact Std.compare_eq_iff_eq.symm

/-- What maintained indexes of one definition have in common. -/
def Rebuilt (docs : ℕ → Option T) (index index' : IndexSnapshot S)
    (statistics statistics' : IndexStatistics) : Prop :=
  index.InSync docs ∧ statistics = statistics' ∧ Alike index index'

variable {field : S.Field}

theorem equality_rebuilt {order order' : List (S.Val field × Finset ℕ)}
    {b b' : ValueIndexBuilder (equalityValues (S.Val field))}
    {s s' : ValueIndexSnapshot (equalityValues (S.Val field))}
    (h : Maintained _ (S.fieldValue field) b docs) (horder : order.Perm b.dirty)
    (hbuild : b.build order = .ok s) (h' : Maintained _ (S.fieldValue field) b' docs)
    (horder' : order'.Perm b'.dirty) (hbuild' : b'.build order' = .ok s') :
    Rebuilt docs (.equality field (layers s.values)) (.equality field (layers s'.values))
      ⟨s.indexedDocumentCount, s.values.size.toInt⟩
      ⟨s'.indexedDocumentCount, s'.values.size.toInt⟩ := by
  let laws := equalityValues_lawful (S.Val field)
  obtain ⟨hcount, bitmaps, ⟨f, hf, hbitmaps⟩, ⟨f', hf', hbitmaps'⟩, hlists⟩ :=
    shows_agree (h.shows laws horder hbuild) (h'.shows laws horder' hbuild')
  have hmaps : f = f' := Finmap.ext_lookup fun key => by rw [hbitmaps, hbitmaps']
  have hget : ∀ key, (layers s.values).get key = bitmaps key :=
    fun key => (get_layers _ key).trans ((hf.get key).trans (hbitmaps key))
  have hget' : ∀ key, (layers s'.values).get key = bitmaps key :=
    fun key => (get_layers _ key).trans ((hf'.get key).trans (hbitmaps' key))
  refine ⟨fun value d => ?_, ?_, alike_equality fun key => (hget key).trans (hget' key).symm⟩
  · rw [hget, orEmpty, hlists.mem]
    constructor
    · rintro ⟨v, hv, hsame⟩
      obtain ⟨t, ht, hvalue⟩ := Option.bind_eq_some_iff.mp hv
      exact ⟨t, ht, hvalue.trans (congrArg some (of_decide_eq_true hsame))⟩
    · rintro ⟨t, ht, hvalue⟩
      exact ⟨value, Option.bind_eq_some_iff.mpr ⟨t, ht, hvalue⟩, decide_eq_true rfl⟩
  · obtain ⟨g, hg, -, hsize⟩ := h.counted horder hbuild
    obtain ⟨g', hg', -, hsize'⟩ := h'.counted horder' hbuild'
    rw [hcount, hsize, hsize', hg.unique hf, hg'.unique hf', hmaps]

theorem range_rebuilt {order order' : List (S.Val field × Finset ℕ)}
    {b b' : ValueIndexBuilder (rangeValues (S.cmp field))}
    {s s' : ValueIndexSnapshot (rangeValues (S.cmp field))}
    (h : Maintained _ (S.fieldValue field) b docs) (horder : order.Perm b.dirty)
    (hbuild : b.build order = .ok s) (h' : Maintained _ (S.fieldValue field) b' docs)
    (horder' : order'.Perm b'.dirty) (hbuild' : b'.build order' = .ok s') :
    Rebuilt docs (.range field s.values) (.range field s'.values)
      ⟨s.indexedDocumentCount, AvlNode.size s.values⟩
      ⟨s'.indexedDocumentCount, AvlNode.size s'.values⟩ := by
  let laws := orderedValues_lawful (@rangeValues_same _ (S.cmp field))
  obtain ⟨hcount, bitmaps, hholds, hholds', hlists⟩ :=
    shows_agree (h.shows laws horder hbuild) (h'.shows laws horder' hbuild')
  refine ⟨holdsValues rangeValues_same hholds hlists, ?_, alike_range hholds hholds'⟩
  rw [hcount, size_agree hholds hholds']

theorem prefixes_rebuilt {field : S.StringField} {order order' : List (JString × Finset ℕ)}
    {b b' : ValueIndexBuilder prefixValues} {s s' : ValueIndexSnapshot prefixValues}
    (h : Maintained _ (S.stringOf field) b docs) (horder : order.Perm b.dirty)
    (hbuild : b.build order = .ok s) (h' : Maintained _ (S.stringOf field) b' docs)
    (horder' : order'.Perm b'.dirty) (hbuild' : b'.build order' = .ok s') :
    Rebuilt (S := S) docs (.prefixes field s.values) (.prefixes field s'.values)
      ⟨s.indexedDocumentCount, AvlNode.size s.values⟩
      ⟨s'.indexedDocumentCount, AvlNode.size s'.values⟩ := by
  let laws := orderedValues_lawful prefixValues_same
  obtain ⟨hcount, bitmaps, hholds, hholds', hlists⟩ :=
    shows_agree (h.shows laws horder hbuild) (h'.shows laws horder' hbuild')
  refine ⟨holdsValues prefixValues_same hholds hlists, ?_, alike_prefixes hholds hholds'⟩
  rw [hcount, size_agree hholds hholds']

variable {definition : IndexDefinition S} {index index' : IndexSnapshot S}
  {statistics statistics' : IndexStatistics}

/-- Maintained indexes of one definition over the same documents differ in nothing that is read. -/
theorem Incremental.rebuilt (h : Incremental docs definition index statistics)
    (h' : Incremental docs definition index' statistics') :
    Rebuilt docs index index' statistics statistics' := by
  cases h with
  | equality hb horder hbuild =>
    cases h' with
    | equality hb' horder' hbuild' => exact equality_rebuilt hb horder hbuild hb' horder' hbuild'
  | range hb horder hbuild =>
    cases h' with
    | range hb' horder' hbuild' => exact range_rebuilt hb horder hbuild hb' horder' hbuild'
  | prefixes hb horder hbuild =>
    cases h' with
    | prefixes hb' horder' hbuild' => exact prefixes_rebuilt hb horder hbuild hb' horder' hbuild'

/-- However an equality, range or prefix index was maintained, it shows the documents, and its
statistics and all its answers are those of every other index of the definition over the same documents:
of one built from scratch, too. -/
theorem incremental_eq_rebuild (h : Incremental docs definition index statistics)
    (h' : Incremental docs definition index' statistics') :
    index.InSync docs ∧ statistics = statistics' ∧ ∀ query,
      index.candidates query = index'.candidates query ∧
        index.estimateCandidates query = index'.estimateCandidates query :=
  h.rebuilt h'

end

section

abbrev numberValues : BitmapDictionary (numberSchema.Val numberField) :=
  rangeValues (numberSchema.cmp numberField)

/-- The builder over the numbers 5 and 7. -/
def twoNumbers : ValueIndexBuilder numberValues :=
  ((ValueIndexSnapshot.empty numberValues).toBuilder.addValue (some (5 : ℕ)) 0).addValue
    (some (7 : ℕ)) 1

/-- A build, behind which the number 5 becomes 7. -/
def changedNumbers : Except AvlError (ValueIndexBuilder numberValues) := do
  let s ← twoNumbers.build twoNumbers.dirty
  return s.toBuilder.updateValue (some (5 : ℕ)) (some (7 : ℕ)) 0

/-- The builder over the numbers 7 and 7. -/
def rebuiltNumbers : ValueIndexBuilder numberValues :=
  ((ValueIndexSnapshot.empty numberValues).toBuilder.addValue (some (7 : ℕ)) 0).addValue
    (some (7 : ℕ)) 1

def sevens : ℕ → Option ℕ :=
  Function.update (Function.update (fun _ => none) 0 (some 7)) 1 (some 7)

/-- The range index of a build. -/
def numberIndex (s : ValueIndexSnapshot numberValues) : IndexSnapshot numberSchema :=
  .range numberField s.values

def numberStatistics (s : ValueIndexSnapshot numberValues) : IndexStatistics :=
  ⟨s.indexedDocumentCount, AvlNode.size s.values⟩

theorem rebuiltNumbers_incremental : ∃ s, rebuiltNumbers.build rebuiltNumbers.dirty = .ok s ∧
    Incremental sevens (.range numberField) (numberIndex s) (numberStatistics s) :=
  ⟨_, rfl, .range (.add (7 : ℕ) (.add (7 : ℕ) .empty rfl (by omega)) rfl (by omega)) (.refl _) rfl⟩

theorem changedNumbers_incremental : ∃ b s, changedNumbers = .ok b ∧ b.build b.dirty = .ok s ∧
    Incremental sevens (.range numberField) (numberIndex s) (numberStatistics s) := by
  have hdocs : sevens = Function.update (Function.update (Function.update (fun _ => none) 0
      (some 5)) 1 (some 7)) 0 (some 7) := by
    rw [Function.update_comm (by decide), Function.update_idem]
    rfl
  refine ⟨_, _, rfl, rfl, ?_⟩
  rw [hdocs]
  exact .range (.update (7 : ℕ) (.build (.add (7 : ℕ) (.add (5 : ℕ) .empty rfl (by omega)) rfl
    (by omega)) (.refl _) rfl) rfl) (.refl _) rfl

theorem incremental_eq_rebuild_number : ∃ b s s', changedNumbers = .ok b ∧
    b.build b.dirty = .ok s ∧ rebuiltNumbers.build rebuiltNumbers.dirty = .ok s' ∧
    (numberIndex s).InSync sevens ∧ numberStatistics s = numberStatistics s' ∧
    ∀ query, (numberIndex s).candidates query = (numberIndex s').candidates query ∧
      (numberIndex s).estimateCandidates query = (numberIndex s').estimateCandidates query := by
  obtain ⟨b, s, hb, hs, h⟩ := changedNumbers_incremental
  obtain ⟨s', hs', h'⟩ := rebuiltNumbers_incremental
  exact ⟨b, s, s', hb, hs, hs', incremental_eq_rebuild h h'⟩

end

/-! ### Plans

A plan reads nothing of an index but its answers. -/

section

/-- The answers of an index. -/
def answers (index : IndexSnapshot S) : IndexSnapshot S :=
  .custom index.candidates (some index.estimateCandidates)

def EstimatedAccessPath.answers (path : EstimatedAccessPath S) : EstimatedAccessPath S :=
  { path with index := Planner.answers path.index }

def AndChildren.answers (children : AndChildren S) : AndChildren S :=
  { children with estimated := children.estimated.map EstimatedAccessPath.answers }

/-- What a plan reads of a snapshot: the active documents and the answers of the indexes. -/
def withAnswers (snapshot : SearchSnapshot T (IndexSnapshot S)) :
    SearchSnapshot T (IndexSnapshot S) :=
  ⟨fun _ => none, snapshot.activeDocuments, snapshot.indexes.map answers, 0⟩

theorem streamMin_map {α β : Type} {le : α → α → Bool} {le' : β → β → Bool} {f : α → β}
    (h : ∀ a b, le' (f a) (f b) = le a b) (first : α) (rest : List α) :
    streamMin le' (f first) (rest.map f) = f (streamMin le first rest) := by
  unfold streamMin
  induction rest generalizing first with
  | nil => rfl
  | cons a rest ih =>
    rw [List.map_cons, List.foldl_cons, List.foldl_cons, ← ih, h]
    split <;> rfl

theorem estimatedPaths_answers (indexes : List (IndexSnapshot S)) (query : Query S) :
    estimatedPaths (indexes.map answers) query =
      (estimatedPaths indexes query).map EstimatedAccessPath.answers := by
  unfold estimatedPaths
  rw [List.filterMap_map, List.map_filterMap]
  refine List.filterMap_congr fun index _ => ?_
  rw [Option.map_map]
  rfl

theorem registryCandidates_answers (indexes : List (IndexSnapshot S)) (query : Query S) :
    registryCandidates (indexes.map answers) query = registryCandidates indexes query := by
  unfold registryCandidates
  rw [List.filterMap_map]
  rfl

/-- The best path stays the best. -/
theorem streamMin_answers (first : EstimatedAccessPath S) (rest : List (EstimatedAccessPath S)) :
    streamMin pathLE first.answers (rest.map EstimatedAccessPath.answers) =
      (streamMin pathLE first rest).answers :=
  streamMin_map (fun _ _ => rfl) first rest

theorem planDirect_answers (indexes : List (IndexSnapshot S)) (query : Query S) :
    planDirect (indexes.map answers) query = planDirect indexes query := by
  unfold planDirect
  rw [estimatedPaths_answers, registryCandidates_answers]
  cases estimatedPaths indexes query with
  | nil => rfl
  | cons first rest =>
    simp only [List.map_cons, streamMin_answers]
    rfl

mutual

theorem planCompatibility_answers (snapshot : SearchSnapshot T (IndexSnapshot S)) :
    ∀ query, planCompatibility (withAnswers snapshot) query = planCompatibility snapshot query
  | .and queries => by
    unfold planCompatibility
    rw [planEach_answers snapshot queries]
    exact congrArg (Option.getD · _) (planDirect_answers snapshot.indexes _)
  | .or queries => by
    unfold planCompatibility
    rw [planEach_answers snapshot queries]
    exact congrArg (Option.getD · _) (planDirect_answers snapshot.indexes _)
  | .not query => by
    unfold planCompatibility
    rw [planCompatibility_answers snapshot query]
    exact congrArg (Option.getD · _) (planDirect_answers snapshot.indexes _)
  | .matchAll => congrArg (Option.getD · _) (planDirect_answers snapshot.indexes _)
  | .equal .. => congrArg (Option.getD · _) (planDirect_answers snapshot.indexes _)
  | .range .. => congrArg (Option.getD · _) (planDirect_answers snapshot.indexes _)
  | .prefixed .. => congrArg (Option.getD · _) (planDirect_answers snapshot.indexes _)
  | .term .. => congrArg (Option.getD · _) (planDirect_answers snapshot.indexes _)
  | .anyTerms .. => congrArg (Option.getD · _) (planDirect_answers snapshot.indexes _)
  | .allTerms .. => congrArg (Option.getD · _) (planDirect_answers snapshot.indexes _)
  | .predicate _ => congrArg (Option.getD · _) (planDirect_answers snapshot.indexes _)

theorem planEach_answers (snapshot : SearchSnapshot T (IndexSnapshot S)) :
    ∀ queries, planEach (withAnswers snapshot) queries = planEach snapshot queries
  | [] => rfl
  | query :: rest => by
    unfold planEach
    rw [planCompatibility_answers snapshot query, planEach_answers snapshot rest]

end

theorem collectAnd_answers (snapshot : SearchSnapshot T (IndexSnapshot S))
    (children : AndChildren S) (filters : List (Query S)) :
    collectAnd (withAnswers snapshot) children.answers filters =
      (collectAnd snapshot children filters).map AndChildren.answers := by
  induction filters generalizing children with
  | nil => rfl
  | cons filter rest ih =>
    unfold collectAnd
    rw [show (withAnswers snapshot).indexes = snapshot.indexes.map answers from rfl,
      estimatedPaths_answers, planCompatibility_answers]
    cases estimatedPaths snapshot.indexes filter with
    | nil =>
      simp only [List.map_nil]
      cases planCompatibility snapshot filter with
      | none => exact ih { children with allChildrenPlanned := false }
      | some child =>
        simp only
        split
        · rfl
        · exact ih { children with
            compatibilityCandidates := children.compatibilityCandidates ++ [child] }
    | cons first others =>
      simp only [List.map_cons, streamMin_answers]
      rw [← ih]
      refine congrArg (collectAnd _ · rest) ?_
      simp [AndChildren.answers]

theorem intersectEstimated_answers (candidates : Finset ℕ) (accuracy : CandidateAccuracy)
    (allChildrenPlanned : Bool) (paths : List (EstimatedAccessPath S)) :
    intersectEstimated candidates accuracy allChildrenPlanned
        (paths.map EstimatedAccessPath.answers) =
      intersectEstimated candidates accuracy allChildrenPlanned paths := by
  induction paths generalizing candidates accuracy allChildrenPlanned with
  | nil => rfl
  | cons path rest ih =>
    rw [List.map_cons]
    unfold intersectEstimated
    simp only [ih]
    rfl

theorem intersectChildren_answers (first : CandidateResult) (allChildrenPlanned : Bool)
    (estimated : List (EstimatedAccessPath S)) (compatibilityCandidates : List CandidateResult) :
    intersectChildren first allChildrenPlanned (estimated.map EstimatedAccessPath.answers)
        compatibilityCandidates =
      intersectChildren first allChildrenPlanned estimated compatibilityCandidates := by
  unfold intersectChildren
  rw [intersectEstimated_answers]

theorem insertionSort_answers (paths : List (EstimatedAccessPath S)) :
    (paths.map EstimatedAccessPath.answers).insertionSort (fun a b => pathLE a b) =
      (paths.insertionSort fun a b => pathLE a b).map EstimatedAccessPath.answers :=
  (List.map_insertionSort (r := fun a b => pathLE a b) (s := fun a b => pathLE a b)
    EstimatedAccessPath.answers paths fun _ _ _ _ => Iff.rfl).symm

theorem fromCompatibility_answers (allChildrenPlanned : Bool)
    (estimated : List (EstimatedAccessPath S)) (compatibilityCandidates : List CandidateResult) :
    planAnd.fromCompatibility allChildrenPlanned (estimated.map EstimatedAccessPath.answers)
        compatibilityCandidates =
      planAnd.fromCompatibility allChildrenPlanned estimated compatibilityCandidates := by
  unfold planAnd.fromCompatibility
  simp only [intersectChildren_answers]

theorem planAnd_answers (snapshot : SearchSnapshot T (IndexSnapshot S)) (filters : List (Query S)) :
    planAnd (withAnswers snapshot) filters = planAnd snapshot filters := by
  unfold planAnd
  have hcollect := collectAnd_answers snapshot ⟨[], [], true⟩ filters
  rw [show (AndChildren.mk [] [] true : AndChildren S).answers = ⟨[], [], true⟩ from rfl] at hcollect
  rw [hcollect]
  cases collectAnd snapshot ⟨[], [], true⟩ filters with
  | error result => rfl
  | ok children =>
    simp only [Except.map, AndChildren.answers, insertionSort_answers, List.findIdx?_map]
    rw [show (fun path : EstimatedAccessPath S =>
        preferIndex path.estimate (withAnswers snapshot).activeDocuments.card) ∘
        EstimatedAccessPath.answers =
      fun path => preferIndex path.estimate snapshot.activeDocuments.card from rfl]
    generalize children.estimated.insertionSort (fun a b => pathLE a b) = estimated
    cases estimated.findIdx? fun path => preferIndex path.estimate snapshot.activeDocuments.card with
    | none => exact fromCompatibility_answers ..
    | some i =>
      simp only [Option.bind_some, List.getElem?_map, List.eraseIdx_map,
        fromCompatibility_answers]
      cases estimated[i]? with
      | none => rfl
      | some path =>
        simp only [Option.map_some, intersectChildren_answers]
        rfl

theorem plan_answers (mode : RangePlanningMode) (snapshot : SearchSnapshot T (IndexSnapshot S))
    (filter : Query S) : plan mode (withAnswers snapshot) filter = plan mode snapshot filter := by
  unfold plan
  rw [show (withAnswers snapshot).indexes = snapshot.indexes.map answers from rfl,
    estimatedPaths_answers, registryCandidates_answers]
  cases estimatedPaths snapshot.indexes filter with
  | nil =>
    simp only [List.map_nil]
    cases registryCandidates snapshot.indexes filter with
    | some legacy => rfl
    | none =>
      cases filter with
      | and queries => simp only [planAnd_answers]
      | or queries => simp only [planEach_answers]
      | not query => simp only [planCompatibility_answers]; rfl
      | _ => rfl
  | cons first rest =>
    simp only [List.map_cons, streamMin_answers]
    rfl

variable {snapshot snapshot' : SearchSnapshot T (IndexSnapshot S)}

theorem withAnswers_eq (hactive : snapshot.activeDocuments = snapshot'.activeDocuments)
    (hindexes : List.Forall₂ Alike snapshot.indexes snapshot'.indexes) :
    withAnswers snapshot = withAnswers snapshot' := by
  have hanswers : snapshot.indexes.map answers = snapshot'.indexes.map answers := by
    refine List.forall₂_eq_eq_eq ▸ ?_
    rw [List.forall₂_map_left_iff, List.forall₂_map_right_iff]
    refine hindexes.imp fun index index' halike => ?_
    unfold answers
    rw [funext fun query => (halike query).1, funext fun query => (halike query).2]
  unfold withAnswers
  rw [hactive, hanswers]

/-- Snapshots with the same active documents and indexes that answer alike plan alike. -/
theorem plan_eq_plan (hactive : snapshot.activeDocuments = snapshot'.activeDocuments)
    (hindexes : List.Forall₂ Alike snapshot.indexes snapshot'.indexes) (mode : RangePlanningMode)
    (query : Query S) : plan mode snapshot query = plan mode snapshot' query := by
  rw [← plan_answers, withAnswers_eq hactive hindexes, plan_answers]

/-- With the same documents, too, they return the same documents in the same order. -/
theorem search_eq_search (hget : snapshot.get = snapshot'.get)
    (hactive : snapshot.activeDocuments = snapshot'.activeDocuments)
    (hindexes : List.Forall₂ Alike snapshot.indexes snapshot'.indexes) (mode : RangePlanningMode)
    (query : Query S) : search mode snapshot query = search mode snapshot' query := by
  unfold search
  rw [plan_eq_plan hactive hindexes, hactive, hget]

end

end GeneralSearch.Planner
