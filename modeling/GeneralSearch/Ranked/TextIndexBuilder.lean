import GeneralSearch.Ranked.Input
import GeneralSearch.Ranked.TrieMembership
import GeneralSearch.Index.AvlDictionary
import Mathlib.Algebra.Order.BigOperators.Group.Finset
import Mathlib.Data.Finmap

/-! `TextIndexBuilder`: a document is analyzed into the positions of its terms, the posting lists that
it changes are buffered by term, and a build writes them through to the posting dictionary and to the
trie.  Whatever the builder went through, the snapshot is decided by the analyses of the documents. -/

namespace GeneralSearch.Ranked

open GeneralSearch.Index GeneralSearch.Lib GeneralSearch.Planner GeneralSearch.Storage

/-! ### Analyzed documents -/

/-- `IntPositions`. -/
abbrev IntPositions := { positions : List ℕ // positions.Pairwise (· < ·) }

namespace IntPositions

def empty : IntPositions := ⟨[], .nil⟩

theorem pairwise_concat {positions : List ℕ} {previous position : ℕ}
    (h : positions.Pairwise (· < ·)) (hlast : positions.getLast? = some previous)
    (hlt : previous < position) : (positions ++ [position]).Pairwise (· < ·) := by
  obtain ⟨front, rfl⟩ := List.getLast?_eq_some_iff.mp hlast
  obtain ⟨-, -, hfront⟩ := List.pairwise_append.mp h
  refine List.pairwise_append.mpr ⟨h, List.pairwise_singleton _ _, fun p hp q hq => ?_⟩
  rw [List.mem_singleton.mp hq]
  rcases List.mem_append.mp hp with hp | hp
  · exact (hfront p hp previous (List.mem_singleton_self _)).trans hlt
  · rwa [List.mem_singleton.mp hp]

/-- `IntPositions.Builder.add`: a position is added once. -/
def add (builder : IntPositions) (position : ℕ) : Except Failure IntPositions :=
  match h : builder.val.getLast? with
  | none => .ok ⟨[position], List.pairwise_singleton _ _⟩
  | some previous =>
    if hlt : position < previous then
      .error (.illegalArgument "positions must be added in ascending order")
    else if heq : position = previous then .ok builder
    else .ok ⟨builder.val ++ [position],
      pairwise_concat builder.property h (by omega)⟩

end IntPositions

/-- `TextIndexBuilder.AnalyzedDocument`. -/
structure AnalyzedDocument where
  positionsByTerm : JMap JString IntPositions
  tokenCount : ℕ

namespace AnalyzedDocument

def empty : AnalyzedDocument := ⟨∅, 0⟩

/-- `positionsByTerm().getOrDefault(term, IntPositions.empty())`. -/
def positions (document : AnalyzedDocument) (term : JString) : IntPositions :=
  (document.positionsByTerm.lookup term).getD .empty

/-- `equals`, which does not see the order of a map. -/
def equals (document other : AnalyzedDocument) : Bool :=
  decide (document.positionsByTerm.toFinmap = other.positionsByTerm.toFinmap) &&
    decide (document.tokenCount = other.tokenCount)

end AnalyzedDocument

variable {T : Type} {S : Schema T}

/-- The analyzers as an index calls them, with what they make of `null`. -/
structure ValueAnalyzers (S : Schema T) where
  fields : TextFields S
  analyzeNull : S.TextField → Except Failure (Option (List (Option AnalyzedToken)))

/-- `textField.analyzer().analyzeWithPositions(text)`. -/
def ValueAnalyzers.tokens (analyzers : ValueAnalyzers S) (field : S.TextField) :
    Option JString → Except Failure (Option (List (Option AnalyzedToken)))
  | none => analyzers.analyzeNull field
  | some text => analyzers.fields.analyzeWithPositions field text

/-- The positions of the terms, taken up in the order of the tokens. -/
def collect (positionsByTerm : JMap JString IntPositions) :
    List PositionedTerm → Except Failure (JMap JString IntPositions)
  | [] => .ok positionsByTerm
  | occurrence :: rest => do
    let positions ←
      ((positionsByTerm.lookup occurrence.term).getD .empty).add occurrence.logicalPosition
    collect (positionsByTerm.insert occurrence.term positions) rest

/-- `TextIndexBuilder.analyze`, whose loop checks and counts as that of ranked queries does. -/
def analyzeDocument (analyzers : ValueAnalyzers S) (field : S.TextField) (document : T) :
    Except Failure AnalyzedDocument := do
  match ← analyzers.tokens field (S.stringOf (S.source field) document) with
  | none => throw (invalidAnalysis analyzers.fields field "returned a null token list")
  | some tokens =>
    let occurrences ← positionedTerms analyzers.fields field 0 0 tokens
    let positionsByTerm ← collect ∅ occurrences
    return ⟨positionsByTerm, occurrences.length⟩

/-! ### Posting lists -/

namespace PostingList

/-- The positions decide the documents. -/
theorem ext_positions {posting other : PostingList}
    (h : ∀ d, posting.positions d = other.positions d) : posting = other := by
  have hpositions : posting.positions = other.positions := funext h
  have hdocuments : posting.documents = other.documents := by
    ext d
    rw [posting.mem_documents, other.mem_documents, h]
  cases posting
  cases other
  cases hpositions
  cases hdocuments
  rfl

theorem positions_of_notMem {posting : PostingList} {d : ℕ} (h : d ∉ posting.documents) :
    posting.positions d = [] :=
  Decidable.not_not.mp (mt (posting.mem_documents d).mpr h)

instance : DecidableEq PostingList := fun posting other =>
  decidable_of_iff
    (posting.documents = other.documents ∧
      ∀ d ∈ posting.documents, posting.positions d = other.positions d)
    ⟨fun ⟨hdocuments, hpositions⟩ => ext_positions fun d => by
      by_cases hd : d ∈ posting.documents
      · exact hpositions d hd
      · rw [positions_of_notMem hd, positions_of_notMem (hdocuments ▸ hd)],
    fun h => h ▸ ⟨rfl, fun _ _ => rfl⟩⟩

theorem documentFrequency_eq_zero {posting : PostingList} :
    posting.documentFrequency = 0 ↔ ∀ d, posting.positions d = [] := by
  rw [documentFrequency, Finset.card_eq_zero, Finset.eq_empty_iff_forall_notMem]
  exact forall_congr' fun d => by rw [posting.mem_documents, Decidable.not_not]

/-- `without` or `withPositions`, as the positions are empty or not. -/
def withChange (posting : PostingList) (docId : ℕ) (positions : IntPositions) : PostingList :=
  if h : positions.val = [] then posting.without docId
  else posting.withPositions docId positions.val h positions.property

@[simp] theorem positions_withChange (posting : PostingList) (docId : ℕ) (positions : IntPositions) :
    (posting.withChange docId positions).positions =
      Function.update posting.positions docId positions.val := by
  unfold withChange
  split
  · next h => rw [h]; rfl
  · rfl

end PostingList

/-! ### The builder -/

/-- `TextIndexSnapshot` with the whole of its dictionary. -/
structure TextIndexContents where
  postings : AvlNode JString PostingList
  fuzzyDictionary : PersistentCodePointTrie
  documentLengths : AvlNode ℕ ℕ
  totalDocumentLength : ℤ

namespace TextIndexContents

/-- `TextIndexSnapshot.empty`. -/
def empty : TextIndexContents := ⟨.leaf, .empty, .leaf, 0⟩

def posting (contents : TextIndexContents) (term : JString) : PostingList :=
  (contents.postings.get JString.compareTo term).getD .empty

/-- The snapshot as ranked search reads it. -/
def toSnapshot (contents : TextIndexContents) : TextIndexSnapshot where
  postings := contents.postings
  fuzzyDictionary := contents.fuzzyDictionary.root
  documentLengths := contents.documentLengths
  totalDocumentLength := contents.totalDocumentLength.toNat

/-- `TextIndexSnapshot.fromPostings`, with the checks of the constructor. -/
def fromPostings (contents : TextIndexContents) : Except Failure TextIndexContents :=
  if contents.fuzzyDictionary.size ≠ contents.postings.size then
    .error (.illegalArgument "fuzzy dictionary size must equal posting dictionary size")
  else if contents.totalDocumentLength < 0 then
    .error (.illegalArgument "totalDocumentLength must not be negative")
  else .ok contents

end TextIndexContents

/-- What a dictionary throws, as the builder passes it on. -/
def thrown : AvlError → Failure
  | .illegalArgument message => .illegalArgument message
  | .arithmetic => .arithmetic
  | .nullPointer => .nullPointer

/-- `Math.addExact` of `long`s. -/
def addExact (a b : ℤ) : Except Failure ℤ :=
  if -2 ^ 63 ≤ a + b ∧ a + b < 2 ^ 63 then .ok (a + b) else .error .arithmetic

/-- The weight of a posting list in its dictionary. -/
def postingWeight (posting : PostingList) : ℤ := posting.documentFrequency

/-- The weight of a document length in its dictionary. -/
def lengthWeight (length : ℕ) : ℤ := length

/-- The builder before `build`. -/
structure TextIndexBuilder where
  base : TextIndexContents
  dirty : List (JString × PostingList)
  documentLengths : AvlNode ℕ ℕ
  totalDocumentLength : ℤ

def TextIndexContents.toBuilder (contents : TextIndexContents) : TextIndexBuilder :=
  ⟨contents, [], contents.documentLengths, contents.totalDocumentLength⟩

namespace TextIndexBuilder

/-- `dirty.getOrDefault(term, base.posting(term))`. -/
def posting (b : TextIndexBuilder) (term : JString) : PostingList :=
  (find (· == ·) term b.dirty).getD (b.base.posting term)

/-- The terms of both documents, each once. -/
def changedTerms (oldDocument newDocument : AnalyzedDocument) : List JString :=
  (oldDocument.positionsByTerm.keys ++ newDocument.positionsByTerm.keys).dedup

/-- `updatedPostings`: the posting lists of the terms whose positions change. -/
def updatedPostings (b : TextIndexBuilder) (docId : ℕ) (oldDocument newDocument : AnalyzedDocument) :
    List (JString × PostingList) :=
  (changedTerms oldDocument newDocument).filterMap fun term =>
    if oldDocument.positions term = newDocument.positions term then none
    else some (term, (b.posting term).withChange docId (newDocument.positions term))

/-- `dirty.putAll(updatedPostings)`. -/
def putAll (dirty updated : List (JString × PostingList)) : List (JString × PostingList) :=
  updated.foldl (fun dirty entry => storeEntry (· == ·) entry.1 entry.2 dirty) dirty

/-- The change of the document lengths. -/
def lengthChange (docId tokenCount : ℕ) : AvlChange ℕ ℕ :=
  if tokenCount = 0 then .remove docId else .put docId tokenCount

/-- `TextIndexBuilder.apply`: nothing is kept before everything is computed. -/
def apply (b : TextIndexBuilder) (docId : ℕ) (oldDocument newDocument : AnalyzedDocument) :
    Except Failure TextIndexBuilder :=
  if oldDocument.equals newDocument then .ok b
  else do
    let updatedLengths ← ((lengthChange docId newDocument.tokenCount).apply compare lengthWeight
      b.documentLengths).mapError thrown
    let updatedTotalLength ← addExact b.totalDocumentLength
      (newDocument.tokenCount - oldDocument.tokenCount)
    return { b with
      documentLengths := updatedLengths
      totalDocumentLength := updatedTotalLength
      dirty := putAll b.dirty (b.updatedPostings docId oldDocument newDocument) }

section

variable (analyze : T → Except Failure AnalyzedDocument) (b : TextIndexBuilder) (docId : ℕ)

def add (document : T) : Except Failure TextIndexBuilder := do
  b.apply docId .empty (← analyze document)

def remove (document : T) : Except Failure TextIndexBuilder := do
  b.apply docId (← analyze document) .empty

def update (oldDocument newDocument : T) : Except Failure TextIndexBuilder := do
  b.apply docId (← analyze oldDocument) (← analyze newDocument)

end

/-- The terms that appear in the vocabulary or go from it. -/
def membershipChanges (b : TextIndexBuilder) (order : List (JString × PostingList)) :
    List (JString × Bool) :=
  order.filterMap fun entry =>
    let existed := decide (0 < (b.base.posting entry.1).documentFrequency)
    let present := decide (0 < entry.2.documentFrequency)
    if existed = present then none else some (entry.1, present)

/-- The contents that `build` puts together, with the buffer in the order of its iteration.  The two
returns of `base` give what the rest of the method gives. -/
def assemble (b : TextIndexBuilder) (order : List (JString × PostingList)) :
    Except Failure TextIndexContents := do
  let postings ← (order.foldlM (fun postings entry =>
    (AvlChange.ofEntry (fun posting => decide (posting.documentFrequency = 0)) entry).apply
      JString.compareTo postingWeight postings) b.base.postings).mapError thrown
  let fuzzyDictionary ← b.base.fuzzyDictionary.withMembershipChanges (b.membershipChanges order)
  return ⟨postings, fuzzyDictionary, b.documentLengths, b.totalDocumentLength⟩

/-- `build`. -/
def build (b : TextIndexBuilder) (order : List (JString × PostingList)) :
    Except Failure TextIndexContents := do
  (← b.assemble order).fromPostings

/-! ### What a builder has taken up -/

section

variable {docs : ℕ → AnalyzedDocument} {b b' : TextIndexBuilder} {d : ℕ}
  {oldDocument newDocument : AnalyzedDocument}

/-- Analyses that no map operation tells apart. -/
def Same (document other : AnalyzedDocument) : Prop :=
  (∀ term, document.positions term = other.positions term) ∧ document.tokenCount = other.tokenCount

theorem same_of_equals (h : oldDocument.equals newDocument = true) : Same oldDocument newDocument := by
  obtain ⟨hmaps, hcount⟩ := Bool.and_eq_true_iff.mp h
  refine ⟨fun term => ?_, of_decide_eq_true hcount⟩
  unfold AnalyzedDocument.positions
  rw [← Finmap.lookup_toFinmap, ← Finmap.lookup_toFinmap, of_decide_eq_true hmaps]

/-- The lengths of the documents that have tokens. -/
def lengthOf (docs : ℕ → AnalyzedDocument) (d : ℕ) : Option ℕ :=
  if (docs d).tokenCount = 0 then none else some (docs d).tokenCount

/-- The total of the token counts. -/
def Totals (docs : ℕ → AnalyzedDocument) (total : ℤ) : Prop :=
  ∃ counted : Finset ℕ, (∀ d ∉ counted, (docs d).tokenCount = 0) ∧
    total = ∑ d ∈ counted, ((docs d).tokenCount : ℤ)

/-- The total may be taken over any more documents. -/
theorem Totals.extend {total : ℤ} (h : Totals docs total) (d : ℕ) :
    ∃ counted : Finset ℕ, d ∈ counted ∧ (∀ e ∉ counted, (docs e).tokenCount = 0) ∧
      total = ∑ e ∈ counted, ((docs e).tokenCount : ℤ) := by
  obtain ⟨counted, hrest, rfl⟩ := h
  refine ⟨insert d counted, Finset.mem_insert_self d _, fun e he => ?_, ?_⟩
  · exact hrest e fun hmem => he (Finset.mem_insert_of_mem hmem)
  · by_cases hd : d ∈ counted
    · rw [Finset.insert_eq_of_mem hd]
    · rw [Finset.sum_insert hd, hrest d hd]
      simp

theorem Totals.update {total : ℤ} (h : Totals docs total) (newDocument : AnalyzedDocument) :
    Totals (Function.update docs d newDocument)
      (total + (newDocument.tokenCount - (docs d).tokenCount)) := by
  obtain ⟨counted, hd, hrest, rfl⟩ := h.extend d
  refine ⟨counted, fun e he => ?_, ?_⟩
  · have hne : e ≠ d := by
      rintro rfl
      exact he hd
    rw [Function.update_of_ne hne]
    exact hrest e he
  · rw [← Finset.add_sum_erase _ _ hd, ← Finset.add_sum_erase _ _ hd, Function.update_self]
    have hsum : ∑ e ∈ counted.erase d, ((Function.update docs d newDocument e).tokenCount : ℤ) =
        ∑ e ∈ counted.erase d, ((docs e).tokenCount : ℤ) := by
      refine Finset.sum_congr rfl fun e he => ?_
      rw [Function.update_of_ne (Finset.ne_of_mem_erase he)]
    rw [hsum]
    omega

/-- The counts decide the total. -/
theorem Totals.unique {total total' : ℤ} (h : Totals docs total) (h' : Totals docs total') :
    total = total' := by
  obtain ⟨counted, hrest, rfl⟩ := h
  obtain ⟨counted', hrest', rfl⟩ := h'
  have hunion : ∀ {a b : Finset ℕ}, (∀ e ∉ a, (docs e).tokenCount = 0) →
      ∑ e ∈ a, ((docs e).tokenCount : ℤ) = ∑ e ∈ a ∪ b, ((docs e).tokenCount : ℤ) := by
    intro a b ha
    refine Finset.sum_subset Finset.subset_union_left fun e _ he => ?_
    rw [ha e he]
    rfl
  rw [hunion (b := counted') hrest, Finset.union_comm, ← hunion hrest']

theorem Totals.nonneg {total : ℤ} (h : Totals docs total) : 0 ≤ total := by
  obtain ⟨counted, -, rfl⟩ := h
  exact Finset.sum_nonneg fun e _ => Int.natCast_nonneg _

/-- The contents show the analyses of the documents. -/
structure Shows (contents : TextIndexContents) (docs : ℕ → AnalyzedDocument) : Prop where
  postings : ∃ map, AvlChange.Holds JString.compareTo postingWeight map contents.postings ∧
    (∀ term posting, map term = some posting → posting.documentFrequency ≠ 0) ∧
    ∀ term d, ((map term).getD .empty).positions d = ((docs d).positions term).val
  fuzzyDictionary : ∃ vocabulary, contents.fuzzyDictionary.Represents vocabulary ∧
    ∀ term, term ∈ vocabulary ↔ ∃ d, ((docs d).positions term).val ≠ []
  lengths : AvlChange.Holds compare lengthWeight (lengthOf docs) contents.documentLengths
  total : Totals docs contents.totalDocumentLength

/-- The builder has taken up the analyses of the documents. -/
structure Tracks (b : TextIndexBuilder) (docs : ℕ → AnalyzedDocument) : Prop where
  base : ∃ before, Shows b.base before
  distinct : Distinct (· == ·) b.dirty
  posting : ∀ term d, (b.posting term).positions d = ((docs d).positions term).val
  lengths : AvlChange.Holds compare lengthWeight (lengthOf docs) b.documentLengths
  total : Totals docs b.totalDocumentLength

/-- The posting lists of a snapshot. -/
theorem Shows.positions {contents : TextIndexContents} (h : Shows contents docs) (term : JString)
    (d : ℕ) : (contents.posting term).positions d = ((docs d).positions term).val := by
  obtain ⟨map, hholds, -, hmap⟩ := h.postings
  rw [TextIndexContents.posting, hholds.get_eq]
  exact hmap term d

theorem Shows.toBuilder {contents : TextIndexContents} (h : Shows contents docs) :
    Tracks contents.toBuilder docs :=
  ⟨⟨docs, h⟩, .nil, h.positions, h.lengths, h.total⟩

theorem shows_empty : Shows .empty fun _ => .empty where
  postings := ⟨fun _ => none, ⟨trivial, .nil, fun _ => .none⟩, by simp, fun _ _ => rfl⟩
  fuzzyDictionary := ⟨∅, PersistentCodePointTrie.represents_empty, by
    intro term
    refine iff_of_false (Finset.notMem_empty _) ?_
    rintro ⟨d, hd⟩
    exact hd rfl⟩
  lengths := ⟨trivial, .nil, fun _ => .none⟩
  total := ⟨∅, fun _ _ => rfl, rfl⟩

theorem beq_equivalence : Equivalence fun a b : JString => (a == b) = true :=
  ⟨fun _ => beq_self_eq_true _, fun h => beq_iff_eq.mpr (beq_iff_eq.mp h).symm,
    fun h h' => beq_iff_eq.mpr ((beq_iff_eq.mp h).trans (beq_iff_eq.mp h'))⟩

/-- Of entries with different keys each is found after they were put. -/
theorem find_putAll {dirty updated : List (JString × PostingList)}
    (h : Distinct (· == ·) updated) (term : JString) :
    find (· == ·) term (putAll dirty updated) =
      (find (· == ·) term updated).or (find (· == ·) term dirty) := by
  induction updated generalizing dirty with
  | nil => rfl
  | cons entry updated ih =>
    obtain ⟨hhead, htail⟩ := List.pairwise_cons.mp h
    rw [putAll, List.foldl_cons, ← putAll, ih htail, find_storeEntry beq_equivalence, find]
    by_cases hterm : (term == entry.1) = true
    · rw [if_pos hterm, if_pos hterm, find_eq_none beq_equivalence hhead hterm]
      rfl
    · rw [if_neg hterm, if_neg hterm]

theorem distinct_putAll {dirty updated : List (JString × PostingList)}
    (h : Distinct (· == ·) dirty) : Distinct (· == ·) (putAll dirty updated) := by
  induction updated generalizing dirty with
  | nil => exact h
  | cons entry updated ih => exact ih (h.storeEntry beq_equivalence)

/-- Entries that are made of different keys. -/
theorem find_filterMap {V : Type} {terms : List JString} (h : terms.Nodup) (keep : JString → Bool)
    (value : JString → V) (term : JString) :
    find (· == ·) term (terms.filterMap fun t => if keep t then some (t, value t) else none) =
      if term ∈ terms ∧ keep term = true then some (value term) else none := by
  induction terms with
  | nil => simp [find]
  | cons head tail ih =>
    obtain ⟨hhead, htail⟩ := List.nodup_cons.mp h
    rw [List.filterMap_cons]
    by_cases hkeep : keep head = true
    · rw [if_pos hkeep]
      simp only [find]
      by_cases hterm : term = head
      · subst hterm
        simp [hkeep]
      · rw [if_neg (by simpa using hterm), ih htail]
        simp [hterm]
    · rw [if_neg hkeep]
      simp only
      rw [ih htail]
      by_cases hterm : term = head
      · subst hterm
        simp [hkeep, hhead]
      · simp [hterm]

theorem distinct_filterMap {V : Type} {terms : List JString} (h : terms.Nodup)
    {keep : JString → Bool} {value : JString → V} :
    Distinct (· == ·) (terms.filterMap fun t => if keep t then some (t, value t) else none) := by
  unfold Distinct
  rw [List.pairwise_filterMap]
  refine h.imp ?_
  intro a b hne x hx y hy
  split at hx
  · split at hy
    · cases hx
      cases hy
      simpa using hne
    · cases hy
  · cases hx

theorem positions_of_notMem_keys {document : AnalyzedDocument} {term : JString}
    (h : term ∉ document.positionsByTerm.keys) : document.positions term = .empty := by
  rw [AnalyzedDocument.positions, AList.lookup_eq_none.mpr (mt AList.mem_keys.mp h)]
  rfl

/-- Whether a change of a document changes the positions of a term. -/
def moves (oldDocument newDocument : AnalyzedDocument) (term : JString) : Bool :=
  !decide (oldDocument.positions term = newDocument.positions term)

theorem updatedPostings_eq :
    b.updatedPostings d oldDocument newDocument =
      (changedTerms oldDocument newDocument).filterMap fun term =>
        if moves oldDocument newDocument term then
          some (term, (b.posting term).withChange d (newDocument.positions term)) else none := by
  refine List.filterMap_congr fun term _ => ?_
  unfold moves
  by_cases hsame : oldDocument.positions term = newDocument.positions term <;> simp [hsame]

theorem distinct_updatedPostings :
    Distinct (· == ·) (b.updatedPostings d oldDocument newDocument) := by
  rw [updatedPostings_eq]
  exact distinct_filterMap (List.nodup_dedup _)

/-- The update of the posting lists, as one lookup sees it. -/
theorem find_updatedPostings (term : JString) :
    find (· == ·) term (b.updatedPostings d oldDocument newDocument) =
      if moves oldDocument newDocument term then
        some ((b.posting term).withChange d (newDocument.positions term)) else none := by
  rw [updatedPostings_eq, changedTerms,
    find_filterMap (List.nodup_dedup _) (moves oldDocument newDocument) (fun term =>
      (b.posting term).withChange d (newDocument.positions term)) term]
  refine if_congr (and_iff_right_of_imp fun hmoves => ?_) rfl rfl
  -- a term of neither document has no positions to change
  refine List.mem_dedup.mpr (List.mem_append.mpr (Decidable.byContradiction fun hnot => ?_))
  obtain ⟨hold, hnew⟩ := not_or.mp hnot
  rw [moves, positions_of_notMem_keys hold, positions_of_notMem_keys hnew] at hmoves
  simp at hmoves

/-- The dictionary of the lengths after a change of one document. -/
theorem lengthOf_update (newDocument : AnalyzedDocument) :
    lengthOf (Function.update docs d newDocument) =
      (lengthChange d newDocument.tokenCount).denote compare (lengthOf docs) := by
  funext e
  unfold lengthOf lengthChange
  by_cases he : e = d
  · subst he
    rw [Function.update_self]
    split <;> simp [AvlChange.denote]
  · rw [Function.update_of_ne he]
    have hne : compare e d ≠ .eq := mt Nat.compare_eq_eq.mp he
    split <;> split <;> simp_all [AvlChange.denote]

theorem Tracks.apply (h : Tracks b docs) (hold : Same (docs d) oldDocument)
    (happly : b.apply d oldDocument newDocument = .ok b') :
    Tracks b' (Function.update docs d newDocument) := by
  unfold TextIndexBuilder.apply at happly
  split at happly
  · next hequal =>
    cases happly
    obtain ⟨hpositions, hcount⟩ := same_of_equals hequal
    have hsame : ∀ e, Same (Function.update docs d newDocument e) (docs e) := by
      intro e
      by_cases he : e = d
      · subst he
        rw [Function.update_self]
        exact ⟨fun term => ((hold.1 term).trans (hpositions term)).symm,
          (hold.2.trans hcount).symm⟩
      · rw [Function.update_of_ne he]
        exact ⟨fun _ => rfl, rfl⟩
    have hlength : lengthOf (Function.update docs d newDocument) = lengthOf docs := by
      funext e
      unfold lengthOf
      rw [(hsame e).2]
    refine ⟨h.base, h.distinct, fun term e => ?_, hlength ▸ h.lengths, ?_⟩
    · rw [h.posting, (hsame e).1]
    · obtain ⟨counted, hrest, htotal⟩ := h.total
      refine ⟨counted, fun e he => by rw [(hsame e).2, hrest e he], ?_⟩
      rw [htotal]
      exact Finset.sum_congr rfl fun e _ => by rw [(hsame e).2]
  · obtain ⟨updatedLengths, hlengths, hrest⟩ := bind_eq_ok.mp happly
    obtain ⟨updatedTotalLength, htotal, hresult⟩ := bind_eq_ok.mp hrest
    cases hresult
    refine ⟨h.base, distinct_putAll h.distinct, fun term e => ?_, ?_, ?_⟩
    · unfold TextIndexBuilder.posting
      simp only
      rw [find_putAll distinct_updatedPostings, find_updatedPostings]
      have hread := h.posting term e
      unfold TextIndexBuilder.posting at hread
      by_cases hterm : moves oldDocument newDocument term = true
      · rw [if_pos hterm, Option.some_or, Option.getD_some, PostingList.positions_withChange]
        by_cases he : e = d
        · subst he
          rw [Function.update_self, Function.update_self]
        · rw [Function.update_of_ne he, Function.update_of_ne he]
          exact h.posting term e
      · have hsame : oldDocument.positions term = newDocument.positions term := by
          simpa [moves] using hterm
        rw [if_neg hterm, Option.none_or, hread]
        by_cases he : e = d
        · subst he
          rw [Function.update_self, hold.1, hsame]
        · rw [Function.update_of_ne he]
    · rw [lengthOf_update]
      exact h.lengths.apply (mapError_eq_ok.mp hlengths)
    · unfold addExact at htotal
      split at htotal
      · cases htotal
        rw [← hold.2]
        exact h.total.update newDocument
      · cases htotal

/-! ### Builds -/

/-- Changes of different terms, one after the other. -/
theorem mem_foldl_changed {changes : List (JString × Bool)} (h : Distinct (· == ·) changes)
    {vocabulary : Finset JString} (term : JString) :
    term ∈ changes.foldl PersistentCodePointTrie.changed vocabulary ↔
      (find (· == ·) term changes).getD (decide (term ∈ vocabulary)) = true := by
  induction changes generalizing vocabulary with
  | nil => simp [find]
  | cons entry changes ih =>
    obtain ⟨hhead, htail⟩ := List.pairwise_cons.mp h
    rw [List.foldl_cons, ih htail, find]
    by_cases hterm : (term == entry.1) = true
    · rw [if_pos hterm, find_eq_none beq_equivalence hhead hterm]
      obtain rfl := beq_iff_eq.mp hterm
      cases hpresent : entry.2 <;> simp [PersistentCodePointTrie.changed, hpresent]
    · have hne : term ≠ entry.1 := by simpa using hterm
      rw [if_neg hterm]
      cases hpresent : entry.2 <;> simp [PersistentCodePointTrie.changed, hpresent, hne]

theorem distinct_membershipChanges {order : List (JString × PostingList)}
    (h : Distinct (· == ·) order) : Distinct (· == ·) (b.membershipChanges order) := by
  unfold membershipChanges Distinct
  rw [List.pairwise_filterMap]
  refine h.imp ?_
  intro e e' hne x hx y hy
  simp only at hx hy
  split at hx
  · cases hx
  · split at hy
    · cases hy
    · cases hx
      cases hy
      exact hne

/-- A term whose membership changes is found with its new membership. -/
theorem find_membershipChanges {order : List (JString × PostingList)} (h : Distinct (· == ·) order)
    (term : JString) :
    (find (· == ·) term (b.membershipChanges order)).getD
        (decide (0 < (b.base.posting term).documentFrequency)) =
      decide (0 < ((find (· == ·) term order).getD (b.base.posting term)).documentFrequency) := by
  induction order with
  | nil => rfl
  | cons entry order ih =>
    obtain ⟨hhead, htail⟩ := List.pairwise_cons.mp h
    have hrest := ih htail
    rw [membershipChanges, List.filterMap_cons, ← membershipChanges]
    by_cases hterm : (term == entry.1) = true
    · have hnone := find_eq_none beq_equivalence hhead hterm
      rw [hnone, Option.getD_none] at hrest
      rw [find, if_pos hterm, Option.getD_some]
      obtain rfl := beq_iff_eq.mp hterm
      by_cases hsame : decide (0 < (b.base.posting entry.1).documentFrequency) =
          decide (0 < entry.2.documentFrequency)
      · simp only [hsame, if_true]
        rw [← hsame]
        exact hrest
      · simp only [hsame, if_false]
        rw [find, if_pos hterm, Option.getD_some]
    · rw [find, if_neg hterm, ← hrest]
      by_cases hsame : decide (0 < (b.base.posting entry.1).documentFrequency) =
          decide (0 < entry.2.documentFrequency)
      · simp only [hsame, if_true]
      · simp only [hsame, if_false]
        rw [find, if_neg hterm]

theorem nodup_keys_of_distinct {V : Type} {entries : List (JString × V)}
    (h : Distinct (· == ·) entries) : (entries.map Prod.fst).Nodup :=
  List.pairwise_map.mpr (h.imp fun hne heq => by simp [heq] at hne)

/-- A term has documents when some document has positions for it. -/
theorem documentFrequency_pos {posting : PostingList} :
    0 < posting.documentFrequency ↔ ∃ d, posting.positions d ≠ [] := by
  rw [Nat.pos_iff_ne_zero, Ne, PostingList.documentFrequency_eq_zero, not_forall]

/-- The vocabulary of contents is that of their postings. -/
theorem Shows.mem_vocabulary {contents : TextIndexContents} (h : Shows contents docs)
    {vocabulary : Finset JString}
    (hvocabulary : ∀ term, term ∈ vocabulary ↔ ∃ d, ((docs d).positions term).val ≠ [])
    (term : JString) : term ∈ vocabulary ↔ 0 < (contents.posting term).documentFrequency := by
  rw [hvocabulary, documentFrequency_pos]
  exact exists_congr fun d => by rw [h.positions]

theorem Tracks.assemble {order : List (JString × PostingList)} {contents : TextIndexContents}
    (h : Tracks b docs) (horder : order.Perm b.dirty)
    (hassemble : b.assemble order = .ok contents) : Shows contents docs := by
  obtain ⟨before, hbase⟩ := h.base
  have hdistinct : Distinct (· == ·) order :=
    (horder.pairwise_iff fun hne => (same_comm beq_equivalence).trans hne).mpr h.distinct
  have hfind : ∀ term, find (· == ·) term order = find (· == ·) term b.dirty :=
    fun term => h.distinct.find_perm beq_equivalence horder
  obtain ⟨postings, hpostings, hrest⟩ := bind_eq_ok.mp hassemble
  obtain ⟨fuzzyDictionary, hfuzzy, hresult⟩ := bind_eq_ok.mp hrest
  rw [mapError_eq_ok] at hpostings
  cases hresult
  refine ⟨?_, ?_, h.lengths, h.total⟩
  · obtain ⟨map, hholds, hnonempty, hmap⟩ := hbase.postings
    refine ⟨_, hholds.foldlM_ofEntry (fun a c => ?_) beq_equivalence hdistinct hpostings,
      fun term posting hterm => ?_, fun term d => ?_⟩
    · rw [beq_iff_eq]
      exact Std.compare_eq_iff_eq.symm
    · unfold AvlChange.buffered at hterm
      split at hterm
      · exact hnonempty term posting hterm
      · split at hterm
        · cases hterm
        · next hkept =>
          cases hterm
          simpa using hkept
    · rw [← h.posting, TextIndexBuilder.posting, hfind]
      unfold AvlChange.buffered
      cases find (· == ·) term b.dirty with
      | none =>
        rw [Option.getD_none, TextIndexContents.posting, hholds.get_eq]
      | some posting =>
        simp only [Option.getD_some]
        by_cases hempty : posting.documentFrequency = 0
        · simp only [hempty, decide_true, if_true, Option.getD_none]
          exact (PostingList.documentFrequency_eq_zero.mp hempty d).symm
        · simp [hempty]
  · obtain ⟨vocabulary, hrepresents, hvocabulary⟩ := hbase.fuzzyDictionary
    have hchanges := distinct_membershipChanges (b := b) hdistinct
    have hagree := PersistentCodePointTrie.agree_withMembershipChanges hrepresents
      (nodup_keys_of_distinct hchanges)
    refine ⟨(b.membershipChanges order).foldl PersistentCodePointTrie.changed vocabulary, ?_,
      fun term => ?_⟩
    · rw [hfuzzy] at hagree
      cases hsingle : (b.membershipChanges order).foldlM PersistentCodePointTrie.withChange
          b.base.fuzzyDictionary with
      | error e =>
        rw [hsingle] at hagree
        cases hagree
      | ok single =>
        rw [hsingle] at hagree
        exact hagree.1
    · rw [mem_foldl_changed hchanges, decide_eq_decide.mpr (hbase.mem_vocabulary hvocabulary term),
        find_membershipChanges hdistinct, hfind, decide_eq_true_iff]
      refine documentFrequency_pos.trans (exists_congr fun d => ?_)
      rw [← h.posting]
      rfl

/-- The terms with postings are the vocabulary. -/
theorem Shows.mem_keys {contents : TextIndexContents} (h : Shows contents docs) (term : JString) :
    term ∈ contents.postings.entries.map Prod.fst ↔
      0 < (contents.posting term).documentFrequency := by
  obtain ⟨map, hholds, hnonempty, hmap⟩ := h.postings
  have hget : contents.posting term = (map term).getD .empty := by
    rw [TextIndexContents.posting, hholds.get_eq]
  rw [hget, List.mem_map]
  constructor
  · rintro ⟨⟨key, posting⟩, hmem, rfl⟩
    have hfound := (AvlNode.get_eq_some_iff hholds.ordered).mpr
      ⟨key, hmem, Std.ReflCmp.compare_self⟩
    rw [hholds.get_eq] at hfound
    rw [hfound]
    exact Nat.pos_of_ne_zero (hnonempty key posting hfound)
  · intro hpos
    cases hterm : map term with
    | none =>
      rw [hterm] at hpos
      exact absurd hpos (Nat.lt_irrefl 0)
    | some posting =>
      obtain ⟨key, hmem, heq⟩ := (AvlNode.get_eq_some_iff hholds.ordered).mp
        ((hholds.get_eq term).trans hterm)
      exact ⟨(key, posting), hmem, (Std.LawfulEqCmp.eq_of_compare heq).symm⟩

theorem Shows.keys_nodup {contents : TextIndexContents} (h : Shows contents docs) :
    (contents.postings.entries.map Prod.fst).Nodup := by
  obtain ⟨map, hholds, -, -⟩ := h.postings
  refine List.pairwise_map.mpr (hholds.ordered.imp ?_)
  intro a c hlt heq
  have hself : JString.compareTo c.1 c.1 = .eq := Std.ReflCmp.compare_self
  rw [heq, hself] at hlt
  cases hlt

/-- The checks of the constructor accept what shows documents. -/
theorem Shows.accepted {contents : TextIndexContents} (h : Shows contents docs) :
    contents.fromPostings = .ok contents := by
  obtain ⟨map, hholds, -, -⟩ := h.postings
  obtain ⟨vocabulary, hrepresents, hvocabulary⟩ := h.fuzzyDictionary
  have hkeys : (contents.postings.entries.map Prod.fst).toFinset = vocabulary := by
    ext term
    rw [List.mem_toFinset, h.mem_keys, h.mem_vocabulary hvocabulary]
  have hsize : contents.fuzzyDictionary.size = contents.postings.size := by
    rw [hrepresents.size, hholds.sound.size_eq, ← hkeys, List.toFinset_card_of_nodup h.keys_nodup,
      List.length_map]
  unfold TextIndexContents.fromPostings
  rw [if_neg (by simpa using hsize), if_neg (Int.not_lt.mpr h.total.nonneg)]

/-- The checks of the constructor refuse no build. -/
theorem Tracks.build_eq_assemble {order : List (JString × PostingList)} (h : Tracks b docs)
    (horder : order.Perm b.dirty) : b.build order = b.assemble order := by
  unfold TextIndexBuilder.build
  cases hassemble : b.assemble order with
  | error e => rfl
  | ok contents => exact (h.assemble horder hassemble).accepted

theorem Tracks.build {order : List (JString × PostingList)} {contents : TextIndexContents}
    (h : Tracks b docs) (horder : order.Perm b.dirty) (hbuild : b.build order = .ok contents) :
    Shows contents docs :=
  h.assemble horder ((h.build_eq_assemble horder).symm.trans hbuild)

end

end TextIndexBuilder

end GeneralSearch.Ranked
