import GeneralSearch.Ranked.TextIndexBuilder

/-! `PostingList` with the dictionary that it keeps its positions in.  The other modules read a
posting list as a function from documents to positions; here each operation on the dictionary is the
operation on that function. -/

namespace GeneralSearch.Ranked

open GeneralSearch.Index GeneralSearch.Lib

/-- `IntPositions.copyOf`. -/
def IntPositions.copyOf (positions : List ℕ) : Except Failure IntPositions :=
  if h : positions.Pairwise (· < ·) then .ok ⟨positions, h⟩
  else .error (.illegalArgument "positions must be strictly increasing")

/-- `IntPositions.sequential`. -/
def IntPositions.sequential (size : ℕ) : IntPositions := ⟨List.range size, List.pairwise_lt_range⟩

/-- `PostingList`, as its fields are. -/
structure StoredPostingList where
  documents : Finset ℕ
  positionsByDocument : AvlNode ℕ IntPositions

namespace StoredPostingList

/-- The weights of `PersistentAvlMap.empty`. -/
def noWeight (_ : IntPositions) : ℤ := 0

def empty : StoredPostingList := ⟨∅, .leaf⟩

def positions (stored : StoredPostingList) (docId : ℕ) : IntPositions :=
  (stored.positionsByDocument.get compare docId).getD .empty

def termFrequency (stored : StoredPostingList) (docId : ℕ) : ℕ :=
  (stored.positions docId).val.length

/-- `positionsByDocument.with` and `positionsByDocument.without`. -/
def change (stored : StoredPostingList) (change : AvlChange ℕ IntPositions) :
    Except Failure (AvlNode ℕ IntPositions) :=
  (change.apply compare noWeight stored.positionsByDocument).mapError thrown

/-- `withPositions`. -/
def withPositions (stored : StoredPostingList) (docId : ℕ) (positions : IntPositions) :
    Except Failure StoredPostingList :=
  if positions.val = [] then .error (.illegalArgument "positions must not be empty")
  else if positions = stored.positions docId then .ok stored
  else do
    let positionsByDocument ← stored.change (.put docId positions)
    return ⟨insert docId stored.documents, positionsByDocument⟩

/-- `withTermFrequency`. -/
def withTermFrequency (stored : StoredPostingList) (docId frequency : ℕ) :
    Except Failure StoredPostingList :=
  if frequency = 0 then .error (.illegalArgument "frequency must be positive")
  else if stored.termFrequency docId = frequency then .ok stored
  else stored.withPositions docId (.sequential frequency)

/-- `without`. -/
def without (stored : StoredPostingList) (docId : ℕ) : Except Failure StoredPostingList :=
  if docId ∉ stored.documents then .ok stored
  else do
    let positionsByDocument ← stored.change (.remove docId)
    return ⟨stored.documents.erase docId, positionsByDocument⟩

/-- One turn of the loop of `fromPositions`. -/
def putEntry (stored : StoredPostingList) (entry : ℕ × List ℕ) :
    Except Failure StoredPostingList := do
  let value ← IntPositions.copyOf entry.2
  if value.val = [] then throw (.illegalArgument "persisted positions must not be empty")
  let positionsByDocument ← stored.change (.put entry.1 value)
  return ⟨insert entry.1 stored.documents, positionsByDocument⟩

/-- `fromPositions`, with the entries in the order of a `TreeMap`. -/
def fromPositions (entries : List (ℕ × List ℕ)) : Except Failure StoredPostingList :=
  entries.foldlM putEntry empty

/-- `without` or `withPositions`, as the positions are empty or not. -/
def withChange (stored : StoredPostingList) (entry : ℕ × IntPositions) :
    Except Failure StoredPostingList :=
  if entry.2.val = [] then stored.without entry.1 else stored.withPositions entry.1 entry.2

end StoredPostingList

namespace PostingList

/-- The positions that the dictionary has: no entry stands for no positions. -/
def entry (posting : PostingList) (docId : ℕ) : Option IntPositions :=
  if posting.positions docId = [] then none
  else some ⟨posting.positions docId, posting.increasing docId⟩

theorem entry_withPositions {posting : PostingList} {docId : ℕ} {positions : IntPositions}
    (hne : positions.val ≠ []) :
    (posting.withPositions docId positions.val hne positions.property).entry =
      (AvlChange.put docId positions).denote compare posting.entry := by
  funext d
  by_cases hd : d = docId
  · subst hd
    simp [entry, withPositions, AvlChange.denote, hne]
  · simp [entry, withPositions, AvlChange.denote, hd]

theorem entry_without {posting : PostingList} {docId : ℕ} :
    (posting.without docId).entry =
      (AvlChange.remove docId).denote compare posting.entry := by
  funext d
  by_cases hd : d = docId
  · subst hd
    simp [entry, without, AvlChange.denote]
  · simp [entry, without, AvlChange.denote, hd]

end PostingList

namespace StoredPostingList

/-- The bitmap and the dictionary are those of the posting list. -/
structure Holds (stored : StoredPostingList) (posting : PostingList) : Prop where
  documents : stored.documents = posting.documents
  entries : AvlChange.Holds compare noWeight posting.entry stored.positionsByDocument

variable {stored stored' : StoredPostingList} {posting : PostingList} {docId : ℕ}

theorem holds_empty : empty.Holds .empty where
  documents := rfl
  entries := ⟨trivial, .nil, fun _ => .none⟩

theorem Holds.positions_eq (h : stored.Holds posting) (docId : ℕ) :
    (stored.positions docId).val = posting.positions docId := by
  rw [positions, h.entries.get_eq, PostingList.entry]
  split
  · next hnil => exact hnil.symm
  · rfl

theorem Holds.put (h : stored.Holds posting) {positions : IntPositions}
    (hne : positions.val ≠ []) {tree : AvlNode ℕ IntPositions}
    (hput : stored.change (.put docId positions) = .ok tree) :
    Holds ⟨insert docId stored.documents, tree⟩
      (posting.withPositions docId positions.val hne positions.property) where
  documents := by rw [h.documents, PostingList.withPositions]
  entries := by
    rw [PostingList.entry_withPositions]
    exact h.entries.apply (mapError_eq_ok.mp hput)

theorem Holds.withPositions (h : stored.Holds posting) {positions : IntPositions}
    (hne : positions.val ≠ []) (hresult : stored.withPositions docId positions = .ok stored') :
    stored'.Holds (posting.withPositions docId positions.val hne positions.property) := by
  unfold StoredPostingList.withPositions at hresult
  rw [if_neg hne] at hresult
  split at hresult
  · -- The list is returned as it is, and so is the function.
    next hsame =>
    cases hresult
    have hposting : posting.withPositions docId positions.val hne positions.property = posting :=
      PostingList.ext_positions fun d => by
        by_cases hd : d = docId
        · subst hd
          rw [← h.positions_eq, ← hsame]
          exact Function.update_self ..
        · exact Function.update_of_ne hd ..
    rwa [hposting]
  · obtain ⟨tree, htree, hresult⟩ := bind_eq_ok.mp hresult
    cases hresult
    exact h.put hne htree

theorem Holds.without (h : stored.Holds posting) (hresult : stored.without docId = .ok stored') :
    stored'.Holds (posting.without docId) := by
  unfold StoredPostingList.without at hresult
  split at hresult
  · next habsent =>
    cases hresult
    rw [h.documents] at habsent
    have hposting : posting.without docId = posting := PostingList.ext_positions fun d => by
      by_cases hd : d = docId
      · subst hd
        rw [PostingList.positions_of_notMem habsent]
        exact Function.update_self ..
      · exact Function.update_of_ne hd ..
    rwa [hposting]
  · obtain ⟨tree, htree, hresult⟩ := bind_eq_ok.mp hresult
    cases hresult
    refine ⟨by rw [h.documents, PostingList.without], ?_⟩
    rw [PostingList.entry_without]
    exact h.entries.apply (mapError_eq_ok.mp htree)

theorem Holds.withChange (h : stored.Holds posting) {entry : ℕ × IntPositions}
    (hresult : stored.withChange entry = .ok stored') :
    stored'.Holds (posting.withChange entry.1 entry.2) := by
  unfold StoredPostingList.withChange at hresult
  unfold PostingList.withChange
  split at hresult
  · next hnil =>
    rw [dif_pos hnil]
    exact h.without hresult
  · next hne =>
    rw [dif_neg hne]
    exact h.withPositions hne hresult

/-- A frequency is set, and the positions in other documents stay. -/
theorem Holds.withTermFrequency (h : stored.Holds posting) {frequency : ℕ}
    (hresult : stored.withTermFrequency docId frequency = .ok stored') :
    ∃ posting', stored'.Holds posting' ∧ posting'.termFrequency docId = frequency ∧
      ∀ d ≠ docId, posting'.positions d = posting.positions d := by
  unfold StoredPostingList.withTermFrequency at hresult
  split at hresult
  · cases hresult
  · next hpositive =>
    split at hresult
    · next hsame =>
      cases hresult
      refine ⟨posting, h, ?_, fun _ _ => rfl⟩
      rw [PostingList.termFrequency, ← h.positions_eq]
      exact hsame
    · have hne : (IntPositions.sequential frequency).val ≠ [] := by
        simpa [IntPositions.sequential] using hpositive
      refine ⟨_, h.withPositions hne hresult, ?_, fun d hd => Function.update_of_ne hd ..⟩
      have hpositions : (posting.withPositions docId _ hne
          (IntPositions.sequential frequency).property).positions docId =
          List.range frequency := Function.update_self ..
      rw [PostingList.termFrequency, hpositions, List.length_range]

theorem Holds.putEntry (h : stored.Holds posting) {entry : ℕ × List ℕ}
    (hresult : stored.putEntry entry = .ok stored') :
    ∃ positions : IntPositions, positions.val = entry.2 ∧ positions.val ≠ [] ∧
      stored'.Holds (posting.withChange entry.1 positions) := by
  obtain ⟨positions, hcopy, hresult⟩ := bind_eq_ok.mp hresult
  unfold IntPositions.copyOf at hcopy
  split at hcopy
  · next hincreasing =>
    cases hcopy
    dsimp only at hresult
    split at hresult
    · cases hresult
    · next hne =>
      obtain ⟨tree, htree, hresult⟩ := bind_eq_ok.mp hresult
      cases hresult
      refine ⟨⟨entry.2, hincreasing⟩, rfl, hne, ?_⟩
      rw [PostingList.withChange, dif_neg hne]
      exact h.put hne htree
  · cases hcopy

/-- After every sequence of changes the dictionary holds what the changes make of the function, so
both give the same positions, frequencies and documents. -/
theorem holds_of_foldlM {changes : List (ℕ × IntPositions)}
    (h : changes.foldlM withChange empty = .ok stored) :
    stored.Holds (changes.foldl (fun posting entry => posting.withChange entry.1 entry.2)
      .empty) := by
  refine foldlM_ok_induction (P := fun seen stored => stored.Holds
    (seen.foldl (fun posting entry => posting.withChange entry.1 entry.2) .empty)) h holds_empty ?_
  intro seen entry stored stored' hseen hchange
  rw [List.foldl_concat]
  exact hseen.withChange hchange

/-- What `fromPositions` accepts has positions in every entry, and it holds them. -/
theorem holds_fromPositions {entries : List (ℕ × List ℕ)}
    (h : fromPositions entries = .ok stored) :
    ∃ changes : List (ℕ × IntPositions),
      changes.map (fun entry => (entry.1, entry.2.val)) = entries ∧
      (∀ entry ∈ changes, entry.2.val ≠ []) ∧
      stored.Holds (changes.foldl (fun posting entry => posting.withChange entry.1 entry.2)
        .empty) := by
  refine foldlM_ok_induction (P := fun seen stored => ∃ changes : List (ℕ × IntPositions),
    changes.map (fun entry => (entry.1, entry.2.val)) = seen ∧
    (∀ entry ∈ changes, entry.2.val ≠ []) ∧
    stored.Holds (changes.foldl (fun posting entry => posting.withChange entry.1 entry.2)
      .empty)) h ⟨[], rfl, nofun, holds_empty⟩ ?_
  rintro seen entry stored stored' ⟨changes, rfl, hne, hholds⟩ hput
  obtain ⟨positions, hpositions, hnonempty, hholds'⟩ := hholds.putEntry hput
  refine ⟨changes ++ [(entry.1, positions)], ?_, ?_, ?_⟩
  · rw [List.map_append, List.map_singleton, hpositions]
  · rw [List.forall_mem_append]
    exact ⟨hne, by simpa using hnonempty⟩
  · rw [List.foldl_concat]
    exact hholds'

end StoredPostingList

end GeneralSearch.Ranked
