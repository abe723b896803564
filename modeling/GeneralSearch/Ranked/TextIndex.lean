import GeneralSearch.Query.Candidates
import Mathlib.Data.List.Nodup
import Mathlib.Data.Finset.Insert
import Mathlib.Data.Finset.Erase

/-! Text indexes as ranked search reads them: posting lists with the positions of a term, document
lengths, and the trie over the vocabulary that expands a fuzzy term.  The walk through the trie
computes one row of edit distances for each code point and stops where a row is above the bound. -/

namespace GeneralSearch.Ranked

open GeneralSearch.Index GeneralSearch.Planner

/-! ### Posting lists -/

/-- `PostingList`: the documents of a term and the positions of the term in each of them
(`IntPositions`, empty where the map has no entry).  The map of positions is a tree in
`StoredPostingList`, whose operations show the ones below. -/
structure PostingList where
  documents : Finset ℕ
  positions : ℕ → List ℕ
  mem_documents : ∀ d, d ∈ documents ↔ positions d ≠ []
  increasing : ∀ d, (positions d).Pairwise (· < ·)

namespace PostingList

def empty : PostingList where
  documents := ∅
  positions _ := []
  mem_documents := by simp
  increasing := by simp

def documentFrequency (posting : PostingList) : ℕ := posting.documents.card

def termFrequency (posting : PostingList) (docId : ℕ) : ℕ := (posting.positions docId).length

/-- `withPositions`. -/
def withPositions (posting : PostingList) (docId : ℕ) (positions : List ℕ)
    (hne : positions ≠ []) (hincreasing : positions.Pairwise (· < ·)) : PostingList where
  documents := insert docId posting.documents
  positions := Function.update posting.positions docId positions
  mem_documents d := by
    by_cases hd : d = docId
    · subst hd
      simp [hne]
    · simp [hd, posting.mem_documents]
  increasing d := by
    by_cases hd : d = docId
    · subst hd
      simpa using hincreasing
    · simpa [hd] using posting.increasing d

/-- `without`. -/
def without (posting : PostingList) (docId : ℕ) : PostingList where
  documents := posting.documents.erase docId
  positions := Function.update posting.positions docId []
  mem_documents d := by
    by_cases hd : d = docId
    · subst hd
      simp
    · simp [hd, posting.mem_documents]
  increasing d := by
    by_cases hd : d = docId
    · subst hd
      simp
    · simpa [hd] using posting.increasing d

/-- A document in which the term occurs is listed. -/
theorem mem_of_termFrequency {posting : PostingList} {d : ℕ} (h : posting.termFrequency d ≠ 0) :
    d ∈ posting.documents :=
  (posting.mem_documents d).mpr fun hnil => h (by rw [termFrequency, hnil]; rfl)

end PostingList

/-! ### Code points -/

def JChar.isHighSurrogate (u : JChar) : Bool := 55296 ≤ u.val && u.val ≤ 56319

def JChar.isLowSurrogate (u : JChar) : Bool := 56320 ≤ u.val && u.val ≤ 57343

/-- `String.codePoints`: a surrogate without its partner is a code point of its own. -/
def codePoints : JString → List ℕ
  | [] => []
  | [u] => [u.val]
  | u :: v :: rest =>
    if JChar.isHighSurrogate u && JChar.isLowSurrogate v then
      (65536 + (u.val - 55296) * 1024 + (v.val - 56320)) :: codePoints rest
    else u.val :: codePoints (v :: rest)

/-- The code units of a code point. -/
def codeUnits (point : ℕ) : JString :=
  if point < 65536 then [Fin.ofNat 65536 point]
  else [Fin.ofNat 65536 (55296 + (point - 65536) / 1024),
    Fin.ofNat 65536 (56320 + (point - 65536) % 1024)]

theorem ofNat_eq {n : ℕ} {u : JChar} (h : n = u.val) : Fin.ofNat 65536 n = u := by
  subst h
  exact Fin.ext (Nat.mod_eq_of_lt u.isLt)

theorem codeUnits_val (u : JChar) : codeUnits u.val = [u] := by
  rw [codeUnits, if_pos u.isLt, ofNat_eq rfl]

/-- The code points of a string have its code units. -/
theorem codeUnits_codePoints (s : JString) : (codePoints s).flatMap codeUnits = s := by
  induction s using codePoints.induct with
  | case1 => rfl
  | case2 u => rw [codePoints, List.flatMap_singleton, codeUnits_val]
  | case3 u v rest h ih =>
    have hu : 55296 ≤ u.val ∧ u.val ≤ 56319 := by
      simpa [JChar.isHighSurrogate] using (Bool.and_eq_true_iff.mp h).1
    have hv : 56320 ≤ v.val ∧ v.val ≤ 57343 := by
      simpa [JChar.isLowSurrogate] using (Bool.and_eq_true_iff.mp h).2
    have hunits : codeUnits (65536 + (u.val - 55296) * 1024 + (v.val - 56320)) = [u, v] := by
      rw [codeUnits, if_neg (by omega), ofNat_eq (u := u) (by omega), ofNat_eq (u := v) (by omega)]
    rw [codePoints, if_pos h, List.flatMap_cons, ih, hunits]
    rfl
  | case4 u v rest h ih =>
    rw [codePoints, if_neg h, List.flatMap_cons, ih, codeUnits_val]
    rfl

theorem codePoints_injective : Function.Injective codePoints :=
  Function.LeftInverse.injective codeUnits_codePoints

/-- `BoundedOptimalStringAlignment.compareCodePoints`; the remaining lengths decide when one string
starts with the other. -/
def compareCodePoints (left right : JString) : Ordering :=
  List.compareLex compare (codePoints left) (codePoints right)

/-- `BoundedOptimalStringAlignment.autoMaxEdits`. -/
def autoMaxEdits (normalizedTerm : JString) : ℕ :=
  let length := (codePoints normalizedTerm).length
  if length ≤ 2 then 0 else if length ≤ 5 then 1 else 2

/-! ### The trie -/

mutual

/-- `PersistentCodePointTrie.Node`. -/
inductive TrieNode where
  | node (terminal : Option JString) (children : TrieChildren)

/-- The children of a node in the order of their code points. -/
inductive TrieChildren where
  | nil
  | cons (codePoint : ℕ) (child : TrieNode) (rest : TrieChildren)

end

mutual

/-- The terms below a node, each with the code points that lead to it. -/
def TrieNode.terms (path : List ℕ) : TrieNode → List (List ℕ × JString)
  | .node terminal children => (terminal.map (path, ·)).toList ++ children.terms path

def TrieChildren.terms (path : List ℕ) : TrieChildren → List (List ℕ × JString)
  | .nil => []
  | .cons codePoint child rest => child.terms (path ++ [codePoint]) ++ rest.terms path

end

/-- `PersistentCodePointTrie.increment`. -/
def increment (value sentinel : ℕ) : ℕ := if value ≥ sentinel then sentinel else value + 1

/-- One cell of the row for `codePoint`; `previousCodePoint` is there from the second row on. -/
def distanceCell (queryPoints : List ℕ) (sentinel codePoint : ℕ) (previousCodePoint : Option ℕ)
    (twoRowsBack previous current : ℕ → ℕ) (column : ℕ) : ℕ :=
  let deletion := increment (previous column) sentinel
  let insertion := increment (current (column - 1)) sentinel
  let substitution :=
    if previous (column - 1) ≥ sentinel then sentinel
    else previous (column - 1) + if queryPoints[column - 1]? = some codePoint then 0 else 1
  let best := min deletion (min insertion substitution)
  let best :=
    if previousCodePoint.isSome ∧ 1 < column ∧ queryPoints[column - 2]? = some codePoint ∧
        queryPoints[column - 1]? = previousCodePoint then
      min best (increment (twoRowsBack (column - 2)) sentinel)
    else best
  min best sentinel

/-- The row at `depth` and its minimum: only the columns near the diagonal are computed. -/
def distanceRow (queryPoints : List ℕ) (maxEdits depth codePoint : ℕ)
    (previousCodePoint : Option ℕ) (twoRowsBack previous : ℕ → ℕ) : (ℕ → ℕ) × ℕ :=
  let sentinel := maxEdits + 1
  let firstColumn := max 1 (depth - maxEdits)
  let lastColumn := min queryPoints.length (depth + maxEdits)
  (List.range' firstColumn (lastColumn + 1 - firstColumn)).foldl
    (fun row column =>
      let cell := distanceCell queryPoints sentinel codePoint previousCodePoint twoRowsBack previous
        row.1 column
      (Function.update row.1 column cell, min row.2 cell))
    (fun column => if column = 0 then min depth sentinel else sentinel, min depth sentinel)

mutual

/-- `PersistentCodePointTrie.visit`: the terms that the consumer gets with their distances. -/
def TrieNode.visit (queryPoints : List ℕ) (maxEdits depth codePoint : ℕ)
    (previousCodePoint : Option ℕ) (twoRowsBack previous : ℕ → ℕ) :
    TrieNode → List (JString × ℕ)
  | .node terminal children =>
    let row := distanceRow queryPoints maxEdits depth codePoint previousCodePoint twoRowsBack
      previous
    let distance := row.1 queryPoints.length
    (if distance ≤ maxEdits then (terminal.map (·, distance)).toList else []) ++
      if row.2 > maxEdits then []
      else children.visit queryPoints maxEdits (depth + 1) (some codePoint) previous row.1

/-- The visits of the children of a node, whose rows are at `depth`. -/
def TrieChildren.visit (queryPoints : List ℕ) (maxEdits depth : ℕ)
    (previousCodePoint : Option ℕ) (twoRowsBack previous : ℕ → ℕ) :
    TrieChildren → List (JString × ℕ)
  | .nil => []
  | .cons codePoint child rest =>
    child.visit queryPoints maxEdits depth codePoint previousCodePoint twoRowsBack previous ++
      rest.visit queryPoints maxEdits depth previousCodePoint twoRowsBack previous

end

/-- `PersistentCodePointTrie.forEachWithinEditDistance`, for a term that is not empty; there is no
second row behind the first one. -/
def forEachWithinEditDistance (root : Option TrieNode) (queryTerm : JString) (maxEdits : ℕ) :
    List (JString × ℕ) :=
  match root with
  | none => []
  | some (.node _ children) =>
    let initial := fun column => min column (maxEdits + 1)
    children.visit (codePoints queryTerm) maxEdits 1 none initial initial

/-! ### What a walk gives -/

/-- The row of the path that was walked has its zero where the query starts with the path. -/
def RowOf (queryPoints path : List ℕ) (row : ℕ → ℕ) : Prop :=
  ∀ column ≤ queryPoints.length, row column = 0 ↔
    column = path.length ∧ queryPoints.take column = path

theorem increment_ne_zero (value : ℕ) {sentinel : ℕ} (h : sentinel ≠ 0) :
    increment value sentinel ≠ 0 := by
  unfold increment
  split <;> omega

/-- A cell is zero exactly when the substitution costs nothing. -/
theorem distanceCell_eq_zero {queryPoints : List ℕ} {sentinel codePoint : ℕ}
    {previousCodePoint : Option ℕ} {twoRowsBack previous current : ℕ → ℕ} {column : ℕ}
    (hs : sentinel ≠ 0) :
    distanceCell queryPoints sentinel codePoint previousCodePoint twoRowsBack previous current
      column = 0 ↔ previous (column - 1) = 0 ∧ queryPoints[column - 1]? = some codePoint := by
  have hdeletion := increment_ne_zero (previous column) hs
  have hinsertion := increment_ne_zero (current (column - 1)) hs
  have htransposition := increment_ne_zero (twoRowsBack (column - 2)) hs
  unfold distanceCell
  dsimp only
  generalize increment (previous column) sentinel = deletion at *
  generalize increment (current (column - 1)) sentinel = insertion at *
  generalize increment (twoRowsBack (column - 2)) sentinel = transposition at *
  split_ifs <;> simp_all <;> omega

/-- The columns that a row is computed in have their cells, the others what they had before. -/
theorem foldl_cells_eq_zero {queryPoints : List ℕ} {sentinel codePoint : ℕ}
    {previousCodePoint : Option ℕ} {twoRowsBack previous : ℕ → ℕ} (hs : sentinel ≠ 0)
    (columns : List ℕ) (row : (ℕ → ℕ) × ℕ) (column : ℕ) :
    (columns.foldl (fun row column =>
      let cell := distanceCell queryPoints sentinel codePoint previousCodePoint twoRowsBack previous
        row.1 column
      (Function.update row.1 column cell, min row.2 cell)) row).1 column = 0 ↔
      if column ∈ columns then
        previous (column - 1) = 0 ∧ queryPoints[column - 1]? = some codePoint
      else row.1 column = 0 := by
  induction columns generalizing row with
  | nil => simp
  | cons first rest ih =>
    rw [List.foldl_cons, ih]
    by_cases hrest : column ∈ rest
    · simp [hrest]
    · by_cases hcolumn : column = first
      · subst hcolumn
        simp [hrest, distanceCell_eq_zero hs]
      · simp [hrest, hcolumn]

theorem distanceRow_rowOf {queryPoints path : List ℕ} (maxEdits codePoint : ℕ)
    (previousCodePoint : Option ℕ) (twoRowsBack : ℕ → ℕ) {previous : ℕ → ℕ}
    (h : RowOf queryPoints path previous) :
    RowOf queryPoints (path ++ [codePoint])
      (distanceRow queryPoints maxEdits (path.length + 1) codePoint previousCodePoint twoRowsBack
        previous).1 := by
  intro column hcolumn
  unfold distanceRow
  dsimp only
  rw [foldl_cells_eq_zero (Nat.succ_ne_zero maxEdits), List.length_append, List.length_singleton]
  split
  · rename_i hband
    rw [List.mem_range'_1] at hband
    obtain ⟨c, rfl⟩ : ∃ c, column = c + 1 := ⟨column - 1, by omega⟩
    rw [Nat.add_sub_cancel, h c (by omega), List.take_add_one, List.getElem?_eq_getElem hcolumn]
    simp only [Option.some.injEq, Option.toList_some, Nat.add_right_cancel_iff]
    constructor
    · rintro ⟨⟨hlen, htake⟩, hpoint⟩
      exact ⟨hlen, by rw [htake, hpoint]⟩
    · rintro ⟨hlen, htake⟩
      obtain ⟨htake, hpoint⟩ := List.append_inj' htake rfl
      exact ⟨⟨hlen, htake⟩, List.singleton_inj.mp hpoint⟩
  · -- The column of the path lies in the band, so it is not among the skipped ones.
    rename_i hband
    rw [List.mem_range'_1] at hband
    refine iff_of_false ?_ fun ⟨hlen, _⟩ => hband (by omega)
    dsimp only
    split <;> omega

mutual

/-- Every term that a walk gives stands below the node, and its distance is zero exactly when its
path is the query. -/
theorem TrieNode.mem_visit {queryPoints path : List ℕ} {maxEdits codePoint : ℕ}
    {previousCodePoint : Option ℕ} {twoRowsBack previous : ℕ → ℕ}
    (h : RowOf queryPoints path previous) :
    ∀ {n : TrieNode} {term : JString} {distance : ℕ},
      (term, distance) ∈ n.visit queryPoints maxEdits (path.length + 1) codePoint previousCodePoint
        twoRowsBack previous →
      distance ≤ maxEdits ∧ ∃ p, (p, term) ∈ n.terms (path ++ [codePoint]) ∧
        (distance = 0 ↔ p = queryPoints)
  | .node terminal children, term, distance, hmem => by
    have hrow := distanceRow_rowOf maxEdits codePoint previousCodePoint twoRowsBack h
    rw [TrieNode.visit] at hmem
    rcases List.mem_append.mp hmem with hmem | hmem
    · split at hmem
      case isFalse => cases hmem
      rename_i hle
      rw [Option.mem_toList, Option.map_eq_some_iff] at hmem
      obtain ⟨t, rfl, heq⟩ := hmem
      cases heq
      refine ⟨hle, path ++ [codePoint], ?_, ?_⟩
      · rw [TrieNode.terms]
        exact List.mem_append_left _ (by simp)
      · rw [hrow _ (Nat.le_refl _), List.take_length]
        constructor
        · exact fun hp => hp.2.symm
        · rintro rfl
          exact ⟨rfl, rfl⟩
    · split at hmem
      · cases hmem
      have hlen : path.length + 1 + 1 = (path ++ [codePoint]).length + 1 := by simp
      rw [hlen] at hmem
      obtain ⟨hle, p, hp, hzero⟩ := TrieChildren.mem_visit hrow hmem
      refine ⟨hle, p, ?_, hzero⟩
      rw [TrieNode.terms]
      exact List.mem_append_right _ hp

theorem TrieChildren.mem_visit {queryPoints path : List ℕ} {maxEdits : ℕ}
    {previousCodePoint : Option ℕ} {twoRowsBack previous : ℕ → ℕ}
    (h : RowOf queryPoints path previous) :
    ∀ {n : TrieChildren} {term : JString} {distance : ℕ},
      (term, distance) ∈ n.visit queryPoints maxEdits (path.length + 1) previousCodePoint
        twoRowsBack previous →
      distance ≤ maxEdits ∧ ∃ p, (p, term) ∈ n.terms path ∧ (distance = 0 ↔ p = queryPoints)
  | .nil, _, _, hmem => by
    rw [TrieChildren.visit] at hmem
    cases hmem
  | .cons codePoint child rest, term, distance, hmem => by
    rw [TrieChildren.visit] at hmem
    rw [TrieChildren.terms]
    rcases List.mem_append.mp hmem with hmem | hmem
    · obtain ⟨hle, p, hp, hzero⟩ := TrieNode.mem_visit h hmem
      exact ⟨hle, p, List.mem_append_left _ hp, hzero⟩
    · obtain ⟨hle, p, hp, hzero⟩ := TrieChildren.mem_visit h hmem
      exact ⟨hle, p, List.mem_append_right _ hp, hzero⟩

end

mutual

/-- A walk gives the terms in the order of the trie, each at most as often as it stands there. -/
theorem TrieNode.visit_sublist {queryPoints path : List ℕ} {maxEdits depth codePoint : ℕ}
    {previousCodePoint : Option ℕ} {twoRowsBack previous : ℕ → ℕ} : ∀ n : TrieNode,
    ((n.visit queryPoints maxEdits depth codePoint previousCodePoint twoRowsBack previous).map
      Prod.fst).Sublist ((n.terms path).map Prod.snd)
  | .node terminal children => by
    rw [TrieNode.visit, TrieNode.terms, List.map_append, List.map_append]
    refine List.Sublist.append ?_ ?_
    · split
      · cases terminal <;> simp
      · exact List.nil_sublist _
    · split
      · exact List.nil_sublist _
      · exact TrieChildren.visit_sublist children

theorem TrieChildren.visit_sublist {queryPoints path : List ℕ} {maxEdits depth : ℕ}
    {previousCodePoint : Option ℕ} {twoRowsBack previous : ℕ → ℕ} : ∀ n : TrieChildren,
    ((n.visit queryPoints maxEdits depth previousCodePoint twoRowsBack previous).map
      Prod.fst).Sublist ((n.terms path).map Prod.snd)
  | .nil => by
    rw [TrieChildren.visit]
    exact List.nil_sublist _
  | .cons codePoint child rest => by
    rw [TrieChildren.visit, TrieChildren.terms, List.map_append, List.map_append]
    exact (TrieNode.visit_sublist child).append (TrieChildren.visit_sublist rest)

end

/-- The row that a walk starts with is that of the empty path. -/
theorem initial_rowOf (queryPoints : List ℕ) (maxEdits : ℕ) :
    RowOf queryPoints [] fun column => min column (maxEdits + 1) := by
  intro column _
  dsimp only
  rw [List.length_nil]
  constructor
  · intro hzero
    obtain rfl : column = 0 := by omega
    exact ⟨rfl, List.take_zero⟩
  · rintro ⟨rfl, -⟩
    omega

/-! ### The index -/

/-- `TextIndexSnapshot`; the statistics count the entries of `documentLengths`. -/
structure TextIndexSnapshot where
  postings : AvlNode JString PostingList
  fuzzyDictionary : Option TrieNode
  documentLengths : AvlNode ℕ ℕ
  totalDocumentLength : ℕ

namespace TextIndexSnapshot

def posting (index : TextIndexSnapshot) (term : JString) : PostingList :=
  (index.postings.get JString.compareTo term).getD .empty

def documentLength (index : TextIndexSnapshot) (docId : ℕ) : ℕ :=
  (index.documentLengths.get compare docId).getD 0

def indexedDocumentCount (index : TextIndexSnapshot) : ℕ := index.documentLengths.size

/-- The terms that the dictionary lists, with the code points that lead to them. -/
def vocabulary (index : TextIndexSnapshot) : List (List ℕ × JString) :=
  (index.fuzzyDictionary.map (TrieNode.terms [])).getD []

/-- The dictionary lists terms of posting lists, each once and where its code points lead. -/
structure Spelled (index : TextIndexSnapshot) : Prop where
  path : ∀ e ∈ index.vocabulary, e.1 = codePoints e.2
  nonempty : ∀ e ∈ index.vocabulary, e.2 ≠ []
  posted : ∀ e ∈ index.vocabulary, 0 < (index.posting e.2).documentFrequency
  once : (index.vocabulary.map Prod.snd).Nodup

/-- `FuzzyVocabularyAccess.forEachWithinEditDistance`. -/
def withinEditDistance (index : TextIndexSnapshot) (queryTerm : JString) (maxEdits : ℕ) :
    List (JString × ℕ) :=
  forEachWithinEditDistance index.fuzzyDictionary queryTerm maxEdits

variable {index : TextIndexSnapshot} {queryTerm : JString} {maxEdits : ℕ}

/-- A term within the distance has documents, and only the query term itself has distance zero. -/
theorem Spelled.mem_within (h : index.Spelled) {term : JString} {distance : ℕ}
    (hmem : (term, distance) ∈ index.withinEditDistance queryTerm maxEdits) :
    distance ≤ maxEdits ∧ (distance = 0 ↔ term = queryTerm) ∧ term ≠ [] ∧
      0 < (index.posting term).documentFrequency := by
  unfold withinEditDistance forEachWithinEditDistance at hmem
  split at hmem
  · cases hmem
  rename_i terminal children hroot
  obtain ⟨hle, p, hp, hzero⟩ := TrieChildren.mem_visit (initial_rowOf _ _) hmem
  have hvocabulary : (p, term) ∈ index.vocabulary := by
    rw [vocabulary, hroot, Option.map_some, Option.getD_some, TrieNode.terms]
    exact List.mem_append_right _ hp
  refine ⟨hle, hzero.trans ?_, h.nonempty _ hvocabulary, h.posted _ hvocabulary⟩
  rw [show p = codePoints term from h.path _ hvocabulary, codePoints_injective.eq_iff]

theorem Spelled.within_nodup (h : index.Spelled) :
    ((index.withinEditDistance queryTerm maxEdits).map Prod.fst).Nodup := by
  unfold withinEditDistance forEachWithinEditDistance
  split
  · exact List.nodup_nil
  rename_i terminal children hroot
  have honce := h.once
  rw [vocabulary, hroot, Option.map_some, Option.getD_some, TrieNode.terms, List.map_append,
    List.nodup_append] at honce
  exact honce.2.1.sublist (TrieChildren.visit_sublist children)

end TextIndexSnapshot

end GeneralSearch.Ranked
