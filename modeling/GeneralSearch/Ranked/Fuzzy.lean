import GeneralSearch.Ranked.Executor
import GeneralSearch.Ranked.Distance
import GeneralSearch.Ranked.Trie

/-! Fuzzy expansion.  The walk through the trie keeps one row for each depth, which siblings fill one
after the other; the other expander compares the query with every term of the vocabulary in two
rows that it reuses.  Both give the same terms at the same distances. -/

namespace GeneralSearch.Ranked

open GeneralSearch.Index GeneralSearch.Planner GeneralSearch.Lib

/-! ### One table for the walk -/

mutual

/-- `PersistentCodePointTrie.visit` with the rows of its `TraversalWorkspace`, and the rows as the
walk leaves them. -/
def TrieNode.visitIn (queryPoints : List ℕ) (maxEdits depth codePoint : ℕ)
    (previousCodePoint : Option ℕ) :
    TrieNode → (ℕ → ℕ → ℕ) → List (JString × ℕ) × (ℕ → ℕ → ℕ)
  | .node terminal children, rows =>
    let row := distanceRow queryPoints maxEdits depth codePoint previousCodePoint (rows (depth - 2))
      (rows (depth - 1))
    let rows := Function.update rows depth row.1
    let distance := row.1 queryPoints.length
    let found := if distance ≤ maxEdits then (terminal.map (·, distance)).toList else []
    if row.2 > maxEdits then (found, rows)
    else
      let below := children.visitIn queryPoints maxEdits (depth + 1) (some codePoint) rows
      (found ++ below.1, below.2)

def TrieChildren.visitIn (queryPoints : List ℕ) (maxEdits depth : ℕ)
    (previousCodePoint : Option ℕ) :
    TrieChildren → (ℕ → ℕ → ℕ) → List (JString × ℕ) × (ℕ → ℕ → ℕ)
  | .nil, rows => ([], rows)
  | .cons codePoint child rest, rows =>
    let first := child.visitIn queryPoints maxEdits depth codePoint previousCodePoint rows
    let others := rest.visitIn queryPoints maxEdits depth previousCodePoint first.2
    (first.1 ++ others.1, others.2)

end

/-- `PersistentCodePointTrie.forEachWithinEditDistance` with its workspace, whose rows start with
zeros. -/
def forEachWithinEditDistanceIn (root : Option TrieNode) (queryTerm : JString) (maxEdits : ℕ) :
    List (JString × ℕ) :=
  match root with
  | none => []
  | some (.node _ children) =>
    (children.visitIn (codePoints queryTerm) maxEdits 1 none
      (Function.update (fun _ _ => 0) 0 fun column => min column (maxEdits + 1))).1

mutual

/-- A walk leaves the rows above it as they were, so its siblings find what they need. -/
theorem TrieNode.visitIn_eq (queryPoints : List ℕ) (maxEdits codePoint : ℕ)
    (previousCodePoint : Option ℕ) {depth : ℕ} (hdepth : 1 ≤ depth) :
    ∀ (n : TrieNode) (rows : ℕ → ℕ → ℕ),
      (n.visitIn queryPoints maxEdits depth codePoint previousCodePoint rows).1 =
        n.visit queryPoints maxEdits depth codePoint previousCodePoint (rows (depth - 2))
          (rows (depth - 1)) ∧
      ∀ d < depth,
        (n.visitIn queryPoints maxEdits depth codePoint previousCodePoint rows).2 d = rows d
  | .node terminal children, rows => by
    rw [TrieNode.visitIn, TrieNode.visit]
    dsimp only
    generalize distanceRow queryPoints maxEdits depth codePoint previousCodePoint (rows (depth - 2))
      (rows (depth - 1)) = row
    have hbelow := TrieChildren.visitIn_eq queryPoints maxEdits (some codePoint)
      (Nat.le_add_left 1 depth) children (Function.update rows depth row.1)
    rw [show depth + 1 - 2 = depth - 1 by omega, Nat.add_sub_cancel, Function.update_self,
      Function.update_of_ne (by omega)] at hbelow
    split
    · refine ⟨by rw [List.append_nil], fun d hd => ?_⟩
      exact Function.update_of_ne (by omega) _ _
    · refine ⟨by rw [hbelow.1], fun d hd => ?_⟩
      rw [hbelow.2 d (by omega), Function.update_of_ne (by omega)]

theorem TrieChildren.visitIn_eq (queryPoints : List ℕ) (maxEdits : ℕ)
    (previousCodePoint : Option ℕ) {depth : ℕ} (hdepth : 1 ≤ depth) :
    ∀ (n : TrieChildren) (rows : ℕ → ℕ → ℕ),
      (n.visitIn queryPoints maxEdits depth previousCodePoint rows).1 =
        n.visit queryPoints maxEdits depth previousCodePoint (rows (depth - 2))
          (rows (depth - 1)) ∧
      ∀ d < depth, (n.visitIn queryPoints maxEdits depth previousCodePoint rows).2 d = rows d
  | .nil, rows => by
    rw [TrieChildren.visitIn, TrieChildren.visit]
    exact ⟨rfl, fun _ _ => rfl⟩
  | .cons codePoint child rest, rows => by
    rw [TrieChildren.visitIn, TrieChildren.visit]
    dsimp only
    obtain ⟨hfirst, hkept⟩ := TrieNode.visitIn_eq queryPoints maxEdits codePoint
      previousCodePoint hdepth child rows
    obtain ⟨hothers, hlast⟩ := TrieChildren.visitIn_eq queryPoints maxEdits previousCodePoint
      hdepth rest (child.visitIn queryPoints maxEdits depth codePoint previousCodePoint rows).2
    rw [hkept _ (by omega), hkept _ (by omega)] at hothers
    refine ⟨by rw [hfirst, hothers], fun d hd => ?_⟩
    rw [hlast d hd, hkept d hd]

end

/-- The rows that siblings share do not change what the walk gives. -/
theorem forEachWithinEditDistanceIn_eq (root : Option TrieNode) (queryTerm : JString)
    (maxEdits : ℕ) :
    forEachWithinEditDistanceIn root queryTerm maxEdits =
      forEachWithinEditDistance root queryTerm maxEdits := by
  unfold forEachWithinEditDistanceIn forEachWithinEditDistance
  split
  · rfl
  · rw [(TrieChildren.visitIn_eq _ _ _ le_rfl _ _).1]
    rfl

/-! ### Two terms -/

namespace BoundedOptimalStringAlignment

/-- `Workspace`: three arrays, which the next comparison finds as the last one left them. -/
structure Workspace where
  capacity : ℕ
  twoRowsBack : ℕ → ℕ
  previous : ℕ → ℕ
  current : ℕ → ℕ

namespace Workspace

/-- `new Workspace`. -/
def new : Workspace := ⟨0, fun _ => 0, fun _ => 0, fun _ => 0⟩

def ensureCapacity (workspace : Workspace) (required : ℕ) : Workspace :=
  if required ≤ workspace.capacity then workspace
  else ⟨required, fun _ => 0, fun _ => 0, fun _ => 0⟩

/-- The arrays under the names that they had a row earlier. -/
def back (workspace : Workspace) : Workspace where
  capacity := workspace.capacity
  twoRowsBack := workspace.current
  previous := workspace.twoRowsBack
  current := workspace.previous

end Workspace

/-- `Arrays.fill` from the start of an array. -/
def fill (row : ℕ → ℕ) (length value : ℕ) : ℕ → ℕ :=
  fun column => if column < length then value else row column

/-- One round of the loop over the rows: the arrays change their names at its end. -/
def nextRow (leftPoints rightPoints : List ℕ) (rightLength maxEdits : ℕ) (workspace : Workspace)
    (row : ℕ) : Workspace :=
  let sentinel := maxEdits + 1
  let filled := fill workspace.current (rightLength + 1) sentinel
  let firstColumn := row - maxEdits
  let lastColumn := min rightLength (row + maxEdits)
  let started := if firstColumn = 0 then Function.update filled 0 row else filled
  let current := fillRow rightPoints sentinel (leftPoints.getD (row - 1) 0)
    (if 1 < row then leftPoints[row - 2]? else none) workspace.twoRowsBack workspace.previous
    (List.range' (max 1 firstColumn) (lastColumn + 1 - max 1 firstColumn)) started
  ⟨workspace.capacity, workspace.previous, current, workspace.twoRowsBack⟩

/-- The table of `distance`, when neither list is as short as the difference of the lengths asks
for; only the names of the arrays have changed in the loop, not the fields of the workspace. -/
def alignRows (leftPoints : List ℕ) (leftLength : ℕ) (rightPoints : List ℕ)
    (rightLength maxEdits : ℕ) (workspace : Workspace) : ℕ × Workspace :=
  let workspace := workspace.ensureCapacity (rightLength + 1)
  let sentinel := maxEdits + 1
  let previous := fill workspace.previous (rightLength + 1) sentinel
  let started : Workspace :=
    ⟨workspace.capacity, fill workspace.twoRowsBack (rightLength + 1) sentinel,
      fun column => if column ≤ min rightLength maxEdits then column else previous column,
      workspace.current⟩
  let ended := (List.range' 1 leftLength).foldl
    (nextRow leftPoints rightPoints rightLength maxEdits) started
  (min (ended.previous rightLength) sentinel, Workspace.back^[leftLength] ended)

def equalPrefix (left : List ℕ) (leftLength : ℕ) (right : List ℕ) (rightLength : ℕ) : Bool :=
  leftLength == rightLength && (List.range leftLength).all fun index => left[index]? == right[index]?

/-- `distance` over arrays with their logical lengths, and the workspace as it leaves it. -/
def distance (leftPoints : List ℕ) (leftLength : ℕ) (rightPoints : List ℕ)
    (rightLength maxEdits : ℕ) (workspace : Workspace) : Except Failure (ℕ × Workspace) :=
  if leftPoints.length < leftLength ∨ rightPoints.length < rightLength then
    .error (.illegalArgument "logical code-point lengths are out of range")
  else if 2 < maxEdits then .error (.illegalArgument "maxEdits must be between 0 and 2")
  else if equalPrefix leftPoints leftLength rightPoints rightLength then .ok (0, workspace)
  else if maxEdits < ((leftLength : ℤ) - rightLength).natAbs then .ok (maxEdits + 1, workspace)
  else if leftLength < rightLength then
    .ok (alignRows rightPoints rightLength leftPoints leftLength maxEdits workspace)
  else .ok (alignRows leftPoints leftLength rightPoints rightLength maxEdits workspace)

/-- `distance` of two strings. -/
def distanceOf (left right : JString) (maxEdits : ℕ) : Except Failure ℕ :=
  Prod.fst <$> distance (codePoints left) (codePoints left).length (codePoints right)
    (codePoints right).length maxEdits .new

/-! What the loop over the rows keeps. -/

section

variable {leftPoints rightPoints : List ℕ} {leftLength rightLength maxEdits row : ℕ}
  {workspace : Workspace}

/-- After a number of rows the last two of them are those of the beginnings of the left list. -/
structure Filled (leftPoints rightPoints : List ℕ) (rightLength maxEdits row : ℕ)
    (workspace : Workspace) : Prop where
  previous : Row (rightPoints.take rightLength) maxEdits (leftPoints.take row).reverse
    workspace.previous
  twoRowsBack : row ≠ 0 → Row (rightPoints.take rightLength) maxEdits
    (leftPoints.take (row - 1)).reverse workspace.twoRowsBack

/-- Only the points of the logical length are read. -/
theorem fillRow_take {sentinel codePoint : ℕ} {previousCodePoint : Option ℕ}
    {twoRowsBack previous : ℕ → ℕ} {columns : List ℕ}
    (h : ∀ column ∈ columns, 1 ≤ column ∧ column ≤ rightLength) (current : ℕ → ℕ) :
    fillRow rightPoints sentinel codePoint previousCodePoint twoRowsBack previous columns current =
      fillRow (rightPoints.take rightLength) sentinel codePoint previousCodePoint twoRowsBack
        previous columns current := by
  induction columns generalizing current with
  | nil => rfl
  | cons column columns ih =>
    obtain ⟨hcolumn, hrest⟩ := List.forall_mem_cons.mp h
    have hcell : distanceCell rightPoints sentinel codePoint previousCodePoint twoRowsBack previous
        current column = distanceCell (rightPoints.take rightLength) sentinel codePoint
          previousCodePoint twoRowsBack previous current column := by
      unfold distanceCell
      rw [List.getElem?_take_of_lt (by omega), List.getElem?_take_of_lt (by omega)]
    unfold fillRow at ih ⊢
    rw [List.foldl_cons, List.foldl_cons, ih hrest, hcell]

theorem nextRow_filled (hrow : row < leftPoints.length) (hright : rightLength ≤ rightPoints.length)
    (h : Filled leftPoints rightPoints rightLength maxEdits row workspace) :
    Filled leftPoints rightPoints rightLength maxEdits (row + 1)
      (nextRow leftPoints rightPoints rightLength maxEdits workspace (row + 1)) := by
  refine ⟨?_, fun _ => h.previous⟩
  have hlength : (leftPoints.take row).reverse.length = row := by
    rw [List.length_reverse, List.length_take, Nat.min_eq_left hrow.le]
  have hquery : (rightPoints.take rightLength).length = rightLength := by
    rw [List.length_take, Nat.min_eq_left hright]
  have hhead : (if 1 < row + 1 then leftPoints[row + 1 - 2]? else none) =
      (leftPoints.take row).reverse.head? := by
    cases row with
    | zero => rfl
    | succ row =>
      rw [take_succ_reverse (by omega), if_pos (by omega)]
      exact List.getElem?_eq_getElem _
  have htail : (leftPoints.take row).reverse ≠ [] → Row (rightPoints.take rightLength) maxEdits
      (leftPoints.take row).reverse.tail workspace.twoRowsBack := by
    intro hne
    cases row with
    | zero => exact absurd rfl hne
    | succ row =>
      rw [take_succ_reverse (by omega)]
      exact h.twoRowsBack (Nat.succ_ne_zero row)
  have hstarted : ∀ column ≤ (rightPoints.take rightLength).length,
      (if row + 1 - maxEdits = 0 then
        Function.update (fill workspace.current (rightLength + 1) (maxEdits + 1)) 0 (row + 1)
      else fill workspace.current (rightLength + 1) (maxEdits + 1)) column =
        if column = 0 then min ((leftPoints.take row).reverse.length + 1) (maxEdits + 1)
        else maxEdits + 1 := by
    intro column hcolumn
    rw [hquery] at hcolumn
    have hfill : fill workspace.current (rightLength + 1) (maxEdits + 1) column = maxEdits + 1 :=
      if_pos (by omega)
    rw [hlength]
    by_cases hzero : column = 0
    · subst hzero
      split
      · rw [Function.update_self, if_pos rfl, Nat.min_eq_left (by omega)]
      · rw [hfill, if_pos rfl, Nat.min_eq_right (by omega)]
    · rw [if_neg hzero]
      split
      · rw [Function.update_of_ne hzero, hfill]
      · exact hfill
  have hband := fillBand_row leftPoints[row] h.previous htail hstarted
  rw [hlength, hquery] at hband
  unfold nextRow
  dsimp only
  rw [take_succ_reverse hrow, hhead, Nat.add_sub_cancel, List.getD_eq_getElem?_getD,
    List.getElem?_eq_getElem hrow, Option.getD_some, fillRow_take]
  · exact hband
  · intro column hmem
    rw [List.mem_range'_1] at hmem
    omega

theorem foldl_filled (hright : rightLength ≤ rightPoints.length) {count : ℕ}
    (hcount : row + count ≤ leftPoints.length)
    (h : Filled leftPoints rightPoints rightLength maxEdits row workspace) :
    Filled leftPoints rightPoints rightLength maxEdits (row + count)
      ((List.range' (row + 1) count).foldl
        (nextRow leftPoints rightPoints rightLength maxEdits) workspace) := by
  induction count generalizing row workspace with
  | zero => exact h
  | succ count ih =>
    rw [List.range'_succ, List.foldl_cons, show row + (count + 1) = row + 1 + count by omega]
    exact ih (by omega) (nextRow_filled (by omega) hright h)

/-- The last cell of the table is the distance, whatever the arrays held before. -/
theorem alignRows_eq (hleft : leftLength ≤ leftPoints.length)
    (hright : rightLength ≤ rightPoints.length) (workspace : Workspace) :
    (alignRows leftPoints leftLength rightPoints rightLength maxEdits workspace).1 =
      min (osa (leftPoints.take leftLength) (rightPoints.take rightLength)) (maxEdits + 1) := by
  have hquery : (rightPoints.take rightLength).length = rightLength := by
    rw [List.length_take, Nat.min_eq_left hright]
  unfold alignRows
  dsimp only
  generalize workspace.ensureCapacity (rightLength + 1) = workspace
  have hstarted : Filled leftPoints rightPoints rightLength maxEdits 0
      ⟨workspace.capacity, fill workspace.twoRowsBack (rightLength + 1) (maxEdits + 1),
        fun column => if column ≤ min rightLength maxEdits then column
          else fill workspace.previous (rightLength + 1) (maxEdits + 1) column,
        workspace.current⟩ := by
    refine ⟨fun column hcolumn => ?_, fun hne => absurd rfl hne⟩
    have hfill : fill workspace.previous (rightLength + 1) (maxEdits + 1) column = maxEdits + 1 :=
      if_pos (by omega)
    dsimp only
    rw [List.take_zero, List.reverse_nil, cost_nil hcolumn, hfill]
    split <;> omega
  have hended := (foldl_filled hright (Nat.zero_add leftLength ▸ hleft) hstarted).previous
    rightLength hquery.ge
  rw [Nat.zero_add, Nat.zero_add] at hended
  have hcost := cost_length (rightPoints.take rightLength) (leftPoints.take leftLength).reverse
  rw [hquery, List.reverse_reverse] at hcost
  rw [hended, hcost]
  omega

theorem equalPrefix_iff (hleft : leftLength ≤ leftPoints.length)
    (hright : rightLength ≤ rightPoints.length) :
    equalPrefix leftPoints leftLength rightPoints rightLength = true ↔
      leftPoints.take leftLength = rightPoints.take rightLength := by
  unfold equalPrefix
  rw [Bool.and_eq_true, beq_iff_eq, List.all_eq_true]
  constructor
  · rintro ⟨rfl, hall⟩
    refine List.ext_getElem? fun index => ?_
    by_cases hindex : index < leftLength
    · rw [List.getElem?_take_of_lt hindex, List.getElem?_take_of_lt hindex]
      exact eq_of_beq (hall index (List.mem_range.mpr hindex))
    · rw [List.getElem?_take_eq_none (by omega), List.getElem?_take_eq_none (by omega)]
  · intro heq
    have hlength := congrArg List.length heq
    rw [List.length_take, List.length_take, Nat.min_eq_left hleft, Nat.min_eq_left hright]
      at hlength
    subst hlength
    refine ⟨rfl, fun index hindex => ?_⟩
    rw [List.mem_range] at hindex
    rw [beq_iff_eq, ← List.getElem?_take_of_lt hindex, heq, List.getElem?_take_of_lt hindex]

/-- A comparison gives the distance, or one more than the bound, whatever the arrays held. -/
theorem distance_eq (hleft : leftLength ≤ leftPoints.length)
    (hright : rightLength ≤ rightPoints.length) (hmax : maxEdits ≤ 2) (workspace : Workspace) :
    ∃ workspace', distance leftPoints leftLength rightPoints rightLength maxEdits workspace =
      .ok (min (osa (leftPoints.take leftLength) (rightPoints.take rightLength)) (maxEdits + 1),
        workspace') := by
  have hlength := length_le_osa (leftPoints.take leftLength) (rightPoints.take rightLength)
  rw [List.length_take, List.length_take, Nat.min_eq_left hleft, Nat.min_eq_left hright] at hlength
  unfold distance
  rw [if_neg (by omega), if_neg (by omega)]
  split
  · rename_i hequal
    rw [osa_eq_zero.mpr ((equalPrefix_iff hleft hright).mp hequal), Nat.zero_min]
    exact ⟨_, rfl⟩
  split
  · rw [Nat.min_eq_right (by omega)]
    exact ⟨_, rfl⟩
  split
  · rw [osa_comm, ← alignRows_eq hright hleft workspace]
    exact ⟨_, rfl⟩
  · rw [← alignRows_eq hleft hright workspace]
    exact ⟨_, rfl⟩

end

theorem distanceOf_eq (left right : JString) {maxEdits : ℕ} (hmax : maxEdits ≤ 2) :
    distanceOf left right maxEdits =
      .ok (min (osa (codePoints left) (codePoints right)) (maxEdits + 1)) := by
  obtain ⟨workspace, h⟩ := distance_eq (le_refl (codePoints left).length)
    (le_refl (codePoints right).length) hmax .new
  rw [List.take_length, List.take_length] at h
  rw [distanceOf, h]
  rfl

/-- A transposition reaches back two rows and over an edge of the band. -/
example : distanceOf [97, 98, 99] [98, 97, 99] 1 = .ok 1 := rfl

end BoundedOptimalStringAlignment

/-! ### The expander that scans the vocabulary -/

/-- `FuzzyVocabularyAccess.forEachTerm`. -/
def TextIndexSnapshot.forEachTerm (index : TextIndexSnapshot) : List JString :=
  (index.postings.visit JString.compareTo none true none true).map Prod.fst

/-- `VocabularyScanningFuzzyTermExpander.copyCodePoints`, and the array as it leaves it. -/
def copyCodePoints (value : JString) (destination : List ℕ) (expectedLength : ℕ) :
    Except Failure (List ℕ) :=
  let points := codePoints value
  if destination.length < points.length then .error .indexOutOfBounds
  else if points.length ≠ expectedLength then
    .error (.illegalState "code-point length changed during traversal")
  else .ok (points ++ destination.drop points.length)

/-- What the scan carries from one term to the next. -/
structure VocabularyScan (Score : Type) where
  candidatePoints : List ℕ
  distanceWorkspace : BoundedOptimalStringAlignment.Workspace
  expansions : List (FuzzyExpansion Score)

section

variable {Score : Type} (ops : Scoring Score) (textIndex : TextIndexSnapshot)
  (normalizedQueryTerm : JString) (maxEdits : ℕ)

/-- The consumer of `VocabularyScanningFuzzyTermExpander.expand`. -/
def scanTerm (scan : VocabularyScan Score) (candidate : JString) :
    Except Failure (VocabularyScan Score) :=
  let queryPoints := codePoints normalizedQueryTerm
  let candidateLength := (codePoints candidate).length
  if maxEdits < ((candidateLength : ℤ) - queryPoints.length).natAbs then .ok scan
  else do
    let candidatePoints ← copyCodePoints candidate scan.candidatePoints candidateLength
    let (distance, distanceWorkspace) ← BoundedOptimalStringAlignment.distance queryPoints
      queryPoints.length candidatePoints candidateLength maxEdits scan.distanceWorkspace
    if maxEdits < distance then return ⟨candidatePoints, distanceWorkspace, scan.expansions⟩
    else
      let expansion ← FuzzyExpansion.make ops textIndex normalizedQueryTerm (candidate, distance)
      return ⟨candidatePoints, distanceWorkspace, scan.expansions ++ [expansion]⟩

/-- `VocabularyScanningFuzzyTermExpander.expand`. -/
def expandByScan : Except Failure (List (FuzzyExpansion Score)) :=
  if normalizedQueryTerm = [] then
    .error (.illegalArgument "normalizedQueryTerm must not be empty")
  else if 2 < maxEdits then .error (.illegalArgument "maxEdits must be between 0 and 2")
  else do
    let candidatePoints := List.replicate ((codePoints normalizedQueryTerm).length + maxEdits) 0
    let scan ← textIndex.forEachTerm.foldlM
      (scanTerm ops textIndex normalizedQueryTerm maxEdits) ⟨candidatePoints, .new, []⟩
    return scan.expansions.insertionSort FuzzyExpansion.le

end

/-! ### What the expanders give -/

/-- The index holds the vocabulary: its trie stores the terms, and its postings are theirs. -/
structure TextIndexSnapshot.Holds (index : TextIndexSnapshot) (vocabulary : Finset JString) :
    Prop where
  dictionary : Stores index.fuzzyDictionary vocabulary
  postings : ∀ term, term ∈ index.postings.entries.map Prod.fst ↔ term ∈ vocabulary
  ordered : index.postings.Ordered JString.compareTo

section

variable {Score : Type} (ops : Scoring Score) (index : TextIndexSnapshot) (query : JString)

/-- The expansion of a term at its distance. -/
def FuzzyExpansion.at (term : JString) (distance : ℕ) : FuzzyExpansion Score :=
  ⟨term, index.posting term, distance,
    ops.similarity distance (max (codePoints query).length (codePoints term).length)⟩

/-- The exact expansion of a query term: every term of the vocabulary that is near enough, once and
at its distance, in the order of the distances and then of the code points. -/
structure ExactExpansion (vocabulary : Finset JString) (maxEdits : ℕ)
    (expansions : List (FuzzyExpansion Score)) : Prop where
  mem : ∀ e, e ∈ expansions ↔ ∃ term ∈ vocabulary,
    osa (codePoints query) (codePoints term) ≤ maxEdits ∧
      e = .at ops index query term (osa (codePoints query) (codePoints term))
  once : (expansions.map (·.term)).Nodup
  ordered : expansions.Pairwise fun a b => a.editDistance < b.editDistance ∨
    (a.editDistance = b.editDistance ∧ compareCodePoints a.term b.term = .lt)

variable {ops index query} {vocabulary : Finset JString} {maxEdits : ℕ}

/-- A list of the near terms is exact once it is sorted. -/
theorem exact_insertionSort {found : List (FuzzyExpansion Score)}
    (hmem : ∀ e, e ∈ found ↔ ∃ term ∈ vocabulary,
      osa (codePoints query) (codePoints term) ≤ maxEdits ∧
        e = .at ops index query term (osa (codePoints query) (codePoints term)))
    (honce : (found.map (·.term)).Nodup) :
    ExactExpansion ops index query vocabulary maxEdits
      (found.insertionSort FuzzyExpansion.le) := by
  have hperm := List.perm_insertionSort FuzzyExpansion.le found
  have hnodup : ((found.insertionSort FuzzyExpansion.le).map (·.term)).Nodup :=
    (hperm.map _).nodup_iff.mpr honce
  refine ⟨fun e => hperm.mem_iff.trans (hmem e), hnodup, ?_⟩
  have hsorted := List.pairwise_insertionSort FuzzyExpansion.le found
  refine hsorted.imp₂ ?_ (List.pairwise_map.mp hnodup)
  rintro a b (hless | ⟨hequal, hle⟩) hne
  · exact .inl hless
  · refine .inr ⟨hequal, ?_⟩
    cases hcompare : compareCodePoints a.term b.term with
    | lt => rfl
    | eq => exact absurd (compareCodePoints_eq hcompare) hne
    | gt =>
      rw [hcompare] at hle
      cases hle

/-- There is one exact expansion. -/
theorem ExactExpansion.unique {expansions expansions' : List (FuzzyExpansion Score)}
    (h : ExactExpansion ops index query vocabulary maxEdits expansions)
    (h' : ExactExpansion ops index query vocabulary maxEdits expansions') :
    expansions = expansions' := by
  have hperm : expansions.Perm expansions' :=
    (List.perm_ext_iff_of_nodup h.once.of_map h'.once.of_map).mpr
      fun e => (h.mem e).trans (h'.mem e).symm
  refine hperm.eq_of_pairwise ?_ h.ordered h'.ordered
  rintro a b - - (hab | ⟨hequal, hab⟩) (hba | ⟨hequal', hba⟩)
  · omega
  · omega
  · omega
  · rw [compareCodePoints_swap, hab] at hba
    cases hba

variable (ops) in
theorem make_at {term : JString} {distance : ℕ} (hterm : term ≠ []) (hdistance : distance ≤ 2) :
    FuzzyExpansion.make ops index query (term, distance) = .ok (.at ops index query term distance) := by
  unfold FuzzyExpansion.make
  rw [if_neg hterm, if_neg (by simpa using hdistance)]
  rfl

theorem codePoints_eq_nil {s : JString} (h : codePoints s = []) : s = [] :=
  codePoints_injective (h.trans (codePoints.eq_1).symm)

/-- The walk through the dictionary finds the near terms. -/
theorem TextIndexSnapshot.Holds.mem_within (h : index.Holds vocabulary) {term : JString}
    {distance : ℕ} :
    (term, distance) ∈ index.withinEditDistance query maxEdits ↔ term ∈ vocabulary ∧
      distance = osa (codePoints query) (codePoints term) ∧ distance ≤ maxEdits := by
  have hdictionary (path : List ℕ) (t : JString) :
      (path, t) ∈ (index.fuzzyDictionary.map (TrieNode.terms [])).getD [] ↔
        t ∈ vocabulary ∧ path = codePoints t := h.dictionary.mem_terms
  unfold withinEditDistance forEachWithinEditDistance
  split
  · rename_i hroot
    rw [hroot] at hdictionary
    refine iff_of_false List.not_mem_nil ?_
    rintro ⟨hterm, -⟩
    exact List.not_mem_nil ((hdictionary _ _).mpr ⟨hterm, rfl⟩)
  · rename_i terminal children hroot
    rw [hroot, Option.map_some, Option.getD_some, TrieNode.terms] at hdictionary
    have hinitial : Row (codePoints query) maxEdits [] fun column => min column (maxEdits + 1) :=
      fun column hcolumn => by rw [cost_nil hcolumn]
    have hchildren : ∀ p, (p, term) ∈ children.terms [] ↔ term ∈ vocabulary ∧ p = codePoints term := by
      intro p
      rw [← hdictionary, List.mem_append]
      refine ⟨.inr, ?_⟩
      rintro (hmem | hmem)
      · -- The root has no term, as the empty string is none.
        exfalso
        rw [Option.mem_toList, Option.map_eq_some_iff] at hmem
        obtain ⟨t, rfl, heq⟩ := hmem
        obtain ⟨rfl, rfl⟩ := Prod.mk.inj heq
        obtain ⟨hterm, hempty⟩ := (hdictionary [] t).mp (List.mem_append_left _ (by simp))
        exact h.dictionary.nonempty (codePoints_eq_nil hempty.symm ▸ hterm)
      · exact hmem
    refine (TrieChildren.mem_visit_iff hinitial fun hne => absurd rfl hne).trans ?_
    simp only [List.reverse_nil, hchildren]
    constructor
    · rintro ⟨p, ⟨hterm, rfl⟩, hdistance, hle⟩
      exact ⟨hterm, by rw [hdistance, osa_comm], hle⟩
    · rintro ⟨hterm, hdistance, hle⟩
      exact ⟨_, ⟨hterm, rfl⟩, by rw [hdistance, osa_comm], hle⟩

theorem TextIndexSnapshot.Holds.within_nodup (h : index.Holds vocabulary) :
    ((index.withinEditDistance query maxEdits).map Prod.fst).Nodup := by
  have honce : (((index.fuzzyDictionary.map (TrieNode.terms [])).getD []).map Prod.snd).Nodup := by
    refine h.dictionary.nodup.map_on fun e he e' he' heq => ?_
    have hpath := (h.dictionary.mem_terms.mp he).2
    have hpath' := (h.dictionary.mem_terms.mp he').2
    exact Prod.ext (by rw [hpath, hpath', heq]) heq
  unfold withinEditDistance forEachWithinEditDistance
  split
  · exact List.nodup_nil
  · rename_i terminal children hroot
    rw [hroot, Option.map_some, Option.getD_some, TrieNode.terms, List.map_append,
      List.nodup_append] at honce
    exact honce.2.1.sublist (TrieChildren.visit_sublist children)

variable (ops) in
/-- `TrieFuzzyTermExpander` gives the exact expansion. -/
theorem expand_exact (h : index.Holds vocabulary) (hquery : query ≠ []) (hmax : maxEdits ≤ 2) :
    ∃ expansions, expand ops index query maxEdits = .ok expansions ∧
      ExactExpansion ops index query vocabulary maxEdits expansions := by
  let found := (index.withinEditDistance query maxEdits).map fun e =>
    FuzzyExpansion.at ops index query e.1 e.2
  have hmake : (index.withinEditDistance query maxEdits).mapM (FuzzyExpansion.make ops index query) =
      .ok found := by
    refine mapM_eq_map fun ⟨term, distance⟩ hmem => ?_
    obtain ⟨hterm, -, hle⟩ := h.mem_within.mp hmem
    exact make_at ops (fun hnil => h.dictionary.nonempty (hnil ▸ hterm)) (hle.trans hmax)
  refine ⟨found.insertionSort FuzzyExpansion.le, ?_, exact_insertionSort (fun e => ?_) ?_⟩
  · rw [expand, if_neg hquery, if_neg (by omega), hmake]
    rfl
  · rw [List.mem_map]
    constructor
    · rintro ⟨⟨term, distance⟩, hmem, rfl⟩
      obtain ⟨hterm, rfl, hle⟩ := h.mem_within.mp hmem
      exact ⟨term, hterm, hle, rfl⟩
    · rintro ⟨term, hterm, hle, rfl⟩
      exact ⟨(term, _), h.mem_within.mpr ⟨hterm, rfl, hle⟩, rfl⟩
  · rw [List.map_map]
    exact h.within_nodup

theorem visit_unbounded (root : AvlNode JString PostingList) :
    root.visit JString.compareTo none true none true = root.entries := by
  induction root with
  | leaf => rfl
  | node key value left right _ _ _ _ ihl ihr =>
    simp [AvlNode.visit, AvlNode.entries, AvlNode.aboveLower, AvlNode.belowUpper, ihl, ihr]

variable (ops index query) in
/-- One term of the scan: the buffers keep their sizes, and the term is added when it is near. -/
theorem scanTerm_spec (hmax : maxEdits ≤ 2) {scan : VocabularyScan Score}
    (hbuffer : scan.candidatePoints.length = (codePoints query).length + maxEdits)
    {term : JString} (hterm : term ≠ []) :
    ∃ scan', scanTerm ops index query maxEdits scan term = .ok scan' ∧
      scan'.candidatePoints.length = (codePoints query).length + maxEdits ∧
      scan'.expansions = scan.expansions ++
        if osa (codePoints query) (codePoints term) ≤ maxEdits then
          [.at ops index query term (osa (codePoints query) (codePoints term))] else [] := by
  have hlength := length_le_osa (codePoints query) (codePoints term)
  unfold scanTerm
  dsimp only
  split
  · rw [if_neg (by omega), List.append_nil]
    exact ⟨scan, rfl, hbuffer, rfl⟩
  · rename_i hnear
    have hcopy : copyCodePoints term scan.candidatePoints (codePoints term).length =
        .ok (codePoints term ++ scan.candidatePoints.drop (codePoints term).length) := by
      unfold copyCodePoints
      dsimp only
      rw [if_neg (by omega), if_neg (by simp)]
    have hsize : (codePoints term ++
        scan.candidatePoints.drop (codePoints term).length).length =
          (codePoints query).length + maxEdits := by
      rw [List.length_append, List.length_drop]
      omega
    obtain ⟨workspace, hdistance⟩ := BoundedOptimalStringAlignment.distance_eq
      (le_refl (codePoints query).length)
      (show (codePoints term).length ≤ (codePoints term ++
        scan.candidatePoints.drop (codePoints term).length).length by omega) hmax
      scan.distanceWorkspace
    rw [List.take_length, List.take_left] at hdistance
    rw [hcopy]
    simp only [bind, Except.bind, hdistance]
    by_cases hle : osa (codePoints query) (codePoints term) ≤ maxEdits
    · rw [Nat.min_eq_left (by omega), if_neg (by omega), if_pos hle,
        make_at ops hterm (hle.trans hmax)]
      exact ⟨_, rfl, hsize, rfl⟩
    · rw [if_pos (by omega), if_neg hle, List.append_nil]
      exact ⟨_, rfl, hsize, rfl⟩

variable (ops index query) in
/-- The whole scan: the near terms in the order in which the vocabulary lists them. -/
theorem foldlM_scanTerm (hmax : maxEdits ≤ 2) {terms : List JString}
    (hterms : [] ∉ terms) {scan : VocabularyScan Score}
    (hbuffer : scan.candidatePoints.length = (codePoints query).length + maxEdits) :
    ∃ scan' found, terms.foldlM (scanTerm ops index query maxEdits) scan = .ok scan' ∧
      scan'.expansions = scan.expansions ++ found ∧
      (∀ e, e ∈ found ↔ ∃ term ∈ terms, osa (codePoints query) (codePoints term) ≤ maxEdits ∧
        e = .at ops index query term (osa (codePoints query) (codePoints term))) ∧
      (found.map (·.term)).Sublist terms := by
  induction terms generalizing scan with
  | nil => exact ⟨scan, [], rfl, (List.append_nil _).symm, by simp, List.nil_sublist _⟩
  | cons term terms ih =>
    obtain ⟨hterm, hterms⟩ := List.forall_mem_cons.mp fun t ht (hnil : t = []) =>
      hterms (hnil ▸ ht)
    obtain ⟨scan', hscan, hbuffer, hfound⟩ := scanTerm_spec ops index query hmax hbuffer hterm
    obtain ⟨scan'', found, hrest, hexpansions, hmem, hsublist⟩ :=
      ih (fun hnil => hterms _ hnil rfl) hbuffer
    generalize hnew : (if osa (codePoints query) (codePoints term) ≤ maxEdits then
      [FuzzyExpansion.at ops index query term (osa (codePoints query) (codePoints term))]
      else []) = new at hfound
    refine ⟨scan'', new ++ found, ?_, ?_, fun e => ?_, ?_⟩
    · rw [List.foldlM_cons, hscan]
      exact hrest
    · rw [hexpansions, hfound, List.append_assoc]
    · rw [List.mem_append, hmem, List.exists_mem_cons_iff, ← hnew]
      refine or_congr ?_ Iff.rfl
      split <;> simp [*]
    · rw [List.map_append, ← hnew]
      split
      · exact hsublist.cons_cons term
      · exact hsublist.cons term

variable (ops) in
/-- The scan of the vocabulary gives the exact expansion. -/
theorem expandByScan_exact (h : index.Holds vocabulary) (hquery : query ≠ [])
    (hmax : maxEdits ≤ 2) :
    ∃ expansions, expandByScan ops index query maxEdits = .ok expansions ∧
      ExactExpansion ops index query vocabulary maxEdits expansions := by
  have hterms : ∀ term, term ∈ index.forEachTerm ↔ term ∈ vocabulary := by
    intro term
    rw [TextIndexSnapshot.forEachTerm, visit_unbounded]
    exact h.postings term
  have honce : index.forEachTerm.Nodup := by
    rw [TextIndexSnapshot.forEachTerm, visit_unbounded]
    refine List.pairwise_map.mpr (h.ordered.imp fun {a b} hlt heq => ?_)
    have hself : JString.compareTo b.1 b.1 = .eq := Std.ReflCmp.compare_self
    rw [heq, hself] at hlt
    cases hlt
  let started : VocabularyScan Score :=
    ⟨List.replicate ((codePoints query).length + maxEdits) 0, .new, []⟩
  obtain ⟨scan, found, hscan, hexpansions, hmem, hsublist⟩ :=
    foldlM_scanTerm ops index query hmax (fun hnil => h.dictionary.nonempty ((hterms []).mp hnil))
      (show started.candidatePoints.length = _ from List.length_replicate ..)
  refine ⟨_, ?_, exact_insertionSort (fun e => ?_) (honce.sublist hsublist)⟩
  · rw [expandByScan, if_neg hquery, if_neg (by omega)]
    dsimp only
    rw [hscan]
    show Except.ok _ = _
    rw [hexpansions]
    rfl
  · simp only [hmem, hterms]

variable (ops) in
/-- Fuzzy expansion is exact: both expanders give the near terms of the vocabulary in one order, the
rows that siblings share in the walk change nothing, and a comparison gives the distance in either
order of the terms, or one more than the bound. -/
theorem fuzzyExpansion_exact (hindex : index.Holds vocabulary) (hquery : query ≠ [])
    (hmax : maxEdits ≤ 2) :
    (∃ expansions, expand ops index query maxEdits = .ok expansions ∧
      expandByScan ops index query maxEdits = .ok expansions ∧
      ExactExpansion ops index query vocabulary maxEdits expansions) ∧
    forEachWithinEditDistanceIn index.fuzzyDictionary query maxEdits =
      index.withinEditDistance query maxEdits ∧
    ∀ left right, ∃ distance,
      BoundedOptimalStringAlignment.distanceOf left right maxEdits = .ok distance ∧
      BoundedOptimalStringAlignment.distanceOf right left maxEdits = .ok distance ∧
      (osa (codePoints left) (codePoints right) ≤ maxEdits →
        distance = osa (codePoints left) (codePoints right)) ∧
      (distance = maxEdits + 1 ↔ maxEdits < osa (codePoints left) (codePoints right)) := by
  refine ⟨?_, forEachWithinEditDistanceIn_eq _ _ _, fun left right => ?_⟩
  · obtain ⟨expansions, hexpand, hexact⟩ := expand_exact ops hindex hquery hmax
    obtain ⟨scanned, hscan, hexact'⟩ := expandByScan_exact ops hindex hquery hmax
    exact ⟨expansions, hexpand, hexact.unique hexact' ▸ hscan, hexact⟩
  · refine ⟨_, BoundedOptimalStringAlignment.distanceOf_eq left right hmax, ?_, ?_, ?_⟩
    · rw [BoundedOptimalStringAlignment.distanceOf_eq right left hmax, osa_comm]
    · intro hnear
      omega
    · omega

/-- Terms put one after another are stored. -/
theorem stores_foldlM {terms : List JString} {root : Option TrieNode}
    (h : terms.foldlM withTerm none = .ok root) : Stores root terms.toFinset := by
  refine foldlM_ok_induction (P := fun seen root => Stores root seen.toFinset) h stores_empty ?_
  intro seen term root root' hseen hput
  have hterm : term ≠ [] := by
    rintro rfl
    cases hput
  obtain ⟨stored, hstored, hstores⟩ := hseen.withTerm hterm
  obtain rfl := Except.ok.inj (hstored.symm.trans hput)
  have hterms : (seen ++ [term]).toFinset = insert term seen.toFinset := by
    ext t
    simp
  rwa [hterms]

/-- A posting list whose documents begin with the term. -/
def listed (documents : Finset ℕ) : PostingList where
  documents
  positions d := if d ∈ documents then [0] else []
  mem_documents d := by by_cases hd : d ∈ documents <;> simp [hd]
  increasing d := by by_cases hd : d ∈ documents <;> simp [hd]

/-- The terms `abc`, `abd`, `bac`, `bad` and `xyz`. -/
def letterTerms : List JString :=
  [[97, 98, 99], [97, 98, 100], [98, 97, 99], [98, 97, 100], [120, 121, 122]]

def letterIndex : TextIndexSnapshot where
  postings := .node [98, 97, 99] (listed {2})
    (.node [97, 98, 100] (listed {1})
      (.node [97, 98, 99] (listed {0, 1}) .leaf .leaf 2 2 1 1) .leaf 1 3 2 2)
    (.node [120, 121, 122] (listed {3})
      (.node [98, 97, 100] (listed {0}) .leaf .leaf 1 1 1 1) .leaf 1 2 2 2) 1 6 3 5
  fuzzyDictionary := letterTerms.foldl (fun root term => some (.put term (codePoints term) root)) none
  documentLengths := .node (1 : ℕ) 2 (.node (0 : ℕ) 2 .leaf .leaf 2 2 1 1)
    (.node (2 : ℕ) 1 .leaf (.node (3 : ℕ) 1 .leaf .leaf 1 1 1 1) 1 2 2 2) 2 6 3 4
  totalDocumentLength := 6

theorem letterIndex_holds : letterIndex.Holds letterTerms.toFinset where
  dictionary := stores_foldlM (show letterTerms.foldlM withTerm none = .ok _ from rfl)
  postings term := by
    simp only [letterIndex, AvlNode.entries, letterTerms, List.mem_toFinset]
    simp
  ordered := by
    simp only [letterIndex, AvlNode.Ordered, AvlNode.entries]
    decide

theorem fuzzyExpansion_exact_letter :
    (∃ expansions, expand counts letterIndex [97, 98, 99] 2 = .ok expansions ∧
      expandByScan counts letterIndex [97, 98, 99] 2 = .ok expansions ∧
      ExactExpansion counts letterIndex [97, 98, 99] letterTerms.toFinset 2 expansions ∧
      expansions.map (fun e => (e.term, e.editDistance, Storage.setBits e.posting.documents)) =
        [([97, 98, 99], 0, [0, 1]), ([97, 98, 100], 1, [1]), ([98, 97, 99], 1, [2]),
          ([98, 97, 100], 2, [0])]) ∧
    forEachWithinEditDistanceIn letterIndex.fuzzyDictionary [97, 98, 99] 2 =
      letterIndex.withinEditDistance [97, 98, 99] 2 ∧
    BoundedOptimalStringAlignment.distanceOf [97, 98, 99] [120, 121, 122] 2 = .ok 3 ∧
    BoundedOptimalStringAlignment.distanceOf [120, 121, 122] [97, 98, 99] 2 = .ok 3 := by
  obtain ⟨⟨expansions, hexpand, hscan, hexact⟩, hwalk, hdistance⟩ :=
    fuzzyExpansion_exact counts letterIndex_holds (show ([97, 98, 99] : JString) ≠ [] by decide)
      (show 2 ≤ 2 by decide)
  obtain ⟨distance, hfar, hback, -⟩ := hdistance [97, 98, 99] [120, 121, 122]
  obtain rfl : distance = 3 := Except.ok.inj (hfar.symm.trans rfl)
  refine ⟨⟨expansions, hexpand, hscan, hexact, ?_⟩, hwalk, hfar, hback⟩
  have hfound : (expand counts letterIndex [97, 98, 99] 2).map
      (·.map fun e => (e.term, e.editDistance, Storage.setBits e.posting.documents)) =
      .ok [([97, 98, 99], 0, [0, 1]), ([97, 98, 100], 1, [1]), ([98, 97, 99], 1, [2]),
        ([98, 97, 100], 2, [0])] := by rfl
  rw [hexpand] at hfound
  exact Except.ok.inj hfound

end

end GeneralSearch.Ranked
