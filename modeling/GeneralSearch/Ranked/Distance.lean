import GeneralSearch.Lib.Alignment
import GeneralSearch.Ranked.TextIndex
import Mathlib.Data.List.Range

/-! Rows of edit distances.  The walk through the trie and the comparison of two terms fill the same
table: a row holds the distances of one list to the beginnings of another, cut off above the bound,
and only the cells near the diagonal are computed. -/

namespace GeneralSearch.Ranked

open GeneralSearch.Index GeneralSearch.Planner GeneralSearch.Lib

variable {queryPoints path : List ℕ} {maxEdits : ℕ}

/-- The distance to the first `column` points of the query; `path` is read from its end. -/
noncomputable def cost (queryPoints path : List ℕ) (column : ℕ) : ℕ :=
  osa path (queryPoints.take column).reverse

/-- The row of a path: its distances, or one more than the bound. -/
def Row (queryPoints : List ℕ) (maxEdits : ℕ) (path : List ℕ) (row : ℕ → ℕ) : Prop :=
  ∀ column ≤ queryPoints.length, row column = min (cost queryPoints path column) (maxEdits + 1)

/-! ### Cells -/

theorem cost_zero (queryPoints path : List ℕ) : cost queryPoints path 0 = path.length := by
  rw [cost, List.take_zero, List.reverse_nil, osa_nil_right]

theorem cost_nil {column : ℕ} (h : column ≤ queryPoints.length) :
    cost queryPoints [] column = column := by
  rw [cost, osa_nil_left, List.length_reverse, List.length_take, Nat.min_eq_left h]

theorem cost_length (queryPoints path : List ℕ) :
    cost queryPoints path queryPoints.length = osa path.reverse queryPoints := by
  rw [cost, List.take_length, ← osa_reverse, List.reverse_reverse]

/-- Away from the diagonal the lengths alone are further apart than the bound. -/
theorem cost_of_band {column : ℕ} (hcolumn : column ≤ queryPoints.length)
    (h : column + maxEdits < path.length ∨ path.length + maxEdits < column) :
    maxEdits < cost queryPoints path column := by
  have hlength := length_le_osa path (queryPoints.take column).reverse
  rw [List.length_reverse, List.length_take, Nat.min_eq_left hcolumn] at hlength
  unfold cost
  omega

theorem increment_eq {value cost sentinel : ℕ} (h : value = min cost sentinel) :
    increment value sentinel = min (cost + 1) sentinel := by
  unfold increment
  split <;> omega

theorem substitution_eq {value cost replaced sentinel : ℕ} (hreplaced : replaced ≤ 1)
    (h : value = min cost sentinel) :
    (if value ≥ sentinel then sentinel else value + replaced) = min (cost + replaced) sentinel := by
  split <;> omega

theorem min_saturated (a b sentinel : ℕ) :
    min (min a sentinel) (min b sentinel) = min (min a b) sentinel := by
  omega

/-- The reversed beginning of a list, one longer. -/
theorem take_succ_reverse {column : ℕ} (h : column < queryPoints.length) :
    (queryPoints.take (column + 1)).reverse =
      queryPoints[column] :: (queryPoints.take column).reverse := by
  rw [List.take_succ_eq_append_getElem h, List.reverse_append]
  rfl

section

variable {codePoint column : ℕ}

theorem cost_delete_le (path : List ℕ) (codePoint : ℕ) (hcolumn : column < queryPoints.length) :
    cost queryPoints (codePoint :: path) (column + 1) ≤ cost queryPoints path (column + 1) + 1 := by
  unfold cost
  rw [take_succ_reverse hcolumn]
  exact osa_cons_left_le

theorem cost_insert_le (path : List ℕ) (codePoint : ℕ) (hcolumn : column < queryPoints.length) :
    cost queryPoints (codePoint :: path) (column + 1) ≤
      cost queryPoints (codePoint :: path) column + 1 := by
  unfold cost
  rw [take_succ_reverse hcolumn]
  exact osa_cons_right_le

theorem cost_substitute_le (path : List ℕ) (codePoint : ℕ)
    (hcolumn : column < queryPoints.length) :
    cost queryPoints (codePoint :: path) (column + 1) ≤
      cost queryPoints path column + if queryPoints[column]? = some codePoint then 0 else 1 := by
  have h : osa (codePoint :: path) (queryPoints[column] :: (queryPoints.take column).reverse) ≤
      osa path (queryPoints.take column).reverse +
        if codePoint = queryPoints[column] then 0 else 1 := osa_cons_cons_le
  unfold cost
  rw [take_succ_reverse hcolumn]
  simpa [List.getElem?_eq_getElem hcolumn, eq_comm] using h

/-- The condition of the transposition says that two points stand in each other's place. -/
theorem cost_transpose_le {point : ℕ} (path : List ℕ)
    (hcolumn : column + 1 < queryPoints.length) (hfirst : queryPoints[column]? = some codePoint)
    (hsecond : queryPoints[column + 1]? = some point) :
    cost queryPoints (codePoint :: point :: path) (column + 1 + 1) ≤
      cost queryPoints path column + 1 := by
  obtain ⟨_, rfl⟩ := List.getElem?_eq_some_iff.mp hfirst
  obtain ⟨_, rfl⟩ := List.getElem?_eq_some_iff.mp hsecond
  unfold cost
  rw [take_succ_reverse hcolumn, take_succ_reverse (by omega)]
  exact osa_swap_le

/-- The four ways in which a best alignment can end. -/
theorem cost_cases (path : List ℕ) (codePoint : ℕ) (hcolumn : column < queryPoints.length) :
    cost queryPoints (codePoint :: path) (column + 1) = cost queryPoints path (column + 1) + 1 ∨
    cost queryPoints (codePoint :: path) (column + 1) =
      cost queryPoints (codePoint :: path) column + 1 ∨
    cost queryPoints (codePoint :: path) (column + 1) =
      cost queryPoints path column + (if queryPoints[column]? = some codePoint then 0 else 1) ∨
    ∃ point rest before, path = point :: rest ∧ column = before + 1 ∧
      queryPoints[before]? = some codePoint ∧ queryPoints[column]? = some point ∧
      cost queryPoints (codePoint :: path) (column + 1) = cost queryPoints rest before + 1 := by
  unfold cost
  rw [take_succ_reverse hcolumn]
  have h := osa_cons_cons_cases codePoint queryPoints[column] path
    (queryPoints.take column).reverse
  rw [List.getElem?_eq_getElem hcolumn]
  simp only [Option.some.injEq, eq_comm (a := queryPoints[column]) (b := codePoint)]
  rcases h with h | h | h | ⟨rest, beginning, hpath, hbeginning, h⟩
  · exact .inl h
  · exact .inr (.inl h)
  · exact .inr (.inr (.inl h))
  · cases column with
    | zero => simp at hbeginning
    | succ before =>
      rw [take_succ_reverse (by omega)] at hbeginning
      obtain ⟨hpoint, hbeginning⟩ := List.cons.inj hbeginning
      refine .inr (.inr (.inr ⟨_, rest, before, hpath, rfl, ?_, rfl, ?_⟩))
      · rw [List.getElem?_eq_getElem (by omega), hpoint]
      · rw [h, hbeginning]

end

/-- The four ways to a cell are the four ways in which a best alignment can end. -/
theorem distanceCell_eq {codePoint column : ℕ} {twoRowsBack previous current : ℕ → ℕ}
    (hcolumn : column < queryPoints.length)
    (hdeletion : previous (column + 1) =
      min (cost queryPoints path (column + 1)) (maxEdits + 1))
    (hinsertion : current column =
      min (cost queryPoints (codePoint :: path) column) (maxEdits + 1))
    (hsubstitution : previous column = min (cost queryPoints path column) (maxEdits + 1))
    (htransposition : path ≠ [] → ∀ before, column = before + 1 →
      twoRowsBack before = min (cost queryPoints path.tail before) (maxEdits + 1)) :
    distanceCell queryPoints (maxEdits + 1) codePoint path.head? twoRowsBack previous current
      (column + 1) = min (cost queryPoints (codePoint :: path) (column + 1)) (maxEdits + 1) := by
  have hd := cost_delete_le path codePoint hcolumn
  have hi := cost_insert_le path codePoint hcolumn
  have hs := cost_substitute_le path codePoint hcolumn
  have hcases := cost_cases path codePoint hcolumn
  unfold distanceCell
  simp only [Nat.add_sub_cancel, Nat.reduceSubDiff]
  rw [increment_eq hdeletion, increment_eq hinsertion,
    substitution_eq (by split <;> omega) hsubstitution, min_saturated, min_saturated]
  generalize (if queryPoints[column]? = some codePoint then 0 else 1) = replaced at *
  by_cases htransposed : path.head?.isSome ∧ 1 < column + 1 ∧
      queryPoints[column - 1]? = some codePoint ∧ queryPoints[column]? = path.head?
  · rw [if_pos htransposed]
    obtain ⟨hpath, hlater, hfirst, hsecond⟩ := htransposed
    obtain ⟨before, rfl⟩ : ∃ before, column = before + 1 := ⟨column - 1, by omega⟩
    obtain ⟨point, rest, rfl⟩ := List.exists_cons_of_ne_nil (List.isSome_head?.mp hpath)
    have ht := cost_transpose_le rest hcolumn hfirst hsecond
    rw [Nat.add_sub_cancel, increment_eq (htransposition (List.cons_ne_nil _ _) before rfl),
      List.tail_cons, min_saturated, min_assoc, min_self]
    congr 1
    rcases hcases with h | h | h | ⟨_, _, _, heq, hbefore, -, -, h⟩
    · omega
    · omega
    · omega
    · cases heq
      cases hbefore
      omega
  · rw [if_neg htransposed, min_assoc, min_self]
    congr 1
    rcases hcases with h | h | h | ⟨point, rest, before, rfl, rfl, hfirst, hsecond, -⟩
    · omega
    · omega
    · omega
    · exact absurd ⟨rfl, by omega, hfirst, hsecond⟩ htransposed

/-! ### Rows -/

/-- The cells of a row that are computed, one after the other. -/
def fillRow (queryPoints : List ℕ) (sentinel codePoint : ℕ) (previousCodePoint : Option ℕ)
    (twoRowsBack previous : ℕ → ℕ) (columns : List ℕ) (current : ℕ → ℕ) : ℕ → ℕ :=
  columns.foldl
    (fun current column => Function.update current column
      (distanceCell queryPoints sentinel codePoint previousCodePoint twoRowsBack previous current
        column))
    current

section

variable {codePoint : ℕ} {twoRowsBack previous : ℕ → ℕ}

/-- A row is right when it was right outside the columns that are filled. -/
theorem fillRow_row (hprevious : Row queryPoints maxEdits path previous)
    (htwo : path ≠ [] → Row queryPoints maxEdits path.tail twoRowsBack) {first count : ℕ}
    (hfirst : 1 ≤ first) (hlast : first + count ≤ queryPoints.length + 1) {current : ℕ → ℕ}
    (hcurrent : ∀ column ≤ queryPoints.length, column < first ∨ first + count ≤ column →
      current column = min (cost queryPoints (codePoint :: path) column) (maxEdits + 1)) :
    Row queryPoints maxEdits (codePoint :: path)
      (fillRow queryPoints (maxEdits + 1) codePoint path.head? twoRowsBack previous
        (List.range' first count) current) := by
  induction count generalizing first current with
  | zero => exact fun column hcolumn => hcurrent column hcolumn (by omega)
  | succ count ih =>
    rw [List.range'_succ]
    refine ih (by omega) (by omega) fun column hcolumn hrest => ?_
    beta_reduce
    by_cases heq : column = first
    · subst heq
      obtain ⟨before, rfl⟩ : ∃ before, column = before + 1 := ⟨column - 1, by omega⟩
      rw [Function.update_self]
      exact distanceCell_eq (by omega) (hprevious _ hcolumn)
        (hcurrent before (by omega) (by omega)) (hprevious before (by omega))
        fun hpath earlier hbefore => htwo hpath earlier (by omega)
    · rw [Function.update_of_ne heq]
      exact hcurrent column hcolumn (by omega)

/-- The columns near the diagonal are enough, over a row that is above the bound but for its
start. -/
theorem fillBand_row (codePoint : ℕ) (hprevious : Row queryPoints maxEdits path previous)
    (htwo : path ≠ [] → Row queryPoints maxEdits path.tail twoRowsBack) {current : ℕ → ℕ}
    (hcurrent : ∀ column ≤ queryPoints.length,
      current column = if column = 0 then min (path.length + 1) (maxEdits + 1) else maxEdits + 1) :
    Row queryPoints maxEdits (codePoint :: path)
      (fillRow queryPoints (maxEdits + 1) codePoint path.head? twoRowsBack previous
        (List.range' (max 1 (path.length + 1 - maxEdits))
          (min queryPoints.length (path.length + 1 + maxEdits) + 1 -
            max 1 (path.length + 1 - maxEdits)))
        current) := by
  have hband : ∀ column ≤ queryPoints.length, column < max 1 (path.length + 1 - maxEdits) ∨
      min queryPoints.length (path.length + 1 + maxEdits) < column →
      current column = min (cost queryPoints (codePoint :: path) column) (maxEdits + 1) := by
    intro column hcolumn houtside
    rw [hcurrent column hcolumn]
    split
    · subst column
      rw [cost_zero, List.length_cons]
    · have hfar : maxEdits < cost queryPoints (codePoint :: path) column :=
        cost_of_band hcolumn (by rw [List.length_cons]; omega)
      omega
  by_cases hempty : queryPoints.length < max 1 (path.length + 1 - maxEdits)
  · rw [show min queryPoints.length (path.length + 1 + maxEdits) + 1 -
      max 1 (path.length + 1 - maxEdits) = 0 by omega]
    exact fun column hcolumn => hband column hcolumn (by omega)
  · exact fillRow_row hprevious htwo (by omega) (by omega)
      fun column hcolumn houtside => hband column hcolumn (by omega)

/-- The row that the walk computes for a node is that of its path. -/
theorem distanceRow_row (codePoint : ℕ) (hprevious : Row queryPoints maxEdits path previous)
    (htwo : path ≠ [] → Row queryPoints maxEdits path.tail twoRowsBack) :
    Row queryPoints maxEdits (codePoint :: path)
      (distanceRow queryPoints maxEdits (path.length + 1) codePoint path.head? twoRowsBack
        previous).1 := by
  have hfst : (distanceRow queryPoints maxEdits (path.length + 1) codePoint path.head? twoRowsBack
      previous).1 = fillRow queryPoints (maxEdits + 1) codePoint path.head? twoRowsBack previous _ _ :=
    (List.foldl_hom Prod.fst fun _ _ => rfl).symm
  rw [hfst]
  exact fillBand_row codePoint hprevious htwo fun _ _ => rfl

/-- The minimum of a row is no more than any of its cells. -/
theorem distanceRow_snd_le (queryPoints : List ℕ) (maxEdits depth codePoint : ℕ)
    (previousCodePoint : Option ℕ) (twoRowsBack previous : ℕ → ℕ) (column : ℕ) :
    (distanceRow queryPoints maxEdits depth codePoint previousCodePoint twoRowsBack previous).2 ≤
      (distanceRow queryPoints maxEdits depth codePoint previousCodePoint twoRowsBack
        previous).1 column := by
  unfold distanceRow
  dsimp only
  generalize hrow : (fun column => if column = 0 then min depth (maxEdits + 1) else maxEdits + 1,
    min depth (maxEdits + 1)) = row
  have hle : ∀ column, row.2 ≤ row.1 column := by
    subst hrow
    intro column
    dsimp only
    split <;> omega
  clear hrow
  generalize List.range' _ _ = columns
  induction columns generalizing row with
  | nil => exact hle column
  | cons first columns ih =>
    refine ih _ fun column => ?_
    dsimp only
    by_cases heq : column = first
    · subst heq
      rw [Function.update_self]
      exact Nat.min_le_right _ _
    · rw [Function.update_of_ne heq]
      exact (Nat.min_le_left _ _).trans (hle column)

/-- Where a row is above the bound everywhere, so is every row of a longer path. -/
theorem cost_of_row_above {row : ℕ → ℕ} (hrow : Row queryPoints maxEdits path row)
    (habove : ∀ column, maxEdits < row column) (longer : List ℕ) :
    maxEdits < cost queryPoints (longer ++ path) queryPoints.length := by
  have hends : ∀ ending, ending <:+ queryPoints.reverse → maxEdits < osa (longer ++ path) ending := by
    induction longer with
    | nil =>
      rintro ending ⟨start, hending⟩
      have htake : ending = (queryPoints.take ending.length).reverse := by
        have := congrArg List.reverse hending
        rw [List.reverse_reverse, List.reverse_append] at this
        rw [← this, List.take_append_of_le_length (by simp), List.take_of_length_le (by simp),
          List.reverse_reverse]
      have hlength : ending.length ≤ queryPoints.length := by
        have := congrArg List.length hending
        rw [List.length_append, List.length_reverse] at this
        omega
      have h := habove ending.length
      rw [hrow _ hlength, cost, ← htake] at h
      simp only [List.nil_append]
      omega
    | cons point longer ih =>
      intro ending hending
      obtain ⟨shorter, hshorter, hle⟩ := exists_osa_le point (longer ++ path) ending
      exact (ih shorter (hshorter.trans hending)).trans_le hle
  rw [cost, List.take_length]
  exact hends _ List.suffix_rfl

end

/-! ### The walk through the trie -/

mutual

/-- What stands below a node is spelled from the path of the node on. -/
theorem TrieNode.prefix_of_mem {start p : List ℕ} {term : JString} :
    ∀ {n : TrieNode}, (p, term) ∈ n.terms start → start <+: p
  | .node terminal children, hmem => by
    rw [TrieNode.terms] at hmem
    rcases List.mem_append.mp hmem with hmem | hmem
    · rw [Option.mem_toList, Option.map_eq_some_iff] at hmem
      obtain ⟨_, -, heq⟩ := hmem
      cases heq
      exact List.prefix_rfl
    · exact TrieChildren.prefix_of_mem hmem

theorem TrieChildren.prefix_of_mem {start p : List ℕ} {term : JString} :
    ∀ {n : TrieChildren}, (p, term) ∈ n.terms start → start <+: p
  | .nil, hmem => by cases hmem
  | .cons codePoint child rest, hmem => by
    rw [TrieChildren.terms] at hmem
    rcases List.mem_append.mp hmem with hmem | hmem
    · exact (List.prefix_append _ _).trans (TrieNode.prefix_of_mem hmem)
    · exact TrieChildren.prefix_of_mem hmem

end

mutual

/-- The walk gives exactly the terms below the node that are near enough, with their distances. -/
theorem TrieNode.mem_visit_iff {codePoint : ℕ} {path : List ℕ} {twoRowsBack previous : ℕ → ℕ}
    (hprevious : Row queryPoints maxEdits path previous)
    (htwo : path ≠ [] → Row queryPoints maxEdits path.tail twoRowsBack) :
    ∀ {n : TrieNode} {term : JString} {distance : ℕ},
      (term, distance) ∈ n.visit queryPoints maxEdits (path.length + 1) codePoint path.head?
        twoRowsBack previous ↔
      ∃ p, (p, term) ∈ n.terms (codePoint :: path).reverse ∧ distance = osa p queryPoints ∧
        distance ≤ maxEdits
  | .node terminal children, term, distance => by
    have hrow := distanceRow_row codePoint hprevious htwo
    have hlast := hrow _ le_rfl
    rw [cost_length] at hlast
    have hmin := distanceRow_snd_le queryPoints maxEdits (path.length + 1) codePoint path.head?
      twoRowsBack previous
    rw [TrieNode.visit, TrieNode.terms]
    generalize distanceRow queryPoints maxEdits (path.length + 1) codePoint path.head? twoRowsBack
      previous = row at *
    simp only [List.mem_append, or_and_right, exists_or]
    refine or_congr ?_ ?_
    · constructor
      · intro hmem
        split at hmem
        case isFalse => cases hmem
        rw [Option.mem_toList, Option.map_eq_some_iff] at hmem
        obtain ⟨t, rfl, heq⟩ := hmem
        cases heq
        exact ⟨(codePoint :: path).reverse, by simp, by omega, by omega⟩
      · rintro ⟨p, hmem, hdistance, hle⟩
        rw [Option.mem_toList, Option.map_eq_some_iff] at hmem
        obtain ⟨t, rfl, heq⟩ := hmem
        obtain ⟨rfl, rfl⟩ := Prod.mk.inj heq
        have hnear : row.1 queryPoints.length = distance := by omega
        rw [hnear, if_pos hle]
        simp
    · split
      · -- No term below a row above the bound is near enough.
        rename_i habove
        refine iff_of_false List.not_mem_nil ?_
        rintro ⟨p, hmem, hdistance, hle⟩
        obtain ⟨rest, rfl⟩ := TrieChildren.prefix_of_mem hmem
        have hfar := cost_of_row_above hrow (fun column => habove.trans_le (hmin column)) rest.reverse
        rw [cost_length, List.reverse_append, List.reverse_reverse] at hfar
        omega
      · exact TrieChildren.mem_visit_iff hrow fun _ => hprevious

theorem TrieChildren.mem_visit_iff {path : List ℕ} {twoRowsBack previous : ℕ → ℕ}
    (hprevious : Row queryPoints maxEdits path previous)
    (htwo : path ≠ [] → Row queryPoints maxEdits path.tail twoRowsBack) :
    ∀ {n : TrieChildren} {term : JString} {distance : ℕ},
      (term, distance) ∈ n.visit queryPoints maxEdits (path.length + 1) path.head? twoRowsBack
        previous ↔
      ∃ p, (p, term) ∈ n.terms path.reverse ∧ distance = osa p queryPoints ∧ distance ≤ maxEdits
  | .nil, _, _ => by
    rw [TrieChildren.visit, TrieChildren.terms]
    simp
  | .cons codePoint child rest, term, distance => by
    rw [TrieChildren.visit, TrieChildren.terms, List.mem_append,
      TrieNode.mem_visit_iff hprevious htwo, TrieChildren.mem_visit_iff hprevious htwo,
      List.reverse_cons]
    simp only [List.mem_append, or_and_right, exists_or]

end

end GeneralSearch.Ranked
