import GeneralSearch.Index.AvlUpdate
import Mathlib.Algebra.Order.BigOperators.Group.List

/-! `PersistentAvlMap` as a dictionary: over every sequence of updates it is the finite map that the
updates denote, balanced, with exact sizes and weights, and the counts of a range are those of the
entries that a visit of it gives. -/

namespace GeneralSearch.Index

namespace AvlNode

section

variable {K V : Type} {weightFunction : V → ℤ} {key : K} {value : V} {root : AvlNode K V}

/-! ### Ranges -/

theorem Sound.size_eq (h : root.Sound weightFunction) : root.size = root.entries.length := by
  induction root with
  | leaf => rfl
  | node key value left right w a ht s ihl ihr =>
    obtain ⟨hl, hr, -, -, -, hs, -⟩ := h
    rw [size, hs, ihl hl, ihr hr, entries, List.length_append, List.length_cons, Nat.add_assoc]

/-- The weights of entries add up in `long`s, none of which is negative. -/
def weightOf (weightFunction : V → ℤ) (entries : List (K × V)) : ℤ :=
  (entries.map fun e => weightFunction e.2).sum

theorem Sound.aggregateWeight_eq (h : root.Sound weightFunction) :
    (root.aggregateWeight : ℤ) = weightOf weightFunction root.entries := by
  induction root with
  | leaf => rfl
  | node key value left right w a ht s ihl ihr =>
    obtain ⟨hl, hr, hw, ha, -⟩ := h
    have hsum : (a : ℤ) = left.aggregateWeight + (weightFunction value + right.aggregateWeight) := by
      omega
    rw [aggregateWeight, hsum, ihl hl, ihr hr, weightOf, weightOf, weightOf, entries,
      List.map_append, List.map_cons, List.sum_append, List.sum_cons]

variable {compareTo : K → K → Ordering} [Std.TransCmp compareTo] {left right : AvlNode K V}

/-- The entries below a bound: the walk to it takes the left subtree whole or leaves the right one
out. -/
theorem filter_belowUpper {bound : K} {inclusive : Bool} {w a ht s : ℕ}
    (h : (node key value left right w a ht s).Ordered compareTo) :
    (node key value left right w a ht s).entries.filter
        (fun e => belowUpper compareTo (some bound) inclusive e.1) =
      if compareTo key bound = .lt ∨ (inclusive ∧ compareTo key bound = .eq) then
        left.entries ++
          (key, value) :: right.entries.filter fun e =>
            belowUpper compareTo (some bound) inclusive e.1
      else left.entries.filter fun e => belowUpper compareTo (some bound) inclusive e.1 := by
  obtain ⟨hl, hr, hlk, hkr⟩ := Ordered.node_iff.mp h
  have hkey : belowUpper compareTo (some bound) inclusive key = true ↔
      compareTo key bound = .lt ∨ (inclusive ∧ compareTo key bound = .eq) := by
    simp [belowUpper]
  rw [entries, List.filter_append, List.filter_cons]
  by_cases hbelow : belowUpper compareTo (some bound) inclusive key = true
  · rw [if_pos hbelow, if_pos (hkey.mp hbelow)]
    congr 1
    refine List.filter_eq_self.mpr fun e he => ?_
    have hlt := belowUpper_of_lt (hlk e he) hbelow
    simp only [Option.all_some, beq_iff_eq] at hlt
    simp [belowUpper, hlt]
  · rw [if_neg hbelow, if_neg (mt hkey.mpr hbelow)]
    refine List.append_right_eq_self.mpr (List.filter_eq_nil_iff.mpr fun e he hin => hbelow ?_)
    have hlt := belowUpper_of_lt (hkr e he) hin
    simp only [Option.all_some, beq_iff_eq] at hlt
    simp [belowUpper, hlt]

theorem entryCountBefore_eq (h : root.Sound weightFunction) (ho : root.Ordered compareTo)
    {bound : K} {inclusive : Bool} :
    root.entryCountBefore compareTo bound inclusive =
      (root.entries.filter fun e => belowUpper compareTo (some bound) inclusive e.1).length := by
  induction root with
  | leaf => rfl
  | node key value left right w a ht s ihl ihr =>
    obtain ⟨hol, hor, -, -⟩ := Ordered.node_iff.mp ho
    rw [filter_belowUpper ho, entryCountBefore]
    split
    · rw [ihr h.2.1 hor, h.1.size_eq, List.length_append, List.length_cons, Nat.add_right_comm,
        Nat.add_assoc]
    · exact ihl h.1 hol

theorem aggregateWeightBefore_eq (h : root.Sound weightFunction) (ho : root.Ordered compareTo)
    {bound : K} {inclusive : Bool} :
    (root.aggregateWeightBefore compareTo bound inclusive : ℤ) =
      weightOf weightFunction
        (root.entries.filter fun e => belowUpper compareTo (some bound) inclusive e.1) := by
  induction root with
  | leaf => rfl
  | node key value left right w a ht s ihl ihr =>
    obtain ⟨hol, hor, -, -⟩ := Ordered.node_iff.mp ho
    obtain ⟨hl, hr, hw, -⟩ := h
    rw [filter_belowUpper ho, aggregateWeightBefore]
    split
    · rw [Int.natCast_add, Int.natCast_add, ihr hr hor, hl.aggregateWeight_eq, hw, weightOf, weightOf,
        weightOf, List.map_append, List.map_cons, List.sum_append, List.sum_cons, add_assoc]
    · exact ihl hl hol

omit [Std.TransCmp compareTo] in
/-- The walk to a lower bound takes what the visit leaves out below it. -/
theorem not_aboveLower {lower : K} {lowerInclusive : Bool} :
    (!aboveLower compareTo (some lower) lowerInclusive key) =
      belowUpper compareTo (some lower) (!lowerInclusive) key := by
  simp only [aboveLower, belowUpper]
  cases compareTo key lower <;> cases lowerInclusive <;> rfl

omit [Std.TransCmp compareTo] in
@[simp] theorem belowUpper_none {inclusive : Bool} :
    belowUpper compareTo none inclusive key = true := rfl

omit [Std.TransCmp compareTo] in
@[simp] theorem aboveLower_none {inclusive : Bool} :
    aboveLower compareTo none inclusive key = true := rfl

section

variable {lowerBound upperBound : Option K} {lowerInclusive upperInclusive : Bool}

open Std in
/-- In a range that is not empty, what is below the lower bound is below the upper one. -/
theorem belowUpper_of_not_aboveLower
    (hempty : isEmptyRange compareTo lowerBound lowerInclusive upperBound upperInclusive = false)
    (hkey : aboveLower compareTo lowerBound lowerInclusive key = false) :
    belowUpper compareTo upperBound upperInclusive key = true := by
  match lowerBound, upperBound with
  | none, _ => cases hkey
  | some lower, none => rfl
  | some lower, some upper =>
    simp only [isEmptyRange, Bool.or_eq_false_iff, Bool.and_eq_false_iff,
      beq_eq_false_iff_ne] at hempty
    simp only [aboveLower, Bool.or_eq_false_iff, Bool.and_eq_false_iff,
      beq_eq_false_iff_ne] at hkey
    simp only [belowUpper, Bool.or_eq_true, Bool.and_eq_true, beq_iff_eq]
    cases hb : compareTo lower upper with
    | gt => exact absurd hb hempty.1
    | lt =>
      cases hk : compareTo key lower with
      | gt => exact absurd hk hkey.1
      | lt => exact .inl (TransCmp.lt_trans hk hb)
      | eq => exact .inl (TransCmp.lt_of_eq_of_lt hk hb)
    | eq =>
      cases hk : compareTo key lower with
      | gt => exact absurd hk hkey.1
      | lt => exact .inl (TransCmp.lt_of_lt_of_eq hk hb)
      | eq => simp_all

open Std in
/-- Nothing is within an empty range. -/
theorem within_eq_false
    (hempty : isEmptyRange compareTo lowerBound lowerInclusive upperBound upperInclusive = true) :
    within compareTo lowerBound lowerInclusive upperBound upperInclusive key = false := by
  match lowerBound, upperBound with
  | none, _ => cases hempty
  | some lower, none => cases hempty
  | some lower, some upper =>
    by_contra hin
    rw [Bool.not_eq_false, within, Bool.and_eq_true] at hin
    obtain ⟨habove, hbelow⟩ := hin
    simp only [isEmptyRange, Bool.or_eq_true, Bool.and_eq_true, beq_iff_eq] at hempty
    simp only [aboveLower, Bool.or_eq_true, Bool.and_eq_true, beq_iff_eq] at habove
    simp only [belowUpper, Bool.or_eq_true, Bool.and_eq_true, beq_iff_eq] at hbelow
    have hlt : compareTo lower upper ≠ .lt := by
      rcases hempty with hgt | ⟨heq, -⟩ <;> simp [*]
    obtain habove | ⟨hli, habove⟩ := habove
    · have hlow := OrientedCmp.lt_of_gt habove
      obtain hbelow | ⟨-, hbelow⟩ := hbelow
      · exact hlt (TransCmp.lt_trans hlow hbelow)
      · exact hlt (TransCmp.lt_of_lt_of_eq hlow hbelow)
    · have hlow := OrientedCmp.eq_symm habove
      obtain hbelow | ⟨hui, hbelow⟩ := hbelow
      · exact hlt (TransCmp.lt_of_eq_of_lt hlow hbelow)
      · have heq : compareTo lower upper = .eq := TransCmp.eq_trans hlow hbelow
        simp [heq, hli, hui] at hempty

/-- In a range that is not empty, the entries below the upper bound are those of the range and those
below the lower bound. -/
theorem weightOf_belowUpper {entries : List (K × V)} {weight : V → ℤ}
    (hempty : isEmptyRange compareTo lowerBound lowerInclusive upperBound upperInclusive = false) :
    weightOf weight (entries.filter fun e => belowUpper compareTo upperBound upperInclusive e.1) =
      weightOf weight (entries.filter fun e =>
          within compareTo lowerBound lowerInclusive upperBound upperInclusive e.1) +
        weightOf weight
          (entries.filter fun e => !aboveLower compareTo lowerBound lowerInclusive e.1) := by
  induction entries with
  | nil => rfl
  | cons e rest ih =>
    simp only [weightOf, List.filter_cons] at ih ⊢
    cases habove : aboveLower compareTo lowerBound lowerInclusive e.1 with
    | false =>
      rw [within, habove, belowUpper_of_not_aboveLower hempty habove]
      simp only [Bool.false_and, Bool.not_false, if_true, Bool.false_eq_true, if_false,
        List.map_cons, List.sum_cons, ih]
      omega
    | true =>
      rw [within, habove, Bool.true_and]
      split
      · simp only [Bool.not_true, Bool.false_eq_true, if_false, List.map_cons, List.sum_cons, ih]
        omega
      · simp only [Bool.not_true, Bool.false_eq_true, if_false, ih]

theorem weightOf_one {entries : List (K × V)} :
    weightOf (fun _ => 1) entries = entries.length := by
  simp [weightOf]

/-- What is between the walks to the two bounds, when the range is not empty. -/
theorem weightOf_within {weight : V → ℤ} {upperWeight lowerWeight : ℕ}
    (hnonneg : ∀ e ∈ root.entries, 0 ≤ weight e.2)
    (hempty : ¬isEmptyRange compareTo lowerBound lowerInclusive upperBound upperInclusive = true)
    (hupper : (upperWeight : ℤ) = weightOf weight
      (root.entries.filter fun e => belowUpper compareTo upperBound upperInclusive e.1))
    (hlower : (lowerWeight : ℤ) = weightOf weight
      (root.entries.filter fun e => !aboveLower compareTo lowerBound lowerInclusive e.1)) :
    lowerWeight ≤ upperWeight ∧ ((upperWeight - lowerWeight : ℕ) : ℤ) =
      weightOf weight (root.entries.filter fun e =>
        within compareTo lowerBound lowerInclusive upperBound upperInclusive e.1) := by
  have hsum := @weightOf_belowUpper _ _ _ _ _ _ _ _ root.entries weight
    ((Bool.not_eq_true _).mp hempty)
  have hle : 0 ≤ weightOf weight (root.entries.filter fun e =>
      within compareTo lowerBound lowerInclusive upperBound upperInclusive e.1) := by
    refine List.sum_nonneg fun w hw => ?_
    obtain ⟨e, he, rfl⟩ := List.mem_map.mp hw
    exact hnonneg e (List.mem_of_mem_filter he)
  omega

theorem Sound.weight_nonneg (h : root.Sound weightFunction) :
    ∀ e ∈ root.entries, 0 ≤ weightFunction e.2 := by
  induction root with
  | leaf => simp [entries]
  | node key value left right w a ht s ihl ihr =>
    obtain ⟨hl, hr, hw, -⟩ := h
    rw [entries, List.forall_mem_append, List.forall_mem_cons]
    exact ⟨ihl hl, hw ▸ Int.natCast_nonneg w, ihr hr⟩

/-- The aggregate weight of a range is the weight of the entries that a visit gives. -/
theorem aggregateWeightInRange_eq (h : root.Sound weightFunction) (ho : root.Ordered compareTo) :
    (root.aggregateWeightInRange compareTo lowerBound lowerInclusive upperBound upperInclusive
        : ℤ) =
      weightOf weightFunction
        (root.visit compareTo lowerBound lowerInclusive upperBound upperInclusive) := by
  rw [visit_eq_filter ho]
  unfold aggregateWeightInRange
  split
  · next hempty =>
    rw [List.filter_eq_nil_iff.mpr fun e _ => by rw [within_eq_false hempty]; decide]
    rfl
  · next hempty =>
    refine (weightOf_within h.weight_nonneg hempty ?_ ?_).2
    · cases upperBound with
      | none => simp [h.aggregateWeight_eq]
      | some upper => exact aggregateWeightBefore_eq h ho
    · cases lowerBound with
      | none => simp [weightOf]
      | some lower => simp only [not_aboveLower]; exact aggregateWeightBefore_eq h ho

/-- The entry count of a range is the number of entries that a visit gives. -/
theorem entryCountInRange_eq (h : root.Sound weightFunction) (ho : root.Ordered compareTo) :
    root.entryCountInRange compareTo lowerBound lowerInclusive upperBound upperInclusive =
      (root.visit compareTo lowerBound lowerInclusive upperBound upperInclusive).length := by
  rw [visit_eq_filter ho]
  unfold entryCountInRange
  split
  · next hempty =>
    rw [List.filter_eq_nil_iff.mpr fun e _ => by rw [within_eq_false hempty]; decide]
    rfl
  · next hempty =>
    rw [← Int.natCast_inj, ← weightOf_one]
    refine (weightOf_within (fun _ _ => by decide) hempty ?_ ?_).2
    · rw [weightOf_one, Int.natCast_inj]
      cases upperBound with
      | none => simp [h.size_eq]
      | some upper => exact entryCountBefore_eq h ho
    · rw [weightOf_one, Int.natCast_inj]
      cases lowerBound with
      | none => simp
      | some lower => simp only [not_aboveLower]; exact entryCountBefore_eq h ho

end

/-! ### Sequences of updates -/

/-- The height as it is, not as it is cached. -/
def depth : AvlNode K V → ℕ
  | leaf => 0
  | node _ _ left right .. => max left.depth right.depth + 1

/-- Sibling heights differ by at most one. -/
def Balanced : AvlNode K V → Prop
  | leaf => True
  | node _ _ left right .. =>
    left.Balanced ∧ right.Balanced ∧ left.depth ≤ right.depth + 1 ∧ right.depth ≤ left.depth + 1

theorem Sound.height_eq (h : root.Sound weightFunction) : root.height = root.depth := by
  induction root with
  | leaf => rfl
  | node key value left right w a ht s ihl ihr =>
    obtain ⟨hl, hr, -, -, hht, -⟩ := h
    rw [height_node, hht, ihl hl, ihr hr, depth]

theorem Sound.balanced (h : root.Sound weightFunction) : root.Balanced := by
  induction root with
  | leaf => trivial
  | node key value left right w a ht s ihl ihr =>
    obtain ⟨hl, hr, -, -, -, -, hlr, hrl⟩ := h
    rw [hl.height_eq, hr.height_eq] at hlr hrl
    exact ⟨ihl hl, ihr hr, hlr, hrl⟩

end

end AvlNode

/-- An update of a dictionary: `with` or `without`. -/
inductive AvlChange (K V : Type) where
  | put (key : K) (value : V)
  | remove (key : K)

namespace AvlChange

variable {K V : Type}

section

variable (compareTo : K → K → Ordering)

/-- `PersistentAvlMap.with` and `PersistentAvlMap.without`. -/
def apply [BEq V] (weightFunction : V → ℤ) (root : AvlNode K V) :
    AvlChange K V → Except AvlError (AvlNode K V)
  | put key value => (·.getD root) <$> root.put weightFunction compareTo key value
  | remove key => (·.getD root) <$> root.remove weightFunction compareTo key

/-- The finite map after an update: keys that compare as equal are one key. -/
def denote (map : K → Option V) (change : AvlChange K V) (other : K) : Option V :=
  match change with
  | put key value => if compareTo other key = .eq then some value else map other
  | remove key => if compareTo other key = .eq then none else map other

end

variable {compareTo : K → K → Ordering} [Std.TransCmp compareTo] [BEq V]
  {weightFunction : V → ℤ} {root root' : AvlNode K V}

open Lib AvlNode

/-- What an update does to the entries, and what it keeps. -/
theorem yields_apply {change : AvlChange K V} (h : root.Sound weightFunction)
    (ho : root.Ordered compareTo) :
    Yields (change.apply compareTo weightFunction root)
      (fun root' => root'.Sound weightFunction ∧ root'.entries =
        match change with
        | put key value => replaceEntry compareTo key (supersede value) root.entries
        | remove key => eraseEntry compareTo key root.entries) Thrown := by
  cases change with
  | put key value => exact (yields_put h ho).map fun _ hupdated => ⟨hupdated.sound, hupdated.entries⟩
  | remove key => exact (yields_remove h ho).map fun _ hupdated => ⟨hupdated.sound, hupdated.entries⟩

variable [ReflBEq V]

/-- The tree holds the map. -/
structure Holds (compareTo : K → K → Ordering) (weightFunction : V → ℤ) (map : K → Option V)
    (root : AvlNode K V) : Prop where
  sound : root.Sound weightFunction
  ordered : root.Ordered compareTo
  lookup : ∀ key, Option.Rel (fun a b => (a == b) = true) (lookup compareTo key root.entries)
    (map key)

theorem Holds.apply {map : K → Option V} {change : AvlChange K V}
    (h : Holds compareTo weightFunction map root)
    (happly : change.apply compareTo weightFunction root = .ok root') :
    Holds compareTo weightFunction (change.denote compareTo map) root' := by
  obtain ⟨hsound, hentries⟩ := (yields_apply h.sound h.ordered).ok happly
  cases change with
  | put key value =>
    refine ⟨hsound, ?_, fun other => ?_⟩
    · rw [Ordered, hentries]
      exact Sorted.replaceEntry h.ordered
    · rw [hentries, lookup_replaceEntry h.ordered, denote]
      split
      · refine .some ?_
        cases Lib.lookup compareTo key root.entries with
        | none => exact BEq.rfl
        | some present =>
          rw [supersede]
          split
          · assumption
          · exact BEq.rfl
      · exact h.lookup other
  | remove key =>
    refine ⟨hsound, ?_, fun other => ?_⟩
    · rw [Ordered, hentries]
      exact Sorted.eraseEntry h.ordered
    · rw [hentries, lookup_eraseEntry h.ordered, denote]
      split
      · exact .none
      · exact h.lookup other

/-- Every sequence of updates from the empty dictionary gives the map that the updates denote. -/
theorem holds_of_foldlM {changes : List (AvlChange K V)}
    (h : changes.foldlM (fun root change => change.apply compareTo weightFunction root)
      .leaf = .ok root) :
    Holds compareTo weightFunction
      (changes.foldl (fun map change => change.denote compareTo map) fun _ => none) root := by
  refine foldlM_ok_induction (P := fun seen root => Holds compareTo weightFunction
    (seen.foldl (fun map change => change.denote compareTo map) fun _ => none) root) h ?_ ?_
  · exact ⟨trivial, .nil, fun _ => .none⟩
  · intro seen change root root' hseen happly
    rw [List.foldl_concat]
    exact hseen.apply happly

/-- The changes of a buffer: what has become empty goes, the rest is put. -/
def ofEntry (isEmpty : V → Bool) (entry : K × V) : AvlChange K V :=
  if isEmpty entry.2 then remove entry.1 else put entry.1 entry.2

/-- What a buffered value leaves under its key. -/
def buffered (isEmpty : V → Bool) (found present : Option V) : Option V :=
  match found with
  | none => present
  | some value => if isEmpty value then none else some value

/-- A buffer written through changes the map at its own keys, in whatever order it goes. -/
theorem Holds.foldlM_ofEntry {map : K → Option V} {isEmpty : V → Bool} {same : K → K → Bool}
    (hsame : ∀ a b, same a b = true ↔ compareTo a b = .eq) {order : List (K × V)}
    (hequiv : Equivalence fun a b => same a b = true) (hdistinct : Distinct same order)
    (h : Holds compareTo weightFunction map root)
    (hfold : order.foldlM (fun root entry => (ofEntry isEmpty entry).apply compareTo weightFunction
      root) root = .ok root') :
    Holds compareTo weightFunction
      (fun key => buffered isEmpty (find same key order) (map key)) root' := by
  induction order generalizing root map with
  | nil =>
    cases hfold
    exact h
  | cons entry order ih =>
    obtain ⟨hhead, htail⟩ := List.pairwise_cons.mp hdistinct
    rw [List.foldlM_cons] at hfold
    obtain ⟨next, hnext, hrest⟩ := bind_eq_ok.mp hfold
    have hmap := ih htail (h.apply hnext) hrest
    have hfun : (fun key => buffered isEmpty (find same key order)
        ((ofEntry isEmpty entry).denote compareTo map key)) =
        fun key => buffered isEmpty (find same key (entry :: order)) (map key) := by
      funext key
      rw [find]
      by_cases hkey : same key entry.1 = true
      · rw [if_pos hkey, find_eq_none hequiv hhead hkey, buffered, buffered, ofEntry]
        split <;> rw [denote, if_pos ((hsame _ _).mp hkey)]
      · have hne : compareTo key entry.1 ≠ .eq := mt (hsame _ _).mpr hkey
        rw [if_neg hkey, ofEntry]
        split <;> rw [denote, if_neg hne]
    rwa [hfun] at hmap

omit [Std.TransCmp compareTo] [ReflBEq V] in
theorem Holds.lookup_eq [LawfulBEq V] {map : K → Option V}
    (h : Holds compareTo weightFunction map root) (key : K) :
    Lib.lookup compareTo key root.entries = map key := by
  have hrel := h.lookup key
  revert hrel
  generalize Lib.lookup compareTo key root.entries = found, map key = expected
  intro hrel
  cases hrel with
  | some heq => rw [eq_of_beq heq]
  | none => rfl

omit [ReflBEq V] in
theorem Holds.get_eq [LawfulBEq V] {map : K → Option V}
    (h : Holds compareTo weightFunction map root) (key : K) :
    root.get compareTo key = map key := by
  rw [get_eq_lookup h.ordered, h.lookup_eq]

omit [ReflBEq V] in
/-- Trees of one map have the same values in the same order, under keys that compare as equal. -/
theorem Holds.forall₂ [LawfulBEq V] {map : K → Option V}
    (h : Holds compareTo weightFunction map root) (h' : Holds compareTo weightFunction map root') :
    List.Forall₂ (fun e e' => compareTo e.1 e'.1 = .eq ∧ e.2 = e'.2) root.entries root'.entries :=
  Sorted.forall₂ h.ordered h'.ordered fun key => by rw [h.lookup_eq, h'.lookup_eq]

omit [ReflBEq V] in
/-- No update of a dictionary dereferences a child that is not there. -/
theorem Holds.apply_ne_nullPointer {map : K → Option V} {change : AvlChange K V}
    (h : Holds compareTo weightFunction map root) :
    change.apply compareTo weightFunction root ≠ .error .nullPointer :=
  fun hthrow => (yields_apply h.sound h.ordered).error hthrow rfl

/-- After every sequence of updates from the empty dictionary, it is an ordered dictionary of the
map that the updates denote, balanced, with exact sizes and weights, and its range counts are those
of the entries that a visit gives. -/
theorem dictionary_of_foldlM {changes : List (AvlChange K V)}
    (h : changes.foldlM (fun root change => change.apply compareTo weightFunction root)
      .leaf = .ok root) :
    (∀ key, Option.Rel (fun a b => (a == b) = true) (root.get compareTo key)
      (changes.foldl (fun map change => change.denote compareTo map) (fun _ => none) key)) ∧
    root.Ordered compareTo ∧ root.Balanced ∧ root.Sound weightFunction ∧
    root.size = root.entries.length ∧
    (root.aggregateWeight : ℤ) = weightOf weightFunction root.entries ∧
    ∀ lowerBound lowerInclusive upperBound upperInclusive,
      root.visit compareTo lowerBound lowerInclusive upperBound upperInclusive =
        root.entries.filter (fun e =>
          within compareTo lowerBound lowerInclusive upperBound upperInclusive e.1) ∧
      root.entryCountInRange compareTo lowerBound lowerInclusive upperBound upperInclusive =
        (root.visit compareTo lowerBound lowerInclusive upperBound upperInclusive).length ∧
      (root.aggregateWeightInRange compareTo lowerBound lowerInclusive upperBound upperInclusive
          : ℤ) =
        weightOf weightFunction
          (root.visit compareTo lowerBound lowerInclusive upperBound upperInclusive) := by
  obtain ⟨hsound, hordered, hlookup⟩ := holds_of_foldlM h
  refine ⟨fun key => ?_, hordered, hsound.balanced, hsound, hsound.size_eq,
    hsound.aggregateWeight_eq, fun _ _ _ _ => ⟨visit_eq_filter hordered,
      entryCountInRange_eq hsound hordered, aggregateWeightInRange_eq hsound hordered⟩⟩
  rw [get_eq_lookup hordered]
  exact hlookup key

/-- A root with two children goes, and its successor takes its place. -/
theorem dictionary_of_foldlM_successor :
    ∃ root : AvlNode ℕ ℕ,
      [put 1 10, put 2 20, put 3 30, put 4 40, remove 2].foldlM
        (fun root change => change.apply compare (fun value : ℕ => (value : ℤ)) root) .leaf =
          .ok root ∧
      root.entries = [(1, 10), (3, 30), (4, 40)] ∧ root.Balanced ∧
      (root.aggregateWeightInRange compare (some 1) false none true : ℤ) =
        weightOf (fun value : ℕ => (value : ℤ)) (root.visit compare (some 1) false none true) := by
  have hrun : [put 1 10, put 2 20, put 3 30, put 4 40, remove 2].foldlM
      (fun root change => change.apply compare (fun value : ℕ => (value : ℤ)) root) .leaf =
        .ok (.node 3 30 (.node 1 10 .leaf .leaf 10 10 1 1) (.node 4 40 .leaf .leaf 40 40 1 1)
          30 80 2 3) := rfl
  have hdictionary := dictionary_of_foldlM hrun
  exact ⟨_, hrun, rfl, hdictionary.2.2.1, (hdictionary.2.2.2.2.2.2 _ _ _ _).2.2⟩

end AvlChange

end GeneralSearch.Index
