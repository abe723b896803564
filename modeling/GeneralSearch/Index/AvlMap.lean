import GeneralSearch.Lib.Association

/-! The read side of `PersistentAvlMap`: lookups, ordered visits of a key range, and the counts that
the planner's estimates use.  A node caches the weight of its value, the aggregate weight, the
height and the size of its subtree. -/

namespace GeneralSearch.Index

/-- `PersistentAvlMap.Node`, with `leaf` for `null`. -/
inductive AvlNode (K V : Type) where
  | leaf
  | node (key : K) (value : V) (left right : AvlNode K V)
      (weight aggregateWeight height size : ℕ)

namespace AvlNode

variable {K V : Type}

/-- The entries in key order. -/
def entries : AvlNode K V → List (K × V)
  | leaf => []
  | node key value left right .. => left.entries ++ (key, value) :: right.entries

def size : AvlNode K V → ℕ
  | leaf => 0
  | node _ _ _ _ _ _ _ size => size

def aggregateWeight : AvlNode K V → ℕ
  | leaf => 0
  | node _ _ _ _ _ aggregateWeight _ _ => aggregateWeight

section

variable (compareTo : K → K → Ordering)

/-- `PersistentAvlMap.get`. -/
def get (key : K) : AvlNode K V → Option V
  | leaf => none
  | node nodeKey value left right .. =>
    match compareTo key nodeKey with
    | .eq => some value
    | .lt => left.get key
    | .gt => right.get key

/-- `PersistentAvlMap.aggregateWeightBefore`. -/
def aggregateWeightBefore (bound : K) (inclusive : Bool) : AvlNode K V → ℕ
  | leaf => 0
  | node key _ left right weight .. =>
    if compareTo key bound = .lt ∨ (inclusive ∧ compareTo key bound = .eq) then
      left.aggregateWeight + weight + right.aggregateWeightBefore bound inclusive
    else left.aggregateWeightBefore bound inclusive

/-- `PersistentAvlMap.entryCountBefore`. -/
def entryCountBefore (bound : K) (inclusive : Bool) : AvlNode K V → ℕ
  | leaf => 0
  | node key _ left right .. =>
    if compareTo key bound = .lt ∨ (inclusive ∧ compareTo key bound = .eq) then
      left.size + 1 + right.entryCountBefore bound inclusive
    else left.entryCountBefore bound inclusive

/-- `PersistentAvlMap.isEmptyRange`. -/
def isEmptyRange (lowerBound : Option K) (lowerInclusive : Bool) (upperBound : Option K)
    (upperInclusive : Bool) : Bool :=
  match lowerBound, upperBound with
  | some lower, some upper => compareTo lower upper == .gt ||
      (compareTo lower upper == .eq && (!lowerInclusive || !upperInclusive))
  | _, _ => false

/-- `PersistentAvlMap.aggregateWeightInRange`. -/
def aggregateWeightInRange (lowerBound : Option K) (lowerInclusive : Bool)
    (upperBound : Option K) (upperInclusive : Bool) (root : AvlNode K V) : ℕ :=
  if isEmptyRange compareTo lowerBound lowerInclusive upperBound upperInclusive then 0
  else
    (match upperBound with
      | none => root.aggregateWeight
      | some upper => root.aggregateWeightBefore compareTo upper upperInclusive) -
    (match lowerBound with
      | none => 0
      | some lower => root.aggregateWeightBefore compareTo lower !lowerInclusive)

/-- `PersistentAvlMap.entryCountInRange`. -/
def entryCountInRange (lowerBound : Option K) (lowerInclusive : Bool)
    (upperBound : Option K) (upperInclusive : Bool) (root : AvlNode K V) : ℕ :=
  if isEmptyRange compareTo lowerBound lowerInclusive upperBound upperInclusive then 0
  else
    (match upperBound with
      | none => root.size
      | some upper => root.entryCountBefore compareTo upper upperInclusive) -
    (match lowerBound with
      | none => 0
      | some lower => root.entryCountBefore compareTo lower !lowerInclusive)

/-- The key is not below the lower bound. -/
def aboveLower (lowerBound : Option K) (lowerInclusive : Bool) (key : K) : Bool :=
  match lowerBound with
  | none => true
  | some lower => compareTo key lower == .gt || (lowerInclusive && compareTo key lower == .eq)

/-- The key is not above the upper bound. -/
def belowUpper (upperBound : Option K) (upperInclusive : Bool) (key : K) : Bool :=
  match upperBound with
  | none => true
  | some upper => compareTo key upper == .lt || (upperInclusive && compareTo key upper == .eq)

/-- `PersistentAvlMap.visit`: the entries that the consumer gets, in their order. -/
def visit (lowerBound : Option K) (lowerInclusive : Bool) (upperBound : Option K)
    (upperInclusive : Bool) : AvlNode K V → List (K × V)
  | leaf => []
  | node key value left right .. =>
    (if lowerBound.all fun lower => compareTo key lower == .gt then
      left.visit lowerBound lowerInclusive upperBound upperInclusive else []) ++
    (if aboveLower compareTo lowerBound lowerInclusive key &&
        belowUpper compareTo upperBound upperInclusive key then [(key, value)] else []) ++
    (if upperBound.all fun upper => compareTo key upper == .lt then
      right.visit lowerBound lowerInclusive upperBound upperInclusive else [])

/-- The keys increase strictly in key order. -/
def Ordered (root : AvlNode K V) : Prop :=
  root.entries.Pairwise fun a b => compareTo a.1 b.1 = .lt

end

variable {compareTo : K → K → Ordering} [Std.TransCmp compareTo]

open Std in
theorem Ordered.node_iff {key : K} {value : V} {left right : AvlNode K V} {w a h s : ℕ} :
    (node key value left right w a h s).Ordered compareTo ↔
      left.Ordered compareTo ∧ right.Ordered compareTo ∧
        (∀ e ∈ left.entries, compareTo e.1 key = .lt) ∧
        ∀ e ∈ right.entries, compareTo key e.1 = .lt := by
  simp only [Ordered, entries, List.pairwise_append, List.pairwise_cons, List.mem_cons,
    forall_eq_or_imp]
  constructor
  · rintro ⟨hl, ⟨hkr, hr⟩, hlr⟩
    exact ⟨hl, hr, fun e he => (hlr e he).1, hkr⟩
  · rintro ⟨hl, hr, hlk, hkr⟩
    exact ⟨hl, ⟨hkr, hr⟩, fun e he =>
      ⟨hlk e he, fun e' he' => TransCmp.lt_trans (hlk e he) (hkr e' he')⟩⟩

open Std in
/-- Below a key that is not smaller, the left subtree is. -/
theorem Ordered.left_gt {key nodeKey : K} {left : AvlNode K V}
    (h : ∀ e ∈ left.entries, compareTo e.1 nodeKey = .lt) (hkey : compareTo key nodeKey ≠ .lt) :
    ∀ e ∈ left.entries, compareTo key e.1 = .gt := by
  intro e he
  apply OrientedCmp.gt_of_lt
  cases hc : compareTo key nodeKey with
  | lt => exact absurd hc hkey
  | eq => exact TransCmp.lt_of_lt_of_eq (h e he) (OrientedCmp.eq_symm hc)
  | gt => exact TransCmp.lt_trans (h e he) (OrientedCmp.lt_of_gt hc)

/-- A lookup in the tree is one in its entries. -/
theorem get_eq_lookup {root : AvlNode K V} (h : root.Ordered compareTo) {key : K} :
    root.get compareTo key = Lib.lookup compareTo key root.entries := by
  induction root with
  | leaf => rfl
  | node nodeKey nodeValue left right w a ht s ihl ihr =>
    obtain ⟨hl, hr, hlk, hkr⟩ := Ordered.node_iff.mp h
    rw [get, entries]
    cases hc : compareTo key nodeKey with
    | lt => rw [Lib.lookup_append_cons_lt hc hkr, ihl hl]
    | eq => rw [Lib.lookup_append (Ordered.left_gt hlk (by rw [hc]; decide)), Lib.lookup, if_pos hc]
    | gt =>
      rw [Lib.lookup_append (Ordered.left_gt hlk (by rw [hc]; decide)), Lib.lookup,
        if_neg (by rw [hc]; decide), ihr hr]

/-- A lookup finds the entry whose key compares as equal. -/
theorem get_eq_some_iff {root : AvlNode K V} (h : root.Ordered compareTo) {key : K} {value : V} :
    root.get compareTo key = some value ↔
      ∃ k, (k, value) ∈ root.entries ∧ compareTo key k = .eq := by
  rw [get_eq_lookup h, Lib.lookup_eq_some_iff h]

open Std in
theorem aboveLower_of_lt {lowerBound : Option K} {inclusive : Bool} {k key : K}
    (h : compareTo k key = .lt) (habove : aboveLower compareTo lowerBound inclusive k = true) :
    lowerBound.all (fun lower => compareTo key lower == .gt) = true := by
  cases lowerBound with
  | none => rfl
  | some lower =>
    simp only [Option.all_some, beq_iff_eq]
    simp only [aboveLower, Bool.or_eq_true, beq_iff_eq, Bool.and_eq_true] at habove
    apply OrientedCmp.gt_of_lt
    rcases habove with hgt | ⟨-, heq⟩
    · exact TransCmp.lt_trans (OrientedCmp.lt_of_gt hgt) h
    · exact TransCmp.lt_of_eq_of_lt (OrientedCmp.eq_symm heq) h

open Std in
theorem belowUpper_of_lt {upperBound : Option K} {inclusive : Bool} {k key : K}
    (h : compareTo key k = .lt) (hbelow : belowUpper compareTo upperBound inclusive k = true) :
    upperBound.all (fun upper => compareTo key upper == .lt) = true := by
  cases upperBound with
  | none => rfl
  | some upper =>
    simp only [Option.all_some, beq_iff_eq]
    simp only [belowUpper, Bool.or_eq_true, beq_iff_eq, Bool.and_eq_true] at hbelow
    rcases hbelow with hlt | ⟨-, heq⟩
    · exact TransCmp.lt_trans h hlt
    · exact TransCmp.lt_of_lt_of_eq h heq

/-- Whether a key is within both bounds. -/
def within (compareTo : K → K → Ordering) (lowerBound : Option K) (lowerInclusive : Bool)
    (upperBound : Option K) (upperInclusive : Bool) (key : K) : Bool :=
  aboveLower compareTo lowerBound lowerInclusive key &&
    belowUpper compareTo upperBound upperInclusive key

section

variable {lowerBound : Option K} {lowerInclusive : Bool} {upperBound : Option K}
  {upperInclusive : Bool}

/-- A visit gives the entries of the range in their order: a subtree that it skips has none of
them. -/
theorem visit_eq_filter {root : AvlNode K V} (h : root.Ordered compareTo) :
    root.visit compareTo lowerBound lowerInclusive upperBound upperInclusive =
      root.entries.filter fun e =>
        within compareTo lowerBound lowerInclusive upperBound upperInclusive e.1 := by
  induction root with
  | leaf => rfl
  | node key value left right w a ht s ihl ihr =>
    obtain ⟨hl, hr, hlk, hkr⟩ := Ordered.node_iff.mp h
    have hleft : (if lowerBound.all fun lower => compareTo key lower == .gt then
        left.visit compareTo lowerBound lowerInclusive upperBound upperInclusive else []) =
        left.entries.filter fun e =>
          within compareTo lowerBound lowerInclusive upperBound upperInclusive e.1 := by
      split
      · exact ihl hl
      · next hskip =>
        refine (List.filter_eq_nil_iff.mpr fun e he hin => hskip ?_).symm
        exact aboveLower_of_lt (hlk e he) (Bool.and_eq_true_iff.mp hin).1
    have hright : (if upperBound.all fun upper => compareTo key upper == .lt then
        right.visit compareTo lowerBound lowerInclusive upperBound upperInclusive else []) =
        right.entries.filter fun e =>
          within compareTo lowerBound lowerInclusive upperBound upperInclusive e.1 := by
      split
      · exact ihr hr
      · next hskip =>
        refine (List.filter_eq_nil_iff.mpr fun e he hin => hskip ?_).symm
        exact belowUpper_of_lt (hkr e he) (Bool.and_eq_true_iff.mp hin).2
    rw [visit, hleft, hright, entries, List.filter_append, List.filter_cons, List.append_assoc]
    unfold within
    split <;> rfl

theorem mem_visit {root : AvlNode K V} (h : root.Ordered compareTo) {e : K × V} :
    e ∈ root.visit compareTo lowerBound lowerInclusive upperBound upperInclusive ↔
      e ∈ root.entries ∧ aboveLower compareTo lowerBound lowerInclusive e.1 = true ∧
        belowUpper compareTo upperBound upperInclusive e.1 = true := by
  rw [visit_eq_filter h, List.mem_filter, within, Bool.and_eq_true]

end

end AvlNode

end GeneralSearch.Index
