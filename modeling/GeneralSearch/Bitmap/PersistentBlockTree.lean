import Mathlib.Data.Fin.Basic
import Mathlib.Data.List.FinRange
import Mathlib.Logic.Function.Basic
import Mathlib.Algebra.Ring.Nat
import Mathlib.Algebra.Ring.Int.Defs
import Mathlib.Tactic.Common

/-! `PersistentBlockTree`: a sparse array as a tree of nodes with `BRANCHING` children, which is as
deep as its largest index so far needs.  An update copies the nodes on one path.  The level of a
node is its `currentShift` in units of `BITS`; an index is an `int` that is not negative. -/

namespace GeneralSearch.Bitmap

def BITS : ℕ := 5

def BRANCHING : ℕ := 32

instance : NeZero BRANCHING := ⟨by decide⟩

/-- `BlockTreeNode`: the children hold values at level 0 and nodes above. -/
@[reducible] def BlockTreeNode (T : Type) : ℕ → Type
  | 0 => Fin BRANCHING → Option T
  | level + 1 => Fin BRANCHING → Option (BlockTreeNode T level)

structure PersistentBlockTree (T : Type) where
  level : ℕ
  root : BlockTreeNode T level

/-- `(index >>> currentShift) & MASK`. -/
def slot (index level : ℕ) : Fin BRANCHING :=
  ⟨(index >>> (BITS * level)) % BRANCHING, Nat.mod_lt _ (by decide)⟩

/-- `capacityForShift`. -/
def capacityForShift (level : ℕ) : ℕ := 1 <<< (BITS * level + BITS)

theorem capacityForShift_eq (level : ℕ) : capacityForShift level = 2 ^ (BITS * (level + 1)) := by
  unfold capacityForShift
  rw [Nat.one_shiftLeft, Nat.mul_succ]

theorem capacityForShift_succ (level : ℕ) :
    capacityForShift (level + 1) = capacityForShift level * BRANCHING := by
  rw [capacityForShift_eq, capacityForShift_eq, Nat.mul_succ, Nat.pow_add]
  rfl

theorem capacityForShift_pos (level : ℕ) : 0 < capacityForShift level := by
  rw [capacityForShift_eq]
  exact Nat.two_pow_pos _

namespace BlockTreeNode

variable {T : Type}

/-- The descent of `get`. -/
def find : {level : ℕ} → BlockTreeNode T level → ℕ → Option T
  | 0, children, index => children (slot index 0)
  | level + 1, children, index =>
    match children (slot index (level + 1)) with
    | none => none
    | some child => find child index

def newPath : (level : ℕ) → ℕ → Option T → BlockTreeNode T level
  | 0, index, value => Function.update (fun _ => none) (slot index 0) value
  | level + 1, index, value =>
    Function.update (fun _ => none) (slot index (level + 1)) (some (newPath level index value))

/-- `associate`, with `none` for the node itself. -/
def associate [DecidableEq T] : {level : ℕ} → BlockTreeNode T level → ℕ → Option T →
    Option (BlockTreeNode T level)
  | 0, children, index, value =>
    if children (slot index 0) = value then none
    else some (Function.update children (slot index 0) value)
  | level + 1, children, index, value =>
    match children (slot index (level + 1)) with
    | none =>
      some (Function.update children (slot index (level + 1)) (some (newPath level index value)))
    | some oldChild =>
      match associate oldChild index value with
      | none => none
      | some newChild =>
        some (Function.update children (slot index (level + 1)) (some newChild))

/-- The visits of `forEachPresent`, in order. -/
def forEachPresent : {level : ℕ} → BlockTreeNode T level → ℕ → List (ℕ × T)
  | 0, children, base =>
    (List.finRange BRANCHING).filterMap fun slot =>
      (children slot).map fun value => (base ||| slot.val, value)
  | level + 1, children, base =>
    (List.finRange BRANCHING).flatMap fun slot =>
      match children slot with
      | none => []
      | some child => forEachPresent child (base ||| slot.val <<< (BITS * (level + 1)))

end BlockTreeNode

namespace PersistentBlockTree

variable {T : Type}

def empty : PersistentBlockTree T := ⟨0, fun _ => none⟩

def get (t : PersistentBlockTree T) (index : ℕ) : Option T :=
  if index ≥ capacityForShift t.level then none else t.root.find index

/-- A new root above the old one. -/
def grown (t : PersistentBlockTree T) : PersistentBlockTree T :=
  ⟨t.level + 1, Function.update (fun _ => none) 0 (some t.root)⟩

/-- The loop of `with` that adds roots. -/
def expand (t : PersistentBlockTree T) (index : ℕ) : PersistentBlockTree T :=
  if index ≥ capacityForShift t.level then expand t.grown index else t
termination_by index + 1 - capacityForShift t.level
decreasing_by
  have hcapacity : capacityForShift t.grown.level = capacityForShift t.level * BRANCHING :=
    capacityForShift_succ t.level
  have hpos := capacityForShift_pos t.level
  rw [hcapacity]
  unfold BRANCHING
  omega

/-- `with`. -/
def withValue [DecidableEq T] (t : PersistentBlockTree T) (index : ℕ) (value : Option T) :
    PersistentBlockTree T :=
  let expanded := t.expand index
  match expanded.root.associate index value with
  | none => expanded
  | some updatedRoot => ⟨expanded.level, updatedRoot⟩

def forEachPresent (t : PersistentBlockTree T) : List (ℕ × T) := t.root.forEachPresent 0

end PersistentBlockTree

/-! ### Slots -/

section

variable {level i j base : ℕ}

theorem slot_val (index level : ℕ) :
    (slot index (level + 1)).val = index / capacityForShift level % BRANCHING := by
  rw [capacityForShift_eq]
  exact congrArg (· % BRANCHING) (Nat.shiftRight_eq_div_pow _ _)

theorem slot_zero_eq_iff : slot i 0 = slot j 0 ↔ i % capacityForShift 0 = j % capacityForShift 0 :=
  Fin.ext_iff

/-- Two indexes meet below a node where they take the same slot and meet below the child. -/
theorem mod_capacity_succ_eq_iff :
    i % capacityForShift (level + 1) = j % capacityForShift (level + 1) ↔
      slot i (level + 1) = slot j (level + 1) ∧
        i % capacityForShift level = j % capacityForShift level := by
  rw [Fin.ext_iff, slot_val, slot_val, capacityForShift_succ, Nat.mod_mul, Nat.mod_mul]
  constructor
  · intro h
    have hi := Nat.mod_lt i (capacityForShift_pos level)
    have hj := Nat.mod_lt j (capacityForShift_pos level)
    have hlow : i % capacityForShift level = j % capacityForShift level := by
      have h' := congrArg (· % capacityForShift level) h
      simpa [Nat.add_mul_mod_self_left, Nat.mod_eq_of_lt hi, Nat.mod_eq_of_lt hj] using h'
    rw [hlow] at h
    exact ⟨Nat.eq_of_mul_eq_mul_left (capacityForShift_pos level) (Nat.add_left_cancel h), hlow⟩
  · rintro ⟨hslot, hlow⟩
    rw [hslot, hlow]

end

namespace BlockTreeNode

variable {T : Type} {level i j base : ℕ} {value : Option T}

/-! ### Lookups -/

/-- What is found depends on the index below the node. -/
theorem find_congr {node : BlockTreeNode T level}
    (h : i % capacityForShift level = j % capacityForShift level) : node.find i = node.find j := by
  induction level with
  | zero => exact congrArg node (slot_zero_eq_iff.mpr h)
  | succ level ih =>
    obtain ⟨hslot, hlow⟩ := mod_capacity_succ_eq_iff.mp h
    unfold find
    rw [hslot]
    cases node (slot j (level + 1)) with
    | none => rfl
    | some child => exact ih hlow

/-- The lookup below a node in which one child is replaced. -/
theorem find_update {children : BlockTreeNode T (level + 1)} {s : Fin BRANCHING}
    {child : BlockTreeNode T level} :
    @find T (level + 1) (Function.update children s (some child)) j =
      if slot j (level + 1) = s then child.find j else children.find j := by
  rw [find, Function.update_apply]
  by_cases hslot : slot j (level + 1) = s
  · rw [if_pos hslot, if_pos hslot]
  · rw [if_neg hslot, if_neg hslot]
    rfl

theorem find_newPath : (newPath level i value).find j =
    if j % capacityForShift level = i % capacityForShift level then value else none := by
  induction level with
  | zero =>
    simp only [← slot_zero_eq_iff]
    show Function.update (fun _ => none) (slot i 0) value (slot j 0) = _
    rw [Function.update_apply]
  | succ level ih =>
    unfold find newPath
    rw [Function.update_apply]
    simp only [mod_capacity_succ_eq_iff]
    by_cases hslot : slot j (level + 1) = slot i (level + 1)
    · simp only [hslot, if_true, true_and]
      exact ih
    · simp [hslot]

variable [DecidableEq T]

/-- An update is read back at its index, and nothing else changes. -/
theorem find_associate (node : BlockTreeNode T level) :
    ((node.associate i value).getD node).find j =
      if j % capacityForShift level = i % capacityForShift level then value else node.find j := by
  induction level with
  | zero =>
    simp only [← slot_zero_eq_iff]
    unfold associate
    by_cases hsame : node (slot i 0) = value
    · rw [if_pos hsame, Option.getD_none]
      by_cases hslot : slot j 0 = slot i 0
      · rw [if_pos hslot, ← hsame, ← hslot]
        rfl
      · rw [if_neg hslot]
    · rw [if_neg hsame]
      show Function.update node (slot i 0) value (slot j 0) = _
      rw [Function.update_apply]
      rfl
  | succ level ih =>
    simp only [mod_capacity_succ_eq_iff]
    cases hold : node (slot i (level + 1)) with
    | none =>
      have hassociate : node.associate i value =
          some (Function.update node (slot i (level + 1)) (some (newPath level i value))) := by
        rw [associate, hold]
      rw [hassociate, Option.getD_some, find_update, find_newPath]
      by_cases hslot : slot j (level + 1) = slot i (level + 1)
      · have hfind : node.find j = none := by rw [find, hslot, hold]
        simp [hslot, hfind]
      · simp [hslot]
    | some oldChild =>
      have hfind : slot j (level + 1) = slot i (level + 1) → node.find j = oldChild.find j := by
        intro hslot
        rw [find, hslot, hold]
      cases hchild : oldChild.associate i value with
      | none =>
        have hassociate : node.associate i value = none := by
          rw [associate, hold]
          simp only [hchild]
        have hih := ih oldChild
        rw [hchild] at hih
        rw [hassociate, Option.getD_none]
        by_cases hslot : slot j (level + 1) = slot i (level + 1)
        · simpa [hslot, hfind hslot] using hih
        · simp [hslot]
      | some newChild =>
        have hassociate : node.associate i value =
            some (Function.update node (slot i (level + 1)) (some newChild)) := by
          rw [associate, hold]
          simp only [hchild]
        have hih := ih oldChild
        rw [hchild] at hih
        rw [hassociate, Option.getD_some, find_update]
        by_cases hslot : slot j (level + 1) = slot i (level + 1)
        · simpa [hslot, hfind hslot] using hih
        · simp [hslot]

end BlockTreeNode

namespace PersistentBlockTree

variable {T : Type} {i j : ℕ} {value : Option T} {t : PersistentBlockTree T}

@[simp] theorem get_empty : (empty : PersistentBlockTree T).get i = none := by
  unfold get empty
  split <;> rfl

/-- What is below the new root is what was below the old one. -/
theorem get_grown : t.grown.get i = t.get i := by
  have hpos := capacityForShift_pos t.level
  have hcapacity : capacityForShift t.grown.level = capacityForShift t.level * BRANCHING :=
    capacityForShift_succ t.level
  unfold get
  by_cases hgrown : i ≥ capacityForShift t.grown.level
  · rw [if_pos hgrown, if_pos (by unfold BRANCHING at hcapacity; omega)]
  · have hslot : (slot i (t.level + 1)).val = i / capacityForShift t.level := by
      rw [slot_val]
      exact Nat.mod_eq_of_lt (Nat.div_lt_of_lt_mul (by rw [← hcapacity]; omega))
    have hfind : t.grown.root.find i =
        if slot i (t.level + 1) = 0 then t.root.find i else none :=
      BlockTreeNode.find_update
    rw [if_neg hgrown, hfind]
    by_cases hi : i ≥ capacityForShift t.level
    · rw [if_pos hi, if_neg]
      rw [Fin.ext_iff, hslot]
      exact (Nat.div_pos hi hpos).ne'
    · rw [if_neg hi, if_pos]
      rw [Fin.ext_iff, hslot]
      exact Nat.div_eq_of_lt (Nat.lt_of_not_le hi)

theorem get_expand : (t.expand i).get j = t.get j := by
  fun_induction expand t i with
  | case1 t h ih => rw [ih, get_grown]
  | case2 t h => rfl

theorem lt_capacityForShift_expand : i < capacityForShift (t.expand i).level := by
  fun_induction expand t i with
  | case1 t h ih => exact ih
  | case2 t h => exact Nat.lt_of_not_le h

/-- A tree after an update is the array after the update. -/
theorem get_withValue [DecidableEq T] :
    (t.withValue i value).get j = if j = i then value else t.get j := by
  have hi : i < capacityForShift (t.expand i).level := lt_capacityForShift_expand
  have hwith : t.withValue i value =
      ⟨(t.expand i).level, ((t.expand i).root.associate i value).getD (t.expand i).root⟩ := by
    unfold withValue
    cases h : (t.expand i).root.associate i value <;> simp only [h, Option.getD_none, Option.getD_some]
  have hold : t.get j = (t.expand i).get j := get_expand.symm
  rw [hwith, hold]
  unfold get
  by_cases hj : j ≥ capacityForShift (t.expand i).level
  · rw [if_pos hj, if_pos hj, if_neg (by omega)]
  · rw [if_neg hj, if_neg hj, BlockTreeNode.find_associate, Nat.mod_eq_of_lt hi,
      Nat.mod_eq_of_lt (Nat.lt_of_not_le hj)]

end PersistentBlockTree

/-! ### Visits -/

section

variable {level base : ℕ} (s : Fin BRANCHING)

/-- The bits of a slot are free in the base of its node. -/
theorem or_slot_zero (h : capacityForShift 0 ∣ base) : base ||| s.val = base + s.val := by
  obtain ⟨c, rfl⟩ := h
  exact (Nat.two_pow_add_eq_or_of_lt (i := BITS) s.isLt c).symm

theorem or_slot_succ (h : capacityForShift (level + 1) ∣ base) :
    base ||| s.val <<< (BITS * (level + 1)) = base + s.val * capacityForShift level := by
  obtain ⟨c, rfl⟩ := h
  have hlt : s.val * 2 ^ (BITS * (level + 1)) < 2 ^ (BITS * (level + 2)) := by
    rw [Nat.mul_succ BITS (level + 1), Nat.pow_add, Nat.mul_comm]
    exact Nat.mul_lt_mul_of_pos_left s.isLt (Nat.two_pow_pos _)
  rw [Nat.shiftLeft_eq, capacityForShift_eq, capacityForShift_eq]
  exact (Nat.two_pow_add_eq_or_of_lt hlt c).symm

/-- The base of a child is a multiple of the child's capacity. -/
theorem dvd_child_base (h : capacityForShift (level + 1) ∣ base) :
    capacityForShift level ∣ base + s.val * capacityForShift level :=
  Nat.dvd_add (Nat.dvd_trans ⟨BRANCHING, capacityForShift_succ level⟩ h) (Nat.dvd_mul_left _ _)

/-- An index below a child is in the slot of the child. -/
theorem slot_mul_add {r : ℕ} (hr : r < capacityForShift level) :
    slot (s.val * capacityForShift level + r) (level + 1) = s ∧
      (s.val * capacityForShift level + r) % capacityForShift level = r := by
  have hpos := capacityForShift_pos level
  constructor
  · rw [Fin.ext_iff, slot_val, Nat.mul_comm, Nat.mul_add_div hpos, Nat.div_eq_of_lt hr]
    exact Nat.mod_eq_of_lt s.isLt
  · rw [Nat.mul_add_mod_self_right, Nat.mod_eq_of_lt hr]

theorem mul_add_lt {r : ℕ} (hr : r < capacityForShift level) :
    s.val * capacityForShift level + r < capacityForShift (level + 1) := by
  rw [capacityForShift_succ, Nat.mul_comm _ BRANCHING]
  have hnext : (s.val + 1) * capacityForShift level ≤ BRANCHING * capacityForShift level :=
    Nat.mul_le_mul_right _ s.isLt
  rw [Nat.succ_mul] at hnext
  omega

theorem eq_slot_mul_add {j : ℕ} (h : j < capacityForShift (level + 1)) :
    j = (slot j (level + 1)).val * capacityForShift level + j % capacityForShift level := by
  rw [capacityForShift_succ] at h
  rw [slot_val, Nat.mod_eq_of_lt (Nat.div_lt_of_lt_mul h)]
  exact (Nat.div_add_mod' _ _).symm

end

namespace BlockTreeNode

variable {T : Type} {level i base : ℕ} {v : T}

/-- The visits are the indexes at which a value is found. -/
theorem mem_forEachPresent {node : BlockTreeNode T level} (h : capacityForShift level ∣ base) :
    (i, v) ∈ node.forEachPresent base ↔
      ∃ j < capacityForShift level, i = base + j ∧ node.find j = some v := by
  induction level generalizing base with
  | zero =>
    unfold forEachPresent
    simp only [List.mem_filterMap, List.mem_finRange, true_and, Option.map_eq_some_iff,
      Prod.mk.injEq, or_slot_zero _ h]
    constructor
    · rintro ⟨s, _, hs, rfl, rfl⟩
      refine ⟨s.val, s.isLt, rfl, ?_⟩
      have hslot : slot s.val 0 = s := Fin.ext (Nat.mod_eq_of_lt s.isLt)
      rw [find, hslot, hs]
    · rintro ⟨j, hj, rfl, hfind⟩
      exact ⟨slot j 0, v, hfind, congrArg (base + ·) (Nat.mod_eq_of_lt hj), rfl⟩
  | succ level ih =>
    unfold forEachPresent
    simp only [List.mem_flatMap, List.mem_finRange, true_and, or_slot_succ _ h]
    constructor
    · rintro ⟨s, hs⟩
      cases hchild : node s with
      | none =>
        rw [hchild] at hs
        cases hs
      | some child =>
        rw [hchild] at hs
        obtain ⟨r, hr, rfl, hfind⟩ := (ih (dvd_child_base s h)).mp hs
        obtain ⟨hslot, hrest⟩ := slot_mul_add s hr
        refine ⟨s.val * capacityForShift level + r, mul_add_lt s hr, Nat.add_assoc .., ?_⟩
        rw [find, hslot, hchild, ← hfind]
        exact find_congr (hrest.trans (Nat.mod_eq_of_lt hr).symm)
    · rintro ⟨j, hj, rfl, hfind⟩
      refine ⟨slot j (level + 1), ?_⟩
      rw [find] at hfind
      cases hchild : node (slot j (level + 1)) with
      | none =>
        rw [hchild] at hfind
        cases hfind
      | some child =>
        rw [hchild] at hfind
        refine (ih (dvd_child_base _ h)).mpr ⟨j % capacityForShift level, ?_, ?_, ?_⟩
        · exact Nat.mod_lt _ (capacityForShift_pos level)
        · rw [Nat.add_assoc, ← eq_slot_mul_add hj]
        · rw [← hfind]
          exact find_congr (Nat.mod_mod _ _)

/-- The visits ascend. -/
theorem forEachPresent_ascends {node : BlockTreeNode T level} (h : capacityForShift level ∣ base) :
    (node.forEachPresent base).Pairwise fun a b => a.1 < b.1 := by
  induction level generalizing base with
  | zero =>
    unfold forEachPresent
    rw [List.pairwise_filterMap]
    refine (List.pairwise_lt_finRange BRANCHING).imp fun {s s'} hlt a ha a' ha' => ?_
    obtain ⟨_, -, rfl⟩ := Option.map_eq_some_iff.mp ha
    obtain ⟨_, -, rfl⟩ := Option.map_eq_some_iff.mp ha'
    simp only [or_slot_zero _ h]
    exact Nat.add_lt_add_left hlt base
  | succ level ih =>
    unfold forEachPresent
    simp only [or_slot_succ _ h]
    rw [List.pairwise_flatMap]
    constructor
    · intro s _
      cases node s with
      | none => exact List.Pairwise.nil
      | some child => exact ih (dvd_child_base s h)
    · -- what is visited below a slot is below the base of the next one
      refine (List.pairwise_lt_finRange BRANCHING).imp fun {s s'} hlt a ha a' ha' => ?_
      cases hchild : node s with
      | none =>
        rw [hchild] at ha
        cases ha
      | some child =>
        cases hchild' : node s' with
        | none =>
          rw [hchild'] at ha'
          cases ha'
        | some child' =>
          rw [hchild] at ha
          rw [hchild'] at ha'
          obtain ⟨r, hr, heq, -⟩ := (mem_forEachPresent (dvd_child_base s h)).mp ha
          obtain ⟨r', -, heq', -⟩ := (mem_forEachPresent (dvd_child_base s' h)).mp ha'
          have hnext : (s.val + 1) * capacityForShift level ≤ s'.val * capacityForShift level :=
            Nat.mul_le_mul_right _ hlt
          rw [Nat.succ_mul] at hnext
          omega

end BlockTreeNode

namespace PersistentBlockTree

variable {T : Type} {i : ℕ} {v : T} {t : PersistentBlockTree T}

theorem mem_forEachPresent : (i, v) ∈ t.forEachPresent ↔ t.get i = some v := by
  unfold forEachPresent get
  rw [BlockTreeNode.mem_forEachPresent (Nat.dvd_zero _)]
  constructor
  · rintro ⟨j, hj, rfl, hfind⟩
    rw [Nat.zero_add, if_neg (Nat.not_le_of_lt hj), hfind]
  · intro hget
    split at hget
    · cases hget
    · rename_i hi
      exact ⟨i, Nat.lt_of_not_le hi, (Nat.zero_add i).symm, hget⟩

theorem forEachPresent_ascends : t.forEachPresent.Pairwise fun a b => a.1 < b.1 :=
  BlockTreeNode.forEachPresent_ascends (Nat.dvd_zero _)

end PersistentBlockTree

end GeneralSearch.Bitmap
