import GeneralSearch.Index.AvlMap
import GeneralSearch.Lib.Association
import GeneralSearch.Lib.Exec
import Mathlib.Data.Int.Init
import Mathlib.Algebra.Ring.Nat
import Mathlib.Algebra.Ring.Int.Defs

/-! The updates of `PersistentAvlMap`: insertion, replacement and removal with path copying.  Every
node is built by `newNode`, which caches the weight, the height and the size of the subtree and
throws when the weight is negative or a sum leaves its integer type. -/

namespace GeneralSearch.Index

open GeneralSearch.Lib

/-- What an update throws. -/
inductive AvlError where
  | illegalArgument (message : String)
  | arithmetic
  | nullPointer
  deriving DecidableEq

namespace AvlNode

variable {K V : Type}

def height : AvlNode K V → ℕ
  | leaf => 0
  | node _ _ _ _ _ _ height _ => height

@[simp] theorem height_leaf : (leaf : AvlNode K V).height = 0 := rfl

@[simp] theorem height_node {key : K} {value : V} {left right : AvlNode K V} {w a h s : ℕ} :
    (node key value left right w a h s).height = h := rfl

/-- `Math.addExact` on numbers that are not negative. -/
def addExact (limit a b : ℕ) : Except AvlError ℕ :=
  if a + b < limit then .ok (a + b) else .error .arithmetic

section

variable (weightFunction : V → ℤ)

/-- `PersistentAvlMap.node`, with the constructor of `Node`. -/
def newNode (key : K) (value : V) (left right : AvlNode K V) :
    Except AvlError (AvlNode K V) := do
  let weight := weightFunction value
  if weight < 0 then throw (.illegalArgument "value weight must not be negative")
  let aggregateWeight ← addExact (2 ^ 63) left.aggregateWeight right.aggregateWeight
  let aggregateWeight ← addExact (2 ^ 63) aggregateWeight weight.toNat
  let size ← addExact (2 ^ 31) left.size right.size
  let size ← addExact (2 ^ 31) size 1
  return node key value left right weight.toNat aggregateWeight
    (max left.height right.height + 1) size

def rotateLeft : AvlNode K V → Except AvlError (AvlNode K V)
  | node key value left (node pivotKey pivotValue pivotLeft pivotRight ..) .. => do
    let moved ← newNode weightFunction key value left pivotLeft
    newNode weightFunction pivotKey pivotValue moved pivotRight
  | _ => .error .nullPointer

def rotateRight : AvlNode K V → Except AvlError (AvlNode K V)
  | node key value (node pivotKey pivotValue pivotLeft pivotRight ..) right .. => do
    let moved ← newNode weightFunction key value pivotRight right
    newNode weightFunction pivotKey pivotValue pivotLeft moved
  | _ => .error .nullPointer

/-- The left child of a node that is too high on the left, leaning left. -/
def leanLeft (left : AvlNode K V) : Except AvlError (AvlNode K V) :=
  match left with
  | leaf => .error .nullPointer
  | node _ _ outer inner .. =>
    if outer.height < inner.height then rotateLeft weightFunction left else .ok left

/-- The right child of a node that is too high on the right, leaning right. -/
def leanRight (right : AvlNode K V) : Except AvlError (AvlNode K V) :=
  match right with
  | leaf => .error .nullPointer
  | node _ _ inner outer .. =>
    if outer.height < inner.height then rotateRight weightFunction right else .ok right

def balance (root : AvlNode K V) : Except AvlError (AvlNode K V) :=
  match root with
  | leaf => .error .nullPointer
  | node key value left right .. =>
    if right.height + 1 < left.height then do
      let left ← leanLeft weightFunction left
      rotateRight weightFunction (← newNode weightFunction key value left right)
    else if left.height + 1 < right.height then do
      let right ← leanRight weightFunction right
      rotateLeft weightFunction (← newNode weightFunction key value left right)
    else .ok root

/-- The node over an updated child: when the child came back as it was (`none`), so does the
node. -/
def overChild (updatedChild : Option (AvlNode K V))
    (rebuild : AvlNode K V → Except AvlError (AvlNode K V)) :
    Except AvlError (Option (AvlNode K V)) :=
  match updatedChild with
  | none => .ok none
  | some child => some <$> (rebuild child >>= balance weightFunction)

/-- The key and value of `PersistentAvlMap.minimum`. -/
def minimum : AvlNode K V → Except AvlError (K × V)
  | leaf => .error .nullPointer
  | node key value left .. =>
    match left with
    | leaf => .ok (key, value)
    | node .. => left.minimum

def removeMinimum : AvlNode K V → Except AvlError (AvlNode K V)
  | leaf => .error .nullPointer
  | node key value left right .. =>
    match left with
    | leaf => .ok right
    | node .. => do
      let updatedLeft ← left.removeMinimum
      balance weightFunction (← newNode weightFunction key value updatedLeft right)

variable (compareTo : K → K → Ordering)

/-- `PersistentAvlMap.put`, where `none` is the very node of the call. -/
def put [BEq V] (key : K) (value : V) : AvlNode K V → Except AvlError (Option (AvlNode K V))
  | leaf => some <$> newNode weightFunction key value leaf leaf
  | node nodeKey nodeValue left right .. =>
    match compareTo key nodeKey with
    | .eq =>
      if nodeValue == value then .ok none
      else some <$> newNode weightFunction nodeKey value left right
    | .lt => do
      overChild weightFunction (← left.put key value) fun updatedChild =>
        newNode weightFunction nodeKey nodeValue updatedChild right
    | .gt => do
      overChild weightFunction (← right.put key value) fun updatedChild =>
        newNode weightFunction nodeKey nodeValue left updatedChild

/-- `PersistentAvlMap.remove`, where `none` is the very node of the call. -/
def remove (key : K) : AvlNode K V → Except AvlError (Option (AvlNode K V))
  | leaf => .ok none
  | node nodeKey nodeValue left right .. =>
    match compareTo key nodeKey with
    | .lt => do
      overChild weightFunction (← left.remove key) fun updatedLeft =>
        newNode weightFunction nodeKey nodeValue updatedLeft right
    | .gt => do
      overChild weightFunction (← right.remove key) fun updatedRight =>
        newNode weightFunction nodeKey nodeValue left updatedRight
    | .eq =>
      match left, right with
      | leaf, _ => .ok (some right)
      | _, leaf => .ok (some left)
      | node .., node .. => do
        let successor ← right.minimum
        let rest ← right.removeMinimum weightFunction
        some <$> (newNode weightFunction successor.1 successor.2 left rest >>=
          balance weightFunction)

end

/-! ### What a node caches -/

/-- The cached fields are those of the subtree, and sibling heights differ by at most one. -/
def Sound (weightFunction : V → ℤ) : AvlNode K V → Prop
  | leaf => True
  | node _ value left right weight aggregateWeight height size =>
    left.Sound weightFunction ∧ right.Sound weightFunction ∧
      (weight : ℤ) = weightFunction value ∧
      aggregateWeight = left.aggregateWeight + right.aggregateWeight + weight ∧
      height = max left.height right.height + 1 ∧ size = left.size + right.size + 1 ∧
      left.height ≤ right.height + 1 ∧ right.height ≤ left.height + 1

/-- The tree that `newNode` builds when nothing overflows. -/
def Built (weightFunction : V → ℤ) (key : K) (value : V) (left right root : AvlNode K V) : Prop :=
  ∃ weight : ℕ, (weight : ℤ) = weightFunction value ∧
    root = node key value left right weight (left.aggregateWeight + right.aggregateWeight + weight)
      (max left.height right.height + 1) (left.size + right.size + 1)

section

variable {weightFunction : V → ℤ} {key : K} {value : V} {left right root : AvlNode K V}

namespace Built

theorem entries (h : Built weightFunction key value left right root) :
    root.entries = left.entries ++ (key, value) :: right.entries := by
  obtain ⟨w, -, rfl⟩ := h
  rfl

theorem height (h : Built weightFunction key value left right root) :
    root.height = max left.height right.height + 1 := by
  obtain ⟨w, -, rfl⟩ := h
  rfl

theorem sound (h : Built weightFunction key value left right root)
    (hl : left.Sound weightFunction) (hr : right.Sound weightFunction)
    (hlr : left.height ≤ right.height + 1) (hrl : right.height ≤ left.height + 1) :
    root.Sound weightFunction := by
  obtain ⟨w, hw, rfl⟩ := h
  exact ⟨hl, hr, hw, rfl, rfl, rfl, hlr, hrl⟩

end Built

/-- What no update throws: the dereference of a child that is not there. -/
def Thrown (e : AvlError) : Prop := e ≠ .nullPointer

theorem yields_addExact {limit a b : ℕ} {P : ℕ → Prop} (h : P (a + b)) :
    Yields (addExact limit a b) P Thrown := by
  unfold addExact
  split
  · exact h
  · exact AvlError.noConfusion

theorem yields_newNode :
    Yields (newNode weightFunction key value left right)
      (Built weightFunction key value left right) Thrown := by
  unfold newNode
  by_cases hneg : weightFunction value < 0
  · rw [if_pos hneg]
    exact AvlError.noConfusion
  · rw [if_neg hneg]
    refine Yields.bind (yields_addExact (P := (· = _)) rfl) ?_
    rintro _ rfl
    refine Yields.bind (yields_addExact (P := (· = _)) rfl) ?_
    rintro _ rfl
    refine Yields.bind (yields_addExact (P := (· = _)) rfl) ?_
    rintro _ rfl
    refine Yields.bind (yields_addExact (P := (· = _)) rfl) ?_
    rintro _ rfl
    exact ⟨(weightFunction value).toNat, Int.toNat_of_nonneg (Int.not_lt.mp hneg), rfl⟩

/-! ### Rotations -/

/-- A rotation to the right, over the parts of the left child. -/
theorem yields_rotateRight {pivotKey : K} {pivotValue : V} {outer inner : AvlNode K V}
    {w a h s : ℕ}
    (hroot : Built weightFunction key value (node pivotKey pivotValue outer inner w a h s) right
      root) :
    Yields (rotateRight weightFunction root)
      (fun root' => ∃ moved, Built weightFunction key value inner right moved ∧
        Built weightFunction pivotKey pivotValue outer moved root') Thrown := by
  obtain ⟨w', -, rfl⟩ := hroot
  refine Yields.bind yields_newNode fun moved hmoved => ?_
  exact yields_newNode.mono fun root' hroot' => ⟨moved, hmoved, hroot'⟩

theorem yields_rotateLeft {pivotKey : K} {pivotValue : V} {inner outer : AvlNode K V}
    {w a h s : ℕ}
    (hroot : Built weightFunction key value left (node pivotKey pivotValue inner outer w a h s)
      root) :
    Yields (rotateLeft weightFunction root)
      (fun root' => ∃ moved, Built weightFunction key value left inner moved ∧
        Built weightFunction pivotKey pivotValue moved outer root') Thrown := by
  obtain ⟨w', -, rfl⟩ := hroot
  refine Yields.bind yields_newNode fun moved hmoved => ?_
  exact yields_newNode.mono fun root' hroot' => ⟨moved, hmoved, hroot'⟩

/-- The children of a node of height `height` that a rotation brings up: the outer one carries the
height. -/
def Leans (weightFunction : V → ℤ) (height : ℕ) (outer inner : AvlNode K V) : Prop :=
  outer.Sound weightFunction ∧ inner.Sound weightFunction ∧ outer.height + 1 = height ∧
    inner.height ≤ outer.height ∧ height ≤ inner.height + 3

theorem yields_leanLeft (h : left.Sound weightFunction) (hpos : 1 < left.height) :
    Yields (leanLeft weightFunction left)
      (fun left' => left'.entries = left.entries ∧ ∃ pivotKey pivotValue outer inner w a h s,
        left' = node pivotKey pivotValue outer inner w a h s ∧
          Leans weightFunction left.height outer inner) Thrown := by
  cases left with
  | leaf => exact absurd hpos (by simp)
  | node pivotKey pivotValue outer inner w a ht s =>
    obtain ⟨ho, hi, hw, ha, hht, hs, hoi, hio⟩ := h
    unfold leanLeft
    simp only [height_node] at hpos ⊢
    by_cases hlt : outer.height < inner.height
    · rw [if_pos hlt]
      cases inner with
      | leaf => exact absurd hlt (by simp)
      | node innerKey innerValue near far w' a' ht' s' =>
        obtain ⟨hn, hf, -, -, hht', -, hnf, hfn⟩ := hi
        refine (yields_rotateLeft ⟨w, hw, by rw [ha, hht, hs]⟩).mono ?_
        rintro left' ⟨moved, hmoved, hleft'⟩
        have hentries : left'.entries = outer.entries ++ (pivotKey, pivotValue) ::
            (near.entries ++ (innerKey, innerValue) :: far.entries) := by
          simp [hleft'.entries, hmoved.entries]
        have hheight := hmoved.height
        simp only [height_node] at hlt hht hio
        have hsound := hmoved.sound ho hn (by omega) (by omega)
        obtain ⟨w'', -, rfl⟩ := hleft'
        exact ⟨hentries, _, _, _, _, _, _, _, _, rfl, hsound, hf, by omega, by omega, by omega⟩
    · rw [if_neg hlt]
      exact ⟨rfl, _, _, _, _, _, _, _, _, rfl, ho, hi, by omega, by omega, by omega⟩

theorem yields_leanRight (h : right.Sound weightFunction) (hpos : 1 < right.height) :
    Yields (leanRight weightFunction right)
      (fun right' => right'.entries = right.entries ∧ ∃ pivotKey pivotValue outer inner w a h s,
        right' = node pivotKey pivotValue inner outer w a h s ∧
          Leans weightFunction right.height outer inner) Thrown := by
  cases right with
  | leaf => exact absurd hpos (by simp)
  | node pivotKey pivotValue inner outer w a ht s =>
    obtain ⟨hi, ho, hw, ha, hht, hs, hio, hoi⟩ := h
    unfold leanRight
    simp only [height_node] at hpos ⊢
    by_cases hlt : outer.height < inner.height
    · rw [if_pos hlt]
      cases inner with
      | leaf => exact absurd hlt (by simp)
      | node innerKey innerValue far near w' a' ht' s' =>
        obtain ⟨hf, hn, -, -, hht', -, hfn, hnf⟩ := hi
        refine (yields_rotateRight ⟨w, hw, by rw [ha, hht, hs]⟩).mono ?_
        rintro right' ⟨moved, hmoved, hright'⟩
        have hentries : right'.entries = (far.entries ++ (innerKey, innerValue) :: near.entries) ++
            (pivotKey, pivotValue) :: outer.entries := by
          simp [hright'.entries, hmoved.entries]
        have hheight := hmoved.height
        simp only [height_node] at hlt hht hio
        have hsound := hmoved.sound hn ho (by omega) (by omega)
        obtain ⟨w'', -, rfl⟩ := hright'
        exact ⟨hentries, _, _, _, _, _, _, _, _, rfl, hsound, hf, by omega, by omega, by omega⟩
    · rw [if_neg hlt]
      exact ⟨rfl, _, _, _, _, _, _, _, _, rfl, ho, hi, by omega, by omega, by omega⟩

/-- A rebuilt node: sound again, with the same entries, and no more than one level higher than its
children make it. -/
structure Rebuilt (weightFunction : V → ℤ) (left right : AvlNode K V) (entries : List (K × V))
    (root : AvlNode K V) : Prop where
  sound : root.Sound weightFunction
  entries : root.entries = entries
  le_height : max left.height right.height ≤ root.height
  height_le : root.height ≤ max left.height right.height + 1
  height_eq : left.height ≤ right.height + 1 → right.height ≤ left.height + 1 →
    root.height = max left.height right.height + 1

/-- Balancing puts right what one update below has put wrong. -/
theorem yields_balance (hroot : Built weightFunction key value left right root)
    (hl : left.Sound weightFunction) (hr : right.Sound weightFunction)
    (hlr : left.height ≤ right.height + 2) (hrl : right.height ≤ left.height + 2) :
    Yields (balance weightFunction root)
      (Rebuilt weightFunction left right (left.entries ++ (key, value) :: right.entries))
      Thrown := by
  have hheight := hroot.height
  have hentries := hroot.entries
  have hsound := hroot.sound hl hr
  obtain ⟨w, hw, rfl⟩ := hroot
  simp only [balance]
  by_cases hleft : right.height + 1 < left.height
  · rw [if_pos hleft]
    refine (yields_leanLeft hl (by omega)).bind ?_
    rintro _ ⟨he, pivotKey, pivotValue, outer, inner, w', a', h', s', rfl, ho, hi, hlean⟩
    refine yields_newNode.bind fun root' hroot' => ?_
    refine (yields_rotateRight hroot').mono ?_
    rintro root'' ⟨moved, hmoved, hroot''⟩
    have hm := hmoved.height
    have hh := hroot''.height
    refine ⟨hroot''.sound ho (hmoved.sound hi hr (by omega) (by omega)) (by omega) (by omega), ?_,
      by omega, by omega, by omega⟩
    simp only [AvlNode.entries] at he
    simp [hroot''.entries, hmoved.entries, ← he]
  · rw [if_neg hleft]
    by_cases hright : left.height + 1 < right.height
    · rw [if_pos hright]
      refine (yields_leanRight hr (by omega)).bind ?_
      rintro _ ⟨he, pivotKey, pivotValue, outer, inner, w', a', h', s', rfl, ho, hi, hlean⟩
      refine yields_newNode.bind fun root' hroot' => ?_
      refine (yields_rotateLeft hroot').mono ?_
      rintro root'' ⟨moved, hmoved, hroot''⟩
      have hm := hmoved.height
      have hh := hroot''.height
      refine ⟨hroot''.sound (hmoved.sound hl hi (by omega) (by omega)) ho (by omega) (by omega),
        ?_, by omega, by omega, by omega⟩
      simp only [AvlNode.entries] at he
      simp [hroot''.entries, hmoved.entries, ← he]
    · rw [if_neg hright]
      exact ⟨hsound (by omega) (by omega), hentries, by omega, by omega, by omega⟩

/-! ### Removing the minimum -/

theorem yields_minimum (h : root ≠ leaf) :
    Yields root.minimum (fun e => ∃ rest, root.entries = e :: rest) Thrown := by
  induction root with
  | leaf => exact absurd rfl h
  | node key value left right w a ht s ihl =>
    cases left with
    | leaf => exact ⟨right.entries, rfl⟩
    | node leftKey leftValue outer inner w' a' ht' s' =>
      refine (ihl nofun).mono ?_
      rintro e ⟨rest, hrest⟩
      exact ⟨rest ++ (key, value) :: right.entries, by rw [entries, hrest, List.cons_append]⟩

/-- A tree after an update, at most `lower` levels lower or `raise` levels higher. -/
structure Updated (weightFunction : V → ℤ) (lower raise : ℕ) (root : AvlNode K V)
    (entries : List (K × V)) (root' : AvlNode K V) : Prop where
  sound : root'.Sound weightFunction
  entries : root'.entries = entries
  le_height : root.height ≤ root'.height + lower
  height_le : root'.height ≤ root.height + raise

variable {lower raise : ℕ}

theorem Updated.refl (h : root.Sound weightFunction) :
    Updated weightFunction lower raise root root.entries root :=
  ⟨h, rfl, Nat.le_add_right .., Nat.le_add_right ..⟩

/-- A tree after an update of its left child by one level. -/
theorem Updated.rebuild_left (hone : lower + raise ≤ 1) {entries : List (K × V)}
    {left' : AvlNode K V} {w a ht s : ℕ}
    (h : (node key value left right w a ht s).Sound weightFunction)
    (hleft : Updated weightFunction lower raise left entries left') :
    Yields (newNode weightFunction key value left' right >>= balance weightFunction)
      (Updated weightFunction lower raise (node key value left right w a ht s)
        (entries ++ (key, value) :: right.entries)) Thrown := by
  obtain ⟨hl, hr, -, -, hht, -, hlr, hrl⟩ := h
  obtain ⟨hl', he, hle, hge⟩ := hleft
  refine yields_newNode.bind fun built hbuilt => ?_
  refine (yields_balance hbuilt hl' hr (by omega) (by omega)).mono fun root' hroot' => ?_
  obtain ⟨hs', he', hlo, hhi, heq⟩ := hroot'
  refine ⟨hs', by rw [he', he], ?_, ?_⟩
  all_goals
    rw [height_node]
    by_cases hb : left'.height ≤ right.height + 1 ∧ right.height ≤ left'.height + 1
    · have := heq hb.1 hb.2
      omega
    · omega

/-- A tree after an update of its right child by one level; its root may have a new entry. -/
theorem Updated.rebuild_right (hone : lower + raise ≤ 1) {entries : List (K × V)}
    {right' : AvlNode K V} {w a ht s : ℕ} {newKey : K} {newValue : V}
    (h : (node key value left right w a ht s).Sound weightFunction)
    (hright : Updated weightFunction lower raise right entries right') :
    Yields (newNode weightFunction newKey newValue left right' >>= balance weightFunction)
      (Updated weightFunction lower raise (node key value left right w a ht s)
        (left.entries ++ (newKey, newValue) :: entries)) Thrown := by
  obtain ⟨hl, hr, -, -, hht, -, hlr, hrl⟩ := h
  obtain ⟨hr', he, hle, hge⟩ := hright
  refine yields_newNode.bind fun built hbuilt => ?_
  refine (yields_balance hbuilt hl hr' (by omega) (by omega)).mono fun root' hroot' => ?_
  obtain ⟨hs', he', hlo, hhi, heq⟩ := hroot'
  refine ⟨hs', by rw [he', he], ?_, ?_⟩
  all_goals
    rw [height_node]
    by_cases hb : left.height ≤ right'.height + 1 ∧ right'.height ≤ left.height + 1
    · have := heq hb.1 hb.2
      omega
    · omega

theorem yields_removeMinimum (h : root.Sound weightFunction) (hne : root ≠ leaf) :
    Yields (root.removeMinimum weightFunction)
      (Updated weightFunction 1 0 root root.entries.tail) Thrown := by
  induction root with
  | leaf => exact absurd rfl hne
  | node key value left right w a ht s ihl =>
    cases left with
    | leaf =>
      obtain ⟨-, hr, -, -, hht, -, -, hle⟩ := h
      rw [height_leaf] at hht hle
      refine ⟨hr, rfl, ?_, ?_⟩ <;> rw [height_node] <;> omega
    | node leftKey leftValue outer inner w' a' ht' s' =>
      refine (ihl h.1 nofun).bind fun left' hleft' => ?_
      refine (hleft'.rebuild_left (by decide) h).mono fun root' hroot' => ?_
      have htail : (node key value (node leftKey leftValue outer inner w' a' ht' s') right w a ht
          s).entries.tail = (node leftKey leftValue outer inner w' a' ht' s').entries.tail ++
            (key, value) :: right.entries :=
        List.tail_append_of_ne_nil (by simp [entries])
      rw [htail]
      exact hroot'

/-! ### Insertion, replacement and removal -/

/-- What `put` leaves at its key: an equal value stays. -/
def supersede [BEq V] (value : V) : Option V → V
  | none => value
  | some present => if present == value then present else value

/-- The node over an updated child, once the entries of both are known. -/
theorem yields_overChild {P Q : AvlNode K V → Prop} {child : AvlNode K V}
    {rebuild : AvlNode K V → Except AvlError (AvlNode K V)} {updated : Option (AvlNode K V)}
    (h : P (updated.getD child)) (hsame : P child → Q root)
    (hrebuild : ∀ child', P child' → Yields (rebuild child' >>= balance weightFunction) Q Thrown) :
    Yields (overChild weightFunction updated rebuild) (fun updated' => Q (updated'.getD root))
      Thrown := by
  cases updated with
  | none => exact hsame h
  | some child' => exact (hrebuild child' h).map fun _ => id

variable {compareTo : K → K → Ordering} [Std.TransCmp compareTo]

theorem yields_put [BEq V] (h : root.Sound weightFunction) (ho : root.Ordered compareTo) :
    Yields (root.put weightFunction compareTo key value)
      (fun updated => Updated weightFunction 0 1 root
        (replaceEntry compareTo key (supersede value) root.entries) (updated.getD root))
      Thrown := by
  induction root with
  | leaf =>
    refine yields_newNode.map fun root' hroot' => ?_
    refine ⟨hroot'.sound trivial trivial (by simp) (by simp), hroot'.entries, ?_, ?_⟩
    all_goals simp [hroot'.height]
  | node nodeKey nodeValue left right w a ht s ihl ihr =>
    obtain ⟨hol, hor, hlk, hkr⟩ := Ordered.node_iff.mp ho
    obtain ⟨hl, hr, hw, ha, hht, hs, hlr, hrl⟩ := id h
    unfold put
    cases hc : compareTo key nodeKey with
    | eq =>
      have hgt := Ordered.left_gt hlk (by rw [hc]; decide : compareTo key nodeKey ≠ .lt)
      rw [entries, replaceEntry_append_cons_eq hgt hc, supersede]
      by_cases heq : (nodeValue == value) = true
      · simp only [if_pos heq]
        exact .refl h
      · simp only [if_neg heq]
        refine yields_newNode.map fun root' hroot' => ?_
        refine ⟨hroot'.sound hl hr hlr hrl, hroot'.entries, ?_, ?_⟩
        all_goals simp [hroot'.height, hht]
    | lt =>
      rw [entries, replaceEntry_append_cons_lt hc]
      refine (ihl hl hol).bind fun updated hupdated => yields_overChild hupdated ?_ ?_
      · intro hsame
        rw [← hsame.entries]
        exact .refl h
      · exact fun left' hleft' => hleft'.rebuild_left (by decide) h
    | gt =>
      have hgt := Ordered.left_gt hlk (by rw [hc]; decide : compareTo key nodeKey ≠ .lt)
      rw [entries, replaceEntry_append_cons_gt hgt hc]
      refine (ihr hr hor).bind fun updated hupdated => yields_overChild hupdated ?_ ?_
      · intro hsame
        rw [← hsame.entries]
        exact .refl h
      · exact fun right' hright' => hright'.rebuild_right (by decide) h

theorem yields_remove (h : root.Sound weightFunction) (ho : root.Ordered compareTo) :
    Yields (root.remove weightFunction compareTo key)
      (fun updated => Updated weightFunction 1 0 root
        (eraseEntry compareTo key root.entries) (updated.getD root)) Thrown := by
  induction root with
  | leaf => exact .refl h
  | node nodeKey nodeValue left right w a ht s ihl ihr =>
    obtain ⟨hol, hor, hlk, hkr⟩ := Ordered.node_iff.mp ho
    obtain ⟨hl, hr, hw, ha, hht, hs, hlr, hrl⟩ := id h
    unfold remove
    cases hc : compareTo key nodeKey with
    | lt =>
      rw [entries, eraseEntry_append_cons_lt hc]
      refine (ihl hl hol).bind fun updated hupdated => yields_overChild hupdated ?_ ?_
      · intro hsame
        rw [← hsame.entries]
        exact .refl h
      · exact fun left' hleft' => hleft'.rebuild_left (by decide) h
    | gt =>
      have hgt := Ordered.left_gt hlk (by rw [hc]; decide : compareTo key nodeKey ≠ .lt)
      rw [entries, eraseEntry_append_cons_gt hgt hc]
      refine (ihr hr hor).bind fun updated hupdated => yields_overChild hupdated ?_ ?_
      · intro hsame
        rw [← hsame.entries]
        exact .refl h
      · exact fun right' hright' => hright'.rebuild_right (by decide) h
    | eq =>
      have hgt := Ordered.left_gt hlk (by rw [hc]; decide : compareTo key nodeKey ≠ .lt)
      rw [entries, eraseEntry_append_cons_eq hgt hc]
      cases left with
      | leaf =>
        rw [height_leaf] at hht hrl
        refine ⟨hr, rfl, ?_, ?_⟩ <;> simp only [height_node, Option.getD_some] <;> omega
      | node =>
        cases right with
        | leaf =>
          rw [height_leaf] at hht hlr
          refine ⟨hl, (List.append_nil _).symm, ?_, ?_⟩ <;>
            simp only [height_node, Option.getD_some] at hht hlr ⊢ <;> omega
        | node =>
          refine (yields_minimum (by simp)).bind fun successor hsuccessor => ?_
          obtain ⟨rest, hsuccessor⟩ := hsuccessor
          refine (yields_removeMinimum hr (by simp)).bind fun right' hright' => ?_
          rw [hsuccessor]
          rw [hsuccessor, List.tail_cons] at hright'
          exact (hright'.rebuild_right (by decide) h).map fun _ => id

end

end AvlNode

end GeneralSearch.Index
