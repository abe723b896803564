import GeneralSearch.Ranked.Executor
import GeneralSearch.Ranked.PhraseSlop
import Mathlib.Algebra.Order.BigOperators.Group.Finset
import Mathlib.Data.Int.LeastGreatest

/-! `PhrasePositionAccess`: what its two searches say about the ways of assigning a position to each
slot of a phrase. -/

namespace GeneralSearch.Ranked

open GeneralSearch.Lib

namespace PhrasePlan

variable {Score : Type} {ops : Scoring Score} (plan : PhrasePlan ops)

/-- The loop of `PhrasePositionAccess.validate`. -/
def validateFrom (previousPosition : ℤ) (slot : ℕ) :
    List ℕ → List (List PostingList) → Except Failure Unit
  | relativePosition :: relativePositions, alternatives :: alternativesBySlot =>
    if slot = 0 ∧ relativePosition ≠ 0 then
      .error (.illegalArgument "the first relative position must be zero")
    else if relativePosition ≤ previousPosition then
      .error (.illegalArgument "relative positions must be strictly increasing")
    else if alternatives.isEmpty then
      .error (.illegalArgument "every phrase slot requires at least one alternative")
    else validateFrom relativePosition (slot + 1) relativePositions alternativesBySlot
  | _, _ => .ok ()

/-- `PhrasePositionAccess.validate`. -/
def validate (docId anchorSlot : ℤ) : Except Failure Unit :=
  if docId < 0 then .error (.illegalArgument "docId must not be negative")
  else if plan.relativePositions.length = 0 then
    .error (.illegalArgument "a phrase requires at least one slot")
  else if plan.relativePositions.length ≠ plan.alternativesBySlot.length then
    .error (.illegalArgument "relative positions and alternative slots must have equal length")
  else if anchorSlot < 0 ∨ anchorSlot ≥ plan.relativePositions.length then
    .error (.illegalArgument "anchorSlot is out of range")
  else validateFrom (-1) 0 plan.relativePositions plan.alternativesBySlot

/-- `PhrasePositionAccess.matches`. -/
def matchesSlots (docId anchorSlot : ℤ) : Except Failure Bool := do
  plan.validate docId anchorSlot
  return (plan.anchorPositions docId.toNat anchorSlot.toNat).any fun position =>
    plan.matchesAt docId.toNat anchorSlot.toNat position

/-- `PhrasePositionAccess.minimumConsumedSlop`. -/
def minimumConsumedSlop (docId anchorSlot requestedSlop : ℤ) : Except Failure ℤ := do
  if requestedSlop < 0 then
    throw (.illegalArgument "requestedSlop must not be negative")
  plan.validate docId anchorSlot
  return (minimumConsumed (plan.consumedAt docId.toNat anchorSlot.toNat) requestedSlop.toNat none
    (plan.anchorPositions docId.toNat anchorSlot.toNat)).getD (-1)

/-! ### Assignments -/

/-- A position of the document for each slot, at least as far apart as in the phrase. -/
structure Assignment (docId : ℕ) (positions : ℕ → ℕ) : Prop where
  occurs : ∀ slot < plan.relativePositions.length,
    ∃ posting ∈ plan.alternatives slot, positions slot ∈ posting.positions docId
  gaps : ∀ slot, slot + 1 < plan.relativePositions.length →
    plan.relativePosition (slot + 1) - plan.relativePosition slot ≤
      (positions (slot + 1) : ℤ) - positions slot

/-- How much wider the gaps of an assignment are than those of the phrase, taken together. -/
def extraGap (positions : ℕ → ℕ) : ℤ :=
  ∑ slot ∈ Finset.range (plan.relativePositions.length - 1),
    (((positions (slot + 1) : ℤ) - positions slot) -
      (plan.relativePosition (slot + 1) - plan.relativePosition slot))

/-- The extra gaps of all assignments. -/
def ExtraGaps (docId : ℕ) : Set ℤ :=
  {s | ∃ positions, plan.Assignment docId positions ∧ plan.extraGap positions = s}

variable {plan} {docId : ℕ}

/-- Only the ends of an assignment count. -/
theorem extraGap_eq (positions : ℕ → ℕ) :
    plan.extraGap positions =
      ((positions (plan.relativePositions.length - 1) : ℤ) -
        plan.relativePosition (plan.relativePositions.length - 1)) -
      (positions 0 - plan.relativePosition 0) := by
  have hlevels : ∀ slot, ((positions (slot + 1) : ℤ) - positions slot) -
      (plan.relativePosition (slot + 1) - plan.relativePosition slot) =
        (positions (slot + 1) - plan.relativePosition (slot + 1)) -
          (positions slot - plan.relativePosition slot) := fun slot => by omega
  rw [extraGap, Finset.sum_congr rfl fun slot _ => hlevels slot, Finset.sum_range_sub
    fun slot => (positions slot : ℤ) - plan.relativePosition slot]

/-- A placement whose levels are given by slot. -/
theorem ascent_range_iff {count : ℕ} {level : ℕ → ℤ} :
    Ascent (· ≤ ·) (plan.Placed docId) (List.range count) ((List.range count).map level) ↔
      (∀ slot < count, plan.Placed docId slot (level slot)) ∧
        ∀ slot, slot + 1 < count → level slot ≤ level (slot + 1) := by
  rw [Ascent, List.forall₂_map_right_iff, List.forall₂_same, List.isChain_map, List.isChain_range]
  simp only [List.mem_range]
  refine and_congr_right' (forall_congr' fun slot => ?_)
  rw [Nat.lt_sub_iff_add_lt]

theorem exists_level {count : ℕ} {levels : List ℤ}
    (h : Ascent (· ≤ ·) (plan.Placed docId) (List.range count) levels) :
    ∃ level, levels = (List.range count).map level := by
  have hlength : levels.length = count := by rw [← h.1.length_eq, List.length_range]
  refine ⟨fun slot => levels.getD slot 0, List.ext_getElem (by simp [hlength]) fun slot hslot _ => ?_⟩
  simp [List.getElem?_eq_getElem hslot]

theorem spread_range (level : ℕ → ℤ) (count : ℕ) :
    spread ((List.range count).map level) = level (count - 1) - level 0 := by
  cases count with
  | zero => simp [spread]
  | succ count => simp [spread, List.getLast?_range, List.head?_range]

/-- The assignments are the placements, seen by positions instead of levels. -/
theorem mem_extraGaps_iff {s : ℤ} : s ∈ plan.ExtraGaps docId ↔ ∃ levels,
    Ascent (· ≤ ·) (plan.Placed docId) (List.range plan.relativePositions.length) levels ∧
      spread levels = s := by
  symm
  constructor
  · rintro ⟨levels, hlevels, rfl⟩
    obtain ⟨level, rfl⟩ := exists_level hlevels
    obtain ⟨hplaced, hascending⟩ := ascent_range_iff.mp hlevels
    have hposition : ∀ slot < plan.relativePositions.length,
        ((level slot + plan.relativePosition slot).toNat : ℤ) =
          level slot + plan.relativePosition slot :=
      fun slot hslot => Int.toNat_of_nonneg (hplaced slot hslot).nonneg
    refine ⟨fun slot => (level slot + plan.relativePosition slot).toNat, ⟨?_, ?_⟩, ?_⟩
    · intro slot hslot
      obtain ⟨posting, hposting, position, hmem, heq⟩ := hplaced slot hslot
      refine ⟨posting, hposting, ?_⟩
      rwa [← heq, Int.toNat_natCast]
    · intro slot hslot
      have := hascending slot hslot
      rw [hposition slot (by omega), hposition (slot + 1) hslot]
      omega
    · rw [extraGap_eq, spread_range]
      cases hcount : plan.relativePositions.length with
      | zero => simp
      | succ count =>
        rw [hposition _ (by omega), hposition 0 (by omega)]
        omega
  · rintro ⟨positions, h, rfl⟩
    refine ⟨(List.range plan.relativePositions.length).map fun slot =>
      (positions slot : ℤ) - plan.relativePosition slot,
      ascent_range_iff.mpr ⟨fun slot hslot => ?_, fun slot hslot => ?_⟩, ?_⟩
    · obtain ⟨posting, hposting, hmem⟩ := h.occurs slot hslot
      exact ⟨posting, hposting, _, hmem, by omega⟩
    · have := h.gaps slot hslot
      omega
    · rw [spread_range, extraGap_eq]

/-! ### The searches -/

theorem anchorSlot_of_validate {docId anchorSlot : ℤ}
    (h : plan.validate docId anchorSlot = .ok ()) :
    0 ≤ anchorSlot ∧ anchorSlot.toNat < plan.relativePositions.length := by
  unfold validate at h
  split_ifs at h with _ _ _ hanchor
  omega

theorem minimumConsumedSlop_eq {docId anchorSlot requestedSlop : ℤ}
    (hvalid : plan.validate docId anchorSlot = .ok ()) (hslop : 0 ≤ requestedSlop) :
    plan.minimumConsumedSlop docId anchorSlot requestedSlop =
      .ok ((minimumConsumed (plan.consumedAt docId.toNat anchorSlot.toNat) requestedSlop.toNat none
        (plan.anchorPositions docId.toNat anchorSlot.toNat)).getD (-1)) := by
  rw [minimumConsumedSlop, if_neg (not_lt.mpr hslop), hvalid]
  rfl

theorem minimumConsumed_isLeast (hsmall : plan.Small docId) {anchorSlot : ℕ}
    (hanchor : anchorSlot < plan.relativePositions.length) (requestedSlop : ℕ) {m : ℤ} :
    minimumConsumed (plan.consumedAt docId anchorSlot) requestedSlop none
      (plan.anchorPositions docId anchorSlot) = some m ↔
        IsLeast {s | s ∈ plan.ExtraGaps docId ∧ s ≤ requestedSlop} m := by
  rw [minimumConsumed_eq_some_iff hsmall hanchor requestedSlop]
  refine iff_of_eq (congrArg (IsLeast · m) (Set.ext fun s => ?_))
  constructor
  · rintro ⟨levels, hlevels, hspread, hle⟩
    exact ⟨mem_extraGaps_iff.mpr ⟨levels, hlevels, hspread⟩, hle⟩
  · rintro ⟨hmem, hle⟩
    obtain ⟨levels, hlevels, hspread⟩ := mem_extraGaps_iff.mp hmem
    exact ⟨levels, hlevels, hspread, hle⟩

theorem nonneg_of_mem_extraGaps {s : ℤ} (h : s ∈ plan.ExtraGaps docId) : 0 ≤ s := by
  obtain ⟨levels, hlevels, rfl⟩ := mem_extraGaps_iff.mp h
  exact spread_nonneg hlevels

/-- What the search returns is a matter of the assignments alone. -/
theorem minimumConsumedSlop_spec {docId anchorSlot requestedSlop : ℤ}
    (hvalid : plan.validate docId anchorSlot = .ok ()) (hslop : 0 ≤ requestedSlop)
    (hsmall : plan.Small docId.toNat) :
    (∀ m, IsLeast (plan.ExtraGaps docId.toNat) m → m ≤ requestedSlop →
      plan.minimumConsumedSlop docId anchorSlot requestedSlop = .ok m) ∧
    ((∀ m ∈ plan.ExtraGaps docId.toNat, requestedSlop < m) →
      plan.minimumConsumedSlop docId anchorSlot requestedSlop = .ok (-1)) := by
  have hanchor := (anchorSlot_of_validate hvalid).2
  rw [minimumConsumedSlop_eq hvalid hslop]
  constructor
  · intro m hleast hle
    have hfound := (minimumConsumed_isLeast hsmall hanchor requestedSlop.toNat).mpr
      ⟨⟨hleast.1, by omega⟩, fun s hs => hleast.2 hs.1⟩
    rw [hfound, Option.getD_some]
  · intro hlarge
    cases hfound : minimumConsumed (plan.consumedAt docId.toNat anchorSlot.toNat)
      requestedSlop.toNat none (plan.anchorPositions docId.toNat anchorSlot.toNat) with
    | none => rfl
    | some m =>
      obtain ⟨⟨hmem, hle⟩, -⟩ := (minimumConsumed_isLeast hsmall hanchor _).mp hfound
      have := hlarge m hmem
      omega

/-- Some assignment has the least extra gap, or none is within a slop. -/
theorem exists_isLeast_or (requestedSlop : ℤ) :
    (∃ m, IsLeast (plan.ExtraGaps docId) m ∧ m ≤ requestedSlop) ∨
      ∀ m ∈ plan.ExtraGaps docId, requestedSlop < m := by
  by_cases hexists : ∃ m ∈ plan.ExtraGaps docId, m ≤ requestedSlop
  · obtain ⟨s, hs, hle⟩ := hexists
    obtain ⟨m, hm, hleast⟩ := Int.exists_least_of_bdd (P := (· ∈ plan.ExtraGaps docId))
      ⟨0, fun s hs => nonneg_of_mem_extraGaps hs⟩ ⟨s, hs⟩
    exact .inl ⟨m, ⟨hm, hleast⟩, (hleast s hs).trans hle⟩
  · exact .inr fun m hm => not_le.mp fun hle => hexists ⟨m, hm, hle⟩

/-- The exact search finds an assignment without extra gaps. -/
theorem any_matchesAt_iff_mem (hsmall : plan.Small docId) {anchorSlot : ℕ}
    (hanchor : anchorSlot < plan.relativePositions.length) :
    ((plan.anchorPositions docId anchorSlot).any fun position =>
      plan.matchesAt docId anchorSlot position) = true ↔ 0 ∈ plan.ExtraGaps docId := by
  rw [any_matchesAt_iff hsmall hanchor, mem_extraGaps_iff]
  constructor
  · rintro ⟨level, hlevel⟩
    exact ⟨_, ascent_replicate hlevel, spread_replicate _ level⟩
  · rintro ⟨levels, hlevels, hspread⟩
    exact placed_of_spread_zero hlevels hspread.le

/-- Whatever the anchor, the search returns the least extra gap of the assignments if it is within
the slop that is asked for, and `-1` otherwise; the exact search succeeds where it returns zero for
no slop. -/
theorem minimumConsumedSlop_isLeast {Score : Type} {ops : Scoring Score} (plan : PhrasePlan ops)
    {docId anchorSlot requestedSlop : ℤ} (hvalid : plan.validate docId anchorSlot = .ok ())
    (hslop : 0 ≤ requestedSlop) (hsmall : plan.Small docId.toNat) :
    ((∃ m, IsLeast (plan.ExtraGaps docId.toNat) m ∧ m ≤ requestedSlop ∧
        plan.minimumConsumedSlop docId anchorSlot requestedSlop = .ok m) ∨
      (∀ m ∈ plan.ExtraGaps docId.toNat, requestedSlop < m) ∧
        plan.minimumConsumedSlop docId anchorSlot requestedSlop = .ok (-1)) ∧
    (∀ other, plan.validate docId other = .ok () →
      plan.minimumConsumedSlop docId other requestedSlop =
        plan.minimumConsumedSlop docId anchorSlot requestedSlop) ∧
    ∃ found, plan.matchesSlots docId anchorSlot = .ok found ∧
      (found = true ↔ plan.minimumConsumedSlop docId anchorSlot 0 = .ok 0) := by
  have hspec := fun anchor hvalid => @minimumConsumedSlop_spec _ _ plan docId anchor requestedSlop
    hvalid hslop hsmall
  refine ⟨?_, fun other hother => ?_, ?_⟩
  · rcases exists_isLeast_or requestedSlop with ⟨m, hleast, hle⟩ | hlarge
    · exact .inl ⟨m, hleast, hle, (hspec anchorSlot hvalid).1 m hleast hle⟩
    · exact .inr ⟨hlarge, (hspec anchorSlot hvalid).2 hlarge⟩
  · rcases exists_isLeast_or requestedSlop with ⟨m, hleast, hle⟩ | hlarge
    · rw [(hspec other hother).1 m hleast hle, (hspec anchorSlot hvalid).1 m hleast hle]
    · rw [(hspec other hother).2 hlarge, (hspec anchorSlot hvalid).2 hlarge]
  · refine ⟨_, by rw [matchesSlots, hvalid]; rfl, ?_⟩
    rw [any_matchesAt_iff_mem hsmall (anchorSlot_of_validate hvalid).2]
    obtain ⟨hfound, hmissing⟩ := minimumConsumedSlop_spec hvalid le_rfl hsmall
    constructor
    · intro hmem
      exact hfound 0 ⟨hmem, fun s hs => nonneg_of_mem_extraGaps hs⟩ le_rfl
    · intro hzero
      rcases exists_isLeast_or 0 with ⟨m, hleast, hle⟩ | hlarge
      · obtain rfl : m = 0 := le_antisymm hle (nonneg_of_mem_extraGaps hleast.1)
        exact hleast.1
      · rw [hmissing hlarge] at hzero
        cases hzero

/-- The posting list of a term of the document 0. -/
def postedAt (positions : List ℕ) (hne : positions ≠ [])
    (hincreasing : positions.Pairwise (· < ·)) : PostingList :=
  PostingList.empty.withPositions 0 positions hne hincreasing

/-- A phrase of three slots with a gap before the last.  The slots occur several times, the second in
two terms. -/
def late : PhrasePlan counts where
  textIndex := none
  scoringTerms := []
  candidates := ∅
  config := ()
  averageDocumentLength := 0
  relativePositions := [0, 1, 3]
  alternativesBySlot := [[postedAt [2, 6] (by decide) (by decide)],
    [postedAt [4, 20] (by decide) (by decide), postedAt [8] (by decide) (by decide)],
    [postedAt [9, 12, 25] (by decide) (by decide)]]
  anchorSlot := some 0
  requestedSlop := 0

/-- The positions 2, 4 and 9 are four further apart than in the phrase; 6, 8 and 12 are the best with
three, from whichever slot the search begins, and two are too few. -/
theorem minimumConsumedSlop_isLeast_late : IsLeast (late.ExtraGaps 0) 3 ∧
    late.minimumConsumedSlop 0 1 4 = .ok 3 ∧ late.minimumConsumedSlop 0 2 4 = .ok 3 ∧
    (∀ m ∈ late.ExtraGaps 0, 2 < m) ∧ late.minimumConsumedSlop 0 1 2 = .ok (-1) ∧
    late.matchesSlots 0 1 = .ok false := by
  have hsmall : late.Small 0 := by
    rintro slot c ⟨posting, hposting, position, hmem, rfl⟩
    have hbound : ∀ slot < 3, ∀ posting ∈ late.alternatives slot,
        ∀ position ∈ posting.positions 0, position ≤ 25 := by decide
    rcases Nat.lt_or_ge slot 3 with hslot | hslot
    · have := hbound slot hslot posting hposting position hmem
      omega
    · obtain ⟨_, rfl⟩ := Nat.exists_eq_add_of_le' hslot
      cases hposting
  have hvalid : late.validate 0 1 = .ok () := rfl
  have hthree : late.minimumConsumedSlop 0 1 4 = .ok 3 := by decide +kernel
  have hfew : late.minimumConsumedSlop 0 1 2 = .ok (-1) := by decide +kernel
  obtain ⟨hleast, hanchors, found, hfound, hexact⟩ :=
    late.minimumConsumedSlop_isLeast hvalid (by decide : (0 : ℤ) ≤ 4) hsmall
  obtain ⟨hnone, -⟩ := late.minimumConsumedSlop_isLeast hvalid (by decide : (0 : ℤ) ≤ 2) hsmall
  have hlast : late.minimumConsumedSlop 0 2 4 = .ok 3 := (hanchors 2 rfl).trans hthree
  have hmissing : found = false := by
    rw [← Bool.not_eq_true, hexact]
    decide +kernel
  refine ⟨?_, hthree, hlast, ?_, hfew, hmissing ▸ hfound⟩
  · obtain ⟨m, hm, -, hvalue⟩ | ⟨-, hvalue⟩ := hleast
    · obtain rfl : m = 3 := Except.ok.inj (hvalue.symm.trans hthree)
      exact hm
    · cases hvalue.symm.trans hthree
  · obtain ⟨m, hm, -, hvalue⟩ | ⟨hlarge, -⟩ := hnone
    · obtain rfl : m = -1 := Except.ok.inj (hvalue.symm.trans hfew)
      have := nonneg_of_mem_extraGaps hm.1
      omega
    · exact hlarge

end PhrasePlan

end GeneralSearch.Ranked
