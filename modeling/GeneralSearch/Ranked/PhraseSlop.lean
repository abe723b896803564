import GeneralSearch.Lib.Greedy
import GeneralSearch.Ranked.Coverage
import Mathlib.Order.Bounds.Basic

/-! What `PhrasePlan.consumedSlop` computes: the least slop with which the slots of the phrase can be
placed in order, however the search for it is anchored. -/

namespace GeneralSearch.Ranked

open GeneralSearch.Index GeneralSearch.Planner GeneralSearch.Lib

/-! ### Nearest positions -/

/-- The result of a search: `-1`, or the position that comes first in a direction. -/
def Closest (r : ℤ → ℤ → Prop) (occurs : ℤ → Prop) (start result : ℤ) : Prop :=
  (result = -1 ∧ ∀ c, occurs c → ¬ r start c) ∨
    (occurs result ∧ r start result ∧ ∀ c, occurs c → r start c → r result c)

section

variable {positions : List ℕ} {start candidate : ℤ} {low bound : ℕ}

/-- The position at an index. -/
theorem mem_iff_getD {p : ℕ} :
    p ∈ positions ↔ ∃ i < positions.length, positions.getD i 0 = p := by
  rw [List.mem_iff_getElem]
  constructor
  · rintro ⟨i, hi, rfl⟩
    exact ⟨i, hi, by rw [List.getD_eq_getElem?_getD, List.getElem?_eq_getElem hi]; rfl⟩
  · rintro ⟨i, hi, rfl⟩
    exact ⟨i, hi, by rw [List.getD_eq_getElem?_getD, List.getElem?_eq_getElem hi]; rfl⟩

theorem getD_mono (h : positions.Pairwise (· < ·)) {i j : ℕ} (hij : i ≤ j)
    (hj : j < positions.length) : positions.getD i 0 ≤ positions.getD j 0 := by
  rw [List.getD_eq_getElem?_getD, List.getD_eq_getElem?_getD, List.getElem?_eq_getElem hj,
    List.getElem?_eq_getElem (hij.trans_lt hj)]
  rcases hij.lt_or_eq with hlt | rfl
  · exact (List.pairwise_iff_getElem.mp h i j _ _ hlt).le
  · exact le_rfl

/-- Positions below `low` are too small, and those from `bound` on are not. -/
theorem earliestSearch_closest (h : positions.Pairwise (· < ·)) (hbound : bound ≤ positions.length)
    (hlow : low ≤ bound) (hbelow : ∀ i < low, (positions.getD i 0 : ℤ) < start)
    (habove : ∀ i, bound ≤ i → i < positions.length → start ≤ positions.getD i 0)
    (hcandidate : candidate = if bound < positions.length then (positions.getD bound 0 : ℤ) else -1) :
    Closest (· ≤ ·) (fun c => ∃ p ∈ positions, (p : ℤ) = c) start
      (earliestSearch positions start low bound candidate) := by
  fun_induction earliestSearch positions start low bound candidate with
  | case1 low bound candidate hlt middle position hposition ih =>
    refine ih (by omega) (by omega) hbelow (fun i hi hlength => ?_) ?_
    · have hmono := getD_mono h hi hlength
      omega
    · rw [if_pos (by omega)]
  | case2 low bound candidate hlt middle position hposition ih =>
    refine ih hbound (by omega) (fun i hi => ?_) habove hcandidate
    have hmono := getD_mono h (show i ≤ middle by omega) (by omega)
    omega
  | case3 low bound candidate hlt =>
    obtain rfl : low = bound := by omega
    split at hcandidate
    · rename_i hlength
      refine .inr ⟨⟨_, mem_iff_getD.mpr ⟨low, hlength, rfl⟩, hcandidate.symm⟩,
        hcandidate ▸ habove low le_rfl hlength, ?_⟩
      rintro c ⟨p, hp, rfl⟩ hstart
      obtain ⟨i, hi, rfl⟩ := mem_iff_getD.mp hp
      have hfar : low ≤ i := by
        by_contra hless
        have := hbelow i (by omega)
        omega
      rw [hcandidate]
      exact_mod_cast getD_mono h hfar hi
    · refine .inl ⟨hcandidate, ?_⟩
      rintro c ⟨p, hp, rfl⟩
      obtain ⟨i, hi, rfl⟩ := mem_iff_getD.mp hp
      have := hbelow i (by omega)
      omega

/-- Positions below `low` are small enough, and those from `bound` on are not. -/
theorem latestSearch_closest (h : positions.Pairwise (· < ·)) (hbound : bound ≤ positions.length)
    (hlow : low ≤ bound) (hbelow : ∀ i < low, (positions.getD i 0 : ℤ) ≤ start)
    (habove : ∀ i, bound ≤ i → i < positions.length → start < positions.getD i 0)
    (hcandidate : candidate = if 0 < low then (positions.getD (low - 1) 0 : ℤ) else -1) :
    Closest (· ≥ ·) (fun c => ∃ p ∈ positions, (p : ℤ) = c) start
      (latestSearch positions start low bound candidate) := by
  fun_induction latestSearch positions start low bound candidate with
  | case1 low bound candidate hlt middle position hposition ih =>
    refine ih hbound (by omega) (fun i hi => ?_) habove ?_
    · have hmono := getD_mono h (show i ≤ middle by omega) (by omega)
      omega
    · rw [if_pos (by omega), Nat.add_sub_cancel]
  | case2 low bound candidate hlt middle position hposition ih =>
    refine ih (by omega) (by omega) hbelow (fun i hi hlength => ?_) hcandidate
    have hmono := getD_mono h hi hlength
    omega
  | case3 low bound candidate hlt =>
    obtain rfl : low = bound := by omega
    split at hcandidate
    · rename_i hpos
      refine .inr ⟨⟨_, mem_iff_getD.mpr ⟨low - 1, by omega, rfl⟩, hcandidate.symm⟩,
        hcandidate ▸ hbelow (low - 1) (by omega), ?_⟩
      rintro c ⟨p, hp, rfl⟩ hstart
      obtain ⟨i, hi, rfl⟩ := mem_iff_getD.mp hp
      have hnear : i ≤ low - 1 := by
        by_contra hless
        have := habove i (by omega) hi
        omega
      rw [hcandidate]
      exact_mod_cast getD_mono h hnear (by omega)
    · refine .inl ⟨hcandidate, ?_⟩
      rintro c ⟨p, hp, rfl⟩
      obtain ⟨i, hi, rfl⟩ := mem_iff_getD.mp hp
      have := habove i (by omega) hi
      omega

end

/-! ### Alternatives -/

section

variable {occurs occurs' : ℤ → Prop} {start a b : ℤ}

/-- The earlier of two results is that of both searches. -/
theorem Closest.earlier (hocc : ∀ c, occurs c → 0 ≤ c) (hocc' : ∀ c, occurs' c → 0 ≤ c)
    (ha : Closest (· ≤ ·) occurs start a) (hb : Closest (· ≤ ·) occurs' start b) :
    Closest (· ≤ ·) (fun c => occurs c ∨ occurs' c) start
      (if b ≥ 0 ∧ (a < 0 ∨ b < a) then b else a) := by
  rcases ha with ⟨rfl, hnone⟩ | ⟨hoccurs, hstart, hleast⟩ <;>
    rcases hb with ⟨rfl, hnone'⟩ | ⟨hoccurs', hstart', hleast'⟩
  · rw [if_neg (by omega)]
    exact .inl ⟨rfl, fun c hc => hc.elim (hnone c) (hnone' c)⟩
  · have hpos := hocc' b hoccurs'
    rw [if_pos (by omega)]
    exact .inr ⟨.inr hoccurs', hstart', fun c hc hle =>
      hc.elim (fun hc => absurd hle (hnone c hc)) fun hc => hleast' c hc hle⟩
  · rw [if_neg (by omega)]
    exact .inr ⟨.inl hoccurs, hstart, fun c hc hle =>
      hc.elim (fun hc => hleast c hc hle) fun hc => absurd hle (hnone' c hc)⟩
  · have hpos := hocc a hoccurs
    have hpos' := hocc' b hoccurs'
    split
    · exact .inr ⟨.inr hoccurs', hstart', fun c hc hle =>
        hc.elim (fun hc => by have := hleast c hc hle; omega) fun hc => hleast' c hc hle⟩
    · exact .inr ⟨.inl hoccurs, hstart, fun c hc hle =>
        hc.elim (fun hc => hleast c hc hle) fun hc => by have := hleast' c hc hle; omega⟩

/-- The later of two results is that of both searches. -/
theorem Closest.later (hocc : ∀ c, occurs c → 0 ≤ c) (hocc' : ∀ c, occurs' c → 0 ≤ c)
    (ha : Closest (· ≥ ·) occurs start a) (hb : Closest (· ≥ ·) occurs' start b) :
    Closest (· ≥ ·) (fun c => occurs c ∨ occurs' c) start (max a b) := by
  rcases ha with ⟨rfl, hnone⟩ | ⟨hoccurs, hstart, hleast⟩ <;>
    rcases hb with ⟨rfl, hnone'⟩ | ⟨hoccurs', hstart', hleast'⟩
  · exact .inl ⟨rfl, fun c hc => hc.elim (hnone c) (hnone' c)⟩
  · have hpos := hocc' b hoccurs'
    rw [max_eq_right (by omega)]
    exact .inr ⟨.inr hoccurs', hstart', fun c hc hle =>
      hc.elim (fun hc => absurd hle (hnone c hc)) fun hc => hleast' c hc hle⟩
  · have hpos := hocc a hoccurs
    rw [max_eq_left (by omega)]
    exact .inr ⟨.inl hoccurs, hstart, fun c hc hle =>
      hc.elim (fun hc => hleast c hc hle) fun hc => absurd hle (hnone' c hc)⟩
  · rcases le_total a b with hab | hab
    · rw [max_eq_right hab]
      exact .inr ⟨.inr hoccurs', hstart', fun c hc hle =>
        hc.elim (fun hc => by have := hleast c hc hle; omega) fun hc => hleast' c hc hle⟩
    · rw [max_eq_left hab]
      exact .inr ⟨.inl hoccurs, hstart, fun c hc hle =>
        hc.elim (fun hc => hleast c hc hle) fun hc => by have := hleast' c hc hle; omega⟩

end

/-- One of the alternatives occurs at a position of the document. -/
def OccursAt (alternatives : List PostingList) (docId : ℕ) (c : ℤ) : Prop :=
  ∃ posting ∈ alternatives, ∃ p ∈ posting.positions docId, (p : ℤ) = c

section

variable {alternatives : List PostingList} {docId : ℕ} {start : ℤ}

theorem OccursAt.nonneg {c : ℤ} (h : OccursAt alternatives docId c) : 0 ≤ c := by
  obtain ⟨_, _, p, _, rfl⟩ := h
  omega

theorem posting_earliest (posting : PostingList) :
    Closest (· ≤ ·) (fun c => ∃ p ∈ posting.positions docId, (p : ℤ) = c) start
      (earliestSearch (posting.positions docId) start 0 (posting.termFrequency docId) (-1)) :=
  earliestSearch_closest (posting.increasing docId) le_rfl (Nat.zero_le _)
    (fun i hi => absurd hi (Nat.not_lt_zero i))
    (fun _ hi hlength => absurd hlength (Nat.not_lt.mpr hi)) (if_neg (lt_irrefl _)).symm

theorem posting_latest (posting : PostingList) :
    Closest (· ≥ ·) (fun c => ∃ p ∈ posting.positions docId, (p : ℤ) = c) start
      (latestSearch (posting.positions docId) start 0 (posting.termFrequency docId) (-1)) :=
  latestSearch_closest (posting.increasing docId) le_rfl (Nat.zero_le _)
    (fun i hi => absurd hi (Nat.not_lt_zero i))
    (fun _ hi hlength => absurd hlength (Nat.not_lt.mpr hi)) (if_neg (lt_irrefl _)).symm

theorem Closest.congr {r : ℤ → ℤ → Prop} {occurs occurs' : ℤ → Prop} {a : ℤ}
    (h : Closest r occurs start a) (heq : ∀ c, occurs c ↔ occurs' c) :
    Closest r occurs' start a := by
  rwa [show occurs' = occurs from funext fun c => propext (heq c).symm]

/-- A loop over the alternatives that combines the searches in each of them. -/
theorem closest_foldl {r : ℤ → ℤ → Prop} {combine : ℤ → PostingList → ℤ}
    (hcombine : ∀ (occurs : ℤ → Prop) (a : ℤ) (posting : PostingList),
      (∀ c, occurs c → 0 ≤ c) → Closest r occurs start a →
        Closest r (fun c => occurs c ∨ ∃ p ∈ posting.positions docId, (p : ℤ) = c) start
          (combine a posting)) :
    Closest r (OccursAt alternatives docId) start (alternatives.foldl combine (-1)) := by
  have hfold : ∀ (occurs : ℤ → Prop) (a : ℤ), (∀ c, occurs c → 0 ≤ c) →
      Closest r occurs start a →
        Closest r (fun c => occurs c ∨ OccursAt alternatives docId c) start
          (alternatives.foldl combine a) := by
    induction alternatives with
    | nil =>
      intro occurs a _ ha
      exact ha.congr fun c => by simp [OccursAt]
    | cons posting rest ih =>
      intro occurs a hocc ha
      refine (ih _ _ (fun c hc => ?_) (hcombine occurs a posting hocc ha)).congr fun c => ?_
      · rcases hc with hc | ⟨p, _, rfl⟩
        · exact hocc c hc
        · omega
      · simp only [OccursAt, List.exists_mem_cons_iff, or_assoc]
  refine (hfold (fun _ => False) (-1) (fun _ h => h.elim) (.inl ⟨rfl, fun _ h => h.elim⟩)).congr
    fun c => by rw [false_or]

theorem earliestAtOrAfter_closest (hsmall : ∀ c, OccursAt alternatives docId c → c ≤ 2147483647) :
    Closest (· ≤ ·) (OccursAt alternatives docId) start
      (earliestAtOrAfter alternatives docId start) := by
  unfold earliestAtOrAfter
  split
  · refine .inl ⟨rfl, fun c hc => ?_⟩
    have := hsmall c hc
    omega
  · refine closest_foldl fun occurs a posting hocc ha => ha.earlier hocc ?_ (posting_earliest posting)
    rintro _ ⟨p, _, rfl⟩
    omega

theorem latestAtOrBefore_closest :
    Closest (· ≥ ·) (OccursAt alternatives docId) start
      (latestAtOrBefore alternatives docId start) := by
  unfold latestAtOrBefore
  split
  · refine .inl ⟨rfl, fun c hc => ?_⟩
    have := hc.nonneg
    omega
  · refine closest_foldl fun occurs a posting hocc ha => ha.later hocc ?_ (posting_latest posting)
    rintro _ ⟨p, _, rfl⟩
    omega

end

/-! ### Slots -/

namespace PhrasePlan

variable {Score : Type} {ops : Scoring Score} (plan : PhrasePlan ops) (docId : ℕ)

/-- A slot can be placed at a level: where its relative position is that much after the start. -/
def Placed (slot : ℕ) (level : ℤ) : Prop :=
  OccursAt (plan.alternatives slot) docId (level + plan.relativePosition slot)

/-- The choice of `selectRight` for a slot. -/
def nextLevel (slot : ℕ) (level : ℤ) : Option ℤ :=
  let selected := earliestAtOrAfter (plan.alternatives slot) docId
    (level + plan.relativePosition slot)
  if selected < 0 then none else some (selected - plan.relativePosition slot)

/-- The choice of `selectLeft` for a slot. -/
def previousLevel (slot : ℕ) (level : ℤ) : Option ℤ :=
  let selected := latestAtOrBefore (plan.alternatives slot) docId
    (level + plan.relativePosition slot)
  if selected < 0 then none else some (selected - plan.relativePosition slot)

variable {plan docId} {slot count : ℕ} {level : ℤ}

theorem nextLevel_nearest
    (hsmall : ∀ c, OccursAt (plan.alternatives slot) docId c → c ≤ 2147483647) :
    Nearest (· ≤ ·) (plan.Placed docId) (plan.nextLevel docId) slot := by
  constructor
  · intro a b hb
    have hclosest : Closest (· ≤ ·) _ (a + plan.relativePosition slot) _ :=
      earliestAtOrAfter_closest hsmall
    unfold nextLevel at hb
    dsimp only at hb
    split at hb
    · cases hb
    · cases hb
      rcases hclosest with ⟨hnone, -⟩ | ⟨hoccurs, hstart, hleast⟩
      · omega
      · refine ⟨by rwa [Placed, Int.sub_add_cancel], by omega, fun c hc hac => ?_⟩
        have := hleast _ hc (by omega)
        omega
  · intro a ha c hc hac
    have hclosest : Closest (· ≤ ·) _ (a + plan.relativePosition slot) _ :=
      earliestAtOrAfter_closest hsmall
    unfold nextLevel at ha
    dsimp only at ha
    split at ha
    · rcases hclosest with ⟨-, hnone⟩ | ⟨hoccurs, -⟩
      · exact hnone _ hc (by omega)
      · have := hoccurs.nonneg
        omega
    · cases ha

theorem previousLevel_nearest :
    Nearest (fun b c => c ≤ b) (plan.Placed docId) (plan.previousLevel docId) slot := by
  constructor
  · intro a b hb
    have hclosest : Closest (· ≥ ·) (OccursAt (plan.alternatives slot) docId)
      (a + plan.relativePosition slot) _ := latestAtOrBefore_closest
    unfold previousLevel at hb
    dsimp only at hb
    split at hb
    · cases hb
    · cases hb
      rcases hclosest with ⟨hnone, -⟩ | ⟨hoccurs, hstart, hleast⟩
      · omega
      · refine ⟨by rwa [Placed, Int.sub_add_cancel], by omega, fun c hc hac => ?_⟩
        have := hleast _ hc (by omega)
        omega
  · intro a ha c hc hac
    have hclosest : Closest (· ≥ ·) (OccursAt (plan.alternatives slot) docId)
      (a + plan.relativePosition slot) _ := latestAtOrBefore_closest
    unfold previousLevel at ha
    dsimp only at ha
    split at ha
    · rcases hclosest with ⟨-, hnone⟩ | ⟨hoccurs, -⟩
      · exact hnone _ hc (by omega)
      · have := hoccurs.nonneg
        omega
    · cases ha

/-- The end of the choices from a level on. -/
def lastLevel (level : ℤ) (levels : List ℤ) : ℤ := (level :: levels).getLast (List.cons_ne_nil _ _)

@[simp] theorem lastLevel_nil (level : ℤ) : lastLevel level [] = level := rfl

@[simp] theorem lastLevel_cons (level first : ℤ) (levels : List ℤ) :
    lastLevel level (first :: levels) = lastLevel first levels := rfl

theorem selectRight_eq (plan : PhrasePlan ops) (docId slot count : ℕ) (level : ℤ) :
    plan.selectRight docId (List.range' (slot + 1) count) (level + plan.relativePosition slot) =
      (greedy (plan.nextLevel docId) (List.range' (slot + 1) count) level).map fun levels =>
        lastLevel level levels + plan.relativePosition (slot + count) := by
  induction count generalizing slot level with
  | zero => rfl
  | succ count ih =>
    rw [List.range'_succ, selectRight, greedy, nextLevel,
      Nat.add_sub_cancel, show level + plan.relativePosition slot +
      (plan.relativePosition (slot + 1) - plan.relativePosition slot) =
        level + plan.relativePosition (slot + 1) by omega]
    split
    · rfl
    · have hrest := ih (slot + 1) (earliestAtOrAfter (plan.alternatives (slot + 1)) docId
        (level + plan.relativePosition (slot + 1)) - plan.relativePosition (slot + 1))
      rw [Int.sub_add_cancel] at hrest
      rw [hrest, Option.bind_some, Option.map_map, show slot + (count + 1) = slot + 1 + count by omega]
      rfl

theorem selectLeft_eq (plan : PhrasePlan ops) (docId slot : ℕ) (level : ℤ) :
    plan.selectLeft docId slot (level + plan.relativePosition slot) =
      (greedy (plan.previousLevel docId) (List.range slot).reverse level).map fun levels =>
        lastLevel level levels + plan.relativePosition 0 := by
  induction slot generalizing level with
  | zero => rfl
  | succ slot ih =>
    rw [List.range_succ, List.reverse_append, List.reverse_singleton, List.singleton_append,
      selectLeft, greedy, previousLevel]
    rw [show level + plan.relativePosition (slot + 1) -
      (plan.relativePosition (slot + 1) - plan.relativePosition slot) =
        level + plan.relativePosition slot by omega]
    split
    · rfl
    · have hrest := ih (latestAtOrBefore (plan.alternatives slot) docId
        (level + plan.relativePosition slot) - plan.relativePosition slot)
      rw [Int.sub_add_cancel] at hrest
      rw [hrest, Option.bind_some, Option.map_map]
      rfl

/-! ### The least slop -/

/-- How much further apart the ends of a placement are than in the phrase. -/
def spread (levels : List ℤ) : ℤ := levels.getLast?.getD 0 - levels.head?.getD 0

theorem head?_through (left : List ℤ) (level : ℤ) (right : List ℤ) :
    (left.reverse ++ level :: right).head? = some (lastLevel level left) := by
  rw [← List.getLast?_reverse, List.reverse_append, List.reverse_reverse, List.reverse_cons,
    List.append_assoc, List.singleton_append,
    List.getLast?_append_of_ne_nil _ (List.cons_ne_nil _ _), lastLevel,
    List.getLast?_eq_some_getLast]

theorem spread_through (left : List ℤ) (level : ℤ) (right : List ℤ) :
    spread (left.reverse ++ level :: right) = lastLevel level right - lastLevel level left := by
  have hlast : (left.reverse ++ level :: right).getLast? = some (lastLevel level right) := by
    rw [List.getLast?_append_of_ne_nil _ (List.cons_ne_nil _ _), lastLevel,
      List.getLast?_eq_some_getLast]
  rw [spread, hlast, head?_through]
  rfl

/-- The slops of the placements of a phrase within the slop that is asked for. -/
def Slops (plan : PhrasePlan ops) (docId : ℕ) : Set ℤ :=
  {s | ∃ levels, Ascent (· ≤ ·) (plan.Placed docId) (List.range plan.relativePositions.length) levels ∧
    spread levels = s ∧ s ≤ plan.requestedSlop}

/-- All positions of the document are positions of Java. -/
def Small (plan : PhrasePlan ops) (docId : ℕ) : Prop :=
  ∀ slot c, OccursAt (plan.alternatives slot) docId c → c ≤ 2147483647

theorem range_through {slot slots : ℕ} (h : slot < slots) :
    List.range slots = List.range slot ++ slot :: List.range' (slot + 1) (slots - (slot + 1)) := by
  have hsplit : List.range slots = List.range slot ++ List.range' slot (slots - slot) := by
    have happend : List.range' 0 slot ++ List.range' (0 + slot) (slots - slot) =
        List.range' 0 (slot + (slots - slot)) := List.range'_append_1
    rw [Nat.zero_add, show slot + (slots - slot) = slots by omega] at happend
    rw [List.range_eq_range', List.range_eq_range', happend]
  rw [hsplit, show slots - slot = slots - (slot + 1) + 1 by omega, List.range'_succ]

theorem consumedAt_eq (h : slot < plan.relativePositions.length) (level : ℤ)
    {position : ℕ} (hposition : (position : ℤ) = level + plan.relativePosition slot) :
    plan.consumedAt docId slot position =
      match greedy (plan.previousLevel docId) (List.range slot).reverse level,
        greedy (plan.nextLevel docId)
          (List.range' (slot + 1) (plan.relativePositions.length - (slot + 1))) level with
      | some left, some right => lastLevel level right - lastLevel level left
      | _, _ => -1 := by
  unfold consumedAt
  dsimp only
  rw [hposition, selectLeft_eq, selectRight_eq]
  cases greedy (plan.previousLevel docId) (List.range slot).reverse level with
  | none => rfl
  | some left =>
    cases greedy (plan.nextLevel docId)
        (List.range' (slot + 1) (plan.relativePositions.length - (slot + 1))) level with
    | none => rfl
    | some right =>
      rw [Option.map_some, Option.map_some,
        show slot + (plan.relativePositions.length - (slot + 1)) = plan.relativePositions.length - 1
          by omega]
      show _ = lastLevel level right - lastLevel level left
      dsimp only
      omega

theorem le_lastLevel {steps : List ℕ} {levels : List ℤ}
    (h : Climb (· ≤ ·) (plan.Placed docId) steps level levels) : level ≤ lastLevel level levels := by
  induction h with
  | nil => exact le_rfl
  | cons _ hle _ ih => exact hle.trans ih

theorem lastLevel_le {steps : List ℕ} {levels : List ℤ}
    (h : Climb (fun b c => c ≤ b) (plan.Placed docId) steps level levels) :
    lastLevel level levels ≤ level := by
  induction h with
  | nil => exact le_rfl
  | cons _ hle _ ih => exact ih.trans hle

/-- What is consumed at an occurrence of the anchor is the slop of a placement. -/
theorem exists_of_consumedAt (hsmall : plan.Small docId) (h : slot < plan.relativePositions.length)
    (hplaced : plan.Placed docId slot level) {position : ℕ}
    (hposition : (position : ℤ) = level + plan.relativePosition slot)
    (hconsumed : 0 ≤ plan.consumedAt docId slot position) :
    ∃ levels, Ascent (· ≤ ·) (plan.Placed docId) (List.range plan.relativePositions.length) levels ∧
      spread levels = plan.consumedAt docId slot position := by
  rw [consumedAt_eq h level hposition] at hconsumed ⊢
  split at hconsumed
  · rename_i left right hleft hright
    refine ⟨left.reverse ++ level :: right, ?_, spread_through left level right⟩
    rw [range_through h]
    exact ascent_through_iff.mpr ⟨left, level, right, rfl, hplaced,
      climb_of_greedy (fun _ _ => previousLevel_nearest) hleft,
      climb_of_greedy (fun s _ => nextLevel_nearest (hsmall s)) hright⟩
  · omega

/-- No placement through an occurrence of the anchor consumes less. -/
theorem consumedAt_le (hsmall : plan.Small docId) (h : slot < plan.relativePositions.length)
    {levels : List ℤ}
    (hlevels : Ascent (· ≤ ·) (plan.Placed docId) (List.range plan.relativePositions.length) levels) :
    ∃ position ∈ plan.anchorPositions docId slot,
      0 ≤ plan.consumedAt docId slot position ∧
        plan.consumedAt docId slot position ≤ spread levels := by
  rw [range_through h] at hlevels
  obtain ⟨left, level, right, rfl, hplaced, hleft, hright⟩ := ascent_through_iff.mp hlevels
  obtain ⟨posting, hposting, position, hmem, hposition⟩ := hplaced
  refine ⟨position, List.mem_flatMap.mpr ⟨posting, hposting, hmem⟩, ?_⟩
  have : IsTrans ℤ fun b c => c ≤ b := ⟨fun a b c hab hbc => hbc.trans hab⟩
  obtain ⟨left', hgreedy, hnear⟩ := exists_greedy
    (fun s _ => previousLevel_nearest) (le_refl level) hleft
  obtain ⟨right', hgreedy', hnear'⟩ := exists_greedy
    (fun s _ => nextLevel_nearest (hsmall s)) (le_refl level) hright
  rw [consumedAt_eq h level hposition, hgreedy, hgreedy', spread_through]
  have hlow := lastLevel_le (climb_of_greedy (fun _ _ => previousLevel_nearest) hgreedy)
  have hhigh := le_lastLevel (climb_of_greedy (fun s _ => nextLevel_nearest (hsmall s)) hgreedy')
  have hlow' : lastLevel level left ≤ lastLevel level left' :=
    getLast_related (r := fun b c => c ≤ b) le_rfl hnear
  have hhigh' : lastLevel level right' ≤ lastLevel level right :=
    getLast_related (r := (· ≤ ·)) le_rfl hnear'
  show 0 ≤ lastLevel level right' - lastLevel level left' ∧
    lastLevel level right' - lastLevel level left' ≤ lastLevel level right - lastLevel level left
  omega

/-- The loop finds the least of the values that are within the slop. -/
theorem minimumConsumed_eq {consumed : ℕ → ℤ} {requestedSlop : ℕ} {best : Option ℤ}
    (hbest : ∀ b ∈ best, 0 ≤ b) (positions : List ℕ) :
    minimumConsumed consumed requestedSlop best positions =
      (best.toList ++ (positions.map consumed).filter
        fun s : ℤ => decide (0 ≤ s ∧ s ≤ requestedSlop)).min? := by
  induction positions generalizing best with
  | nil => cases best <;> rfl
  | cons position positions ih =>
    rw [minimumConsumed, List.map_cons, List.filter_cons]
    simp only [decide_eq_true_eq]
    split
    · rename_i hwithin
      have hmin : (best.toList ++ consumed position :: (positions.map consumed).filter
          fun s : ℤ => decide (0 ≤ s ∧ s ≤ requestedSlop)).min? =
            (best.elim (consumed position) (min · (consumed position)) ::
              (positions.map consumed).filter fun s : ℤ => decide (0 ≤ s ∧ s ≤ requestedSlop)).min? := by
        cases best <;> rfl
      have hnonneg : 0 ≤ best.elim (consumed position) (min · (consumed position)) := by
        cases best with
        | none => exact hwithin.1
        | some b => exact le_min (hbest b rfl) hwithin.1
      rw [hmin]
      generalize best.elim (consumed position) (min · (consumed position)) = least at *
      split
      · rename_i hzero
        subst hzero
        refine (List.min?_eq_some_iff.mpr ⟨List.mem_cons_self, fun s hs => ?_⟩).symm
        rcases List.mem_cons.mp hs with rfl | hs
        · exact le_rfl
        · exact (of_decide_eq_true (List.mem_filter.mp hs).2).1
      · rw [ih fun b hb => by cases hb; exact hnonneg]
        rfl
    · exact ih hbest

theorem matchesAt_iff (hsmall : plan.Small docId) (hplaced : plan.Placed docId slot level)
    {position : ℕ} (hposition : (position : ℤ) = level + plan.relativePosition slot) :
    plan.matchesAt docId slot position = true ↔
      ∀ other < plan.relativePositions.length, plan.Placed docId other level := by
  unfold matchesAt
  simp only [List.all_eq_true, List.mem_range, Bool.or_eq_true, Bool.and_eq_true,
    decide_eq_true_eq, List.any_eq_true]
  refine forall₂_congr fun other _ => ?_
  have hrequired : (position : ℤ) + (plan.relativePosition other - plan.relativePosition slot) =
      level + plan.relativePosition other := by omega
  rw [hrequired]
  constructor
  · rintro (rfl | ⟨⟨hpos, -⟩, posting, hposting, hmem⟩)
    · exact hplaced
    · exact ⟨posting, hposting, _, hmem, by omega⟩
  · intro hother
    have hle := hsmall other _ hother
    have hnonneg := hother.nonneg
    obtain ⟨posting, hposting, p, hmem, hp⟩ := hother
    exact .inr ⟨⟨hnonneg, hle⟩, posting, hposting, by rwa [← hp, Int.toNat_natCast]⟩

/-- What `compilePhrase` makes of some slots. -/
structure Compiled (plan : PhrasePlan ops) (slots : List PhraseSlot) (index : TextIndexSnapshot)
    (slop : ℕ) : Prop where
  textIndex : plan.textIndex = some index
  relativePositions : plan.relativePositions = slots.map (·.relativePosition)
  alternativesBySlot : plan.alternativesBySlot =
    slots.map fun slot => slot.alternatives.map index.posting
  anchorSlot : ∃ anchorSlot < slots.length, plan.anchorSlot = some anchorSlot
  increasing : (slots.map (·.relativePosition)).Pairwise (· < ·)
  requestedSlop : plan.requestedSlop = slop
  candidates : ∀ d, (∀ slot ∈ slots, ∃ term ∈ slot.alternatives,
    d ∈ (index.posting term).documents) → d ∈ plan.candidates

theorem of_validateSlots {anchorSlot : ℕ} {relativePositions : List ℕ}
    {alternativesBySlot : List (List PostingList)} {u : Unit}
    (h : validateSlots anchorSlot relativePositions alternativesBySlot = .ok u) :
    anchorSlot < relativePositions.length ∧ relativePositions.Pairwise (· < ·) := by
  unfold validateSlots at h
  split at h
  · cases h
  · split at h
    · cases h
    · split at h
      · cases h
      · rename_i hanchor _ hincreasing
        exact ⟨not_le.mp hanchor, not_not.mp hincreasing⟩

/-- A document that every slot has stands in the intersection of their bitmaps. -/
theorem mem_intersectSorted {bitmaps : List IndexedCandidates} (hne : bitmaps ≠ []) {d : ℕ}
    (h : ∀ bitmap ∈ bitmaps, d ∈ bitmap.candidates) :
    d ∈ match bitmaps.insertionSort IndexedCandidates.le with
      | [] => ∅
      | first :: rest =>
        intersectFrom first.candidates (rest.map IndexedCandidates.candidates) := by
  have hperm := List.perm_insertionSort IndexedCandidates.le bitmaps
  cases hsort : bitmaps.insertionSort IndexedCandidates.le with
  | nil =>
    rw [hsort] at hperm
    exact absurd hperm.symm.eq_nil hne
  | cons first rest =>
    rw [hsort] at hperm
    refine mem_intersectFrom.mpr ⟨h first (hperm.mem_iff.mp List.mem_cons_self), fun s hs => ?_⟩
    obtain ⟨bitmap, hbitmap, rfl⟩ := List.mem_map.mp hs
    exact h bitmap (hperm.mem_iff.mp (List.mem_cons_of_mem _ hbitmap))

theorem compiled_of_ok {config : ops.Config} {slots : List PhraseSlot} (hne : slots ≠ [])
    {scoringTerms : List JString} {index : TextIndexSnapshot} {slop : ℕ}
    (h : compilePhrase ops config slots scoringTerms (some index) slop = .ok plan) :
    plan.Compiled slots index slop := by
  unfold compilePhrase at h
  rw [if_neg (by simpa using hne)] at h
  simp only [bind_eq_ok] at h
  obtain ⟨prepared, hprepared, _, hvalid, hplan⟩ := h
  cases hplan
  obtain ⟨hanchor, hincreasing⟩ := of_validateSlots hvalid
  refine ⟨rfl, rfl, rfl, ⟨_, ?_, rfl⟩, hincreasing, rfl, fun d hd => mem_intersectSorted ?_ ?_⟩
  · rwa [List.length_map] at hanchor
  · simpa using hne
  · intro bitmap hbitmap
    obtain ⟨⟨alternatives, slotIndex⟩, hmem, rfl⟩ := List.mem_map.mp hbitmap
    obtain ⟨slot, hslot, rfl⟩ := List.mem_map.mp (List.fst_mem_of_mem_zipIdx hmem)
    obtain ⟨term, hterm, hdocument⟩ := hd slot hslot
    exact mem_unionAll.mpr ⟨_, List.mem_map_of_mem (List.mem_map_of_mem hterm), hdocument⟩

theorem spread_nonneg {steps : List ℕ} {levels : List ℤ}
    (h : Ascent (· ≤ ·) (plan.Placed docId) steps levels) : 0 ≤ spread levels := by
  obtain ⟨hplaced, hchain⟩ := h
  cases hplaced with
  | nil => exact le_rfl
  | @cons slot level steps levels hfirst hrest =>
    have hle := le_lastLevel (climb_iff.mpr ⟨hrest, hchain⟩)
    have hspread := spread_through [] level levels
    rw [List.reverse_nil, List.nil_append, lastLevel_nil] at hspread
    omega

section

variable {slots : List PhraseSlot} {index : TextIndexSnapshot} {slop : ℕ}

theorem Compiled.alternatives_eq (hplan : plan.Compiled slots index slop) {slot : ℕ}
    (h : slot < slots.length) :
    plan.alternatives slot = slots[slot].alternatives.map index.posting := by
  rw [PhrasePlan.alternatives, hplan.alternativesBySlot, List.getD_eq_getElem?_getD,
    List.getElem?_map, List.getElem?_eq_getElem h]
  rfl

theorem Compiled.relativePosition_eq (hplan : plan.Compiled slots index slop) {slot : ℕ}
    (h : slot < slots.length) : plan.relativePosition slot = slots[slot].relativePosition := by
  rw [PhrasePlan.relativePosition, hplan.relativePositions, List.getD_eq_getElem?_getD,
    List.getElem?_map, List.getElem?_eq_getElem h]
  rfl

/-- A document in which the phrase can be placed is a candidate. -/
theorem Compiled.mem_candidates (hplan : plan.Compiled slots index slop)
    (hplaced : ∀ slot < slots.length, ∃ level, plan.Placed docId slot level) :
    docId ∈ plan.candidates := by
  refine hplan.candidates docId fun slot hslot => ?_
  obtain ⟨i, hi, rfl⟩ := List.mem_iff_getElem.mp hslot
  obtain ⟨level, posting, hposting, p, hp, -⟩ := hplaced i hi
  rw [hplan.alternatives_eq hi] at hposting
  obtain ⟨term, hterm, rfl⟩ := List.mem_map.mp hposting
  exact ⟨term, hterm, ((index.posting term).mem_documents docId).mpr (List.ne_nil_of_mem hp)⟩

/-- A placement has a level for every slot. -/
theorem exists_placed {levels : List ℤ}
    (h : Ascent (· ≤ ·) (plan.Placed docId) (List.range count) levels) (hslot : slot < count) :
    ∃ level, plan.Placed docId slot level := by
  rw [range_through hslot] at h
  obtain ⟨_, level, _, -, hplaced, -⟩ := ascent_through_iff.mp h
  exact ⟨level, hplaced⟩

/-- Without slop every slot is placed at one level. -/
theorem placed_of_spread_zero {levels : List ℤ}
    (h : Ascent (· ≤ ·) (plan.Placed docId) (List.range count) levels) (hzero : spread levels ≤ 0) :
    ∃ level, ∀ slot < count, plan.Placed docId slot level := by
  refine ⟨levels.head?.getD 0, fun slot hslot => ?_⟩
  rw [range_through hslot] at h
  obtain ⟨left, level, right, rfl, hplaced, hleft, hright⟩ := ascent_through_iff.mp h
  have hlow := lastLevel_le hleft
  have hhigh := le_lastLevel hright
  rw [spread_through] at hzero
  rw [head?_through, Option.getD_some, show lastLevel level left = level by omega]
  exact hplaced

/-- Slots that are placed at one level are a placement without slop. -/
theorem ascent_replicate {level : ℤ} (h : ∀ slot < count, plan.Placed docId slot level) :
    Ascent (· ≤ ·) (plan.Placed docId) (List.range count) (List.replicate count level) := by
  refine ⟨List.forall₂_iff_get.mpr ⟨by simp, fun i hi _ => ?_⟩, List.isChain_replicate_of_rel _ le_rfl⟩
  simpa using h i (by simpa using hi)

theorem spread_replicate (count : ℕ) (level : ℤ) : spread (List.replicate count level) = 0 := by
  cases count with
  | zero => rfl
  | succ count => simp [spread, List.getLast?_replicate, List.head?_replicate]

/-- An occurrence of the anchor places its slot. -/
theorem placed_of_mem_anchorPositions {anchorSlot position : ℕ}
    (h : position ∈ plan.anchorPositions docId anchorSlot) :
    plan.Placed docId anchorSlot (position - plan.relativePosition anchorSlot) := by
  obtain ⟨posting, hposting, hmem⟩ := List.mem_flatMap.mp h
  exact ⟨posting, hposting, position, hmem, by omega⟩

/-- The exact search finds an occurrence of the anchor when all slots can be placed at one level. -/
theorem any_matchesAt_iff (hsmall : plan.Small docId) {anchorSlot : ℕ}
    (hanchor : anchorSlot < plan.relativePositions.length) :
    ((plan.anchorPositions docId anchorSlot).any fun position =>
      plan.matchesAt docId anchorSlot position) = true ↔
        ∃ level, ∀ slot < plan.relativePositions.length, plan.Placed docId slot level := by
  rw [List.any_eq_true]
  constructor
  · rintro ⟨position, hposition, hmatches⟩
    exact ⟨_, (matchesAt_iff hsmall (placed_of_mem_anchorPositions hposition) (by omega)).mp
      hmatches⟩
  · rintro ⟨level, hlevel⟩
    obtain ⟨posting, hposting, position, hmem, hposition⟩ := hlevel anchorSlot hanchor
    exact ⟨position, List.mem_flatMap.mpr ⟨posting, hposting, hmem⟩,
      (matchesAt_iff hsmall (hlevel anchorSlot hanchor) hposition).mpr hlevel⟩

/-- Without slop the least one is zero, where there is a placement at all. -/
theorem exact_eq_some_iff (hsmall : plan.Small docId) {anchorSlot : ℕ}
    (hanchor : anchorSlot < plan.relativePositions.length) (hzero : plan.requestedSlop = 0) {m : ℤ} :
    (if (plan.anchorPositions docId anchorSlot).any fun position =>
      plan.matchesAt docId anchorSlot position then some 0 else none) = some m ↔
        IsLeast (plan.Slops docId) m := by
  split
  · rename_i hany
    obtain ⟨level, hlevel⟩ := (any_matchesAt_iff hsmall hanchor).mp hany
    have hleast : IsLeast (plan.Slops docId) 0 := by
      refine ⟨⟨_, ascent_replicate hlevel, spread_replicate _ level, by omega⟩, ?_⟩
      rintro s ⟨levels, hlevels, rfl, -⟩
      exact spread_nonneg hlevels
    constructor
    · intro heq
      cases heq
      exact hleast
    · intro hleast'
      rw [hleast.unique hleast']
  · rename_i hany
    refine iff_of_false (Option.some_ne_none m).symm ?_
    rintro ⟨⟨levels, hlevels, hspread, hle⟩, -⟩
    exact hany ((any_matchesAt_iff hsmall hanchor).mpr (placed_of_spread_zero hlevels (by omega)))

/-- The loop over the anchor finds the least slop: every placement goes through an occurrence of the
anchor, where no less is consumed. -/
theorem minimumConsumed_eq_some_iff (hsmall : plan.Small docId) {anchorSlot : ℕ}
    (hanchor : anchorSlot < plan.relativePositions.length) (requestedSlop : ℕ) {m : ℤ} :
    minimumConsumed (plan.consumedAt docId anchorSlot) requestedSlop none
      (plan.anchorPositions docId anchorSlot) = some m ↔
        IsLeast {s | ∃ levels,
          Ascent (· ≤ ·) (plan.Placed docId) (List.range plan.relativePositions.length) levels ∧
            spread levels = s ∧ s ≤ requestedSlop} m := by
  rw [minimumConsumed_eq (by simp), List.min?_eq_some_iff, Option.toList_none, List.nil_append]
  simp only [List.mem_filter, List.mem_map, decide_eq_true_eq]
  have hsound : ∀ position ∈ plan.anchorPositions docId anchorSlot,
      0 ≤ plan.consumedAt docId anchorSlot position →
      plan.consumedAt docId anchorSlot position ≤ requestedSlop →
        ∃ levels,
          Ascent (· ≤ ·) (plan.Placed docId) (List.range plan.relativePositions.length) levels ∧
            spread levels = plan.consumedAt docId anchorSlot position ∧
            plan.consumedAt docId anchorSlot position ≤ requestedSlop := by
    intro position hposition hnonneg hle
    obtain ⟨levels, hlevels, hspread⟩ := exists_of_consumedAt hsmall hanchor
      (placed_of_mem_anchorPositions hposition) (by omega) hnonneg
    exact ⟨levels, hlevels, hspread, hle⟩
  constructor
  · rintro ⟨⟨⟨position, hposition, rfl⟩, hnonneg, hle⟩, hleast⟩
    refine ⟨hsound position hposition hnonneg hle, ?_⟩
    rintro s ⟨levels, hlevels, rfl, hs⟩
    obtain ⟨other, hother, hnonneg', hle'⟩ := consumedAt_le hsmall hanchor hlevels
    exact (hleast _ ⟨⟨other, hother, rfl⟩, hnonneg', by omega⟩).trans hle'
  · rintro ⟨⟨levels, hlevels, rfl, hs⟩, hleast⟩
    obtain ⟨position, hposition, hnonneg, hle⟩ := consumedAt_le hsmall hanchor hlevels
    have hge := hleast (hsound position hposition hnonneg (by omega))
    refine ⟨⟨⟨position, hposition, by omega⟩, by omega, hs⟩, ?_⟩
    rintro s ⟨⟨other, hother, rfl⟩, hnonneg', hle'⟩
    exact hleast (hsound other hother hnonneg' hle')

/-- The slop that the plan finds is the least of the slops of the placements. -/
theorem Compiled.consumedSlop_eq_some_iff (hplan : plan.Compiled slots index slop)
    (hsmall : plan.Small docId) {m : ℤ} :
    plan.consumedSlop docId = some m ↔ IsLeast (plan.Slops docId) m := by
  obtain ⟨anchorSlot, hanchor, hslot⟩ := hplan.anchorSlot
  have hlength : plan.relativePositions.length = slots.length := by
    rw [hplan.relativePositions, List.length_map]
  unfold consumedSlop
  rw [hplan.textIndex, hslot]
  dsimp only
  split
  · rename_i hnot
    refine iff_of_false (Option.some_ne_none m).symm ?_
    rintro ⟨⟨levels, hlevels, -⟩, -⟩
    exact hnot (hplan.mem_candidates fun slot hslot => exists_placed hlevels (hlength ▸ hslot))
  · split
    · rename_i hzero
      exact exact_eq_some_iff hsmall (hlength ▸ hanchor) hzero
    · exact minimumConsumed_eq_some_iff hsmall (hlength ▸ hanchor) plan.requestedSlop

end

section

variable [LinearOrder Score]

/-- A match that is established has a score. -/
theorem isSome_bm25 {textIndex : TextIndexSnapshot} {scoringTerms : List (ScoringTerm Score)}
    {config : ops.Config} {average : Score} :
    (bm25 ops textIndex scoringTerms config average docId true).isSome := by
  have hfold : ∀ (score : ScoringTerm Score → Bool × Score → Score) (r : Bool × Score),
      r.1 = true → (scoringTerms.foldl (fun r term =>
        if term.posting.termFrequency docId = 0 then r else (true, score term r)) r).1 = true := by
    intro score r hr
    induction scoringTerms generalizing r with
    | nil => exact hr
    | cons term rest ih =>
      rw [List.foldl_cons]
      split
      · exact ih r hr
      · exact ih _ rfl
  unfold bm25
  dsimp only
  split
  · rfl
  · rw [if_pos (hfold _ (true, _) rfl)]
    rfl

/-- The plan matches a document where it finds a slop. -/
theorem isSome_evaluate (h : plan.textIndex.isSome) :
    (plan.evaluate docId).isSome = (plan.consumedSlop docId).isSome := by
  obtain ⟨index, hindex⟩ := Option.isSome_iff_exists.mp h
  rw [evaluate, hindex]
  cases plan.consumedSlop docId with
  | none => rfl
  | some m => exact isSome_bm25

end

end PhrasePlan

end GeneralSearch.Ranked
