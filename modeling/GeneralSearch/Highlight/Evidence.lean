import GeneralSearch.Highlight.Assembler
import GeneralSearch.Ranked.PhraseSlop

/-! `HighlightEvidenceCollector` for phrases: the source tokens of a document are searched for the
occurrences that a phrase is shown by.  The search finds them exactly when the phrase matches. -/

namespace GeneralSearch.Highlight

open GeneralSearch.Planner GeneralSearch.Ranked GeneralSearch.Lib

/-! ### The collector -/

/-- `PositionedOffsetToken`. -/
structure PositionedOffsetToken where
  logicalPosition : ℤ
  token : OffsetAnalyzedToken

/-- `Occurrence`. -/
structure Occurrence where
  logicalPosition : ℤ
  startOffset : ℕ
  endOffset : ℕ
  deriving DecidableEq

def PositionedOffsetToken.occurrence (token : PositionedOffsetToken) : Occurrence :=
  ⟨token.logicalPosition, token.token.startOffset, token.token.endOffset⟩

/-- `PhraseWitness`; its occurrences are one or more. -/
structure PhraseWitness where
  consumedSlop : ℤ
  first : Occurrence
  others : List Occurrence
  deriving DecidableEq

def PhraseWitness.occurrences (witness : PhraseWitness) : List Occurrence :=
  witness.first :: witness.others

/-- The last of the occurrences that are selected. -/
def lastOccurrence (first : Occurrence) (others : List Occurrence) : Occurrence :=
  (first :: others).getLast (List.cons_ne_nil first others)

/-- `positioned`, from a position on. -/
def positioned (logicalPosition : ℤ) :
    List OffsetAnalyzedToken → Except Failure (List PositionedOffsetToken)
  | [] => .ok []
  | token :: rest =>
    let logicalPosition := logicalPosition + token.positionIncrement
    if logicalPosition > 2147483647 then .error .arithmetic
    else do
      let others ← positioned logicalPosition rest
      return ⟨logicalPosition, token⟩ :: others

/-- One token in the loop over the occurrences of a slot. -/
def addOccurrence (slot : PhraseSlot) (occurrences : List Occurrence)
    (token : PositionedOffsetToken) : List Occurrence :=
  if token.token.term ∉ slot.alternatives then occurrences
  else if occurrences.getLast?.all (·.logicalPosition ≠ token.logicalPosition) then
    occurrences ++ [token.occurrence]
  else occurrences

def slotOccurrences (positioned : List PositionedOffsetToken) (slot : PhraseSlot) :
    List Occurrence :=
  positioned.foldl (addOccurrence slot) []

/-- The binary search of `earliestAtOrAfter`; `bound` is one more than its `high`. -/
def earliestIndex (occurrences : List Occurrence) (minimumPosition : ℤ) (low bound : ℕ)
    (selected : Option ℕ) : Option ℕ :=
  if low < bound then
    let middle := low + (bound - 1 - low) / 2
    if occurrences[middle]?.any (·.logicalPosition ≥ minimumPosition) then
      earliestIndex occurrences minimumPosition low middle (some middle)
    else earliestIndex occurrences minimumPosition (middle + 1) bound selected
  else selected
termination_by bound - low

/-- `earliestAtOrAfter`. -/
def earliestOccurrence (occurrences : List Occurrence) (minimumPosition : ℤ) : Option Occurrence :=
  (earliestIndex occurrences minimumPosition 0 occurrences.length none).bind (occurrences[·]?)

/-- The loop over the slots after the first one. -/
def selectFrom (previousSlot : PhraseSlot) (previous : Occurrence) :
    List (PhraseSlot × List Occurrence) → Option (List Occurrence)
  | [] => some []
  | (slot, occurrences) :: rest =>
    match earliestOccurrence occurrences (previous.logicalPosition + slot.relativePosition -
      previousSlot.relativePosition) with
    | none => none
    | some next => (selectFrom slot next rest).map (next :: ·)

/-- What one occurrence of the first slot gives. -/
def witnessFrom (firstSlot : PhraseSlot) (rest : List (PhraseSlot × List Occurrence))
    (requestedSlop : ℕ) (first : Occurrence) : Option PhraseWitness :=
  (selectFrom firstSlot first rest).bind fun others =>
    let lastSlot := (firstSlot :: rest.map Prod.fst).getLast (List.cons_ne_nil _ _)
    let querySpan : ℤ := lastSlot.relativePosition - firstSlot.relativePosition
    let consumedSlop := (lastOccurrence first others).logicalPosition - first.logicalPosition -
      querySpan
    if consumedSlop > requestedSlop then none else some ⟨consumedSlop, first, others⟩

def compareOccurrence (left right : Occurrence) : Ordering :=
  (compare left.startOffset right.startOffset).then (compare left.endOffset right.endOffset)

/-- The loop of `compareWitness`. -/
def compareOthers : List Occurrence → List Occurrence → Ordering
  | left :: lefts, right :: rights => (compareOccurrence left right).then (compareOthers lefts rights)
  | _, _ => .eq

def compareWitness (left right : PhraseWitness) : Ordering :=
  (compare left.consumedSlop right.consumedSlop).then
    ((compare left.first.startOffset right.first.startOffset).then
      ((compareOthers left.others right.others).then
        (compare left.first.endOffset right.first.endOffset)))

/-- One round of the loop over the occurrences of the first slot. -/
def betterWitness (best : Option PhraseWitness) (candidate : Option PhraseWitness) :
    Option PhraseWitness :=
  match candidate with
  | none => best
  | some candidate =>
    if best.all fun best => compareWitness candidate best = .lt then some candidate else best

/-- `earliestMinimumSlopWitness`. -/
def earliestMinimumSlopWitness (tokens : List OffsetAnalyzedToken) (slots : List PhraseSlot)
    (requestedSlop : ℕ) : Except Failure (Option PhraseWitness) :=
  match slots with
  | [] => .ok none
  | firstSlot :: rest => do
    let positioned ← positioned (-1) tokens
    let bySlot := (firstSlot :: rest).map (slotOccurrences positioned)
    if bySlot.any List.isEmpty then return none
    else return ((slotOccurrences positioned firstSlot).map
      (witnessFrom firstSlot (rest.map fun slot => (slot, slotOccurrences positioned slot))
        requestedSlop)).foldl betterWitness none

/-- `collectPhrase`. -/
def collectPhrase (phraseFieldName : String) (diagnosticSlots : List PhraseSlot)
    (requestedSlop : ℕ) (fieldName : String) (tokens : List OffsetAnalyzedToken)
    (ranges : List HighlightSpan) : Except Failure (List HighlightSpan) :=
  if fieldName ≠ phraseFieldName then .ok ranges
  else do
    let witness ← earliestMinimumSlopWitness tokens diagnosticSlots requestedSlop
    match witness with
    | none => .error (.illegalState "matched phrase plan has no offset-token witness")
    | some witness =>
      let last := lastOccurrence witness.first witness.others
      if h : witness.first.startOffset < last.endOffset then
        return ranges ++ [⟨witness.first.startOffset, last.endOffset, h⟩]
      else .error (.illegalArgument "highlight span must be non-empty and non-negative")

/-! ### Positioned tokens -/

/-- A token at a position goes before another one: at one position they have one range, and a later
range does not begin or end earlier. -/
def Before (a b : PositionedOffsetToken) : Prop :=
  (a.logicalPosition = b.logicalPosition ∧ a.token.startOffset = b.token.startOffset ∧
      a.token.endOffset = b.token.endOffset) ∨
    (a.logicalPosition < b.logicalPosition ∧ a.token.startOffset ≤ b.token.startOffset ∧
      a.token.endOffset ≤ b.token.endOffset)

instance : IsTrans PositionedOffsetToken Before where
  trans a b c := by
    unfold Before
    omega

/-- The positions of the tokens of a document. -/
structure Positions (tokens : List OffsetAnalyzedToken) (placed : List PositionedOffsetToken) :
    Prop where
  tokens : placed.map (·.token) = tokens
  before : placed.Pairwise Before
  inRange : ∀ t ∈ placed, 0 ≤ t.logicalPosition ∧ t.logicalPosition ≤ 2147483647

theorem positioned_eq_ok {position : ℤ} {tokens : List OffsetAnalyzedToken}
    (h : position + (tokens.map (·.positionIncrement)).sum ≤ 2147483647)
    (hfollows : tokens.IsChain Follows) :
    ∃ placed, positioned position tokens = .ok placed ∧ placed.map (·.token) = tokens ∧
      placed.IsChain Before ∧
      (∀ t ∈ placed.head?, t.logicalPosition = position + t.token.positionIncrement) ∧
      ∀ t ∈ placed, t.logicalPosition ≤ 2147483647 := by
  induction tokens generalizing position with
  | nil => exact ⟨[], rfl, rfl, .nil, by simp, by simp⟩
  | cons token tokens ih =>
    rw [List.map_cons, List.sum_cons, Int.natCast_add] at h
    obtain ⟨placed, hok, htokens, hbefore, hhead, hle⟩ :=
      ih (show position + token.positionIncrement + _ ≤ _ by omega) hfollows.tail
    refine ⟨⟨position + token.positionIncrement, token⟩ :: placed, ?_, ?_, ?_, ?_, ?_⟩
    · rw [positioned, if_neg (by omega), hok]
      rfl
    · rw [List.map_cons, htokens]
    · refine hbefore.cons fun t ht => ?_
      have hposition := hhead t ht
      have hfollow : Follows token t.token := by
        refine (List.isChain_cons.mp hfollows).1 _ ?_
        rw [← htokens, List.head?_map, Option.mem_def, Option.mem_def.mp ht]
        rfl
      unfold Follows at hfollow
      unfold Before
      split at hfollow
      · exact .inl ⟨by dsimp only; omega, hfollow.1.symm, hfollow.2.symm⟩
      · exact .inr ⟨by dsimp only; omega, hfollow⟩
    · rintro t ⟨⟩
      rfl
    · rintro t ht
      rcases List.mem_cons.mp ht with rfl | ht
      · show position + token.positionIncrement ≤ 2147483647
        omega
      · exact hle t ht

theorem positions_of_valid {source : JString} {tokens : List OffsetAnalyzedToken}
    (h : ValidTokens source tokens) :
    ∃ placed, positioned (-1) tokens = .ok placed ∧ Positions tokens placed := by
  have hsum := h.positions
  obtain ⟨placed, hok, htokens, hbefore, hhead, hle⟩ :=
    positioned_eq_ok (show (-1 : ℤ) + _ ≤ _ by omega) h.follows
  refine ⟨placed, hok, htokens, hbefore.pairwise, fun t ht => ⟨?_, hle t ht⟩⟩
  cases placed with
  | nil => cases ht
  | cons first placed =>
    have hposition := hhead first rfl
    have hpositive := h.first first.token (by rw [← htokens]; rfl)
    rcases List.mem_cons.mp ht with rfl | ht
    · omega
    · rcases (List.pairwise_cons.mp hbefore.pairwise).1 t ht with hless | hless <;> omega

section

variable {tokens : List OffsetAnalyzedToken} {placed : List PositionedOffsetToken}

/-- The ranges follow the positions. -/
theorem Positions.ranges_le (h : Positions tokens placed) {a b : PositionedOffsetToken}
    (ha : a ∈ placed) (hb : b ∈ placed) (hle : a.logicalPosition ≤ b.logicalPosition) :
    a.token.startOffset ≤ b.token.startOffset ∧ a.token.endOffset ≤ b.token.endOffset := by
  have hrelated : a = b ∨ Before a b ∨ Before b a := by
    by_cases heq : a = b
    · exact .inl heq
    · exact .inr (pairwise_related h.before ha hb heq)
  unfold Before at hrelated
  rcases hrelated with rfl | hrelated
  · exact ⟨le_rfl, le_rfl⟩
  · omega

/-! ### Occurrences of a slot -/

/-- An occurrence is that of a token that stands for the slot. -/
def StandsFor (placed : List PositionedOffsetToken) (slot : PhraseSlot) (occurrence : Occurrence) :
    Prop :=
  ∃ t ∈ placed, t.token.term ∈ slot.alternatives ∧ occurrence = t.occurrence

/-- The occurrences of a slot after some of the tokens. -/
structure SlotOccurrences (placed : List PositionedOffsetToken) (slot : PhraseSlot)
    (occurrences : List Occurrence) : Prop where
  mem : ∀ o, o ∈ occurrences ↔ StandsFor placed slot o
  increasing : occurrences.Pairwise fun a b => a.logicalPosition < b.logicalPosition

theorem slotOccurrences_spec (hbefore : placed.Pairwise Before) (slot : PhraseSlot) :
    SlotOccurrences placed slot (slotOccurrences placed slot) := by
  induction placed using List.reverseRecOn with
  | nil => exact ⟨fun o => by simp [slotOccurrences, StandsFor], .nil⟩
  | append_singleton placed t ih =>
    obtain ⟨hbefore, -, hlast⟩ := List.pairwise_append.mp hbefore
    obtain ⟨hmem, hincreasing⟩ := ih hbefore
    have hstands : ∀ o, StandsFor (placed ++ [t]) slot o ↔
        StandsFor placed slot o ∨ (t.token.term ∈ slot.alternatives ∧ o = t.occurrence) := by
      intro o
      simp [StandsFor, or_and_right, exists_or]
    unfold slotOccurrences at hmem hincreasing ⊢
    rw [List.foldl_append, List.foldl_cons, List.foldl_nil]
    generalize placed.foldl (addOccurrence slot) [] = occurrences at *
    unfold addOccurrence
    split
    · rename_i hterm
      exact ⟨fun o => by rw [hmem, hstands]; simp [hterm], hincreasing⟩
    · rename_i hterm
      have hterm := not_not.mp hterm
      split
      · rename_i hnew
        refine ⟨fun o => ?_, List.pairwise_append.mpr ⟨hincreasing, List.pairwise_singleton _ _,
          fun a ha b hb => ?_⟩⟩
        · rw [List.mem_append, List.mem_singleton, hmem, hstands]
          simp [hterm]
        · rw [List.mem_singleton.mp hb]
          cases hlast? : occurrences.getLast? with
          | none => rw [List.getLast?_eq_none_iff.mp hlast?] at ha; cases ha
          | some last =>
            rw [hlast?, Option.all_some, decide_eq_true_eq] at hnew
            obtain ⟨others, rfl⟩ := List.getLast?_eq_some_iff.mp hlast?
            have hless : last.logicalPosition < t.logicalPosition := by
              obtain ⟨t', ht', -, rfl⟩ := (hmem last).mp (by simp)
              rcases hlast t' ht' t (List.mem_singleton_self t) with hequal | hless
              · exact absurd hequal.1 hnew
              · exact hless.1
            rcases List.mem_append.mp ha with ha | ha
            · exact ((List.pairwise_append.mp hincreasing).2.2 a ha last (by simp)).trans hless
            · rw [List.mem_singleton.mp ha]
              exact hless
      · rename_i hold
        refine ⟨fun o => ?_, hincreasing⟩
        rw [hmem, hstands]
        refine ⟨.inl, ?_⟩
        rintro (ho | ⟨-, rfl⟩)
        · exact ho
        · -- The last occurrence has the position of the token, and so its range.
          cases hlast? : occurrences.getLast? with
          | none => rw [hlast?] at hold; exact absurd rfl hold
          | some last =>
            rw [hlast?, Option.all_some, decide_eq_true_eq, not_not] at hold
            obtain ⟨t', ht', hterm', rfl⟩ := (hmem last).mp (List.mem_of_getLast? hlast?)
            rcases hlast t' ht' t (List.mem_singleton_self t) with hequal | hless
            · have heq : t'.occurrence = t.occurrence := by
                rw [PositionedOffsetToken.occurrence, hequal.1, hequal.2.1, hequal.2.2]
                rfl
              exact ⟨t', ht', hterm', heq.symm⟩
            · exact absurd hold hless.1.ne

end

/-! ### The search -/

section

variable {occurrences : List Occurrence} {minimumPosition : ℤ} {low bound : ℕ}
  {selected : Option ℕ}

theorem position_mono (h : occurrences.Pairwise fun a b => a.logicalPosition < b.logicalPosition)
    {i j : ℕ} (hij : i ≤ j) (hj : j < occurrences.length) (hi : i < occurrences.length) :
    occurrences[i].logicalPosition ≤ occurrences[j].logicalPosition := by
  rcases hij.lt_or_eq with hlt | rfl
  · exact (List.pairwise_iff_getElem.mp h i j _ _ hlt).le
  · exact le_rfl

/-- Occurrences below `low` come too early, and those from `bound` on do not. -/
theorem earliestIndex_spec (minimumPosition : ℤ)
    (h : occurrences.Pairwise fun a b => a.logicalPosition < b.logicalPosition)
    (hbound : bound ≤ occurrences.length) (hlow : low ≤ bound)
    (hbelow : ∀ i (hi : i < occurrences.length), i < low →
      occurrences[i].logicalPosition < minimumPosition)
    (habove : ∀ i (hi : i < occurrences.length), bound ≤ i →
      minimumPosition ≤ occurrences[i].logicalPosition)
    (hselected : selected = if bound < occurrences.length then some bound else none) :
    ∃ i, (∀ j (hj : j < occurrences.length), j < i →
        occurrences[j].logicalPosition < minimumPosition) ∧
      (∀ j (hj : j < occurrences.length), i ≤ j →
        minimumPosition ≤ occurrences[j].logicalPosition) ∧
      earliestIndex occurrences minimumPosition low bound selected =
        if i < occurrences.length then some i else none := by
  fun_induction earliestIndex occurrences minimumPosition low bound selected with
  | case1 low bound selected hlt middle hposition ih =>
    rw [List.getElem?_eq_getElem (show middle < occurrences.length by omega), Option.any_some,
      decide_eq_true_eq] at hposition
    refine ih (by omega) (by omega) hbelow (fun i hi hle => ?_) ?_
    · exact hposition.le.trans (position_mono h hle hi _)
    · rw [if_pos (by omega)]
  | case2 low bound selected hlt middle hposition ih =>
    rw [List.getElem?_eq_getElem (show middle < occurrences.length by omega), Option.any_some,
      decide_eq_true_eq, not_le] at hposition
    refine ih hbound (by omega) (fun i hi hle => ?_) habove hselected
    exact (position_mono h (show i ≤ middle by omega) (by omega) hi).trans_lt hposition
  | case3 low bound selected hlt =>
    obtain rfl : low = bound := by omega
    exact ⟨low, hbelow, habove, hselected⟩

/-- The search gives the first occurrence that does not come too early. -/
theorem earliestOccurrence_spec (minimumPosition : ℤ)
    (h : occurrences.Pairwise fun a b => a.logicalPosition < b.logicalPosition) :
    match earliestOccurrence occurrences minimumPosition with
    | none => ∀ c ∈ occurrences, c.logicalPosition < minimumPosition
    | some o => o ∈ occurrences ∧ minimumPosition ≤ o.logicalPosition ∧
        ∀ c ∈ occurrences, minimumPosition ≤ c.logicalPosition →
          o.logicalPosition ≤ c.logicalPosition := by
  obtain ⟨i, hbelow, habove, hsearch⟩ := earliestIndex_spec minimumPosition h
    le_rfl (Nat.zero_le _) (fun i _ hi => absurd hi (Nat.not_lt_zero i))
    (fun i hi hle => absurd hi (Nat.not_lt.mpr hle)) (if_neg (lt_irrefl _)).symm
  unfold earliestOccurrence
  rw [hsearch]
  by_cases hi : i < occurrences.length
  · rw [if_pos hi, Option.bind_some, List.getElem?_eq_getElem hi]
    refine ⟨List.getElem_mem hi, habove i hi le_rfl, fun c hc hle => ?_⟩
    obtain ⟨j, hj, rfl⟩ := List.mem_iff_getElem.mp hc
    refine position_mono h ?_ hj hi
    by_contra hless
    have := hbelow j hj (by omega)
    omega
  · rw [if_neg hi, Option.bind_none]
    intro c hc
    obtain ⟨j, hj, rfl⟩ := List.mem_iff_getElem.mp hc
    exact hbelow j hj (by omega)

end

/-! ### Witnesses -/

/-- How far an occurrence is ahead of its slot in the phrase. -/
def level (v : PhraseSlot × Occurrence) : ℤ := v.2.logicalPosition - v.1.relativePosition

/-- An occurrence does not come later than another one. -/
def NoLater (a b : Occurrence) : Prop :=
  a.logicalPosition ≤ b.logicalPosition ∧ a.startOffset ≤ b.startOffset ∧ a.endOffset ≤ b.endOffset

/-- Occurrences that show the phrase: one for each slot, at least as far apart as in the phrase, and
together not further apart than the slop allows. -/
structure IsWitness (placed : List PositionedOffsetToken) (slots : List PhraseSlot)
    (requestedSlop : ℕ) (witness : PhraseWitness) : Prop where
  stands : List.Forall₂ (StandsFor placed) slots witness.occurrences
  ordered : (slots.zip witness.occurrences).IsChain fun a b => level a ≤ level b
  slop : witness.consumedSlop =
    PhrasePlan.spread ((slots.zip witness.occurrences).map level)
  within : witness.consumedSlop ≤ requestedSlop

/-- A slot with its occurrences in the document. -/
def step (placed : List PositionedOffsetToken) (slot : PhraseSlot) :
    PhraseSlot × List Occurrence :=
  (slot, slotOccurrences placed slot)

def Chosen (step : PhraseSlot × List Occurrence) (v : PhraseSlot × Occurrence) : Prop :=
  v.1 = step.1 ∧ v.2 ∈ step.2

/-- The choice of `selectFrom` for a slot. -/
def nextOccurrence (step : PhraseSlot × List Occurrence) (v : PhraseSlot × Occurrence) :
    Option (PhraseSlot × Occurrence) :=
  (earliestOccurrence step.2 (v.2.logicalPosition + step.1.relativePosition -
    v.1.relativePosition)).map (step.1, ·)

theorem nextOccurrence_nearest {step : PhraseSlot × List Occurrence}
    (h : step.2.Pairwise fun a b => a.logicalPosition < b.logicalPosition) :
    Nearest (fun a b => level a ≤ level b) Chosen nextOccurrence step := by
  have hspec (a : PhraseSlot × Occurrence) := earliestOccurrence_spec
    (a.2.logicalPosition + step.1.relativePosition - a.1.relativePosition) h
  unfold nextOccurrence
  constructor
  · intro a b hb
    obtain ⟨o, ho, rfl⟩ := Option.map_eq_some_iff.mp hb
    have hsearch := hspec a
    rw [ho] at hsearch
    obtain ⟨hmem, hle, hleast⟩ := hsearch
    refine ⟨⟨rfl, hmem⟩, by dsimp only [level]; omega, ?_⟩
    rintro ⟨slot, c⟩ ⟨rfl, hc⟩ hac
    dsimp only [level] at hac ⊢
    have := hleast c hc (by omega)
    omega
  · intro a ha
    have hsearch := hspec a
    rw [Option.map_eq_none_iff.mp ha] at hsearch
    rintro ⟨slot, c⟩ ⟨rfl, hc⟩ hac
    dsimp only [level] at hac
    have := hsearch c hc
    omega

theorem selectFrom_eq (previousSlot : PhraseSlot) (previous : Occurrence)
    (steps : List (PhraseSlot × List Occurrence)) :
    selectFrom previousSlot previous steps =
      (greedy nextOccurrence steps (previousSlot, previous)).map (List.map Prod.snd) := by
  induction steps generalizing previousSlot previous with
  | nil => rfl
  | cons step steps ih =>
    obtain ⟨slot, occurrences⟩ := step
    rw [selectFrom, greedy, nextOccurrence]
    dsimp only
    cases earliestOccurrence occurrences (previous.logicalPosition + slot.relativePosition -
        previousSlot.relativePosition) with
    | none => rfl
    | some next =>
      dsimp only
      rw [ih slot next, Option.map_some, Option.bind_some, Option.map_map, Option.map_map]
      rfl

section

variable {tokens : List OffsetAnalyzedToken} {placed : List PositionedOffsetToken}
  {slots : List PhraseSlot}

/-- Choices for some slots are their occurrences. -/
theorem forall₂_chosen_iff (hplaced : placed.Pairwise Before)
    {values : List (PhraseSlot × Occurrence)} :
    List.Forall₂ Chosen (slots.map (step placed)) values ↔
      ∃ occurrences, values = slots.zip occurrences ∧
        List.Forall₂ (StandsFor placed) slots occurrences := by
  induction slots generalizing values with
  | nil =>
    rw [List.map_nil, List.forall₂_nil_left_iff]
    constructor
    · rintro rfl
      exact ⟨[], rfl, .nil⟩
    · rintro ⟨occurrences, rfl, -⟩
      rfl
  | cons slot slots ih =>
    have hmem := (slotOccurrences_spec hplaced slot).mem
    rw [List.map_cons]
    constructor
    · rintro (_ | ⟨⟨heq, ho⟩, hrest⟩)
      obtain ⟨occurrences, rfl, hstands⟩ := ih.mp hrest
      rename_i v
      obtain ⟨slot', o⟩ := v
      cases heq
      exact ⟨o :: occurrences, rfl, .cons ((hmem o).mp ho) hstands⟩
    · rintro ⟨_, rfl, _ | ⟨hstands, hrest⟩⟩
      exact .cons ⟨rfl, (hmem _).mpr hstands⟩ (ih.mpr ⟨_, rfl, hrest⟩)

theorem getLast_zip {slot : PhraseSlot} {o : Occurrence} {occurrences : List Occurrence}
    (h : slots.length = occurrences.length) :
    ((slot, o) :: slots.zip occurrences).getLast (List.cons_ne_nil _ _) =
      ((slot :: slots).getLast (List.cons_ne_nil _ _), lastOccurrence o occurrences) := by
  induction slots generalizing slot o occurrences with
  | nil =>
    obtain rfl := List.length_eq_zero_iff.mp h.symm
    rfl
  | cons slot' slots ih =>
    cases occurrences with
    | nil => cases h
    | cons o' occurrences =>
      rw [List.zip_cons_cons, List.getLast_cons_cons, List.getLast_cons_cons,
        ih (Nat.succ.inj h)]
      rfl

/-- The slop of a choice, as the collector computes it. -/
theorem spread_zip {slot : PhraseSlot} {o : Occurrence} {occurrences : List Occurrence}
    (h : slots.length = occurrences.length) :
    PhrasePlan.spread (((slot :: slots).zip (o :: occurrences)).map level) =
      (lastOccurrence o occurrences).logicalPosition - o.logicalPosition -
        (((slot :: slots).getLast (List.cons_ne_nil _ _)).relativePosition -
          slot.relativePosition) := by
  have hspread := PhrasePlan.spread_through [] (level (slot, o))
    ((slots.zip occurrences).map level)
  have hlast : PhrasePlan.lastLevel (level (slot, o)) ((slots.zip occurrences).map level) =
      level ((slot :: slots).getLast (List.cons_ne_nil _ _), lastOccurrence o occurrences) := by
    rw [← getLast_zip h]
    exact List.getLast_map (f := level) (l := (slot, o) :: slots.zip occurrences)
      (List.cons_ne_nil _ _)
  rw [List.zip_cons_cons, List.map_cons]
  rw [List.reverse_nil, List.nil_append, PhrasePlan.lastLevel_nil, hlast] at hspread
  rw [hspread]
  dsimp only [level]
  omega

section

variable {firstSlot : PhraseSlot} {requestedSlop : ℕ} {first : Occurrence} {witness : PhraseWitness}

theorem step_nearest (hplaced : placed.Pairwise Before) :
    ∀ s ∈ slots.map (step placed),
      Nearest (fun a b => level a ≤ level b) Chosen nextOccurrence s := by
  intro s hs
  obtain ⟨slot, -, rfl⟩ := List.mem_map.mp hs
  exact nextOccurrence_nearest (slotOccurrences_spec hplaced slot).increasing

/-- What the collector makes of the choices after an occurrence of the first slot. -/
theorem witnessFrom_of_greedy {occurrences : List Occurrence}
    (hlength : slots.length = occurrences.length)
    (h : greedy nextOccurrence (slots.map (step placed)) (firstSlot, first) =
      some (slots.zip occurrences)) :
    witnessFrom firstSlot (slots.map (step placed)) requestedSlop first =
      if PhrasePlan.spread (((firstSlot :: slots).zip (first :: occurrences)).map level) >
          requestedSlop then none
      else some ⟨PhrasePlan.spread (((firstSlot :: slots).zip (first :: occurrences)).map level),
        first, occurrences⟩ := by
  have hslots : (slots.map (step placed)).map Prod.fst = slots := by
    simp [step, Function.comp_def]
  unfold witnessFrom
  rw [selectFrom_eq, h, Option.map_some, Option.bind_some, List.map_snd_zip hlength.ge,
    spread_zip hlength]
  simp only [hslots]

/-- The choices after an occurrence of the first slot are a witness. -/
theorem witnessFrom_eq_some (hplaced : placed.Pairwise Before)
    (hfirst : first ∈ slotOccurrences placed firstSlot)
    (h : witnessFrom firstSlot (slots.map (step placed)) requestedSlop first = some witness) :
    IsWitness placed (firstSlot :: slots) requestedSlop witness := by
  cases hgreedy : greedy nextOccurrence (slots.map (step placed)) (firstSlot, first) with
  | none =>
    rw [witnessFrom, selectFrom_eq, hgreedy] at h
    cases h
  | some values =>
    obtain ⟨hchosen, hchain⟩ := climb_iff.mp (climb_of_greedy (step_nearest hplaced) hgreedy)
    obtain ⟨occurrences, rfl, hstands⟩ := (forall₂_chosen_iff hplaced).mp hchosen
    rw [witnessFrom_of_greedy hstands.length_eq hgreedy] at h
    split at h
    · cases h
    · rename_i hwithin
      cases h
      exact ⟨.cons (((slotOccurrences_spec hplaced firstSlot).mem first).mp hfirst) hstands, hchain,
        rfl, not_lt.mp hwithin⟩

/-- Occurrences that come no later have ranges that come no later. -/
theorem ranges_of_near (hplaced : Positions tokens placed) {occurrences others : List Occurrence}
    (hstands : List.Forall₂ (StandsFor placed) slots occurrences)
    (hstands' : List.Forall₂ (StandsFor placed) slots others)
    (hnear : List.Forall₂ (fun a b => level a ≤ level b) (slots.zip occurrences)
      (slots.zip others)) :
    List.Forall₂ NoLater occurrences others := by
  induction hstands generalizing others with
  | nil =>
    cases hstands'
    exact .nil
  | cons hfirst _ ih =>
    obtain _ | ⟨hfirst', hrest'⟩ := hstands'
    rw [List.zip_cons_cons, List.zip_cons_cons] at hnear
    obtain _ | ⟨hle, hnear⟩ := hnear
    obtain ⟨t, ht, -, rfl⟩ := hfirst
    obtain ⟨t', ht', -, rfl⟩ := hfirst'
    have hposition : t.logicalPosition ≤ t'.logicalPosition := by
      simp only [level, PositionedOffsetToken.occurrence] at hle
      omega
    exact .cons ⟨hposition, hplaced.ranges_le ht ht' hposition⟩ (ih hrest' hnear)

theorem isLE_then {a b : Ordering} (ha : a.isLE) (hb : b.isLE) : (a.then b).isLE := by
  cases a with
  | lt => rfl
  | eq => exact hb
  | gt => cases ha

theorem NoLater.isLE {a b : Occurrence} (h : NoLater a b) : (compareOccurrence a b).isLE :=
  isLE_then (Nat.isLE_compare.mpr h.2.1) (Nat.isLE_compare.mpr h.2.2)

theorem compareOthers_isLE {occurrences others : List Occurrence}
    (h : List.Forall₂ NoLater occurrences others) : (compareOthers occurrences others).isLE := by
  induction h with
  | nil => rfl
  | cons hfirst _ ih => exact isLE_then hfirst.isLE ih

/-- The choices after the first occurrence of a witness are a witness that does not come later. -/
theorem exists_witnessFrom (hplaced : Positions tokens placed)
    (h : IsWitness placed (firstSlot :: slots) requestedSlop witness) :
    witness.first ∈ slotOccurrences placed firstSlot ∧
      ∃ earlier, witnessFrom firstSlot (slots.map (step placed)) requestedSlop witness.first =
        some earlier ∧ (compareWitness earlier witness).isLE := by
  obtain ⟨hstands, hordered, hslop, hwithin⟩ := h
  rw [PhraseWitness.occurrences] at hstands hordered hslop
  obtain ⟨hfirst, hothers⟩ := List.forall₂_cons.mp hstands
  have hclimb : Climb (fun a b => level a ≤ level b) Chosen (slots.map (step placed))
      (firstSlot, witness.first) (slots.zip witness.others) :=
    climb_iff.mpr ⟨(forall₂_chosen_iff hplaced.before).mpr ⟨_, rfl, hothers⟩, hordered⟩
  have : IsTrans (PhraseSlot × Occurrence) fun a b => level a ≤ level b :=
    ⟨fun _ _ _ hab hbc => hab.trans hbc⟩
  obtain ⟨values, hgreedy, hnear⟩ := exists_greedy (step_nearest hplaced.before) le_rfl hclimb
  obtain ⟨hchosen, hchain⟩ := climb_iff.mp (climb_of_greedy (step_nearest hplaced.before) hgreedy)
  obtain ⟨occurrences, rfl, hstands'⟩ := (forall₂_chosen_iff hplaced.before).mp hchosen
  refine ⟨((slotOccurrences_spec hplaced.before firstSlot).mem _).mpr hfirst, ?_⟩
  rw [witnessFrom_of_greedy hstands'.length_eq hgreedy]
  have hranges := ranges_of_near hplaced hstands' hothers hnear
  have hlast : (lastOccurrence witness.first occurrences).logicalPosition ≤
      (lastOccurrence witness.first witness.others).logicalPosition :=
    getLast_related (r := fun a b => a.logicalPosition ≤ b.logicalPosition) le_rfl
      (hranges.imp fun _ _ h => h.1)
  have hspread : PhrasePlan.spread
      (((firstSlot :: slots).zip (witness.first :: occurrences)).map level) ≤
        witness.consumedSlop := by
    rw [hslop, spread_zip hstands'.length_eq, spread_zip hothers.length_eq]
    omega
  rw [if_neg (not_lt.mpr (hspread.trans hwithin))]
  exact ⟨_, rfl, isLE_then (Int.isLE_compare.mpr hspread)
    (isLE_then (Nat.isLE_compare.mpr le_rfl) (isLE_then (compareOthers_isLE hranges)
      (Nat.isLE_compare.mpr le_rfl)))⟩

end

end

/-! ### The best witness -/

section

open Std

instance : TransCmp compareOccurrence :=
  inferInstanceAs (TransCmp (compareLex (compareOn Occurrence.startOffset)
    (compareOn Occurrence.endOffset)))

/-- The order of witnesses of any phrases. -/
def witnessOrder (left right : PhraseWitness) : Ordering :=
  (compare left.consumedSlop right.consumedSlop).then
    ((compare left.first.startOffset right.first.startOffset).then
      ((List.compareLex compareOccurrence left.others right.others).then
        (compare left.first.endOffset right.first.endOffset)))

instance : TransCmp fun left right : PhraseWitness =>
    List.compareLex compareOccurrence left.others right.others where
  eq_swap {a b} :=
    show List.compareLex compareOccurrence a.others b.others = _ from OrientedCmp.eq_swap
  isLE_trans {a _ c} hab hbc :=
    show (List.compareLex compareOccurrence a.others c.others).isLE from
      TransCmp.isLE_trans hab hbc

instance : TransCmp witnessOrder :=
  inferInstanceAs (TransCmp (compareLex (compareOn PhraseWitness.consumedSlop)
    (compareLex (compareOn fun w : PhraseWitness => w.first.startOffset)
      (compareLex (fun left right : PhraseWitness =>
          List.compareLex compareOccurrence left.others right.others)
        (compareOn fun w : PhraseWitness => w.first.endOffset)))))

end

theorem compareOthers_eq {lefts rights : List Occurrence} (h : lefts.length = rights.length) :
    compareOthers lefts rights = List.compareLex compareOccurrence lefts rights := by
  induction lefts generalizing rights with
  | nil =>
    obtain rfl := List.length_eq_zero_iff.mp h.symm
    rfl
  | cons left lefts ih =>
    cases rights with
    | nil => cases h
    | cons right rights =>
      rw [compareOthers, ih (Nat.succ.inj h), List.compareLex_cons_cons]

/-- Witnesses of one phrase are compared by the order. -/
theorem compareWitness_eq {left right : PhraseWitness}
    (h : left.others.length = right.others.length) :
    compareWitness left right = witnessOrder left right := by
  rw [compareWitness, compareOthers_eq h, witnessOrder]

/-- The best of some witnesses. -/
def IsBest (among : PhraseWitness → Prop) : Option PhraseWitness → Prop
  | none => ∀ w, ¬ among w
  | some best => among best ∧ ∀ w, among w → (compareWitness best w).isLE

theorem betterWitness_isBest {among : PhraseWitness → Prop} {count : ℕ}
    {best candidate : Option PhraseWitness} (hbest : IsBest among best)
    (hcount : ∀ w, among w ∨ candidate = some w → w.others.length = count) :
    IsBest (fun w => among w ∨ candidate = some w) (betterWitness best candidate) := by
  have heq {left right : PhraseWitness} (hleft : among left ∨ candidate = some left)
      (hright : among right ∨ candidate = some right) :
      compareWitness left right = witnessOrder left right :=
    compareWitness_eq ((hcount left hleft).trans (hcount right hright).symm)
  cases candidate with
  | none =>
    simpa [betterWitness] using hbest
  | some candidate =>
    rw [betterWitness]
    cases best with
    | none =>
      refine ⟨.inr rfl, ?_⟩
      rintro w (hw | hw)
      · exact absurd hw (hbest w)
      · cases hw
        rw [heq (.inr rfl) (.inr rfl)]
        exact Std.ReflCmp.isLE_rfl
    | some best =>
      obtain ⟨hamong, hfirst⟩ := hbest
      rw [Option.all_some]
      split
      · rename_i hless
        have hless := of_decide_eq_true hless
        rw [heq (.inr rfl) (.inl hamong)] at hless
        refine ⟨.inr rfl, ?_⟩
        rintro w (hw | hw)
        · have hle := hfirst w hw
          rw [heq (.inl hamong) (.inl hw)] at hle
          rw [heq (.inr rfl) (.inl hw)]
          exact Std.TransCmp.isLE_trans (Ordering.isLE_of_eq_lt hless) hle
        · cases hw
          rw [heq (.inr rfl) (.inr rfl)]
          exact Std.ReflCmp.isLE_rfl
      · rename_i hnot
        have hnot : compareWitness candidate best ≠ .lt := by simpa using hnot
        rw [heq (.inr rfl) (.inl hamong)] at hnot
        refine ⟨.inl hamong, ?_⟩
        rintro w (hw | hw)
        · exact hfirst w hw
        · cases hw
          have hswap : witnessOrder best candidate = (witnessOrder candidate best).swap :=
            Std.OrientedCmp.eq_swap
          rw [heq (.inl hamong) (.inr rfl), hswap]
          cases hcompare : witnessOrder candidate best with
          | lt => exact absurd hcompare hnot
          | eq => rfl
          | gt => rfl

theorem foldl_betterWitness {among : PhraseWitness → Prop} {count : ℕ}
    {best : Option PhraseWitness} {candidates : List (Option PhraseWitness)}
    (hbest : IsBest among best)
    (hcount : ∀ w, among w ∨ some w ∈ candidates → w.others.length = count) :
    IsBest (fun w => among w ∨ some w ∈ candidates) (candidates.foldl betterWitness best) := by
  induction candidates generalizing among best with
  | nil => simpa using hbest
  | cons candidate candidates ih =>
    have hmem (w : PhraseWitness) : (among w ∨ candidate = some w) ∨ some w ∈ candidates ↔
        among w ∨ some w ∈ candidate :: candidates := by
      rw [List.mem_cons, eq_comm (a := some w), or_assoc]
    have hrest := ih (betterWitness_isBest hbest fun w hw => hcount w ((hmem w).mp (.inl hw)))
      fun w hw => hcount w ((hmem w).mp hw)
    rw [List.foldl_cons]
    simpa only [hmem] using hrest

section

variable {tokens : List OffsetAnalyzedToken} {placed : List PositionedOffsetToken}
  {slots : List PhraseSlot} {requestedSlop : ℕ}

theorem IsWitness.length {firstSlot : PhraseSlot} {witness : PhraseWitness}
    (h : IsWitness placed (firstSlot :: slots) requestedSlop witness) :
    witness.others.length = slots.length :=
  (Nat.succ.inj h.stands.length_eq).symm

theorem exists_of_forall₂ {α β : Type} {r : α → β → Prop} {as : List α} {bs : List β} {a : α}
    (h : List.Forall₂ r as bs) (ha : a ∈ as) : ∃ b ∈ bs, r a b := by
  induction h with
  | nil => cases ha
  | cons hfirst _ ih =>
    rcases List.mem_cons.mp ha with rfl | ha
    · exact ⟨_, List.mem_cons_self, hfirst⟩
    · obtain ⟨b, hb, hr⟩ := ih ha
      exact ⟨b, List.mem_cons_of_mem _ hb, hr⟩

/-- The best of what the occurrences of the first slot give is the best of all witnesses. -/
theorem foldl_isBest (hplaced : Positions tokens placed) (firstSlot : PhraseSlot)
    (slots : List PhraseSlot) (requestedSlop : ℕ) :
    IsBest (IsWitness placed (firstSlot :: slots) requestedSlop)
      (((slotOccurrences placed firstSlot).map
        (witnessFrom firstSlot (slots.map (step placed)) requestedSlop)).foldl betterWitness none) := by
  have hsound : ∀ w, some w ∈ (slotOccurrences placed firstSlot).map
      (witnessFrom firstSlot (slots.map (step placed)) requestedSlop) →
        IsWitness placed (firstSlot :: slots) requestedSlop w := by
    intro w hw
    obtain ⟨first, hfirst, hw⟩ := List.mem_map.mp hw
    exact witnessFrom_eq_some hplaced.before hfirst hw
  have hnone : IsBest (fun _ => False) none := fun _ => id
  have hbest := foldl_betterWitness hnone fun w hw => (hsound w (hw.resolve_left id)).length
  generalize List.foldl betterWitness none _ = result at hbest ⊢
  cases result with
  | none =>
    intro w hw
    obtain ⟨hfirst, earlier, hearlier, -⟩ := exists_witnessFrom hplaced hw
    exact hbest earlier (.inr (List.mem_map.mpr ⟨_, hfirst, hearlier⟩))
  | some best =>
    obtain ⟨hmem, hleast⟩ := hbest
    have hwitness := hsound best (hmem.resolve_left id)
    refine ⟨hwitness, fun w hw => ?_⟩
    obtain ⟨hfirst, earlier, hearlier, hle⟩ := exists_witnessFrom hplaced hw
    have hmem' := List.mem_map.mpr ⟨_, hfirst, hearlier⟩
    have hle' := hleast earlier (.inr hmem')
    have hlength := (hsound earlier hmem').length
    rw [compareWitness_eq (hwitness.length.trans hlength.symm)] at hle'
    rw [compareWitness_eq (hlength.trans hw.length.symm)] at hle
    rw [compareWitness_eq (hwitness.length.trans hw.length.symm)]
    exact Std.TransCmp.isLE_trans hle' hle

/-- The collector finds the best of all witnesses. -/
theorem earliestMinimumSlopWitness_isBest (hpositioned : positioned (-1) tokens = .ok placed)
    (hplaced : Positions tokens placed) (slots : List PhraseSlot) (requestedSlop : ℕ) :
    ∃ witness, earliestMinimumSlopWitness tokens slots requestedSlop = .ok witness ∧
      IsBest (IsWitness placed slots requestedSlop) witness := by
  cases slots with
  | nil => exact ⟨none, rfl, fun w hw => by cases hw.stands⟩
  | cons firstSlot slots =>
    rw [earliestMinimumSlopWitness, hpositioned]
    simp only [bind, Except.bind]
    split
    · rename_i hempty
      refine ⟨none, rfl, fun w hw => ?_⟩
      obtain ⟨occurrences, hoccurrences, hnil⟩ := List.any_eq_true.mp hempty
      obtain ⟨slot, hslot, rfl⟩ := List.mem_map.mp hoccurrences
      obtain ⟨o, -, ho⟩ := exists_of_forall₂ hw.stands hslot
      have hmem := ((slotOccurrences_spec hplaced.before slot).mem o).mpr ho
      rw [List.isEmpty_iff.mp hnil] at hmem
      cases hmem
    · exact ⟨_, rfl, foldl_isBest hplaced firstSlot slots requestedSlop⟩

end

end GeneralSearch.Highlight
