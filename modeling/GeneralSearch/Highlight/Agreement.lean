import GeneralSearch.Highlight.Evidence
import GeneralSearch.Ranked.Executor

/-! The evidence that is collected for a phrase agrees with the phrase's plan: both find the least
slop, one on the tokens of a document and the other on the positions that were indexed for it. -/

namespace GeneralSearch.Highlight

open GeneralSearch.Index GeneralSearch.Planner GeneralSearch.Ranked GeneralSearch.Lib

/-- A term stands at a position of a list of tokens; the first token is at the position before its
increment. -/
def StandsAt (tokens : List OffsetAnalyzedToken) (term : JString) (p : ℕ) : Prop :=
  ∃ before token after, tokens = before ++ token :: after ∧ token.term = term ∧
    p + 1 = ((before ++ [token]).map (·.positionIncrement)).sum

/-- The terms that were indexed for a document are those of its tokens, at their positions. -/
def Indexed (index : TextIndexSnapshot) (docId : ℕ) (tokens : List OffsetAnalyzedToken) : Prop :=
  ∀ term p, p ∈ (index.posting term).positions docId ↔ StandsAt tokens term p

section

variable {tokens : List OffsetAnalyzedToken} {placed : List PositionedOffsetToken}

theorem mem_positioned {position : ℤ} (h : positioned position tokens = .ok placed)
    {t : PositionedOffsetToken} :
    t ∈ placed ↔ ∃ before after, tokens = before ++ t.token :: after ∧
      t.logicalPosition = position + ((before ++ [t.token]).map (·.positionIncrement)).sum := by
  induction tokens generalizing position placed with
  | nil =>
    cases h
    simp
  | cons token tokens ih =>
    rw [positioned] at h
    split at h
    · cases h
    · obtain ⟨others, hothers, hplaced⟩ := bind_eq_ok.mp h
      cases hplaced
      rw [List.mem_cons, ih hothers]
      constructor
      · rintro (rfl | ⟨before, after, rfl, hposition⟩)
        · exact ⟨[], tokens, rfl, by simp⟩
        · refine ⟨token :: before, after, rfl, ?_⟩
          rw [hposition, List.cons_append, List.map_cons, List.sum_cons, Int.natCast_add]
          omega
      · rintro ⟨before, after, htokens, hposition⟩
        cases before with
        | nil =>
          obtain ⟨rfl, rfl⟩ := List.cons.inj htokens
          left
          obtain ⟨logicalPosition, token⟩ := t
          simpa using hposition
        | cons first before =>
          obtain ⟨rfl, rfl⟩ := List.cons.inj htokens
          refine .inr ⟨before, after, rfl, ?_⟩
          rw [hposition, List.cons_append, List.map_cons, List.sum_cons, Int.natCast_add]
          omega

/-- The positions that the collector works with are those of the tokens. -/
theorem standsAt_iff (hpositioned : positioned (-1) tokens = .ok placed) {term : JString} {p : ℕ} :
    StandsAt tokens term p ↔ ∃ t ∈ placed, t.token.term = term ∧ t.logicalPosition = p := by
  constructor
  · rintro ⟨before, token, after, htokens, hterm, hposition⟩
    refine ⟨⟨p, token⟩, (mem_positioned hpositioned).mpr ⟨before, after, htokens, ?_⟩, hterm, rfl⟩
    dsimp only
    omega
  · rintro ⟨t, ht, hterm, hposition⟩
    obtain ⟨before, after, htokens, hsum⟩ := (mem_positioned hpositioned).mp ht
    exact ⟨before, t.token, after, htokens, hterm, by omega⟩

end

/-! ### Placements and witnesses -/

/-- A token for the slot stands at a level. -/
def StandsAtLevel (placed : List PositionedOffsetToken) (slot : PhraseSlot) (l : ℤ) : Prop :=
  ∃ o, StandsFor placed slot o ∧ level (slot, o) = l

theorem forall₂_standsAtLevel {placed : List PositionedOffsetToken} {slots : List PhraseSlot}
    {levels : List ℤ} :
    List.Forall₂ (StandsAtLevel placed) slots levels ↔
      ∃ occurrences, List.Forall₂ (StandsFor placed) slots occurrences ∧
        (slots.zip occurrences).map level = levels := by
  induction slots generalizing levels with
  | nil =>
    rw [List.forall₂_nil_left_iff]
    constructor
    · rintro rfl
      exact ⟨[], .nil, rfl⟩
    · rintro ⟨occurrences, -, rfl⟩
      rfl
  | cons slot slots ih =>
    constructor
    · rintro (_ | ⟨⟨o, ho, rfl⟩, hrest⟩)
      obtain ⟨occurrences, hstands, rfl⟩ := ih.mp hrest
      exact ⟨o :: occurrences, .cons ho hstands, rfl⟩
    · rintro ⟨_, _ | ⟨ho, hstands⟩, rfl⟩
      exact .cons ⟨_, ho, rfl⟩ (ih.mpr ⟨_, hstands, rfl⟩)

section

variable {Score : Type} {ops : Scoring Score} {plan : PhrasePlan ops} {slots : List PhraseSlot}
  {index : TextIndexSnapshot} {slop docId : ℕ} {tokens : List OffsetAnalyzedToken}
  {placed : List PositionedOffsetToken}

theorem occursAt_iff (hplan : plan.Compiled slots index slop) (hindexed : Indexed index docId tokens)
    (hpositioned : positioned (-1) tokens = .ok placed) (hplaced : Positions tokens placed)
    {slot : ℕ} (hslot : slot < slots.length) {c : ℤ} :
    OccursAt (plan.alternatives slot) docId c ↔
      ∃ t ∈ placed, t.token.term ∈ slots[slot].alternatives ∧ t.logicalPosition = c := by
  rw [hplan.alternatives_eq hslot]
  constructor
  · rintro ⟨_, hposting, p, hp, rfl⟩
    obtain ⟨term, hterm, rfl⟩ := List.mem_map.mp hposting
    obtain ⟨t, ht, rfl, hposition⟩ := (standsAt_iff hpositioned).mp ((hindexed term p).mp hp)
    exact ⟨t, ht, hterm, hposition⟩
  · rintro ⟨t, ht, hterm, rfl⟩
    have hnonneg := (hplaced.inRange t ht).1
    refine ⟨_, List.mem_map_of_mem hterm, t.logicalPosition.toNat, (hindexed _ _).mpr ?_,
      Int.toNat_of_nonneg hnonneg⟩
    exact (standsAt_iff hpositioned).mpr ⟨t, ht, rfl, (Int.toNat_of_nonneg hnonneg).symm⟩

theorem placed_iff (hplan : plan.Compiled slots index slop) (hindexed : Indexed index docId tokens)
    (hpositioned : positioned (-1) tokens = .ok placed) (hplaced : Positions tokens placed)
    {slot : ℕ} (hslot : slot < slots.length) {l : ℤ} :
    plan.Placed docId slot l ↔ StandsAtLevel placed slots[slot] l := by
  rw [PhrasePlan.Placed, occursAt_iff hplan hindexed hpositioned hplaced hslot,
    hplan.relativePosition_eq hslot]
  constructor
  · rintro ⟨t, ht, hterm, hposition⟩
    refine ⟨t.occurrence, ⟨t, ht, hterm, rfl⟩, ?_⟩
    simp only [level, PositionedOffsetToken.occurrence]
    omega
  · rintro ⟨_, ⟨t, ht, hterm, rfl⟩, rfl⟩
    refine ⟨t, ht, hterm, ?_⟩
    simp only [level, PositionedOffsetToken.occurrence]
    omega

/-- The positions of a document are positions of Java. -/
theorem small_of_indexed (hplan : plan.Compiled slots index slop)
    (hindexed : Indexed index docId tokens) (hpositioned : positioned (-1) tokens = .ok placed)
    (hplaced : Positions tokens placed) : plan.Small docId := by
  intro slot c hc
  by_cases hslot : slot < slots.length
  · obtain ⟨t, ht, -, rfl⟩ := (occursAt_iff hplan hindexed hpositioned hplaced hslot).mp hc
    exact (hplaced.inRange t ht).2
  · obtain ⟨_, hposting, -⟩ := hc
    rw [PhrasePlan.alternatives, hplan.alternativesBySlot, List.getD_eq_getElem?_getD,
      List.getElem?_eq_none (by simpa using hslot)] at hposting
    cases hposting

/-- A choice of tokens and a placement on their levels are the same. -/
theorem forall₂_placed_iff (hplan : plan.Compiled slots index slop)
    (hindexed : Indexed index docId tokens) (hpositioned : positioned (-1) tokens = .ok placed)
    (hplaced : Positions tokens placed) {levels : List ℤ} :
    List.Forall₂ (plan.Placed docId) (List.range plan.relativePositions.length) levels ↔
      ∃ occurrences, List.Forall₂ (StandsFor placed) slots occurrences ∧
        (slots.zip occurrences).map level = levels := by
  rw [← forall₂_standsAtLevel, hplan.relativePositions, List.length_map, List.forall₂_iff_get,
    List.forall₂_iff_get]
  simp only [List.length_range, List.get_eq_getElem, List.getElem_range]
  refine and_congr_right fun _ => forall_congr' fun i => ?_
  constructor
  · intro h hi hlevels
    exact (placed_iff hplan hindexed hpositioned hplaced hi).mp (h hi hlevels)
  · intro h hi hlevels
    exact (placed_iff hplan hindexed hpositioned hplaced hi).mpr (h hi hlevels)

/-- The slops of the plan are those of the witnesses. -/
theorem slops_eq (hne : slots ≠ []) (hplan : plan.Compiled slots index slop)
    (hindexed : Indexed index docId tokens) (hpositioned : positioned (-1) tokens = .ok placed)
    (hplaced : Positions tokens placed) :
    plan.Slops docId = {s | ∃ w, IsWitness placed slots slop w ∧ w.consumedSlop = s} := by
  ext s
  constructor
  · rintro ⟨levels, ⟨hlevels, hchain⟩, rfl, hle⟩
    obtain ⟨occurrences, hstands, rfl⟩ :=
      (forall₂_placed_iff hplan hindexed hpositioned hplaced).mp hlevels
    rw [hplan.requestedSlop] at hle
    cases occurrences with
    | nil => exact absurd (List.forall₂_nil_right_iff.mp hstands) hne
    | cons first others =>
      exact ⟨⟨_, first, others⟩, ⟨hstands, (List.isChain_map level).mp hchain, rfl, hle⟩, rfl⟩
  · rintro ⟨w, ⟨hstands, hordered, hslop, hwithin⟩, rfl⟩
    refine ⟨_, ⟨(forall₂_placed_iff hplan hindexed hpositioned hplaced).mpr ⟨_, hstands, rfl⟩,
      (List.isChain_map level).mpr hordered⟩, hslop.symm, ?_⟩
    rwa [hplan.requestedSlop]

/-! ### Agreement -/

/-- The best witness has the least slop. -/
theorem IsBest.isLeast {best : PhraseWitness}
    (h : IsBest (IsWitness placed slots slop) (some best)) :
    IsLeast {s | ∃ w, IsWitness placed slots slop w ∧ w.consumedSlop = s} best.consumedSlop := by
  refine ⟨⟨best, h.1, rfl⟩, ?_⟩
  rintro _ ⟨w, hw, rfl⟩
  have hle := h.2 w hw
  rw [compareWitness] at hle
  by_contra hless
  rw [Int.compare_eq_gt.mpr (not_le.mp hless)] at hle
  cases hle

/-- A search for the least slop of the plan finds that of the best witness. -/
theorem map_consumedSlop_eq {witness : Option PhraseWitness} {found : Option ℤ}
    (hbest : IsBest (IsWitness placed slots slop) witness)
    (hfound : ∀ m, found = some m ↔
      IsLeast {s | ∃ w, IsWitness placed slots slop w ∧ w.consumedSlop = s} m) :
    witness.map (·.consumedSlop) = found := by
  cases witness with
  | none =>
    refine (Option.eq_none_iff_forall_ne_some.mpr fun m hm => ?_).symm
    obtain ⟨⟨w, hw, -⟩, -⟩ := (hfound m).mp hm
    exact hbest w hw
  | some best => exact ((hfound _).mpr hbest.isLeast).symm

/-- The span of a witness is not empty: its last occurrence does not come before the first one. -/
theorem IsWitness.startOffset_lt {witness : PhraseWitness} (hplan : plan.Compiled slots index slop)
    (hindexed : Indexed index docId tokens) (hpositioned : positioned (-1) tokens = .ok placed)
    (hplaced : Positions tokens placed) (h : IsWitness placed slots slop witness) :
    witness.first.startOffset < (lastOccurrence witness.first witness.others).endOffset := by
  cases slots with
  | nil => cases h.stands
  | cons slot slots =>
    have hspread : 0 ≤ witness.consumedSlop := by
      have hmem : witness.consumedSlop ∈ plan.Slops docId := by
        rw [slops_eq (List.cons_ne_nil _ _) hplan hindexed hpositioned hplaced]
        exact ⟨witness, h, rfl⟩
      obtain ⟨levels, hlevels, hslop, -⟩ := hmem
      exact hslop ▸ PhrasePlan.spread_nonneg hlevels
    have hslop := h.slop
    rw [PhraseWitness.occurrences, spread_zip h.length.symm] at hslop
    have hrelative : slot.relativePosition ≤
        ((slot :: slots).getLast (List.cons_ne_nil _ _)).relativePosition := by
      rcases List.mem_cons.mp (List.getLast_mem (List.cons_ne_nil slot slots)) with heq | hmem
      · rw [heq]
      · have hincreasing := List.pairwise_cons.mp (List.pairwise_map.mp hplan.increasing)
        exact (hincreasing.1 _ hmem).le
    obtain ⟨first, hfirst, -, heq⟩ : ∃ t ∈ placed, t.token.term ∈ slot.alternatives ∧
        witness.first = t.occurrence := (List.forall₂_cons.mp h.stands).1
    obtain ⟨last, hlast, heq'⟩ : ∃ t ∈ placed,
        lastOccurrence witness.first witness.others = t.occurrence := by
      obtain ⟨slot', -, t, ht, -, heq⟩ := exists_of_forall₂ h.stands.flip
        (List.getLast_mem (List.cons_ne_nil witness.first witness.others))
      exact ⟨t, ht, heq⟩
    rw [heq'] at hslop ⊢
    rw [heq] at hslop ⊢
    have hle : first.logicalPosition ≤ last.logicalPosition := by
      simp only [PositionedOffsetToken.occurrence] at hslop
      omega
    exact (hplaced.ranges_le hfirst hlast hle).1.trans_lt last.token.range_nonempty

/-- What the collector finds for a phrase, against the plan of the phrase. -/
structure Agrees [LinearOrder Score] (plan : PhrasePlan ops) (docId : ℕ) (tokens : List OffsetAnalyzedToken)
    (slots : List PhraseSlot) (witness : Option PhraseWitness) : Prop where
  matched : witness.isSome = (plan.evaluate docId).isSome
  consumed : witness.map (·.consumedSlop) = plan.consumedSlop docId
  minimum : ∀ anchorSlot, plan.anchorSlot = some anchorSlot →
    witness.map (·.consumedSlop) = PhrasePlan.minimumConsumed (plan.consumedAt docId anchorSlot)
      plan.requestedSlop none (plan.anchorPositions docId anchorSlot)
  earliest : ∀ placed, positioned (-1) tokens = .ok placed →
    IsBest (IsWitness placed slots plan.requestedSlop) witness
  collected : ∀ best, witness = some best → ∀ fieldName ranges, ∃ range : HighlightSpan,
    range.startOffset = best.first.startOffset ∧
      range.endOffset = (lastOccurrence best.first best.others).endOffset ∧
      collectPhrase fieldName slots plan.requestedSlop fieldName tokens ranges =
        .ok (ranges ++ [range])

theorem agrees_of_compiled [LinearOrder Score] (hne : slots ≠ [])
    (hplan : plan.Compiled slots index slop) (hindexed : Indexed index docId tokens)
    (hpositioned : positioned (-1) tokens = .ok placed) (hplaced : Positions tokens placed)
    {witness : Option PhraseWitness}
    (hwitness : earliestMinimumSlopWitness tokens slots slop = .ok witness)
    (hbest : IsBest (IsWitness placed slots slop) witness) : Agrees plan docId tokens slots witness := by
  have hsmall := small_of_indexed hplan hindexed hpositioned hplaced
  have hslops := slops_eq hne hplan hindexed hpositioned hplaced
  have hconsumed : witness.map (·.consumedSlop) = plan.consumedSlop docId :=
    map_consumedSlop_eq hbest fun m => by
      rw [hplan.consumedSlop_eq_some_iff hsmall, hslops]
  have hrequested := hplan.requestedSlop
  constructor
  · rw [PhrasePlan.isSome_evaluate (by rw [hplan.textIndex]; rfl), ← hconsumed, Option.isSome_map]
  · exact hconsumed
  · intro anchorSlot hanchorSlot
    obtain ⟨_, hlt, hanchor⟩ := hplan.anchorSlot
    cases hanchorSlot.symm.trans hanchor
    have hlength : anchorSlot < plan.relativePositions.length := by
      rwa [hplan.relativePositions, List.length_map]
    exact map_consumedSlop_eq hbest fun m => by
      rw [PhrasePlan.minimumConsumed_eq_some_iff hsmall hlength plan.requestedSlop, ← hslops]
      rfl
  · intro placed' hplaced'
    cases hpositioned.symm.trans hplaced'
    rwa [hrequested]
  · rintro best rfl fieldName ranges
    have hspan := hbest.1.startOffset_lt hplan hindexed hpositioned hplaced
    refine ⟨⟨_, _, hspan⟩, rfl, rfl, ?_⟩
    rw [collectPhrase, if_neg (not_not.mpr rfl), hrequested, hwitness]
    exact dif_pos hspan

/-- For tokens that the validator accepts and that were indexed for the document, the collector finds
the best witness of the phrase exactly when the plan matches, with the slop of the plan. -/
theorem phraseEvidence_agrees [LinearOrder Score] {config : ops.Config} {scoringTerms : List JString}
    {textIndex : Option TextIndexSnapshot} {source : JString}
    (hplan : compilePhrase ops config slots scoringTerms textIndex slop = .ok plan)
    (hvalid : ValidTokens source tokens)
    (hindexed : ∀ index, textIndex = some index → Indexed index docId tokens) :
    ∃ witness, earliestMinimumSlopWitness tokens slots slop = .ok witness ∧
      Agrees plan docId tokens slots witness := by
  obtain ⟨placed, hpositioned, hplaced⟩ := positions_of_valid hvalid
  obtain ⟨witness, hwitness, hbest⟩ :=
    earliestMinimumSlopWitness_isBest hpositioned hplaced slots slop
  refine ⟨witness, hwitness, ?_⟩
  by_cases hne : slots = []
  · subst hne
    cases hplan
    cases hwitness
    exact ⟨rfl, rfl, nofun, fun _ _ w hw => (nomatch hw.stands), nofun⟩
  · cases textIndex with
    | none =>
      rw [compilePhrase, if_neg (by simpa using hne)] at hplan
      cases hplan
    | some index =>
      exact agrees_of_compiled hne (PhrasePlan.compiled_of_ok hne hplan) (hindexed index rfl)
        hpositioned hplaced hwitness hbest

end

/-- The document 0 is the text "a b a". -/
def echoIndex : TextIndexSnapshot where
  postings := .node [97] (PostingList.empty.withPositions 0 [0, 2] (by decide) (by decide)) .leaf
    (.node [98] (PostingList.empty.withPositions 0 [1] (by decide) (by decide)) .leaf .leaf 1 1 1 1)
    1 2 2 2
  fuzzyDictionary := some (.node none (.cons 97 (.node (some [97]) .nil)
    (.cons 98 (.node (some [98]) .nil) .nil)))
  documentLengths := .node (0 : ℕ) 3 .leaf .leaf 1 1 1 1
  totalDocumentLength := 3

def echoTokens : List OffsetAnalyzedToken :=
  [⟨[97], 1, 0, 1, by decide, by decide⟩, ⟨[98], 1, 2, 3, by decide, by decide⟩,
    ⟨[97], 1, 4, 5, by decide, by decide⟩]

theorem echoIndex_indexed : Indexed echoIndex 0 echoTokens := by
  intro term p
  have hpositioned : positioned (-1) echoTokens = .ok
      [⟨0, ⟨[97], 1, 0, 1, by decide, by decide⟩⟩, ⟨1, ⟨[98], 1, 2, 3, by decide, by decide⟩⟩,
        ⟨2, ⟨[97], 1, 4, 5, by decide, by decide⟩⟩] := rfl
  rw [standsAt_iff hpositioned, TextIndexSnapshot.posting]
  by_cases ha : term = [97]
  · subst ha
    have hpostings : p ∈ [0, 2] ↔ p = 0 ∨ p = 2 := by simp
    refine hpostings.trans ?_
    simp
    omega
  by_cases hb : term = [98]
  · subst hb
    have hpostings : p ∈ [1] ↔ p = 1 := by simp
    refine hpostings.trans ?_
    simp
    omega
  have hempty : echoIndex.postings.get JString.compareTo term = none := by
    rw [echoIndex, AvlNode.get]
    cases hterm : JString.compareTo term [97] with
    | eq => exact absurd (Std.LawfulEqCmp.eq_of_compare hterm) ha
    | lt => rfl
    | gt =>
      dsimp only
      rw [AvlNode.get]
      cases hterm' : JString.compareTo term [98] with
      | eq => exact absurd (Std.LawfulEqCmp.eq_of_compare hterm') hb
      | lt | gt => rfl
  rw [hempty]
  refine iff_of_false List.not_mem_nil ?_
  rintro ⟨t, ht, rfl, -⟩
  simp at ht
  rcases ht with rfl | rfl | rfl
  · exact ha rfl
  · exact hb rfl
  · exact ha rfl

/-- The phrase "a a" is found in "a b a" with the slop 1. -/
theorem phraseEvidence_agrees_echo : ∃ plan : PhrasePlan counts,
    compilePhrase counts () [⟨0, [[97]]⟩, ⟨1, [[97]]⟩] [[97]] (some echoIndex) 1 = .ok plan ∧
      ∃ witness, earliestMinimumSlopWitness echoTokens [⟨0, [[97]]⟩, ⟨1, [[97]]⟩] 1 = .ok witness ∧
        Agrees plan 0 echoTokens [⟨0, [[97]]⟩, ⟨1, [[97]]⟩] witness ∧ witness.isSome := by
  have hvalid : ValidTokens [97, 32, 98, 32, 97] echoTokens := by
    have haccepted : validate "text" [97, 32, 98, 32, 97] (some (echoTokens.map some)) =
      .ok echoTokens := rfl
    exact (validate_eq_ok.mp haccepted).2.2
  obtain ⟨plan, hplan⟩ : ∃ plan : PhrasePlan counts,
    compilePhrase counts () [⟨0, [[97]]⟩, ⟨1, [[97]]⟩] [[97]] (some echoIndex) 1 = .ok plan := ⟨_, rfl⟩
  have hindexed : ∀ index, some echoIndex = some index → Indexed index 0 echoTokens := by
    rintro _ ⟨⟩
    exact echoIndex_indexed
  obtain ⟨witness, hwitness, hagrees⟩ := phraseEvidence_agrees hplan hvalid hindexed
  refine ⟨plan, hplan, witness, hwitness, hagrees, ?_⟩
  have hfound : (earliestMinimumSlopWitness echoTokens [⟨0, [[97]]⟩, ⟨1, [[97]]⟩] 1) =
      .ok (some ⟨1, ⟨0, 0, 1⟩, [⟨2, 4, 5⟩]⟩) := by
    decide +kernel
  cases hfound.symm.trans hwitness
  rfl

end GeneralSearch.Highlight
