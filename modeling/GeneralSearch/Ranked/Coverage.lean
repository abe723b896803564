import GeneralSearch.Ranked.Plan

/-! Compiling a prepared node never throws, and no node of the plan matches a document outside its
candidates: what a leaf matches is in one of its postings, and the bitmaps of a bool node are cut
down only by documents that it does not match. -/

namespace GeneralSearch.Ranked

open GeneralSearch.Index GeneralSearch.Planner GeneralSearch.Storage

variable {T : Type} {S : Schema T} {Score : Type} [LinearOrder Score] {ops : Scoring Score}

/-- No node of the plan matches a document that is not among the candidates of the node. -/
def Covering (plan : ScoringPlanNode ops) : Prop :=
  ∀ node ∈ plan.nodes, ∀ docId score, node.evaluate docId = some score → docId ∈ node.candidates

omit [LinearOrder Score] in
theorem ScoringPlanNode.self_mem_nodes (plan : ScoringPlanNode ops) : plan ∈ plan.nodes := by
  cases plan <;> simp [ScoringPlanNode.nodes]

theorem Covering.mem {plan : ScoringPlanNode ops} (h : Covering plan) {docId : ℕ} {score : Score}
    (hscore : plan.evaluate docId = some score) : docId ∈ plan.candidates :=
  h plan plan.self_mem_nodes docId score hscore

@[simp] theorem mem_unionAll {bitmaps : List (Finset ℕ)} {d : ℕ} :
    d ∈ unionAll bitmaps ↔ ∃ bitmap ∈ bitmaps, d ∈ bitmap :=
  (mem_foldl_union id bitmaps ∅ d).trans (by simp)

/-! ### Text leaves -/

/-- A match that is not established otherwise comes from a term that occurs in the document. -/
theorem bm25_match {textIndex : TextIndexSnapshot} {scoringTerms : List (ScoringTerm Score)}
    {config : ops.Config} {average score : Score} {docId : ℕ}
    (h : bm25 ops textIndex scoringTerms config average docId false = some score) :
    ∃ term ∈ scoringTerms, term.posting.termFrequency docId ≠ 0 := by
  by_contra hnone
  simp only [not_exists, not_and, not_not] at hnone
  have hfold : ∀ (step : ScoringTerm Score → Bool × Score → Bool × Score) (r : Bool × Score),
      scoringTerms.foldl (fun r term =>
        if term.posting.termFrequency docId = 0 then r else step term r) r = r := by
    intro step r
    clear h
    induction scoringTerms with
    | nil => rfl
    | cons term rest ih =>
      rw [List.foldl_cons, if_pos (hnone term List.mem_cons_self)]
      exact ih fun t ht => hnone t (List.mem_cons_of_mem _ ht)
  unfold bm25 at h
  dsimp only at h
  split at h
  · cases h
  · rw [hfold] at h
    cases h

omit [LinearOrder Score] in
theorem textTerms_ok (textIndex : TextIndexSnapshot) {terms : List JString}
    (hterms : ∀ term ∈ terms, term ≠ []) : ∃ scoringTerms, textTerms ops textIndex terms =
      .ok scoringTerms := by
  induction terms with
  | nil => exact ⟨_, rfl⟩
  | cons term rest ih =>
    obtain ⟨hterm, hrest⟩ := List.forall_mem_cons.mp hterms
    obtain ⟨scoringTerms, hok⟩ := ih hrest
    unfold textTerms
    dsimp only
    split
    · exact ⟨_, hok⟩
    · rw [ScoringTerm.make, if_neg hterm, hok]
      exact ⟨_, rfl⟩

theorem compileText_spec (config : ops.Config) {terms : List JString}
    {textIndex : Option TextIndexSnapshot} (hindex : terms ≠ [] → textIndex.isSome)
    (hterms : ∀ term ∈ terms, term ≠ []) :
    ∃ plan, compileText ops config terms textIndex = .ok plan ∧
      (∀ d score, plan.evaluate d = some score → d ∈ plan.candidates) ∧
      (terms = [] → ∀ d, plan.evaluate d = none) := by
  unfold compileText
  split
  · exact ⟨_, rfl, fun d score (h : none = some score) => absurd h nofun, fun _ _ => rfl⟩
  rename_i hne
  have hne : terms ≠ [] := by simpa using hne
  obtain ⟨index, rfl⟩ := Option.isSome_iff_exists.mp (hindex hne)
  obtain ⟨scoringTerms, hok⟩ := @textTerms_ok _ ops index _ hterms
  dsimp only
  rw [hok]
  refine ⟨_, rfl, fun d score hscore => ?_, fun hnil => absurd hnil hne⟩
  obtain ⟨term, hterm, hfrequency⟩ := bm25_match hscore
  exact mem_unionAll.mpr ⟨_, List.mem_map_of_mem hterm, PostingList.mem_of_termFrequency hfrequency⟩

/-! ### Phrase leaves -/

omit [LinearOrder Score] in
theorem phraseTerms_ok (textIndex : TextIndexSnapshot) {known terms : List JString}
    (hterms : ∀ term ∈ terms, term ≠ [] ∧ term ∈ known) :
    ∃ scoringTerms, phraseTerms ops textIndex known terms = .ok scoringTerms := by
  induction terms with
  | nil => exact ⟨_, rfl⟩
  | cons term rest ih =>
    obtain ⟨⟨hterm, hknown⟩, hrest⟩ := List.forall_mem_cons.mp hterms
    obtain ⟨scoringTerms, hok⟩ := ih hrest
    unfold phraseTerms
    rw [if_neg (not_not.mpr hknown)]
    dsimp only
    split
    · exact ⟨_, hok⟩
    · rw [ScoringTerm.make, if_neg hterm, hok]
      exact ⟨_, rfl⟩

/-- The anchor is one of the slots. -/
theorem anchorOf_lt {slots : List IndexedCandidates} {bound : ℕ} (hbound : 0 < bound)
    (h : ∀ slot ∈ slots, slot.slotIndex < bound) : anchorOf slots < bound := by
  have hfold : ∀ r : ℕ × ℕ, r.1 < bound → (slots.foldl (fun (r : ℕ × ℕ) slot =>
      if slot.candidates.card < r.2 then (slot.slotIndex, slot.candidates.card) else r) r).1 <
        bound := by
    induction slots with
    | nil => exact fun r hr => hr
    | cons slot rest ih =>
      intro r hr
      obtain ⟨hslot, hrest⟩ := List.forall_mem_cons.mp h
      rw [List.foldl_cons]
      refine ih hrest _ ?_
      split
      · exact hslot
      · exact hr
  exact hfold _ hbound

theorem validateSlots_ok {slots : List PhraseSlot} (h : Slots slots) (hne : slots ≠ [])
    (posting : JString → PostingList) {anchorSlot : ℕ} (hanchor : anchorSlot < slots.length) :
    validateSlots anchorSlot (slots.map (·.relativePosition))
      (slots.map fun slot => slot.alternatives.map posting) = .ok () := by
  unfold validateSlots
  rw [if_neg (by simpa using hanchor), if_neg, if_neg, if_neg]
  · simp only [List.any_map, List.any_eq_true, Function.comp_apply, List.isEmpty_iff,
      List.map_eq_nil_iff, not_exists, not_and]
    exact h.nonempty
  · exact not_not.mpr (List.pairwise_map.mpr h.increasing)
  · cases slots with
    | nil => exact absurd rfl hne
    | cons slot rest => simpa using h.first slot rfl

theorem compilePhrase_spec (config : ops.Config) {slots : List PhraseSlot}
    {scoringTerms : List JString} {textIndex : Option TextIndexSnapshot} (slop : ℕ)
    (hindex : slots ≠ [] → textIndex.isSome) (hslots : Slots slots)
    (hterms : ∀ term ∈ scoringTerms, term ≠ [] ∧ ∃ slot ∈ slots, term ∈ slot.alternatives) :
    ∃ plan, compilePhrase ops config slots scoringTerms textIndex slop = .ok plan ∧
      (slots = [] → ∀ d, plan.evaluate d = none) := by
  unfold compilePhrase
  split
  · exact ⟨_, rfl, fun _ _ => rfl⟩
  rename_i hne
  have hne : slots ≠ [] := by simpa using hne
  obtain ⟨index, rfl⟩ := Option.isSome_iff_exists.mp (hindex hne)
  obtain ⟨prepared, hprepared⟩ := @phraseTerms_ok _ ops index (slots.flatMap (·.alternatives))
    scoringTerms fun term hterm =>
      ⟨(hterms term hterm).1, List.mem_flatMap.mpr (hterms term hterm).2⟩
  dsimp only
  rw [hprepared]
  have hanchor : anchorOf ((slots.map fun slot => slot.alternatives.map index.posting).zipIdx.map
      fun x => ⟨x.2, unionAll (x.1.map (·.documents))⟩) < slots.length := by
    refine anchorOf_lt (List.length_pos_iff.mpr hne) fun slot hslot => ?_
    obtain ⟨⟨alternatives, i⟩, hmem, rfl⟩ := List.mem_map.mp hslot
    simpa using (List.mem_zipIdx' hmem).1
  have hvalid := validateSlots_ok hslots hne index.posting hanchor
  dsimp only [bind, Except.bind]
  rw [hvalid]
  exact ⟨_, rfl, fun hnil => absurd hnil hne⟩

/-- A phrase is looked for only in a candidate. -/
theorem PhrasePlan.mem_candidates {plan : PhrasePlan ops} {d : ℕ} {score : Score}
    (h : plan.evaluate d = some score) : d ∈ plan.candidates := by
  unfold PhrasePlan.evaluate at h
  split at h
  case h_2 => cases h
  rename_i consumed index hconsumed _
  unfold PhrasePlan.consumedSlop at hconsumed
  split at hconsumed
  case h_2 => cases hconsumed
  split at hconsumed
  · cases hconsumed
  · rename_i hmem
    exact not_not.mp hmem

/-! ### Fuzzy leaves -/

/-- A fuzzy term is looked for only in a candidate. -/
theorem FuzzyPlan.mem_candidates {plan : FuzzyPlan ops} {d : ℕ} {score : Score}
    (h : (plan.evaluateFuzzy d).map Prod.fst = some score) : d ∈ plan.candidates := by
  obtain ⟨evaluation, h, -⟩ := Option.map_eq_some_iff.mp h
  unfold FuzzyPlan.evaluateFuzzy at h
  split at h
  · cases h
  split at h
  · cases h
  · rename_i hmem
    exact not_not.mp hmem

theorem compareCodePoints_swap (a b : JString) :
    compareCodePoints b a = (compareCodePoints a b).swap := by
  unfold compareCodePoints
  exact Std.OrientedCmp.eq_swap

theorem compareCodePoints_trans {a b c : JString} (hab : (compareCodePoints a b).isLE)
    (hbc : (compareCodePoints b c).isLE) : (compareCodePoints a c).isLE := by
  unfold compareCodePoints at *
  exact Std.TransCmp.isLE_trans hab hbc

theorem compareCodePoints_eq {a b : JString} (h : compareCodePoints a b = .eq) : a = b := by
  unfold compareCodePoints at h
  exact codePoints_injective (Std.LawfulEqCmp.eq_of_compare h)

instance : Std.Total (@FuzzyExpansion.le Score) where
  total a b := by
    rcases Nat.lt_trichotomy a.editDistance b.editDistance with h | h | h
    · exact .inl (.inl h)
    · unfold FuzzyExpansion.le
      rw [compareCodePoints_swap a.term b.term]
      cases compareCodePoints a.term b.term <;> simp [h]
    · exact .inr (.inl h)

instance : IsTrans (FuzzyExpansion Score) FuzzyExpansion.le where
  trans a b c := by
    rintro (hab | ⟨hab, hle⟩) (hbc | ⟨hbc, hle'⟩)
    · exact .inl (hab.trans hbc)
    · exact .inl (hbc ▸ hab)
    · exact .inl (hab ▸ hbc)
    · exact .inr ⟨hab.trans hbc, compareCodePoints_trans hle hle'⟩

omit [LinearOrder Score] in
/-- Expansions of different terms that are in order pass the checks of the plan. -/
theorem validateExpansions_ok {query : JString} {terms : List JString}
    {previous : Option (FuzzyScoringExpansion Score)}
    {expansions : List (FuzzyScoringExpansion Score)}
    (hnew : ∀ e ∈ expansions, e.term ∉ terms) (hnodup : (expansions.map (·.term)).Nodup)
    (hzero : ∀ e ∈ expansions, e.editDistance = 0 ↔ e.term = query)
    (hordered : (previous.toList ++ expansions).Pairwise fun a b => a.editDistance < b.editDistance ∨
      (a.editDistance = b.editDistance ∧ compareCodePoints a.term b.term = .lt)) :
    validateExpansions query terms previous expansions = .ok () := by
  induction expansions generalizing terms previous with
  | nil => rfl
  | cons e rest ih =>
    obtain ⟨hterm, hrest⟩ := List.forall_mem_cons.mp hnew
    obtain ⟨hdistance, hzero⟩ := List.forall_mem_cons.mp hzero
    obtain ⟨hfirst, hnodup⟩ := List.nodup_cons.mp hnodup
    unfold validateExpansions
    rw [if_neg hterm, if_neg (by simpa using hdistance), if_neg]
    · refine ih (fun e' he' hmem => ?_) hnodup hzero ?_
      · rcases List.mem_cons.mp hmem with heq | hmem
        · exact hfirst (List.mem_map.mpr ⟨e', he', heq⟩)
        · exact hrest e' he' hmem
      · exact hordered.sublist (List.sublist_append_right _ _)
    · cases previous with
      | none => simp
      | some p =>
        have hlt := (List.pairwise_cons.mp hordered).1 e List.mem_cons_self
        rw [Option.any_some, Bool.or_eq_true, Bool.and_eq_true]
        rintro (hless | ⟨hequal, hge⟩)
        · have hless := of_decide_eq_true hless
          omega
        · have hequal := of_decide_eq_true hequal
          rcases hlt with hlt | ⟨-, hlt⟩
          · omega
          · rw [hlt] at hge
            cases hge

/-- A loop of which no round throws. -/
theorem mapM_eq_map {α β : Type} {f : α → Except Failure β} {g : α → β} {as : List α}
    (h : ∀ a ∈ as, f a = .ok (g a)) : as.mapM f = .ok (as.map g) := by
  induction as with
  | nil => rfl
  | cons a as ih =>
    obtain ⟨ha, hrest⟩ := List.forall_mem_cons.mp h
    rw [List.mapM_cons, ha]
    show (as.mapM f >>= fun bs => pure (g a :: bs)) = _
    rw [ih hrest]
    rfl

variable (ops) in
omit [LinearOrder Score] in
/-- The lexical expansions of a term stand in the dictionary, each once and in order. -/
theorem expand_spec {index : TextIndexSnapshot} (hindex : index.Spelled) {query : JString}
    (hquery : query ≠ []) {maxEdits : ℕ} (hmax : maxEdits ≤ 2) :
    ∃ expansions, expand ops index query maxEdits = .ok expansions ∧
      (∀ e ∈ expansions, e.term ≠ [] ∧ e.posting.documentFrequency ≠ 0 ∧
        (e.editDistance = 0 ↔ e.term = query)) ∧
      (expansions.map (·.term)).Nodup ∧ expansions.Pairwise FuzzyExpansion.le := by
  let expansion (found : JString × ℕ) : FuzzyExpansion Score :=
    ⟨found.1, index.posting found.1, found.2,
      ops.similarity found.2 (max (codePoints query).length (codePoints found.1).length)⟩
  let found := index.withinEditDistance query maxEdits
  have hmake : found.mapM (FuzzyExpansion.make ops index query) = .ok (found.map expansion) := by
    refine mapM_eq_map fun a ha => ?_
    obtain ⟨hle, -, hne, -⟩ := hindex.mem_within ha
    rw [FuzzyExpansion.make, if_neg hne, if_neg (by omega)]
  have hperm := List.perm_insertionSort FuzzyExpansion.le (found.map expansion)
  refine ⟨(found.map expansion).insertionSort FuzzyExpansion.le, ?_, fun e he => ?_, ?_,
    List.pairwise_insertionSort _ _⟩
  · rw [expand, if_neg hquery, if_neg (by omega), hmake]
    rfl
  · obtain ⟨a, ha, rfl⟩ := List.mem_map.mp (hperm.mem_iff.mp he)
    obtain ⟨-, hzero, hne, hfrequency⟩ := hindex.mem_within ha
    exact ⟨hne, Nat.pos_iff_ne_zero.mp hfrequency, hzero⟩
  · rw [(hperm.map _).nodup_iff, List.map_map]
    exact hindex.within_nodup

theorem autoMaxEdits_le (term : JString) : autoMaxEdits term ≤ 2 := by
  unfold autoMaxEdits
  dsimp only
  split_ifs <;> omega

theorem compileFuzzy_spec (config : ops.Config) {normalizedTerm : Option JString}
    (textIndex : Option TextIndexSnapshot)
    (hterm : ∀ term, normalizedTerm = some term →
      term ≠ [] ∧ ∃ index, textIndex = some index ∧ index.Spelled) :
    ∃ plan, compileFuzzy ops config normalizedTerm textIndex = .ok plan ∧
      (normalizedTerm = none → ∀ d, plan.evaluateFuzzy d = none) := by
  cases normalizedTerm with
  | none => exact ⟨_, rfl, fun _ _ => rfl⟩
  | some term =>
    obtain ⟨hne, index, rfl, hindex⟩ := hterm term rfl
    obtain ⟨expansions, hexpand, hmembers, hnodup, hordered⟩ :=
      expand_spec ops hindex hne (autoMaxEdits_le term)
    let scoring (e : FuzzyExpansion Score) : FuzzyScoringExpansion Score :=
      ⟨e.term, ⟨e.term, e.posting, ops.inverseDocumentFrequency index.indexedDocumentCount
        e.posting.documentFrequency⟩, e.editDistance, e.similarity⟩
    have hscoring : expansions.mapM (fuzzyScoringExpansion ops index) =
        .ok (expansions.map scoring) := by
      refine mapM_eq_map fun e he => ?_
      obtain ⟨hterm, hfrequency, -⟩ := hmembers e he
      rw [fuzzyScoringExpansion, if_neg hfrequency, ScoringTerm.make, if_neg hterm]
      rfl
    have hvalid : validateExpansions term [] none (expansions.map scoring) = .ok () := by
      refine validateExpansions_ok (fun _ _ => List.not_mem_nil) ?_ (fun e he => ?_) ?_
      · rw [List.map_map]
        exact hnodup
      · obtain ⟨found, hfound, rfl⟩ := List.mem_map.mp he
        exact (hmembers found hfound).2.2
      · -- In order and different, so strictly in order.
        rw [Option.toList_none, List.nil_append, List.pairwise_map]
        refine hordered.imp₂ (fun a b hle hterms => ?_) (List.pairwise_map.mp hnodup)
        rcases hle with hlt | ⟨hequal, hle⟩
        · exact .inl hlt
        · refine .inr ⟨hequal, ?_⟩
          cases hcompare : compareCodePoints a.term b.term with
          | lt => rfl
          | eq => exact absurd (compareCodePoints_eq hcompare) hterms
          | gt =>
            rw [hcompare] at hle
            cases hle
    unfold compileFuzzy
    dsimp only [bind, Except.bind]
    rw [hexpand]
    dsimp only
    rw [hscoring]
    dsimp only
    rw [hvalid]
    exact ⟨_, rfl, nofun⟩

/-! ### Bool nodes -/

omit [LinearOrder Score] in
theorem mem_intersectCandidates {children : List (ScoringPlanNode ops)} {bitmap : Finset ℕ}
    (h : intersectCandidates children = some bitmap) {d : ℕ}
    (hd : ∀ child ∈ children, d ∈ child.candidates) : d ∈ bitmap := by
  unfold intersectCandidates at h
  split at h
  · cases h
  rename_i first rest hsort
  cases h
  have hmem : ∀ child ∈ first :: rest, d ∈ child.candidates := by
    intro child hchild
    rw [← hsort, List.mem_insertionSort] at hchild
    exact hd child hchild
  rw [mem_intersectFrom]
  refine ⟨hmem first List.mem_cons_self, fun source hsource => ?_⟩
  obtain ⟨child, hchild, rfl⟩ := List.mem_map.mp hsource
  exact hmem child (List.mem_cons_of_mem _ hchild)

omit [LinearOrder Score] in
theorem intersectCandidates_isSome {children : List (ScoringPlanNode ops)} (h : children ≠ []) :
    (intersectCandidates children).isSome := by
  unfold intersectCandidates
  split
  · rename_i hsort
    have hlen := congrArg List.length hsort
    rw [List.length_insertionSort, List.length_nil, List.length_eq_zero_iff] at hlen
    exact absurd hlen h
  · rfl

omit [LinearOrder Score] in
/-- A document is counted once for each child that has it. -/
theorem count_occurrences (children : List (ScoringPlanNode ops)) (d : ℕ) :
    (children.flatMap fun child => setBits child.candidates).count d =
      children.countP fun child => d ∈ child.candidates := by
  induction children with
  | nil => rfl
  | cons child rest ih =>
    rw [List.flatMap_cons, List.count_append, ih, List.countP_cons, (setBits_nodup _).count]
    simp only [mem_setBits, decide_eq_true_eq]
    omega

omit [LinearOrder Score] in
theorem mem_countedCandidates {children : List (ScoringPlanNode ops)} {minimum d : ℕ}
    (hminimum : 0 < minimum)
    (h : minimum ≤ children.countP fun child => d ∈ child.candidates) :
    d ∈ countedCandidates children minimum := by
  rw [← count_occurrences] at h
  unfold countedCandidates
  dsimp only
  rw [List.mem_toFinset, List.mem_filter, decide_eq_true_eq]
  exact ⟨List.count_pos_iff.mp (by omega), h⟩

omit [LinearOrder Score] in
/-- A document that enough children have is among the candidates of the threshold. -/
theorem thresholdCandidates_spec {children : List (ScoringPlanNode ops)} {minimum : ℕ}
    (hminimum : 0 < minimum) (hle : minimum ≤ children.length) :
    ∃ bitmap, thresholdCandidates children minimum = .ok bitmap ∧
      ∀ d, (minimum ≤ children.countP fun child => d ∈ child.candidates) → d ∈ bitmap := by
  have hne : children ≠ [] := List.ne_nil_of_length_pos (by omega)
  unfold thresholdCandidates
  split
  · rw [if_neg (by simpa using hne)]
    refine ⟨_, rfl, fun d hd => ?_⟩
    obtain ⟨child, hchild, hmem⟩ := List.countP_pos_iff.mp (Nat.lt_of_lt_of_le hminimum hd)
    exact mem_unionAll.mpr ⟨_, List.mem_map_of_mem hchild, of_decide_eq_true hmem⟩
  split
  · rename_i hall
    obtain ⟨bitmap, hbitmap⟩ := Option.isSome_iff_exists.mp (intersectCandidates_isSome hne)
    rw [hbitmap]
    refine ⟨bitmap, rfl, fun d hd => mem_intersectCandidates hbitmap fun child hchild => ?_⟩
    have hcount := Nat.le_antisymm List.countP_le_length (hall ▸ hd)
    exact of_decide_eq_true (List.countP_eq_length.mp hcount child hchild)
  · exact ⟨_, rfl, fun d hd => mem_countedCandidates hminimum hd⟩

omit [LinearOrder Score] in
theorem boolCandidates_spec {must should : List (ScoringPlanNode ops)} {minimum : ℕ}
    (hle : minimum ≤ should.length) (hzero : minimum = 0 → must ≠ []) :
    ∃ bitmap, boolCandidates must should minimum = .ok bitmap ∧
      ∀ d, (∀ child ∈ must, d ∈ child.candidates) →
        (minimum ≤ should.countP fun child => d ∈ child.candidates) → d ∈ bitmap := by
  unfold boolCandidates
  dsimp only
  split
  · rename_i h
    obtain ⟨bitmap, hbitmap⟩ := Option.isSome_iff_exists.mp (intersectCandidates_isSome (hzero h))
    rw [hbitmap]
    exact ⟨bitmap, rfl, fun d hmust _ => mem_intersectCandidates hbitmap hmust⟩
  · obtain ⟨threshold, hthreshold, hmem⟩ := thresholdCandidates_spec (by omega) hle
    rw [hthreshold]
    refine ⟨_, rfl, fun d hmust hshould => ?_⟩
    cases hbitmap : intersectCandidates must with
    | none => exact hmem d hshould
    | some bitmap =>
      exact Finset.mem_inter.mpr ⟨mem_intersectCandidates hbitmap hmust, hmem d hshould⟩

/-- All clauses that must match do. -/
theorem evaluateMust_match {children : List (ScoringPlanNode ops)} {docId : ℕ}
    {score result : Score} (h : evaluateMust docId score children = some result) :
    ∀ child ∈ children, ∃ s, child.evaluate docId = some s := by
  induction children generalizing score with
  | nil => nofun
  | cons child rest ih =>
    unfold evaluateMust at h
    split at h
    · cases h
    · rename_i s hs
      exact List.forall_mem_cons.mpr ⟨⟨s, hs⟩, ih h⟩

theorem evaluateShould_count (children : List (ScoringPlanNode ops)) (docId : ℕ) (r : ℕ × Score) :
    (evaluateShould docId r children).1 =
      r.1 + children.countP fun child => (child.evaluate docId).isSome := by
  induction children generalizing r with
  | nil => rfl
  | cons child rest ih =>
    unfold evaluateShould
    rw [List.countP_cons]
    split <;> rename_i hchild <;> simp only [hchild, ih, Option.isSome_none, Option.isSome_some,
      Bool.false_eq_true, if_false, if_true] <;> omega

/-- What a bool node matches: every clause that must, and enough of those that should. -/
theorem evaluate_bool {must should : List (ScoringPlanNode ops)} {minimum docId : ℕ}
    {candidates : Finset ℕ} {score : Score}
    (h : (ScoringPlanNode.bool must should minimum candidates).evaluate docId = some score) :
    (∀ child ∈ must, ∃ s, child.evaluate docId = some s) ∧
      minimum ≤ should.countP fun child => (child.evaluate docId).isSome := by
  unfold ScoringPlanNode.evaluate at h
  split at h
  · cases h
  rename_i mustScore hmust
  dsimp only at h
  split at h
  · cases h
  rename_i hcount
  rw [evaluateShould_count, Nat.zero_add] at hcount
  exact ⟨evaluateMust_match hmust, Nat.le_of_not_lt hcount⟩

/-! ### All nodes -/

variable {snapshot : SearchSnapshot T (RankedIndex S)} {config : ops.Config}

/-- What compiling a node gives: a plan whose nodes match only candidates, and which matches nothing
when no leaf of the node has anything to look for. -/
structure Compiled (config : ops.Config) (node : NormalizedScoringNode S Score)
    (plan : ScoringPlanNode ops) : Prop where
  ok : compile ops config node = .ok plan
  covering : Covering plan
  silent : containsNonEmptyScoringLeaf node = false → ∀ d, plan.evaluate d = none

omit [LinearOrder Score] in
theorem mem_nodesOf {children : List (ScoringPlanNode ops)} {node : ScoringPlanNode ops} :
    node ∈ nodesOf children ↔ ∃ child ∈ children, node ∈ child.nodes := by
  induction children with
  | nil => simp [nodesOf]
  | cons child rest ih => simp [nodesOf, ih]

/-- A leaf covers what it matches if its bitmap does. -/
theorem covering_leaf {plan : ScoringPlanNode ops} (hleaf : plan.nodes = [plan])
    (h : ∀ docId score, plan.evaluate docId = some score → docId ∈ plan.candidates) :
    Covering plan := by
  intro node hnode
  rw [hleaf, List.mem_singleton] at hnode
  exact hnode ▸ h

theorem covering_bool {must should : List (ScoringPlanNode ops)} {minimum : ℕ}
    {candidates : Finset ℕ} (hmust : ∀ child ∈ must, Covering child)
    (hshould : ∀ child ∈ should, Covering child)
    (h : ∀ d, (∀ child ∈ must, d ∈ child.candidates) →
      (minimum ≤ should.countP fun child => d ∈ child.candidates) → d ∈ candidates) :
    Covering (.bool must should minimum candidates) := by
  intro node hnode
  rw [ScoringPlanNode.nodes, List.mem_cons, List.mem_append, mem_nodesOf, mem_nodesOf] at hnode
  rcases hnode with rfl | ⟨child, hchild, hnode⟩ | ⟨child, hchild, hnode⟩
  · intro d score hscore
    obtain ⟨hall, hcount⟩ := evaluate_bool hscore
    refine h d (fun child hchild => ?_) (Nat.le_trans hcount ?_)
    · obtain ⟨s, hs⟩ := hall child hchild
      exact (hmust child hchild).mem hs
    · refine List.countP_mono_left fun child hchild hsome => ?_
      obtain ⟨s, hs⟩ := Option.isSome_iff_exists.mp hsome
      exact decide_eq_true ((hshould child hchild).mem hs)
  · exact hmust child hchild node hnode
  · exact hshould child hchild node hnode

theorem covering_boost {child : ScoringPlanNode ops} (hchild : Covering child)
    (multiplier : Score) : Covering (.boost child multiplier) := by
  intro node hnode
  rw [ScoringPlanNode.nodes, List.mem_cons] at hnode
  rcases hnode with rfl | hnode
  · intro d score hscore
    rw [ScoringPlanNode.evaluate] at hscore
    obtain ⟨s, hs, -⟩ := Option.map_eq_some_iff.mp hscore
    exact hchild.mem hs
  · exact hchild node hnode

theorem Reads.isSome {field : S.TextField} {textIndex : Option TextIndexSnapshot}
    (h : Reads snapshot field textIndex) : textIndex.isSome := by
  obtain ⟨index, rfl, -⟩ := h
  rfl

mutual

/-- A prepared node compiles, at any depth. -/
theorem compile_compiled
    (hspelled : ∀ field index, .text field index ∈ snapshot.indexes → index.Spelled) :
    ∀ {node : NormalizedScoringNode S Score}, Prepared ops snapshot node →
      ∃ plan, Compiled config node plan
  | .text textField frozenTerms textIndex, h => by
    obtain ⟨plan, hok, hcovers, hsilent⟩ :=
      compileText_spec config (fun hne => (h.1 hne).isSome) h.2
    refine ⟨.text plan, by rw [compile, hok]; rfl, covering_leaf rfl hcovers, fun hempty => ?_⟩
    exact hsilent (by simpa [containsNonEmptyScoringLeaf] using hempty)
  | .phrase textField slots scoringTerms textIndex slop, h => by
    obtain ⟨plan, hok, hsilent⟩ :=
      compilePhrase_spec config slop (fun hne => (h.1 hne).isSome) h.2.1 h.2.2
    refine ⟨.phrase plan, by rw [compile, hok]; rfl,
      covering_leaf rfl fun d score => PhrasePlan.mem_candidates, fun hempty => ?_⟩
    exact hsilent (by simpa [containsNonEmptyScoringLeaf] using hempty)
  | .fuzzy textField normalizedTerm textIndex, h => by
    obtain ⟨plan, hok, hsilent⟩ :=
      compileFuzzy_spec config textIndex fun term hterm => by
        obtain ⟨hne, index, hindex, hmem⟩ := h term hterm
        exact ⟨hne, index, hindex, hspelled _ _ hmem⟩
    refine ⟨.fuzzy plan, by rw [compile, hok]; rfl,
      covering_leaf rfl fun d score => FuzzyPlan.mem_candidates, fun hempty d => ?_⟩
    rw [ScoringPlanNode.evaluate,
      hsilent (by simpa [containsNonEmptyScoringLeaf] using hempty) d]
    rfl
  | .bool must should minimum, h => by
    obtain ⟨hmust, hshould, hle, hzero⟩ := h
    obtain ⟨must', hmustOk, hmustLen, hmustCovers, hmustSilent⟩ :=
      compileChildren_compiled hspelled hmust
    obtain ⟨should', hshouldOk, hshouldLen, hshouldCovers, hshouldSilent⟩ :=
      compileChildren_compiled hspelled hshould
    have hle' : minimum ≤ should'.length := hshouldLen ▸ hle
    have hzero' : minimum = 0 → must' ≠ [] := fun hmin hnil =>
      hzero hmin (List.length_eq_zero_iff.mp (by rw [← hmustLen, hnil]; rfl))
    obtain ⟨bitmap, hbitmap, hcovers⟩ := boolCandidates_spec hle' hzero'
    refine ⟨.bool must' should' minimum bitmap, ?_,
      covering_bool hmustCovers hshouldCovers hcovers, fun hempty d => ?_⟩
    · rw [compile, hmustOk]
      dsimp only [bind, Except.bind]
      rw [hshouldOk]
      dsimp only
      rw [hbitmap]
      dsimp only
      rw [boolPlan, if_neg (by omega), if_neg fun hc =>
        hzero' hc.1 (List.isEmpty_iff.mp hc.2)]
    · -- No clause matches, and at least one would have to.
      rw [containsNonEmptyScoringLeaf, Bool.or_eq_false_iff] at hempty
      by_contra hsome
      obtain ⟨score, hscore⟩ := Option.ne_none_iff_exists'.mp hsome
      obtain ⟨hall, hcount⟩ := evaluate_bool hscore
      have hnone : (should'.countP fun child => (child.evaluate d).isSome) = 0 := by
        rw [List.countP_eq_zero]
        intro child hchild
        rw [hshouldSilent hempty.2 child hchild d]
        simp
      obtain ⟨child, hchild⟩ := List.exists_mem_of_ne_nil _ (hzero' (by omega))
      obtain ⟨s, hs⟩ := hall child hchild
      rw [hmustSilent hempty.1 child hchild d] at hs
      cases hs
  | .boost child multiplier, h => by
    obtain ⟨hchild, hpositive⟩ := h
    obtain ⟨plan, hok, hcovering, hsilent⟩ := compile_compiled hspelled hchild
    refine ⟨.boost plan multiplier, ?_, covering_boost hcovering multiplier, fun hempty d => ?_⟩
    · rw [compile, hok]
      dsimp only [bind, Except.bind]
      rw [boostPlan, if_neg (not_le.mpr hpositive)]
    · rw [ScoringPlanNode.evaluate, hsilent hempty d]
      rfl

theorem compileChildren_compiled
    (hspelled : ∀ field index, .text field index ∈ snapshot.indexes → index.Spelled) :
    ∀ {nodes : List (NormalizedScoringNode S Score)}, AllPrepared ops snapshot nodes →
      ∃ plans, compileChildren ops config nodes = .ok plans ∧ plans.length = nodes.length ∧
        (∀ plan ∈ plans, Covering plan) ∧
        (anyNonEmptyScoringLeaf nodes = false → ∀ plan ∈ plans, ∀ d, plan.evaluate d = none)
  | [], _ => ⟨[], by rw [compileChildren], rfl, nofun, fun _ => nofun⟩
  | node :: rest, h => by
    obtain ⟨plan, hok, hcovering, hsilent⟩ := compile_compiled hspelled h.1
    obtain ⟨plans, hrest, hlen, hcoverings, hsilents⟩ := compileChildren_compiled hspelled h.2
    refine ⟨plan :: plans, ?_, by rw [List.length_cons, List.length_cons, hlen],
      List.forall_mem_cons.mpr ⟨hcovering, hcoverings⟩, fun hempty => ?_⟩
    · rw [compileChildren, hok]
      dsimp only [bind, Except.bind]
      rw [hrest]
      rfl
    · rw [anyNonEmptyScoringLeaf, Bool.or_eq_false_iff] at hempty
      exact List.forall_mem_cons.mpr ⟨hsilent hempty.1, hsilents hempty.2⟩

end

end GeneralSearch.Ranked
