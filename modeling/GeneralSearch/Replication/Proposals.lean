import GeneralSearch.Replication.Handlers

/-! The life of an operation: its entry is put to the vote, proven by the two voters of the quorum,
published and completed, or given up at any of these points. -/

namespace GeneralSearch.Replication

open Lib

variable {D : Type} [DecidableEq D] {m : Manifest D} {sha : Sha m} {W : World m} {n : Node}

section

variable {v : Authority m} {op : Operation m}

omit [DecidableEq D] in
theorem Authority.pending_none {request : ℕ} (h : v.operation = none) : v.pending request = 0 := by
  unfold Authority.pending
  simp [h]

omit [DecidableEq D] in
theorem Authority.pending_some (h : v.operation = some op) (hclient : op.campaign = false)
    (request : ℕ) : v.pending request = if op.request = request then 1 else 0 := by
  unfold Authority.pending
  simp [h, hclient]

/-- What the operation is replaced by is the same operation further on. -/
theorem Inv.withOperation (h : Inv sha W n v) {op' : Operation m} (hop : v.operation = some op)
    (hproof : op.proof = none) (hsecure : Secure sha W n { v with operation := some op' })
    (hrests : ∃ c ∈ v.campaign, ∃ d ∈ v.selection, op'.Rests sha v.store c d) :
    Inv sha W n { v with operation := some op' } :=
  (h.dropOperation (h.unpublished hop hproof)).operate rfl hsecure (h.operating op hop).1 hrests

/-- The publication is over, whatever came of it. -/
theorem Inv.unpublish (h : Inv sha W n v) : Inv sha W n { v with publication := none } :=
  { h with
    publication := by simp
    publishing := by simp }

/-- The entry is put to the vote: the operation is there before its acceptance is forced. -/
theorem Inv.propose (h : Inv sha W n v) (hnone : v.operation = none) (hissued : op.issued = true)
    (hunvoted : op.ownReceipt = none) (hunproven : op.proof = none)
    (hstate : v.state = .recovering ∨ v.state = .leaderReady) {c : Ballot}
    (hc : v.campaign = some c)
    (habove : ∀ d ∈ v.selection, d.record.prefixIndex < op.entry.index)
    (hclient : op.campaign = false → op.entry.index = v.store.provenThrough + 1 ∧
      .submitted op.request op.entry.operation op.entry.payload ∈ v.trace ∧
      0 < op.request ∧ Open v.trace op.request (v.pending op.request))
    (hrecovery : op.campaign = true → op.request = 0) :
    Inv sha W n { v with
      operation := some op
      trace := v.trace ++ [.proposed op.request op.entry] } := by
  obtain ⟨d, hd, -⟩ := h.recovering hstate
  have htally : ∀ request, Tally (v.trace ++ [.proposed op.request op.entry]) request
      (Authority.pending { v with operation := some op } request) := by
    intro request
    have hold := h.tally request
    rw [Authority.pending_none hnone] at hold
    have houtcomes := hold.outcomes
    cases hcampaign : op.campaign with
    | true =>
      have hpending : Authority.pending { v with operation := some op } request = 0 := by
        simp [Authority.pending, hcampaign]
      rw [hpending]
      refine ⟨?_, fun hpos => ?_⟩
      · simpa [List.countP_append, List.countP_singleton, Mark.isCompletion, Mark.isSubmission]
          using houtcomes
      · -- recovery has the request 0
        have hne : ¬op.request = request := by
          rw [hrecovery hcampaign]
          omega
        simpa [List.countP_append, List.countP_singleton, Mark.isProposal, Mark.isRefusal,
          Mark.isSubmission, hne] using hold.entries hpos
    | false =>
      obtain ⟨-, -, -, hopen⟩ := hclient hcampaign
      rw [Authority.pending_none hnone] at hopen
      rw [Authority.pending_some rfl hcampaign]
      by_cases hr : op.request = request
      · subst hr
        refine ⟨?_, fun hpos => ?_⟩
        · have := hopen.outcomes
          simpa [List.countP_append, List.countP_singleton, Mark.isCompletion, Mark.isSubmission]
            using this
        · have := hopen.entries hpos
          simp only [List.countP_append, List.countP_singleton, Mark.isProposal, Mark.isRefusal,
            Mark.isSubmission, decide_true, if_true, Bool.false_eq_true, if_false]
          omega
      · refine ⟨?_, fun hpos => ?_⟩
        · simpa [List.countP_append, List.countP_singleton, Mark.isCompletion, Mark.isSubmission,
            hr] using houtcomes
        · simpa [List.countP_append, List.countP_singleton, Mark.isProposal, Mark.isRefusal,
            Mark.isSubmission, hr] using hold.entries hpos
  have hmarked : Inv sha W n { v with trace := v.trace ++ [.proposed op.request op.entry] } := by
    refine h.withMark (fun request => ?_) (by simp)
    rw [Authority.pending_none hnone]
    have hnew := htally request
    exact ⟨(Nat.le_add_right _ _).trans hnew.outcomes, hnew.entries⟩
  refine hmarked.operate hnone ?_ hstate ⟨c, hc, d, hd, habove d hd, fun hcase => ?_, ?_, ?_⟩
  · refine { hmarked.toSecure with
      tally := htally
      operation := ?_ }
    rintro op' ⟨⟩
    refine ⟨hissued, fun hcase => ⟨List.mem_append_left _ (hclient hcase).2.1, ?_⟩⟩
    exact List.mem_append_right _ (List.mem_singleton_self _)
  · rw [hunproven]
    exact (hclient hcase).1
  · simp [hunvoted, hunproven]
  · simp [hunproven]

/-- The successful outcome of a client's operation. -/
theorem Inv.succeeded (h : Inv sha W n v) (hop : v.operation = some op)
    (hclient : op.campaign = false) (hproof : op.proof.isSome) {c : Ballot}
    (hc : v.campaign = some c) (hpublication : v.publication = none) {p : Publish m}
    (hp : .published p ∈ v.trace) (hindex : p.snapshot.index = v.store.provenThrough)
    (hanchor : p.snapshot.anchors[op.entry.index - 1]? = some (Memory.anchor sha op.entry)) :
    Inv sha W n { v with
      operation := none
      actions := v.actions ++ [.completed op.request p.snapshot.index none .notApplicable]
      trace := v.trace ++ [.completed op.request p.snapshot.index none .notApplicable
        (some (c, op.entry))] } := by
  obtain ⟨-, c', hc', d, -, hrests⟩ := h.operating op hop
  cases hc.symm.trans hc'
  obtain ⟨hsubmitted, hproposed⟩ := (h.operation op hop).2 hclient
  obtain ⟨proof, hproof'⟩ := Option.isSome_iff_exists.mp hproof
  obtain ⟨hballot, hpindex, hdigest, hproved, -⟩ := hrests.proof proof hproof'
  have hentry : op.entry.index = p.snapshot.index := by
    rw [hindex, hrests.next hclient, hproof]
    rfl
  have hdone : Done sha v.store.node v.store.disk v.trace op.request p.snapshot.index c op.entry :=
    { indexed := hentry
      owner := (h.campaign c hc).2
      submitted := hsubmitted
      proposed := hproposed
      published := ⟨p, hp, rfl, hentry ▸ hanchor⟩
      voted := hrests.voted (.inr hproof)
      proved := ⟨proof, hproved, hballot, hpindex.trans hentry, hdigest⟩ }
  have hdropped := h.dropOperation hpublication
  have hemitted := hdropped.posts
    (hdropped.emit (a := .completed op.request p.snapshot.index none .notApplicable) trivial)
  refine { hemitted with
    tally := ?_
    done := ?_
    votes := ?_
    operation := by simp
    completed := ?_ }
  · intro request
    have hold := h.tally request
    rw [Authority.pending_some hop hclient] at hold
    rw [Authority.pending_none rfl]
    refine ⟨?_, fun hpos => ?_⟩
    · have := hold.outcomes
      simpa [List.countP_append, List.countP_singleton, Mark.isCompletion, Mark.isSubmission]
        using this
    · simpa [List.countP_append, List.countP_singleton, Mark.isProposal, Mark.isRefusal,
        Mark.isSubmission] using hold.entries hpos
  · intro request index outcome done hmem
    have hsub : v.trace ⊆ v.trace ++ [.completed op.request p.snapshot.index none .notApplicable
        (some (c, op.entry))] := fun _ hx => List.mem_append_left _ hx
    rcases List.mem_append.mp hmem with hmem | hmem
    · obtain ⟨ballot, entry, heq, hd⟩ := h.done request index outcome done hmem
      exact ⟨ballot, entry, heq, hd.mono (.refl _) hsub⟩
    · cases List.mem_singleton.mp hmem
      exact ⟨c, op.entry, rfl, hdone.mono (.refl _) hsub⟩
  · intro row hrow howner
    obtain ⟨request, hmark⟩ := h.votes row hrow howner
    exact ⟨request, List.mem_append_left _ hmark⟩
  · intro request index outcome ballot entry hmem hcampaign
    rcases List.mem_append.mp hmem with hmem | hmem
    · exact h.completed request index outcome ballot entry hmem hcampaign
    · cases List.mem_singleton.mp hmem
      exact hindex.le

/-- A vote of the voter for its own campaign's row rests on the selection of the campaign. -/
theorem Inv.justified (h : Inv sha W n v) {c : Ballot} (hc : v.campaign = some c)
    (hstate : v.state = .recovering ∨ v.state = .leaderReady) {row : Accept D}
    (hballot : row.ballot = c)
    (habove : ∀ d ∈ v.selection, d.record.prefixIndex < row.entry.index)
    (hrow : Store.Acceptable sha v.store row) : Justified sha (W.put v.store) row := by
  obtain ⟨d, hd, -⟩ := h.recovering hstate
  obtain ⟨hselected, c', hc', a, b, hselects, ha, hb⟩ := h.selection d hd
  cases hc.symm.trans hc'
  refine ⟨a, b, d, hballot ▸ hselects, ha, hb, habove d hd, fun hnext x hx => ?_⟩
  have hrecord : d.record.ballot = row.ballot := by
    rw [hselects.decides, hballot]
    rfl
  have hvalue := hrow.selection d hselected hrecord hnext
  unfold Memory.selectedValue at hvalue
  rw [hselected] at hvalue
  simp only [Option.mem_def.mp hx, Bool.and_eq_true, decide_eq_true_eq] at hvalue
  exact hvalue.2

/-- An acceptance is forced, of the voter's own campaign only after its entry is marked. -/
theorem Inv.accepting (h : Inv sha W n v) {row : Accept D} {s : Store m}
    (hs : Store.Accepting sha W v.store row s)
    (hmark : row.ballot.proposer = some v.store.node →
      ∃ request, .proposed request row.entry ∈ v.trace) : Inv sha W n { v with store := s } := by
  refine h.withStore hs.holds hs.node hs.grows (fun r hr howner => ?_) hs.through.ge
    (fun d hd => ?_) fun _ => hs.through
  · rw [hs.node] at howner
    rcases hs.voted r hr with hold | rfl
    · exact h.votes r hold howner
    · exact hmark howner
  · rw [hs.selected]
    exact (h.selection d hd).1

/-- The voter's own acceptance of its operation is forced. -/
theorem Inv.receipted (h : Inv sha W n v) (hop : v.operation = some op) (hproof : op.proof = none)
    {row : Accept D} (hc : v.campaign = some row.ballot) (hentry : row.entry = op.entry)
    (hmark : ∃ request, .proposed request row.entry ∈ v.trace) {s : Store m}
    (hs : Store.Accepting sha W v.store row s) {receipt : D} :
    Inv sha W n { v with
      store := s
      operation := some { op with ownReceipt := some receipt } } := by
  have hstore := h.accepting hs fun _ => hmark
  refine hstore.withOperation hop hproof (hstore.toSecure.withOperation hop rfl rfl rfl rfl) ?_
  obtain ⟨-, c, hc', d, hd, hrests⟩ := hstore.operating op hop
  cases hc.symm.trans hc'
  exact ⟨row.ballot, hc, d, hd, hrests.above, hrests.next,
    fun _ => ⟨row, hs.row, rfl, hentry⟩, hrests.proof⟩

/-- The proof of the operation is forced, and with it the slot after the proven prefix. -/
theorem Inv.proven (h : Inv sha W n v) (hop : v.operation = some op) (hproof : op.proof = none)
    {row : Proof m} (hc : v.campaign = some row.ballot) (hindex : row.index = op.entry.index)
    (hdigest : row.entryDigest = sha.entry op.entry) (hreceipt : op.ownReceipt.isSome) {s : Store m}
    (hs : Store.Moves sha W v.store s) (hrow : row ∈ s.disk.proved)
    (hle : row.index ≤ s.provenThrough)
    (hnext : s.provenThrough = v.store.provenThrough ∧ row.index ≤ v.store.provenThrough ∨
      s.provenThrough = v.store.provenThrough + 1 ∧ row.index = s.provenThrough) :
    Inv sha W n { v with store := s, operation := some { op with proof := some row } } := by
  obtain ⟨hstate, c, hc', d, hd, hrests⟩ := h.operating op hop
  cases hc.symm.trans hc'
  have hdropped := (h.dropOperation (h.unpublished hop hproof)).moves hs (by simp)
  have hsecured : Secure sha W n { v with operation := some { op with proof := some row } } :=
    h.toSecure.withOperation hop rfl rfl rfl rfl
  have hsecure := hsecured.moves hs
  refine hdropped.operate rfl hsecure hstate ⟨row.ballot, hc, d, hd, hrests.above, ?_, ?_, ?_⟩
  · intro hclient
    have hold := hrests.next hclient
    rw [hproof] at hold
    change op.entry.index = v.store.provenThrough + 1 at hold
    show op.entry.index = s.provenThrough + 0
    omega
  · intro _
    obtain ⟨r, hr, hrest⟩ := hrests.voted (.inl hreceipt)
    exact ⟨r, hs.grows.voted hr, hrest⟩
  · rintro p ⟨⟩
    exact ⟨rfl, hindex, hdigest, hrow, hindex ▸ hle⟩

end

namespace Protocol

variable {bounds : Bounds m} {v : Voter m} {α : Type}

/-! ### Putting an entry to the vote -/

omit [DecidableEq D] in
/-- A new entry is of the next slot; where there is none, the store is at most quarantined. -/
theorem wp_fresh {operation : ℕ} {payload : Bytes} : Wp (fresh sha operation payload) v
    (fun entry v' => v' = v ∧ entry.index = v.store.provenThrough + 1 ∧
      entry.operation = operation ∧ entry.payload = payload)
    (fun _ v' => ∃ s, v' = { v with store := s } ∧ Store.Same v.store s) := by
  have hsame : ∃ s, v = { v with store := s } ∧ Store.Same v.store s :=
    ⟨v.store, rfl, .refl _⟩
  unfold fresh Store.head
  simp only [wp_bind, wp_onStore, Store.wp_usable, wp_get]
  refine ⟨fun _ => ?_, fun _ => hsame⟩
  split
  · simp only [wp_pure]
    split
    · exact hsame
    · split
      · exact ⟨rfl, rfl, rfl, rfl⟩
      · exact hsame
  · simp only [wp_bind, wp_modify, wp_throw]
    exact ⟨_, rfl, (Store.Same.refl _).quarantined⟩

/-- What `commit` is called with: an entry above the selected prefix, and for a client the next
entry of a request that has no outcome yet. -/
structure Proposable (v : Authority m) (entry : Entry D) (request : ℕ) (recovery : Bool) : Prop where
  state : v.state = .recovering ∨ v.state = .leaderReady
  above : ∀ d ∈ v.selection, d.record.prefixIndex < entry.index
  client : recovery = false → entry.index = v.store.provenThrough + 1 ∧
    .submitted request entry.operation entry.payload ∈ v.trace ∧
    0 < request ∧ Open v.trace request (v.pending request)
  recovery : recovery = true → request = 0

/-- Nothing has been put to the vote when there is no operation. -/
def Unproposed (v v' : Authority m) : Prop := v'.operation = none → v'.trace = v.trace

theorem wp_commit {entry : Entry D} {request : ℕ} {recovery : Bool}
    (h : Inv sha W n v.toAuthority) (hp : Proposable v.toAuthority entry request recovery) :
    Wp (commit sha bounds entry request recovery) v
      (fun _ v' => Inv sha W n v'.toAuthority)
      fun _ v' => Inv sha W n v'.toAuthority ∧ Unproposed v.toAuthority v'.toAuthority := by
  have hsame : Inv sha W n v.toAuthority ∧ Unproposed v.toAuthority v.toAuthority :=
    ⟨h, fun _ => rfl⟩
  unfold commit
  simp only [wp_bind, wp_get]
  split
  · exact hsame
  rename_i c hc
  simp only [wp_bind, wp_need, wp_onStore, Store.wp_promiseOf]
  refine ⟨fun hfence => ⟨fun hlive => ⟨fun hcurrent => ?_, fun _ => hsame⟩, fun _ => hsame⟩,
    fun _ => hsame⟩
  have hnone : v.operation = none := by simpa using hcurrent.2
  split
  · rename_i hepoch
    simp only [wp_bind, wp_capacity]
    refine ⟨fun _ => ?_, fun _ => hsame⟩
    refine (quiet_after v).mono (fun deadline v1 h1 => ?_) fun _ v1 h1 => by rw [h1]; exact hsame
    simp only [wp_modify, mark]
    -- the operation is there before its acceptance is forced
    have hproposed : Inv sha W n { v1.toAuthority with
        operation := some ⟨entry, request, deadline, recovery, none, none, true⟩
        trace := v1.trace ++ [.proposed request entry] } := by
      rw [h1]
      exact h.propose hnone rfl rfl rfl hp.state hc hp.above hp.client hp.recovery
    have hc1 : v1.campaign = some c := (congrArg Authority.campaign h1).trans hc
    have hmark : ∃ r, .proposed r entry ∈ v1.trace ++ [.proposed request entry] :=
      ⟨request, List.mem_append_right _ (List.mem_singleton_self _)⟩
    have hstate : v1.state = .recovering ∨ v1.state = .leaderReady := by
      rw [congrArg Authority.state h1]
      exact hp.state
    have habove : ∀ d ∈ v1.selection, d.record.prefixIndex < entry.index := by
      rw [congrArg Authority.selection h1]
      exact hp.above
    have howner : c.proposer = some v1.store.node := (hproposed.campaign c hc1).2
    have hown : Proposed (W.put (v1.store.accepting ⟨c, entry, hepoch⟩)) ⟨c, entry, hepoch⟩ := by
      refine ⟨v1.store.node, howner, ?_⟩
      show _ ∈ (Function.update W v1.store.node _ v1.store.node).voted
      rw [Function.update_self]
      exact List.mem_append_right _ (List.mem_singleton_self _)
    rw [wp_onStore]
    refine (Store.accepting_acceptRow hproposed.store
      (fun hrow => hproposed.justified hc1 hstate rfl habove hrow) hown).mono
      (fun receipt s hs => ?_) fun _ s hs => ⟨hproposed.sameStore hs, fun hfalse => by cases hfalse⟩
    have hvoted : Inv sha W n { v1.toAuthority with
        store := s
        operation := some ⟨entry, request, deadline, recovery, some receipt, none, true⟩
        trace := v1.trace ++ [.proposed request entry] } :=
      hproposed.receipted rfl rfl hc1 rfl hmark hs.1
    refine (quiet_progress _).mono (fun _ v2 h2 => ?_)
      fun _ v2 h2 => by rw [h2]; exact ⟨hvoted, fun hfalse => by cases hfalse⟩
    have hv2 : Inv sha W n v2.toAuthority := h2 ▸ hvoted
    have hop2 : v2.operation.isSome := by
      rw [congrArg Authority.operation h2]
      rfl
    split
    · refine ⟨hv2, fun hfalse => ?_⟩
      rw [hfalse] at hop2
      cases hop2
    · have hsent : Request.Holds sha (W.put v2.store) (.accept ⟨c, entry, hepoch⟩) := by
        show Proposed (W.put v2.store) ⟨c, entry, hepoch⟩
        rw [congrArg Authority.store h2]
        refine ⟨s.node, ?_, ?_⟩
        · rw [hs.1.node]
          exact howner
        · rw [hs.1.holds.own]
          exact hs.1.row
      refine (wp_send hv2.toSecure hsent).mono (fun _ v3 h3 => hv2.posts h3)
        fun _ v3 h3 => ⟨hv2.posts h3, fun hfalse => ?_⟩
      obtain ⟨actions, exchanges, heq⟩ := h3.rest
      rw [heq] at hfalse
      change v2.operation = none at hfalse
      rw [hfalse] at hop2
      cases hop2
  · exact hsame

theorem keeps_commit {entry : Entry D} {request : ℕ} {recovery : Bool}
    (h : Inv sha W n v.toAuthority) (hp : Proposable v.toAuthority entry request recovery) :
    Keeps sha W n (commit sha bounds entry request recovery) v :=
  (wp_commit h hp).mono (fun _ _ h1 => h1) fun _ _ h1 => h1.1

/-- A new no-op of the campaign. -/
theorem keeps_recommit (h : Inv sha W n v.toAuthority)
    (hstate : v.state = .recovering ∨ v.state = .leaderReady) :
    Keeps sha W n (do commit sha bounds (← fresh sha 9 []) 0 true) v := by
  refine wp_bind.mpr (wp_fresh.mono ?_ ?_)
  · rintro entry v1 ⟨rfl, hindex, -, -⟩
    refine keeps_commit h ⟨hstate, fun d hd => ?_, by simp, fun _ => rfl⟩
    obtain ⟨d', hd', hle⟩ := h.recovering hstate
    cases hd.symm.trans hd'
    omega
  · rintro _ v1 ⟨s, rfl, hs⟩
    exact h.sameStore hs

theorem keeps_refuse {request : ℕ} {reason : Reason} (h : Inv sha W n v.toAuthority)
    (hopen : Open v.trace request (v.pending request)) :
    Keeps sha W n (complete request 0 (some reason) .notSubmitted none) v := by
  unfold complete emit guarded mark
  simp only [wp_bind, wp_get, wp_capacity, wp_modify]
  exact ⟨fun _ => h.refused hopen, fun _ => h⟩

/-- Every call of `submit` is answered at once, or has an operation that will be. -/
theorem keeps_submit {request operation : ℕ} {payload : Bytes} {time : ℕ}
    (h : Inv sha W n v.toAuthority) :
    Keeps sha W n (submit sha bounds request operation payload time) v := by
  unfold submit mark
  simp only [wp_bind, wp_modify]
  have hsubmitted : Inv sha W n { v.toAuthority with
      trace := v.trace ++ [.submitted request operation payload] } := h.submitted
  have hopen : Open (v.trace ++ [.submitted request operation payload]) request
      (v.pending request) := (h.tally request).submitted
  refine (quiet_clock _).mono (fun _ v1 h1 => ?_) fun _ v1 h1 => by rw [h1]; exact hsubmitted
  have hv1 : Inv sha W n v1.toAuthority := h1 ▸ hsubmitted
  have hopen1 : Open v1.trace request (v1.pending request) := by
    rw [h1]
    exact hopen
  have hmark : .submitted request operation payload ∈ v1.trace := by
    rw [congrArg Authority.trace h1]
    exact List.mem_append_right _ (List.mem_singleton_self _)
  simp only [wp_room, wp_need, wp_get, wp_ite]
  refine ⟨fun _ => ⟨fun hpos => ⟨fun _ => keeps_refuse hv1 hopen1, fun hready => ?_⟩, fun _ => hv1⟩,
    fun _ => hv1⟩
  have hleading : v1.state = .leaderReady := by
    by_contra hne
    exact hready (.inl hne)
  have hnone : v1.operation = none := by
    cases hop : v1.operation with
    | none => rfl
    | some op => simp [hop] at hready
  refine Wp.tryCatch (I := fun _ v' => Inv sha W n v'.toAuthority ∧
    Unproposed v1.toAuthority v'.toAuthority) ?_ fun e v2 h2 => ?_
  · refine wp_bind.mpr (wp_fresh.mono ?_ ?_)
    · rintro entry v2 ⟨rfl, hindex, rfl, rfl⟩
      refine wp_commit hv1 ⟨.inr hleading, fun d hd => ?_, fun _ => ⟨hindex, hmark, hpos.1, hopen1⟩,
        by simp⟩
      obtain ⟨d', hd', hle⟩ := hv1.recovering (.inr hleading)
      cases hd.symm.trans hd'
      omega
    · rintro _ v2 ⟨s, rfl, hs⟩
      exact ⟨hv1.sameStore hs, fun _ => rfl⟩
  · simp only [wp_bind, wp_get, wp_ite]
    refine ⟨fun hno => keeps_refuse h2.1 ?_, fun _ => keeps_fail h2.1⟩
    have hnone2 : v2.operation = none := by simpa using hno
    have hpending : v2.pending request = 0 := Authority.pending_none hnone2
    rw [Authority.pending_none hnone, ← hpending] at hopen1
    rw [h2.2 hnone2]
    exact hopen1

/-! ### Proofs and publications -/

omit [DecidableEq D] in
/-- Both voters of the quorum, in the order of their names. -/
theorem mem_namesOrdered {v w u : Node} : u ∈ namesOrdered m v w ↔ u = v ∨ u = w := by
  unfold namesOrdered
  split <;> simp [or_comm]

/-- Where the voter gives up next: there is room for the outcome of its operation. -/
def Failing (sha : Sha m) (W : World m) (n : Node) (v : Authority m) : Prop :=
  Secure sha W n v ∧ (Inv sha W n v ∨ v.actions.length < maxActions)

theorem Failing.of_inv {v : Authority m} (h : Inv sha W n v) : Failing sha W n v :=
  ⟨h.toSecure, .inl h⟩

/-- The receipts of both voters of the quorum make the proof. -/
theorem wp_accepted {sender : Node} {receipt : D} (h : Inv sha W n v.toAuthority)
    (hroom : v.actions.length < maxActions)
    (hreceipt : Receipted sha (W.put v.store) receipt) :
    Wp (accepted sha bounds sender receipt) v (fun _ v' => Inv sha W n v'.toAuthority)
      fun _ v' => Failing sha W n v'.toAuthority := by
  unfold accepted
  simp only [wp_bind, wp_get]
  split
  · rename_i op c hop hc
    simp only [wp_bind, wp_need]
    refine ⟨fun hphase => ⟨fun hexact => ?_, fun _ => .of_inv h⟩, fun _ => .of_inv h⟩
    have hproof : op.proof = none := by simpa using hphase.1
    split
    · rename_i hsound
      obtain ⟨-, c', hc', d, -, hrests⟩ := h.operating op hop
      cases hc.symm.trans hc'
      simp only [wp_bind, wp_modify, wp_onStore]
      have hown : op.ownReceipt.isSome := by
        rw [hsound.2.2.2]
        rfl
      refine Wp.mono (Store.moves_proveRow h.store fun u hu => ?_) (fun _ s hs => ?_) fun _ s hs => ?_
      · -- one vote is the voter's own, the other is what the receipt says
        rcases mem_namesOrdered.mp hu with rfl | rfl
        · obtain ⟨r, hr, hballot, hentry⟩ := hrests.voted (.inl hown)
          rw [h.store.own]
          exact ⟨r, hr, hballot, by rw [hentry], by rw [hentry]⟩
        · exact hreceipt _ _ _ _ hexact
      · obtain ⟨hmoves, hrow, hle, hnext⟩ := hs
        have hproven := h.proven hop hproof hc rfl rfl hown hmoves hrow hle hnext
        refine (quiet_proven _).mono (fun _ v2 h2 => ?_)
          fun _ v2 h2 => by rw [h2]; exact .of_inv hproven
        refine (quiet_progress v2).mono (fun _ v3 h3 => ?_)
          fun _ v3 h3 => by rw [h3, h2]; exact .of_inv hproven
        have h3' := h3.trans h2
        refine Wp.mono (keeps_send (h3' ▸ hproven) ?_) (fun _ _ h4 => h4) fun _ _ h4 => .of_inv h4
        rw [congrArg Authority.store h3']
        exact hmoves.holds.supported.proofs _ hrow
      · exact ⟨(h.toSecure.moves (h.store.moves hs)).withOperation hop rfl rfl rfl rfl, .inr hroom⟩
    · exact .of_inv h
  · exact .of_inv h

theorem keeps_proved {sender : Node} {receipt : D} (h : Inv sha W n v.toAuthority) :
    Keeps sha W n (proved sha bounds sender receipt) v := by
  unfold proved
  simp only [wp_bind, wp_get]
  split
  · split
    · exact h
    · rename_i hproof
      simp only [wp_bind, wp_need]
      refine ⟨fun _ => ⟨fun _ => keeps_withImage h ?_, fun _ => h⟩, fun _ => h⟩
      show Option.isSome _
      rw [hproof]
      rfl
  · exact h

/-- The leader is ready once an entry above the selected prefix is proven and published. -/
theorem keeps_activated {op : Operation m} {ballot : Ballot} (h : Inv sha W n v.toAuthority)
    (hstate : v.state = .recovering ∨ v.state = .leaderReady)
    (habove : ∃ d ∈ v.selection, d.record.prefixIndex < v.store.provenThrough) :
    Keeps sha W n (activated sha bounds op ballot) v := by
  unfold activated
  rw [Keeps, wp_ite]
  refine ⟨fun _ => keeps_recommit h hstate, fun _ => ?_⟩
  simp only [wp_bind, wp_modify]
  refine quiet_progress.keeps ?_
  obtain ⟨d, hd, hlt⟩ := habove
  exact { h with
    recovering := fun _ => ⟨d, hd, hlt.le⟩
    leading := fun _ => ⟨d, hd, hlt⟩
    operating := fun op hop => ⟨.inr rfl, (h.operating op hop).2⟩
    continuation := fun k hk => by
      have hready := h.continuation k hk
      cases k with
      | start =>
        have hstarting : v.state = .starting := hready
        rw [hstarting] at hstate
        simp at hstate
      | publish op b => exact hready
      | campaign b => trivial
      | prepare message => trivial
      | publishLocal b => trivial
    starting := by simp
    candidate := by simp }

/-- What is published is the proven prefix of the leader, which has the entry of its operation. -/
theorem keeps_publishedLeader {completed : Publish m} (h : Inv sha W n v.toAuthority)
    (hpublication : v.publication = none) (hmark : .published completed ∈ v.trace)
    (hcompleted : ∀ c ∈ v.campaign, ∃ op ∈ v.operation, op.proof.isSome ∧
      completed.snapshot.index = v.store.provenThrough ∧
      completed.snapshot.anchors[op.entry.index - 1]? = some (Memory.anchor sha op.entry)) :
    Keeps sha W n (publishedLeader sha bounds completed) v := by
  unfold publishedLeader
  simp only [wp_bind, wp_get]
  split
  · exact h
  rename_i op hop
  simp only [wp_ite, wp_pure, wp_bind, wp_onStore, Store.wp_promiseOf]
  refine ⟨fun _ => h, fun hcurrent => ⟨fun _ => ⟨fun _ => h, fun _ => ⟨fun _ => keeps_abandon h,
    fun _ => ?_⟩⟩, fun _ => h⟩⟩
  have hc : v.campaign = some completed.ballot := by
    by_contra hne
    exact hcurrent (.inl hne)
  obtain ⟨op', hop', hproof, hindex, hanchor⟩ := hcompleted _ hc
  cases hop.symm.trans hop'
  simp only [wp_modify]
  refine ⟨fun hcampaign => ?_, fun hclient => ?_⟩
  · obtain ⟨hstate, c, -, d, hd, hrests⟩ := h.operating op hop
    refine keeps_activated (h.dropOperation hpublication) hstate ⟨d, hd, ?_⟩
    obtain ⟨proof, hproof'⟩ := Option.isSome_iff_exists.mp hproof
    exact hrests.above.trans_le (hrests.proof proof hproof').2.2.2.2
  · simp only [complete, emit, guarded, mark, wp_bind, wp_get, wp_capacity, wp_modify]
    exact ⟨fun _ => h.succeeded hop (by simpa using hclient) hproof hc hpublication hmark hindex
      hanchor, fun _ => h.dropOperation hpublication⟩

theorem keeps_published {id : ℕ} {error : Bool} {time : ℕ} (h : Inv sha W n v.toAuthority) :
    Keeps sha W n (published sha bounds id error time) v := by
  unfold published
  refine quiet_clock.bind h fun _ v1 h1 => ?_
  have hv1 : Inv sha W n v1.toAuthority := h1 ▸ h
  simp only [wp_bind, wp_room, wp_get]
  refine ⟨fun _ => ?_, fun _ => hv1⟩
  split
  · exact hv1
  rename_i completed hpublished
  simp only [wp_bind, wp_need, wp_modify, wp_get, wp_ite, wp_pure]
  have hover := hv1.unpublish
  refine ⟨fun _ => ⟨fun _ => hover, fun _ => ⟨fun _ => keeps_fail hover, fun _ => ?_⟩⟩, fun _ => hv1⟩
  simp only [mark, wp_modify]
  have hmarked := hover.publishedMark (p := completed)
  refine ⟨fun _ => ⟨fun _ => ?_, fun _ => hmarked⟩, fun _ => ?_⟩
  · refine (quiet_proven _).mono (fun through v2 h2 => ?_)
      fun _ v2 h2 => by rw [h2]; exact hmarked
    have hv2 : Inv sha W n v2.toAuthority := h2 ▸ hmarked
    exact ⟨fun _ => hv2, fun _ => hv2⟩
  · refine keeps_publishedLeader hmarked rfl ?_ fun c hc => ?_
    · exact List.mem_append_right _ (List.mem_singleton_self _)
    · obtain ⟨-, -, op, hop, hproof, hindex, hanchor⟩ := hv1.publishing c hc completed hpublished
      exact ⟨op, hop, hproof, hindex, hanchor⟩

/-! ### Giving an operation up -/

theorem keeps_cancel {request time : ℕ} (h : Inv sha W n v.toAuthority) :
    Keeps sha W n (cancel bounds request time) v := by
  unfold cancel
  refine quiet_clock.bind h fun _ v1 h1 => ?_
  have hv1 : Inv sha W n v1.toAuthority := h1 ▸ h
  simp only [wp_bind, wp_room, wp_get, wp_ite, wp_pure]
  exact ⟨fun _ => ⟨fun _ => keeps_abandon hv1, fun _ => hv1⟩, fun _ => hv1⟩

theorem keeps_quiesce (h : Inv sha W n v.toAuthority) : Keeps sha W n (quiesce bounds) v := by
  unfold quiesce
  simp only [wp_bind, wp_room, wp_get, wp_ite, wp_pure]
  refine ⟨fun _ => ⟨fun _ => h, fun _ => ?_⟩, fun _ => h⟩
  refine Wp.mono (Q := fun _ v1 => Inv sha W n v1.toAuthority)
    (E := fun _ v1 => Inv sha W n v1.toAuthority) ?_ (fun _ v1 h1 => ?_) fun _ _ h1 => h1
  · split
    · exact h
    · simp only [wp_bind, wp_modify]
      exact keeps_reply h trivial
  · refine (wp_abandon h1.toSecure (.inl h1)).mono (fun _ v2 h2 => ?_) fun _ _ h2 => h2
    rw [wp_modify]
    exact h2.inv.withState h2.idle (by simp) (by simp [h2.continuation])

end Protocol

end GeneralSearch.Replication
