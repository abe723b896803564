import GeneralSearch.Replication.Integrity

/-! Every handler of a voter keeps its invariant, whether it returns or throws. -/

namespace GeneralSearch.Replication

open Lib

variable {D : Type} {m : Manifest D} {sha : Sha m} {W : World m} {n : Node}

namespace Protocol

variable {bounds : Bounds m} {v : Voter m} {α β : Type}

/-! ### Clocks and hints -/

/-- The computation changes no authority. -/
def Quiet (x : Exec m α) : Prop := ∀ v, Wp x v (fun _ v' => v'.toAuthority = v.toAuthority)
  fun _ v' => v'.toAuthority = v.toAuthority

/-- What is known of authority stays known after a quiet computation. -/
theorem Quiet.bind {x : Exec m α} {f : α → Exec m β} {I : Authority m → Prop}
    {Q : β → Voter m → Prop} (hx : Quiet x) (hI : I v.toAuthority)
    (hf : ∀ a v', v'.toAuthority = v.toAuthority → Wp (f a) v' Q fun _ v' => I v'.toAuthority) :
    Wp (x >>= f) v Q fun _ v' => I v'.toAuthority :=
  Wp.bind ((hx v).mono (fun _ _ h => h) fun _ v' h => by rw [h]; exact hI) hf

theorem Quiet.keeps {x : Exec m α} {I : Authority m → Prop} (hx : Quiet x)
    (hI : I v.toAuthority) : Wp x v (fun _ v' => I v'.toAuthority) fun _ v' => I v'.toAuthority :=
  (hx v).mono (fun _ v' h => by rw [h]; exact hI) fun _ v' h => by rw [h]; exact hI

@[simp] theorem wp_onStore {x : Store.Exec m α} {Q : α → Voter m → Prop}
    {E : Failure → Voter m → Prop} : Wp (onStore x) v Q E ↔
      Wp x v.store (fun a s => Q a { v with store := s }) fun e s => E e { v with store := s } := by
  unfold Wp onStore
  cases x v.store <;> rfl

theorem quiet_lift {x : Except Failure α} : Quiet (lift x : Exec m α) := by
  intro v
  unfold Wp lift
  cases x <;> rfl

theorem quiet_nextId : Quiet (nextId : Exec m ℕ) := by
  intro v
  simp [nextId]

theorem quiet_progress : Quiet (progress : Exec m Unit) := by
  intro v
  simp [progress]

theorem quiet_after {millis : ℕ} : Quiet (after millis : Exec m ℕ) := by
  intro v
  simp [after]

theorem quiet_clock {value : ℕ} : Quiet (clock value : Exec m Unit) := by
  intro v
  simp [clock]

theorem quiet_armElection : Quiet (armElection bounds : Exec m Unit) := by
  intro v
  simp [armElection, after]

/-- There is room for what one handler emits. -/
theorem wp_room {Q : Unit → Voter m → Prop} {E : Failure → Voter m → Prop} :
    Wp (room : Exec m Unit) v Q E ↔ (v.actions.length ≤ maxActions - 8 → Q () v) ∧
      (¬v.actions.length ≤ maxActions - 8 →
        E ⟨.capacityExceeded, "protocol action backpressure"⟩ v) := by
  simp [room]

theorem quiet_proven : Quiet (proven : Exec m ℕ) := by
  intro v
  simp [proven, Store.status]

theorem quiet_promiseOf : Quiet (onStore Store.promiseOf : Exec m Ballot) := by
  intro v
  simp [Store.promiseOf]

variable [DecidableEq D]

/-- The invariant holds however the computation ends. -/
abbrev Keeps (sha : Sha m) (W : World m) (n : Node) (x : Exec m α) (v : Voter m) : Prop :=
  Wp x v (fun _ v' => Inv sha W n v'.toAuthority) fun _ v' => Inv sha W n v'.toAuthority

/-! ### Actions and exchanges -/

theorem keeps_emit {a : Action m} (h : Inv sha W n v.toAuthority)
    (ha : a.Holds sha (W.put v.store)) :
    Keeps sha W n (emit a) v := by
  simp only [emit, guarded, wp_bind, wp_get, wp_capacity, wp_modify]
  exact ⟨fun _ => h.posts (h.emit ha), fun _ => h⟩

theorem wp_send {peer : Node} {request : Request m} (h : Secure sha W n v.toAuthority)
    (hr : request.Holds sha (W.put v.store)) : Wp (send bounds peer request) v
      (fun _ v' => Posts sha W v.toAuthority v'.toAuthority)
      fun _ v' => Posts sha W v.toAuthority v'.toAuthority := by
  have hrefl : Posts sha W v.toAuthority v.toAuthority := ⟨⟨_, _, rfl⟩, h.actions, h.exchanges⟩
  unfold send guarded
  simp only [wp_bind, wp_get, wp_modify, wp_capacity]
  refine ⟨fun _ => ?_, fun _ => hrefl⟩
  refine (quiet_nextId _).mono (fun id v1 (h1 : v1.toAuthority = v.toAuthority) => ?_)
    fun _ v1 (h1 : v1.toAuthority = v.toAuthority) => by rw [h1]; exact hrefl
  split
  · simp only [wp_throw]
    rw [h1]
    exact hrefl
  · rename_i ballot _
    simp only [wp_bind]
    refine (quiet_after v1).mono (fun deadline v2 h2 => ?_)
      fun _ v2 h2 => by rw [h2, h1]; exact hrefl
    rw [h1] at h2
    have hposts : Posts sha W v.toAuthority { v.toAuthority with
        exchanges := v.exchanges ++
          [⟨⟨id, v.store.node, peer, ballot, request⟩, deadline, 1, maxLong, false⟩] } := by
      refine ⟨⟨v.actions, _, rfl⟩, h.actions, fun p hp => ?_⟩
      rcases List.mem_append.mp hp with hp | hp
      · exact h.exchanges p hp
      · rw [List.mem_singleton.mp hp]
        exact hr
    have hexchanges : v2.exchanges = v.exchanges := congrArg Authority.exchanges h2
    have hactions : v2.actions = v.actions := congrArg Authority.actions h2
    simp only [wp_modify, emit, guarded, wp_bind, wp_get, wp_capacity, hexchanges, hactions]
    refine ⟨fun _ => ?_, fun _ => ?_⟩
    · rw [h2]
      refine ⟨⟨_, _, rfl⟩, fun a ha => ?_, hposts.exchanges⟩
      rcases List.mem_append.mp ha with ha | ha
      · exact h.actions a ha
      · rw [List.mem_singleton.mp ha]
        exact hr
    · rw [h2]
      exact hposts

theorem keeps_send {peer : Node} {request : Request m} (h : Inv sha W n v.toAuthority)
    (hr : request.Holds sha (W.put v.store)) : Keeps sha W n (send bounds peer request) v :=
  (wp_send h.toSecure hr).mono (fun _ _ hp => h.posts hp) fun _ _ hp => h.posts hp

theorem keeps_reply {request : Call m} {response : Response m} (h : Inv sha W n v.toAuthority)
    (hr : response.Holds sha (W.put v.store)) : Keeps sha W n (reply request response) v := by
  unfold reply
  simp only [wp_bind, wp_get, wp_modify]
  exact keeps_emit h hr

/-! ### Giving up -/

end Protocol

/-- What is left of a campaign that is given up. -/
def Authority.cleared (v : Authority m) : Authority m :=
  { v with
    operation := none, campaign := none, ownBasis := none, selection := none
    imageContinuation := none, exchanges := []
    actions := v.actions.filter fun a => !a.isCall
    state := .unavailable }

section

variable [DecidableEq D] {v : Authority m}

omit [DecidableEq D] in
theorem idle_cleared : Idle v.cleared :=
  ⟨rfl, rfl, rfl, rfl, by simp [Authority.cleared]⟩

theorem Secure.cleared {a : Authority m} (h : Secure sha W n v) (hstore : a.store = v.store)
    (hpublication : a.publication = v.publication)
    (hactions : ∀ x ∈ a.actions, x.Holds sha (W.put v.store)) (htrace : v.trace ⊆ a.trace)
    (hdone : ∀ request index outcome done,
      Mark.completed request index none outcome done ∈ a.trace →
      Mark.completed request index none outcome done ∈ v.trace)
    (htally : ∀ request, Tally a.trace request 0) : Secure sha W n a.cleared := by
  refine ⟨?_, ?_, ?_, by simp [Authority.cleared], ?_, htally, ?_, ?_, by simp [Authority.cleared]⟩
  · show a.store.node = n
    rw [hstore]
    exact h.node
  · show a.store.Holds sha W
    rw [hstore]
    exact h.store
  · intro x hx
    show x.Holds sha (W.put a.store)
    rw [hstore]
    exact hactions x (List.mem_of_mem_filter hx)
  · show ∀ p ∈ a.publication, Backed sha (W.put a.store) p.snapshot
    rw [hstore, hpublication]
    exact h.publication
  · intro request index outcome done hmem
    obtain ⟨ballot, entry, heq, hrests⟩ :=
      h.done request index outcome done (hdone request index outcome done hmem)
    refine ⟨ballot, entry, heq, ?_⟩
    show Done sha a.store.node a.store.disk a.trace _ _ _ _
    rw [hstore]
    exact hrests.mono (.refl _) htrace
  · show ∀ row ∈ a.store.disk.voted, row.ballot.proposer = some a.store.node →
      ∃ request, .proposed request row.entry ∈ a.trace
    rw [hstore]
    intro row hrow howner
    obtain ⟨request, hmark⟩ := h.votes row hrow howner
    exact ⟨request, htrace hmark⟩

theorem Secure.clear (h : Secure sha W n v) : Secure sha W n v.cleared := by
  refine h.cleared rfl rfl h.actions (fun _ hx => hx) (fun _ _ _ _ hx => hx) fun request => ?_
  have htally := h.tally request
  exact ⟨(Nat.le_add_right _ _).trans htally.outcomes, htally.entries⟩

/-- The operation of a client ends with the outcome that it may have been accepted. -/
theorem Secure.clearClient (h : Secure sha W n v) {op : Operation m} (hop : v.operation = some op)
    (hclient : op.campaign = false) {reason : Reason} :
    Secure sha W n (Authority.cleared { v with
      actions := v.actions ++ [.completed op.request 0 (some reason) .indeterminate]
      trace := v.trace ++ [.completed op.request 0 (some reason) .indeterminate none] }) := by
  refine h.cleared rfl rfl ?_ (fun _ hx => List.mem_append_left _ hx) ?_ fun request => ?_
  · intro x hx
    rcases List.mem_append.mp hx with hx | hx
    · exact h.actions x hx
    · rw [List.mem_singleton.mp hx]
      trivial
  · intro request index outcome done hmem
    rcases List.mem_append.mp hmem with hmem | hmem
    · exact hmem
    · cases List.mem_singleton.mp hmem
  · have htally := h.tally request
    have hpending : v.pending request = if op.request = request then 1 else 0 := by
      unfold Authority.pending
      simp [hop, hclient]
    rw [hpending] at htally
    have houtcomes := htally.outcomes
    refine ⟨?_, fun hpos => ?_⟩
    · simp only [List.countP_append, List.countP_singleton, Mark.isCompletion, Mark.isSubmission]
      simpa using houtcomes
    · simpa [List.countP_append, List.countP_singleton, Mark.isProposal, Mark.isRefusal,
        Mark.isSubmission] using htally.entries hpos

end

namespace Protocol

variable [DecidableEq D] {bounds : Bounds m} {v : Voter m} {α β : Type}

/-- The campaign is given up; nothing else of authority has changed. -/
structure Abandoned (sha : Sha m) (W : World m) (n : Node) (v v' : Authority m) : Prop where
  secure : Secure sha W n v'
  idle : Idle v'
  continuation : v'.imageContinuation = none
  state : v'.state = .unavailable
  store : v'.store = v.store
  fence : v'.fence = v.fence

theorem Abandoned.inv {v v' : Authority m} (h : Abandoned sha W n v v') : Inv sha W n v' :=
  .of_idle h.secure h.idle (by simp [h.continuation])

theorem wp_abandon {reason : Reason} (h : Secure sha W n v.toAuthority)
    (hroom : Inv sha W n v.toAuthority ∨ v.actions.length < maxActions) :
    Wp (abandon bounds reason) v (fun _ v' => Abandoned sha W n v.toAuthority v'.toAuthority)
      fun _ v' => Inv sha W n v'.toAuthority := by
  have hcleared : ∀ {a : Authority m} {v1 : Voter m}, v1.toAuthority = a.cleared →
      a.store = v.store → a.fence = v.fence → Secure sha W n a.cleared →
      Wp (armElection bounds) v1 (fun _ v' => Abandoned sha W n v.toAuthority v'.toAuthority)
        fun _ v' => Inv sha W n v'.toAuthority := by
    intro a v1 hv1 hstore hfence hsecure
    have habandoned : Abandoned sha W n v.toAuthority a.cleared :=
      ⟨hsecure, idle_cleared, rfl, rfl, hstore, hfence⟩
    refine (quiet_armElection v1).mono (fun _ v' hv' => ?_) fun _ v' hv' => ?_
    · rw [hv', hv1]
      exact habandoned
    · rw [hv', hv1]
      exact habandoned.inv
  unfold abandon indeterminate
  simp only [wp_bind, wp_modify, wp_get]
  split
  · simp only [wp_pure]
    exact hcleared (a := v.toAuthority) rfl rfl rfl h.clear
  · rename_i op hop
    have hop' : v.operation = some op := hop
    simp only [wp_ite, wp_pure, complete, emit, guarded, mark, wp_bind, wp_get, wp_capacity, wp_modify,
      (h.operation op hop').1, if_true]
    refine ⟨fun _ => ?_, fun hclient => ⟨fun _ => ?_, fun hfull => ?_⟩⟩
    · exact hcleared (a := v.toAuthority) rfl rfl rfl h.clear
    · exact hcleared (a := { v.toAuthority with
        actions := v.actions ++ [.completed op.request 0 (some reason) .indeterminate]
        trace := v.trace ++ [.completed op.request 0 (some reason) .indeterminate none] })
        rfl rfl rfl (h.clearClient hop' (by simpa using hclient))
    · rcases hroom with hinv | hlt
      · exact hinv
      · exact absurd hlt hfull

theorem wp_fail {reason : Reason} (h : Secure sha W n v.toAuthority)
    (hroom : Inv sha W n v.toAuthority ∨ v.actions.length < maxActions) :
    Wp (fail bounds reason) v
      (fun _ v' => Inv sha W n v'.toAuthority ∧ Idle v'.toAuthority ∧ v'.store = v.store)
      fun _ v' => Inv sha W n v'.toAuthority := by
  unfold fail
  refine (wp_abandon h hroom).bind fun _ v1 h1 => ?_
  simp only [wp_modify]
  have hidle : Idle { v1.toAuthority with state := .failed } :=
    ⟨h1.idle.campaign, h1.idle.ownBasis, h1.idle.selection, h1.idle.operation, by simp⟩
  refine ⟨.of_idle ?_ hidle (by simp [h1.continuation]), hidle, h1.store⟩
  have hs := h1.secure
  exact ⟨hs.node, hs.store, hs.actions, hs.exchanges, hs.publication, hs.tally, hs.done, hs.votes,
    hs.operation⟩

theorem keeps_abandon {reason : Reason} (h : Inv sha W n v.toAuthority) :
    Keeps sha W n (abandon bounds reason) v :=
  (wp_abandon h.toSecure (.inl h)).mono (fun _ _ h => h.inv) fun _ _ h => h

theorem keeps_fail {reason : Reason} (h : Inv sha W n v.toAuthority) :
    Keeps sha W n (fail bounds reason) v :=
  (wp_fail h.toSecure (.inl h)).mono (fun _ _ h => h.1) fun _ _ h => h

/-- The invariant holds after a computation that leaves the state or gives the campaign up, and
when it throws. -/
abbrev Settles (sha : Sha m) (W : World m) (n : Node) (x : Exec m α) (v : Voter m) : Prop :=
  Wp x v (fun _ v' => Inv sha W n v'.toAuthority ∧ (v'.state = v.state ∨ v'.state = .unavailable))
    fun _ v' => Inv sha W n v'.toAuthority

theorem Settles.keeps {x : Exec m α} (h : Settles sha W n x v) : Keeps sha W n x v :=
  h.mono (fun _ _ h => h.1) fun _ _ h => h

theorem settles_abandon {reason : Reason} (h : Inv sha W n v.toAuthority) :
    Settles sha W n (abandon bounds reason) v :=
  (wp_abandon h.toSecure (.inl h)).mono (fun _ _ h => ⟨h.inv, .inr h.state⟩) fun _ _ h => h

theorem settles_send {peer : Node} {request : Request m} (h : Inv sha W n v.toAuthority)
    (hr : request.Holds sha (W.put v.store)) : Settles sha W n (send bounds peer request) v := by
  refine (wp_send h.toSecure hr).mono (fun _ v' hp => ⟨h.posts hp, .inl ?_⟩) fun _ _ hp => h.posts hp
  obtain ⟨actions, exchanges, heq⟩ := hp.rest
  have hstate := congrArg Authority.state heq
  exact hstate

theorem settles_prepareFailed (h : Inv sha W n v.toAuthority) :
    Settles sha W n (prepareFailed bounds) v := by
  unfold prepareFailed
  simp only [wp_bind, wp_get, wp_ite, wp_pure]
  refine ⟨fun _ => ⟨h, .inl trivial⟩, fun _ => ?_⟩
  split
  · exact settles_abandon h
  · simp only [wp_ite, wp_bind, wp_modify]
    exact ⟨fun _ => settles_send h trivial, fun _ => settles_abandon h⟩

theorem settles_exchangeFailed {id : ℕ} (h : Inv sha W n v.toAuthority) :
    Settles sha W n (exchangeFailed bounds id) v := by
  unfold exchangeFailed removeExchange
  simp only [wp_bind, wp_get]
  split
  · exact ⟨h, .inl rfl⟩
  · simp only [wp_bind, wp_modify]
    have h1 : Inv sha W n { v.toAuthority with
        exchanges := v.exchanges.filter fun p => p.message.id ≠ id } :=
      h.withExchanges fun p hp => ⟨p, List.mem_of_mem_filter hp, rfl⟩
    split
    · exact ⟨h1, .inl rfl⟩
    · exact settles_prepareFailed h1
    · exact settles_abandon h1

/-! ### The application image -/

theorem keeps_publish {ballot : Ballot} {isLocal : Bool} (h : Inv sha W n v.toAuthority)
    (hcase : ∀ c ∈ v.campaign, isLocal = false ∧ ballot = c ∧
      ∃ op ∈ v.operation, op.proof.isSome) :
    Keeps sha W n (publish sha ballot isLocal) v := by
  unfold publish
  refine quiet_nextId.bind h fun id v1 h1 => ?_
  simp only [wp_bind, wp_get, wp_onStore, Store.provenSnapshot, Store.wp_usable, Store.wp_check,
    wp_modify]
  have hv1 : Inv sha W n v1.toAuthority := h1 ▸ h
  refine ⟨fun _ => ⟨fun image himage => ?_, fun _ _ => hv1⟩, fun _ => hv1⟩
  obtain ⟨hback, hindex⟩ := hv1.store.snapshot himage
  refine keeps_emit (hv1.withPublication hback fun c hc => ?_) hback
  have hc' : c ∈ v.campaign := by
    rw [← congrArg Authority.campaign h1]
    exact hc
  obtain ⟨hlocal, hballot, op, hop, hproof⟩ := hcase c hc'
  have hop' : op ∈ v1.operation := by
    rw [congrArg Authority.operation h1]
    exact hop
  refine ⟨hlocal, hballot, op, hop', hproof, hindex, ?_⟩
  rw [(Memory.snapshot_eq_ok himage).1]
  exact hv1.anchor_eq hop' hproof

theorem keeps_prepare {grant : Ballot} {requester : Node} {application : Bytes} {basisId : ℕ}
    (h : Inv sha W n v.toAuthority) :
    Wp (onStore (Store.prepare sha bounds.toLimits grant requester application basisId)) v
      (fun basis v' => Inv sha W n v'.toAuthority ∧ Froze (W.put v'.store) basis ∧
        v'.campaign = v.campaign ∧ v'.store.node = v.store.node)
      fun _ v' => Inv sha W n v'.toAuthority := by
  rw [wp_onStore]
  refine (Store.moves_prepare h.store).mono ?_ ?_
  · rintro basis s ⟨hmoves, hthrough, hfroze⟩
    exact ⟨h.moves hmoves fun _ => hthrough, hfroze, rfl, hmoves.node⟩
  · rintro e s ⟨hmoves, hthrough⟩
    exact h.moves hmoves fun _ => hthrough

theorem keeps_campaignReady {expected : Ballot} (h : Inv sha W n v.toAuthority) :
    Keeps sha W n (campaignReady sha bounds expected) v := by
  unfold campaignReady
  simp only [wp_bind, wp_get, wp_ite, wp_pure]
  refine ⟨fun hexpected => ?_, fun _ => h⟩
  refine (keeps_prepare h).mono (fun basis v1 h1 => ?_) fun _ _ h1 => h1
  obtain ⟨hv1, hfroze, hcampaign, -⟩ := h1
  simp only [wp_modify]
  have hbasis : Inv sha W n { v1.toAuthority with ownBasis := some basis } :=
    { hv1 with
      ownBasis := by
        rintro b ⟨⟩
        refine ⟨?_, hfroze⟩
        show v1.campaign.isSome
        rw [hcampaign, show v.campaign = some expected from hexpected]
        rfl }
  refine (quiet_promiseOf _).mono (fun promised v2 h2 => ?_) fun _ v2 h2 => by rw [h2]; exact hbasis
  refine Wp.forM (I := fun v' : Voter m => Inv sha W n v'.toAuthority) ?_ fun peer _ v3 h3 => ?_
  · have hv2 : Inv sha W n v2.toAuthority := by
      rw [h2]
      exact hbasis
    exact hv2
  · rw [wp_ite, wp_pure]
    exact ⟨fun _ => h3, fun _ => keeps_send h3 trivial⟩

theorem keeps_prepareReady {message : Call m} (h : Inv sha W n v.toAuthority) :
    Keeps sha W n (prepareReady sha bounds message) v := by
  unfold prepareReady
  simp only [wp_bind, wp_get, wp_ite, wp_pure]
  refine ⟨fun _ => ?_, fun _ => h⟩
  refine Wp.tryCatch (I := fun _ (v' : Voter m) => Inv sha W n v'.toAuthority) ?_ fun e v1 h1 => ?_
  · refine (keeps_prepare h).bind fun basis v1 hpost => ?_
    obtain ⟨h1, hfroze, -, -⟩ := hpost
    refine quiet_promiseOf.bind h1 fun promised v2 h2 => ?_
    simp only [wp_bind, wp_modify]
    refine (quiet_armElection _).mono (fun _ v3 h3 => ?_) fun _ v3 h3 => by rw [h3, h2]; exact h1
    have hv3 : v3.toAuthority = v1.toAuthority := h3.trans h2
    refine keeps_reply (hv3 ▸ h1) ?_
    show Froze (W.put v3.store) basis
    rw [congrArg Authority.store hv3]
    exact hfroze
  · simp only [wp_bind, wp_modify]
    refine Wp.mono (keeps_fail ?_) (fun _ v2 h2 => keeps_reply h2 trivial) fun _ _ h2 => h2
    exact h1

/-- Every continuation keeps the invariant, also when it is resumed much later. -/
theorem keeps_resume {k : Continuation m} (h : Inv sha W n v.toAuthority) (hk : k.Ready v.state)
    (hnone : v.imageContinuation = none) :
    Keeps sha W n (resume sha bounds k) v := by
  unfold resume
  split
  · have hidle := h.idle (h.starting (.inr hk))
    simp only [wp_bind, wp_get, wp_onStore, wp_modify]
    have hmoved : ∀ s, Store.Moves sha W v.store s → Inv sha W n { v.toAuthority with store := s } :=
      fun s hs => h.moves hs fun hop => by
        rw [show v.operation = none from hidle.operation] at hop
        cases hop
    refine (Store.moves_resumeCheckpoint h.store).mono (fun _ s hs => ?_) fun _ s hs => hmoved s hs
    exact quiet_armElection.keeps ((hmoved s hs).withState
      ⟨hidle.campaign, hidle.ownBasis, hidle.selection, hidle.operation, hidle.state⟩ (by simp)
      (by simp [hnone]))
  · exact keeps_campaignReady h
  · exact keeps_prepareReady h
  · simp only [wp_bind, wp_get, wp_ite, wp_pure]
    refine ⟨fun hcond => keeps_publish h fun c hc => ?_, fun _ => h⟩
    rw [show v.campaign = none from hcond.1] at hc
    cases hc
  · rename_i committing expected
    simp only [wp_bind, wp_get, wp_ite, wp_pure]
    refine ⟨fun hcond => ?_, fun _ => h⟩
    obtain ⟨hop, hcampaign, -⟩ := hcond
    refine (keeps_publish h fun c hc => ?_).mono (fun _ v1 h1 => quiet_progress.keeps h1)
      fun _ _ h1 => h1
    cases hcampaign.symm.trans hc
    exact ⟨rfl, rfl, committing, hop, hk⟩

theorem keeps_withImage {k : Continuation m} (h : Inv sha W n v.toAuthority)
    (hk : k.Ready v.state) : Keeps sha W n (withImage sha bounds k) v := by
  unfold withImage
  simp only [wp_bind, wp_modify]
  have hpending : Inv sha W n { v.toAuthority with imageContinuation := some k } := by
    refine h.withContinuation ?_
    rintro x ⟨⟩
    exact hk
  refine (quiet_proven _).mono (fun through v1 h1 => ?_) fun _ v1 h1 => by rw [h1]; exact hpending
  have hv1 : Inv sha W n v1.toAuthority := by
    rw [h1]
    exact hpending
  simp only [wp_get, wp_ite, wp_bind, wp_modify, wp_pure]
  refine ⟨fun _ => ?_, fun _ => ⟨fun _ => ?_, fun _ => hv1⟩⟩
  · have hstate := congrArg Authority.state h1
    change v1.state = v.state at hstate
    exact keeps_resume (hv1.withContinuation (by simp)) (hstate ▸ hk) rfl
  · refine (quiet_nextId v1).mono (fun id v2 h2 => ?_) fun _ v2 h2 => by rw [h2]; exact hv1
    have hv2 : Inv sha W n v2.toAuthority := h2 ▸ hv1
    simp only [wp_onStore, Store.replay, wp_bind, Store.wp_usable, wp_get, wp_capacity, wp_pure]
    refine ⟨fun _ => ⟨fun _ => ?_, fun _ => hv2⟩, fun _ => hv2⟩
    exact keeps_emit hv2 trivial

/-! ### Events of the driver -/

theorem keeps_restored {application : Bytes} (h : Inv sha W n v.toAuthority) :
    Keeps sha W n (restored sha application) v := by
  unfold restored
  simp only [wp_bind, wp_get, wp_need, wp_onStore, Store.provenSnapshot, Store.wp_usable,
    Store.wp_check, wp_modify]
  exact ⟨fun _ => ⟨fun _ => ⟨fun _ _ => h, fun _ _ => h⟩, fun _ => h⟩, fun _ => h⟩

theorem keeps_observePromise {observed : Ballot} (h : Inv sha W n v.toAuthority) :
    Keeps sha W n (observePromise bounds observed) v := by
  unfold observePromise
  simp only [wp_bind, wp_get, wp_ite, wp_modify, wp_pure]
  refine ⟨fun _ => ?_, fun _ => h⟩
  refine (wp_abandon (v := { v with maxEpoch := max v.maxEpoch observed.epoch }) h.toSecure
    (.inl h)).mono (fun _ _ h1 => h1.inv.withFence h1.idle) fun _ _ h1 => h1

theorem keeps_rejoin {ballot : Ballot} {snapshot : Snapshot m} (h : Inv sha W n v.toAuthority)
    (hback : Backed sha (W.put v.store) snapshot) :
    Keeps sha W n (rejoin sha bounds ballot snapshot) v := by
  unfold rejoin
  simp only [wp_bind, wp_get, wp_need, wp_onStore, wp_modify]
  refine ⟨fun hcond => ?_, fun _ => h⟩
  have hidle := h.idle hcond.2.1
  have hmoved : ∀ s, Store.Moves sha W v.store s → Inv sha W n { v.toAuthority with store := s } :=
    fun s hs => h.moves hs fun hop => by
      rw [show v.operation = none from hidle.operation] at hop
      cases hop
  refine (Store.moves_installProven h.store hback).mono (fun _ s hs => ?_)
    fun _ s hs => hmoved s hs.1
  have hv1 := hmoved s hs.1
  refine (quiet_proven _).mono (fun _ v2 h2 => ?_) fun _ v2 h2 => by rw [h2]; exact hv1
  refine quiet_armElection.keeps ?_
  show Inv sha W n v2.toAuthority
  rw [h2]
  exact hv1

theorem keeps_frozen {ballot : Ballot} (h : Inv sha W n v.toAuthority) :
    Keeps sha W n (frozen sha bounds ballot) v := by
  unfold frozen
  simp only [wp_bind, wp_get, wp_need]
  refine ⟨fun _ => ?_, fun _ => h⟩
  split
  · exact h
  · simp only [wp_bind, wp_pure]
    exact (keeps_prepare h).mono (fun _ _ h1 => h1.1) fun _ _ h1 => h1

theorem keeps_start {time : ℕ} (h : Inv sha W n v.toAuthority) :
    Keeps sha W n (start sha bounds time) v := by
  unfold start
  refine quiet_clock.bind h fun _ v1 h1 => ?_
  have hv1 : Inv sha W n v1.toAuthority := h1 ▸ h
  simp only [wp_bind, wp_room, wp_get, wp_need, wp_modify]
  refine ⟨fun _ => ⟨fun hstopped => ?_, fun _ => hv1⟩, fun _ => hv1⟩
  have hidle := hv1.idle (hv1.starting (.inl hstopped))
  have hcontinuation : ∀ k ∈ v1.imageContinuation, k.Ready .starting := by
    intro k hk
    have hready := hv1.continuation k hk
    cases k with
    | start => rfl
    | publish op b => exact hready
    | campaign b => trivial
    | prepare message => trivial
    | publishLocal b => trivial
  exact keeps_withImage (hv1.withState hidle (by simp) hcontinuation) rfl

/-- The answer of the application; the continuation that waited for it is resumed. -/
theorem keeps_reconstructed {id : ℕ} {application : Option Bytes} {time : ℕ}
    (h : Inv sha W n v.toAuthority) :
    Keeps sha W n (reconstructed sha bounds id application time) v := by
  unfold reconstructed
  refine quiet_clock.bind h fun _ v1 h1 => ?_
  have hv1 : Inv sha W n v1.toAuthority := h1 ▸ h
  simp only [wp_bind, wp_room, wp_get]
  refine ⟨fun _ => ?_, fun _ => hv1⟩
  split
  · exact hv1
  · simp only [wp_bind, wp_need, wp_modify, wp_get, wp_ite, wp_pure]
    refine ⟨fun _ => ⟨fun _ => hv1, fun _ => ?_⟩, fun _ => hv1⟩
    split
    · exact keeps_fail hv1
    · simp only [wp_bind, wp_capacity, wp_modify]
      have hcleared : Inv sha W n { v1.toAuthority with imageContinuation := none } :=
        hv1.withContinuation (by simp)
      refine ⟨fun _ => ?_, fun _ => hv1⟩
      split
      · exact hcleared
      · rename_i k hk
        exact Wp.tryCatch (keeps_withImage hcleared (hv1.continuation k hk))
          fun e v2 h2 => keeps_fail h2

/-! ### Campaigns -/

/-- A campaign's epoch is above what was observed and belongs to the voter. -/
theorem nextEpoch_eq_ok {observed value : ℕ} {rank : Node} (h : nextEpoch observed rank = .ok value) :
    observed < value ∧ 1 < value ∧ (value - 2) % 3 = rank := by
  simp only [nextEpoch, bind_eq_ok, capacity_eq_ok] at h
  obtain ⟨_, hpos, _, -, h⟩ := h
  have hrank := rank.isLt
  have hvalue : value = (if observed = 1 then 0 else (observed - 2) / 3 + 1) * 3 + (rank + 2) :=
    (Except.ok.inj h).symm
  split at hvalue <;> omega

theorem keeps_beginCampaign (h : Inv sha W n v.toAuthority) (hcampaign : v.campaign = none)
    (hpublication : v.publication = none) (hawake : v.state ≠ .stopped ∧ v.state ≠ .starting) :
    Keeps sha W n (beginCampaign sha bounds) v := by
  have hidle := h.idle hcampaign
  unfold beginCampaign
  refine Wp.tryCatch ?_ fun e v1 h1 => keeps_fail h1
  simp only [wp_bind, wp_onStore, Store.wp_promiseOf, wp_get]
  refine ⟨fun hlive => ?_, fun _ => h⟩
  refine Wp.mono (Q := fun value v1 => v1 = v ∧
    nextEpoch (max v.maxEpoch v.store.promise.epoch) v.store.node = .ok value)
    (E := fun _ v1 => v1 = v) ?_ ?_ fun _ v1 h1 => h1 ▸ h
  · unfold Wp lift
    cases nextEpoch (max v.maxEpoch v.store.promise.epoch) v.store.node <;> simp
  · rintro value v1 ⟨rfl, hvalue⟩
    obtain ⟨hlt, hpos, howner⟩ := nextEpoch_eq_ok hvalue
    simp only [wp_need]
    refine ⟨fun _ => ?_, fun _ => h⟩
    split
    · rename_i hballot
      have hproposer : Ballot.proposer ⟨value, v1.incarnation, .inr hballot⟩ =
          some v1.store.node := by
        unfold Ballot.proposer
        rw [if_neg (show value ≠ 1 by omega)]
        exact congrArg some (Fin.ext howner)
      have hbegun := h.beginning hidle hpublication hawake hlive hproposer
        ((le_max_right _ _).trans_lt hlt)
      simp only [wp_bind, wp_modify]
      refine (quiet_after _).mono (fun deadline v2 h2 => ?_)
        fun _ v2 h2 => by rw [h2]; exact hbegun
      refine (quiet_after _).mono (fun beat v3 h3 => ?_) fun _ v3 h3 => by
        rw [h3]
        show Inv sha W n v2.toAuthority
        rw [h2]
        exact hbegun
      refine keeps_withImage ?_ trivial
      show Inv sha W n v3.toAuthority
      rw [h3]
      show Inv sha W n v2.toAuthority
      rw [h2]
      exact hbegun
    · exact h

omit [DecidableEq D] in
theorem exchange?_mem {id : ℕ} {p : Pending m} (h : exchange? v id = some p) :
    p ∈ v.exchanges :=
  List.mem_of_find?_eq_some h

/-- A retry changes no message. -/
theorem Inv.retried {v : Authority m} (h : Inv sha W n v) {f : Pending m → Pending m}
    (hf : ∀ p, (f p).message = p.message) :
    Inv sha W n { v with exchanges := v.exchanges.map f } := by
  refine h.withExchanges fun p hp => ?_
  obtain ⟨q, hq, rfl⟩ := List.mem_map.mp hp
  exact ⟨q, hq, hf q⟩

theorem settles_tickExchange {id : ℕ} (h : Inv sha W n v.toAuthority) :
    Settles sha W n (tickExchange bounds id) v := by
  unfold tickExchange
  simp only [wp_bind, wp_get]
  split
  · exact ⟨h, .inl rfl⟩
  · rename_i pending hpending
    simp only [wp_ite, wp_pure, wp_bind, wp_modify]
    refine ⟨fun _ => settles_exchangeFailed h, fun _ => ⟨fun _ => ?_, fun _ => ⟨h, .inl trivial⟩⟩⟩
    have hretried := Inv.retried (f := fun p => if p.message.id = id then { p with
      retryAt := maxLong
      attempts := if p.admissionDeferred then p.attempts else p.attempts + 1
      admissionDeferred := false } else p) h fun p => by split <;> rfl
    have hmessage : pending.message.request.Holds sha (W.put v.store) :=
      h.exchanges pending (exchange?_mem hpending)
    simp only [emit, guarded, wp_bind, wp_get, wp_capacity, wp_modify]
    exact ⟨fun _ => ⟨hretried.posts (hretried.emit hmessage), .inl trivial⟩, fun _ => hretried⟩

theorem settles_beat (h : Inv sha W n v.toAuthority) : Settles sha W n (beat bounds) v := by
  unfold beat
  simp only [wp_bind, wp_get, wp_ite, wp_capacity, wp_modify, wp_pure]
  refine ⟨fun _ => ⟨fun _ => ?_, fun _ => h⟩, fun _ => ⟨h, .inl trivial⟩⟩
  have hloop : Wp ((peers v.store.node).forM fun peer => do
      let v ← get
      if (v.exchanges.any fun p => decide (p.message.recipient = peer ∧
          p.message.request.kind = .heartbeat)) = true then return
      else
        send bounds peer (.heartbeat ⟨v.heartbeatSequence, v.state = .leaderReady, v.progress, 0⟩))
      { v with heartbeatSequence := v.heartbeatSequence + 1 }
      (fun _ v' => Inv sha W n v'.toAuthority ∧ (v'.state = v.state ∨ v'.state = .unavailable))
      fun _ v' => Inv sha W n v'.toAuthority := by
    refine Wp.forM (I := fun v' : Voter m => Inv sha W n v'.toAuthority ∧
      (v'.state = v.state ∨ v'.state = .unavailable)) ⟨h, .inl rfl⟩ fun peer _ v1 h1 => ?_
    simp only [wp_bind, wp_get, wp_ite, wp_pure]
    refine ⟨fun _ => h1, fun _ => ?_⟩
    refine Wp.mono (settles_send h1.1 ?_) (fun _ v2 h2 => ⟨h2.1, ?_⟩) fun _ _ h2 => h2
    · trivial
    · rcases h2.2 with heq | heq
      · rw [heq]
        exact h1.2
      · exact .inr heq
  refine hloop.mono (fun _ v1 h1 => ?_) fun _ _ h1 => h1
  refine (quiet_after v1).mono (fun _ v2 h2 => ?_) fun _ v2 h2 => by rw [h2]; exact h1.1
  refine ⟨?_, ?_⟩
  · show Inv sha W n v2.toAuthority
    rw [h2]
    exact h1.1
  · rw [show v2.state = v1.state from congrArg Authority.state h2]
    exact h1.2

theorem keeps_tickReads (h : Inv sha W n v.toAuthority) : Keeps sha W n (tickReads sha bounds) v := by
  unfold tickReads
  simp only [wp_bind, wp_get, wp_ite, wp_pure]
  refine ⟨fun _ => ?_, fun _ => h⟩
  refine (quiet_proven v).mono (fun through v1 h1 => ?_) fun _ v1 h1 => by rw [h1]; exact h
  have hv1 : Inv sha W n v1.toAuthority := h1 ▸ h
  exact ⟨fun _ => keeps_withImage hv1 trivial, fun _ => hv1⟩

theorem State.awake {s : State} (h : ¬s.inactive = true) : s ≠ .stopped ∧ s ≠ .starting := by
  constructor
  · rintro rfl
    exact h rfl
  · rintro rfl
    exact h rfl

/-- The voter has started. -/
def Awake (v : Voter m) : Prop := v.state ≠ .stopped ∧ v.state ≠ .starting

omit [DecidableEq D] in
theorem Awake.settles {v v' : Voter m} (h : Awake v)
    (hs : v'.state = v.state ∨ v'.state = .unavailable) : Awake v' := by
  unfold Awake
  rcases hs with heq | heq
  · rw [heq]
    exact h
  · rw [heq]
    simp

theorem settles_tickDeadline (h : Inv sha W n v.toAuthority) :
    Settles sha W n (tickDeadline bounds) v := by
  unfold tickDeadline
  simp only [wp_bind, wp_get, wp_ite, wp_pure]
  exact ⟨fun _ => settles_abandon h, fun _ => ⟨h, .inl trivial⟩⟩

theorem keeps_tickElection (h : Inv sha W n v.toAuthority) (hawake : Awake v) :
    Keeps sha W n (tickElection sha bounds) v := by
  unfold tickElection
  simp only [wp_bind, wp_get, wp_ite, wp_pure]
  refine ⟨fun hcond => ?_, fun _ => h⟩
  exact keeps_beginCampaign h hcond.1 (by simpa using hcond.2.2.1) hawake

theorem keeps_tick {time : ℕ} (h : Inv sha W n v.toAuthority) :
    Keeps sha W n (tick sha bounds time) v := by
  unfold tick
  refine quiet_clock.bind h fun _ v1 h1 => ?_
  have hv1 : Inv sha W n v1.toAuthority := h1 ▸ h
  rw [wp_bind, wp_room]
  refine ⟨fun _ => ?_, fun _ => hv1⟩
  rw [wp_bind, wp_get, wp_ite, wp_pure]
  refine ⟨fun _ => hv1, fun hactive => ?_⟩
  have hawake : Awake v1 := State.awake hactive
  -- no step up to the election leads back to a voter that has not started
  refine (settles_tickDeadline hv1).bind fun _ v2 ⟨h2, hs2⟩ => ?_
  rw [wp_bind, wp_get]
  refine Wp.bind (Wp.forM (I := fun v' : Voter m => Inv sha W n v'.toAuthority ∧ Awake v')
    ⟨h2, hawake.settles hs2⟩ fun id _ v' h' => ?_) fun _ v3 h3 => ?_
  · exact (settles_tickExchange h'.1).mono (fun _ _ h4 => ⟨h4.1, h'.2.settles h4.2⟩) fun _ _ h4 => h4
  · refine (settles_beat h3.1).bind fun _ v4 ⟨h4, hs4⟩ => ?_
    exact (keeps_tickElection h4 (h3.2.settles hs4)).bind fun _ v5 h5 => keeps_tickReads h5

theorem keeps_retry {id : ℕ} (h : Inv sha W n v.toAuthority) :
    Keeps sha W n (retry bounds id) v := by
  unfold retry
  refine quiet_after.bind h fun at' v1 h1 => ?_
  have hv1 : Inv sha W n v1.toAuthority := h1 ▸ h
  rw [wp_modify]
  exact Inv.retried hv1 fun p => by split <;> rfl

theorem keeps_defer {id : ℕ} (h : Inv sha W n v.toAuthority) : Keeps sha W n (defer id) v := by
  unfold defer
  exact wp_modify.mpr (Inv.retried h fun p => by split <;> rfl)

theorem keeps_transportFailed {id time : ℕ} (h : Inv sha W n v.toAuthority) :
    Keeps sha W n (transportFailed bounds id time) v := by
  unfold transportFailed
  refine quiet_clock.bind h fun _ v1 h1 => ?_
  have hv1 : Inv sha W n v1.toAuthority := h1 ▸ h
  simp only [wp_bind, wp_room, wp_get]
  refine ⟨fun _ => ?_, fun _ => hv1⟩
  split
  · exact hv1
  · simp only [wp_bind, wp_get, wp_ite]
    exact ⟨fun _ => (settles_exchangeFailed hv1).keeps, fun _ => keeps_retry hv1⟩

theorem keeps_transportDeferred {id time : ℕ} (h : Inv sha W n v.toAuthority) :
    Keeps sha W n (transportDeferred bounds id time) v := by
  unfold transportDeferred
  refine quiet_clock.bind h fun _ v1 h1 => ?_
  have hv1 : Inv sha W n v1.toAuthority := h1 ▸ h
  simp only [wp_bind, wp_room, wp_get]
  refine ⟨fun _ => ?_, fun _ => hv1⟩
  split
  · exact hv1
  · simp only [wp_bind, wp_get, wp_ite]
    exact ⟨fun _ => (settles_exchangeFailed hv1).keeps, fun _ => (keeps_defer hv1).bind fun _ _ hv2 =>
      keeps_retry hv2⟩

end Protocol

end GeneralSearch.Replication
