import GeneralSearch.Replication.Proposals

/-! The messages: what a voter answers to the proposer of a ballot, and what the proposer makes of
the answers. -/

namespace GeneralSearch.Replication

open Lib

variable {D : Type} [DecidableEq D] {m : Manifest D} {sha : Sha m} {W : World m} {n : Node}

/-- A selection is retained before a campaign has one. -/
theorem Inv.selecting {v : Authority m} (h : Inv sha W n v) (hnone : v.selection = none)
    {chosen : Selection m} {s : Store m} (hs : Store.Selecting sha W v.store chosen s) :
    Inv sha W n { v with store := s } := by
  refine h.withStore hs.holds hs.node hs.grows (fun row hrow howner => h.votes row ?_ ?_)
    hs.through.ge (by simp [hnone]) fun _ => hs.through
  · exact hs.voted ▸ hrow
  · exact hs.node ▸ howner

theorem Store.Selecting.froze {s s' : Store m} {chosen : Selection m}
    (h : Store.Selecting sha W s chosen s') {basis : Basis m} (hmem : basis ∈ chosen.bases) :
    Froze (W.put s') basis := by
  obtain ⟨a, b, hselects, ha, hb⟩ := h.selects
  rw [hselects.decides] at hmem
  change basis ∈ [a, b] at hmem
  simp only [List.mem_cons, List.not_mem_nil, or_false] at hmem
  rcases hmem with rfl | rfl
  · exact ha
  · exact hb

/-- A continuation that waits in a voter that has started may be resumed in any state. -/
theorem Inv.ready {v : Authority m} (h : Inv sha W n v) (hstarted : v.state ≠ .starting)
    {state : State} : ∀ k ∈ v.imageContinuation, k.Ready state := by
  intro k hk
  have hready := h.continuation k hk
  cases k with
  | start => exact absurd hready hstarted
  | publish op b => exact hready
  | campaign b => trivial
  | prepare message => trivial
  | publishLocal b => trivial

/-- The selected prefix of a candidate is in its proven prefix, and recovery begins. -/
theorem Inv.recover {v : Authority m} (h : Inv sha W n v) (hcandidate : v.state = .candidate)
    {c : Ballot} (hc : v.campaign = some c) (hpromise : v.store.promise = c)
    {chosen : Selection m} {s t : Store m} (hs : Store.Selecting sha W v.store chosen s)
    (ht : Store.Moves sha W s t) (hle : chosen.snapshot.index ≤ t.provenThrough)
    (hnone : v.operation = none) {exchanges : List (Pending m)}
    (he : ∀ p ∈ exchanges, ∃ q ∈ v.exchanges, p.message = q.message) :
    Inv sha W n { v with
      store := t, selection := some chosen, exchanges, state := .recovering } := by
  have hmoved := ((h.selecting (h.candidate hcandidate) hs).moves ht (by simp [hnone])).withExchanges he
  obtain ⟨a, b, hselects, ha, hb⟩ := hs.selects
  have hW := hs.holds.world ht.node ht.grows
  have hindexed : chosen.record.prefixIndex = chosen.snapshot.index := by
    rw [hselects.decides]
    rfl
  exact { hmoved with
    selection := by
      rintro d ⟨⟩
      exact ⟨ht.selected.trans hs.selected, c, hc, a, b, hpromise ▸ hselects, ha.mono hW,
        hb.mono hW⟩
    recovering := fun _ => ⟨chosen, rfl, hindexed ▸ hle⟩
    leading := by simp
    operating := by simp [hnone]
    continuation := h.ready (by simp [hcandidate])
    starting := by simp
    candidate := by simp }

namespace Protocol

variable {bounds : Bounds m} {v : Voter m} {α : Type}

/-- The selected prefix is installed, if there is a place for it. -/
theorem wp_adopt {chosen : Selection m} (h : v.store.Holds sha W)
    (hselected : v.store.selected = some chosen) (hback : Backed sha (W.put v.store) chosen.snapshot) :
    Wp (adopt sha chosen) v
      (fun adopted v' => ∃ s, v'.toAuthority = { v.toAuthority with store := s } ∧
        Store.Moves sha W v.store s ∧ (adopted = true → chosen.snapshot.index ≤ s.provenThrough))
      fun _ v' => ∃ s, v'.toAuthority = { v.toAuthority with store := s } ∧
        Store.Moves sha W v.store s := by
  have hrefl : Store.Moves sha W v.store v.store := h.moves (.refl _)
  unfold adopt proven Store.status
  simp only [wp_bind, wp_onStore, Store.wp_usable, wp_get, wp_pure, wp_modify, wp_ite]
  refine ⟨fun hlive => ⟨fun _ => ⟨fun _ => ⟨fun _ => ?_, fun _ => ?_⟩, fun _ => ?_⟩, fun hle => ?_⟩,
    fun _ => ⟨_, rfl, hrefl⟩⟩
  · refine (Store.moves_installSelected h hselected hback).mono (fun _ s hs => ?_) fun _ s hs => ?_
    · exact ⟨fun _ => ⟨s, rfl, hs.1, fun _ => hs.2.ge⟩, fun _ => ⟨s, rfl, hs.1⟩⟩
    · exact ⟨s, rfl, hs⟩
  · exact ⟨v.store, rfl, hrefl, by simp⟩
  · exact ⟨v.store, rfl, hrefl⟩
  · exact ⟨v.store, rfl, hrefl, fun _ => by omega⟩

/-! ### Requests -/

/-- The voter is no party to a campaign of its own, and has started. -/
structure Follows (sha : Sha m) (W : World m) (n : Node) (v : Voter m) : Prop where
  inv : Inv sha W n v.toAuthority
  idle : Idle v.toAuthority
  awake : Awake v

omit [DecidableEq D] in
theorem Follows.of_eq [DecidableEq D] {v v' : Voter m} (h : Follows sha W n v)
    (heq : v'.toAuthority = v.toAuthority) : Follows sha W n v' := by
  refine ⟨heq ▸ h.inv, heq ▸ h.idle, ?_⟩
  unfold Awake
  rw [congrArg Authority.state heq]
  exact h.awake

theorem follows_reply {request : Call m} {response : Response m} (h : Follows sha W n v)
    (hr : response.Holds sha (W.put v.store)) :
    Wp (reply request response) v (fun _ v' => Follows sha W n v')
      fun _ v' => Inv sha W n v'.toAuthority := by
  unfold reply emit guarded
  simp only [wp_bind, wp_get, wp_capacity, wp_modify]
  refine ⟨fun _ => ⟨h.inv.posts (h.inv.emit hr), ?_, h.awake⟩, fun _ => h.inv⟩
  exact ⟨h.idle.campaign, h.idle.ownBasis, h.idle.selection, h.idle.operation, h.idle.state⟩

theorem wp_raiseFence {ballot : Ballot} (h : Inv sha W n v.toAuthority) :
    Wp (raiseFence bounds ballot) v (fun _ v' => Follows sha W n v')
      fun _ v' => Inv sha W n v'.toAuthority := by
  unfold raiseFence
  simp only [wp_bind]
  refine (wp_abandon h.toSecure (.inl h)).mono (fun _ v1 h1 => ?_) fun _ _ h1 => h1
  simp only [wp_modify, wp_get]
  have hv1 : Inv sha W n { v1.toAuthority with fence := ballot } := h1.inv.withFence h1.idle
  have hfollows : ∀ v' : Voter m, v'.toAuthority = { v1.toAuthority with fence := ballot } →
      Follows sha W n v' := by
    intro v' hv'
    refine ⟨hv' ▸ hv1, ?_, ?_⟩
    · rw [hv']
      exact ⟨h1.idle.campaign, h1.idle.ownBasis, h1.idle.selection, h1.idle.operation,
        h1.idle.state⟩
    · unfold Awake
      rw [congrArg Authority.state hv', show v1.state = .unavailable from h1.state]
      simp
  split
  · exact hfollows _ rfl
  · simp only [wp_bind, wp_modify]
    refine Wp.mono (follows_reply (hfollows _ rfl) ?_) (fun _ v2 h2 => ?_) fun _ _ h2 => h2
    · trivial
    · exact h2.of_eq rfl

/-- A request of the proposer of the voter's fence finds no campaign: it would be the voter's. -/
theorem Follows.of_fence (h : Inv sha W n v.toAuthority) (hawake : Awake v) {ballot : Ballot}
    {sender : Node} (hfence : v.fence = ballot) (hproposer : some sender = ballot.proposer)
    (hother : sender ≠ v.store.node) : Follows sha W n v := by
  refine ⟨h, h.idle ?_, hawake⟩
  rw [Option.eq_none_iff_forall_not_mem]
  intro c hc
  obtain ⟨heq, howner⟩ := h.campaign c hc
  rw [← heq, hfence, ← hproposer] at howner
  exact hother (Option.some.inj howner)

theorem keeps_prepareRequest {message : Call m} (h : Inv sha W n v.toAuthority) (hawake : Awake v)
    (hproposer : some message.sender = message.ballot.proposer)
    (hother : message.sender ≠ v.store.node) : Keeps sha W n (prepare sha bounds message) v := by
  unfold prepare
  simp only [wp_bind, wp_get, wp_ite, wp_need, wp_pure]
  have hfollowing : ∀ v1 : Voter m, Follows sha W n v1 →
      (v1.preparing.isSome = true →
        Keeps sha W n (reply message (.refused .prepare .capacityExceeded)) v1) ∧
      (¬v1.preparing.isSome = true → Wp (modify fun v : Voter m =>
        { v with state := .follower, preparing := some message }) v1
          (fun _ v2 => Keeps sha W n (withImage sha bounds (.prepare message)) v2)
          fun (_ : Failure) v' => Inv sha W n v'.toAuthority) := by
    intro v1 h1
    refine ⟨fun _ => keeps_reply h1.inv trivial, fun _ => ?_⟩
    rw [wp_modify]
    exact keeps_withImage (h1.inv.withState h1.idle (by simp) (h1.inv.ready h1.awake.2)) trivial
  refine ⟨fun _ => keeps_reply h trivial, fun hle => ⟨fun hsame => ⟨fun _ => ?_, fun hlow => ?_⟩,
    fun _ => h⟩⟩
  · exact (wp_raiseFence h).mono (fun _ v1 h1 => hfollowing v1 h1) fun _ _ h1 => h1
  · have hfence : v.fence = message.ballot :=
      (hsame.resolve_left fun hne => hne (by omega)).symm
    exact hfollowing v (.of_fence h hawake hfence hproposer hother)

theorem keeps_heartbeat {message : Call m} {pulse : Pulse} (h : Inv sha W n v.toAuthority) :
    Keeps sha W n (heartbeat bounds message pulse) v := by
  unfold heartbeat
  simp only [wp_bind, wp_need, wp_get, wp_ite, wp_modify, wp_pure]
  refine ⟨fun _ => ⟨fun _ => ⟨fun _ => ?_, fun _ => keeps_reply h trivial⟩,
    fun _ => keeps_reply h trivial⟩, fun _ => h⟩
  refine (quiet_armElection _).mono (fun _ v1 h1 => ?_) fun _ v1 h1 => by rw [h1]; exact h
  exact keeps_reply (h1 ▸ h) trivial

/-- The store of a follower goes on. -/
theorem Follows.moves (h : Follows sha W n v) {s : Store m} (hs : Store.Moves sha W v.store s) :
    Inv sha W n { v.toAuthority with store := s } := by
  refine h.inv.moves hs fun hop => ?_
  rw [show v.operation = none from h.idle.operation] at hop
  cases hop

theorem keeps_installRequest {message : Call m} {bases : List (Basis m)}
    (h : Follows sha W n v) (hbases : ∀ b ∈ bases, Froze (W.put v.store) b) :
    Keeps sha W n (installRequest sha bounds message bases) v := by
  unfold installRequest
  simp only [wp_bind, wp_get, wp_need]
  refine ⟨fun _ => ?_, fun _ => h.inv⟩
  refine (quiet_lift v).mono (fun _ v1 h1 => ?_) fun _ v1 h1 => by rw [h1]; exact h.inv
  have hv1 := h.of_eq h1
  have hbases1 : ∀ b ∈ bases, Froze (W.put v1.store) b := by
    rw [congrArg Authority.store h1]
    exact hbases
  rw [wp_onStore]
  refine (Store.moves_prepare hv1.inv.store).mono (fun _ s hs => ?_) fun _ s hs => hv1.moves hs.1
  refine ⟨fun _ => ?_, fun _ => hv1.moves hs.1⟩
  have hv2 := hv1.moves hs.1
  have hW := hv1.inv.store.world hs.1.node hs.1.grows
  rw [wp_onStore]
  refine Wp.mono (Store.selecting_selectBases hs.1.holds fun b hb => (hbases1 b hb).mono hW)
    (fun chosen t ht => ?_) fun _ t ht => hv2.sameStore ht
  have hv3 := hv2.selecting hv1.idle.selection ht
  refine Wp.mono (wp_adopt ht.holds ht.selected ht.backed) (fun adopted v4 h4 => ?_)
    fun _ v4 h4 => ?_
  · obtain ⟨u, heq, hu, -⟩ := h4
    have hv4 : Inv sha W n v4.toAuthority := by
      rw [heq]
      refine hv3.moves hu fun hop => ?_
      rw [show v1.operation = none from hv1.idle.operation] at hop
      cases hop
    cases adopted with
    | true => exact keeps_reply hv4 trivial
    | false => exact keeps_reply hv4 trivial
  · obtain ⟨u, heq, hu⟩ := h4
    rw [heq]
    refine hv3.moves hu fun hop => ?_
    rw [show v1.operation = none from hv1.idle.operation] at hop
    cases hop

theorem keeps_perform {message : Call m} (h : Inv sha W n v.toAuthority) (hawake : Awake v)
    (hproposer : some message.sender = message.ballot.proposer)
    (hother : message.sender ≠ v.store.node) (hholds : message.request.Holds sha (W.put v.store)) :
    Keeps sha W n (perform sha bounds message) v := by
  unfold perform
  split
  · exact keeps_prepareRequest h hawake hproposer hother
  rename_i request hrequest
  simp only [wp_bind, wp_get, wp_ite, wp_onStore, Store.wp_promiseOf]
  refine ⟨fun _ => keeps_reply h trivial, fun hsame => ⟨fun _ => ⟨fun _ => keeps_reply h trivial,
    fun _ => ?_⟩, fun _ => h⟩⟩
  have hfence : v.fence = message.ballot := by simpa using hsame
  have hfollows : Follows sha W n v := .of_fence h hawake hfence hproposer hother
  cases hrequest : message.request with
  | prepare => exact h
  | install bases =>
    rw [hrequest] at hholds
    exact keeps_installRequest hfollows hholds
  | accept row =>
    rw [hrequest] at hholds
    simp only [wp_bind, wp_need, wp_onStore]
    refine ⟨fun hballot => ?_, fun _ => h⟩
    have hgrows : v.store.disk.Grows (v.store.accepting row).disk :=
      ⟨fun _ hx => List.mem_append_left _ hx, fun _ hx => hx, fun _ hx => hx, le_refl _⟩
    refine Wp.mono (Store.accepting_acceptRow h.store (fun _ => ?_)
      (Proposed.mono (h.store.world (t := v.store.accepting row) rfl hgrows) hholds))
      (fun receipt s hs => ?_) fun _ s hs => h.sameStore hs
    · -- the proposer has accepted the row itself
      obtain ⟨w, -, hrow⟩ := hholds
      exact ((h.store.lawful.supported w).votes row hrow).1
    · obtain ⟨hs, hreceipt⟩ := hs
      refine keeps_reply (h.accepting hs fun howner => ?_) ?_
      · rw [hballot, ← hproposer] at howner
        exact absurd (Option.some.inj howner) hother
      · intro u b i d heq
        obtain ⟨-, rfl, rfl, rfl, rfl⟩ := sha.receipt_injective (hreceipt.symm.trans heq)
        refine ⟨row, ?_, rfl, rfl, rfl⟩
        show row ∈ (W.put s v.store.node).voted
        rw [← hs.node, hs.holds.own]
        exact hs.row
  | proof row =>
    rw [hrequest] at hholds
    simp only [wp_bind, wp_need, wp_onStore]
    refine ⟨fun hballot => ?_, fun _ => h⟩
    refine Wp.mono (Store.moves_proveRow h.store hholds) (fun receipt s hs => ?_) fun _ s hs => ?_
    · have hv1 := hfollows.moves hs.1
      refine (quiet_proven _).mono (fun _ v2 h2 => ?_) fun _ v2 h2 => by rw [h2]; exact hv1
      exact keeps_reply (h2 ▸ hv1) trivial
    · exact h.sameStore hs
  | heartbeat pulse => exact keeps_heartbeat h

/-! ### Responses -/

/-- The promise quorum of a campaign selects a prefix; where it cannot, the campaign is given up. -/
theorem wp_prepared {sender : Node} {basis : Basis m} {c : Ballot} (h : Inv sha W n v.toAuthority)
    (hroom : v.actions.length < maxActions) (hc : v.campaign = some c)
    (hpromise : v.store.promise = c) (hbasis : Froze (W.put v.store) basis) :
    Wp (prepared sha bounds sender basis) v (fun _ v' => Inv sha W n v'.toAuthority)
      fun _ v' => Failing sha W n v'.toAuthority := by
  unfold prepared
  simp only [wp_bind, wp_get, wp_ite, wp_pure]
  refine ⟨fun hcandidate => ?_, fun _ => h⟩
  have hselection := h.candidate hcandidate
  have hnone : v.operation = none := by
    rw [Option.eq_none_iff_forall_not_mem]
    intro op hop
    have hstate := (h.operating op hop).1
    rw [hcandidate] at hstate
    simp at hstate
  simp only [wp_need]
  refine ⟨fun _ => ?_, fun _ => .of_inv h⟩
  split
  · exact .of_inv h
  rename_i own hown
  simp only [wp_bind, wp_capacity, wp_onStore]
  refine ⟨fun _ => ?_, fun _ => .of_inv h⟩
  have hbases : ∀ b ∈ [own, basis], Froze (W.put v.store) b := by
    have := (h.ownBasis own hown).2
    simpa using ⟨this, hbasis⟩
  refine Wp.mono (Store.selecting_selectBases h.store hbases) (fun chosen s hs => ?_)
    fun _ s hs => .of_inv (h.sameStore hs)
  simp only [wp_modify]
  have hfilter : ∀ p ∈ v.exchanges.filter fun p => p.message.request.kind ≠ .prepare,
      ∃ q ∈ v.exchanges, p.message = q.message :=
    fun p hp => ⟨p, List.mem_of_mem_filter hp, rfl⟩
  have hselected : Secure sha W n { v.toAuthority with
      store := s, selection := some chosen
      exchanges := v.exchanges.filter fun p => p.message.request.kind ≠ .prepare } := by
    have hv1 := ((h.selecting hselection hs).withExchanges hfilter).toSecure
    exact ⟨hv1.node, hv1.store, hv1.actions, hv1.exchanges, hv1.publication, hv1.tally, hv1.done, hv1.votes,
      hv1.operation⟩
  refine Wp.mono (wp_adopt hs.holds hs.selected hs.backed) (fun adopted v2 h2 => ?_)
    fun _ v2 h2 => ?_
  · obtain ⟨t, heq, ht, hle⟩ := h2
    cases adopted with
    | true =>
      simp only [wp_bind, wp_modify, if_true]
      have hrecovering := h.recover hcandidate hc hpromise hs ht (hle rfl) hnone hfilter
      have hv2 : Inv sha W n { v2.toAuthority with state := .recovering } := by
        rw [heq]
        exact hrecovering
      refine (quiet_progress _).mono (fun _ v3 h3 => ?_)
        fun _ v3 h3 => by rw [h3]; exact .of_inv hv2
      have hbases : Request.Holds sha (W.put t) (.install chosen.bases) :=
        fun basis hmem => (hs.froze hmem).mono (hs.holds.world ht.node ht.grows)
      refine Wp.mono (keeps_send (h3 ▸ hv2) ?_) (fun _ _ h4 => h4) fun _ _ h4 => .of_inv h4
      rw [congrArg Authority.store h3]
      show Request.Holds sha (W.put v2.store) _
      rw [congrArg Authority.store heq]
      exact hbases
    | false =>
      have hv2 : Secure sha W n v2.toAuthority := by
        rw [heq]
        exact hselected.moves ht
      have hroom2 : v2.actions.length < maxActions := by
        rw [congrArg Authority.actions heq]
        exact hroom
      exact (wp_abandon hv2 (.inr hroom2)).mono (fun _ _ h3 => h3.inv) fun _ _ h3 => .of_inv h3
  · obtain ⟨t, heq, ht⟩ := h2
    refine ⟨?_, .inr ?_⟩
    · rw [heq]
      exact hselected.moves ht
    · rw [congrArg Authority.actions heq]
      exact hroom

/-- The carried value or a no-op is put to the vote above the selected prefix. -/
theorem keeps_installed {digest : D} (h : Inv sha W n v.toAuthority) :
    Keeps sha W n (installed sha bounds digest) v := by
  unfold installed
  simp only [wp_bind, wp_get, wp_need]
  refine ⟨fun hstate => ?_, fun _ => h⟩
  split
  · exact h
  rename_i chosen hchosen
  simp only [wp_bind, wp_need]
  refine ⟨fun _ => ?_, fun _ => h⟩
  refine (quiet_progress v).mono (fun _ v1 h1 => ?_) fun _ v1 h1 => by rw [h1]; exact h
  have hv1 : Inv sha W n v1.toAuthority := h1 ▸ h
  have hstate1 : v1.state = .recovering := (congrArg Authority.state h1).trans hstate
  split
  · exact keeps_recommit hv1 (.inl hstate1)
  · rename_i carried hcarried
    refine keeps_commit hv1 ⟨.inl hstate1, fun d hd => ?_, by simp, fun _ => rfl⟩
    rw [congrArg Authority.selection h1] at hd
    cases hchosen.symm.trans hd
    obtain ⟨-, c, -, a, b, hselects, -⟩ := h.selection chosen hchosen
    have := (hselects.source hcarried).2
    omega

/-- An accepted response to a request of the current campaign, whose ballot is still promised. -/
theorem wp_acknowledged {request : Call m} {sender : Node} {c : Ballot} {r : Response m}
    (h : Inv sha W n v.toAuthority) (hroom : v.actions.length < maxActions)
    (hc : v.campaign = some c) (hpromise : v.store.promise = c)
    (hr : r.Holds sha (W.put v.store)) :
    Wp (acknowledged sha bounds request sender r) v (fun _ v' => Inv sha W n v'.toAuthority)
      fun _ v' => Failing sha W n v'.toAuthority := by
  have hkeeps : ∀ {x : Exec m Unit}, Keeps sha W n x v →
      Wp x v (fun _ v' => Inv sha W n v'.toAuthority) fun _ v' => Failing sha W n v'.toAuthority :=
    fun hx => hx.mono (fun _ _ h1 => h1) fun _ _ h1 => .of_inv h1
  cases r with
  | refused kind reason => exact h
  | prepared basis => exact wp_prepared h hroom hc hpromise hr
  | installed digest => exact hkeeps (keeps_installed h)
  | accepted receipt => exact wp_accepted h hroom hr
  | proven receipt => exact hkeeps (keeps_proved h)
  | beaten sequence =>
    refine hkeeps ?_
    simp only [acknowledged]
    split
    · simp only [wp_need]
      exact ⟨fun _ => h, fun _ => h⟩
    · exact h

theorem keeps_response {r : Reply m} (h : Inv sha W n v.toAuthority)
    (hroom : v.actions.length ≤ maxActions - 8) (hr : r.response.Holds sha (W.put v.store)) :
    Keeps sha W n (response sha bounds r) v := by
  unfold response
  simp only [wp_bind, wp_get]
  split
  · exact h
  rename_i pending hpending
  simp only [wp_bind, wp_need, wp_get, wp_ite, wp_modify, wp_pure]
  refine ⟨fun _ => ⟨fun _ => (settles_exchangeFailed h).keeps, fun _ => ⟨fun _ => keeps_abandon h,
    fun _ => ⟨fun _ => ?_, fun _ => ⟨fun _ => (settles_exchangeFailed h).keeps, fun _ => ?_⟩⟩⟩⟩,
    fun _ => h⟩
  · refine (wp_abandon (v := { v with maxEpoch := max v.maxEpoch r.promised.epoch }) h.toSecure
      (.inl h)).mono (fun _ _ h1 => h1.inv.withFence h1.idle) fun _ _ h1 => h1
  · simp only [removeExchange, wp_modify]
    have hremoved : Inv sha W n { v.toAuthority with
        exchanges := v.exchanges.filter fun p => p.message.id ≠ r.id } :=
      h.withExchanges fun p hp => ⟨p, List.mem_of_mem_filter hp, rfl⟩
    refine ⟨fun _ => ⟨fun _ => hremoved, fun hcampaign => ?_⟩, fun _ => h⟩
    simp only [wp_onStore, Store.wp_promiseOf]
    refine ⟨fun _ => ⟨fun _ => hremoved, fun hpromise => ?_⟩, fun _ => hremoved⟩
    refine Wp.tryCatch (wp_acknowledged hremoved ?_ (by simpa using hcampaign)
      (by simpa using hpromise) hr) fun e v2 h2 => ?_
    · exact hroom.trans_lt (by decide)
    · exact (wp_fail h2.1 h2.2).mono (fun _ _ h3 => h3.1) fun _ _ h3 => h3

theorem keeps_receive {message : Message m} {time : ℕ} (h : Inv sha W n v.toAuthority)
    (hholds : message.Holds sha (W.put v.store)) : Keeps sha W n (receive sha bounds message time) v := by
  unfold receive
  refine quiet_clock.bind h fun _ v1 h1 => ?_
  have hv1 : Inv sha W n v1.toAuthority := h1 ▸ h
  have hholds1 : message.Holds sha (W.put v1.store) := by
    rw [congrArg Authority.store h1]
    exact hholds
  simp only [wp_bind, wp_room]
  refine ⟨fun hroom => ?_, fun _ => hv1⟩
  split
  · rename_i r
    simp only [endpoint, wp_bind, wp_get, wp_need]
    exact ⟨fun _ => ⟨fun _ => keeps_response hv1 hroom hholds1, fun _ => hv1⟩, fun _ => hv1⟩
  · rename_i call
    simp only [endpoint, wp_bind, wp_get, wp_need, wp_ite]
    refine ⟨fun hpeer => ⟨fun _ => ⟨fun hproposer => ⟨fun _ => keeps_reply hv1 trivial,
      fun hactive => ?_⟩, fun _ => hv1⟩, fun _ => hv1⟩, fun _ => hv1⟩
    have hother : call.sender ≠ v1.store.node := by
      simpa using List.of_mem_filter hpeer.1
    refine Wp.tryCatch (keeps_perform hv1 (State.awake hactive) hproposer hother hholds1)
      fun e v2 h2 => ?_
    simp only [wp_bind, wp_get, wp_ite, wp_pure]
    refine ⟨fun _ => ?_, fun _ => keeps_reply h2 trivial⟩
    exact (keeps_fail h2).mono (fun _ _ h3 => keeps_reply h3 trivial) fun _ _ h3 => h3

end Protocol

end GeneralSearch.Replication
