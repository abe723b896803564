import GeneralSearch.Replication.Group
import GeneralSearch.Replication.Prepares

/-! A PREPARE that waits for the application image: what finishes it, and the runs in which each
one is finished. -/

namespace GeneralSearch.Replication

open Lib

variable {D : Type} {m : Manifest D}

/-- Nothing of a campaign is left. -/
def Resting (b : Burden m) : Prop :=
  b.campaign = none ∧ b.operation = none ∧ b.exchanges = []

/-- The voter has failed with a PREPARE left over, or is closed. -/
structure Dormant (b : Burden m) : Prop where
  resting : Resting b
  state : b.state = .failed ∧ b.preparing.isSome ∨ b.state = .closed

theorem Dormant.inactive {b : Burden m} (h : Dormant b) : b.state = .failed ∨ b.state = .closed :=
  h.state.imp_left And.left

/-- The PREPARE is taken in, and nothing has overtaken it. -/
structure Taken (message : Call m) (b : Burden m) : Prop where
  resting : Resting b
  preparing : b.preparing = some message
  state : b.state = .follower
  fence : b.fence = message.ballot
  kind : message.request.kind = .prepare

/-- The PREPARE waits for a reconstruction, which is under way. -/
structure Held (message : Call m) (b : Burden m) : Prop extends Taken message b where
  continuation : b.imageContinuation = some (.prepare message)
  reconstruction : b.reconstruction.isSome

/-- The PREPARE is held, and these were received and answered. -/
structure Waits (message : Call m) (received replied : List (Call m)) (b : Burden m) : Prop where
  held : Held message b
  received : b.received = received
  replied : b.replied = replied

/-- The PREPARE is answered, as the only one since. -/
structure Finished (message : Call m) (received replied : List (Call m)) (b : Burden m) : Prop where
  preparing : b.preparing = none
  received : b.received = received
  replied : b.replied = replied ++ [message]

/-- The PREPAREs that are still to be answered: the one that is held, if any. -/
def Owed (pending : List (Call m)) (b : Burden m) : Prop :=
  (pending = [] ∧ b.preparing = none) ∨ ∃ message, pending = [message] ∧ Held message b

/-- All other PREPAREs that were taken in are answered once. -/
structure Balanced (pending : List (Call m)) (b : Burden m) : Prop where
  owed : Owed pending b
  perm : b.received.Perm (b.replied ++ pending)

/-- Every PREPARE that was taken in is answered once, or held. -/
def Due (b : Burden m) : Prop := Dormant b ∨ ∃ pending, Balanced pending b

theorem Due.of_nothing {b : Burden m} (hnone : b.preparing = none)
    (hperm : b.received.Perm b.replied) : Due b := by
  refine .inr ⟨[], .inl ⟨rfl, hnone⟩, ?_⟩
  rw [List.append_nil]
  exact hperm

theorem Unburdened.due {received replied : List (Call m)} {b : Burden m}
    (h : Unburdened received replied b) (hperm : received.Perm replied) : Due b := by
  obtain ⟨hnone, rfl, rfl⟩ := h
  exact .of_nothing hnone hperm

theorem Owed.nil_of_nothing {pending : List (Call m)} {b : Burden m} (h : Owed pending b)
    (hnone : b.preparing = none) : pending = [] := by
  obtain ⟨hnil, -⟩ | ⟨message, -, hheld⟩ := h
  · exact hnil
  · cases hnone.symm.trans hheld.preparing

theorem Balanced.perm_of_nothing {pending : List (Call m)} {b : Burden m} (h : Balanced pending b)
    (hnone : b.preparing = none) : b.received.Perm b.replied := by
  have hperm := h.perm
  rw [h.owed.nil_of_nothing hnone, List.append_nil] at hperm
  exact hperm

theorem Waits.due {message : Call m} {received replied : List (Call m)} {b : Burden m}
    (h : Waits message received replied b) (hperm : received.Perm (replied ++ [message])) : Due b := by
  refine .inr ⟨[message], .inr ⟨message, rfl, h.held⟩, ?_⟩
  rw [h.received, h.replied]
  exact hperm

/-- The longest time until an election. -/
def Bounds.patience (bounds : Bounds m) : ℕ :=
  max bounds.minElectionTimeoutMillis bounds.maxElectionTimeoutMillis

/-- The election timer can be set. -/
def Ready (bounds : Bounds m) (v : Voter m) : Prop := v.now + bounds.patience ≤ maxLong

/-- The application image is there, is being rebuilt, or can be. -/
def Fed (bounds : Bounds m) (v : Voter m) : Prop :=
  v.imageIndex = some v.store.provenThrough ∨ v.reconstruction.isSome ∨
    v.serial < maxLong ∧ bounds.replayed v.store.base
      ((v.store.accepted.take v.store.proven.length).map fun slot => slot.latest.entry) = true

namespace Protocol

variable {bounds : Bounds m} {v v' : Voter m} {α : Type} {received replied : List (Call m)}
  {E : Failure → Voter m → Prop}

/-! ### What does not throw -/

theorem sure_emit {a : Action m} (hroom : v.actions.length < maxActions) : Wp (emit a) v
    (fun _ v' => ∃ tripped, v' = { v with tripped, actions := v.actions ++ [a] }) E := by
  simp only [emit, guarded, wp_bind, wp_get, wp_modify, wp_capacity]
  exact ⟨fun _ => ⟨_, rfl⟩, fun hfalse => absurd hroom hfalse⟩

theorem sure_armElection (h : Ready bounds v) : Wp (armElection bounds) v
    (fun _ v' => ∃ randomness electionAt, v' = { v with randomness, electionAt }) E := by
  simp only [armElection, after, wp_bind, wp_get, wp_modify, wp_capacity, wp_pure]
  refine ⟨fun _ => ⟨_, _, rfl⟩, fun hfalse => absurd ?_ hfalse⟩
  set width := bounds.maxElectionTimeoutMillis - bounds.minElectionTimeoutMillis + 1
  have hdraw : v.randomness 0 % (width : ℤ) < width := Int.emod_lt_of_pos _ (by omega)
  unfold Ready Bounds.patience at h
  omega

/-- What giving up a campaign changes. -/
structure Dropped (v v' : Voter m) : Prop where
  burden : v'.burden = { v.burden with
    state := .unavailable, campaign := none, operation := none, exchanges := []
    imageContinuation := none }
  now : v'.now = v.now
  store : v'.store = v.store
  serial : v'.serial = v.serial
  imageIndex : v'.imageIndex = v.imageIndex
  actions : v'.actions.length ≤ v.actions.length + 1

theorem sure_indeterminate {reason : Reason} (hroom : v.actions.length < maxActions) :
    Wp (indeterminate reason) v (fun _ v' => ∃ tripped actions trace,
      v' = { v with tripped, actions, trace } ∧ actions.length ≤ v.actions.length + 1) E := by
  unfold indeterminate
  simp only [wp_bind, wp_get]
  split
  · exact ⟨_, _, _, rfl, Nat.le_succ _⟩
  · simp only [wp_ite, wp_pure, complete, mark, wp_bind, wp_modify]
    refine ⟨fun _ => ⟨_, _, _, rfl, Nat.le_succ _⟩, fun _ => (sure_emit hroom).mono ?_ fun _ _ h => h⟩
    rintro _ _ ⟨tripped, rfl⟩
    exact ⟨_, _, _, rfl, by simp⟩

theorem sure_abandon {reason : Reason} (h : Ready bounds v) (hroom : v.actions.length < maxActions) :
    Wp (abandon bounds reason) v (fun _ v' => Dropped v v') E := by
  simp only [abandon, wp_bind, wp_modify]
  refine Wp.mono (sure_indeterminate ?_) ?_ fun _ _ h => h
  · exact hroom
  · rintro _ _ ⟨tripped, actions, trace, rfl, hactions⟩
    refine Wp.mono (sure_armElection ?_) ?_ fun _ _ h => h
    · exact h
    · rintro _ _ ⟨randomness, electionAt, rfl⟩
      exact ⟨rfl, rfl, rfl, rfl, rfl, (List.length_filter_le _ _).trans hactions⟩

/-- What a failure changes. -/
structure Stopped (v v' : Voter m) : Prop where
  resting : Resting v'.burden
  state : v'.state = .failed
  preparing : v'.preparing = v.preparing
  received : v'.received = v.received
  replied : v'.replied = v.replied
  actions : v'.actions.length ≤ v.actions.length + 1

theorem Stopped.dormant (h : Stopped v v') (hsome : v.preparing.isSome) : Dormant v'.burden := by
  refine ⟨h.resting, .inl ⟨h.state, ?_⟩⟩
  show v'.preparing.isSome
  rw [h.preparing]
  exact hsome

theorem sure_fail {reason : Reason} (h : Ready bounds v) (hroom : v.actions.length < maxActions) :
    Wp (fail bounds reason) v (fun _ v' => Stopped v v') E := by
  unfold fail
  refine Wp.bind (sure_abandon h hroom) fun _ v1 h1 => ?_
  exact ⟨⟨congrArg Burden.campaign h1.burden, congrArg Burden.operation h1.burden,
    congrArg Burden.exchanges h1.burden⟩, rfl, congrArg Burden.preparing h1.burden,
    congrArg Burden.received h1.burden, congrArg Burden.replied h1.burden, h1.actions⟩

theorem sure_reply {request : Call m} {response : Response m}
    (hroom : v.actions.length < maxActions) : Wp (reply request response) v
      (fun _ v' => ∃ tripped actions, v' = { v with
          tripped, actions
          replied := if request.request.kind = .prepare then v.replied ++ [request] else v.replied } ∧
        actions.length = v.actions.length + 1) E := by
  simp only [reply, wp_bind, wp_get, wp_modify]
  refine (sure_emit hroom).mono ?_ fun _ _ h => h
  rintro _ _ ⟨tripped, rfl⟩
  exact ⟨_, _, rfl, by simp⟩

theorem sure_onStore {x : Store.Exec m α} : Wp (onStore x) v
    (fun _ v' => ∃ s, v' = { v with store := s }) fun _ v' => ∃ s, v' = { v with store := s } := by
  rw [wp_onStore]
  exact .of_results (fun _ s _ => ⟨s, rfl⟩) fun _ s _ => ⟨s, rfl⟩

/-! ### What finishes a PREPARE -/

variable [DecidableEq D] {sha : Sha m} {message : Call m}

theorem finished_prepareReady (h : Taken message v.burden) (hready : Ready bounds v)
    (hroom : v.actions.length + 2 ≤ maxActions) : Wp (prepareReady sha bounds message) v
      (fun _ v' => Finished message v.received v.replied v'.burden) E := by
  unfold prepareReady
  simp only [wp_bind, wp_get, wp_ite, wp_pure]
  refine ⟨fun _ => ?_, fun hfalse => absurd ⟨h.preparing, h.fence⟩ hfalse⟩
  refine Wp.tryCatch (I := fun _ (v' : Voter m) => Ready bounds v' ∧ v'.actions = v.actions ∧
    v'.received = v.received ∧ v'.replied = v.replied) ?_ ?_
  · simp only [wp_bind, wp_modify]
    refine sure_onStore.mono ?_ ?_
    · rintro basis _ ⟨s, rfl⟩
      refine sure_onStore.mono ?_ ?_
      · rintro promised _ ⟨s, rfl⟩
        refine Wp.mono (sure_armElection ?_) ?_ fun _ _ h => h
        · exact hready
        · rintro _ _ ⟨randomness, electionAt, rfl⟩
          refine Wp.mono (sure_reply ?_) ?_ fun _ _ h => h
          · show v.actions.length < maxActions
            omega
          · rintro _ _ ⟨tripped, actions, rfl, -⟩
            exact ⟨rfl, rfl, if_pos h.kind⟩
      · rintro e _ ⟨s, rfl⟩
        exact ⟨hready, rfl, rfl, rfl⟩
    · rintro e _ ⟨s, rfl⟩
      exact ⟨hready, rfl, rfl, rfl⟩
  · rintro e v1 ⟨hready1, hactions, hreceived, hreplied⟩
    simp only [wp_bind, wp_modify]
    refine Wp.mono (sure_fail ?_ ?_) ?_ fun _ _ h => h
    · exact hready1
    · show v1.actions.length < maxActions
      rw [hactions]
      omega
    · intro _ v2 hstopped
      have hactions2 : v2.actions.length ≤ v1.actions.length + 1 := hstopped.actions
      rw [hactions] at hactions2
      refine Wp.mono (sure_reply ?_) ?_ fun _ _ h => h
      · omega
      · rintro _ _ ⟨tripped, actions, rfl, -⟩
        refine ⟨hstopped.preparing, hstopped.received.trans hreceived, (if_pos h.kind).trans ?_⟩
        rw [hstopped.replied, hreplied]

/-- The PREPARE waits for a reconstruction, through the proven prefix if it is a new one. -/
structure Requested (message : Call m) (v v' : Voter m) : Prop where
  held : Held message v'.burden
  received : v'.received = v.received
  replied : v'.replied = v.replied
  fresh : v.reconstruction = none → v.imageIndex ≠ some v.store.provenThrough ∧
    ∃ id replay, v'.reconstruction = some (id, replay) ∧ replay.through = v'.store.provenThrough

/-- The PREPARE is answered now, or waits. -/
theorem requested_withImage (message : Call m) (h : Taken message v.burden) (hready : Ready bounds v)
    (hroom : v.actions.length + 2 ≤ maxActions) :
    Wp (withImage sha bounds (.prepare message)) v
      (fun _ v' => Finished message v.received v.replied v'.burden ∨ Requested message v v')
      fun _ v' => Ready bounds v' ∧ v'.preparing = v.preparing ∧ v'.actions = v.actions ∧
        v'.store = v.store ∧ (Fed bounds v → v'.store.failed = true) := by
  unfold withImage
  simp only [proven, Store.status, wp_bind, wp_modify, wp_onStore, Store.wp_usable, wp_get, wp_pure,
    wp_ite]
  refine ⟨fun _ => ⟨fun hindex => ?_, fun hindex => ⟨fun hnone => ?_, fun hsome => ?_⟩⟩,
    fun hfailed => ⟨hready, trivial, trivial, trivial, fun _ => hfailed⟩⟩
  · refine (finished_prepareReady ?_ ?_ ?_).mono (fun _ _ h => .inl h) fun _ _ h => h
    · exact ⟨h.resting, h.preparing, h.state,
        h.fence, h.kind⟩
    · exact hready
    · exact hroom
  · have hnone' : v.reconstruction = none := Option.isNone_iff_eq_none.mp hnone
    simp only [nextId, Store.replay, wp_bind, wp_get, wp_capacity, wp_modify, wp_pure,
      Store.wp_usable]
    have hstuck : ∀ {s : Voter m}, ¬(v.serial < maxLong ∧ bounds.replayed v.store.base
        ((v.store.accepted.take v.store.proven.length).map fun slot => slot.latest.entry) = true) →
        Fed bounds v → s.store.failed = true := by
      rintro s hserial (hthrough | hsome | hfed)
      · exact absurd hthrough hindex
      · rw [hnone'] at hsome
        cases hsome
      · exact absurd hfed hserial
    refine ⟨fun _ => ⟨fun _ => ⟨fun _ => ?_, fun hbound => ⟨hready, trivial, trivial, trivial,
        hstuck fun h => hbound h.2⟩⟩,
      fun hfailed => ⟨hready, trivial, trivial, trivial, fun _ => hfailed⟩⟩,
      fun hserial => ⟨hready, trivial, trivial, trivial, hstuck fun h => hserial h.1⟩⟩
    refine Wp.mono (sure_emit ?_) ?_ fun _ _ h => h
    · show v.actions.length < maxActions
      omega
    · rintro _ _ ⟨tripped, rfl⟩
      refine .inr ⟨⟨⟨h.resting, h.preparing,
        h.state, h.fence, h.kind⟩, rfl, rfl⟩, rfl, rfl, fun _ => ⟨hindex, _, _, rfl, rfl⟩⟩
  · refine .inr ⟨⟨⟨h.resting, h.preparing,
      h.state, h.fence, h.kind⟩, rfl, ?_⟩, rfl, rfl, fun hnone => ?_⟩
    · exact Option.isSome_iff_ne_none.mpr fun hnone => hsome (Option.isNone_iff_eq_none.mpr hnone)
    · exact absurd (Option.isNone_iff_eq_none.mpr hnone) hsome

/-- The prefix has grown since the reconstruction was asked for, and another one is. -/
structure Renewed (message : Call m) (replay : Replay m) (v v' : Voter m) : Prop where
  held : Held message v'.burden
  received : v'.received = v.received
  replied : v'.replied = v.replied
  stale : replay.through ≠ v.store.provenThrough
  fresh : ∃ id replay', v'.reconstruction = some (id, replay') ∧
    replay'.through = v'.store.provenThrough

/-- The end of the reconstruction answers the PREPARE, unless the prefix has grown meanwhile. -/
theorem held_reconstructed {id time : ℕ} {application : Option Bytes} (h : Held message v.burden)
    (hready : time + bounds.patience ≤ maxLong)
    (himage : ∀ image ∈ application, image.length ≤ 67108864) :
    Wp (reconstructed sha bounds id application time) v
      (fun _ v' => ∃ replay, v.reconstruction = some (id, replay) ∧
        ((Dormant v'.burden ∨ Finished message v.received v.replied v'.burden) ∨
          Renewed message replay v v'))
      fun _ v' => v'.burden = v.burden ∧ (v.now ≤ time → v.actions.length ≤ maxActions - 8 →
        ∀ r ∈ v.reconstruction, r.1 ≠ id) := by
  unfold reconstructed
  simp only [clock, room, wp_bind, wp_get, wp_need, wp_modify, wp_capacity]
  refine ⟨fun hclock => ⟨fun hroom => ?_, fun hroom => ⟨rfl, fun _ h => absurd h hroom⟩⟩,
    fun hclock => ⟨trivial, fun h => absurd h hclock⟩⟩
  have hfull : v.actions.length + 2 ≤ maxActions := by
    unfold maxActions at hroom ⊢
    omega
  have hstate : v.state = .follower := h.state
  obtain ⟨⟨id', replay⟩, hsome⟩ := Option.isSome_iff_exists.mp h.reconstruction
  change v.reconstruction = some (id', replay) at hsome
  have hsome' : v.preparing.isSome := by
    rw [show v.preparing = some message from h.preparing]
    rfl
  simp only [hsome, wp_bind, wp_need, wp_get, wp_modify, wp_ite, wp_pure, hstate]
  refine ⟨?_, fun hid => ⟨?_, fun _ _ r hr => ?_⟩⟩
  · rintro rfl
    refine ⟨fun hfalse => by simp at hfalse, fun _ => ?_⟩
    cases application with
    | none =>
      refine Wp.mono (sure_fail ?_ ?_) ?_ fun _ _ h => h
      · exact hready
      · show v.actions.length < maxActions
        omega
      · exact fun _ _ hfail => ⟨replay, rfl, .inl (.inl (hfail.dormant hsome'))⟩
    | some image =>
      have hnext : v.imageContinuation = some (.prepare message) := h.continuation
      simp only [wp_bind, wp_capacity, wp_modify, hnext]
      refine ⟨fun _ => ?_, fun hlarge => absurd (himage image rfl) hlarge⟩
      refine Wp.tryCatch (I := fun _ (v' : Voter m) => Ready bounds v' ∧
        v'.preparing = v.preparing ∧ v'.actions = v.actions) ?_ ?_
      · refine Wp.mono (requested_withImage message ?_ ?_ ?_) ?_ ?_
        · exact ⟨h.resting, h.preparing,
            h.state, h.fence, h.kind⟩
        · exact hready
        · exact hfull
        · rintro _ v1 (hdone | hagain)
          · exact ⟨replay, rfl, .inl (.inr hdone)⟩
          · obtain ⟨hstale, hfresh⟩ := hagain.fresh rfl
            exact ⟨replay, rfl, .inr ⟨hagain.held, hagain.received, hagain.replied,
              fun heq => hstale (congrArg some heq), hfresh⟩⟩
        · rintro _ v1 ⟨hready1, hpreparing, hactions, -, -⟩
          exact ⟨hready1, hpreparing, hactions⟩
      · rintro e v1 ⟨hready1, hpreparing, hactions⟩
        refine Wp.mono (sure_fail ?_ ?_) ?_ fun _ _ h => h
        · exact hready1
        · rw [hactions]
          omega
        · exact fun _ _ hfail => ⟨replay, rfl, .inl (.inl (hfail.dormant (hpreparing ▸ hsome')))⟩
  · show { v.burden with reconstruction := some (id', replay) } = v.burden
    rw [← hsome]
    rfl
  · cases hr
    exact hid

/-! ### What takes a PREPARE in -/

omit [DecidableEq D] in
theorem owed_reply {pending : List (Call m)} {request : Call m} {response : Response m}
    (h : Owed pending v.burden) (hkind : request.request.kind = .prepare)
    (hperm : v.received.Perm (v.replied ++ pending ++ [request]))
    (hroom : v.actions.length < maxActions) :
    Wp (reply request response) v (fun _ v' => Due v'.burden) E := by
  refine Wp.mono (sure_reply hroom) ?_ fun _ _ h => h
  rintro _ _ ⟨tripped, actions, rfl, -⟩
  refine .inr ⟨pending, ?_, ?_⟩
  · obtain ⟨hnil, hnone⟩ | ⟨message, hmessage, hheld⟩ := h
    · exact .inl ⟨hnil, hnone⟩
    · exact .inr ⟨message, hmessage, ⟨hheld.resting, hheld.preparing, hheld.state, hheld.fence,
        hheld.kind⟩, hheld.continuation, hheld.reconstruction⟩
  · show v.received.Perm ((if _ then _ else _) ++ pending)
    rw [if_pos hkind]
    refine hperm.trans ?_
    rw [List.append_assoc, List.append_assoc]
    exact List.Perm.append_left _ List.perm_append_comm

theorem due_taken {call : Call m} (hresting : Resting v.burden) (hfence : v.fence = call.ballot)
    (hkind : call.request.kind = .prepare) (hperm : v.received.Perm (v.replied ++ [call]))
    (hready : Ready bounds v) (hfed : v.store.failed = false → Fed bounds v)
    (hroom : v.actions.length + 2 ≤ maxActions) :
    Wp (withImage sha bounds (.prepare call))
      { v with state := .follower, preparing := some call } (fun _ v' => Due v'.burden)
      fun _ v' => Ready bounds v' ∧ v'.preparing.isSome ∧ v'.actions = v.actions ∧
        v'.store.failed = true := by
  refine Wp.mono (requested_withImage call ?_ ?_ ?_) ?_ ?_
  · exact ⟨hresting, rfl, rfl, hfence, hkind⟩
  · exact hready
  · exact hroom
  · rintro _ v1 (hfinished | hrequested)
    · refine .of_nothing hfinished.preparing ?_
      rw [hfinished.received, hfinished.replied]
      exact hperm
    · refine .inr ⟨[call], .inr ⟨call, rfl, hrequested.held⟩, ?_⟩
      show v1.received.Perm (v1.replied ++ [call])
      rw [hrequested.received, hrequested.replied]
      exact hperm
  · rintro _ v1 ⟨hready1, hpreparing, hactions, hstore, hstuck⟩
    refine ⟨hready1, by rw [hpreparing]; rfl, hactions, ?_⟩
    cases hfailed : v.store.failed with
    | true =>
      rw [hstore]
      exact hfailed
    | false => exact hstuck (hfed hfailed)

omit [DecidableEq D] in
/-- A higher fence refuses what is held, and keeps what the next PREPARE needs. -/
theorem owed_raiseFence {pending : List (Call m)} {ballot : Ballot} (h : Owed pending v.burden)
    (hready : Ready bounds v) (hroom : v.actions.length + 2 ≤ maxActions) :
    Wp (raiseFence bounds ballot) v (fun _ v' =>
      (Resting v'.burden ∧ v'.fence = ballot ∧ v'.preparing = none) ∧
      (v'.received = v.received ∧ v'.replied = v.replied ++ pending) ∧
      (Ready bounds v' ∧ v'.store = v.store ∧ (Fed bounds v → Fed bounds v')) ∧
      v'.actions.length ≤ v.actions.length + 2) E := by
  unfold raiseFence
  refine Wp.bind (sure_abandon hready (by omega)) fun _ v1 h1 => ?_
  have hpreparing : v1.preparing = v.preparing := congrArg Burden.preparing h1.burden
  have hreceived : v1.received = v.received := congrArg Burden.received h1.burden
  have hreplied : v1.replied = v.replied := congrArg Burden.replied h1.burden
  have hreconstruction : v1.reconstruction = v.reconstruction :=
    congrArg Burden.reconstruction h1.burden
  have hresting : Resting v1.burden := ⟨congrArg Burden.campaign h1.burden,
    congrArg Burden.operation h1.burden, congrArg Burden.exchanges h1.burden⟩
  have hactions := h1.actions
  have hready1 : Ready bounds v1 := by
    unfold Ready
    rw [h1.now]
    exact hready
  have hfed : Fed bounds v → Fed bounds v1 := by
    unfold Fed
    rw [h1.imageIndex, h1.store, h1.serial, hreconstruction]
    exact id
  simp only [wp_bind, wp_modify, wp_get]
  obtain ⟨hnil, hnone⟩ | ⟨old, hold, hheld⟩ := h
  · have hnone1 : v1.preparing = none := hpreparing.trans hnone
    simp only [hnone1, wp_pure]
    refine ⟨⟨hresting, trivial, trivial⟩, ⟨hreceived, ?_⟩, ⟨hready1, h1.store, hfed⟩, by omega⟩
    rw [hreplied, hnil, List.append_nil]
  · have hsome1 : v1.preparing = some old := hpreparing.trans hheld.preparing
    simp only [hsome1, wp_bind, wp_modify]
    refine Wp.mono (sure_reply ?_) ?_ fun _ _ h => h
    · show v1.actions.length < maxActions
      omega
    · rintro _ _ ⟨tripped, actions, rfl, hlength⟩
      change actions.length = v1.actions.length + 1 at hlength
      refine ⟨⟨hresting, rfl, trivial⟩, ⟨hreceived, ?_⟩, ⟨hready1, h1.store, hfed⟩, ?_⟩
      · show (if _ then v1.replied ++ [old] else _) = _
        rw [if_pos hheld.kind, hreplied, hold]
      · show actions.length ≤ _
        omega

theorem due_prepare {pending : List (Call m)} {call : Call m} (h : Owed pending v.burden)
    (hkind : call.request.kind = .prepare)
    (hperm : v.received.Perm (v.replied ++ pending ++ [call]))
    (hidle : call.ballot = v.fence → Resting v.burden) (hready : Ready bounds v)
    (hfed : v.fence.epoch < call.ballot.epoch ∨ call.ballot = v.fence ∧ v.preparing = none →
      v.store.failed = false → Fed bounds v) (hroom : v.actions.length + 4 ≤ maxActions) :
    Wp (prepare sha bounds call) v (fun _ v' => Due v'.burden)
      fun _ v' => Ready bounds v' ∧ v'.actions.length ≤ v.actions.length + 2 ∧
        (v'.store.failed = true ∧ v'.preparing.isSome ∨ v'.burden = v.burden) := by
  unfold prepare
  simp only [wp_bind, wp_get, wp_ite, wp_need, wp_pure, wp_modify]
  refine ⟨fun _ => owed_reply h hkind hperm (by omega), fun hle => ⟨fun hsame => ⟨fun hlt => ?_,
    fun hge => ⟨fun _ => owed_reply h hkind hperm (by omega), fun hnone => ?_⟩⟩,
    fun _ => ⟨hready, Nat.le_add_right _ _, .inr trivial⟩⟩⟩
  · refine (owed_raiseFence h hready (by omega)).mono ?_ fun _ _ h => h
    rintro _ v1 ⟨⟨hresting, hfence, hnone⟩, ⟨hreceived, hreplied⟩, ⟨hready1, hstore, hfed1⟩, hactions⟩
    refine ⟨fun hsome => ?_, fun _ => ?_⟩
    · rw [hnone] at hsome
      cases hsome
    · refine (due_taken hresting hfence hkind ?_ hready1 ?_ (by omega)).mono (fun _ _ h2 => h2) ?_
      · rw [hreceived, hreplied]
        exact hperm
      · rw [hstore]
        exact fun hfailed => hfed1 (hfed (.inl hlt) hfailed)
      · rintro _ v2 ⟨hready2, hsome, hactions2, hfailed⟩
        refine ⟨hready2, ?_, .inl ⟨hfailed, hsome⟩⟩
        rw [hactions2]
        exact hactions
  · have hfence : call.ballot = v.fence := hsame.resolve_left (by omega)
    have hnone' : v.preparing = none := by simpa using hnone
    have hpending : pending = [] := h.nil_of_nothing hnone'
    refine (due_taken (hidle hfence) hfence.symm hkind ?_ hready ?_ (by omega)).mono
      (fun _ _ h2 => h2) ?_
    · rw [hpending, List.append_nil] at hperm
      exact hperm
    · exact hfed (.inr ⟨hfence, hnone'⟩)
    · rintro _ v2 ⟨hready2, hsome, hactions2, hfailed⟩
      refine ⟨hready2, ?_, .inl ⟨hfailed, hsome⟩⟩
      rw [hactions2]
      exact Nat.le_add_right _ _

/-! ### Without a campaign -/

section

variable {P : Burden m → Prop}

omit [DecidableEq D] in
theorem exchange?_resting {id : ℕ} (h : v.exchanges = []) : exchange? v id = none := by
  unfold exchange?
  rw [h]
  rfl

omit [DecidableEq D] in
theorem resting_transportFailed {id time : ℕ} (hP : P v.burden) (h : Resting v.burden) :
    Wp (transportFailed bounds id time) v (fun _ v' => P v'.burden) fun _ v' => P v'.burden := by
  unfold transportFailed
  simp only [clock, room, wp_bind, wp_get, wp_need, wp_modify, wp_capacity]
  refine ⟨fun _ => ⟨fun _ => ?_, fun _ => hP⟩, fun _ => hP⟩
  rw [exchange?_resting]
  · exact hP
  · exact h.2.2

omit [DecidableEq D] in
theorem resting_transportDeferred {id time : ℕ} (hP : P v.burden) (h : Resting v.burden) :
    Wp (transportDeferred bounds id time) v (fun _ v' => P v'.burden) fun _ v' => P v'.burden := by
  unfold transportDeferred
  simp only [clock, room, wp_bind, wp_get, wp_need, wp_modify, wp_capacity]
  refine ⟨fun _ => ⟨fun _ => ?_, fun _ => hP⟩, fun _ => hP⟩
  rw [exchange?_resting]
  · exact hP
  · exact h.2.2

theorem resting_submit {request operation time : ℕ} {payload : Bytes} (hP : P v.burden)
    (h : v.state ≠ .leaderReady) :
    Wp (submit sha bounds request operation payload time) v (fun _ v' => P v'.burden)
      fun _ v' => P v'.burden := by
  unfold submit
  simp only [mark, clock, room, wp_bind, wp_get, wp_need, wp_modify, wp_capacity, wp_ite]
  refine ⟨fun _ => ⟨fun _ => ⟨fun _ => ⟨fun _ => ?_, fun hready => absurd (.inl h) hready⟩,
    fun _ => hP⟩, fun _ => hP⟩, fun _ => hP⟩
  exact bears_complete _ hP

omit [DecidableEq D] in
theorem resting_cancel {request time : ℕ} (hP : P v.burden) (h : Resting v.burden) :
    Wp (cancel bounds request time) v (fun _ v' => P v'.burden) fun _ v' => P v'.burden := by
  have hoperation : v.operation = none := h.2.1
  unfold cancel
  simp only [clock, room, wp_bind, wp_get, wp_need, wp_modify, wp_capacity, wp_ite, wp_pure,
    hoperation, Option.any_none]
  exact ⟨fun _ => ⟨fun _ => ⟨fun hfalse => by simp at hfalse, fun _ => hP⟩, fun _ => hP⟩,
    fun _ => hP⟩

theorem resting_start {time : ℕ} (hP : P v.burden) (h : v.state ≠ .stopped) :
    Wp (start sha bounds time) v (fun _ v' => P v'.burden) fun _ v' => P v'.burden := by
  unfold start
  simp only [clock, room, wp_bind, wp_get, wp_need, wp_modify, wp_capacity]
  exact ⟨fun _ => ⟨fun _ => ⟨fun hstopped => absurd hstopped h, fun _ => hP⟩, fun _ => hP⟩,
    fun _ => hP⟩

omit [DecidableEq D] in
theorem resting_observePromise {observed : Ballot} (hP : P v.burden)
    (h : observed.epoch ≤ v.fence.epoch) :
    Wp (observePromise bounds observed) v (fun _ v' => P v'.burden) fun _ v' => P v'.burden := by
  unfold observePromise
  simp only [wp_bind, wp_get, wp_ite, wp_pure]
  exact ⟨fun hlt => absurd hlt (Nat.not_lt.mpr h), fun _ => hP⟩

theorem resting_response {r : Reply m} {time : ℕ} (hP : P v.burden) (h : Resting v.burden) :
    Wp (receive sha bounds (.response r) time) v (fun _ v' => P v'.burden)
      fun _ v' => P v'.burden := by
  unfold receive response endpoint
  simp only [clock, room, wp_bind, wp_get, wp_need, wp_modify, wp_capacity]
  refine ⟨fun _ => ⟨fun _ => ⟨fun _ => ⟨fun _ => ?_, fun _ => hP⟩, fun _ => hP⟩, fun _ => hP⟩,
    fun _ => hP⟩
  rw [exchange?_resting]
  · exact hP
  · exact h.2.2

/-- A timer of a voter that waits. -/
theorem held_tick {time : ℕ} :
    Bears (Waits message received replied) (tick sha bounds time) := by
  have hdeadline : Bears (Waits message received replied) (tickDeadline bounds) := by
    intro v h
    have hcampaign : v.campaign = none := h.held.resting.1
    have hoperation : v.operation = none := h.held.resting.2.1
    unfold tickDeadline expired
    simp only [wp_bind, wp_get, wp_ite, wp_pure, hcampaign, hoperation]
    exact ⟨fun hfalse => by simp at hfalse, fun _ => h⟩
  have hbeat : Bears (Waits message received replied) (beat bounds) := by
    intro v h
    have hcampaign : v.campaign = none := h.held.resting.1
    unfold beat
    simp only [wp_bind, wp_get, wp_ite, wp_pure, hcampaign]
    exact ⟨fun hfalse => by simp at hfalse, fun _ => h⟩
  have helection : Bears (Waits message received replied) (tickElection sha bounds) := by
    intro v h
    have hpreparing : v.preparing = some message := h.held.preparing
    unfold tickElection
    simp only [wp_bind, wp_get, wp_ite, wp_pure, hpreparing]
    exact ⟨fun hfalse => by simp at hfalse, fun _ => h⟩
  have hreads : Bears (Waits message received replied) (tickReads sha bounds) := by
    intro v h
    have hpreparing : v.preparing = some message := h.held.preparing
    unfold tickReads
    simp only [wp_bind, wp_get, wp_ite, wp_pure, hpreparing]
    exact ⟨fun hfalse => by simp at hfalse, fun _ => h⟩
  intro v h
  unfold tick
  refine Wp.bind (bears_clock v h) fun _ v1 h1 => Wp.bind (bears_room v1 h1) fun _ v2 h2 => ?_
  simp only [wp_bind, wp_get, wp_ite, wp_pure]
  refine ⟨fun _ => h2, fun _ => (hdeadline v2 h2).mono (fun _ v3 h3 => ?_) fun _ _ h3 => h3⟩
  have hexchanges : v3.exchanges = [] := h3.held.resting.2.2
  rw [hexchanges]
  refine (hbeat v3 h3).mono (fun _ v4 h4 => ?_) fun _ _ h4 => h4
  exact (helection v4 h4).mono (fun _ v5 h5 => hreads v5 h5) fun _ _ h5 => h5

theorem resting_publishedLeader {completed : Publish m} (hP : P v.burden)
    (h : v.operation = none) : Wp (publishedLeader sha bounds completed) v
      (fun _ v' => P v'.burden) fun _ v' => P v'.burden := by
  unfold publishedLeader
  simp only [wp_bind, wp_get, h]
  exact hP

/-- A failure apart, a publication has nothing to do with PREPAREs. -/
theorem resting_published {id time : ℕ} {error : Bool} (hP : P v.burden) (h : Resting v.burden)
    (hsome : v.preparing.isSome) (hready : time + bounds.patience ≤ maxLong) :
    Wp (published sha bounds id error time) v (fun _ v' => P v'.burden ∨ Dormant v'.burden)
      fun _ v' => P v'.burden := by
  unfold published
  simp only [clock, room, wp_bind, wp_get, wp_need, wp_modify, wp_capacity]
  refine ⟨fun _ => ⟨fun hroom => ?_, fun _ => hP⟩, fun _ => hP⟩
  split
  · exact hP
  · simp only [mark, proven, Store.status, wp_bind, wp_get, wp_need, wp_modify, wp_ite, wp_pure,
      wp_onStore, Store.wp_usable]
    refine ⟨fun _ => ⟨fun _ => .inl hP, fun _ => ⟨fun _ => ?_, fun _ => ⟨fun _ => ⟨fun _ =>
      ⟨fun _ => ⟨fun _ => .inl hP, fun _ => hP⟩, fun _ => hP⟩, fun _ => hP⟩, fun _ => ?_⟩⟩⟩,
      fun _ => hP⟩
    · refine Wp.mono (sure_fail ?_ ?_) (fun _ _ hfail => .inr (hfail.dormant hsome)) fun _ _ h => h
      · exact hready
      · show v.actions.length < maxActions
        unfold maxActions at hroom ⊢
        omega
    · refine Wp.mono (resting_publishedLeader (P := P) ?_ ?_) (fun _ _ h => .inl h) fun _ _ h => h
      · exact hP
      · exact h.2.1

omit [DecidableEq D] in
theorem dormant_quiesce (hP : P v.burden) (hready : v.state ≠ .closed → Ready bounds v) :
    Wp (quiesce bounds) v (fun _ v' => P v'.burden ∨ Dormant v'.burden)
      fun _ v' => P v'.burden := by
  have hclose : ∀ v1 : Voter m, Ready bounds v1 → v1.actions.length < maxActions →
      Wp (abandon bounds .closed) v1 (fun _ v2 =>
        P ({ v2 with state := .closed, electionAt := maxLong } : Voter m).burden ∨
        Dormant ({ v2 with state := .closed, electionAt := maxLong } : Voter m).burden)
        fun _ v' => P v'.burden := by
    intro v1 hready1 hactions
    refine (sure_abandon hready1 hactions).mono (fun _ v2 h2 => .inr ⟨?_, .inr rfl⟩) fun _ _ h => h
    exact ⟨congrArg Burden.campaign h2.burden, congrArg Burden.operation h2.burden,
      congrArg Burden.exchanges h2.burden⟩
  unfold quiesce
  simp only [room, wp_bind, wp_get, wp_ite, wp_pure, wp_capacity, wp_modify]
  refine ⟨fun hroom => ⟨fun _ => .inl hP, fun hopen => ?_⟩, fun _ => hP⟩
  have hroom' : v.actions.length + 8 ≤ maxActions := by
    unfold maxActions at hroom ⊢
    omega
  split
  · exact hclose v (hready hopen) (by omega)
  · simp only [wp_bind, wp_modify]
    refine Wp.mono (sure_reply (by omega)) ?_ fun _ _ h => h
    rintro _ _ ⟨tripped, actions, rfl, hactions⟩
    refine hclose _ ?_ ?_
    · exact hready hopen
    · show actions.length < maxActions
      omega

/-! ### A voter that has failed or is closed -/

theorem dormant_reconstructed {id time : ℕ} {application : Option Bytes} :
    Bears Dormant (reconstructed sha bounds id application time) := by
  intro v h
  unfold reconstructed
  refine Wp.bind (bears_clock v h) fun _ v1 h1 => Wp.bind (bears_room v1 h1) fun _ v2 h2 => ?_
  have hstate : v2.state = .closed ∨ v2.state = .failed := h2.inactive.symm
  rw [wp_bind, wp_get]
  split
  · exact h2
  · simp only [wp_bind, wp_need, wp_get, wp_modify, wp_ite, wp_pure]
    exact ⟨fun _ => ⟨fun _ => ⟨h2.resting, h2.state⟩, fun hfalse => absurd hstate hfalse⟩, fun _ => h2⟩

theorem dormant_published {id time : ℕ} {error : Bool} :
    Bears Dormant (published sha bounds id error time) := by
  intro v h
  unfold published
  refine Wp.bind (bears_clock v h) fun _ v1 h1 => Wp.bind (bears_room v1 h1) fun _ v2 h2 => ?_
  have hstate : v2.state = .closed ∨ v2.state = .failed := h2.inactive.symm
  rw [wp_bind, wp_get]
  split
  · exact h2
  · simp only [wp_bind, wp_need, wp_get, wp_modify, wp_ite, wp_pure]
    exact ⟨fun _ => ⟨fun _ => ⟨h2.resting, h2.state⟩, fun hfalse => absurd hstate hfalse⟩, fun _ => h2⟩

theorem dormant_tick {time : ℕ} : Bears Dormant (tick sha bounds time) := by
  intro v h
  unfold tick
  refine Wp.bind (bears_clock v h) fun _ v1 h1 => Wp.bind (bears_room v1 h1) fun _ v2 h2 => ?_
  rw [wp_bind, wp_get, wp_ite, wp_pure]
  refine ⟨fun _ => h2, fun hactive => absurd ?_ hactive⟩
  have hstate : v2.state = .failed ∨ v2.state = .closed := h2.inactive
  rcases hstate with heq | heq
  · rw [heq]
    rfl
  · rw [heq]
    rfl

omit [DecidableEq D] in
theorem dormant_reply {request : Call m} {response : Response m} :
    Bears Dormant (reply request response) :=
  .bind .get fun _ => .bind bears_emit fun _ => .modify fun _ h => ⟨h.resting, h.state⟩

theorem dormant_request {call : Call m} {time : ℕ} :
    Bears Dormant (receive sha bounds (.request call) time) := by
  intro v h
  unfold receive
  refine Wp.bind (bears_clock v h) fun _ v1 h1 => Wp.bind (bears_room v1 h1) fun _ v2 h2 =>
    Wp.bind (bears_endpoint v2 h2) fun _ v3 h3 => Wp.bind (bears_need v3 h3) fun _ v4 h4 => ?_
  have hstate : v4.state = .failed ∨ v4.state = .closed := h4.inactive
  simp only [wp_bind, wp_modify, wp_get, wp_ite]
  refine ⟨fun _ => dormant_reply _ ⟨h4.resting, h4.state⟩, fun hactive => absurd ?_ hactive⟩
  rcases hstate with heq | heq
  · rw [heq]
    rfl
  · rw [heq]
    rfl

end

/-! ### Requests -/

section

variable {now : ℕ}

/-- The computation takes no time. -/
abbrev Instant (now : ℕ) (x : Exec m α) : Prop := Preserves (fun v => v.now = now) x

omit [DecidableEq D] in
theorem instant_need {c : Prop} [Decidable c] {message : String} :
    Instant now (need c message : Exec m Unit) :=
  fun _ h => wp_need.mpr ⟨fun _ => h, fun _ => h⟩

omit [DecidableEq D] in
theorem instant_onStore {x : Store.Exec m α} : Instant now (onStore x) := by
  intro v h
  refine sure_onStore.mono ?_ ?_
  · rintro _ _ ⟨s, rfl⟩
    exact h
  · rintro _ _ ⟨s, rfl⟩
    exact h

omit [DecidableEq D] in
theorem instant_reply {request : Call m} {response : Response m} :
    Instant now (reply request response) :=
  .bind .get fun _ => .bind (.bind .get fun _ => .bind (.bind (.modify fun _ h => h) fun _ _ h =>
    wp_capacity.mpr ⟨fun _ => h, fun _ => h⟩) fun _ => .modify fun _ h => h) fun _ =>
    .modify fun _ h => h

omit [DecidableEq D] in
theorem instant_proven : Instant now (proven : Exec m ℕ) :=
  .bind instant_onStore fun _ => .bind (.modify fun _ h => h) fun _ => .pure

theorem instant_adopt {chosen : Selection m} : Instant now (adopt sha chosen) :=
  .bind instant_proven fun _ => .ite (.bind instant_onStore fun _ => .bind .get fun _ =>
    .ite (.bind instant_onStore fun _ => .bind (.modify fun _ h => h) fun _ =>
      .bind instant_proven fun _ => .pure) .pure) .pure

omit [DecidableEq D] in
theorem instant_armElection : Instant now (armElection bounds : Exec m Unit) :=
  .bind .get fun _ => .bind (.modify fun _ h => h) fun _ => .bind (.bind .get fun _ =>
    .bind (fun _ h => wp_capacity.mpr ⟨fun _ => h, fun _ => h⟩) fun _ => .bind .get fun _ => .pure)
    fun _ => .modify fun _ h => h

theorem instant_installRequest {bases : List (Basis m)} :
    Instant now (installRequest sha bounds message bases) :=
  .bind .get fun _ => .bind instant_need fun _ => .bind (fun _ h => by
      unfold Wp lift
      cases select sha message.ballot bases <;> exact h) fun _ =>
    .bind instant_onStore fun _ => .bind instant_need fun _ => .bind instant_onStore fun _ =>
    .bind instant_adopt fun _ => .ite instant_reply instant_reply

omit [DecidableEq D] in
theorem instant_heartbeat {pulse : Pulse} : Instant now (heartbeat bounds message pulse) :=
  .bind instant_need fun _ => .bind .get fun _ => .bind (.ite (.bind (.modify fun _ h => h)
    fun _ => .ite (.bind (.modify fun _ h => h) fun _ => instant_armElection) .pure) .pure)
    fun _ => instant_reply

theorem instant_perform (hkind : message.request.kind ≠ .prepare) :
    Instant now (perform sha bounds message) := by
  unfold perform
  split
  · rename_i hprepare
    exact absurd (by rw [hprepare]; rfl) hkind
  · refine .bind .get fun v => .ite instant_reply (.bind instant_onStore fun _ =>
      .ite instant_reply ?_)
    split
    · exact .pure
    · exact instant_installRequest
    · exact .bind instant_need fun _ => .bind instant_onStore fun _ => instant_reply
    · exact .bind instant_need fun _ => .bind instant_onStore fun _ =>
        .bind instant_proven fun _ => instant_reply
    · exact instant_heartbeat

end

omit [DecidableEq D] in
/-- What `receive` does when a request throws. -/
theorem due_refused {call : Call m} {e : Failure}
    (hreply : v.store.failed ≠ true → Wp (reply call (.refused call.request.kind e.reason)) v
      (fun _ v' => Due v'.burden) fun _ v' => Due v'.burden)
    (hperm : v.preparing = none → v.received.Perm
      (if call.request.kind = .prepare then v.replied ++ [call] else v.replied))
    (hready : Ready bounds v) (hroom : v.actions.length + 2 ≤ maxActions) :
    Wp (do
      (if e.reason = .storageFailure ∨ (← get).store.failed then fail bounds e.reason else return)
      reply call (.refused call.request.kind e.reason)) v (fun _ v' => Due v'.burden)
      fun _ v' => Due v'.burden := by
  simp only [wp_bind, wp_get, wp_ite, wp_pure]
  refine ⟨fun _ => (sure_fail hready (by omega)).mono ?_ fun _ _ h => h, fun hkeeps => ?_⟩
  · intro _ v1 hstopped
    have hactions := hstopped.actions
    refine Wp.mono (sure_reply (by omega)) ?_ fun _ _ h => h
    rintro _ _ ⟨tripped, actions, rfl, -⟩
    cases hpreparing : v.preparing with
    | some message =>
      have hdormant := hstopped.dormant (by rw [hpreparing]; rfl)
      exact .inl ⟨hdormant.resting, hdormant.state⟩
    | none =>
      refine .of_nothing (hstopped.preparing.trans hpreparing) ?_
      show v1.received.Perm (if call.request.kind = .prepare then v1.replied ++ [call] else v1.replied)
      rw [hstopped.received, hstopped.replied]
      exact hperm hpreparing
  · exact hreply fun hfailed => hkeeps (.inr hfailed)

/-- A request while no PREPARE is pending, nor is it one. -/
theorem unburdened_request {call : Call m} {time : ℕ} (hkind : call.request.kind ≠ .prepare) :
    Bears (Unburdened received replied) (receive sha bounds (.request call) time) := by
  refine .bind bears_clock fun _ => .bind bears_room fun _ => .bind bears_endpoint fun _ =>
    .bind bears_need fun _ => .bind (.modify fun v h => ?_) fun _ => .bind .get fun _ =>
    .ite (bears_reply hkind) (.tryCatch (bears_perform hkind) fun _ => .bind .get fun _ =>
      .bind (.ite unburdened_fail .pure) fun _ => bears_reply hkind)
  rw [if_neg hkind]
  exact h

theorem due_request {pending : List (Call m)} {call : Call m} {u : Voter m} {n time : ℕ}
    (h : Balanced pending v.burden) (htidy : Tidy n u v)
    (hready : v.preparing.isSome ∨ call.request.kind = .prepare → time + bounds.patience ≤ maxLong)
    (hfed : call.request.kind = .prepare →
      v.fence.epoch < call.ballot.epoch ∨ call.ballot = v.fence ∧ v.preparing = none →
      v.store.failed = false → Fed bounds v) :
    Wp (receive sha bounds (.request call) time) v (fun _ v' => Due v'.burden)
      fun _ v' => Due v'.burden := by
  have hdue : Due v.burden := .inr ⟨pending, h⟩
  by_cases hfree : v.preparing = none ∧ call.request.kind ≠ .prepare
  · obtain ⟨hnone, hkind⟩ := hfree
    have hperm := h.perm_of_nothing hnone
    exact (unburdened_request hkind v ⟨hnone, rfl, rfl⟩).mono (fun _ _ h1 => h1.due hperm)
      fun _ _ h1 => h1.due hperm
  have hbusy : v.preparing.isSome ∨ call.request.kind = .prepare := by
    rw [not_and_or, not_not] at hfree
    exact hfree.imp_left Option.isSome_iff_ne_none.mpr
  specialize hready hbusy
  unfold receive
  simp only [clock, room, endpoint, wp_bind, wp_get, wp_need, wp_capacity, wp_modify]
  refine ⟨fun _ => ⟨fun hroom => ⟨fun hpeer => ⟨fun _ => ⟨fun hsender => ?_, fun _ => hdue⟩,
    fun _ => hdue⟩, fun _ => hdue⟩, fun _ => hdue⟩, fun _ => hdue⟩
  have hroom' : v.actions.length + 8 ≤ maxActions := by
    unfold maxActions at hroom ⊢
    omega
  have hcampaign : call.ballot = v.fence → v.campaign = none := by
    -- the proposer of the fence is another voter
    intro heq
    rw [Option.eq_none_iff_forall_not_mem]
    intro c hc
    obtain ⟨hfence, howner⟩ := htidy.orderly.owner c hc
    rw [← hfence, ← heq, ← hsender] at howner
    have hne := (List.mem_filter.mp hpeer.1).2
    simp [Option.some.inj howner] at hne
  by_cases hkind : call.request.kind = .prepare
  · simp only [if_pos hkind]
    have hrequest : call.request = .prepare := by
      cases hr : call.request <;> rw [hr] at hkind <;> simp_all [Request.kind]
    have hperm : (v.received ++ [call]).Perm (v.replied ++ pending ++ [call]) :=
      h.perm.append_right _
    have howed : ∀ {v' : Voter m}, v'.burden = { v.burden with received := v.received ++ [call] } →
        Owed pending v'.burden := by
      intro v' hv'
      rw [hv']
      obtain ⟨hnil, hnone⟩ | ⟨message, hmessage, hheld⟩ := h.owed
      · exact .inl ⟨hnil, hnone⟩
      · exact .inr ⟨message, hmessage, ⟨hheld.resting, hheld.preparing, hheld.state, hheld.fence,
          hheld.kind⟩, hheld.continuation, hheld.reconstruction⟩
    rw [wp_ite]
    refine ⟨fun _ => owed_reply (howed rfl) hkind hperm ?_, fun _ => ?_⟩
    · show v.actions.length < maxActions
      omega
    · have hperform : perform sha bounds call = prepare sha bounds call := by
        unfold perform
        rw [hrequest]
      rw [hperform]
      refine Wp.tryCatch (due_prepare (howed rfl) hkind hperm ?_ ?_ ?_ ?_) ?_
      · exact fun heq => ⟨hcampaign heq, (htidy.orderly.idle (hcampaign heq)).2,
          (htidy.orderly.idle (hcampaign heq)).1⟩
      · exact hready
      · exact hfed hkind
      · show v.actions.length + 4 ≤ maxActions
        omega
      · rintro e v1 ⟨hready1, hactions, hstate⟩
        change v1.actions.length ≤ v.actions.length + 2 at hactions
        have hperm1 : v1.burden = { v.burden with received := v.received ++ [call] } →
            v1.received.Perm (v1.replied ++ pending ++ [call]) := by
          intro hburden
          rw [show v1.received = v.received ++ [call] from congrArg Burden.received hburden,
            show v1.replied = v.replied from congrArg Burden.replied hburden]
          exact hperm
        refine due_refused (fun hfailed => ?_) (fun hnone => ?_) hready1 (by omega)
        · have hburden := hstate.resolve_left fun h1 => hfailed h1.1
          exact owed_reply (howed hburden) hkind (hperm1 hburden) (by omega)
        · have hburden := hstate.resolve_left fun h1 => by
            rw [hnone] at h1
            exact absurd h1.2 (by simp)
          have hperm2 := hperm1 hburden
          rw [(howed hburden).nil_of_nothing hnone, List.append_nil] at hperm2
          rw [if_pos hkind]
          exact hperm2
  · simp only [if_neg hkind]
    have hbalanced : Balanced pending ({ v with now := time } : Voter m).burden := h
    rw [wp_ite]
    refine ⟨fun _ => (bears_reply hkind _ hbalanced).mono (fun _ _ h1 => .inr ⟨_, h1⟩)
      fun _ _ h1 => .inr ⟨_, h1⟩, fun _ => ?_⟩
    have htidy' : Tidy v.actions.length u ({ v with now := time } : Voter m) :=
      ⟨htidy.orderly, htidy.tripped, le_refl _, htidy.since⟩
    have htidies : Tidies (v.actions.length + 5) u (perform sha bounds call)
        { v with now := time } := tidies_perform htidy' hcampaign (le_refl _) (by omega)
    refine Wp.tryCatch (I := fun _ (v' : Voter m) => Balanced pending v'.burden ∧ v'.now = time ∧
      v'.actions.length ≤ v.actions.length + 5) ?_ ?_
    · refine ((bears_perform hkind _ hbalanced).and ((instant_perform hkind _ rfl).and htidies)).mono
        ?_ ?_
      · rintro _ v1 ⟨h1, -⟩
        exact .inr ⟨pending, h1⟩
      · rintro _ v1 ⟨h1, hnow, h2⟩
        exact ⟨h1, hnow, h2.actions⟩
    · rintro e v1 ⟨h1, hnow, hactions⟩
      refine due_refused (fun _ => ?_) (fun hnone => ?_) ?_ (by omega)
      · exact (bears_reply hkind _ h1).mono (fun _ _ h2 => .inr ⟨_, h2⟩) fun _ _ h2 => .inr ⟨_, h2⟩
      · rw [if_neg hkind]
        exact h1.perm_of_nothing hnone
      · unfold Ready
        rw [hnow]
        exact hready

/-! ### Calls of the driver -/

theorem due_reconstructed {pending : List (Call m)} {id time : ℕ} {application : Option Bytes}
    (h : Balanced pending v.burden)
    (hready : v.preparing.isSome → time + bounds.patience ≤ maxLong)
    (himage : v.preparing.isSome → ∀ image ∈ application, image.length ≤ 67108864) :
    Wp (reconstructed sha bounds id application time) v (fun _ v' => Due v'.burden)
      fun _ v' => Due v'.burden := by
  obtain ⟨⟨hnil, hnone⟩ | ⟨message, hmessage, hheld⟩, hperm⟩ := h
  · have hunburdened : Unburdened v.received v.replied v.burden := ⟨hnone, rfl, rfl⟩
    rw [hnil, List.append_nil] at hperm
    exact (unburdened_reconstructed v hunburdened).mono (fun _ _ h1 => h1.due hperm)
      fun _ _ h1 => h1.due hperm
  · have hsome : v.preparing = some message := hheld.preparing
    have hheld' : v.preparing.isSome := by
      rw [hsome]
      rfl
    refine (held_reconstructed hheld (hready hheld') (himage hheld')).mono ?_ ?_
    · rintro _ v' ⟨replay, -, (hdormant | hfinished) | hrenewed⟩
      · exact .inl hdormant
      · refine .of_nothing hfinished.preparing ?_
        rw [hfinished.received, hfinished.replied, ← hmessage]
        exact hperm
      · refine .inr ⟨pending, .inr ⟨message, hmessage, hrenewed.held⟩, ?_⟩
        show v'.received.Perm (v'.replied ++ pending)
        rw [hrenewed.received, hrenewed.replied]
        exact hperm
    · rintro e v' ⟨hburden, -⟩
      rw [hburden]
      exact .inr ⟨pending, .inr ⟨message, hmessage, hheld⟩, hperm⟩

end Protocol

/-- The time at which a call is made. -/
def Event.time? : Event m → Option ℕ
  | .start time | .reconstructed _ _ time | .tick time | .transportFailed _ time
  | .transportDeferred _ time | .submit _ _ _ time | .published _ _ time | .cancel _ time
  | .receive _ time => some time
  | .enableReplicaReads | .restored _ | .checkpoint _ | .cut | .observePromise _ | .rejoin _ _
  | .frozen _ | .quiesce => none

/-- The PREPARE would be taken in. -/
def Voter.admits (v : Voter m) (call : Call m) : Prop :=
  call.request.kind = .prepare ∧ (v.fence.epoch < call.ballot.epoch ∨
    call.ballot = v.fence ∧ v.preparing = none) ∧ v.store.failed = false

/-- The call delivers a PREPARE. -/
def Event.isPrepare : Event m → Bool
  | .receive (.request call) _ => decide (call.request.kind = .prepare)
  | _ => false

/-- The call does not cut a PREPARE off from its reconstruction: no higher promise is observed while
one waits, nor by a voter that is closed, the image that ends a reconstruction is no larger than an
application image may be, the image that a new PREPARE needs is there or can be rebuilt, and while a
PREPARE waits or arrives the election timer can be set. -/
structure Event.Spares (bounds : Bounds m) (v : Voter m) (e : Event m) : Prop where
  ready : v.preparing.isSome ∨ e.isPrepare → v.now + bounds.patience ≤ maxLong ∧
    ∀ time ∈ e.time?, time + bounds.patience ≤ maxLong
  promise : ∀ observed, e = .observePromise observed → v.fence.epoch < observed.epoch →
    v.preparing = none ∧ v.state ≠ .closed
  image : ∀ id image time, e = .reconstructed id (some image) time → v.preparing.isSome →
    image.length ≤ 67108864
  admission : ∀ call time, e = .receive (.request call) time → v.admits call → Fed bounds v

namespace Protocol

variable {bounds : Bounds m} {u v v' : Voter m} {e : Event m} {n : ℕ} [DecidableEq D] {sha : Sha m}

theorem due_dormant (h : Dormant v.burden) (hspares : e.Spares bounds v) :
    Wp (run sha bounds e) v (fun _ v' => Due v'.burden) fun _ v' => Due v'.burden := by
  have hstate : v.state = .failed ∨ v.state = .closed := h.inactive
  have hleft : v.state ≠ .closed → v.preparing.isSome := fun hopen =>
    (h.state.resolve_right hopen).2
  suffices hdormant : Wp (run sha bounds e) v (fun _ v' => Dormant v'.burden)
      fun _ v' => Dormant v'.burden from
    hdormant.mono (fun _ _ h => .inl h) fun _ _ h => .inl h
  cases e with
  | enableReplicaReads => exact wp_silent.mpr ⟨h.resting, h.state⟩
  | restored application => exact wp_silent.mpr (bears_restored v h)
  | checkpoint application => exact wp_silent.mpr (bears_checkpoint v h)
  | cut => exact bears_cut v h
  | observePromise observed =>
    refine wp_silent.mpr (resting_observePromise h (Nat.not_lt.mp fun hlt => ?_))
    obtain ⟨hnone, hclosed⟩ := hspares.promise observed rfl hlt
    have hsome := hleft hclosed
    rw [hnone] at hsome
    cases hsome
  | rejoin ballot snapshot => exact wp_silent.mpr (bears_rejoin v h)
  | frozen ballot => exact wp_silent.mpr (bears_frozen v h)
  | start time =>
    refine wp_silent.mpr (resting_start h ?_)
    rcases hstate with heq | heq
    · rw [heq]
      simp
    · rw [heq]
      simp
  | reconstructed id application time => exact wp_silent.mpr (dormant_reconstructed v h)
  | tick time => exact wp_silent.mpr (dormant_tick v h)
  | transportFailed id time => exact wp_silent.mpr (resting_transportFailed h h.resting)
  | transportDeferred id time => exact wp_silent.mpr (resting_transportDeferred h h.resting)
  | submit request operation payload time =>
    refine wp_silent.mpr (resting_submit h ?_)
    rcases hstate with heq | heq
    · rw [heq]
      simp
    · rw [heq]
      simp
  | published id error time => exact wp_silent.mpr (dormant_published v h)
  | cancel request time => exact wp_silent.mpr (resting_cancel h h.resting)
  | quiesce =>
    have hready : v.state ≠ .closed → Ready bounds v := fun hopen =>
      (hspares.ready (.inl (hleft hopen))).1
    exact wp_silent.mpr ((dormant_quiesce h hready).mono (fun _ _ h => h.elim id id) fun _ _ h => h)
  | receive message time =>
    cases message with
    | response r => exact wp_silent.mpr (resting_response h h.resting)
    | request call => exact wp_silent.mpr (dormant_request v h)

/-- A call while a PREPARE waits. -/
theorem due_held {message : Call m} (h : Held message v.burden)
    (hperm : v.received.Perm (v.replied ++ [message])) (htidy : Tidy n u v)
    (hspares : e.Spares bounds v) :
    Wp (run sha bounds e) v (fun _ v' => Due v'.burden) fun _ v' => Due v'.burden := by
  have hwaits : Waits message v.received v.replied v.burden := ⟨h, rfl, rfl⟩
  have hbalanced : Balanced [message] v.burden := ⟨.inr ⟨message, rfl, h⟩, hperm⟩
  have hstate : v.state = .follower := h.state
  have hpreparing : v.preparing = some message := h.preparing
  have hsome : v.preparing.isSome := by
    rw [hpreparing]
    rfl
  obtain ⟨hready, htime⟩ := hspares.ready (.inl hsome)
  have hkeep : ∀ {x : Exec m (Option (Snapshot m))}, Wp x v
      (fun _ v' => Waits message v.received v.replied v'.burden ∨ Dormant v'.burden)
      (fun _ v' => Waits message v.received v.replied v'.burden) →
      Wp x v (fun _ v' => Due v'.burden) fun _ v' => Due v'.burden :=
    fun hx => hx.mono (fun _ _ h => h.elim (fun h => h.due hperm) .inl) fun _ _ h => h.due hperm
  have hstay : ∀ {x : Exec m (Option (Snapshot m))}, Wp x v
      (fun _ v' => Waits message v.received v.replied v'.burden)
      (fun _ v' => Waits message v.received v.replied v'.burden) →
      Wp x v (fun _ v' => Due v'.burden) fun _ v' => Due v'.burden :=
    fun hx => hkeep (hx.mono (fun _ _ h => .inl h) fun _ _ h => h)
  cases e with
  | enableReplicaReads => exact .inr ⟨[message], hbalanced⟩
  | restored application => exact hstay (wp_silent.mpr (bears_restored v hwaits))
  | checkpoint application => exact hstay (wp_silent.mpr (bears_checkpoint v hwaits))
  | cut => exact hstay (bears_cut v hwaits)
  | observePromise observed =>
    refine hstay (wp_silent.mpr (resting_observePromise hwaits (Nat.not_lt.mp fun hlt => ?_)))
    cases hpreparing.symm.trans (hspares.promise observed rfl hlt).1
  | rejoin ballot snapshot => exact hstay (wp_silent.mpr (bears_rejoin v hwaits))
  | frozen ballot => exact hstay (wp_silent.mpr (bears_frozen v hwaits))
  | start time =>
    refine hstay (wp_silent.mpr (resting_start hwaits ?_))
    rw [hstate]
    simp
  | reconstructed id application time =>
    refine wp_silent.mpr (due_reconstructed hbalanced (fun _ => htime time rfl) fun hsome => ?_)
    rintro image rfl
    exact hspares.image id image time rfl hsome
  | tick time => exact hstay (wp_silent.mpr (held_tick v hwaits))
  | transportFailed id time => exact hstay (wp_silent.mpr (resting_transportFailed hwaits h.resting))
  | transportDeferred id time =>
    exact hstay (wp_silent.mpr (resting_transportDeferred hwaits h.resting))
  | submit request operation payload time =>
    refine hstay (wp_silent.mpr (resting_submit hwaits ?_))
    rw [hstate]
    simp
  | published id error time =>
    exact hkeep (wp_silent.mpr (resting_published hwaits h.resting hsome (htime time rfl)))
  | cancel request time => exact hstay (wp_silent.mpr (resting_cancel hwaits h.resting))
  | quiesce => exact hkeep (wp_silent.mpr (dormant_quiesce hwaits fun _ => hready))
  | receive message time =>
    cases message with
    | response r => exact hstay (wp_silent.mpr (resting_response hwaits h.resting))
    | request call =>
      refine wp_silent.mpr (due_request hbalanced htidy (fun _ => htime time rfl) ?_)
      exact fun hkind hadmits hfailed => hspares.admission call time rfl ⟨hkind, hadmits, hfailed⟩

/-- A call while no PREPARE is pending. -/
theorem due_unburdened (hnone : v.preparing = none) (hperm : v.received.Perm v.replied)
    (htidy : Tidy n u v) (hspares : e.Spares bounds v) :
    Wp (run sha bounds e) v (fun _ v' => Due v'.burden) fun _ v' => Due v'.burden := by
  have h : Unburdened v.received v.replied v.burden := ⟨hnone, rfl, rfl⟩
  have hstay : ∀ {x : Exec m (Option (Snapshot m))}, Wp x v
      (fun _ v' => Unburdened v.received v.replied v'.burden)
      (fun _ v' => Unburdened v.received v.replied v'.burden) →
      Wp x v (fun _ v' => Due v'.burden) fun _ v' => Due v'.burden := by
    intro x hx
    exact hx.mono (fun _ _ h1 => h1.due hperm) fun _ _ h1 => h1.due hperm
  cases e with
  | enableReplicaReads => exact hstay (wp_silent.mpr h)
  | restored application => exact hstay (wp_silent.mpr (bears_restored v h))
  | checkpoint application => exact hstay (wp_silent.mpr (bears_checkpoint v h))
  | cut => exact hstay (bears_cut v h)
  | observePromise observed => exact hstay (wp_silent.mpr (unburdened_observePromise v h))
  | rejoin ballot snapshot => exact hstay (wp_silent.mpr (bears_rejoin v h))
  | frozen ballot => exact hstay (wp_silent.mpr (bears_frozen v h))
  | start time => exact hstay (wp_silent.mpr (unburdened_start v h))
  | reconstructed id application time => exact hstay (wp_silent.mpr (unburdened_reconstructed v h))
  | tick time => exact hstay (wp_silent.mpr (unburdened_tick v h))
  | transportFailed id time => exact hstay (wp_silent.mpr (unburdened_transportFailed v h))
  | transportDeferred id time => exact hstay (wp_silent.mpr (unburdened_transportDeferred v h))
  | submit request operation payload time => exact hstay (wp_silent.mpr (unburdened_submit v h))
  | published id error time => exact hstay (wp_silent.mpr (unburdened_published v h))
  | cancel request time => exact hstay (wp_silent.mpr (unburdened_cancel v h))
  | quiesce => exact hstay (wp_silent.mpr (unburdened_quiesce v h))
  | receive message time =>
    cases message with
    | response r =>
      exact hstay (wp_silent.mpr (Wp.bind (bears_clock v h) fun _ v1 h1 =>
        Wp.bind (bears_room v1 h1) fun _ v2 h2 => Wp.bind (bears_endpoint v2 h2) fun _ v3 h3 =>
        unburdened_response v3 h3))
    | request call =>
      have hbalanced : Balanced [] v.burden := by
        refine ⟨.inl ⟨rfl, hnone⟩, ?_⟩
        rw [List.append_nil]
        exact hperm
      refine wp_silent.mpr (due_request hbalanced htidy (fun hbusy => ?_) ?_)
      · have hprepare := hbusy.resolve_left (by rw [hnone]; simp)
        exact (hspares.ready (.inr (decide_eq_true hprepare))).2 time rfl
      · exact fun hkind hadmits hfailed => hspares.admission call time rfl ⟨hkind, hadmits, hfailed⟩

theorem due_run (h : Due v.burden) (htidy : Tidy n u v) (hspares : e.Spares bounds v) :
    Wp (run sha bounds e) v (fun _ v' => Due v'.burden) fun _ v' => Due v'.burden := by
  obtain hdormant | ⟨pending, ⟨hnil, hnone⟩ | ⟨message, hmessage, hheld⟩, hperm⟩ := h
  · exact due_dormant hdormant hspares
  · rw [hnil, List.append_nil] at hperm
    exact due_unburdened hnone hperm htidy hspares
  · rw [hmessage] at hperm
    exact due_held hheld hperm htidy hspares

end Protocol

section

variable [DecidableEq D] (sha : Sha m) (bounds : Bounds m)

/-- The runs of one voter in which no call cuts a PREPARE off. -/
inductive Sparing : Voter m → Prop where
  | create {node : Node} {disk : Disk m} {around : Surroundings} {store : Store m}
      (h : Store.openStore sha node disk around = .ok store) (trace : List (Mark m)) :
      Sparing (Voter.create store trace)
  | call {v : Voter m} (h : Sparing v) (hactions : v.actions.length ≤ 16) (supply : Supply)
      (e : Event m) (hspares : e.Spares bounds v) : Sparing (v.after sha bounds supply e)
  | drain {v : Voter m} (h : Sparing v) : Sparing v.drained

/-- What the end of the reconstruction makes of the PREPARE: it is answered, or the voter fails, or
the proven prefix has grown since and the next reconstruction is through the whole of it. -/
def Voter.Settles (v : Voter m) (message : Call m) (replay : Replay m) (v' : Voter m) : Prop :=
  (v'.preparing = none ∧ v'.replied = v.replied ++ [message]) ∨
  (v'.state = .failed ∨ v'.state = .closed) ∨
  (replay.through ≠ v.store.provenThrough ∧ v'.preparing = some message ∧
    ∃ id replay', v'.reconstruction = some (id, replay') ∧
      replay'.through = v'.store.provenThrough)

/-- A PREPARE that is pending waits for a reconstruction that is under way, whose end settles it. -/
def Voter.Finishes (v : Voter m) : Prop :=
  ∀ message, v.preparing = some message → ∃ id replay, v.reconstruction = some (id, replay) ∧
    ∀ supply image time, v.now ≤ time → v.actions.length ≤ maxActions - 8 →
      image.length ≤ 67108864 → time + bounds.patience ≤ maxLong →
      v.Settles message replay (v.after sha bounds supply (.reconstructed id (some image) time))

variable {sha bounds} {v : Voter m}

theorem Sparing.attended (h : Sparing sha bounds v) : Attended sha bounds v := by
  induction h with
  | create hopen trace => exact .create hopen trace
  | call _ hactions supply e _ ih => exact ih.call hactions supply e
  | drain _ ih => exact ih.drain

omit [DecidableEq D] in
theorem Event.Spares.supplied {e : Event m} (h : e.Spares bounds v) (supply : Supply) :
    e.Spares bounds (v.supplied supply) :=
  ⟨h.ready, h.promise, h.image, h.admission⟩

open Protocol in
theorem Sparing.due (h : Sparing sha bounds v) : Due v.burden := by
  induction h with
  | create hopen trace => exact .inr ⟨[], .inl ⟨rfl, rfl⟩, .refl _⟩
  | @call v h hactions supply e hspares ih =>
    have htidy : Tidy maxActions (v.supplied supply) (v.supplied supply) :=
      h.attended.tidy.supplied supply
    exact Voter.after_of_wp (due_run ih htidy (hspares.supplied supply))
  | drain _ ih => exact ih

open Protocol in
/-- While no call cuts a PREPARE off, a voter that has not failed answers each PREPARE that it takes
in once, but for one that is pending, which the end of its reconstruction answers. -/
theorem prepares_finish (h : Sparing sha bounds v) (hfailed : v.state ≠ .failed)
    (hclosed : v.state ≠ .closed) :
    v.Finishes sha bounds ∧ v.received.Perm (v.replied ++ v.preparing.toList) := by
  obtain hdormant | ⟨pending, howed, hperm⟩ := h.due
  · exact absurd hdormant.inactive (not_or.mpr ⟨hfailed, hclosed⟩)
  obtain ⟨hnil, hnone⟩ | ⟨message, hmessage, hheld⟩ := howed
  · have hnone' : v.preparing = none := hnone
    refine ⟨fun message hsome => ?_, ?_⟩
    · cases hnone'.symm.trans hsome
    · rw [hnone', Option.toList_none, ← hnil]
      exact hperm
  · have hsome : v.preparing = some message := hheld.preparing
    refine ⟨fun message' hsome' => ?_, ?_⟩
    · cases hsome.symm.trans hsome'
      obtain ⟨⟨id, replay⟩, hreconstruction⟩ := Option.isSome_iff_exists.mp hheld.reconstruction
      refine ⟨id, replay, hreconstruction, fun supply image time hclock hroom himage hready => ?_⟩
      have himage' : ∀ x ∈ some image, x.length ≤ 67108864 := by
        rintro _ ⟨⟩
        exact himage
      have hrun : Wp (reconstructed sha bounds id (some image) time) (v.supplied supply) _ _ :=
        held_reconstructed hheld hready himage'
      refine Voter.after_of_wp (wp_silent.mpr (hrun.mono ?_ ?_))
      · rintro _ v' ⟨replay', hreplay, (hdormant | hfinished) | hrenewed⟩
        · exact .inr (.inl hdormant.inactive)
        · exact .inl ⟨hfinished.preparing, hfinished.replied⟩
        · cases hreconstruction.symm.trans hreplay
          exact .inr (.inr ⟨hrenewed.stale, hrenewed.held.preparing, hrenewed.fresh⟩)
      · rintro e v' ⟨-, hrefused⟩
        exact absurd rfl (hrefused hclock hroom _ hreconstruction)
    · rw [hsome, Option.toList_some, ← hmessage]
      exact hperm

variable (bounds) in
/-- `Spares` as a check. -/
def Event.spares (v : Voter m) (e : Event m) : Bool :=
  (!(v.preparing.isSome || e.isPrepare) || decide (v.now + bounds.patience ≤ maxLong) &&
    e.time?.all fun time => decide (time + bounds.patience ≤ maxLong)) &&
  match e with
  | .observePromise observed => decide (v.fence.epoch < observed.epoch →
      v.preparing = none ∧ v.state ≠ .closed)
  | .reconstructed _ (some image) _ => decide (v.preparing.isSome → image.length ≤ 67108864)
  | .receive (.request call) _ => decide (call.request.kind = .prepare ∧
      (v.fence.epoch < call.ballot.epoch ∨ call.ballot = v.fence ∧ v.preparing = none) ∧
      v.store.failed = false → v.imageIndex = some v.store.provenThrough ∨ v.reconstruction.isSome ∨
        v.serial < maxLong ∧ bounds.replayed v.store.base
          ((v.store.accepted.take v.store.proven.length).map fun slot => slot.latest.entry) = true)
  | _ => true

omit [DecidableEq D] in
theorem Event.Spares.of_spares {e : Event m} (h : e.spares bounds v = true) : e.Spares bounds v := by
  unfold Event.spares at h
  rw [Bool.and_eq_true] at h
  obtain ⟨hready, hcall⟩ := h
  refine ⟨fun hbusy => ?_, ?_, ?_, ?_⟩
  · rw [← Bool.or_eq_true] at hbusy
    rw [hbusy, Bool.not_true, Bool.false_or, Bool.and_eq_true, decide_eq_true_eq] at hready
    refine ⟨hready.1, fun time ht => ?_⟩
    rw [Option.mem_def] at ht
    simpa [ht] using hready.2
  · rintro observed rfl
    exact of_decide_eq_true hcall
  · rintro id image time rfl
    exact of_decide_eq_true hcall
  · rintro call time rfl hadmits
    exact of_decide_eq_true hcall hadmits

variable (sha bounds) in
/-- None of the calls, each followed by a drain, cuts a PREPARE off. -/
def Voter.sparing (v : Voter m) : List (Supply × Event m) → Bool
  | [] => true
  | (supply, e) :: calls =>
    e.spares bounds v && ((v.after sha bounds supply e).drained).sparing calls

theorem Sparing.play {calls : List (Supply × Event m)} (h : Sparing sha bounds v.drained)
    (hcalls : v.drained.sparing sha bounds calls = true) :
    Sparing sha bounds (v.drained.play sha bounds calls) := by
  induction calls generalizing v with
  | nil => exact h
  | cons call calls ih =>
    simp only [Voter.sparing, Bool.and_eq_true] at hcalls
    exact ih (h.call (Nat.zero_le _) call.1 call.2 (.of_spares hcalls.1)).drain hcalls.2

end

/-- None of the calls of a voter with an empty directory cuts a PREPARE off. -/
def spared (node : Node) (events : List (Event emptyManifest)) : Bool :=
  (Store.openStore (symbolic _) node (Disk.genesis _) calm).toOption.all fun store =>
    (Voter.create store []).drained.sparing (symbolic _) (shortBounds _)
      (events.map fun e => (plainSupply, e))

theorem sparing_called {node : Node} {events : List (Event emptyManifest)}
    {v : Voter emptyManifest} (h : called node events = some v) (hspared : spared node events = true) :
    Sparing (symbolic _) (shortBounds _) v := by
  obtain ⟨store, hstore, rfl⟩ := Option.map_eq_some_iff.mp h
  rw [spared, hstore, Option.all_some] at hspared
  cases hopen : Store.openStore (symbolic emptyManifest) node (Disk.genesis _) calm with
  | error e =>
    rw [hopen] at hstore
    cases hstore
  | ok s =>
    rw [hopen] at hstore
    cases hstore
    exact (Sparing.create hopen []).drain.play hspared

namespace Group

/-- The cut that the third voter offers once it is elected. -/
def offeredCut : Option (Snapshot emptyManifest) :=
  (played (elected ++ [call 2 .cut])).bind fun g => g.offered.head?

/-- The second voter rejoins at the cut that is offered. -/
def rejoinOffered (g : Group emptyManifest) : Label emptyManifest :=
  match g.offered.head? with
  | some snapshot => .call 1 (.rejoin (g.voters 1).fence snapshot)
  | none => .drain 1

/-- The PREPARE of the third voter reaches the second one late and twice, with a rejoin between. -/
def retried : List (Group emptyManifest → Label emptyManifest) :=
  elected ++ [call 2 .cut, deliver 1 51, drain 1, rejoinOffered, deliver 1 52, drain 1]

/-- The suppliers of a later campaign. -/
def rivalSupply : Supply := ⟨fun _ => 0, 9, 2, calm⟩

/-- The second voter asks the first one, which has campaigned meanwhile, and observes its promise. -/
def observeRival (g : Group emptyManifest) : Label emptyManifest :=
  .call 1 (.observePromise (g.voters 0).durablePromise)

/-- The first voter campaigns, and its promise is observed before the reconstruction ends. -/
def rival : List (Group emptyManifest → Label emptyManifest) :=
  [call 0 (.tick 100), drain 0, call 0 (.reconstructed 2 (some []) 100), drain 0, observeRival,
    call 1 (.reconstructed 2 (some []) 101), drain 1]

end Group

/-- The ballot at which the third voter is elected. -/
def electedBallot : Ballot := ⟨4, 7, .inr (by decide)⟩

/-- The second voter answers the PREPARE of the third one, rejoins at its cut, which drops the image,
and takes the PREPARE in again. -/
def taken (snapshot : Snapshot emptyManifest) : List (Event emptyManifest) :=
  [.start 0, .reconstructed 1 (some []) 1,
    .receive (.request ⟨3, 2, 1, electedBallot, .prepare⟩) 51, .rejoin electedBallot snapshot,
    .receive (.request ⟨3, 2, 1, electedBallot, .prepare⟩) 52]

theorem prepares_finish_taken :
    ∃ snapshot ∈ Group.offeredCut, ∃ v ∈ called 1 (taken snapshot),
      (v.preparing.isSome ∧ v.replied.length = 1) ∧ v.Finishes (symbolic _) (shortBounds _) ∧
        v.received.Perm (v.replied ++ v.preparing.toList) := by
  have htaken : Group.offeredCut.any (fun snapshot => spared 1 (taken snapshot) &&
      (called 1 (taken snapshot)).any fun v => decide (v.state = .follower) &&
        (v.preparing.isSome && decide (v.replied.length = 1))) = true := by decide +kernel
  obtain ⟨snapshot, hsnapshot, htaken⟩ := (Option.any_eq_true _ _).mp htaken
  obtain ⟨hspared, hcalled⟩ := Bool.and_eq_true_iff.mp htaken
  obtain ⟨v, hv, hstate⟩ := (Option.any_eq_true _ _).mp hcalled
  simp only [Bool.and_eq_true, decide_eq_true_eq] at hstate
  refine ⟨snapshot, hsnapshot, v, hv, hstate.2, prepares_finish (sparing_called hv hspared) ?_ ?_⟩
  · rw [hstate.1]
    simp
  · rw [hstate.1]
    simp

/-- A higher promise that is observed before the end of the reconstruction, by a voter whose fence
and promise are those of the PREPARE, leaves the PREPARE pending with nothing under way, and
unanswered. -/
theorem prepare_dropped : ∃ g g' : Group emptyManifest,
    Group.Reachable (symbolic _) (shortBounds _) g ∧
    (Protocol.maintenanceCurrent (g.voters 1) electedBallot = true ∧ (g.voters 1).preparing.isSome) ∧
    g' = g.play (symbolic _) (shortBounds _) Group.rivalSupply Group.rival ∧
    Group.Reachable (symbolic _) (shortBounds _) g' ∧
    (g'.voters 1).state ≠ .failed ∧ (g'.voters 1).state ≠ .closed ∧
    ¬(g'.voters 1).Finishes (symbolic _) (shortBounds _) := by
  have hdropped : (Group.played Group.retried).any (fun g =>
      (Protocol.maintenanceCurrent (g.voters 1) electedBallot && (g.voters 1).preparing.isSome) &&
      let v := (g.play (symbolic _) (shortBounds _) Group.rivalSupply Group.rival).voters 1
      decide (v.state = .unavailable) && v.preparing.isSome && v.reconstruction.isNone) = true := by
    decide +kernel
  obtain ⟨g, hg, hdropped⟩ := (Option.any_eq_true _ _).mp hdropped
  simp only [Bool.and_eq_true, decide_eq_true_eq] at hdropped
  obtain ⟨hcurrent, ⟨hstate, hpreparing⟩, hreconstruction⟩ := hdropped
  have hreachable := Group.played_reachable hg
  refine ⟨g, _, hreachable, hcurrent, rfl, hreachable.play Group.rivalSupply Group.rival, ?_, ?_,
    fun hfinishes => ?_⟩
  · rw [hstate]
    simp
  · rw [hstate]
    simp
  · obtain ⟨message, hmessage⟩ := Option.isSome_iff_exists.mp hpreparing
    obtain ⟨id, replay, hsome, -⟩ := hfinishes message hmessage
    rw [hsome] at hreconstruction
    cases hreconstruction

end GeneralSearch.Replication
