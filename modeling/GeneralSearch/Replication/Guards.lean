import GeneralSearch.Replication.Orderly
import GeneralSearch.Replication.Proposals
import GeneralSearch.Replication.Runs
import GeneralSearch.Replication.Symbolic
import Mathlib.Data.Fintype.Prod

/-! No event of the driver meets the bound of the actions or that of the exchanges of a peer: every
handler keeps the order of `Orderly` and emits a bounded number of actions. -/

namespace GeneralSearch.Replication

open Lib

section

variable {D : Type} {m : Manifest D} {a : Authority m} {deferred : Option Node} {published : ℕ}

/-- No peer has more than two exchanges, so there are few. -/
theorem Orderly.length_le (h : Orderly a deferred published) : a.exchanges.length ≤ 6 := by
  have hle := h.lanes.length_le_card
  rw [List.length_map] at hle
  exact hle.trans (by decide)

/-- A campaign begins with nothing in flight. -/
theorem Orderly.beginning (h : Orderly a deferred published) (hl : Loose a)
    (hpublication : a.publication = none) (hawake : a.state ≠ .starting) {ballot : Ballot}
    (howner : ballot.proposer = some a.store.node) :
    Orderly { a with campaign := some ballot, fence := ballot, state := .candidate } deferred
      published := by
  refine .of_calm h.lanes (by simp [hl.exchanges, Calm]) rfl ?_ (by simp [hl.operation])
    (fun k hk => ?_) h.published h.covered rfl
  · rintro c ⟨⟩
    exact ⟨rfl, howner⟩
  · obtain ⟨hleads, hawaits⟩ := hl.continuation k hk
    refine ⟨?_, fun _ => hpublication⟩
    cases k with
    | start => exact absurd hawaits hawake
    | campaign expected => cases hleads
    | publish op expected => cases hleads
    | prepare message => trivial
    | publishLocal expected => trivial

end

namespace Protocol

variable {D : Type} {m : Manifest D} {bounds : Bounds m} {u v v' : Voter m} {n l : ℕ}

/-! ### Ticks -/

theorem tidies_tickDeadline (h : Tidy n u v) (hn : n + 1 ≤ l) (hl : l ≤ maxActions) :
    Tidies l u (tickDeadline bounds) v := by
  unfold tickDeadline
  simp only [wp_bind, wp_get, wp_ite, wp_pure]
  exact ⟨fun _ => tidies_abandon h hn hl, fun _ => h.mono (by omega)⟩

theorem tidies_tickExchange {id : ℕ} (h : Tidy n u v) (hn : n + 1 ≤ l) (hl : l ≤ maxActions) :
    Tidies l u (tickExchange bounds id) v := by
  unfold tickExchange
  simp only [wp_bind, wp_get]
  split
  · exact h.mono (by omega)
  · simp only [wp_ite, wp_pure, wp_bind, wp_modify]
    refine ⟨fun _ => tidies_exchangeFailed h hn hl, fun _ => ⟨fun _ => ?_,
      fun _ => h.mono (by omega)⟩⟩
    have hretried := h.orderly.retried (f := fun p => if p.message.id = id then { p with
      retryAt := maxLong
      attempts := if p.admissionDeferred then p.attempts else p.attempts + 1
      admissionDeferred := false } else p) fun p => by split <;> rfl
    have h1 : Tidy n u { v with exchanges := v.exchanges.map fun p => if p.message.id = id then { p with
      retryAt := maxLong
      attempts := if p.admissionDeferred then p.attempts else p.attempts + 1
      admissionDeferred := false } else p } :=
      ⟨hretried, h.tripped, h.actions, h.since⟩
    exact tidies_emit h1 hn hl

/-- A heartbeat to a peer that has none. -/
theorem tidies_beatOne {peer : Node} (h : Tidy n u v) (hn : n + 1 ≤ l) (hl : l ≤ maxActions) :
    Tidies l u (do
      let v ← get
      if v.exchanges.any fun p => p.message.recipient = peer ∧
          p.message.request.kind = .heartbeat then return
      else
        send bounds peer (.heartbeat ⟨v.heartbeatSequence, v.state = .leaderReady, v.progress, 0⟩))
      v := by
  simp only [wp_bind, wp_get, wp_ite, wp_pure]
  refine ⟨fun _ => h.mono (by omega), fun hnone => ?_⟩
  refine tidies_send h ⟨fun q hq heq => hnone ?_, trivial, fun hne => absurd rfl hne⟩ hn hl
  refine List.any_eq_true.mpr ⟨q, hq, decide_eq_true ⟨congrArg Prod.fst heq, ?_⟩⟩
  exact of_decide_eq_true (congrArg Prod.snd heq)

theorem tidies_beat (h : Tidy n u v) (hn : n + 2 ≤ l) (hl : l ≤ maxActions) :
    Tidies l u (beat bounds) v := by
  unfold beat
  simp only [wp_bind, wp_get, wp_ite, wp_capacity, wp_modify, wp_pure]
  refine ⟨fun _ => ⟨fun _ => ?_, fun _ => h.mono (by omega)⟩, fun _ => h.mono (by omega)⟩
  have h1 : Tidy n u { v with heartbeatSequence := v.heartbeatSequence + 1 } :=
    ⟨h.orderly, h.tripped, h.actions, h.since⟩
  have hlength : (peers v.store.node).length * 1 = 2 := by
    rw [(peers_nodup _).2]
  refine (tidy_forM (k := 1) (l := l) (fun peer _ n' v' h' hn' => ?_) h1 (by omega)).mono
    (fun _ v2 h2 => ?_) fun _ _ h2 => h2
  · exact (tidies_beatOne (l := n' + 1) h' (le_refl _) (by omega)).mono (fun _ _ h3 => h3)
      fun _ _ h3 => h3.mono hn'
  · have hmono := h2.mono (l := l) (by omega)
    refine (hushed_after v2).mono (fun at' v3 hv3 => ?_) fun _ v3 hv3 => hmono.still hv3
    have h3 := hmono.still hv3
    exact ⟨h3.orderly, h3.tripped, h3.actions, h3.since⟩

variable [DecidableEq D] {sha : Sha m}

theorem tidies_beginCampaign (h : Tidy n u v) (hcampaign : v.campaign = none)
    (hpublication : v.publication = none) (hawake : v.state ≠ .starting) (hn : n + 4 ≤ l)
    (hl : l ≤ maxActions) : Tidies l u (beginCampaign sha bounds) v := by
  unfold beginCampaign
  refine Wp.tryCatch (I := fun _ (v' : Voter m) => Tidy (n + 3) u v') ?_ fun e v1 h1 =>
    tidies_fail h1 (by omega) hl
  have hmono := h.mono (l := n + 3) (by omega)
  simp only [wp_bind, wp_onStore, Store.wp_promiseOf, wp_get]
  refine ⟨fun _ => ?_, fun _ => hmono⟩
  refine Wp.mono (Q := fun value v1 => v1 = v ∧
    nextEpoch (max v.maxEpoch v.store.promise.epoch) v.store.node = .ok value)
    (E := fun _ v1 => v1 = v) ?_ ?_ fun _ v1 h1 => h1 ▸ hmono
  · unfold Wp lift
    cases nextEpoch (max v.maxEpoch v.store.promise.epoch) v.store.node <;> simp
  · rintro value v1 ⟨rfl, hvalue⟩
    obtain ⟨-, hpos, howner⟩ := nextEpoch_eq_ok hvalue
    simp only [wp_need]
    refine ⟨fun _ => ?_, fun _ => hmono⟩
    split
    · rename_i hballot
      have hproposer : Ballot.proposer ⟨value, v1.incarnation, .inr hballot⟩ =
          some v1.store.node := by
        unfold Ballot.proposer
        rw [if_neg (show value ≠ 1 by omega)]
        exact congrArg some (Fin.ext howner)
      have hloose := h.orderly.loose hcampaign
      have hbegun := Orderly.beginning h.orderly hloose hpublication hawake hproposer
      simp only [wp_bind, wp_modify]
      have h2 : Tidy n u { v1 with
          campaign := some ⟨value, v1.incarnation, .inr hballot⟩
          fence := ⟨value, v1.incarnation, .inr hballot⟩, maxEpoch := value, state := .candidate
          progress := 1 } := ⟨hbegun, h.tripped, h.actions, h.since.restate (by simp)⟩
      refine (hushed_after _).mono (fun deadline v2 hv2 => ?_)
        fun _ v2 hv2 => (h2.still hv2).mono (by omega)
      have h3 := h2.still hv2
      have h4 : Tidy n u { v2 with campaignDeadline := deadline, electionAt := maxLong } :=
        ⟨h3.orderly, h3.tripped, h3.actions, h3.since⟩
      refine (hushed_after _).mono (fun at' v3 hv3 => ?_)
        fun _ v3 hv3 => (h4.still hv3).mono (by omega)
      have h5 := h4.still hv3
      have hauthority := hv3.authority.trans hv2.authority
      have h6 : Orderly { v3.toAuthority with
          imageContinuation := some (.campaign ⟨value, v1.incarnation, .inr hballot⟩) }
          v3.deferredPreparePeer v3.publishedIndex := { h5.orderly with resuming := ?_ }
      · have hrun : Tidies (n + 3) u (withImage sha bounds _) { v3 with heartbeatAt := at' } :=
          tidies_withImage ⟨h6, h5.tripped, h5.actions, h5.since⟩ (le_refl _) (by omega)
        exact hrun.mono (fun _ _ h7 => h7.mono (by omega)) fun _ _ h7 => h7
      rintro k ⟨⟩
      refine ⟨⟨?_, ?_⟩, fun _ => ⟨?_, ?_⟩⟩
      · exact congrArg Authority.state hauthority
      · exact congrArg (fun a : Authority m => a.campaign.isSome) hauthority
      · exact (congrArg Authority.publication hauthority).trans hpublication
      · show Calm v3.exchanges
        rw [hauthority]
        show Calm v1.exchanges
        rw [hloose.exchanges]
        intro q hq
        cases hq
    · exact hmono

theorem tidies_tickElection (h : Tidy n u v) (hawake : v.state ≠ .starting) (hn : n + 4 ≤ l)
    (hl : l ≤ maxActions) : Tidies l u (tickElection sha bounds) v := by
  unfold tickElection
  simp only [wp_bind, wp_get, wp_ite, wp_pure]
  refine ⟨fun hcond => ?_, fun _ => h.mono (by omega)⟩
  exact tidies_beginCampaign h hcond.1 (by simpa using hcond.2.2.1) hawake hn hl

theorem tidies_tickReads (h : Tidy n u v) (hn : n + 3 ≤ l) (hl : l ≤ maxActions) :
    Tidies l u (tickReads sha bounds) v := by
  unfold tickReads
  simp only [wp_bind, wp_get, wp_ite, wp_pure]
  refine ⟨fun _ => ?_, fun _ => h.mono (by omega)⟩
  refine (hushed_proven v).mono (fun through v1 hv1 => ?_) fun _ v1 hv1 => (h.still hv1).mono (by omega)
  have h1 := h.still hv1
  refine ⟨fun _ => ?_, fun _ => h1.mono (by omega)⟩
  rw [wp_modify]
  refine tidies_withImage ⟨{ h1.orderly with resuming := ?_ }, h1.tripped, h1.actions,
    h1.since⟩ hn hl
  rintro k ⟨⟩
  exact ⟨trivial, fun hleads => by cases hleads⟩

theorem tidies_tick {time : ℕ} (h : Tidy n u v) (hu : u.state = v.state) (hn : n + 16 ≤ l)
    (hl : l ≤ maxActions) : Tidies l u (tick sha bounds time) v := by
  have hmono := h.mono (l := l) (by omega)
  unfold tick
  refine hushed_clock.bind hmono fun _ v1 hv1 => ?_
  refine hushed_room.bind (hmono.still hv1) fun _ v2 hv2 => ?_
  have h2 := (h.still hv1).still hv2
  rw [wp_bind, wp_get, wp_ite, wp_pure]
  refine ⟨fun _ => h2.mono (by omega), fun hactive => ?_⟩
  have hawake : u.state ≠ .starting := by
    rw [hu, ← congrArg Authority.state hv1.authority, ← congrArg Authority.state hv2.authority]
    exact (State.awake hactive).2
  refine (tidies_tickDeadline (l := n + 1) h2 (by omega) (by omega)).bind (by omega)
    fun _ v3 h3 => ?_
  change Wp _ v3 _ _
  rw [wp_bind, wp_get]
  have hlength := h3.orderly.length_le
  refine Wp.bind (tidy_forM (k := 1) (l := l) (fun id _ n' v' h' hn' => ?_) h3 (by
    rw [List.length_map]
    omega)) fun _ v4 h4 => ?_
  · exact (tidies_tickExchange (l := n' + 1) h' (by omega) (by omega)).mono (fun _ _ h5 => h5)
      fun _ _ h5 => h5.mono hn'
  · rw [List.length_map] at h4
    refine (tidies_beat (n := n + 7) (l := n + 9) (h4.mono (by omega)) (by omega) (by omega)).bind
      (by omega) fun _ v5 h5 => ?_
    refine (tidies_tickElection (l := n + 13) h5 (h5.since.awake hawake) (by omega)
      (by omega)).bind (by omega) fun _ v6 h6 => ?_
    exact tidies_tickReads h6 (by omega) hl

/-! ### The other events of the driver -/

theorem tidies_restored {application : Bytes} (h : Tidy n u v) :
    Tidies n u (restored sha application) v := by
  unfold restored
  simp only [wp_bind, wp_get, wp_need, wp_onStore, Store.provenSnapshot, Store.wp_usable,
    Store.wp_check, wp_modify]
  refine ⟨fun hstopped => ⟨fun _ => ⟨fun image himage => ?_, fun _ _ => h⟩, fun _ => h⟩, fun _ => h⟩
  have hindex := snapshot_index h.orderly.covered himage
  have hle := h.orderly.published.1
  refine ⟨{ h.orderly with published := ⟨hindex.le, ?_⟩ }, h.tripped, h.actions,
    ⟨h.since.published.trans (hindex ▸ hle), h.since.awake⟩⟩
  intro p hp
  rw [show v.publication = none from h.orderly.stopped hstopped] at hp
  cases hp

theorem hushed_provenSnapshot {application : Bytes} :
    Hushed (onStore (Store.provenSnapshot sha application)) := by
  intro v
  simp only [wp_onStore, Store.provenSnapshot, wp_bind, Store.wp_usable, Store.wp_check]
  exact ⟨fun _ => ⟨fun _ _ => ⟨rfl, rfl, rfl, rfl⟩, fun _ _ => ⟨rfl, rfl, rfl, rfl⟩⟩,
    fun _ => ⟨rfl, rfl, rfl, rfl⟩⟩

theorem hushed_maintenanceSnapshot : Hushed (maintenanceSnapshot sha : Exec m _) := by
  intro v
  have hrefl : Still v v := ⟨rfl, rfl, rfl, rfl⟩
  unfold maintenanceSnapshot
  simp only [wp_bind, wp_get, wp_ite, wp_pure]
  refine ⟨fun _ => hrefl, fun _ => ?_⟩
  refine (hushed_proven v).mono (fun through v1 hv1 => ?_) fun _ _ hv1 => hv1
  refine ⟨fun _ => hv1, fun _ => ?_⟩
  have htrans : ∀ {v2}, Still v1 v2 → Still v v2 := fun hv2 =>
    ⟨hv2.authority.trans hv1.authority, hv2.deferred.trans hv1.deferred,
      hv2.published.trans hv1.published, hv2.tripped.trans hv1.tripped⟩
  exact (hushed_provenSnapshot v1).mono (fun _ _ hv2 => htrans hv2) fun _ _ hv2 => htrans hv2

theorem tidies_checkpoint {application : Bytes} (h : Tidy n u v) :
    Tidies n u (checkpoint sha application) v := by
  unfold checkpoint
  refine hushed_provenSnapshot.bind h fun snapshot v1 hv1 => ?_
  have h1 := h.still hv1
  simp only [wp_bind, wp_get, wp_capacity]
  refine ⟨fun _ => ?_, fun _ => h1⟩
  exact (tidy_onStore h1 Store.advances_installProven).mono (fun _ _ h2 => h2.1) fun _ _ h2 => h2

theorem tidies_cut (h : Tidy n u v) : Tidies n u (cut sha) v := by
  unfold cut
  refine hushed_maintenanceSnapshot.bind h fun snapshot v1 hv1 => ?_
  have h1 := h.still hv1
  split
  · exact h1
  · simp only [wp_bind, wp_get, wp_ite, wp_pure]
    refine ⟨fun _ => ?_, fun _ => h1⟩
    exact (tidy_onStore h1 Store.advances_installProven).mono (fun _ _ h2 => h2.1) fun _ _ h2 => h2

omit [DecidableEq D] in
theorem tidies_observePromise {observed : Ballot} (h : Tidy n u v) (hn : n + 1 ≤ l)
    (hl : l ≤ maxActions) : Tidies l u (observePromise bounds observed) v := by
  unfold observePromise
  simp only [wp_bind, wp_get, wp_ite, wp_modify, wp_pure]
  refine ⟨fun _ => ?_, fun _ => h.mono (by omega)⟩
  have h0 : Tidy n u { v with maxEpoch := max v.maxEpoch observed.epoch } :=
    ⟨h.orderly, h.tripped, h.actions, h.since⟩
  refine (tidy_abandon h0 hn hl).mono (fun _ v1 hpost => ?_) fun _ _ h1 => h1
  obtain ⟨h1, hgiven⟩ := hpost
  exact ⟨h1.orderly.restate hgiven.loose hgiven.loose.state h1.orderly.stopped hgiven.loose.next,
    h1.tripped, h1.actions, h1.since⟩

theorem tidies_rejoin {ballot : Ballot} {snapshot : Snapshot m} (h : Tidy n u v) :
    Tidies n u (rejoin sha bounds ballot snapshot) v := by
  unfold rejoin
  simp only [wp_bind, wp_get, wp_need, wp_modify]
  refine ⟨fun _ => ?_, fun _ => h⟩
  refine (tidy_onStore h Store.advances_installProven).mono (fun _ v1 hpost => ?_) fun _ _ h1 => h1
  obtain ⟨h1, -⟩ := hpost
  have h2 : Tidy n u { v1 with imageIndex := none } := ⟨h1.orderly, h1.tripped, h1.actions, h1.since⟩
  refine (hushed_proven _).mono (fun _ v2 hv2 => ?_) fun _ v2 hv2 => h2.still hv2
  have h3 := h2.still hv2
  exact hushed_armElection.tidies ⟨h3.orderly, h3.tripped, h3.actions, h3.since⟩

theorem tidies_frozen {ballot : Ballot} (h : Tidy n u v) :
    Tidies n u (frozen sha bounds ballot) v := by
  unfold frozen
  simp only [wp_bind, wp_get, wp_need]
  refine ⟨fun _ => ?_, fun _ => h⟩
  split
  · exact h
  · simp only [wp_bind, wp_pure]
    exact (tidy_onStore h Store.advances_prepare).mono (fun _ _ h1 => h1.1) fun _ _ h1 => h1

theorem tidies_start {time : ℕ} (h : Tidy n u v) (hu : u.state = .starting) (hn : n + 3 ≤ l)
    (hl : l ≤ maxActions) : Tidies l u (start sha bounds time) v := by
  have hmono := h.mono (l := l) (by omega)
  unfold start
  refine hushed_clock.bind hmono fun _ v1 hv1 => ?_
  refine hushed_room.bind (hmono.still hv1) fun _ v2 hv2 => ?_
  have h2 := (h.still hv1).still hv2
  simp only [wp_bind, wp_get, wp_need, wp_modify]
  refine ⟨fun hstopped => ?_, fun _ => h2.mono (by omega)⟩
  have hloose := h2.orderly.loose (h2.orderly.inactive (by rw [hstopped]; rfl))
  have h3 : Orderly { v2.toAuthority with state := .starting, imageContinuation := some .start }
      v2.deferredPreparePeer v2.publishedIndex := by
    refine h2.orderly.restate hloose (by simp) (by simp) ?_
    rintro k ⟨⟩
    exact ⟨rfl, fun _ => rfl⟩
  exact tidies_withImage ⟨h3, h2.tripped, h2.actions, ⟨h2.since.published, fun hne => absurd hu hne⟩⟩
    hn hl

/-- The answer of the application; the continuation that waited for it is resumed. -/
theorem tidies_reconstructed {id : ℕ} {application : Option Bytes} {time : ℕ} (h : Tidy n u v)
    (hn : n + 4 ≤ l) (hl : l ≤ maxActions) :
    Tidies l u (reconstructed sha bounds id application time) v := by
  have hmono := h.mono (l := l) (by omega)
  unfold reconstructed
  refine hushed_clock.bind hmono fun _ v1 hv1 => ?_
  refine hushed_room.bind (hmono.still hv1) fun _ v2 hv2 => ?_
  have h2 := (h.still hv1).still hv2
  have hmono2 := h2.mono (l := l) (by omega)
  simp only [wp_bind, wp_get]
  split
  · exact hmono2
  · simp only [wp_bind, wp_need, wp_modify, wp_get, wp_ite, wp_pure]
    have h3 : Tidy n u { v2 with reconstruction := none } :=
      ⟨h2.orderly, h2.tripped, h2.actions, h2.since⟩
    refine ⟨fun _ => ⟨fun _ => h3.mono (by omega), fun _ => ?_⟩, fun _ => hmono2⟩
    split
    · exact tidies_fail h3 (by omega) hl
    · simp only [wp_bind, wp_capacity, wp_modify]
      refine ⟨fun _ => ?_, fun _ => h3.mono (by omega)⟩
      split
      · exact Tidy.mono ⟨{ h2.orderly with resuming := by simp }, h2.tripped, h2.actions, h2.since⟩
          (by omega)
      · rename_i k hk
        refine Wp.tryCatch (I := fun _ (v' : Voter m) => Tidy (n + 3) u v') ?_ fun e v3 h4 =>
          tidies_fail h4 (by omega) hl
        refine Wp.mono (Q := fun _ v' => Tidy (n + 3) u v') (E := fun _ v' => Tidy (n + 3) u v')
          (tidies_withImage (n := n) ⟨{ h2.orderly with resuming := ?_ }, h2.tripped, h2.actions,
            h2.since⟩ (le_refl _) (by omega)) (fun _ _ h4 => h4.mono (by omega)) fun _ _ h4 => h4
        rintro k' ⟨⟩
        exact h2.orderly.resuming k hk

omit [DecidableEq D] in
theorem tidies_retry {id : ℕ} (h : Tidy n u v) : Tidies n u (retry bounds id) v := by
  unfold retry
  refine hushed_after.bind h fun at' v1 hv1 => ?_
  have h1 := h.still hv1
  rw [wp_modify]
  exact ⟨h1.orderly.retried fun p => by split <;> rfl, h1.tripped, h1.actions, h1.since⟩

omit [DecidableEq D] in
theorem tidies_defer {id : ℕ} (h : Tidy n u v) : Tidies n u (defer id) v := by
  unfold defer
  exact wp_modify.mpr
    ⟨h.orderly.retried fun p => by split <;> rfl, h.tripped, h.actions, h.since⟩

omit [DecidableEq D] in
theorem tidies_transportFailed {id time : ℕ} (h : Tidy n u v) (hn : n + 1 ≤ l)
    (hl : l ≤ maxActions) : Tidies l u (transportFailed bounds id time) v := by
  have hmono := h.mono (l := l) (by omega)
  unfold transportFailed
  refine hushed_clock.bind hmono fun _ v1 hv1 => ?_
  refine hushed_room.bind (hmono.still hv1) fun _ v2 hv2 => ?_
  have h2 := (h.still hv1).still hv2
  simp only [wp_bind, wp_get]
  split
  · exact h2.mono (by omega)
  · simp only [wp_bind, wp_get, wp_ite]
    exact ⟨fun _ => tidies_exchangeFailed h2 hn hl, fun _ => tidies_retry (h2.mono (by omega))⟩

omit [DecidableEq D] in
theorem tidies_transportDeferred {id time : ℕ} (h : Tidy n u v) (hn : n + 1 ≤ l)
    (hl : l ≤ maxActions) : Tidies l u (transportDeferred bounds id time) v := by
  have hmono := h.mono (l := l) (by omega)
  unfold transportDeferred
  refine hushed_clock.bind hmono fun _ v1 hv1 => ?_
  refine hushed_room.bind (hmono.still hv1) fun _ v2 hv2 => ?_
  have h2 := (h.still hv1).still hv2
  simp only [wp_bind, wp_get]
  split
  · exact h2.mono (by omega)
  · simp only [wp_bind, wp_get, wp_ite]
    exact ⟨fun _ => tidies_exchangeFailed h2 hn hl, fun _ =>
      (tidies_defer (n := l) (h2.mono (by omega))).bind (le_refl l) fun _ _ h3 => tidies_retry h3⟩

/-! ### Proposals -/

/-- The next step of a campaign in recovery or of a leader may be taken. -/
structure Poised (a : Authority m) : Prop extends Active a where
  calm : Calm a.exchanges
  state : a.state = .recovering ∨ a.state = .leaderReady

omit [DecidableEq D] in
theorem Poised.awake {a : Authority m} (h : Poised a) :
    a.state.inactive = false ∧ a.state ≠ .starting ∧ a.state ≠ .candidate := by
  rcases h.state with heq | heq
  · rw [heq]
    simp [State.inactive]
  · rw [heq]
    simp [State.inactive]

omit [DecidableEq D] in
/-- A request to any peer when only heartbeats are under way. -/
theorem Poised.clear {a : Authority m} {deferred : Option Node} {peer : Node} {kind : Kind}
    (h : Poised a) (hphase : kind.Phase a) (hkind : kind ≠ .heartbeat) :
    Clear a deferred peer kind := by
  refine ⟨fun q hq heq => ?_, hphase, fun _ => ⟨h.toActive, fun hstate =>
    absurd hstate h.awake.2.2, fun _ => h.calm⟩⟩
  have hbeats : q.beats = decide (kind = .heartbeat) := congrArg Prod.snd heq
  rw [h.calm q hq] at hbeats
  exact hkind (of_decide_eq_true hbeats.symm)

omit [DecidableEq D] in
/-- Any step of the operation when only heartbeats are under way. -/
theorem tidy_operate (op : Option (Operation m)) (h : Tidy n u v) (hpoised : Poised v.toAuthority)
    (hcampaign : v.campaign.isSome) : Tidy n u { v with operation := op } := by
  refine ⟨.of_calm h.orderly.lanes hpoised.calm hcampaign h.orderly.owner (fun _ => hpoised.state)
    (fun k hk => ?_) h.orderly.published h.orderly.covered hpoised.awake.1,
    h.tripped, h.actions, h.since⟩
  have hleads := hpoised.continuation k hk
  refine ⟨?_, fun hleads' => by rw [hleads] at hleads'; cases hleads'⟩
  have hawaits := (h.orderly.resuming k hk).1
  cases k with
  | start => exact absurd hawaits hpoised.awake.2.1
  | campaign expected => cases hleads
  | publish op expected => cases hleads
  | prepare message => trivial
  | publishLocal expected => trivial

omit [DecidableEq D] in
theorem tidies_fresh {operation : ℕ} {payload : Bytes} (h : Tidy n u v) :
    Wp (fresh sha operation payload) v (fun _ v' => v' = v) fun _ v' => Tidy n u v' ∧
      v'.operation = v.operation := by
  refine wp_fresh.mono (fun _ v' h' => h'.1) fun _ v' h' => ?_
  obtain ⟨s, rfl, hs⟩ := h'
  exact ⟨⟨h.orderly.advance hs.advances, h.tripped, h.actions, h.since⟩, rfl⟩

theorem tidies_commit {entry : Entry D} {request : ℕ} {recovery : Bool} (h : Tidy n u v)
    (hpoised : Poised v.toAuthority) (hn : n + 1 ≤ l) (hl : l ≤ maxActions) :
    Tidies l u (commit sha bounds entry request recovery) v := by
  have hmono := h.mono (l := l) (by omega)
  unfold commit
  simp only [wp_bind, wp_get]
  split
  · exact hmono
  · rename_i c hc
    simp only [wp_bind, wp_need]
    refine ⟨fun _ => ?_, fun _ => hmono⟩
    refine (hushed_promiseOf v).mono (fun promised v1 hv1 => ?_) fun _ v1 hv1 => hmono.still hv1
    have h1 := h.still hv1
    have hpoised1 : Poised v1.toAuthority := by
      rw [hv1.authority]
      exact hpoised
    have hcampaign1 : v1.campaign = some c := by
      rw [hv1.authority]
      exact hc
    refine ⟨fun _ => ?_, fun _ => h1.mono (by omega)⟩
    split
    · simp only [wp_bind, wp_capacity]
      refine ⟨fun _ => ?_, fun _ => h1.mono (by omega)⟩
      refine (hushed_after v1).mono (fun deadline v2 hv2 => ?_)
        fun _ v2 hv2 => (h1.still hv2).mono (by omega)
      have hpoised2 : Poised v2.toAuthority := by
        rw [hv2.authority]
        exact hpoised1
      have hcampaign2 : v2.campaign.isSome := by
        rw [hv2.authority, hcampaign1]
        rfl
      simp only [wp_modify, mark]
      have h3 := tidy_operate (some ⟨entry, request, deadline, recovery, none, none, true⟩)
        (h1.still hv2) hpoised2 hcampaign2
      have h4 : Tidy n u { v2 with
          operation := some ⟨entry, request, deadline, recovery, none, none, true⟩
          trace := v2.trace ++ [.proposed request entry] } :=
        ⟨h3.orderly.aside, h3.tripped, h3.actions, h3.since⟩
      refine (tidy_onStore h4 Store.advances_acceptRow).mono (fun receipt v3 hpost => ?_)
        fun _ _ h5 => h5.mono (by omega)
      obtain ⟨h5, s, hv3, -⟩ := hpost
      have hpoised3 : Poised v3.toAuthority := by
        rw [hv3]
        exact ⟨⟨hpoised2.publication, hpoised2.continuation⟩, hpoised2.calm, hpoised2.state⟩
      have hcampaign3 : v3.campaign.isSome := by
        rw [hv3]
        exact hcampaign2
      have hoperation3 : v3.operation =
          some ⟨entry, request, deadline, recovery, none, none, true⟩ := by
        rw [hv3]
      have h6 := tidy_operate (v3.operation.map fun op => { op with ownReceipt := some receipt })
        h5 hpoised3 hcampaign3
      refine (hushed_progress _).mono (fun _ v4 hv4 => ?_) fun _ v4 hv4 => (h6.still hv4).mono (by omega)
      have h7 := h6.still hv4
      split
      · exact h7.mono (by omega)
      · refine tidies_send h7 (Poised.clear ?_ ?_ (by simp [Request.kind])) hn hl
        · rw [hv4.authority]
          exact ⟨⟨hpoised3.publication, hpoised3.continuation⟩, hpoised3.calm, hpoised3.state⟩
        · rw [hv4.authority]
          exact ⟨_, by rw [hoperation3]; rfl, rfl⟩
    · exact h1.mono (by omega)

theorem tidies_recommit {operation : ℕ} {payload : Bytes} (h : Tidy n u v)
    (hpoised : Poised v.toAuthority) (hn : n + 1 ≤ l) (hl : l ≤ maxActions) :
    Tidies l u (do
      let entry ← fresh sha operation payload
      commit sha bounds entry 0 true) v := by
  refine Wp.bind (tidies_fresh h |>.mono (fun _ _ h1 => h1) fun _ _ h1 => h1.1.mono (by omega))
    fun entry v1 h1 => ?_
  subst h1
  exact tidies_commit h hpoised hn hl

theorem tidies_submit {request operation : ℕ} {payload : Bytes} {time : ℕ} (h : Tidy n u v)
    (hn : n + 2 ≤ l) (hl : l ≤ maxActions) :
    Tidies l u (submit sha bounds request operation payload time) v := by
  unfold submit
  refine (tidies_mark h).bind (by omega) fun _ v0 h0 => ?_
  have hmono0 := h0.mono (l := l) (by omega)
  refine hushed_clock.bind hmono0 fun _ v1 hv1 => ?_
  refine hushed_room.bind (hmono0.still hv1) fun _ v2 hv2 => ?_
  have h2 := (h0.still hv1).still hv2
  simp only [wp_bind, wp_get, wp_need, wp_ite]
  refine ⟨fun _ => ⟨fun _ => tidies_complete h2 (by omega) hl, fun hcond => ?_⟩,
    fun _ => h2.mono (by omega)⟩
  have hready : v2.state = .leaderReady ∧ v2.operation = none ∧ v2.publication = none := by
    simpa [not_or] using hcond
  obtain ⟨hstate, hoperation, hpublication⟩ := hready
  have hpoised : Poised v2.toAuthority := by
    refine ⟨⟨hpublication, fun k hk => ?_⟩, fun q hq => ?_, .inr hstate⟩
    · have hawaits := (h2.orderly.resuming k hk).1
      cases k with
      | campaign expected => cases hstate.symm.trans hawaits.1
      | publish op expected => cases hoperation.symm.trans hawaits.1
      | start => rfl
      | prepare message => rfl
      | publishLocal expected => rfl
    · have hphase := h2.orderly.phases q hq
      refine decide_eq_true ?_
      cases hkind : q.message.request.kind with
      | heartbeat => rfl
      | prepare =>
        rw [hkind] at hphase
        cases hstate.symm.trans hphase
      | install =>
        rw [hkind] at hphase
        cases hstate.symm.trans hphase.1
      | accept =>
        rw [hkind] at hphase
        obtain ⟨op, hop, -⟩ := hphase
        cases hoperation.symm.trans hop
      | proof =>
        rw [hkind] at hphase
        obtain ⟨op, hop, -⟩ := hphase
        cases hoperation.symm.trans hop
  refine Wp.tryCatch (I := fun _ (v' : Voter m) => Tidy (n + 1) u v') ?_ fun e v3 h3 => ?_
  · refine Wp.bind (tidies_fresh h2 |>.mono (fun _ _ h3 => h3) fun _ _ h3 => h3.1.mono (by omega))
      fun entry v3 h3 => ?_
    subst h3
    exact (tidies_commit (l := n + 1) h2 hpoised (by omega) (by omega)).mono
      (fun _ _ h4 => h4.mono (by omega)) fun _ _ h4 => h4
  · simp only [wp_bind, wp_get, wp_ite]
    exact ⟨fun _ => tidies_complete h3 (by omega) hl, fun _ => tidies_fail h3 (by omega) hl⟩

/-- The proof of the operation is made from the two receipts. -/
theorem tidies_accepted {sender : Node} {receipt : D} (h : Tidy n u v)
    (hpoised : v.operation.isSome → Poised v.toAuthority) (hn : n + 1 ≤ l) (hl : l ≤ maxActions) :
    Tidies l u (accepted sha bounds sender receipt) v := by
  have hmono := h.mono (l := l) (by omega)
  unfold accepted
  simp only [wp_bind, wp_get]
  split
  · rename_i op c hop hc
    have hpoised := hpoised (by rw [hop]; rfl)
    simp only [wp_bind, wp_need]
    refine ⟨fun _ => ⟨fun _ => ?_, fun _ => hmono⟩, fun _ => hmono⟩
    split
    · simp only [wp_bind, wp_modify]
      refine (tidy_onStore (tidy_operate _ h hpoised (by rw [hc]; rfl)) Store.advances_proveRow).mono
        (fun _ v1 hpost => ?_) fun _ _ h1 => h1.mono (by omega)
      obtain ⟨h1, s, hv1, -⟩ := hpost
      refine (hushed_proven v1).mono (fun _ v2 hv2 => ?_)
        fun _ v2 hv2 => (h1.still hv2).mono (by omega)
      have h2 := h1.still hv2
      refine (hushed_progress v2).mono (fun _ v3 hv3 => ?_)
        fun _ v3 hv3 => (h2.still hv3).mono (by omega)
      have hauthority := hv3.authority.trans hv2.authority
      rw [hv1] at hauthority
      refine tidies_send (h2.still hv3) (Poised.clear ?_ ?_ (by simp [Request.kind])) hn hl
      · rw [hauthority]
        exact ⟨⟨hpoised.publication, hpoised.continuation⟩, hpoised.calm, hpoised.state⟩
      · rw [hauthority]
        exact ⟨_, rfl, rfl⟩
    · exact hmono
  · exact hmono

theorem tidies_proved {sender : Node} {receipt : D} (h : Tidy n u v)
    (hpoised : v.operation.isSome → Poised v.toAuthority) (hn : n + 3 ≤ l) (hl : l ≤ maxActions) :
    Tidies l u (proved sha bounds sender receipt) v := by
  have hmono := h.mono (l := l) (by omega)
  unfold proved
  simp only [wp_bind, wp_get]
  split
  · rename_i op c hop hc
    have hpoised := hpoised (by rw [hop]; rfl)
    split
    · exact hmono
    · rename_i proof hproof
      simp only [wp_bind, wp_need]
      refine ⟨fun _ => ⟨fun _ => ?_, fun _ => hmono⟩, fun _ => hmono⟩
      refine tidies_withImage ⟨{ h.orderly with resuming := ?_ }, h.tripped, h.actions, h.since⟩ hn hl
      rintro k ⟨⟩
      exact ⟨⟨hop, by rw [hproof]; rfl⟩, fun _ => ⟨hpoised.publication, hpoised.calm⟩⟩
  · exact hmono

theorem tidies_activated {op : Operation m} {ballot : Ballot} (h : Tidy n u v)
    (hpoised : Poised v.toAuthority) (hcampaign : v.campaign.isSome) (hn : n + 1 ≤ l)
    (hl : l ≤ maxActions) : Tidies l u (activated sha bounds op ballot) v := by
  unfold activated
  refine wp_ite.mpr ⟨fun _ => tidies_recommit h hpoised hn hl, fun _ => ?_⟩
  rw [wp_bind, wp_modify]
  have h1 : Tidy n u { v with
      state := .leaderReady, failedQuorumPeer := none, campaignDeadline := maxLong
      heartbeatAt := v.now } := by
    refine ⟨.of_calm h.orderly.lanes hpoised.calm hcampaign h.orderly.owner (by simp)
      (fun k hk => ?_) h.orderly.published h.orderly.covered rfl, h.tripped, h.actions,
      h.since.restate (by simp)⟩
    have hleads := hpoised.continuation k hk
    refine ⟨?_, fun _ => hpoised.publication⟩
    have hawaits := (h.orderly.resuming k hk).1
    cases k with
    | start => exact absurd hawaits hpoised.awake.2.1
    | campaign expected => cases hleads
    | publish op expected => cases hleads
    | prepare message => trivial
    | publishLocal expected => trivial
  exact hushed_progress.tidies (h1.mono (by omega))

omit [DecidableEq D] in
/-- The published index moves to that of the publication that is over. -/
theorem tidy_publishedIndex {index : ℕ} (h : Tidy n u v) (hnone : v.publication = none)
    (hindex : v.publishedIndex ≤ index ∧ index ≤ v.store.provenThrough) :
    Tidy n u { v with publishedIndex := index } := by
  refine ⟨{ h.orderly with published := ⟨hindex.2, fun p hp => ?_⟩ }, h.tripped, h.actions,
    ⟨h.since.published.trans hindex.1, h.since.awake⟩⟩
  rw [show v.publication = none from hnone] at hp
  cases hp

theorem tidies_publishedLeader {completed : Publish m} (h : Tidy n u v)
    (hnone : v.publication = none) (hcalm : v.campaign.isSome → Calm v.exchanges)
    (hleads : ∀ k ∈ v.imageContinuation, k.leads = false)
    (hindex : v.publishedIndex ≤ completed.snapshot.index ∧
      completed.snapshot.index ≤ v.store.provenThrough) (hn : n + 1 ≤ l) (hl : l ≤ maxActions) :
    Tidies l u (publishedLeader sha bounds completed) v := by
  have hmono := h.mono (l := l) (by omega)
  unfold publishedLeader
  simp only [wp_bind, wp_get]
  split
  · exact hmono
  · rename_i op hop
    simp only [wp_bind, wp_ite, wp_pure]
    refine ⟨fun _ => hmono, fun hcurrent => ?_⟩
    have hcampaign : v.campaign.isSome := by
      rw [not_or, not_not] at hcurrent
      rw [hcurrent.1]
      rfl
    have hpoised : Poised v.toAuthority :=
      ⟨⟨hnone, hleads⟩, hcalm hcampaign, h.orderly.operating (by rw [hop]; rfl)⟩
    refine (hushed_promiseOf v).mono (fun promised v1 hv1 => ?_) fun _ v1 hv1 => hmono.still hv1
    have h1 := h.still hv1
    have hpoised1 : Poised v1.toAuthority := by
      rw [hv1.authority]
      exact hpoised
    have hcampaign1 : v1.campaign.isSome := by
      rw [hv1.authority]
      exact hcampaign
    refine ⟨fun _ => h1.mono (by omega), fun _ => ⟨fun _ => tidies_abandon h1 hn hl, fun _ => ?_⟩⟩
    rw [wp_modify]
    have hindex1 : v1.publishedIndex ≤ completed.snapshot.index ∧
        completed.snapshot.index ≤ v1.store.provenThrough := by
      rw [hv1.published, hv1.authority]
      exact hindex
    have h2 := tidy_publishedIndex (tidy_operate none h1 hpoised1 hcampaign1) hpoised1.publication
      hindex1
    refine ⟨fun _ => ?_, fun _ => tidies_complete h2 hn hl⟩
    exact tidies_activated h2 ⟨⟨hpoised1.publication, hpoised1.continuation⟩, hpoised1.calm,
      hpoised1.state⟩ hcampaign1 hn hl

theorem tidies_published {id : ℕ} {error : Bool} {time : ℕ} (h : Tidy n u v) (hn : n + 1 ≤ l)
    (hl : l ≤ maxActions) : Tidies l u (published sha bounds id error time) v := by
  have hmono := h.mono (l := l) (by omega)
  unfold published
  refine hushed_clock.bind hmono fun _ v1 hv1 => ?_
  refine hushed_room.bind (hmono.still hv1) fun _ v2 hv2 => ?_
  have h2 := (h.still hv1).still hv2
  rw [wp_bind, wp_get]
  split
  · exact h2.mono (by omega)
  · rename_i completed hcompleted
    have hcompleted' : completed ∈ v2.publication := hcompleted
    simp only [wp_bind, wp_need, wp_modify, wp_get, wp_ite, wp_pure]
    refine ⟨fun _ => ?_, fun _ => h2.mono (by omega)⟩
    -- with a publication there was no other step of the campaign
    have hleads : ∀ k ∈ v2.imageContinuation, k.leads = false := by
      intro k hk
      by_contra hne
      have hnone := ((h2.orderly.resuming k hk).2 (by simpa using hne)).1
      rw [hcompleted] at hnone
      cases hnone
    have h3 : Tidy n u { v2 with publication := none } :=
      ⟨{ h2.orderly with
        resuming := fun k hk => ⟨by
          have hawaits := (h2.orderly.resuming k hk).1
          cases k <;> exact hawaits, fun hk' => by rw [hleads k hk] at hk'; cases hk'⟩
        publishing := by simp
        published := ⟨h2.orderly.published.1, by simp⟩
        stopped := fun _ => rfl }, h2.tripped, h2.actions, h2.since⟩
    refine ⟨fun _ => h3.mono (by omega), fun _ => ⟨fun _ => tidies_fail h3 hn hl, fun _ => ?_⟩⟩
    have hbounds := h2.orderly.published.2 completed hcompleted'
    simp only [mark, wp_modify]
    have h4 : Tidy n u { v2 with
        publication := none, trace := v2.trace ++ [.published completed] } :=
      ⟨h3.orderly.aside, h3.tripped, h3.actions, h3.since⟩
    refine ⟨fun _ => ⟨fun _ => ?_, fun _ => h4.mono (by omega)⟩, fun _ => ?_⟩
    · refine (hushed_proven _).mono (fun through v3 hv3 => ?_)
        fun _ v3 hv3 => (h4.still hv3).mono (by omega)
      have h5 := h4.still hv3
      refine ⟨fun _ => ?_, fun _ => h5.mono (by omega)⟩
      refine (tidy_publishedIndex h5 ?_ ?_).mono (by omega)
      · rw [hv3.authority]
      · rw [hv3.published, hv3.authority]
        exact hbounds
    · refine tidies_publishedLeader h4 rfl (fun hc => ?_) hleads hbounds hn hl
      exact h2.orderly.publishing (Option.isSome_of_mem hcompleted') hc

omit [DecidableEq D] in
theorem tidies_cancel {request time : ℕ} (h : Tidy n u v) (hn : n + 1 ≤ l) (hl : l ≤ maxActions) :
    Tidies l u (cancel bounds request time) v := by
  have hmono := h.mono (l := l) (by omega)
  unfold cancel
  refine hushed_clock.bind hmono fun _ v1 hv1 => ?_
  refine hushed_room.bind (hmono.still hv1) fun _ v2 hv2 => ?_
  have h2 := (h.still hv1).still hv2
  simp only [wp_bind, wp_get, wp_ite, wp_pure]
  exact ⟨fun _ => tidies_abandon h2 hn hl, fun _ => h2.mono (by omega)⟩

omit [DecidableEq D] in
theorem tidies_quiesce (h : Tidy n u v) (hn : n + 2 ≤ l) (hl : l ≤ maxActions) :
    Tidies l u (quiesce bounds) v := by
  have hmono := h.mono (l := l) (by omega)
  unfold quiesce
  refine hushed_room.bind hmono fun _ v1 hv1 => ?_
  have h1 := h.still hv1
  simp only [wp_bind, wp_get, wp_ite, wp_pure]
  refine ⟨fun _ => h1.mono (by omega), fun _ => ?_⟩
  have hclose : ∀ v2, Tidy (n + 1) u v2 → Wp (abandon bounds .closed) v2
      (fun _ v3 => Tidy l u { v3 with state := .closed, electionAt := maxLong })
      fun _ v3 => Tidy l u v3 := by
    intro v2 h2
    refine (tidy_abandon h2 (by omega) hl).mono (fun _ v3 hpost => ?_) fun _ _ h3 => h3
    obtain ⟨h3, hgiven⟩ := hpost
    exact ⟨h3.orderly.restate hgiven.loose (by simp) (by simp) (by simp [hgiven.continuation]),
      h3.tripped, h3.actions, h3.since.restate (by simp)⟩
  split
  · exact hclose v1 (h1.mono (by omega))
  · simp only [wp_bind, wp_modify]
    refine (tidies_reply (l := n + 1) h1 (by omega) (by omega)).mono (fun _ v2 h2 => hclose _ ?_)
      fun _ _ h2 => h2.mono (by omega)
    exact ⟨h2.orderly, h2.tripped, h2.actions, h2.since⟩

/-! ### Requests -/

theorem tidies_adopt {chosen : Selection m} (h : Tidy n u v) : Wp (adopt sha chosen) v
    (fun _ v' => Tidy n u v' ∧ ∃ s, v'.toAuthority = { v.toAuthority with store := s })
    fun _ v' => Tidy n u v' := by
  unfold adopt
  rw [wp_bind]
  refine (hushed_proven v).mono (fun through v1 hv1 => ?_) fun _ v1 hv1 => h.still hv1
  have h1 := h.still hv1
  have hsame : ∃ s, v1.toAuthority = { v.toAuthority with store := s } := ⟨_, hv1.authority⟩
  simp only [wp_bind, wp_ite, wp_onStore, Store.wp_usable, wp_get, wp_pure, wp_modify]
  refine ⟨fun _ => ⟨fun _ => ⟨fun _ => ?_, fun _ => ⟨h1, hsame⟩⟩, fun _ => h1⟩, fun _ => ⟨h1, hsame⟩⟩
  refine Store.advances_installSelected.mono (fun _ s hs => ?_) fun _ s hs =>
    ⟨h1.orderly.advance hs, h1.tripped, h1.actions, h1.since⟩
  have h2 : Tidy n u { v1 with store := s, imageIndex := none } :=
    ⟨h1.orderly.advance hs, h1.tripped, h1.actions, h1.since⟩
  refine (hushed_proven _).mono (fun _ v2 hv2 => ⟨h2.still hv2, s, ?_⟩) fun _ v2 hv2 => h2.still hv2
  rw [hv2.authority, hv1.authority]

omit [DecidableEq D] in
/-- A new fence leaves nothing of the old one. -/
theorem tidies_raiseFence {ballot : Ballot} (h : Tidy n u v) (hn : n + 2 ≤ l) (hl : l ≤ maxActions) :
    Wp (raiseFence bounds ballot) v (fun _ v' => Tidy l u v' ∧ Loose v'.toAuthority)
      fun _ v' => Tidy l u v' := by
  unfold raiseFence
  rw [wp_bind]
  refine (tidy_abandon (l := n + 1) h (by omega) (by omega)).mono (fun _ v1 hpost => ?_)
    fun _ _ h1 => h1.mono (by omega)
  obtain ⟨h1, hgiven⟩ := hpost
  simp only [wp_bind, wp_modify, wp_get]
  have hloose : ∀ b, Loose { v1.toAuthority with fence := b } := fun b =>
    ⟨hgiven.loose.campaign, hgiven.loose.exchanges, hgiven.loose.operation,
      by simp [hgiven.continuation], hgiven.loose.state⟩
  have h2 : Tidy (n + 1) u { v1 with
      fence := ballot, maxEpoch := max v1.maxEpoch ballot.epoch
      lastHeartbeat := 0, lastStage := 0, lastProgress := 0 } :=
    ⟨h1.orderly.restate hgiven.loose hgiven.loose.state h1.orderly.stopped hgiven.loose.next,
      h1.tripped, h1.actions, h1.since⟩
  split
  · exact ⟨h2.mono (by omega), hloose ballot⟩
  · rw [wp_bind]
    refine (tidy_reply h2 (by omega) hl).mono (fun _ v2 hpost => ?_) fun _ _ h3 => h3
    obtain ⟨h3, actions, hv2⟩ := hpost
    rw [wp_modify]
    refine ⟨⟨h3.orderly, h3.tripped, h3.actions, h3.since⟩, ?_⟩
    show Loose v2.toAuthority
    rw [hv2]
    exact ⟨hgiven.loose.campaign, hgiven.loose.exchanges, hgiven.loose.operation,
      by simp [hgiven.continuation], hgiven.loose.state⟩

/-- A PREPARE of a current proposer finds no campaign of the voter's own. -/
theorem tidies_prepare {message : Call m} (h : Tidy n u v)
    (hfence : message.ballot = v.fence → v.campaign = none) (hn : n + 5 ≤ l) (hl : l ≤ maxActions) :
    Tidies l u (prepare sha bounds message) v := by
  have hrest : ∀ v1, Tidy (n + 2) u v1 → Loose v1.toAuthority → Tidies l u (do
      if (← get).preparing.isSome then reply message (.refused .prepare .capacityExceeded)
      else
        modify fun v => { v with state := .follower, preparing := some message }
        withImage sha bounds (.prepare message)) v1 := by
    intro v1 h1 hloose
    simp only [wp_bind, wp_get, wp_ite, wp_modify]
    refine ⟨fun _ => tidies_reply h1 (by omega) hl, fun _ => ?_⟩
    have h2 : Orderly { v1.toAuthority with
        state := .follower, imageContinuation := some (.prepare message) }
        v1.deferredPreparePeer v1.publishedIndex := by
      refine h1.orderly.restate hloose (by simp) (by simp) ?_
      rintro k ⟨⟩
      exact ⟨rfl, fun hk => by cases hk⟩
    exact tidies_withImage ⟨h2, h1.tripped, h1.actions, h1.since.restate (by simp)⟩ (by omega) hl
  unfold prepare
  simp only [wp_bind, wp_get, wp_ite]
  refine ⟨fun _ => tidies_reply h (by omega) hl, fun hle => ?_⟩
  simp only [wp_need]
  refine ⟨fun hsame => ⟨fun _ => ?_, fun hge => ?_⟩, fun _ => h.mono (by omega)⟩
  · refine (tidies_raiseFence (l := n + 2) h (by omega) (by omega)).mono
      (fun _ v1 hpost => ?_) fun _ _ h1 => h1.mono (by omega)
    obtain ⟨h1, hloose⟩ := hpost
    have hrun := hrest v1 h1 hloose
    simpa only [wp_bind, wp_get, wp_ite, wp_modify] using hrun
  · have heq : message.ballot = v.fence := hsame.resolve_left fun hne => by omega
    have hrun := hrest v (h.mono (by omega)) (h.orderly.loose (hfence heq))
    simpa only [wp_pure, wp_bind, wp_get, wp_ite, wp_modify] using hrun

omit [DecidableEq D] in
theorem tidies_heartbeat {message : Call m} {pulse : Pulse} (h : Tidy n u v) (hn : n + 1 ≤ l)
    (hl : l ≤ maxActions) : Tidies l u (heartbeat bounds message pulse) v := by
  unfold heartbeat
  simp only [wp_bind, wp_need, wp_get, wp_ite, wp_modify, wp_pure]
  have hreply : ∀ v1, Tidy n u v1 → Tidies l u (reply message (.beaten pulse.sequence)) v1 :=
    fun v1 h1 => tidies_reply h1 hn hl
  have h1 : Tidy n u { v with lastHeartbeat := pulse.sequence } :=
    ⟨h.orderly, h.tripped, h.actions, h.since⟩
  refine ⟨fun _ => ⟨fun _ => ⟨fun _ => ?_, fun _ => hreply _ h1⟩, fun _ => hreply _ h⟩,
    fun _ => h.mono (by omega)⟩
  have h2 : Tidy n u { v with
      lastHeartbeat := pulse.sequence, lastStage := pulse.stage, lastProgress := pulse.bytes } :=
    ⟨h.orderly, h.tripped, h.actions, h.since⟩
  exact (hushed_armElection _).mono (fun _ v2 hv2 => hreply _ (h2.still hv2))
    fun _ v2 hv2 => (h2.still hv2).mono (by omega)

theorem tidies_installRequest {message : Call m} {bases : List (Basis m)} (h : Tidy n u v)
    (hn : n + 1 ≤ l) (hl : l ≤ maxActions) :
    Tidies l u (installRequest sha bounds message bases) v := by
  have hmono := h.mono (l := l) (by omega)
  unfold installRequest
  simp only [wp_bind, wp_get, wp_need]
  refine ⟨fun _ => ?_, fun _ => hmono⟩
  refine (hushed_lift v).mono (fun _ v1 hv1 => ?_) fun _ v1 hv1 => hmono.still hv1
  have h1 := h.still hv1
  refine (tidy_onStore h1 Store.advances_prepare).mono (fun frozen v2 hpost => ?_)
    fun _ _ h2 => h2.mono (by omega)
  obtain ⟨h2, -⟩ := hpost
  refine ⟨fun _ => ?_, fun _ => h2.mono (by omega)⟩
  refine (tidy_onStore h2 Store.advances_selectBases).mono (fun chosen v3 hpost => ?_)
    fun _ _ h3 => h3.mono (by omega)
  obtain ⟨h3, -⟩ := hpost
  refine (tidies_adopt h3).mono (fun adopted v4 hpost => ?_) fun _ _ h4 => h4.mono (by omega)
  obtain ⟨h4, -⟩ := hpost
  rw [wp_ite]
  exact ⟨fun _ => tidies_reply h4 hn hl, fun _ => tidies_reply h4 hn hl⟩

theorem tidies_perform {message : Call m} (h : Tidy n u v)
    (hfence : message.ballot = v.fence → v.campaign = none) (hn : n + 5 ≤ l) (hl : l ≤ maxActions) :
    Tidies l u (perform sha bounds message) v := by
  have hmono := h.mono (l := l) (by omega)
  have hreply : ∀ (response : Response m) v1, Tidy n u v1 →
      Tidies l u (reply message response) v1 := fun _ v1 h1 => tidies_reply h1 (by omega) hl
  unfold perform
  split
  · exact tidies_prepare h hfence hn hl
  · simp only [wp_bind, wp_get, wp_ite]
    refine ⟨fun _ => hreply _ _ h, fun _ => ?_⟩
    refine (hushed_promiseOf v).mono (fun promised v1 hv1 => ?_) fun _ v1 hv1 => hmono.still hv1
    have h1 := h.still hv1
    refine ⟨fun _ => hreply _ _ h1, fun _ => ?_⟩
    split
    · exact h1.mono (by omega)
    · exact tidies_installRequest h1 (by omega) hl
    · simp only [wp_bind, wp_need]
      refine ⟨fun _ => ?_, fun _ => h1.mono (by omega)⟩
      exact (tidy_onStore h1 Store.advances_acceptRow).mono (fun _ _ h2 => hreply _ _ h2.1)
        fun _ _ h2 => h2.mono (by omega)
    · simp only [wp_bind, wp_need]
      refine ⟨fun _ => ?_, fun _ => h1.mono (by omega)⟩
      refine (tidy_onStore h1 Store.advances_proveRow).mono (fun _ v2 h2 => ?_)
        fun _ _ h2 => h2.mono (by omega)
      exact (hushed_proven v2).mono (fun _ v3 hv3 => hreply _ _ (h2.1.still hv3))
        fun _ v3 hv3 => (h2.1.still hv3).mono (by omega)
    · exact tidies_heartbeat h1 (by omega) hl

/-! ### Responses -/

/-- The campaign has its promises and goes on to recovery. -/
theorem tidies_prepared {sender : Node} {basis : Basis m} (h : Tidy n u v)
    (hactive : v.state = .candidate → Active v.toAuthority) (hn : n + 1 ≤ l) (hl : l ≤ maxActions) :
    Tidies l u (prepared sha bounds sender basis) v := by
  have hmono := h.mono (l := l) (by omega)
  unfold prepared
  simp only [wp_bind, wp_get, wp_ite, wp_pure, wp_need]
  refine ⟨fun hstate => ⟨fun _ => ?_, fun _ => hmono⟩, fun _ => hmono⟩
  split
  · exact hmono
  · simp only [wp_bind, wp_capacity]
    refine ⟨fun _ => ?_, fun _ => hmono⟩
    refine (tidy_onStore h Store.advances_selectBases).mono (fun chosen v1 hpost => ?_)
      fun _ _ h1 => h1.mono (by omega)
    obtain ⟨h1, s, hv1, -⟩ := hpost
    rw [wp_modify]
    have hstate1 : v1.state = .candidate := by
      rw [hv1]
      exact hstate
    have hactive1 : Active v1.toAuthority := by
      rw [hv1]
      exact ⟨(hactive hstate).publication, (hactive hstate).continuation⟩
    have hcalm : Calm (v1.exchanges.filter fun p => p.message.request.kind ≠ .prepare) := by
      intro q hq
      obtain ⟨hmem, hkind⟩ := List.mem_filter.mp hq
      exact decide_eq_true ((h1.orderly.prepares hstate1 hmem).resolve_left (by simpa using hkind))
    have hoperation : v1.operation = none := by
      by_contra hne
      have hstep := h1.orderly.operating (Option.isSome_iff_ne_none.mpr hne)
      simp [hstate1] at hstep
    have h2 : Tidy n u { v1 with
        selection := some chosen, quorumPeer := some sender, deferredPreparePeer := none
        exchanges := v1.exchanges.filter fun p => p.message.request.kind ≠ .prepare } := by
      refine ⟨?_, h1.tripped, h1.actions, h1.since⟩
      exact { h1.orderly.drop fun p => p.message.request.kind ≠ .prepare with deferred := by simp }
    refine (tidies_adopt h2).mono (fun adopted v2 hpost => ?_) fun _ _ h3 => h3.mono (by omega)
    obtain ⟨h3, s, hv2⟩ := hpost
    have hcandidate : v2.state = .candidate := by
      rw [hv2]
      exact hstate1
    have hactive2 : Active v2.toAuthority := by
      rw [hv2]
      exact ⟨hactive1.publication, hactive1.continuation⟩
    have hcalm2 : Calm v2.exchanges := by
      rw [hv2]
      exact hcalm
    simp only [wp_ite, wp_bind, wp_modify]
    refine ⟨fun _ => ?_, fun _ => tidies_abandon h3 hn hl⟩
    have h4 : Tidy n u { v2 with state := .recovering } := by
      refine ⟨.of_calm h3.orderly.lanes hcalm2 (h3.orderly.candidate hcandidate) h3.orderly.owner
        (by simp) (fun k hk => ?_) h3.orderly.published h3.orderly.covered rfl, h3.tripped,
        h3.actions, h3.since.restate (by simp)⟩
      have hleads := hactive2.continuation k hk
      refine ⟨?_, fun _ => hactive2.publication⟩
      have hawaits := (h3.orderly.resuming k hk).1
      cases k with
      | start => cases hcandidate.symm.trans hawaits
      | campaign expected => cases hleads
      | publish op expected => cases hleads
      | prepare message => trivial
      | publishLocal expected => trivial
    refine (hushed_progress _).mono (fun _ v3 hv3 => ?_) fun _ v3 hv3 => (h4.still hv3).mono (by omega)
    refine tidies_send (h4.still hv3) (Poised.clear ?_ ?_ (by simp [Request.kind])) hn hl
    · rw [hv3.authority]
      exact ⟨⟨hactive2.publication, hactive2.continuation⟩, hcalm2, .inl rfl⟩
    · rw [hv3.authority, hv2]
      exact ⟨rfl, hoperation⟩

theorem tidies_installed {digest : D} (h : Tidy n u v)
    (hpoised : v.state = .recovering → Poised v.toAuthority) (hn : n + 1 ≤ l) (hl : l ≤ maxActions) :
    Tidies l u (installed sha bounds digest) v := by
  have hmono := h.mono (l := l) (by omega)
  unfold installed
  simp only [wp_bind, wp_get, wp_need]
  refine ⟨fun hstate => ?_, fun _ => hmono⟩
  split
  · exact hmono
  · simp only [wp_bind, wp_need]
    refine ⟨fun _ => ?_, fun _ => hmono⟩
    refine (hushed_progress v).mono (fun _ v1 hv1 => ?_) fun _ v1 hv1 => hmono.still hv1
    have hpoised1 : Poised v1.toAuthority := by
      rw [hv1.authority]
      exact hpoised hstate
    split
    · exact tidies_recommit (h.still hv1) hpoised1 hn hl
    · exact tidies_commit (h.still hv1) hpoised1 hn hl

theorem tidies_acknowledged {request : Call m} {sender : Node} {r : Response m} (h : Tidy n u v)
    (hactive : r.kind ≠ .heartbeat → Active v.toAuthority ∧
      (v.state ≠ .candidate → Calm v.exchanges)) (hn : n + 3 ≤ l) (hl : l ≤ maxActions) :
    Tidies l u (acknowledged sha bounds request sender r) v := by
  have hmono := h.mono (l := l) (by omega)
  have hpoised : r.kind ≠ .heartbeat → v.state = .recovering ∨ v.state = .leaderReady →
      Poised v.toAuthority := by
    intro hkind hstate
    refine ⟨(hactive hkind).1, (hactive hkind).2 ?_, hstate⟩
    rcases hstate with heq | heq
    · rw [heq]
      simp
    · rw [heq]
      simp
  unfold acknowledged
  split
  · exact hmono
  · exact tidies_prepared h (fun _ => (hactive (by simp [Response.kind])).1) (by omega) hl
  · exact tidies_installed h (fun hstate => hpoised (by simp [Response.kind]) (.inl hstate))
      (by omega) hl
  · exact tidies_accepted h (fun hop => hpoised (by simp [Response.kind]) (h.orderly.operating hop))
      (by omega) hl
  · exact tidies_proved h (fun hop => hpoised (by simp [Response.kind]) (h.orderly.operating hop))
      hn hl
  · split
    · simp only [wp_need]
      exact ⟨fun _ => hmono, fun _ => hmono⟩
    · exact hmono

omit [DecidableEq D] in
/-- Once the answered exchange is removed, nothing else is under way but heartbeats. -/
theorem calm_removed {a : Authority m} {deferred : Option Node} {published id : ℕ} {q : Pending m}
    (h : Orderly a deferred published) (hq : q ∈ a.exchanges) (hid : q.message.id = id)
    (hbeats : q.beats = false) (hstate : a.state ≠ .candidate) :
    Calm (a.exchanges.filter fun p => p.message.id ≠ id) := by
  intro r hr
  obtain ⟨hmem, hne⟩ := List.mem_filter.mp hr
  by_contra hfalse
  have hr' : r.beats = false := by simpa using hfalse
  have hsingle := h.single hstate
  have hqs : q ∈ a.exchanges.filter fun p => !p.beats := List.mem_filter.mpr ⟨hq, by simp [hbeats]⟩
  have hrs : r ∈ a.exchanges.filter fun p => !p.beats := List.mem_filter.mpr ⟨hmem, by simp [hr']⟩
  obtain ⟨x, hx⟩ := List.length_eq_one_iff.mp
    (Nat.le_antisymm hsingle (List.length_pos_of_mem hqs))
  rw [hx, List.mem_singleton] at hqs hrs
  rw [hrs, ← hqs] at hne
  exact of_decide_eq_true hne hid

theorem tidies_response {r : Reply m} (h : Tidy n u v) (hn : n + 4 ≤ l) (hl : l ≤ maxActions) :
    Tidies l u (response sha bounds r) v := by
  have hmono := h.mono (l := l) (by omega)
  unfold response
  simp only [wp_bind, wp_get]
  split
  · exact hmono
  · rename_i pending hpending
    have hmem := exchange?_mem hpending
    have hid : pending.message.id = r.id := by
      simpa using List.find?_some hpending
    simp only [wp_bind, wp_need, wp_get, wp_ite, wp_modify, wp_pure]
    refine ⟨fun hsame => ⟨fun _ => tidies_exchangeFailed h (by omega) hl, fun _ =>
      ⟨fun _ => tidies_abandon h (by omega) hl, fun _ => ⟨fun _ => ?_, fun _ =>
      ⟨fun _ => tidies_exchangeFailed h (by omega) hl, fun _ => ⟨fun _ => ?_, fun _ => hmono⟩⟩⟩⟩⟩,
      fun _ => hmono⟩
    · have h0 : Tidy n u { v with maxEpoch := max v.maxEpoch r.promised.epoch } :=
        ⟨h.orderly, h.tripped, h.actions, h.since⟩
      refine (tidy_abandon (l := l) h0 (by omega) hl).mono (fun _ v1 hpost => ?_)
        fun _ _ h1 => h1
      obtain ⟨h1, hgiven⟩ := hpost
      exact ⟨h1.orderly.restate hgiven.loose hgiven.loose.state h1.orderly.stopped hgiven.loose.next,
        h1.tripped, h1.actions, h1.since⟩
    · unfold removeExchange
      rw [wp_modify]
      have h1 : Tidy n u { v with exchanges := v.exchanges.filter fun p => p.message.id ≠ r.id } :=
        ⟨h.orderly.drop _, h.tripped, h.actions, h.since⟩
      refine ⟨fun _ => h1.mono (by omega), fun _ => ?_⟩
      refine (hushed_promiseOf _).mono (fun promised v2 hv2 => ?_)
        fun _ v2 hv2 => (h1.still hv2).mono (by omega)
      have h2 := h1.still hv2
      refine ⟨fun _ => h2.mono (by omega), fun _ => ?_⟩
      refine Wp.tryCatch (I := fun _ (v' : Voter m) => Tidy (n + 3) u v') ?_ fun e v3 h3 =>
        tidies_fail h3 (by omega) hl
      refine (tidies_acknowledged (l := n + 3) h2 (fun hkind => ?_) (le_refl _) (by omega)).mono
        (fun _ _ h3 => h3.mono (by omega)) fun _ _ h3 => h3
      have hbeats : pending.beats = false := beats_eq_false.mpr (hsame.2.1 ▸ hkind)
      have hactive := h.orderly.active hmem hbeats
      rw [hv2.authority]
      exact ⟨⟨hactive.publication, hactive.continuation⟩,
        fun hstate => calm_removed h.orderly hmem hid hbeats hstate⟩

theorem tidies_receive {message : Message m} {time : ℕ} (h : Tidy n u v) (hn : n + 7 ≤ l)
    (hl : l ≤ maxActions) : Tidies l u (receive sha bounds message time) v := by
  have hmono := h.mono (l := l) (by omega)
  unfold receive
  refine hushed_clock.bind hmono fun _ v1 hv1 => ?_
  refine hushed_room.bind (hmono.still hv1) fun _ v2 hv2 => ?_
  have h2 := (h.still hv1).still hv2
  have hmono2 := h2.mono (l := l) (by omega)
  cases message with
  | response r =>
    simp only [endpoint, wp_bind, wp_get, wp_need]
    exact ⟨fun _ => ⟨fun _ => tidies_response h2 (by omega) hl, fun _ => hmono2⟩, fun _ => hmono2⟩
  | request call =>
    simp only [endpoint, wp_bind, wp_get, wp_need, wp_modify, wp_ite]
    refine ⟨fun hpeer => ⟨fun _ => ⟨fun hsender => ?_, fun _ => hmono2⟩, fun _ => hmono2⟩,
      fun _ => hmono2⟩
    have h3 : Tidy n u { v2 with
        received := if call.request.kind = .prepare then v2.received ++ [call] else v2.received } :=
      ⟨h2.orderly, h2.tripped, h2.actions, h2.since⟩
    refine ⟨fun _ => tidies_reply h3 (by omega) hl, fun _ => ?_⟩
    have hfence : call.ballot = v2.fence → v2.campaign = none := by
      -- the proposer of the fence is another voter
      intro heq
      rw [Option.eq_none_iff_forall_not_mem]
      intro c hc
      obtain ⟨hfence, howner⟩ := h2.orderly.owner c hc
      rw [← hfence, ← heq, ← hsender] at howner
      have hne := (List.mem_filter.mp hpeer.1).2
      simp [Option.some.inj howner] at hne
    refine Wp.tryCatch (I := fun _ (v' : Voter m) => Tidy (n + 5) u v') ?_ fun e v4 h4 => ?_
    · exact (tidies_perform (l := n + 5) h3 hfence (le_refl _) (by omega)).mono
        (fun _ _ h4 => h4.mono (by omega)) fun _ _ h4 => h4
    · simp only [wp_bind, wp_get, wp_ite, wp_pure]
      refine ⟨fun _ => ?_, fun _ => tidies_reply h4 (by omega) hl⟩
      exact (tidies_fail (l := n + 6) h4 (le_refl _) (by omega)).mono
        (fun _ _ h5 => tidies_reply h5 (by omega) hl) fun _ _ h5 => h5.mono (by omega)

/-! ### Runs -/

omit [DecidableEq D] in
@[simp] theorem wp_silent {x : Exec m Unit} {Q : Option (Snapshot m) → Voter m → Prop}
    {E : Failure → Voter m → Prop} :
    Wp (silent x) v Q E ↔ Wp x v (fun _ v' => Q none v') E := by
  simp [silent]

omit [DecidableEq D] in
/-- What comes next may be a start. -/
theorem Tidy.forget (h : Tidy n u v) : Tidy n { u with state := .starting } v :=
  ⟨h.orderly, h.tripped, h.actions, ⟨h.since.published, fun hne => absurd rfl hne⟩⟩

omit [DecidableEq D] in
theorem Tidies.forget {x : Exec m Unit} (h : Tidies n u x v) :
    Tidies n { u with state := .starting } x v :=
  h.mono (fun _ _ h1 => h1.forget) fun _ _ h1 => h1.forget

/-- Every call of the driver finds room for what it emits. -/
theorem tidies_run {e : Event m} (h : Tidy n v v) (hn : n + 16 ≤ l) (hl : l ≤ maxActions) :
    Tidies l { v with state := .starting } (run sha bounds e) v := by
  have hmono := h.mono (l := l) (by omega)
  cases e with
  | enableReplicaReads =>
    simp only [run, wp_silent, enableReplicaReads, wp_modify]
    exact ⟨hmono.orderly, hmono.tripped, hmono.actions, hmono.forget.since⟩
  | restored application => exact wp_silent.mpr (tidies_restored hmono).forget
  | checkpoint application => exact wp_silent.mpr (tidies_checkpoint hmono).forget
  | cut => exact (tidies_cut hmono).mono (fun _ _ h1 => h1.forget) fun _ _ h1 => h1.forget
  | observePromise observed =>
    exact wp_silent.mpr (tidies_observePromise h (by omega) (by omega)).forget
  | rejoin ballot snapshot => exact wp_silent.mpr (tidies_rejoin hmono).forget
  | frozen ballot => exact wp_silent.mpr (tidies_frozen hmono).forget
  | start time => exact wp_silent.mpr (tidies_start h.forget rfl (by omega) (by omega))
  | reconstructed id application time =>
    exact wp_silent.mpr (tidies_reconstructed h (by omega) (by omega)).forget
  | tick time => exact wp_silent.mpr (tidies_tick h rfl (by omega) (by omega)).forget
  | transportFailed id time =>
    exact wp_silent.mpr (tidies_transportFailed h (by omega) (by omega)).forget
  | transportDeferred id time =>
    exact wp_silent.mpr (tidies_transportDeferred h (by omega) (by omega)).forget
  | submit request operation payload time =>
    exact wp_silent.mpr (tidies_submit h (by omega) (by omega)).forget
  | published id error time =>
    exact wp_silent.mpr (tidies_published h (by omega) (by omega)).forget
  | cancel request time => exact wp_silent.mpr (tidies_cancel h (by omega) (by omega)).forget
  | quiesce => exact wp_silent.mpr (tidies_quiesce h (by omega) (by omega)).forget
  | receive message time => exact wp_silent.mpr (tidies_receive h (by omega) (by omega)).forget

end Protocol

section

variable {D : Type} {m : Manifest D}

/-- The voter once the driver has taken its actions. -/
def Voter.drained (v : Voter m) : Voter m := { v with actions := [] }

variable [DecidableEq D] (sha : Sha m) (bounds : Bounds m)

/-- The runs of one voter, over any directory that opens and with any answers of the surroundings.
The driver takes the actions at any time, and makes no call while more than 16 of them wait. -/
inductive Attended : Voter m → Prop where
  | create {node : Node} {disk : Disk m} {around : Surroundings} {store : Store m}
      (h : Store.openStore sha node disk around = .ok store) (trace : List (Mark m)) :
      Attended (Voter.create store trace)
  | call {v : Voter m} (h : Attended v) (hactions : v.actions.length ≤ 16) (supply : Supply)
      (e : Event m) : Attended (v.after sha bounds supply e)
  | drain {v : Voter m} (h : Attended v) : Attended v.drained

variable {sha bounds}

theorem Store.covered_openStore {node : Node} {disk : Disk m} {around : Surroundings}
    {store : Store m} (h : Store.openStore sha node disk around = .ok store) : store.Covered := by
  simp only [Store.openStore, bind_eq_ok] at h
  obtain ⟨selected, -, s, hload, _, -, h⟩ := h
  cases h
  obtain ⟨-, -, _, hloads⟩ := Memory.load_eq_ok.mp hload
  exact hloads.proven_eq.2

omit [DecidableEq D] in
open Protocol in
theorem tidy_create {store : Store m} (h : store.Covered) (trace : List (Mark m)) :
    Tidy 0 (Voter.create store trace) (Voter.create store trace) := by
  refine ⟨Loose.orderly ⟨rfl, rfl, rfl, by simp [Voter.create], by simp [Voter.create]⟩
    ⟨Nat.zero_le _, by simp [Voter.create]⟩ h fun _ => rfl, rfl, le_refl _, ⟨le_refl _, id⟩⟩

omit [DecidableEq D] in
open Protocol in
theorem Protocol.Tidy.supplied {n : ℕ} {u v : Voter m} (h : Tidy n u v) (supply : Supply) :
    Tidy n (v.supplied supply) (v.supplied supply) :=
  ⟨h.orderly.advance ⟨rfl, le_refl _, id⟩, h.tripped, h.actions, ⟨le_refl _, id⟩⟩

open Protocol in
/-- A call of the driver on an orderly voter with few waiting actions. -/
theorem tidy_after {u v : Voter m} (h : Tidy 16 u v) (supply : Supply) (e : Event m) :
    Tidy maxActions { v.supplied supply with state := .starting } (v.after sha bounds supply e) :=
  Voter.after_of_wp (tidies_run (h.supplied supply) (le_refl _) (le_refl maxActions))

open Protocol in
theorem Attended.tidy {v : Voter m} (h : Attended sha bounds v) : Tidy maxActions v v := by
  induction h with
  | create hopen trace => exact (tidy_create (Store.covered_openStore hopen) trace).mono (Nat.zero_le _)
  | call _ hactions supply e ih =>
    have hafter : Tidy maxActions _ (Voter.after sha bounds _ supply e) :=
      tidy_after ⟨ih.orderly, ih.tripped, hactions, ih.since⟩ supply e
    exact ⟨hafter.orderly, hafter.tripped, hafter.actions, ⟨le_refl _, id⟩⟩
  | drain _ ih => exact ⟨ih.orderly.aside, ih.tripped, Nat.zero_le _, ⟨le_refl _, id⟩⟩

/-- The exchanges of a voter with a peer, heartbeats or others. -/
def Voter.underWay (v : Voter m) (peer : Node) (beats : Bool) : List (Pending m) :=
  v.exchanges.filter fun p => decide (p.message.recipient = peer) && (p.beats == beats)

/-- No call of the driver ever meets the bound of the actions or that of the exchanges of a peer, and
with each peer there is at most one heartbeat and at most one other exchange. -/
theorem guards_unreachable {v : Voter m} (h : Attended sha bounds v) :
    v.tripped = false ∧ ∀ peer beats, (v.underWay peer beats).length ≤ 1 := by
  refine ⟨h.tidy.tripped, fun peer beats => ?_⟩
  have hnodup : ((v.underWay peer beats).map Pending.lane).Nodup :=
    h.tidy.orderly.lanes.sublist (List.filter_sublist.map _)
  have hsub : (v.underWay peer beats).map Pending.lane ⊆ [(peer, beats)] := by
    intro x hx
    obtain ⟨q, hq, rfl⟩ := List.mem_map.mp hx
    have hq' := (List.mem_filter.mp hq).2
    simp only [Bool.and_eq_true, decide_eq_true_eq, beq_iff_eq] at hq'
    simp [Pending.lane, hq'.1, hq'.2]
  simpa using (List.subperm_of_subset hnodup hsub).length_le

variable (sha bounds) in
/-- Calls one after the other, each followed by a drain. -/
def Voter.play (v : Voter m) (calls : List (Supply × Event m)) : Voter m :=
  calls.foldl (fun v call => (v.after sha bounds call.1 call.2).drained) v

theorem Attended.play {v : Voter m} (h : Attended sha bounds v.drained)
    (calls : List (Supply × Event m)) :
    Attended sha bounds (v.drained.play sha bounds calls) := by
  induction calls generalizing v with
  | nil => exact h
  | cons call calls ih => exact ih (h.call (Nat.zero_le _) call.1 call.2).drain

end

/-- Short timeouts and records of any size. -/
def shortBounds (m : Manifest Term) : Bounds m where
  toLimits := unlimited m
  heartbeatIntervalMillis := 10
  minElectionTimeoutMillis := 20
  maxElectionTimeoutMillis := 20
  operationTimeoutMillis := 100
  requestTimeoutMillis := 50
  retryBackoffMillis := 5
  maxRetryAttempts := 3
  framed := fun _ => true
  staged := fun _ _ => true
  replayed := fun _ _ => true

def plainSupply : Supply := ⟨fun _ => 0, 7, 1, calm⟩

/-- A voter with an empty directory, opened and called. -/
def called (node : Node) (events : List (Event emptyManifest)) : Option (Voter emptyManifest) :=
  (Store.openStore (symbolic _) node (Disk.genesis _) calm).toOption.map fun store =>
    (Voter.create store []).play (symbolic _) (shortBounds _) (events.map fun e => (plainSupply, e))

theorem called_attended {node : Node} {events : List (Event emptyManifest)}
    {v : Voter emptyManifest} (h : called node events = some v) :
    Attended (symbolic _) (shortBounds _) v := by
  obtain ⟨store, hstore, rfl⟩ := Option.map_eq_some_iff.mp h
  cases hopen : Store.openStore (symbolic emptyManifest) node (Disk.genesis _) calm with
  | error e =>
    rw [hopen] at hstore
    cases hstore
  | ok s =>
    rw [hopen] at hstore
    cases hstore
    exact (Attended.create hopen []).drain.play _

/-- The third voter starts, rebuilds its application and campaigns. -/
def campaigning : Option (Voter emptyManifest) :=
  called 2 [.start 0, .reconstructed 1 (some []) 1, .tick 30, .tick 45]

theorem guards_unreachable_campaign :
    campaigning.any (fun v => (v.underWay 0 false).length = 1 ∧ (v.underWay 0 true).length = 1) ∧
    ∀ v ∈ campaigning, v.tripped = false ∧ ∀ peer beats, (v.underWay peer beats).length ≤ 1 :=
  ⟨by decide +kernel, fun _ hv => guards_unreachable (called_attended hv)⟩

end GeneralSearch.Replication
