import GeneralSearch.Replication.Handlers
import Mathlib.Data.Fintype.Card
import Mathlib.Data.List.Perm.Subperm

/-! What a voter has in flight: a heartbeat and one other exchange with each peer at most, one step
of its operation at a time, and a publication between what is published and what is proven.  Every
handler keeps it so, whatever the environment does. -/

namespace GeneralSearch.Replication

open Lib

variable {D : Type} {m : Manifest D}

/-! ### The store only advances -/

namespace Store

/-- Every proof is of an accepted slot. -/
def Covered (s : Store m) : Prop := s.proven.length ≤ s.accepted.length

/-- The proven prefix does not shrink. -/
structure Advances (s s' : Store m) : Prop where
  node : s'.node = s.node
  through : s.provenThrough ≤ s'.provenThrough
  covered : s.Covered → s'.Covered

theorem Advances.refl (s : Store m) : Advances s s := ⟨rfl, le_refl _, id⟩

theorem Same.advances {s s' : Store m} (h : Same s s') : Advances s s' :=
  ⟨h.node, by rw [h.memory], fun hs => by unfold Covered; rw [h.memory]; exact hs⟩

variable [DecidableEq D] {sha : Sha m} {s s' : Store m} {limits : Limits m}

/-- A generation begins at the image, with what is loaded above it. -/
theorem Installable.advances {image : Snapshot m} (h : Installable sha s image)
    (hnode : s'.node = s.node)
    (hload : Memory.load sha (s.installed image).disk image s.selected = .ok s'.toMemory) :
    Advances s s' := by
  obtain ⟨hbase, -, _, hloads⟩ := Memory.load_eq_ok.mp hload
  refine ⟨hnode, h.covers.trans ?_, fun _ => hloads.proven_eq.2⟩
  show image.index ≤ s'.base.index + _
  rw [hbase]
  exact Nat.le_add_right _ _

theorem Installs.advances {image : Snapshot m} (h : Installs sha s image s') : Advances s s' := by
  obtain ⟨loaded, hload, -, rfl⟩ := h.loads
  exact h.checked.advances rfl hload

theorem Interrupted.advances {image : Snapshot m} (h : Interrupted sha s image s') :
    Advances s s' := by
  rcases h with hsame | h
  · exact hsame.advances
  · rcases h.memory with hmemory | hload
    · exact ⟨h.node, by rw [hmemory], fun hs => by unfold Covered; rw [hmemory]; exact hs⟩
    · exact h.checked.advances h.node hload

theorem advances_prepare {grant : Ballot} {requester : Node} {application : Bytes} {basisId : ℕ} :
    Wp (prepare sha limits grant requester application basisId) s (fun _ s' => Advances s s')
      fun _ s' => Advances s s' := by
  refine wp_prepare.mono ?_ ?_
  · rintro basis s' ⟨-, ⟨rfl, -⟩ | ⟨image, -, -, -, -, rfl⟩⟩
    · exact .refl _
    · exact ⟨rfl, le_refl _, id⟩
  · rintro e s' (hsame | ⟨-, -, -, hsame⟩)
    · exact hsame.advances
    · exact ⟨hsame.node, hsame.advances.through, hsame.advances.covered⟩

theorem advances_selectBases {bases : List (Basis m)} : Wp (selectBases sha bases) s
    (fun _ s' => Advances s s') fun _ s' => Advances s s' := by
  refine wp_selectBases.mono ?_ fun _ _ h => h.advances
  rintro decision s' ⟨-, -, old, -, ⟨-, rfl⟩ | ⟨-, -, rfl⟩⟩
  · exact ⟨rfl, le_refl _, id⟩
  · exact ⟨rfl, le_refl _, id⟩

theorem advances_installSelected : Wp (installSelected sha) s (fun _ s' => Advances s s')
    fun _ s' => Advances s s' := by
  refine wp_installSelected.mono ?_ ?_
  · rintro _ s' ⟨selected, -, -, hi⟩
    exact hi.advances
  · rintro e s' (hsame | ⟨selected, -, -, hi⟩)
    · exact hsame.advances
    · exact hi.advances

theorem advances_resumeCheckpoint {application : Bytes} : Wp (resumeCheckpoint sha application) s
    (fun _ s' => Advances s s') fun _ s' => Advances s s' := by
  refine wp_resumeCheckpoint.mono ?_ ?_
  · rintro _ s' (rfl | ⟨image, -, hi⟩)
    · exact .refl _
    · exact hi.advances
  · rintro e s' (hsame | ⟨image, -, hi⟩)
    · exact hsame.advances
    · exact hi.advances

theorem advances_installProven {snapshot : Snapshot m} : Wp (installProven sha snapshot) s
    (fun _ s' => Advances s s') fun _ s' => Advances s s' := by
  refine wp_installProven.mono ?_ ?_
  · rintro _ s' (rfl | ⟨-, hi⟩)
    · exact .refl _
    · exact hi.advances
  · rintro e s' (hsame | ⟨-, hi⟩)
    · exact hsame.advances
    · exact hi.advances

theorem advances_acceptRow {row : Accept D} : Wp (acceptRow sha limits row) s
    (fun _ s' => Advances s s') fun _ s' => Advances s s' := by
  refine wp_acceptRow.mono ?_ fun _ _ h => h.advances
  rintro receipt s' ⟨-, -, ⟨rfl, -⟩ | ⟨hrow, rfl⟩⟩
  · exact .refl _
  · refine ⟨rfl, le_refl _, fun hs => hs.trans ?_⟩
    show s.accepted.length ≤ (pushSlot s.accepted _ row).length
    unfold pushSlot
    split
    · rw [List.length_append]
      omega
    · rw [List.length_modify]

theorem advances_proveRow {row : Proof m} : Wp (proveRow sha limits row) s
    (fun _ s' => Advances s s') fun _ s' => Advances s s' := by
  refine wp_proveRow.mono ?_ fun _ _ h => h.advances
  rintro receipt s' ⟨-, -, ⟨rfl, -⟩ | ⟨hrow, sequence, -, rfl⟩⟩
  · exact .refl _
  · have hlength : (s.proven ++ [row]).length = s.proven.length + 1 := by simp
    refine ⟨rfl, ?_, fun _ => ?_⟩
    · show s.baseIndex + s.proven.length ≤ s.baseIndex + (s.proven ++ [row]).length
      omega
    · have hnext := hrow.next
      unfold Memory.provenThrough Memory.acceptedThrough at hnext
      show (s.proven ++ [row]).length ≤ s.accepted.length
      omega

end Store

/-! ### In flight -/

/-- An exchange is a heartbeat, or the step of a campaign or of an operation. -/
def Pending.beats (p : Pending m) : Bool := decide (p.message.request.kind = .heartbeat)

/-- Where an exchange counts: its peer, and whether it is a heartbeat. -/
def Pending.lane (p : Pending m) : Node × Bool := (p.message.recipient, p.beats)

/-- Only heartbeats are under way. -/
def Calm (exchanges : List (Pending m)) : Prop := ∀ p ∈ exchanges, p.beats = true

/-- The point of a campaign at which a request is sent. -/
def Kind.Phase (a : Authority m) : Kind → Prop
  | .prepare => a.state = .candidate
  | .install => a.state = .recovering ∧ a.operation = none
  | .accept => ∃ op ∈ a.operation, op.proof = none
  | .proof => ∃ op ∈ a.operation, op.proof.isSome
  | .heartbeat => True

/-- The continuation is a step of the campaign. -/
def Continuation.leads : Continuation m → Bool
  | .campaign _ | .publish _ _ => true
  | .start | .prepare _ | .publishLocal _ => false

/-- The point of a campaign at which a continuation waits for the image. -/
def Continuation.Awaits (a : Authority m) : Continuation m → Prop
  | .campaign _ => a.state = .candidate ∧ a.campaign.isSome
  | .publish op _ => a.operation = some op ∧ op.proof.isSome
  | .start => a.state = .starting
  | .prepare _ | .publishLocal _ => True

/-- What a voter has in flight.  `deferred` is the peer whose PREPARE is put off and `published` the
index that is published. -/
structure Orderly (a : Authority m) (deferred : Option Node) (published : ℕ) : Prop where
  lanes : (a.exchanges.map Pending.lane).Nodup
  idle : a.campaign = none → a.exchanges = [] ∧ a.operation = none
  owner : ∀ c ∈ a.campaign, a.fence = c ∧ c.proposer = some a.store.node
  phases : ∀ p ∈ a.exchanges, p.message.request.kind.Phase a
  single : a.state ≠ .candidate → (a.exchanges.filter fun p => !p.beats).length ≤ 1
  deferred : a.state = .candidate →
    ∀ p ∈ a.exchanges, some p.message.recipient = deferred → p.beats = true
  candidate : a.state = .candidate → a.campaign.isSome
  operating : a.operation.isSome → a.state = .recovering ∨ a.state = .leaderReady
  resuming : ∀ k ∈ a.imageContinuation, k.Awaits a ∧
    (k.leads = true → a.publication = none ∧ Calm a.exchanges)
  publishing : a.publication.isSome → a.campaign.isSome → Calm a.exchanges
  published : published ≤ a.store.provenThrough ∧ ∀ p ∈ a.publication,
    published ≤ p.snapshot.index ∧ p.snapshot.index ≤ a.store.provenThrough
  covered : a.store.Covered
  stopped : a.state = .stopped → a.publication = none
  inactive : a.state.inactive = true → a.campaign = none

/-- No other step of the campaign is under way: neither a publication nor a continuation. -/
structure Active (a : Authority m) : Prop where
  publication : a.publication = none
  continuation : ∀ k ∈ a.imageContinuation, k.leads = false

section

variable {a : Authority m} {deferred : Option Node} {published : ℕ}

theorem Calm.filter {exchanges : List (Pending m)} (h : Calm exchanges) (f : Pending m → Bool) :
    Calm (exchanges.filter f) := fun p hp => h p (List.mem_of_mem_filter hp)

theorem Calm.phases {exchanges : List (Pending m)} (h : Calm exchanges) :
    ∀ p ∈ exchanges, p.message.request.kind.Phase a := by
  intro p hp
  have hkind : p.message.request.kind = .heartbeat := of_decide_eq_true (h p hp)
  rw [hkind]
  trivial

theorem Calm.single {exchanges : List (Pending m)} (h : Calm exchanges) :
    (exchanges.filter fun p => !p.beats).length ≤ 1 := by
  rw [List.filter_eq_nil_iff.mpr fun p hp => by simp [h p hp]]
  exact Nat.zero_le 1

/-- An exchange that is no heartbeat excludes the other steps. -/
theorem Orderly.active (h : Orderly a deferred published) {p : Pending m} (hp : p ∈ a.exchanges)
    (hbeats : p.beats = false) : Active a := by
  have hbusy : ¬Calm a.exchanges := fun hcalm => by
    rw [hcalm p hp] at hbeats
    cases hbeats
  have hcampaign : a.campaign.isSome := by
    rw [Option.isSome_iff_ne_none]
    intro hnone
    rw [(h.idle hnone).1] at hp
    cases hp
  refine ⟨?_, fun k hk => ?_⟩
  · by_contra hne
    exact hbusy (h.publishing (Option.isSome_iff_ne_none.mpr hne) hcampaign)
  · by_contra hne
    exact hbusy ((h.resuming k hk).2 (by simpa using hne)).2

/-- A candidate waits for promises. -/
theorem Orderly.prepares (h : Orderly a deferred published) (hstate : a.state = .candidate)
    {p : Pending m} (hp : p ∈ a.exchanges) :
    p.message.request.kind = .prepare ∨ p.message.request.kind = .heartbeat := by
  have hnone : a.operation = none := by
    by_contra hne
    have := h.operating (Option.isSome_iff_ne_none.mpr hne)
    rw [hstate] at this
    simp at this
  have hphase := h.phases p hp
  cases hkind : p.message.request.kind with
  | prepare => exact .inl rfl
  | heartbeat => exact .inr rfl
  | install =>
    rw [hkind] at hphase
    cases hstate.symm.trans hphase.1
  | accept =>
    rw [hkind] at hphase
    obtain ⟨op, hop, -⟩ := hphase
    rw [hnone] at hop
    cases hop
  | proof =>
    rw [hkind] at hphase
    obtain ⟨op, hop, -⟩ := hphase
    rw [hnone] at hop
    cases hop

/-- What is left once a campaign is given up, and before one begins. -/
structure Loose (a : Authority m) : Prop where
  campaign : a.campaign = none
  exchanges : a.exchanges = []
  operation : a.operation = none
  continuation : ∀ k ∈ a.imageContinuation, k.leads = false ∧ k.Awaits a
  state : a.state ≠ .candidate

theorem Orderly.loose (h : Orderly a deferred published) (hnone : a.campaign = none) : Loose a := by
  obtain ⟨hexchanges, hoperation⟩ := h.idle hnone
  refine ⟨hnone, hexchanges, hoperation, fun k hk => ⟨?_, (h.resuming k hk).1⟩, fun hstate => ?_⟩
  · have hawaits := (h.resuming k hk).1
    cases k with
    | campaign expected =>
      have hsome : a.campaign.isSome := hawaits.2
      rw [hnone] at hsome
      cases hsome
    | publish op expected =>
      have hsome : a.operation = some op := hawaits.1
      rw [hoperation] at hsome
      cases hsome
    | start => rfl
    | prepare message => rfl
    | publishLocal expected => rfl
  · have hsome := h.candidate hstate
    rw [hnone] at hsome
    cases hsome

theorem Loose.orderly (h : Loose a) (hpublished : published ≤ a.store.provenThrough ∧
    ∀ p ∈ a.publication, published ≤ p.snapshot.index ∧ p.snapshot.index ≤ a.store.provenThrough)
    (hcovered : a.store.Covered) (hstopped : a.state = .stopped → a.publication = none) :
    Orderly a deferred published where
  lanes := by simp [h.exchanges]
  idle _ := ⟨h.exchanges, h.operation⟩
  owner := by simp [h.campaign]
  phases := by simp [h.exchanges]
  single := by simp [h.exchanges]
  deferred := by simp [h.exchanges]
  candidate hstate := absurd hstate h.state
  operating := by simp [h.operation]
  resuming k hk := ⟨(h.continuation k hk).2, by simp [(h.continuation k hk).1]⟩
  publishing := by simp [h.campaign]
  published := hpublished
  covered := hcovered
  stopped := hstopped
  inactive _ := h.campaign

/-- With heartbeats only, nothing is said of the exchanges but that they are one for each peer. -/
theorem Orderly.of_calm (hlanes : (a.exchanges.map Pending.lane).Nodup) (hcalm : Calm a.exchanges)
    (hcampaign : a.campaign.isSome) (howner : ∀ c ∈ a.campaign, a.fence = c ∧
      c.proposer = some a.store.node)
    (hoperating : a.operation.isSome → a.state = .recovering ∨ a.state = .leaderReady)
    (hresuming : ∀ k ∈ a.imageContinuation, k.Awaits a ∧ (k.leads = true → a.publication = none))
    (hpublished : published ≤ a.store.provenThrough ∧ ∀ p ∈ a.publication,
      published ≤ p.snapshot.index ∧ p.snapshot.index ≤ a.store.provenThrough)
    (hcovered : a.store.Covered) (hstate : a.state.inactive = false) :
    Orderly a deferred published where
  lanes := hlanes
  idle hnone := by simp [hnone] at hcampaign
  owner := howner
  phases := hcalm.phases
  single _ := hcalm.single
  deferred _ p hp _ := hcalm p hp
  candidate _ := hcampaign
  operating := hoperating
  resuming k hk := ⟨(hresuming k hk).1, fun hleads => ⟨(hresuming k hk).2 hleads, hcalm⟩⟩
  publishing _ _ := hcalm
  published := hpublished
  covered := hcovered
  stopped hstopped := by simp [hstopped, State.inactive] at hstate
  inactive h := by simp [hstate] at h

/-! ### Transitions -/

/-- Actions, the trace, the basis and the selection of a campaign play no part. -/
theorem Orderly.aside (h : Orderly a deferred published) {actions : List (Action m)}
    {trace : List (Mark m)} {ownBasis : Option (Basis m)} {selection : Option (Selection m)} :
    Orderly { a with actions, trace, ownBasis, selection } deferred published := { h with }

theorem Orderly.advance (h : Orderly a deferred published) {s : Store m}
    (hs : Store.Advances a.store s) : Orderly { a with store := s } deferred published :=
  { h with
    owner := fun c hc => by
      show a.fence = c ∧ c.proposer = some s.node
      rw [hs.node]
      exact h.owner c hc
    published := ⟨h.published.1.trans hs.through, fun p hp =>
      ⟨(h.published.2 p hp).1, (h.published.2 p hp).2.trans hs.through⟩⟩
    covered := hs.covered h.covered }

/-- Exchanges that are dropped. -/
theorem Orderly.drop (h : Orderly a deferred published) (f : Pending m → Bool) :
    Orderly { a with exchanges := a.exchanges.filter f } deferred published :=
  { h with
    lanes := h.lanes.sublist (List.filter_sublist.map _)
    idle := fun hnone => by
      obtain ⟨hexchanges, hoperation⟩ := h.idle hnone
      exact ⟨by simp [hexchanges], hoperation⟩
    phases := fun p hp => h.phases p (List.mem_of_mem_filter hp)
    single := fun hstate => ((List.filter_sublist.filter _).length_le).trans (h.single hstate)
    deferred := fun hstate p hp => h.deferred hstate p (List.mem_of_mem_filter hp)
    resuming := fun k hk => by
      obtain ⟨hawaits, hleads⟩ := h.resuming k hk
      exact ⟨hawaits, fun hk' => ⟨(hleads hk').1, (hleads hk').2.filter f⟩⟩
    publishing := fun hp hc => (h.publishing hp hc).filter f }

/-- A retry changes no message. -/
theorem Orderly.retried (h : Orderly a deferred published) {f : Pending m → Pending m}
    (hf : ∀ p, (f p).message = p.message) :
    Orderly { a with exchanges := a.exchanges.map f } deferred published := by
  have hbeats : ∀ p, (f p).beats = p.beats := fun p => by unfold Pending.beats; rw [hf]
  have hlane : ∀ p, (f p).lane = p.lane := fun p => by unfold Pending.lane; rw [hbeats, hf]
  have hcalm : Calm a.exchanges → Calm (a.exchanges.map f) := by
    intro h p hp
    obtain ⟨q, hq, rfl⟩ := List.mem_map.mp hp
    rw [hbeats]
    exact h q hq
  refine { h with
    lanes := ?_
    idle := fun hnone => ?_
    phases := fun p hp => ?_
    single := fun hstate => ?_
    deferred := fun hstate p hp hrecipient => ?_
    resuming := fun k hk => ⟨(h.resuming k hk).1, fun hleads =>
      ⟨((h.resuming k hk).2 hleads).1, hcalm ((h.resuming k hk).2 hleads).2⟩⟩
    publishing := fun hp hc => hcalm (h.publishing hp hc) }
  · show ((a.exchanges.map f).map Pending.lane).Nodup
    rw [List.map_map, show Pending.lane ∘ f = Pending.lane from funext hlane]
    exact h.lanes
  · obtain ⟨hexchanges, hoperation⟩ := h.idle hnone
    exact ⟨by simp [hexchanges], hoperation⟩
  · obtain ⟨q, hq, rfl⟩ := List.mem_map.mp hp
    rw [hf]
    exact h.phases q hq
  · show ((a.exchanges.map f).filter _).length ≤ 1
    rw [List.filter_map, List.length_map]
    simpa [Function.comp_def, hbeats] using h.single hstate
  · obtain ⟨q, hq, rfl⟩ := List.mem_map.mp hp
    rw [hbeats]
    rw [hf] at hrecipient
    exact h.deferred hstate q hq hrecipient

/-- A request to `peer` may be sent: its place is free, and it is the next step. -/
structure Clear (a : Authority m) (deferred : Option Node) (peer : Node) (kind : Kind) : Prop where
  lane : ∀ p ∈ a.exchanges, p.lane ≠ (peer, decide (kind = .heartbeat))
  phase : kind.Phase a
  step : kind ≠ .heartbeat → Active a ∧ (a.state = .candidate → some peer ≠ deferred) ∧
    (a.state ≠ .candidate → Calm a.exchanges)

/-- There is room among the exchanges of a peer when the place of the request is free. -/
theorem Clear.room {peer : Node} {kind : Kind} (hclear : Clear a deferred peer kind)
    (h : Orderly a deferred published) :
    (a.exchanges.filter fun q => q.message.recipient = peer).length < 2 := by
  have hnodup : ((a.exchanges.filter fun q => q.message.recipient = peer).map Pending.lane).Nodup :=
    h.lanes.sublist (List.filter_sublist.map _)
  have hsub : ∀ x ∈ (a.exchanges.filter fun q => q.message.recipient = peer).map Pending.lane,
      x ∈ [(peer, !decide (kind = .heartbeat))] := by
    intro x hx
    obtain ⟨q, hq, rfl⟩ := List.mem_map.mp hx
    obtain ⟨hmem, hpeer⟩ := List.mem_filter.mp hq
    have hne := hclear.lane q hmem
    rw [List.mem_singleton]
    unfold Pending.lane at hne ⊢
    have hpeer' : q.message.recipient = peer := of_decide_eq_true hpeer
    rw [hpeer'] at hne ⊢
    cases hb : q.beats <;> cases hk : decide (kind = Kind.heartbeat) <;> simp_all
  have hle := (List.subperm_of_subset hnodup hsub).length_le
  rw [List.length_map, List.length_singleton] at hle
  omega

theorem Orderly.post (h : Orderly a deferred published) (hcampaign : a.campaign.isSome)
    {q : Pending m}
    (hclear : Clear a deferred q.message.recipient q.message.request.kind) :
    Orderly { a with exchanges := a.exchanges ++ [q] } deferred published := by
  have hcalm : q.beats = true → Calm a.exchanges → Calm (a.exchanges ++ [q]) := by
    intro hq h p hp
    rcases List.mem_append.mp hp with hp | hp
    · exact h p hp
    · rw [List.mem_singleton.mp hp]
      exact hq
  have hstep : q.beats = true ∨ Active a ∧ (a.state = .candidate →
      some q.message.recipient ≠ deferred) ∧ (a.state ≠ .candidate → Calm a.exchanges) := by
    by_cases hkind : q.message.request.kind = .heartbeat
    · exact .inl (decide_eq_true hkind)
    · exact .inr (hclear.step hkind)
  refine { h with
    lanes := ?_
    idle := fun hnone => ?_
    phases := fun p hp => ?_
    single := fun hstate => ?_
    deferred := fun hstate p hp hrecipient => ?_
    resuming := fun k hk => ⟨(h.resuming k hk).1, fun hleads => ?_⟩
    publishing := fun hp hc => ?_ }
  · show ((a.exchanges ++ [q]).map Pending.lane).Nodup
    rw [List.map_append, List.map_singleton, List.nodup_append]
    refine ⟨h.lanes, by simp, fun x hx y hy => ?_⟩
    obtain ⟨p, hp, rfl⟩ := List.mem_map.mp hx
    rw [List.mem_singleton.mp hy]
    exact hclear.lane p hp
  · rw [show a.campaign = none from hnone] at hcampaign
    cases hcampaign
  · rcases List.mem_append.mp hp with hp | hp
    · exact h.phases p hp
    · rw [List.mem_singleton.mp hp]
      exact hclear.phase
  · show ((a.exchanges ++ [q]).filter _).length ≤ 1
    rw [List.filter_append, List.length_append]
    rcases hstep with hq | ⟨-, -, hrest⟩
    · simpa [hq] using h.single hstate
    · rw [List.filter_eq_nil_iff.mpr fun p hp => by simp [hrest hstate p hp]]
      simpa using List.length_filter_le _ [q]
  · rcases List.mem_append.mp hp with hp | hp
    · exact h.deferred hstate p hp hrecipient
    · rw [List.mem_singleton.mp hp] at hrecipient ⊢
      exact hstep.resolve_right fun hrest => hrest.2.1 hstate hrecipient
  · rcases hstep with hq | ⟨hactive, -⟩
    · exact ⟨((h.resuming k hk).2 hleads).1, hcalm hq ((h.resuming k hk).2 hleads).2⟩
    · rw [hactive.continuation k hk] at hleads
      cases hleads
  · rcases hstep with hq | ⟨hactive, -⟩
    · exact hcalm hq (h.publishing hp hc)
    · rw [show a.publication = none from hactive.publication] at hp
      cases hp

/-- What is left of a campaign that is given up. -/
theorem Orderly.cleared (h : Orderly a deferred published) :
    Orderly a.cleared deferred published ∧ Loose a.cleared := by
  have hloose : Loose a.cleared := ⟨rfl, rfl, rfl, by simp [Authority.cleared],
    by simp [Authority.cleared]⟩
  exact ⟨hloose.orderly h.published h.covered (by simp [Authority.cleared]), hloose⟩

/-- Without a campaign, any state but that of a candidate and any fence. -/
theorem Orderly.restate (h : Orderly a deferred published) (hl : Loose a) {state : State}
    {fence : Ballot} {k : Option (Continuation m)} (hstate : state ≠ .candidate)
    (hstopped : state = .stopped → a.publication = none)
    (hk : ∀ x ∈ k, x.leads = false ∧ (x = .start → state = .starting)) :
    Orderly { a with state, fence, imageContinuation := k } deferred published := by
  refine Loose.orderly ⟨hl.campaign, hl.exchanges, hl.operation, fun x hx => ?_, hstate⟩
    h.published h.covered hstopped
  obtain ⟨hleads, hstart⟩ := hk x hx
  refine ⟨hleads, ?_⟩
  cases x with
  | start => exact hstart rfl
  | campaign expected => cases hleads
  | publish op expected => cases hleads
  | prepare message => trivial
  | publishLocal expected => trivial

theorem Loose.next (hl : Loose a) : ∀ x ∈ a.imageContinuation,
    x.leads = false ∧ (x = .start → a.state = .starting) := by
  intro x hx
  refine ⟨(hl.continuation x hx).1, ?_⟩
  rintro rfl
  exact (hl.continuation _ hx).2

end

/-! ### Handlers -/

namespace Protocol

variable {bounds : Bounds m} {u v v' : Voter m} {α β : Type} {n l k : ℕ}

/-- Nothing changes of what is in flight. -/
structure Still (v v' : Voter m) : Prop where
  authority : v'.toAuthority = v.toAuthority
  deferred : v'.deferredPreparePeer = v.deferredPreparePeer
  published : v'.publishedIndex = v.publishedIndex
  tripped : v'.tripped = v.tripped

def Hushed (x : Exec m α) : Prop := ∀ v, Wp x v (fun _ v' => Still v v') fun _ v' => Still v v'

/-- What only grows: the published index, and being past the start. -/
structure Since (u : Voter m) (published : ℕ) (state : State) : Prop where
  published : u.publishedIndex ≤ published
  awake : u.state ≠ .starting → state ≠ .starting

theorem Since.restate {published : ℕ} {state state' : State} (h : Since u published state)
    (hne : state' ≠ .starting) : Since u published state' := ⟨h.published, fun _ => hne⟩

/-- The voter is orderly since it was `u`, no guard was met and at most `n` actions wait. -/
structure Tidy (n : ℕ) (u v : Voter m) : Prop where
  orderly : Orderly v.toAuthority v.deferredPreparePeer v.publishedIndex
  tripped : v.tripped = false
  actions : v.actions.length ≤ n
  since : Since u v.publishedIndex v.state

/-- It stays so however the computation ends. -/
abbrev Tidies (n : ℕ) (u : Voter m) (x : Exec m α) (v : Voter m) : Prop :=
  Wp x v (fun _ v' => Tidy n u v') fun _ v' => Tidy n u v'

theorem Tidy.mono (h : Tidy n u v) (hle : n ≤ l) : Tidy l u v :=
  ⟨h.orderly, h.tripped, h.actions.trans hle, h.since⟩

theorem Tidy.still (h : Tidy n u v) (hs : Still v v') : Tidy n u v' := by
  refine ⟨?_, hs.tripped.trans h.tripped, ?_, ?_⟩
  · rw [hs.authority, hs.deferred, hs.published]
    exact h.orderly
  · rw [hs.authority]
    exact h.actions
  · rw [hs.published, hs.authority]
    exact h.since

theorem Tidies.bind {x : Exec m α} {f : α → Exec m β} (hx : Tidies n u x v) (hle : n ≤ l)
    (hf : ∀ a v', Tidy n u v' → Tidies l u (f a) v') : Tidies l u (x >>= f) v :=
  Wp.bind (hx.mono (fun _ _ h => h) fun _ _ h => h.mono hle) hf

theorem Hushed.bind {x : Exec m α} {f : α → Exec m β} {Q : β → Voter m → Prop} (hx : Hushed x)
    (h : Tidy n u v) (hf : ∀ a v', Still v v' → Wp (f a) v' Q fun _ v' => Tidy n u v') :
    Wp (x >>= f) v Q fun _ v' => Tidy n u v' :=
  Wp.bind ((hx v).mono (fun _ _ h => h) fun _ _ hs => h.still hs) hf

theorem Hushed.tidies {x : Exec m α} (hx : Hushed x) (h : Tidy n u v) : Tidies n u x v :=
  (hx v).mono (fun _ _ hs => h.still hs) fun _ _ hs => h.still hs

theorem hushed_nextId : Hushed (nextId : Exec m ℕ) := by
  intro v
  simp only [nextId, wp_bind, wp_get, wp_capacity, wp_modify, wp_pure]
  exact ⟨fun _ => ⟨rfl, rfl, rfl, rfl⟩, fun _ => ⟨rfl, rfl, rfl, rfl⟩⟩

theorem hushed_progress : Hushed (progress : Exec m Unit) := by
  intro v
  simp only [progress, wp_bind, wp_get, wp_capacity, wp_modify]
  exact ⟨fun _ => ⟨rfl, rfl, rfl, rfl⟩, fun _ => ⟨rfl, rfl, rfl, rfl⟩⟩

theorem hushed_after {millis : ℕ} : Hushed (after millis : Exec m ℕ) := by
  intro v
  simp only [after, wp_bind, wp_get, wp_capacity, wp_pure]
  exact ⟨fun _ => ⟨rfl, rfl, rfl, rfl⟩, fun _ => ⟨rfl, rfl, rfl, rfl⟩⟩

theorem hushed_clock {value : ℕ} : Hushed (clock value : Exec m Unit) := by
  intro v
  simp only [clock, wp_bind, wp_get, wp_need, wp_modify]
  exact ⟨fun _ => ⟨rfl, rfl, rfl, rfl⟩, fun _ => ⟨rfl, rfl, rfl, rfl⟩⟩

theorem hushed_room : Hushed (room : Exec m Unit) := by
  intro v
  simp only [room, wp_bind, wp_get, wp_capacity]
  exact ⟨fun _ => ⟨rfl, rfl, rfl, rfl⟩, fun _ => ⟨rfl, rfl, rfl, rfl⟩⟩

theorem hushed_armElection : Hushed (armElection bounds : Exec m Unit) := by
  intro v
  simp only [armElection, after, wp_bind, wp_get, wp_modify, wp_capacity, wp_pure]
  exact ⟨fun _ => ⟨rfl, rfl, rfl, rfl⟩, fun _ => ⟨rfl, rfl, rfl, rfl⟩⟩

theorem hushed_lift {x : Except Failure α} : Hushed (lift x : Exec m α) := by
  intro v
  unfold Wp lift
  cases x <;> exact ⟨rfl, rfl, rfl, rfl⟩

theorem hushed_proven : Hushed (proven : Exec m ℕ) := by
  intro v
  simp only [proven, Store.status, wp_bind, wp_onStore, Store.wp_usable, wp_get, wp_pure, wp_modify]
  exact ⟨fun _ => ⟨rfl, rfl, rfl, rfl⟩, fun _ => ⟨rfl, rfl, rfl, rfl⟩⟩

theorem hushed_promiseOf : Hushed (onStore Store.promiseOf : Exec m Ballot) := by
  intro v
  simp only [wp_onStore, Store.wp_promiseOf]
  exact ⟨fun _ => ⟨rfl, rfl, rfl, rfl⟩, fun _ => ⟨rfl, rfl, rfl, rfl⟩⟩

theorem tidies_mark {x : Mark m} (h : Tidy n u v) : Tidies n u (mark x) v := by
  simp only [mark, wp_modify]
  exact ⟨h.orderly.aside, h.tripped, h.actions, h.since⟩

/-- An operation of the store. -/
theorem tidy_onStore {x : Store.Exec m α} (h : Tidy n u v)
    (hx : Wp x v.store (fun _ s => Store.Advances v.store s) fun _ s => Store.Advances v.store s) :
    Wp (onStore x) v (fun _ v' => Tidy n u v' ∧ ∃ s, v' = { v with store := s } ∧
        Store.Advances v.store s)
      fun _ v' => Tidy n u v' := by
  rw [wp_onStore]
  have hs : ∀ {s}, Store.Advances v.store s → Tidy n u { v with store := s } := fun hs =>
    ⟨h.orderly.advance hs, h.tripped, h.actions, h.since⟩
  exact hx.mono (fun _ s h' => ⟨hs h', s, rfl, h'⟩) fun _ s h' => hs h'

/-- A guard that holds. -/
theorem still_guarded {c : Prop} [Decidable c] {message : String} {E : Failure → Voter m → Prop}
    (hc : c) : Wp (guarded c message : Exec m Unit) v (fun _ v' => Still v v') E := by
  simp only [guarded, wp_bind, wp_modify, wp_capacity]
  exact ⟨fun _ => ⟨rfl, rfl, rfl, by simp [hc]⟩, fun hfalse => absurd hc hfalse⟩

theorem tidy_emit {a : Action m} (h : Tidy n u v) (hn : n + 1 ≤ l) (hl : l ≤ maxActions) :
    Wp (emit a) v (fun _ v' => Tidy l u v' ∧ v'.toAuthority =
        { v.toAuthority with actions := v.actions ++ [a] } ∧
        v'.deferredPreparePeer = v.deferredPreparePeer)
      fun _ v' => Tidy l u v' := by
  have hlt : v.actions.length < maxActions := by
    have := h.actions
    omega
  unfold emit
  simp only [wp_bind, wp_get, wp_modify]
  refine (still_guarded hlt).mono (fun _ v1 hv1 => ?_) fun _ _ h1 => h1
  have h1 := h.still hv1
  refine ⟨⟨h1.orderly.aside, h1.tripped, ?_, h1.since⟩, ?_, hv1.deferred⟩
  · rw [List.length_append, List.length_singleton]
    have := h1.actions
    omega
  · rw [hv1.authority]

theorem tidies_emit {a : Action m} (h : Tidy n u v) (hn : n + 1 ≤ l) (hl : l ≤ maxActions) :
    Tidies l u (emit a) v :=
  (tidy_emit h hn hl).mono (fun _ _ h => h.1) fun _ _ h => h

theorem tidies_complete {request index : ℕ} {reason : Option Reason} {outcome : Outcome}
    {done : Option (Ballot × Entry D)} (h : Tidy n u v) (hn : n + 1 ≤ l) (hl : l ≤ maxActions) :
    Tidies l u (complete request index reason outcome done) v := by
  unfold complete
  exact (tidies_emit h hn hl).bind (le_refl _) fun _ _ h1 => tidies_mark h1

/-- The request is posted and the rest of authority is as it was. -/
structure Sent (v v' : Voter m) (peer : Node) (kind : Kind) : Prop where
  rest : ∃ actions q, v'.toAuthority = { v.toAuthority with
    actions, exchanges := v.exchanges ++ [q] } ∧ q.message.recipient = peer ∧
    q.message.request.kind = kind
  deferred : v'.deferredPreparePeer = v.deferredPreparePeer

theorem tidy_send {peer : Node} {request : Request m} (h : Tidy n u v)
    (hclear : Clear v.toAuthority v.deferredPreparePeer peer request.kind) (hn : n + 1 ≤ l)
    (hl : l ≤ maxActions) : Wp (send bounds peer request) v
      (fun _ v' => Tidy l u v' ∧ Sent v v' peer request.kind) fun _ v' => Tidy l u v' := by
  have hroom := hclear.room h.orderly
  unfold send
  simp only [wp_bind, wp_get]
  refine (still_guarded hroom).mono (fun _ v0 hv0 => ?_) fun _ _ h1 => h1
  have h0 := h.still hv0
  have h1 := h0.mono (l := l) (by omega)
  refine (hushed_nextId _).mono (fun id v1 hv1 => ?_) fun _ v1 hv1 => h1.still hv1
  split
  · exact h1.still hv1
  · rename_i ballot hballot
    simp only [wp_bind]
    refine (hushed_after v1).mono (fun deadline v2 hv2 => ?_)
      fun _ v2 hv2 => (h1.still hv1).still hv2
    have hauthority : v2.toAuthority = v.toAuthority :=
      (hv2.authority.trans hv1.authority).trans hv0.authority
    have hdeferred : v2.deferredPreparePeer = v.deferredPreparePeer :=
      (hv2.deferred.trans hv1.deferred).trans hv0.deferred
    have h2 := (h0.still hv1).still hv2
    rw [wp_modify]
    have hcampaign : v2.campaign = some ballot := (congrArg Authority.campaign hauthority).trans hballot
    have hpost := h2.orderly.post
      (q := ⟨⟨id, v.store.node, peer, ballot, request⟩, deadline, 1, maxLong, false⟩)
      (by rw [hcampaign]; rfl) (by rw [hauthority, hdeferred]; exact hclear)
    have h3 : Tidy n u { v2 with exchanges := v2.exchanges ++
        [⟨⟨id, v.store.node, peer, ballot, request⟩, deadline, 1, maxLong, false⟩] } :=
      ⟨hpost, h2.tripped, h2.actions, h2.since⟩
    refine (tidy_emit h3 hn hl).mono
      (fun _ v4 h4 => ⟨h4.1, ⟨v2.actions ++ [.send (.request ⟨id, v.store.node, peer, ballot, request⟩)],
        ⟨⟨id, v.store.node, peer, ballot, request⟩, deadline, 1, maxLong, false⟩,
        h4.2.1.trans ?_, rfl, rfl⟩, h4.2.2.trans hdeferred⟩) fun _ _ h4 => h4
    rw [hauthority]

theorem tidies_send {peer : Node} {request : Request m} (h : Tidy n u v)
    (hclear : Clear v.toAuthority v.deferredPreparePeer peer request.kind) (hn : n + 1 ≤ l)
    (hl : l ≤ maxActions) : Tidies l u (send bounds peer request) v :=
  (tidy_send h hclear hn hl).mono (fun _ _ h => h.1) fun _ _ h => h

theorem tidy_reply {request : Call m} {response : Response m} (h : Tidy n u v) (hn : n + 1 ≤ l)
    (hl : l ≤ maxActions) : Wp (reply request response) v
      (fun _ v' => Tidy l u v' ∧ ∃ actions, v'.toAuthority = { v.toAuthority with actions })
      fun _ v' => Tidy l u v' := by
  unfold reply
  simp only [wp_bind, wp_get, wp_modify]
  refine (tidy_emit h hn hl).mono (fun _ v1 h1 => ?_) fun _ _ h1 => h1
  exact ⟨⟨h1.1.orderly, h1.1.tripped, h1.1.actions, h1.1.since⟩, _, h1.2.1⟩

theorem tidies_reply {request : Call m} {response : Response m} (h : Tidy n u v) (hn : n + 1 ≤ l)
    (hl : l ≤ maxActions) : Tidies l u (reply request response) v :=
  (tidy_reply h hn hl).mono (fun _ _ h => h.1) fun _ _ h => h

/-- A loop in which each round emits at most `k` actions. -/
theorem tidy_forM {f : β → Exec m PUnit} {xs : List β}
    (hf : ∀ x ∈ xs, ∀ n v, Tidy n u v → n + k ≤ l → Wp (f x) v (fun _ v' => Tidy (n + k) u v')
      fun _ v' => Tidy l u v') (h : Tidy n u v) (hn : n + xs.length * k ≤ l) :
    Wp (xs.forM f) v (fun _ v' => Tidy (n + xs.length * k) u v') fun _ v' => Tidy l u v' := by
  induction xs generalizing n v with
  | nil => exact h.mono (by simp)
  | cons x xs ih =>
    have hlength : (x :: xs).length * k = xs.length * k + k := by
      rw [List.length_cons, Nat.succ_mul]
    show Wp (f x >>= fun _ => xs.forM f) v _ _
    refine Wp.bind (hf x (by simp) n v h (by omega)) fun _ v1 h1 => ?_
    refine (ih (fun y hy => hf y (by simp [hy])) h1 (by omega)).mono (fun _ v2 h2 => ?_)
      fun _ _ h2 => h2
    exact h2.mono (by omega)

/-! ### Giving up -/

/-- The campaign is given up. -/
structure GivenUp (v v' : Voter m) : Prop where
  loose : Loose v'.toAuthority
  continuation : v'.imageContinuation = none
  state : v'.state = .unavailable
  publication : v'.publication = v.publication
  fence : v'.fence = v.fence

theorem tidy_indeterminate {reason : Reason} (h : Tidy n u v) (hn : n + 1 ≤ l)
    (hl : l ≤ maxActions) : Wp (indeterminate reason) v
      (fun _ v' => Tidy l u v' ∧ v'.publication = v.publication ∧ v'.fence = v.fence)
      fun _ v' => Tidy l u v' := by
  unfold indeterminate
  simp only [wp_bind, wp_get]
  split
  · exact ⟨h.mono (by omega), rfl, rfl⟩
  · simp only [wp_ite, wp_pure]
    refine ⟨fun _ => ⟨h.mono (by omega), trivial, trivial⟩, fun _ => ?_⟩
    unfold complete
    refine (tidy_emit h hn hl).bind fun _ v1 hpost => ?_
    obtain ⟨h1, hauthority, -⟩ := hpost
    simp only [mark, wp_modify]
    refine ⟨⟨h1.orderly.aside, h1.tripped, h1.actions, h1.since⟩, ?_, ?_⟩
    · rw [hauthority]
    · rw [hauthority]

theorem tidy_abandon {reason : Reason} (h : Tidy n u v) (hn : n + 1 ≤ l) (hl : l ≤ maxActions) :
    Wp (abandon bounds reason) v (fun _ v' => Tidy l u v' ∧ GivenUp v v')
      fun _ v' => Tidy l u v' := by
  unfold abandon
  simp only [wp_bind, wp_modify]
  refine (tidy_indeterminate (u := u) ?_ hn hl).mono
    (fun _ v1 hpost => ?_) fun _ _ h1 => h1
  · exact ⟨{ h.orderly with deferred := by simp }, h.tripped, h.actions, h.since⟩
  obtain ⟨h1, hpublication, hfence⟩ := hpost
  obtain ⟨hcleared, hloose⟩ := h1.orderly.cleared
  have h2 : Tidy l u { v1 with
      operation := none, campaign := none, ownBasis := none, selection := none, quorumPeer := none
      imageContinuation := none, exchanges := []
      actions := v1.actions.filter fun a => !a.isCall
      campaignDeadline := maxLong, heartbeatAt := maxLong, state := .unavailable } :=
    ⟨hcleared, h1.tripped, (List.length_filter_le _ _).trans h1.actions,
      h1.since.restate (by simp)⟩
  refine (hushed_armElection _).mono (fun _ v3 h3 => ⟨h2.still h3, ?_⟩) fun _ v3 h3 => h2.still h3
  refine ⟨?_, ?_, ?_, ?_, ?_⟩
  · rw [h3.authority]
    exact hloose
  · rw [h3.authority]
  · rw [h3.authority]
  · rw [h3.authority]
    exact hpublication
  · rw [h3.authority]
    exact hfence

theorem tidies_abandon {reason : Reason} (h : Tidy n u v) (hn : n + 1 ≤ l) (hl : l ≤ maxActions) :
    Tidies l u (abandon bounds reason) v :=
  (tidy_abandon h hn hl).mono (fun _ _ h => h.1) fun _ _ h => h

theorem tidies_fail {reason : Reason} (h : Tidy n u v) (hn : n + 1 ≤ l) (hl : l ≤ maxActions) :
    Tidies l u (fail bounds reason) v := by
  unfold fail
  refine (tidy_abandon h hn hl).bind fun _ v1 ⟨h1, hgiven⟩ => ?_
  rw [wp_modify]
  refine ⟨?_, h1.tripped, h1.actions, h1.since.restate (by simp)⟩
  exact h1.orderly.restate hgiven.loose (by simp) (by simp) (by simp [hgiven.continuation])

/-! ### Exchanges -/

theorem beats_eq_false {q : Pending m} : q.beats = false ↔ q.message.request.kind ≠ .heartbeat := by
  simp [Pending.beats]

/-- The deferred PREPARE may be sent once no other is under way. -/
theorem tidies_prepareFailed (h : Tidy n u v)
    (hactive : v.state = .candidate → Active v.toAuthority) (hn : n + 1 ≤ l) (hl : l ≤ maxActions) :
    Tidies l u (prepareFailed bounds) v := by
  unfold prepareFailed
  simp only [wp_bind, wp_get, wp_ite, wp_pure]
  refine ⟨fun _ => h.mono (by omega), fun hnone => ?_⟩
  split
  · exact tidies_abandon h hn hl
  · rename_i peer hpeer
    simp only [wp_ite, wp_bind, wp_modify]
    refine ⟨fun hcond => ?_, fun _ => tidies_abandon h hn hl⟩
    have hstate : v.state = .candidate := hcond.1
    have hcalm : Calm v.exchanges := by
      intro q hq
      refine decide_eq_true ((h.orderly.prepares hstate hq).resolve_left fun hkind => hnone ?_)
      exact List.any_eq_true.mpr ⟨q, hq, decide_eq_true hkind⟩
    refine tidies_send ⟨{ h.orderly with deferred := by simp }, h.tripped, h.actions, h.since⟩
      ⟨fun q hq heq => ?_, hstate, fun _ => ⟨hactive hstate, by simp, fun hne => absurd hstate hne⟩⟩
      hn hl
    have hbeats := hcalm q hq
    have := congrArg Prod.snd heq
    simp [Pending.lane, hbeats, Request.kind] at this

theorem tidies_exchangeFailed {id : ℕ} (h : Tidy n u v) (hn : n + 1 ≤ l) (hl : l ≤ maxActions) :
    Tidies l u (exchangeFailed bounds id) v := by
  unfold exchangeFailed removeExchange
  simp only [wp_bind, wp_get]
  split
  · exact h.mono (by omega)
  · rename_i pending hpending
    simp only [wp_bind, wp_modify]
    have h1 : Tidy n u { v with exchanges := v.exchanges.filter fun p => p.message.id ≠ id } :=
      ⟨h.orderly.drop _, h.tripped, h.actions, h.since⟩
    split
    · exact h1.mono (by omega)
    · rename_i hkind
      refine tidies_prepareFailed h1 (fun _ => ?_) hn hl
      have hactive := h.orderly.active (exchange?_mem hpending)
        (beats_eq_false.mpr (by rw [hkind]; simp))
      exact ⟨hactive.publication, hactive.continuation⟩
    · exact tidies_abandon h1 hn hl

/-! ### The application image -/

variable [DecidableEq D] {sha : Sha m}

theorem snapshot_index {s : Store m} {application : Bytes} {image : Snapshot m} (hs : s.Covered)
    (h : s.snapshot sha application = .ok image) : image.index = s.provenThrough := by
  have hlength : (s.anchors sha).length = s.provenThrough := Memory.length_anchors hs
  rw [← hlength, ← (Memory.snapshot_eq_ok h).1]
  rfl

theorem tidies_publish {ballot : Ballot} {isLocal : Bool} (h : Tidy n u v)
    (hcalm : v.campaign.isSome → Calm v.exchanges)
    (hleads : ∀ x ∈ v.imageContinuation, x.leads = false) (hstate : v.state ≠ .stopped)
    (hn : n + 1 ≤ l) (hl : l ≤ maxActions) : Tidies l u (publish sha ballot isLocal) v := by
  unfold publish
  have hmono := h.mono (l := l) (by omega)
  refine hushed_nextId.bind hmono fun id v1 hv1 => ?_
  have h1 := h.still hv1
  simp only [wp_bind, wp_get, wp_onStore, Store.provenSnapshot, Store.wp_usable, Store.wp_check,
    wp_modify]
  refine ⟨fun _ => ⟨fun image himage => ?_, fun _ _ => hmono.still hv1⟩, fun _ => hmono.still hv1⟩
  have hindex := snapshot_index h1.orderly.covered himage
  have h2 : Tidy n u { v1 with publication := some ⟨id, ballot, image, isLocal⟩ } := by
    refine ⟨{ h1.orderly with
      resuming := fun k hk => ⟨(h1.orderly.resuming k hk).1, fun hk' => ?_⟩
      publishing := fun _ hc => ?_
      published := ⟨h1.orderly.published.1, ?_⟩
      stopped := fun hstopped => ?_ }, h1.tripped, h1.actions, h1.since⟩
    · change k ∈ v1.imageContinuation at hk
      rw [hv1.authority] at hk
      rw [hleads k hk] at hk'
      cases hk'
    · change v1.campaign.isSome at hc
      show Calm v1.exchanges
      rw [hv1.authority] at hc ⊢
      exact hcalm hc
    · rintro q ⟨⟩
      show v1.publishedIndex ≤ image.index ∧ image.index ≤ v1.store.provenThrough
      rw [hindex]
      exact ⟨h1.orderly.published.1, le_refl _⟩
    · change v1.state = .stopped at hstopped
      rw [hv1.authority] at hstopped
      exact absurd hstopped hstate
  exact tidies_emit h2 hn hl

omit [DecidableEq D] in
/-- PREPAREs to the peers that have no other exchange. -/
theorem tidies_prepares {xs : List Node} {deferred : Option Node} (hxs : xs.Nodup)
    (h : Tidy n u v) (hstate : v.state = .candidate) (hactive : Active v.toAuthority)
    (hdeferred : v.deferredPreparePeer = deferred)
    (hfree : ∀ q ∈ v.exchanges, q.beats = false → q.message.recipient ∉ xs)
    (hn : n + xs.length ≤ l) (hl : l ≤ maxActions) :
    Tidies l u (xs.forM fun peer =>
      if some peer = deferred then return else send bounds peer .prepare) v := by
  induction xs generalizing n v with
  | nil => exact h.mono (by simpa using hn)
  | cons x xs ih =>
    rw [List.length_cons] at hn
    obtain ⟨hx, hxs⟩ := List.nodup_cons.mp hxs
    show Wp ((if some x = deferred then return else send bounds x .prepare) >>= fun _ =>
      xs.forM _) v _ _
    rw [wp_bind, wp_ite, wp_pure]
    refine ⟨fun _ => ?_, fun hne => ?_⟩
    · exact ih hxs h hstate hactive hdeferred
        (fun q hq hb hmem => hfree q hq hb (List.mem_cons_of_mem _ hmem)) (by omega)
    · have hclear : Clear v.toAuthority v.deferredPreparePeer x (Request.prepare (m := m)).kind := by
        refine ⟨fun q hq heq => ?_, hstate, fun _ => ⟨hactive, fun _ => ?_, fun hne =>
          absurd hstate hne⟩⟩
        · have hb : q.beats = false := congrArg Prod.snd heq
          refine hfree q hq hb ?_
          rw [show q.message.recipient = x from congrArg Prod.fst heq]
          exact List.mem_cons_self
        · rw [hdeferred]
          exact hne
      refine (tidy_send (l := n + 1) h hclear (le_refl _) (by omega)).mono
        (fun _ v1 ⟨h1, hsent⟩ => ?_) fun _ v1 h1 => h1.mono (by omega)
      obtain ⟨actions, q, hv1, hrecipient, -⟩ := hsent.rest
      refine ih hxs h1 ?_ ⟨?_, ?_⟩ (hsent.deferred.trans hdeferred) (fun q' hq' hb hmem => ?_)
        (by omega)
      · rw [hv1]
        exact hstate
      · rw [hv1]
        exact hactive.publication
      · rw [hv1]
        exact hactive.continuation
      · rw [hv1] at hq'
        rcases List.mem_append.mp hq' with hq' | hq'
        · exact hfree q' hq' hb (List.mem_cons_of_mem _ hmem)
        · rw [List.mem_singleton.mp hq', hrecipient] at hmem
          exact hx hmem

omit [DecidableEq D] in
theorem peers_nodup (v : Node) : (peers v).Nodup ∧ (peers v).length = 2 := by
  revert v
  decide

theorem tidies_campaignReady {expected : Ballot} (h : Tidy n u v)
    (hnone : v.imageContinuation = none)
    (hready : v.state = .candidate ∧ v.publication = none ∧ Calm v.exchanges)
    (hn : n + 2 ≤ l) (hl : l ≤ maxActions) : Tidies l u (campaignReady sha bounds expected) v := by
  unfold campaignReady
  simp only [wp_bind, wp_get, wp_ite, wp_pure]
  refine ⟨fun _ => ?_, fun _ => h.mono (by omega)⟩
  refine (tidy_onStore h Store.advances_prepare).mono (fun basis v1 hpost => ?_)
    fun _ _ h1 => h1.mono (by omega)
  obtain ⟨h1, s, hv1, hs⟩ := hpost
  rw [wp_modify]
  have h2 : Tidy n u { v1 with ownBasis := some basis } :=
    ⟨h1.orderly.aside, h1.tripped, h1.actions, h1.since⟩
  refine (hushed_promiseOf _).mono (fun promised v2 hv2 => ?_)
    fun _ v2 hv2 => (h2.still hv2).mono (by omega)
  rw [wp_modify]
  have h3 := h2.still hv2
  have hauthority : v2.toAuthority = { v.toAuthority with store := s, ownBasis := some basis } := by
    rw [hv2.authority, hv1]
  have hstate : v2.state = .candidate := by
    rw [hauthority]
    exact hready.1
  have hexchanges : v2.exchanges = v.exchanges := by rw [hauthority]
  refine tidies_prepares (peers_nodup _).1 ⟨{ h3.orderly with deferred := ?_ }, h3.tripped,
    h3.actions, h3.since⟩ hstate ⟨?_, ?_⟩ rfl ?_ ?_ hl
  · intro _ q hq _
    change q ∈ v2.exchanges at hq
    rw [hexchanges] at hq
    exact hready.2.2 q hq
  · show v2.publication = none
    rw [hauthority]
    exact hready.2.1
  · show ∀ k ∈ v2.imageContinuation, _
    rw [hauthority]
    simp [hnone]
  · intro q hq hb
    change q ∈ v2.exchanges at hq
    rw [hexchanges] at hq
    rw [hready.2.2 q hq] at hb
    cases hb
  · rw [(peers_nodup _).2]
    exact hn

theorem tidies_prepareReady {message : Call m} (h : Tidy n u v) (hn : n + 3 ≤ l)
    (hl : l ≤ maxActions) : Tidies l u (prepareReady sha bounds message) v := by
  unfold prepareReady
  simp only [wp_bind, wp_get, wp_ite, wp_pure]
  refine ⟨fun _ => ?_, fun _ => h.mono (by omega)⟩
  refine Wp.tryCatch (I := fun _ (v' : Voter m) => Tidy (n + 1) u v') ?_ fun e v1 h1 => ?_
  · rw [wp_bind]
    refine (tidy_onStore h Store.advances_prepare).mono (fun basis v1 hpost => ?_)
      fun _ _ h1 => h1.mono (by omega)
    obtain ⟨h1, -⟩ := hpost
    rw [wp_bind]
    refine (hushed_promiseOf _).mono (fun promised v2 hv2 => ?_)
      fun _ v2 hv2 => (h1.still hv2).mono (by omega)
    have h2 := h1.still hv2
    simp only [wp_bind, wp_modify]
    have h3 : Tidy n u { v2 with durablePromise := promised, preparing := none } :=
      ⟨h2.orderly, h2.tripped, h2.actions, h2.since⟩
    refine (hushed_armElection _).mono (fun _ v3 hv3 => ?_)
      fun _ v3 hv3 => (h3.still hv3).mono (by omega)
    refine (tidies_reply (l := n + 1) (h3.still hv3) (le_refl _) (by omega)).mono
      (fun _ v4 h4 => h4.mono (by omega)) fun _ _ h4 => h4
  · simp only [wp_bind, wp_modify]
    have h2 : Tidy (n + 1) u { v1 with preparing := none } :=
      ⟨h1.orderly, h1.tripped, h1.actions, h1.since⟩
    refine (tidies_fail (l := n + 2) h2 (le_refl _) (by omega)).mono
      (fun _ v3 h3 => tidies_reply h3 (by omega) hl) fun _ _ h3 => h3.mono (by omega)

/-- What a continuation finds when it is resumed: it is the next step of the voter. -/
structure Resumable (a : Authority m) (x : Continuation m) : Prop where
  awaits : x.Awaits a
  leads : x.leads = true → a.publication = none ∧ Calm a.exchanges

theorem tidies_resume {x : Continuation m} (h : Tidy n u v) (hx : Resumable v.toAuthority x)
    (hnone : v.imageContinuation = none) (hn : n + 3 ≤ l) (hl : l ≤ maxActions) :
    Tidies l u (resume sha bounds x) v := by
  unfold resume
  cases x with
  | start =>
    have hloose := h.orderly.loose (h.orderly.inactive (by rw [hx.awaits]; rfl))
    simp only [wp_bind, wp_get]
    refine (tidy_onStore h Store.advances_resumeCheckpoint).mono (fun _ v1 hpost => ?_)
      fun _ _ h1 => h1.mono (by omega)
    obtain ⟨h1, s, hv1, hs⟩ := hpost
    rw [wp_modify]
    have hl1 : Loose v1.toAuthority := by
      rw [hv1]
      exact ⟨hloose.campaign, hloose.exchanges, hloose.operation, by simp [hnone], hloose.state⟩
    have hk : ∀ y ∈ v1.imageContinuation, y.leads = false ∧ (y = .start → State.follower = .starting) := by
      rw [hv1]
      simp [hnone]
    have h2 : Orderly { v1.toAuthority with state := .follower } v1.deferredPreparePeer
        v1.publishedIndex := h1.orderly.restate hl1 (by simp) (by simp) hk
    refine hushed_armElection.tidies ?_
    exact Tidy.mono ⟨h2, h1.tripped, h1.actions, h1.since.restate (by simp)⟩ (by omega)
  | campaign expected =>
    obtain ⟨hpublication, hcalm⟩ := hx.leads rfl
    exact tidies_campaignReady h hnone ⟨hx.awaits.1, hpublication, hcalm⟩ (by omega) hl
  | prepare message => exact tidies_prepareReady h hn hl
  | publishLocal expected =>
    simp only [wp_bind, wp_get, wp_ite, wp_pure]
    refine ⟨fun hcond => ?_, fun _ => h.mono (by omega)⟩
    refine tidies_publish h (fun hc => ?_) (by simp [hnone]) ?_ (by omega) hl
    · rw [show v.campaign = none from hcond.1] at hc
      cases hc
    · rcases hcond.2.2.2 with heq | heq
      · rw [heq]
        simp
      · rw [heq]
        simp
  | publish committing expected =>
    obtain ⟨-, hcalm⟩ := hx.leads rfl
    simp only [wp_bind, wp_get, wp_ite, wp_pure]
    refine ⟨fun hcond => ?_, fun _ => h.mono (by omega)⟩
    refine (tidies_publish h (fun _ => hcalm) (by simp [hnone]) ?_ (by omega) hl).mono
      (fun _ v1 h1 => hushed_progress.tidies h1) fun _ _ h1 => h1
    have hsome : v.operation.isSome := by
      rw [hx.awaits.1]
      rfl
    rcases h.orderly.operating hsome with heq | heq
    · rw [heq]
      simp
    · rw [heq]
      simp

/-- The continuation takes the place of the one that was there, and is resumed now or later. -/
theorem tidies_withImage {x : Continuation m} (h : Tidy n u { v with imageContinuation := some x })
    (hn : n + 3 ≤ l) (hl : l ≤ maxActions) : Tidies l u (withImage sha bounds x) v := by
  obtain ⟨hawaits, hleads⟩ := h.orderly.resuming x rfl
  have hmono := h.mono (l := l) (by omega)
  unfold withImage
  simp only [wp_bind, wp_modify]
  refine (hushed_proven _).mono (fun through v1 hv1 => ?_) fun _ v1 hv1 => hmono.still hv1
  have h1 := h.still hv1
  simp only [wp_get, wp_ite, wp_bind, wp_modify, wp_pure]
  refine ⟨fun _ => ?_, fun _ => ⟨fun _ => ?_, fun _ => h1.mono (by omega)⟩⟩
  · refine tidies_resume ⟨{ h1.orderly with resuming := by simp }, h1.tripped, h1.actions,
      h1.since⟩ ?_ rfl hn hl
    rw [hv1.authority]
    cases x with
    | start => exact ⟨hawaits, hleads⟩
    | campaign expected => exact ⟨hawaits, hleads⟩
    | prepare message => exact ⟨hawaits, hleads⟩
    | publishLocal expected => exact ⟨hawaits, hleads⟩
    | publish op expected => exact ⟨hawaits, hleads⟩
  · refine (hushed_nextId v1).mono (fun id v2 hv2 => ?_) fun _ v2 hv2 => (h1.still hv2).mono (by omega)
    have h2 := h1.still hv2
    simp only [wp_onStore, Store.replay, wp_bind, Store.wp_usable, wp_get, wp_capacity, wp_pure]
    refine ⟨fun _ => ⟨fun _ => ?_, fun _ => h2.mono (by omega)⟩, fun _ => h2.mono (by omega)⟩
    exact tidies_emit ⟨h2.orderly, h2.tripped, h2.actions, h2.since⟩ (by omega) hl

end Protocol

end GeneralSearch.Replication
