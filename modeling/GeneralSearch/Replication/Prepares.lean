import GeneralSearch.Replication.Guards

/-! The PREPAREs that a voter has taken in: each is answered once, and the one that is pending waits
for a reconstruction that is under way, as long as no higher promise is observed meanwhile. -/

namespace GeneralSearch.Replication

open Lib

variable {D : Type} {m : Manifest D}

/-- The part of a voter that says what becomes of a PREPARE. -/
structure Burden (m : Manifest D) where
  preparing : Option (Call m)
  received : List (Call m)
  replied : List (Call m)
  state : State
  fence : Ballot
  campaign : Option Ballot
  operation : Option (Operation m)
  exchanges : List (Pending m)
  imageContinuation : Option (Continuation m)
  reconstruction : Option (ℕ × Replay m)

def Voter.burden (v : Voter m) : Burden m where
  preparing := v.preparing
  received := v.received
  replied := v.replied
  state := v.state
  fence := v.fence
  campaign := v.campaign
  operation := v.operation
  exchanges := v.exchanges
  imageContinuation := v.imageContinuation
  reconstruction := v.reconstruction

/-- No PREPARE is pending, and these were received and answered. -/
def Unburdened (received replied : List (Call m)) (b : Burden m) : Prop :=
  b.preparing = none ∧ b.received = received ∧ b.replied = replied

/-! ### What has nothing to do with PREPAREs -/

namespace Protocol

variable {bounds : Bounds m} {v v' : Voter m} {α : Type} {received replied : List (Call m)}
  {P : Burden m → Prop}

/-- What is known of the burden stays so however the computation ends. -/
abbrev Bears (P : Burden m → Prop) (x : Exec m α) : Prop := Preserves (fun v => P v.burden) x

theorem bears_need {c : Prop} [Decidable c] {message : String} :
    Bears P (need c message : Exec m Unit) :=
  fun _ h => wp_need.mpr ⟨fun _ => h, fun _ => h⟩

theorem bears_capacity {c : Prop} [Decidable c] {message : String} :
    Bears P (capacity c message : Exec m Unit) :=
  fun _ h => wp_capacity.mpr ⟨fun _ => h, fun _ => h⟩

theorem bears_onStore {x : Store.Exec m α} :
    Bears P (onStore x) := by
  intro v h
  unfold Wp onStore
  cases x v.store <;> exact h

theorem bears_lift {x : Except Failure α} :
    Bears P (lift x : Exec m α) := by
  intro v h
  unfold Wp lift
  cases x <;> exact h

theorem bears_nextId : Bears P (nextId : Exec m ℕ) :=
  .bind .get fun _ => .bind bears_capacity fun _ =>
    .bind (.modify fun _ h => h) fun _ => .bind .get fun _ => .pure

theorem bears_progress : Bears P (progress : Exec m Unit) :=
  .bind .get fun _ => .bind bears_capacity fun _ => .modify fun _ h => h

theorem bears_after {millis : ℕ} :
    Bears P (after millis : Exec m ℕ) :=
  .bind .get fun _ => .bind bears_capacity fun _ => .bind .get fun _ => .pure

theorem bears_clock {value : ℕ} :
    Bears P (clock value : Exec m Unit) :=
  .bind .get fun _ => .bind bears_need fun _ => .modify fun _ h => h

theorem bears_room : Bears P (room : Exec m Unit) :=
  .bind .get fun _ => bears_capacity

theorem bears_emit {a : Action m} :
    Bears P (emit a : Exec m Unit) :=
  .bind .get fun _ => .bind (.bind (.modify fun _ h => h) fun _ => bears_capacity) fun _ =>
    .modify fun _ h => h

theorem bears_complete {request index : ℕ} {reason : Option Reason} {outcome : Outcome}
    {done : Option (Ballot × Entry D)} : Bears P
      (complete request index reason outcome done : Exec m Unit) :=
  .bind bears_emit fun _ => .modify fun _ h => h

theorem bears_proven : Bears P (proven : Exec m ℕ) :=
  .bind bears_onStore fun _ => .bind (.modify fun _ h => h) fun _ => .pure

theorem bears_armElection :
    Bears P (armElection bounds : Exec m Unit) :=
  .bind .get fun _ => .bind (.modify fun _ h => h) fun _ => .bind bears_after fun _ =>
    .modify fun _ h => h

theorem bears_indeterminate {reason : Reason} :
    Bears P (indeterminate reason : Exec m Unit) := by
  refine .bind .get fun v => ?_
  split
  · exact .pure
  · exact .ite .pure bears_complete

theorem unburdened_abandon {reason : Reason} :
    Bears (Unburdened received replied) (abandon bounds reason : Exec m Unit) :=
  .bind (.modify fun _ h => h) fun _ => .bind bears_indeterminate fun _ =>
    .bind (.modify fun _ h => h) fun _ => bears_armElection

theorem unburdened_fail {reason : Reason} :
    Bears (Unburdened received replied) (fail bounds reason : Exec m Unit) :=
  .bind unburdened_abandon fun _ => .modify fun _ h => h

theorem unburdened_send {peer : Node} {request : Request m} :
    Bears (Unburdened received replied) (send bounds peer request) := by
  refine .bind .get fun v => .bind (.bind (.modify fun _ h => h) fun _ => bears_capacity)
    fun _ => .bind bears_nextId fun id => ?_
  split
  · exact .throw
  · exact .bind bears_after fun _ => .bind (.modify fun _ h => h) fun _ => bears_emit

/-- The answer to a request that is no PREPARE. -/
theorem bears_reply {request : Call m} {response : Response m}
    (hkind : request.request.kind ≠ .prepare) :
    Bears P (reply request response) := by
  refine .bind .get fun v => .bind bears_emit fun _ => .modify fun v' h => ?_
  rw [if_neg hkind]
  exact h

theorem unburdened_prepareFailed :
    Bears (Unburdened received replied) (prepareFailed bounds : Exec m Unit) := by
  refine .bind .get fun v => .ite .pure ?_
  split
  · exact unburdened_abandon
  · exact .ite (.bind (.modify fun _ h => h) fun _ => unburdened_send) unburdened_abandon

theorem unburdened_exchangeFailed {id : ℕ} :
    Bears (Unburdened received replied) (exchangeFailed bounds id : Exec m Unit) := by
  refine .bind .get fun v => ?_
  split
  · exact .pure
  · refine .bind (.modify fun _ h => h) fun _ => ?_
    split
    · exact .pure
    · exact unburdened_prepareFailed
    · exact unburdened_abandon

variable [DecidableEq D] {sha : Sha m}

theorem bears_publish {ballot : Ballot} {isLocal : Bool} :
    Bears P (publish sha ballot isLocal) :=
  .bind bears_nextId fun _ => .bind .get fun _ => .bind bears_onStore fun _ =>
    .bind (.modify fun _ h => h) fun _ => bears_emit

theorem unburdened_campaignReady {expected : Ballot} :
    Bears (Unburdened received replied) (campaignReady sha bounds expected) :=
  .bind .get fun _ => .ite (.bind bears_onStore fun _ => .bind (.modify fun _ h => h) fun _ =>
    .bind bears_onStore fun _ => .bind (.modify fun _ h => h) fun _ => .bind .get fun _ =>
    .forM fun _ => .ite .pure unburdened_send) .pure

/-- The PREPARE of a continuation that comes too late. -/
theorem unburdened_prepareReady {message : Call m} :
    Bears (Unburdened received replied) (prepareReady sha bounds message) := by
  intro v h
  unfold prepareReady
  simp only [wp_bind, wp_get, wp_ite, wp_pure]
  refine ⟨fun hcond => ?_, fun _ => h⟩
  have hnone : v.preparing = none := h.1
  cases hnone.symm.trans hcond.1

theorem unburdened_resume {k : Continuation m} :
    Bears (Unburdened received replied) (resume sha bounds k) := by
  cases k with
  | start =>
    exact .bind .get fun _ => .bind bears_onStore fun _ => .bind (.modify fun _ h => h)
      fun _ => bears_armElection
  | campaign expected => exact unburdened_campaignReady
  | prepare message => exact unburdened_prepareReady
  | publishLocal expected => exact .bind .get fun _ => .ite bears_publish .pure
  | publish committing expected =>
    exact .bind .get fun _ => .ite (.bind bears_publish fun _ => bears_progress) .pure

theorem unburdened_withImage {k : Continuation m} :
    Bears (Unburdened received replied) (withImage sha bounds k) :=
  .bind (.modify fun _ h => h) fun _ => .bind bears_proven fun _ => .bind .get fun _ =>
    .ite (.bind (.modify fun _ h => h) fun _ => unburdened_resume)
      (.ite (.bind bears_nextId fun _ => .bind bears_onStore fun _ =>
        .bind (.modify fun _ h => h) fun _ => bears_emit) .pure)

/-! ### The calls of the driver -/

theorem bears_restored {application : Bytes} :
    Bears P (restored sha application) :=
  .bind .get fun _ => .bind bears_need fun _ => .bind bears_onStore fun _ =>
    .modify fun _ h => h

theorem bears_maintenanceSnapshot :
    Bears P (maintenanceSnapshot sha : Exec m _) :=
  .bind .get fun _ => .ite .pure (.bind bears_proven fun _ =>
    .ite .pure (.bind bears_onStore fun _ => .pure))

theorem bears_checkpoint {application : Bytes} :
    Bears P (checkpoint sha application) :=
  .bind bears_onStore fun _ => .bind .get fun _ => .bind bears_capacity fun _ =>
    bears_onStore

theorem bears_cut : Bears P (cut sha : Exec m _) := by
  refine .bind bears_maintenanceSnapshot fun snapshot => ?_
  cases snapshot with
  | none => exact .pure
  | some snapshot =>
    exact .bind .get fun _ => .ite (.bind bears_onStore fun _ => .pure) .pure

omit [DecidableEq D] in
theorem unburdened_observePromise {observed : Ballot} :
    Bears (Unburdened received replied) (observePromise bounds observed : Exec m Unit) :=
  .bind .get fun _ => .ite (.bind (.modify fun _ h => h) fun _ => .bind unburdened_abandon fun _ =>
    .modify fun _ h => h) .pure

theorem bears_rejoin {ballot : Ballot} {snapshot : Snapshot m} :
    Bears P (rejoin sha bounds ballot snapshot) :=
  .bind .get fun _ => .bind bears_need fun _ => .bind bears_onStore fun _ =>
    .bind (.modify fun _ h => h) fun _ => .bind bears_proven fun _ =>
    .bind (.modify fun _ h => h) fun _ => bears_armElection

theorem bears_frozen {ballot : Ballot} :
    Bears P (frozen sha bounds ballot) := by
  refine .bind .get fun v => .bind bears_need fun _ => ?_
  split
  · exact .throw
  · exact .bind bears_onStore fun _ => .pure

theorem unburdened_start {time : ℕ} :
    Bears (Unburdened received replied) (start sha bounds time) :=
  .bind bears_clock fun _ => .bind bears_room fun _ => .bind .get fun _ =>
    .bind bears_need fun _ => .bind (.modify fun _ h => h) fun _ => unburdened_withImage

theorem unburdened_reconstructed {id : ℕ} {application : Option Bytes} {time : ℕ} :
    Bears (Unburdened received replied) (reconstructed sha bounds id application time) := by
  refine .bind bears_clock fun _ => .bind bears_room fun _ => .bind .get fun v => ?_
  split
  · exact .throw
  · refine .bind bears_need fun _ => .bind (.modify fun _ h => h) fun _ => .bind .get fun v =>
      .ite .pure ?_
    split
    · exact unburdened_fail
    · refine .bind bears_capacity fun _ => .bind (.modify fun _ h => h) fun _ => ?_
      split
      · exact .pure
      · exact .tryCatch unburdened_withImage fun _ => unburdened_fail

theorem unburdened_beginCampaign :
    Bears (Unburdened received replied) (beginCampaign sha bounds) := by
  refine .tryCatch (.bind bears_onStore fun _ => .bind .get fun _ => .bind bears_lift
    fun _ => .bind bears_need fun _ => ?_) fun _ => unburdened_fail
  split
  · exact .bind (.modify fun _ h => h) fun _ => .bind bears_after fun _ =>
      .bind (.modify fun _ h => h) fun _ => .bind bears_after fun _ =>
      .bind (.modify fun _ h => h) fun _ => unburdened_withImage
  · exact .throw

omit [DecidableEq D] in
theorem unburdened_tickExchange {id : ℕ} :
    Bears (Unburdened received replied) (tickExchange bounds id : Exec m Unit) := by
  refine .bind .get fun v => ?_
  split
  · exact .pure
  · exact .ite unburdened_exchangeFailed
      (.ite (.bind (.modify fun _ h => h) fun _ => bears_emit) .pure)

omit [DecidableEq D] in
theorem unburdened_beat : Bears (Unburdened received replied) (beat bounds : Exec m Unit) :=
  .bind .get fun _ => .ite (.bind bears_capacity fun _ => .bind (.modify fun _ h => h) fun _ =>
    .bind (.forM fun _ => .bind .get fun _ => .ite .pure unburdened_send) fun _ =>
    .bind bears_after fun _ => .modify fun _ h => h) .pure

theorem unburdened_tick {time : ℕ} :
    Bears (Unburdened received replied) (tick sha bounds time) := by
  have hreads : Bears (Unburdened received replied) (tickReads sha bounds) :=
    .bind .get fun _ => .ite (.bind bears_proven fun _ =>
      .ite (.bind (.modify fun _ h => h) fun _ => unburdened_withImage) .pure) .pure
  exact .bind bears_clock fun _ => .bind bears_room fun _ => .bind .get fun _ =>
    .ite .pure (.bind (.bind .get fun _ => .ite unburdened_abandon .pure) fun _ => .bind .get fun _ =>
    .bind (.forM fun _ => unburdened_tickExchange) fun _ => .bind unburdened_beat fun _ =>
    .bind (.bind .get fun _ => .ite unburdened_beginCampaign .pure) fun _ => hreads)

omit [DecidableEq D] in
theorem unburdened_retry {id : ℕ} :
    Bears (Unburdened received replied) (retry bounds id : Exec m Unit) :=
  .bind bears_after fun _ => .modify fun _ h => h

omit [DecidableEq D] in
theorem unburdened_defer {id : ℕ} :
    Bears (Unburdened received replied) (defer id : Exec m Unit) :=
  .modify fun _ h => h

omit [DecidableEq D] in
theorem unburdened_transportFailed {id time : ℕ} :
    Bears (Unburdened received replied) (transportFailed bounds id time : Exec m Unit) := by
  refine .bind bears_clock fun _ => .bind bears_room fun _ => .bind .get fun v => ?_
  split
  · exact .pure
  · exact .bind .get fun _ => .ite unburdened_exchangeFailed unburdened_retry

omit [DecidableEq D] in
theorem unburdened_transportDeferred {id time : ℕ} :
    Bears (Unburdened received replied) (transportDeferred bounds id time : Exec m Unit) := by
  refine .bind bears_clock fun _ => .bind bears_room fun _ => .bind .get fun v => ?_
  split
  · exact .pure
  · exact .bind .get fun _ => .ite unburdened_exchangeFailed
      (.bind unburdened_defer fun _ => unburdened_retry)

omit [DecidableEq D] in
theorem unburdened_fresh {operation : ℕ} {payload : Bytes} :
    Bears (Unburdened received replied) (fresh sha operation payload) := by
  refine .bind bears_onStore fun head => .bind .get fun v => ?_
  split
  · exact .throw
  · split
    · exact .pure
    · exact .throw

theorem unburdened_commit {entry : Entry D} {request : ℕ} {recovery : Bool} :
    Bears (Unburdened received replied) (commit sha bounds entry request recovery) := by
  refine .bind .get fun v => ?_
  split
  · exact .throw
  · refine .bind bears_need fun _ => .bind bears_onStore fun _ => .bind bears_need
      fun _ => ?_
    split
    · refine .bind bears_capacity fun _ => .bind bears_after fun _ =>
        .bind (.modify fun _ h => h) fun _ => .bind (.modify fun _ h => h) fun _ =>
        .bind bears_onStore fun _ => .bind (.modify fun _ h => h) fun _ =>
        .bind bears_progress fun _ => ?_
      split
      · exact .throw
      · exact unburdened_send
    · exact .throw

theorem unburdened_submit {request operation : ℕ} {payload : Bytes} {time : ℕ} :
    Bears (Unburdened received replied) (submit sha bounds request operation payload time) :=
  .bind (.modify fun _ h => h) fun _ => .bind bears_clock fun _ => .bind bears_room
    fun _ => .bind bears_need fun _ => .bind .get fun _ => .ite bears_complete
    (.tryCatch (.bind unburdened_fresh fun _ => unburdened_commit) fun _ => .bind .get fun _ =>
      .ite bears_complete unburdened_fail)

theorem unburdened_accepted {sender : Node} {receipt : D} :
    Bears (Unburdened received replied) (accepted sha bounds sender receipt) := by
  refine .bind .get fun v => ?_
  split
  · refine .bind bears_need fun _ => .bind bears_need fun _ => ?_
    dsimp only
    split
    · exact .bind (.modify fun _ h => h) fun _ => .bind bears_onStore fun _ =>
        .bind bears_proven fun _ => .bind bears_progress fun _ => unburdened_send
    · exact .throw
  · exact .throw

theorem unburdened_proved {sender : Node} {receipt : D} :
    Bears (Unburdened received replied) (proved sha bounds sender receipt) := by
  refine .bind .get fun v => ?_
  split
  · split
    · exact .throw
    · exact .bind bears_need fun _ => .bind bears_need fun _ => unburdened_withImage
  · exact .throw

theorem unburdened_published {id : ℕ} {error : Bool} {time : ℕ} :
    Bears (Unburdened received replied) (published sha bounds id error time) := by
  have hleader : ∀ completed,
      Bears (Unburdened received replied) (publishedLeader sha bounds completed) := by
    intro completed
    refine .bind .get fun v => ?_
    split
    · exact .pure
    · exact .ite .pure (.bind bears_onStore fun _ => .ite .pure (.ite unburdened_abandon
        (.bind (.modify fun _ h => h) fun _ => .ite
          (.ite (.bind unburdened_fresh fun _ => unburdened_commit)
            (.bind (.modify fun _ h => h) fun _ => bears_progress)) bears_complete)))
  refine .bind bears_clock fun _ => .bind bears_room fun _ => .bind .get fun v => ?_
  split
  · exact .throw
  · exact .bind bears_need fun _ => .bind (.modify fun _ h => h) fun _ => .bind .get fun _ =>
      .ite .pure (.ite unburdened_fail (.bind (.modify fun _ h => h) fun _ =>
        .ite (.bind bears_need fun _ => .bind bears_proven fun _ =>
          .bind bears_need fun _ => .modify fun _ h => h) (hleader _)))

omit [DecidableEq D] in
theorem unburdened_cancel {request time : ℕ} :
    Bears (Unburdened received replied) (cancel bounds request time : Exec m Unit) :=
  .bind bears_clock fun _ => .bind bears_room fun _ => .bind .get fun _ =>
    .ite unburdened_abandon .pure

omit [DecidableEq D] in
theorem unburdened_quiesce :
    Bears (Unburdened received replied) (quiesce bounds : Exec m Unit) := by
  refine .bind bears_room fun _ => .bind .get fun _ => .ite .pure fun v h => ?_
  have hclose : Bears (Unburdened received replied) (do
      abandon bounds .closed
      modify fun v => { v with state := .closed, electionAt := maxLong }) :=
    .bind unburdened_abandon fun _ => .modify fun _ h => h
  have hnone : v.preparing = none := h.1
  refine wp_bind.mpr (wp_get.mpr ?_)
  rw [hnone]
  exact hclose v h

/-! ### Messages -/

theorem bears_adopt {chosen : Selection m} :
    Bears P (adopt sha chosen) :=
  .bind bears_proven fun _ => .ite (.bind bears_onStore fun _ => .bind .get fun _ =>
    .ite (.bind bears_onStore fun _ => .bind (.modify fun _ h => h) fun _ =>
      .bind bears_proven fun _ => .pure) .pure) .pure

theorem bears_installRequest {message : Call m} {bases : List (Basis m)}
    (hkind : message.request.kind ≠ .prepare) :
    Bears P (installRequest sha bounds message bases) :=
  .bind .get fun _ => .bind bears_need fun _ => .bind bears_lift fun _ =>
    .bind bears_onStore fun _ => .bind bears_need fun _ => .bind bears_onStore fun _ =>
    .bind bears_adopt fun _ => .ite (bears_reply hkind) (bears_reply hkind)

omit [DecidableEq D] in
theorem bears_heartbeat {message : Call m} {pulse : Pulse}
    (hkind : message.request.kind ≠ .prepare) :
    Bears P (heartbeat bounds message pulse) :=
  .bind bears_need fun _ => .bind .get fun _ => .bind (.ite (.bind (.modify fun _ h => h)
    fun _ => .ite (.bind (.modify fun _ h => h) fun _ => bears_armElection) .pure) .pure)
    fun _ => bears_reply hkind

theorem bears_perform {message : Call m} (hkind : message.request.kind ≠ .prepare) :
    Bears P (perform sha bounds message) := by
  unfold perform
  split
  · rename_i hprepare
    exact absurd (by rw [hprepare]; rfl) hkind
  · refine .bind .get fun v => .ite (bears_reply hkind) (.bind bears_onStore fun _ =>
      .ite (bears_reply hkind) ?_)
    split
    · exact .pure
    · exact bears_installRequest hkind
    · exact .bind bears_need fun _ => .bind bears_onStore fun _ => bears_reply hkind
    · exact .bind bears_need fun _ => .bind bears_onStore fun _ =>
        .bind bears_proven fun _ => bears_reply hkind
    · exact bears_heartbeat hkind

theorem unburdened_acknowledged {request : Call m} {sender : Node} {r : Response m} :
    Bears (Unburdened received replied) (acknowledged sha bounds request sender r) := by
  unfold acknowledged
  split
  · exact .pure
  · refine .bind .get fun v => .ite (.bind bears_need fun _ => ?_) .pure
    split
    · exact .throw
    · exact .bind bears_capacity fun _ => .bind bears_onStore fun _ =>
        .bind (.modify fun _ h => h) fun _ => .bind bears_adopt fun _ =>
        .ite (.bind (.modify fun _ h => h) fun _ => .bind bears_progress fun _ =>
          unburdened_send) unburdened_abandon
  · refine .bind .get fun v => .bind bears_need fun _ => ?_
    split
    · exact .throw
    · refine .bind bears_need fun _ => .bind bears_progress fun _ => ?_
      split
      · exact .bind unburdened_fresh fun _ => unburdened_commit
      · exact unburdened_commit
  · exact unburdened_accepted
  · exact unburdened_proved
  · split
    · exact bears_need
    · exact .throw

theorem unburdened_response {r : Reply m} :
    Bears (Unburdened received replied) (response sha bounds r) := by
  refine .bind .get fun v => ?_
  split
  · exact .pure
  · exact .bind bears_need fun _ => .bind .get fun _ => .ite unburdened_exchangeFailed
      (.ite unburdened_abandon (.ite (.bind (.modify fun _ h => h) fun _ =>
        .bind unburdened_abandon fun _ => .modify fun _ h => h) (.ite unburdened_exchangeFailed
        (.bind bears_need fun _ => .bind (.modify fun _ h => h) fun _ => .ite .pure
          (.bind bears_onStore fun _ => .ite .pure
            (.tryCatch unburdened_acknowledged fun _ => unburdened_fail))))))

omit [DecidableEq D] in
theorem bears_endpoint {sender recipient : Node} {id : ℕ} {ballot : Ballot} :
    Bears P (endpoint sender recipient id ballot : Exec m Unit) :=
  .bind .get fun _ => .bind bears_need fun _ => bears_need

end Protocol

end GeneralSearch.Replication
