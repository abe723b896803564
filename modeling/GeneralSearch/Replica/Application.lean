import GeneralSearch.Engine.IndexBuild
import GeneralSearch.Replica.Records

/-! `ReplicaApplication`: two engines, of which one is published and the other works one operation
ahead.  A publication exchanges them, and the next preparation first repeats on the engine that
was published before what the other one has done. -/

namespace GeneralSearch.Replica

open GeneralSearch.Storage
open GeneralSearch.Engine

section

variable (K : Type) {T : Type} (ops : IndexOps T)

/-- `ReplicaApplication.Operation` of an operation that changes the engine, by its type. -/
inductive ApplicationOperation where
  | add (document : T)
  | update (document : T)
  | remove (key : K)
  | addAll (documents : List T)
  | updateAll (documents : List T)
  | removeAll (keys : List K)
  | indexCreate (field : ops.Field) (indexType : ops.Kind)
  | indexDrop (field : ops.Field)

/-- `ReplicaApplication.Operation`: NO_OP and SNAPSHOT_MARKER are the control operations. -/
inductive Decoded where
  | control
  | application (operation : ApplicationOperation K ops)

/-- What an operation is refused with: an exception of the application or of `decode`, or the one
that the future of the engine completes with. -/
inductive ApplicationFailure where
  | thrown (failure : Failure)
  | engine (failure : ControlFailure K)
  | tooLarge
  deriving DecidableEq

/-- What the application is configured with: the schema, `maxDocuments` of the storage, and
`maxBatchSize` of the engines. -/
structure ApplicationSetup where
  idOf : T → K
  registered : ops.Field → Bool
  maxDocuments : ℕ
  maxBatchSize : ℕ

/-- What the callbacks of an engine do in a published state: where they throw for a mutation at a
position of its task, what `state.build()` throws behind the mutations, whether the executor refuses
an index build, whether the build fails, and what its installation throws. -/
structure Callbacks where
  fault : PublishedState K T ops.Index → ℕ → SearchMutation K T → Fault
  building : PublishedState K T ops.Index → List (SearchMutation K T) → Option Thrown
  rejects : PublishedState K T ops.Index → ops.Field → Bool
  buildFails : PublishedState K T ops.Index → ops.Field → ops.Kind → Bool
  replayThrows : PublishedState K T ops.Index → ops.Field → ops.Kind → Option Thrown

/-- Callbacks that return. -/
def Callbacks.quiet : Callbacks K ops := ⟨fun _ _ _ => .none, fun _ _ => none, fun _ _ => false,
  fun _ _ _ => false, fun _ _ _ => none⟩

/-- The code of others: the callbacks, and what `decode` makes of the payload of an operation that
is not a control operation. -/
structure World extends Callbacks K ops where
  decode : Operation → Bytes → Except Failure (ApplicationOperation K ops)

/-- `ReplicaApplication.Slot`; the sign of `readers` says whether it is retired. -/
structure Slot where
  engine : EngineState K ops
  leases : ℕ
  retired : Bool

/-- `ReplicaApplication`, with the fields of `Published`. -/
structure ReplicaApplication where
  published : Slot K ops
  index : ℕ
  sequence : ℕ
  working : Slot K ops
  catchup : Option (ApplicationOperation K ops)
  prepared : Option (Decoded K ops)
  registered : List (ops.Field × ops.Kind)
  closed : Bool

end

section

variable {K T : Type} [DecidableEq K] {ops : IndexOps T} (setup : ApplicationSetup K ops)

/-! ### The engines -/

/-- The mutations of a bulk as tasks of an engine. -/
def tasks (callbacks : Callbacks K ops) (current : PublishedState K T ops.Index)
    (mutations : List (SearchMutation K T)) : List (MutationTask K T) :=
  mutations.mapIdx fun position mutation => ⟨mutation, callbacks.fault current position mutation⟩

/-- What an engine leaves of an operation: how its future completes, and its state. -/
abbrev Applied (K : Type) {T : Type} (ops : IndexOps T) :=
  Except (ApplicationFailure K) Unit × EngineState K ops

/-- `add`, `update` and `remove`, joined: a batch of one task.  Whatever `state.build()` throws
behind it stops the writer. -/
def applySingle (callbacks : Callbacks K ops) (engine : EngineState K ops)
    (mutation : SearchMutation K T) : Applied K ops :=
  let task : MutationTask K T := ⟨mutation, callbacks.fault engine.current 0 mutation⟩
  if engine.accepting = false then (.error (.engine .closed), engine)
  else match (applyTask ops setup.idOf (.ofPublished ops engine.current) task).1 with
  | .error e => (.error (.engine (.mutation e)), engine.batch ops setup.idOf [task] .committed)
  | .ok _ =>
    match callbacks.building engine.current [mutation] with
    | some thrown => (.error (.engine (.callback thrown)), engine.stopAfterFailure)
    | none => (.ok (), engine.batch ops setup.idOf [task] .committed)

/-- `submitBulk`, joined. -/
def applyAllOf (callbacks : Callbacks K ops) (engine : EngineState K ops)
    (mutations : List (SearchMutation K T)) : Applied K ops :=
  if mutations.isEmpty then (.ok (), engine)
  else if setup.maxBatchSize < mutations.length then (.error .tooLarge, engine)
  else if engine.accepting = false then (.error (.engine .closed), engine)
  else
    let r := engine.processBulk ops setup.idOf (tasks callbacks engine.current mutations) .committed
    match r.1 with
    | .error e => (.error (.engine e), r.2)
    | .ok _ =>
      match callbacks.building engine.current mutations with
      | some thrown => (.error (.engine (.callback thrown)), engine.failed (.callback thrown))
      | none => (.ok (), r.2)

/-- What the future of a creation whose build is not installed completes with: a failure of the
build or what the installation throws. -/
def installThrows (callbacks : Callbacks K ops) (current : PublishedState K T ops.Index)
    (field : ops.Field) (indexType : ops.Kind) : Thrown :=
  if callbacks.buildFails current field indexType then .exception
  else (callbacks.replayThrows current field indexType).getD .exception

/-- `createIndex`, joined: the build that the executor delivers is installed before anything
else happens. -/
def applyIndexCreate (callbacks : Callbacks K ops) (engine : EngineState K ops)
    (field : ops.Field) (indexType : ops.Kind) : Applied K ops :=
  if engine.accepting = false then (.error (.engine .closed), engine)
  else
    let r := engine.processCreateIndex ops setup.registered field indexType true
      (callbacks.rejects engine.current field)
    match r.1 with
    | .error e => (.error (.engine e), r.2)
    | .ok _ =>
      let installed := r.2.process ops setup.idOf setup.registered
        (.installIndex engine.executing.length
          (callbacks.buildFails engine.current field indexType)
          (callbacks.replayThrows engine.current field indexType) .committed)
      match installed.1 with
      | .installed _ _ => (.ok (), installed.2)
      | _ => (.error (.engine (.callback (installThrows callbacks engine.current field indexType))),
          installed.2)

/-- `dropIndex`, joined. -/
def applyIndexDrop (engine : EngineState K ops) (field : ops.Field) : Applied K ops :=
  if engine.accepting = false then (.error (.engine .closed), engine)
  else
    let r := engine.processDropIndex ops setup.registered field .committed
    (r.1.mapError .engine, r.2)

/-- `apply`. -/
def apply (callbacks : Callbacks K ops) (engine : EngineState K ops) :
    ApplicationOperation K ops → Applied K ops
  | .add document => applySingle setup callbacks engine (.add document)
  | .update document => applySingle setup callbacks engine (.update document)
  | .remove key => applySingle setup callbacks engine (.remove key)
  | .addAll documents => applyAllOf setup callbacks engine (documents.map .add)
  | .updateAll documents => applyAllOf setup callbacks engine (documents.map .update)
  | .removeAll keys => applyAllOf setup callbacks engine (keys.map .remove)
  | .indexCreate field indexType => applyIndexCreate setup callbacks engine field indexType
  | .indexDrop field => applyIndexDrop setup engine field

/-- `apply` of an operation that may be a control operation. -/
def applyDecoded (callbacks : Callbacks K ops) (engine : EngineState K ops) :
    Decoded K ops → Applied K ops
  | .control => (.ok (), engine)
  | .application operation => apply setup callbacks engine operation

/-! ### Preparation and publication -/

namespace ReplicaApplication

/-- `control`. -/
def control (operation : Operation) : Bool :=
  operation = .noOp || operation = .snapshotMarker

/-- `decode`. -/
def decode (world : World K ops) (operation : Operation) (payload : Bytes) :
    Except (ApplicationFailure K) (Decoded K ops) :=
  if control operation then
    if payload = [] then .ok .control
    else .error (.thrown (.replication .integrityFailure "NO_OP payload must be empty"))
  else (world.decode operation payload).mapError .thrown |>.map .application

/-- `Long.MAX_VALUE`. -/
def maxLong : ℕ := 2 ^ 63 - 1

/-- The bound on the indexes of a snapshot. -/
def maxIndexes : ℕ := 10000

/-- `registered.get`. -/
def descriptor (s : ReplicaApplication K ops) (field : ops.Field) : Option ops.Kind :=
  (s.registered.find? fun entry => entry.1 = field).map (·.2)

/-- The documents that an operation adds. -/
def added : Decoded K ops → Option ℕ
  | .application (.add _) => some 1
  | .application (.addAll documents) => some documents.length
  | _ => none

/-- The checks of `prepare` between `decode` and `apply`. -/
def checkOperation (s : ReplicaApplication K ops) (operation : Decoded K ops) :
    Except (ApplicationFailure K) Unit := do
  match operation with
  | .application (.indexCreate field indexType) =>
    unless s.descriptor field = none ∨ s.descriptor field = some indexType do
      throw (.thrown (.replication .protocolMismatch
        "replica snapshots allow one index per field; drop the existing index first"))
    unless s.registered.length < maxIndexes do
      throw (.thrown (.replication .capacityExceeded "snapshot index count exceeds bound"))
  | _ => pure ()
  match added operation with
  | some count =>
    unless s.working.engine.current.snapshot.activeDocuments.card + count ≤ setup.maxDocuments do
      throw (.thrown (.replication .capacityExceeded "application document count exceeds bound"))
  | none => pure ()

/-- A call with the state that it leaves. -/
abbrev Called (K : Type) {T : Type} (ops : IndexOps T) :=
  Except (ApplicationFailure K) Unit × ReplicaApplication K ops

def withEngine (s : ReplicaApplication K ops) (engine : EngineState K ops) :
    ReplicaApplication K ops := { s with working := { s.working with engine } }

/-- The beginning of `prepare`: the operation that the other engine has done already.  The wait for
the readers of the retired slot has ended, because there are none left or by its deadline. -/
def catchUp (world : World K ops) (s : ReplicaApplication K ops) : Called K ops :=
  match s.catchup with
  | none => (.ok (), s)
  | some operation =>
    if s.working.leases ≠ 0 then
      (.error (.thrown (.replication .quorumUnavailable "retired readers did not drain")), s)
    else
      let r := apply setup world.toCallbacks s.working.engine operation
      match r.1 with
      | .error e => (.error e, s.withEngine r.2)
      | .ok _ => (.ok (), { s.withEngine r.2 with catchup := none })

/-- The rest of `prepare`. -/
def prepareNext (world : World K ops) (s : ReplicaApplication K ops) (operation : Operation)
    (payload : Bytes) : Called K ops :=
  if control operation = false ∧ maxLong ≤ s.sequence then
    (.error (.thrown (.replication .capacityExceeded "application sequence exhausted")), s)
  else match (do let decoded ← decode world operation payload
                 checkOperation setup s decoded
                 return decoded) with
  | .error e => (.error e, s)
  | .ok decoded =>
    let r := applyDecoded setup world.toCallbacks s.working.engine decoded
    match r.1 with
    | .error e => (.error e, s.withEngine r.2)
    | .ok _ => (.ok (), { s.withEngine r.2 with prepared := some decoded })

def prepare (world : World K ops) (s : ReplicaApplication K ops) (operation : Operation)
    (payload : Bytes) : Called K ops :=
  if s.closed = true ∨ s.prepared.isSome = true then
    (.error (.thrown (.replication .closed "application has an unresolved prepared operation")), s)
  else
    let r := catchUp setup world s
    match r.1 with
    | .error e => (.error e, r.2)
    | .ok _ => prepareNext setup world r.2 operation payload

/-- `registered` after the operation. -/
def register (registered : List (ops.Field × ops.Kind)) :
    ApplicationOperation K ops → List (ops.Field × ops.Kind)
  | .indexCreate field indexType =>
    (field, indexType) :: registered.filter fun entry => entry.1 ≠ field
  | .indexDrop field => registered.filter fun entry => entry.1 ≠ field
  | _ => registered

/-- The exchange of the slots. -/
def exchange (s : ReplicaApplication K ops) (operation : ApplicationOperation K ops) (index : ℕ) :
    ReplicaApplication K ops :=
  { s with
    published := { s.working with leases := 0, retired := false }
    index
    sequence := s.sequence + 1
    working := { s.published with retired := true }
    catchup := some operation
    prepared := none
    registered := register s.registered operation }

def publish (s : ReplicaApplication K ops) (index : ℕ) : Called K ops :=
  match s.prepared with
  | none => (.error (.thrown (.replication .conflictingHistory
      "application publication is not contiguous")), s)
  | some decoded =>
    if s.closed = true ∨ index ≠ s.index + 1 then
      (.error (.thrown (.replication .conflictingHistory
        "application publication is not contiguous")), s)
    else match decoded with
    | .control => (.ok (), { s with index, prepared := none })
    | .application operation =>
      if s.sequence = maxLong then
        (.error (.thrown .arithmetic), { s with
          working := { s.working with leases := 0, retired := false }
          registered := register s.registered operation })
      else (.ok (), s.exchange operation index)

/-! ### Runs -/

/-- One of the two slots. -/
inductive Side where
  | published | working

/-- What the writer calls, and what readers do: a lease on a slot, which a retired one does not
give, its end, and a look at the published engine. -/
inductive Event where
  | prepare (operation : Operation) (payload : Bytes)
  | publish (index : ℕ)
  | lease (side : Side)
  | release (side : Side)
  | read
  | close

/-- `readers.compareAndSet(leases, leases + 1)`, unless `leases` is negative. -/
def leased (slot : Slot K ops) : Slot K ops :=
  if slot.retired = true then slot else { slot with leases := slot.leases + 1 }

/-- `readers.decrementAndGet`. -/
def released (slot : Slot K ops) : Slot K ops := { slot with leases := slot.leases - 1 }

/-- What an event comes to. -/
inductive Result (K : Type) {T : Type} (ops : IndexOps T) where
  | called (result : Except (ApplicationFailure K) Unit)
  | viewed (current : PublishedState K T ops.Index) (index sequence : ℕ)
  | done

def handle (world : World K ops) (s : ReplicaApplication K ops) :
    Event → Result K ops × ReplicaApplication K ops
  | .prepare operation payload =>
    let r := prepare setup world s operation payload
    (.called r.1, r.2)
  | .publish index =>
    let r := publish s index
    (.called r.1, r.2)
  | .lease .published => (.done, { s with published := leased s.published })
  | .lease .working => (.done, { s with working := leased s.working })
  | .release .published => (.done, { s with published := released s.published })
  | .release .working => (.done, { s with working := released s.working })
  | .read => (.viewed s.published.engine.current s.index s.sequence, s)
  | .close => (.done, { s with closed := true })

/-- The operation that an event publishes. -/
def publishedBy (s : ReplicaApplication K ops) : Event → List (Decoded K ops)
  | .publish index =>
    match (publish s index).1 with
    | .ok _ => s.prepared.toList
    | .error _ => []
  | _ => []

/-- The results of a list of events in one world, and the state behind them. -/
def results (world : World K ops) : ReplicaApplication K ops → List Event →
    List (Result K ops) × ReplicaApplication K ops
  | s, [] => ([], s)
  | s, event :: events =>
    let r := handle setup world s event
    let later := results world r.2 events
    (r.1 :: later.1, later.2)

/-- A run, with the operations that it publishes.  What the callbacks do may be another thing at
every event. -/
inductive Run (start : ReplicaApplication K ops) :
    List (Decoded K ops) → ReplicaApplication K ops → Prop where
  | nil : Run start [] start
  | step {log : List (Decoded K ops)} {s : ReplicaApplication K ops} (run : Run start log s)
      (world : World K ops) (event : Event) :
      Run start (log ++ publishedBy s event) (handle setup world s event).2

/-- The application as it is constructed, or rebuilt from a snapshot: both engines hold the same
state, and nothing is under way. -/
structure Fresh (current : PublishedState K T ops.Index) (s : ReplicaApplication K ops) : Prop where
  published : ∃ n, s.published.engine = { EngineState.start current with nextIndexBuildId := n }
  working : ∃ n, s.working.engine = { EngineState.start current with nextIndexBuildId := n }
  leases : s.working.leases = 0
  retired : s.working.retired = true ∧ s.published.retired = false
  catchup : s.catchup = none
  prepared : s.prepared = none
  wellFormed : current.WellFormed

end ReplicaApplication

end

end GeneralSearch.Replica
