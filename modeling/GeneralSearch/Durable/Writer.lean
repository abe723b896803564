import GeneralSearch.Durable.Recovery

/-! The durable engine: the writer of `SnapshotSearchEngine` with a `DurableCommitCoordinator`.  A
task is applied to the published state, its units are committed to the log, and the state is
published.  Checkpoints capture the published state, and opening the store again replays the log
from the newest of them.  The log is a list of committed frames here, so that nothing of a failed
append is found again; what of it survives in the files is the subject of `Generations` and
`Crash`. -/

namespace GeneralSearch.Durable

open GeneralSearch.Storage GeneralSearch.Engine
open GeneralSearch.Utf8 (JavaString)

/-! ### The coordinator -/

/-- What the storage answers to one commit: the bytes that it retains, and whether the append or the
force fails.  For a batch this stands for an exception of `state.build()` as well, which stops the
writer in the same way. -/
structure StorageAnswer where
  retainedBytes : ℕ
  appendFails : Bool
  deriving DecidableEq, Repr

/-- The fields of `DurableCommitCoordinator`, with the frames of all generations in order. -/
structure Coordinator where
  allocatedSequence : ℕ
  publishedSequence : ℕ
  terminal : Bool
  frames : List Frame
  deriving DecidableEq, Repr

/-- The frames of a commit group. -/
def sequenced : ℕ → List PreparedUnit → List Frame
  | _, [] => []
  | first, unit :: rest => ⟨first, unit.type, unit.payload⟩ :: sequenced (first + 1) rest

/-- The bytes that a commit group appends. -/
def additionalBytes (units : List PreparedUnit) : ℕ :=
  (units.map fun unit => frameHeaderBytes + unit.payload.length + frameTrailerBytes).sum

/-- The checks of `commit` that leave the coordinator as it is. -/
def exceedsCapacity (config : StorageConfig) (units : List PreparedUnit) (liveDocuments : ℕ)
    (storage : StorageAnswer) : Bool :=
  decide (liveDocuments > config.maxDocuments) ||
    units.any (fun unit =>
      decide (frameHeaderBytes + unit.payload.length + frameTrailerBytes > maxFrameBytes)) ||
    decide ((additionalBytes units : ℤ) >
      config.maxRetainedBytes - storage.retainedBytes - generationHeaderBytes)

/-- `commit`. -/
def Coordinator.commit (config : StorageConfig) (c : Coordinator) (units : List PreparedUnit)
    (liveDocuments : ℕ) (storage : StorageAnswer) : CommitResult × Coordinator :=
  if c.terminal then (.terminal, c)
  else if exceedsCapacity config units liveDocuments storage then (.capacityExceeded, c)
  else
    let last := c.allocatedSequence + units.length
    if last > maxSequence then (.terminal, { c with terminal := true })
    else if storage.appendFails then
      (.terminal, { c with allocatedSequence := last, terminal := true })
    else (.committed, { c with
      allocatedSequence := last
      frames := c.frames ++ sequenced (c.allocatedSequence + 1) units })

/-- `published`. -/
def Coordinator.published (c : Coordinator) (firstSequence lastSequence : ℕ) : Coordinator :=
  if firstSequence = c.publishedSequence + 1 ∧ lastSequence = c.allocatedSequence then
    { c with publishedSequence := lastSequence }
  else { c with terminal := true }

/-- `commit`, and `published` for a group that is committed. -/
def Coordinator.commitGroup (config : StorageConfig) (c : Coordinator) (units : List PreparedUnit)
    (liveDocuments : ℕ) (storage : StorageAnswer) : CommitResult × Coordinator :=
  match c.commit config units liveDocuments storage with
  | (.committed, c') =>
    (.committed, c'.published (c.allocatedSequence + 1) (c.allocatedSequence + units.length))
  | r => r

/-! ### The engine -/

/-- The engine with its coordinator and the checkpoints that were taken, the newest first. -/
structure DurableEngine (K : Type) {T : Type} (ops : IndexOps T) where
  engine : EngineState K ops
  coordinator : Coordinator
  checkpoints : List (Loaded K T)

variable {K T : Type} [DecidableEq K] {ops : IndexOps T}

/-- The task as the loop of the writer meets it: a mutation that has no durable form fails in its
preparation. -/
def preparedTask (setup : Setup K ops) (task : MutationTask K T) : MutationTask K T :=
  match prepareDurableMutation setup task.mutation with
  | .ok _ => task
  | .error _ => { task with fault := .preparing .exception }

/-- The durable forms of tasks, in order. -/
def preparedMutations (setup : Setup K ops) (tasks : List (MutationTask K T)) : List Bytes :=
  tasks.filterMap fun task => (prepareDurableMutation setup task.mutation).toOption

/-- `stopAfterFailure`, with `terminalFailure`. -/
def DurableEngine.stopAfterFailure (s : DurableEngine K ops) : DurableEngine K ops :=
  { s with
    engine := s.engine.stopAfterFailure
    coordinator := { s.coordinator with terminal := true } }

/-- The engine behind a task that fails before its commit. -/
def DurableEngine.failed (s : DurableEngine K ops) (e : ControlFailure K) : DurableEngine K ops :=
  if e.isError then s.stopAfterFailure else s

/-- `processBatch`: every successful task is a unit of its own. -/
def DurableEngine.batch (setup : Setup K ops) (s : DurableEngine K ops)
    (tasks : List (MutationTask K T)) (storage : StorageAnswer) : DurableEngine K ops :=
  let tasks := tasks.map (preparedTask setup)
  let r := applyAll ops setup.idOf (.ofPublished ops s.engine.current) tasks
  if erred r.1 = true then s.stopAfterFailure
  else if successful tasks r.1 = [] then s
  else
    let units := (preparedMutations setup (successful tasks r.1)).map (⟨singleType, ·⟩)
    let commit := s.coordinator.commitGroup setup.config units
      r.2.snapshots.activeDocuments.card storage
    { s with
      engine := s.engine.batch ops setup.idOf tasks commit.1
      coordinator := commit.2 }

/-- `processBulk`: the whole bulk is one unit. -/
def DurableEngine.bulk (setup : Setup K ops) (s : DurableEngine K ops)
    (tasks : List (MutationTask K T)) (storage : StorageAnswer) : DurableEngine K ops :=
  let tasks := tasks.map (preparedTask setup)
  match bulkIds setup.idOf [] tasks with
  | .error e => s.failed e
  | .ok _ =>
    match applyBulk ops setup.idOf (.ofPublished ops s.engine.current) tasks with
    | .error e => s.failed e
    | .ok (_, state) =>
      match bulkUnit setup.config (preparedMutations setup tasks) with
      | .error _ => s
      | .ok unit =>
        if tasks = [] then s
        else
          let commit := s.coordinator.commitGroup setup.config [unit]
            state.snapshots.activeDocuments.card storage
          { s with
            engine := (s.engine.processBulk ops setup.idOf tasks commit.1).2
            coordinator := commit.2 }

/-- The durable unit of an index. -/
def durableUnit (setup : Setup K ops) (field : ops.Field) (indexType : ops.Kind) :
    Option PreparedUnit :=
  (descriptorOf setup field indexType).bind createIndexUnit

/-- `processCreateIndex`. -/
def DurableEngine.createIndex (setup : Setup K ops) (s : DurableEngine K ops)
    (definition : IndexDefinition setup) (rejected : Bool) : DurableEngine K ops :=
  if !validateTextIndexDefinition definition then s
  else { s with
    engine := (s.engine.processCreateIndex ops setup.schema.registered definition.field
      definition.indexType (durableUnit setup definition.field definition.indexType).isSome
      rejected).2 }

/-- `processInstallIndex` of the build that the executor delivers.  The commit is reached exactly
when the installation would otherwise succeed. -/
def DurableEngine.installIndex (setup : Setup K ops) (s : DurableEngine K ops) (position : ℕ)
    (buildFails : Bool) (replayThrows : Option Thrown) (storage : StorageAnswer) :
    DurableEngine K ops :=
  let install := fun commit => s.engine.process ops setup.idOf setup.schema.registered
    (.installIndex position buildFails replayThrows commit)
  match (install .committed).1 with
  | .installed pending _ =>
    let commit := s.coordinator.commitGroup setup.config
      (durableUnit setup pending.field pending.indexType).toList
      s.engine.current.snapshot.activeDocuments.card storage
    { s with engine := (install commit.1).2, coordinator := commit.2 }
  | _ =>
    let engine := (install .committed).2
    { s with
      engine
      coordinator := { s.coordinator with terminal := s.coordinator.terminal || !engine.accepting } }

/-- `processDropIndex`. -/
def DurableEngine.dropIndex (setup : Setup K ops) (s : DurableEngine K ops)
    (fieldName : JavaString) (storage : StorageAnswer) : DurableEngine K ops :=
  match setup.schema.field fieldName, dropIndexUnit fieldName with
  | some field, some unit =>
    let commit := s.coordinator.commitGroup setup.config [unit]
      s.engine.current.snapshot.activeDocuments.card storage
    { s with
      engine := (s.engine.processDropIndex ops setup.schema.registered field commit.1).2
      coordinator := commit.2 }
  | _, _ => s

/-! ### Checkpoints -/

/-- One slot of a checkpoint, written by `writeContent` and read back; the outer `none` is an
exception. -/
def checkpointSlot (setup : Setup K ops) (current : PublishedState K T ops.Index) (docId : ℕ) :
    Option (Option (K × T)) :=
  match current.snapshot.get docId with
  | none => some none
  | some document =>
    let key := setup.idOf document
    if current.documentIds key = some docId then
      match canonicalKey setup key, canonicalDocument setup key document with
      | .ok _, .ok encoded => (setup.codec.decodeDocument encoded).map fun decoded =>
          some (key, decoded)
      | _, _ => none
    else none

/-- One index of a checkpoint, captured, written and read back. -/
def checkpointIndex (setup : Setup K ops) (index : ops.Index) : Option DurableIndexDescriptor := do
  let descriptor ← descriptorOf setup (ops.field index) (ops.kind index)
  let fieldName ← Utf8.decode (Utf8.getBytes descriptor.fieldName)
  let analyzerId ← Utf8.decode (Utf8.getBytes descriptor.analyzerId)
  DurableIndexDescriptor.make descriptor.kind fieldName analyzerId

/-- The checkpoint of a published state, as `DurableCheckpoint.read` loads what `write` wrote. -/
def checkpointOf (setup : Setup K ops) (current : PublishedState K T ops.Index) (sequence : ℕ) :
    Option (Loaded K T) := do
  let indexes ← current.snapshot.indexes.mapM (checkpointIndex setup)
  let slots ← (List.range current.nextDocId).mapM (checkpointSlot setup current)
  if indexes.Nodup then
    return {
      slots := slots.map (Option.map Prod.snd)
      documentIds := fun key => slots.findIdx? fun slot => decide (slot.map Prod.fst = some key)
      liveDocuments := slots.countP Option.isSome
      nextDocId := current.nextDocId
      sequence
      indexes }
  else none

/-- The engine that a recovered state starts: the indexes are built anew from the definitions that
the schema has for the descriptors. -/
def recoveredState (setup : Setup K ops) (state : ReplayState K T) :
    Option (PublishedState K T ops.Index) := do
  let definitions ← state.indexes.mapM (toDefinition setup)
  if definitions.Nodup then
    let base : SearchSnapshot T ops.Index := {
      documents := fun docId => state.slots[docId]?.join
      activeDocuments := (Finset.range state.slots.length).filter fun docId =>
        state.slots[docId]?.join.isSome
      indexes := []
      version := if state.liveDocuments = 0 then 0 else 1 }
    return {
      snapshot := { base with
        indexes := definitions.map fun definition =>
          buildIndex ops base (ops.createEmpty definition.1 definition.2) }
      documentIds := state.documentIds
      nextDocId := state.nextDocId }
  else none

/-! ### Runs -/

/-- What happens to the durable engine: a task of the writer's queue with the answers of the world
around it, a checkpoint, and the closing and opening of the store. -/
inductive Task {ops : IndexOps T} (setup : Setup K ops) where
  | batch (tasks : List (MutationTask K T)) (storage : StorageAnswer)
  | bulk (tasks : List (MutationTask K T)) (storage : StorageAnswer)
  | createIndex (definition : IndexDefinition setup) (rejected : Bool)
  | installIndex (position : ℕ) (buildFails : Bool) (replayThrows : Option Thrown)
      (storage : StorageAnswer)
  | dropIndex (fieldName : JavaString) (storage : StorageAnswer)
  | checkpoint
  | reopen

/-- One task.  The writer has stopped once the coordinator is terminal. -/
def DurableEngine.handle (setup : Setup K ops) (startupIndexes : List DurableIndexDescriptor)
    (s : DurableEngine K ops) : Task setup → DurableEngine K ops
  | .batch tasks storage => if s.coordinator.terminal then s else s.batch setup tasks storage
  | .bulk tasks storage => if s.coordinator.terminal then s else s.bulk setup tasks storage
  | .createIndex definition rejected =>
    if s.coordinator.terminal then s else s.createIndex setup definition rejected
  | .installIndex position buildFails replayThrows storage =>
    if s.coordinator.terminal then s
    else s.installIndex setup position buildFails replayThrows storage
  | .dropIndex fieldName storage =>
    if s.coordinator.terminal then s else s.dropIndex setup fieldName storage
  | .checkpoint =>
    if s.coordinator.terminal then s
    else match checkpointOf setup s.engine.current s.coordinator.publishedSequence with
      | some loaded => { s with checkpoints := loaded :: s.checkpoints }
      | none => s
  | .reopen =>
    match replay setup startupIndexes s.checkpoints.head? s.coordinator.frames with
    | .error _ => s
    | .ok state =>
      match recoveredState setup state with
      | none => s
      | some current => { s with
          engine := .start current
          coordinator := { s.coordinator with
            allocatedSequence := state.lastSequence
            publishedSequence := state.lastSequence
            terminal := false } }

/-- The durable engine over a fresh store. -/
def DurableEngine.fresh (setup : Setup K ops) (startupIndexes : List DurableIndexDescriptor) :
    Option (DurableEngine K ops) :=
  (recoveredState setup (ReplayState.start startupIndexes none)).map fun current =>
    ⟨.start current, ⟨0, 0, false, []⟩, []⟩

/-- The states that tasks lead to from a fresh store. -/
def DurableEngine.run (setup : Setup K ops) (startupIndexes : List DurableIndexDescriptor)
    (s : DurableEngine K ops) (tasks : List (Task setup)) : DurableEngine K ops :=
  tasks.foldl (fun s task => s.handle setup startupIndexes task) s

end GeneralSearch.Durable
