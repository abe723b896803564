import GeneralSearch.Engine.Batch

/-! Online index builds of `SnapshotSearchEngine`.  The writer handles one task after the other:
single mutations in batches, bulk mutations, index creations, index drops, and the installation of
an index that a background executor built over the snapshot of its creation.  While a build is
pending, every published change is kept in a journal, and the installation replays it.  A throwable
that leaves a task stops the writer for good. -/

namespace GeneralSearch.Engine

open GeneralSearch.Storage

/-- `PendingIndexBuild`. -/
structure PendingIndexBuild {T : Type} (ops : IndexOps T) where
  id : ℕ
  baseVersion : ℕ
  field : ops.Field
  indexType : ops.Kind

/-- `VersionedChange`. -/
structure VersionedChange (T : Type) where
  version : ℕ
  change : IndexChange T

/-- The closure that `processCreateIndex` hands to the executor. -/
structure BuildTask {T : Type} (ops : IndexOps T) where
  buildId : ℕ
  baseSnapshot : SearchSnapshot T ops.Index
  emptyIndex : ops.Index

/-- The fields of the engine that the writer owns, and the tasks of the executor that are not
delivered yet. -/
structure EngineState (K : Type) {T : Type} (ops : IndexOps T) where
  accepting : Bool
  current : PublishedState K T ops.Index
  pendingIndexBuilds : List (PendingIndexBuild ops)
  mutationJournal : List (VersionedChange T)
  nextIndexBuildId : ℕ
  executing : List (BuildTask ops)

/-- Why a control task or a bulk mutation completes exceptionally. -/
inductive ControlFailure (K : Type) where
  | duplicateId (id : K)
  | mutation (failure : MutationFailure K)
  | unregisteredIndexField
  | alreadyExists
  | buildInProgress
  | buildIdsExhausted
  | rejectedExecution
  | durability
  | callback (thrown : Thrown)
  | closed
  deriving DecidableEq, Repr

/-- The failure is an `Error` of a callback. -/
def ControlFailure.isError {K : Type} : ControlFailure K → Bool
  | .callback .error => true
  | .mutation (.callback .error) => true
  | _ => false

/-- `Long.MAX_VALUE + 1`: the first build id that is negative as a Java `long`. -/
def buildIdLimit : ℕ := 2 ^ 63

section

variable {K T : Type} [DecidableEq K]

/-! ### The writer's tasks -/

/-- The engine after its construction or its recovery. -/
def EngineState.start {ops : IndexOps T} (current : PublishedState K T ops.Index) :
    EngineState K ops :=
  ⟨true, current, [], [], 0, []⟩

/-- `stopAfterFailure` with `failPending`: nothing is accepted any more, and nothing that is under way
comes to its end. -/
def EngineState.stopAfterFailure {ops : IndexOps T} (s : EngineState K ops) : EngineState K ops :=
  { s with accepting := false, pendingIndexBuilds := [], mutationJournal := [], executing := [] }

/-- The engine behind a task that fails: an exception completes its future, an `Error` stops the
writer as well. -/
def EngineState.failed {ops : IndexOps T} (s : EngineState K ops) (e : ControlFailure K) :
    EngineState K ops :=
  if e.isError then s.stopAfterFailure else s

/-- `mutationId`. -/
def mutationId (idOf : T → K) : SearchMutation K T → K
  | .add document => idOf document
  | .update document => idOf document
  | .remove id => id

/-- The first loop of `processBulk`: every id is extracted and prepared, and no id comes twice. -/
def bulkIds (idOf : T → K) : List K → List (MutationTask K T) → Except (ControlFailure K) Unit
  | _, [] => .ok ()
  | distinctIds, task :: rest =>
    match task.fault with
    | .preparing thrown => .error (.callback thrown)
    | _ =>
      if mutationId idOf task.mutation ∈ distinctIds then
        .error (.duplicateId (mutationId idOf task.mutation))
      else bulkIds idOf (mutationId idOf task.mutation :: distinctIds) rest

/-- The second loop of `processBulk`: the first throwable ends it. -/
def applyBulk (ops : IndexOps T) (idOf : T → K) :
    BatchState K T ops.Builder → List (MutationTask K T) →
      Except (ControlFailure K) (List (IndexChange T) × BatchState K T ops.Builder)
  | s, [] => .ok ([], s)
  | s, task :: rest =>
    match applyTask ops idOf s task with
    | (.error e, _) => .error (.mutation e)
    | (.ok change, s') => (applyBulk ops idOf s' rest).map fun r => (change.toList ++ r.1, r.2)

/-- `mutationJournal.add` for the changes of a publication: only while a build is pending. -/
def journaled {ops : IndexOps T} (s : EngineState K ops) (published : PublishedState K T ops.Index)
    (changes : List (IndexChange T)) : List (VersionedChange T) :=
  if s.pendingIndexBuilds.isEmpty then s.mutationJournal
  else s.mutationJournal ++ changes.map (⟨published.snapshot.version, ·⟩)

/-- `processBatch` with its effect on the journal, and what the loop of the writer makes of a
throwable. -/
def EngineState.batch (ops : IndexOps T) (idOf : T → K) (s : EngineState K ops)
    (tasks : List (MutationTask K T)) (commit : CommitResult) : EngineState K ops :=
  let r := processBatch ops idOf s.current tasks commit
  if r.stopped = true then s.stopAfterFailure
  else { s with current := r.published, mutationJournal := journaled s r.published r.changes }

/-- `processBulk`.  Here an exception of `state.build()` is caught, as one of the commit is. -/
def EngineState.processBulk (ops : IndexOps T) (idOf : T → K) (s : EngineState K ops)
    (tasks : List (MutationTask K T)) (commit : CommitResult) :
    Except (ControlFailure K) Unit × EngineState K ops :=
  match bulkIds idOf [] tasks with
  | .error e => (.error e, s.failed e)
  | .ok _ =>
    match applyBulk ops idOf (.ofPublished ops s.current) tasks with
    | .error e => (.error e, s.failed e)
    | .ok (changes, state) =>
      let published := state.build ops
      match commit with
      | .committed => (.ok (), { s with
          current := published
          mutationJournal := journaled s published changes })
      | .capacityExceeded => (.error .durability, s)
      | .terminal => (.error .durability, s.stopAfterFailure)

/-- `IndexRegistry.contains`. -/
def registryContains (ops : IndexOps T) (indexes : List ops.Index) (field : ops.Field)
    (indexType : ops.Kind) : Bool :=
  indexes.any fun index => decide (ops.field index = field) && decide (ops.kind index = indexType)

/-- `pruneMutationJournal`. -/
def EngineState.pruneMutationJournal {ops : IndexOps T} (s : EngineState K ops) :
    EngineState K ops :=
  match (s.pendingIndexBuilds.map (·.baseVersion)).min? with
  | none => { s with mutationJournal := [] }
  | some oldestRequiredVersion =>
    { s with
      mutationJournal := s.mutationJournal.filter fun change =>
        !decide (change.version ≤ oldestRequiredVersion) }

/-- `processCreateIndex`.  `registered` is the engine's schema, `prepared` says whether the durable
form of the definition is accepted, `rejected` whether the executor refuses the build. -/
def EngineState.processCreateIndex (ops : IndexOps T) (registered : ops.Field → Bool)
    (s : EngineState K ops) (field : ops.Field) (indexType : ops.Kind) (prepared rejected : Bool) :
    Except (ControlFailure K) Unit × EngineState K ops :=
  if !registered field then (.error .unregisteredIndexField, s)
  else
    let emptyIndex := ops.createEmpty field indexType
    if registryContains ops s.current.snapshot.indexes field (ops.kind emptyIndex) then
      (.error .alreadyExists, s)
    else if s.pendingIndexBuilds.any fun pending =>
        decide (pending.field = field) && decide (pending.indexType = ops.kind emptyIndex) then
      (.error .buildInProgress, s)
    else if !prepared then (.error .durability, s)
    else if buildIdLimit ≤ s.nextIndexBuildId then (.error .buildIdsExhausted, s)
    else
      let buildId := s.nextIndexBuildId
      let baseSnapshot := s.current.snapshot
      let s := { s with nextIndexBuildId := buildId + 1 }
      if rejected then (.error .rejectedExecution, s.pruneMutationJournal)
      else
        (.ok (), { s with
          pendingIndexBuilds := s.pendingIndexBuilds ++
            [⟨buildId, baseSnapshot.version, field, ops.kind emptyIndex⟩]
          executing := s.executing ++ [⟨buildId, baseSnapshot, emptyIndex⟩] })

/-- `buildIndex`: the active documents are added in ascending order. -/
def buildIndex (ops : IndexOps T) (baseSnapshot : SearchSnapshot T ops.Index)
    (emptyIndex : ops.Index) : ops.Index :=
  ops.build <| (setBits baseSnapshot.activeDocuments).foldl (fun builder docId =>
    match baseSnapshot.get docId with
    | some document => ops.add builder docId document
    | none => builder) (ops.toBuilder emptyIndex)

/-- `apply(IndexBuilder, IndexChange)`. -/
def applyChange (ops : IndexOps T) (builder : ops.Builder) (change : IndexChange T) :
    ops.Builder :=
  match change.oldDocument, change.newDocument with
  | none, some newDocument => ops.add builder change.docId newDocument
  | some oldDocument, none => ops.remove builder change.docId oldDocument
  | some oldDocument, some newDocument =>
    ops.update builder change.docId oldDocument newDocument
  | none, none => builder

/-- What `processInstallIndex` did with a delivered build. -/
inductive InstallOutcome {T : Type} (ops : IndexOps T) where
  | ignored
  | failed
  | installed (pending : PendingIndexBuild ops) (index : ops.Index)

/-- The end of a build: it leaves the pending builds, and the journal is pruned. -/
def EngineState.finish {ops : IndexOps T} (s : EngineState K ops) (buildId : ℕ) :
    EngineState K ops :=
  { s with
    pendingIndexBuilds := s.pendingIndexBuilds.filter fun p => p.id ≠ buildId
    : EngineState K ops }.pruneMutationJournal

/-- The changes behind a version. -/
def behind (baseVersion : ℕ) (changes : List (VersionedChange T)) : List (VersionedChange T) :=
  changes.filter fun versioned => decide (baseVersion < versioned.version)

/-- The index that an installation makes of the delivered one: the journal's changes behind the
base of the build are replayed. -/
def caughtUp (ops : IndexOps T) (s : EngineState K ops) (pending : PendingIndexBuild ops)
    (index : ops.Index) : ops.Index :=
  ops.build <| ((behind pending.baseVersion s.mutationJournal).map (·.change)).foldl
    (applyChange ops) (ops.toBuilder index)

/-- `processInstallIndex`; `replayThrows` says what a callback throws during the replay. -/
def EngineState.processInstallIndex (ops : IndexOps T) (s : EngineState K ops) (buildId : ℕ)
    (built : Option ops.Index) (replayThrows : Option Thrown) (commit : CommitResult) :
    InstallOutcome ops × EngineState K ops :=
  match s.pendingIndexBuilds.find? fun p => p.id = buildId with
  | none => (.ignored, s)
  | some pending =>
    match built with
    | none => (.failed, s.finish buildId)
    | some index =>
      let index := caughtUp ops s pending index
      match replayThrows with
      | some .error => (.failed, s.stopAfterFailure)
      | some .exception => (.failed, s.finish buildId)
      | none =>
        if registryContains ops s.current.snapshot.indexes (ops.field index) (ops.kind index) then
          (.failed, s.finish buildId)
        else match commit with
          | .committed => (.installed pending index, { s with
              current := { s.current with
                snapshot := s.current.snapshot.withIndexes (s.current.snapshot.indexes ++ [index]) }
              : EngineState K ops }.finish buildId)
          | .capacityExceeded => (.failed, s.finish buildId)
          | .terminal => (.failed, s.stopAfterFailure)

/-- `IndexRegistry.withoutIndexes`. -/
def withoutIndexes (ops : IndexOps T) (indexes : List ops.Index) (field : ops.Field) :
    List ops.Index :=
  indexes.filter fun index => ops.field index ≠ field

/-- `processDropIndex`. -/
def EngineState.processDropIndex (ops : IndexOps T) (registered : ops.Field → Bool)
    (s : EngineState K ops) (field : ops.Field) (commit : CommitResult) :
    Except (ControlFailure K) Unit × EngineState K ops :=
  if !registered field then (.error .unregisteredIndexField, s)
  else match commit with
  | .committed =>
    let indexes := withoutIndexes ops s.current.snapshot.indexes field
    let snapshot :=
      if indexes.length = s.current.snapshot.indexes.length then s.current.snapshot
      else s.current.snapshot.withIndexes indexes
    (.ok (), { s with
      current := { s.current with snapshot }
      pendingIndexBuilds := s.pendingIndexBuilds.filter fun p => p.field ≠ field
      : EngineState K ops }.pruneMutationJournal)
  | .capacityExceeded => (.error .durability, s)
  | .terminal => (.error .durability, s.stopAfterFailure)

/-! ### Runs -/

/-- One task of the writer's queue, with the answers of the world around it. -/
inductive Event (K : Type) {T : Type} (ops : IndexOps T) where
  | batch (tasks : List (MutationTask K T)) (commit : CommitResult)
  | bulk (tasks : List (MutationTask K T)) (commit : CommitResult)
  | createIndex (field : ops.Field) (indexType : ops.Kind) (prepared rejected : Bool)
  /-- The executor delivers the build at one position of its tasks. -/
  | installIndex (position : ℕ) (buildFails : Bool) (replayThrows : Option Thrown)
      (commit : CommitResult)
  | dropIndex (field : ops.Field) (commit : CommitResult)
  /-- The writer is left by a throwable outside of these: an `Error` of `createEmpty`, an
  interruption. -/
  | stop

/-- The writer processes one task; the first component tells what an installation did. -/
def EngineState.process (ops : IndexOps T) (idOf : T → K) (registered : ops.Field → Bool)
    (s : EngineState K ops) : Event K ops → InstallOutcome ops × EngineState K ops
  | .batch tasks commit => (.ignored, s.batch ops idOf tasks commit)
  | .bulk tasks commit => (.ignored, (s.processBulk ops idOf tasks commit).2)
  | .createIndex field indexType prepared rejected =>
    (.ignored, (s.processCreateIndex ops registered field indexType prepared rejected).2)
  | .dropIndex field commit => (.ignored, (s.processDropIndex ops registered field commit).2)
  | .installIndex position buildFails replayThrows commit =>
    match s.executing[position]? with
    | none => (.ignored, s)
    | some task =>
      { s with executing := s.executing.eraseIdx position
        : EngineState K ops }.processInstallIndex ops task.buildId
          (if buildFails then none else some (buildIndex ops task.baseSnapshot task.emptyIndex))
          replayThrows commit
  | .stop => (.ignored, s.stopAfterFailure)

/-- One task of the queue: a writer that has stopped takes none. -/
def EngineState.handle (ops : IndexOps T) (idOf : T → K) (registered : ops.Field → Bool)
    (s : EngineState K ops) (e : Event K ops) : InstallOutcome ops × EngineState K ops :=
  if s.accepting = true then s.process ops idOf registered e else (.ignored, s)

/-- The state after a list of tasks. -/
def EngineState.run (ops : IndexOps T) (idOf : T → K) (registered : ops.Field → Bool)
    (s : EngineState K ops) (events : List (Event K ops)) : EngineState K ops :=
  events.foldl (fun s e => (s.handle ops idOf registered e).2) s

/-- The changes that a task publishes, with their version. -/
def EngineState.publishes (ops : IndexOps T) (idOf : T → K) (s : EngineState K ops)
    (e : Event K ops) : List (VersionedChange T) :=
  if s.accepting = false then [] else
  match e with
  | .batch tasks commit =>
    let r := processBatch ops idOf s.current tasks commit
    r.changes.map (⟨r.published.snapshot.version, ·⟩)
  | .bulk tasks commit =>
    match bulkIds idOf [] tasks, applyBulk ops idOf (.ofPublished ops s.current) tasks with
    | .ok _, .ok (changes, state) =>
      if commit = .committed then changes.map (⟨(state.build ops).snapshot.version, ·⟩) else []
    | _, _ => []
  | _ => []

/-- All changes that a run publishes, in order. -/
def EngineState.history (ops : IndexOps T) (idOf : T → K) (registered : ops.Field → Bool) :
    EngineState K ops → List (Event K ops) → List (VersionedChange T)
  | _, [] => []
  | s, e :: rest => s.publishes ops idOf e ++
      history ops idOf registered (s.handle ops idOf registered e).2 rest

/-- The mutation removes a document. -/
def SearchMutation.isRemove : SearchMutation K T → Bool
  | .remove _ => true
  | _ => false

/-- No addition or replacement of a published batch throws inside an index builder while an index
build is pending. -/
def EngineState.Steady (ops : IndexOps T) (idOf : T → K) (s : EngineState K ops) :
    Event K ops → Prop
  | .batch tasks commit => s.pendingIndexBuilds = [] ∨ commit ≠ .committed ∨
      erred (applyAll ops idOf (.ofPublished ops s.current) tasks).1 = true ∨
      someThrow ops idOf (fun m => !m.isRemove) (.ofPublished ops s.current) tasks = false
  | _ => True

/-- Every task of the run is handled in a state in which it is steady. -/
def EngineState.SteadyRun (ops : IndexOps T) (idOf : T → K) (registered : ops.Field → Bool) :
    EngineState K ops → List (Event K ops) → Prop
  | _, [] => True
  | s, e :: rest => s.Steady ops idOf e ∧
      SteadyRun ops idOf registered (s.handle ops idOf registered e).2 rest

/-! ### Changes and the documents they lead to -/

/-- The documents after a change. -/
def IndexChange.apply (docs : ℕ → Option T) (c : IndexChange T) : ℕ → Option T :=
  Function.update docs c.docId c.newDocument

/-- The change starts from the document that is stored, and it is a change. -/
def IndexChange.Fits (docs : ℕ → Option T) (c : IndexChange T) : Prop :=
  docs c.docId = c.oldDocument ∧ (c.oldDocument.isSome ∨ c.newDocument.isSome)

/-- The changes lead from the one table of documents to the other, each from the document that it
names as the old one. -/
inductive Replays : (ℕ → Option T) → List (IndexChange T) → (ℕ → Option T) → Prop
  | nil (docs : ℕ → Option T) : Replays docs [] docs
  | cons {docs docs' : ℕ → Option T} {c : IndexChange T} {rest : List (IndexChange T)} :
      c.Fits docs → Replays (c.apply docs) rest docs' → Replays docs (c :: rest) docs'

omit [DecidableEq K] in
theorem Replays.append {docs docs' docs'' : ℕ → Option T} {cs cs' : List (IndexChange T)}
    (h : Replays docs cs docs') (h' : Replays docs' cs' docs'') :
    Replays docs (cs ++ cs') docs'' := by
  induction h with
  | nil => exact h'
  | cons hfits _ ih => exact .cons hfits (ih h')

/-- Replaying changes on a builder that holds the documents before them gives one that holds the
documents behind them. -/
theorem Replays.holds {ops : IndexOps T} (law : LawfulIndex ops) {f : ops.Field} {k : ops.Kind}
    {docs docs' : ℕ → Option T} {cs : List (IndexChange T)} (h : Replays docs cs docs') :
    ∀ {b : ops.Builder}, law.Holds f k b docs →
      law.Holds f k (cs.foldl (applyChange ops) b) docs' := by
  induction h with
  | nil => exact id
  | @cons docs docs' c rest hfits _ ih =>
    intro b hb
    obtain ⟨hold, hchange⟩ := hfits
    apply ih
    unfold applyChange IndexChange.apply
    cases ho : c.oldDocument with
    | none =>
      cases hn : c.newDocument with
      | none => simp [ho, hn] at hchange
      | some t => exact law.holds_add hb (hold.trans ho)
    | some old =>
      cases hn : c.newDocument with
      | none => exact law.holds_remove hb (hold.trans ho)
      | some t => exact law.holds_update hb (hold.trans ho)

/-- The documents that the builder of a batch holds. -/
def BatchState.docs {Builder : Type} (s : BatchState K T Builder) : ℕ → Option T :=
  s.snapshots.get

variable {ops : IndexOps T} {idOf : T → K}

/-- One task changes the documents by the change that it reports, unless an addition or a
replacement throws inside an index builder. -/
theorem applyTask_replays (idOf : T → K) {s : BatchState K T ops.Builder} {task : MutationTask K T}
    (hwf : s.WellFormed)
    (ht : ∀ e, (applyTask ops idOf s task).1 = .error e →
      (!task.mutation.isRemove && throwsInIndex ops idOf s task) = false) :
    Replays s.docs ((applyTask ops idOf s task).1.toOption.join).toList
      (applyTask ops idOf s task).2.docs := by
  have hstep := applyTask_cases idOf task hwf
  generalize (applyTask ops idOf s task).1 = r at hstep ht
  generalize (applyTask ops idOf s task).2 = s' at hstep
  cases hstep with
  | refused => exact .nil _
  | absent => exact .nil _
  | added document _ hnone =>
    have hold : s.docs s.nextDocId = none := by
      simp [BatchState.docs, SearchSnapshotBuilder.get, hwf.next_notMem]
    refine .cons ⟨hold, .inr rfl⟩ ?_
    convert Replays.nil _ using 1
    funext d
    by_cases hd : d = s.nextDocId <;>
      simp [IndexChange.apply, BatchState.docs, SearchSnapshotBuilder.get, BatchState.added, hd]
  | updated document oldDocument docId _ hid hdoc hactive =>
    have hold : s.docs docId = some oldDocument := by
      simp [BatchState.docs, SearchSnapshotBuilder.get, hactive, hdoc]
    refine .cons ⟨hold, .inr rfl⟩ ?_
    convert Replays.nil _ using 1
    funext d
    by_cases hd : d = docId
    · subst hd
      simp [IndexChange.apply, BatchState.docs, SearchSnapshotBuilder.get, BatchState.updated,
        hactive]
    · simp [IndexChange.apply, BatchState.docs, SearchSnapshotBuilder.get, BatchState.updated, hd]
  | removed id document docId _ hid hdoc hactive =>
    have hold : s.docs docId = some document := by
      simp [BatchState.docs, SearchSnapshotBuilder.get, hactive, hdoc]
    refine .cons ⟨hold, .inl rfl⟩ ?_
    convert Replays.nil _ using 1
    funext d
    by_cases hd : d = docId <;>
      simp [IndexChange.apply, BatchState.docs, SearchSnapshotBuilder.get, hd]
  | addThrew document hm _ h => simpa [hm, SearchMutation.isRemove, h] using ht _ rfl
  | updateThrew document _ _ hm _ _ _ h =>
    simpa [hm, SearchMutation.isRemove, h] using ht _ rfl
  | removeThrew => exact .nil _

theorem applyAll_replays {s : BatchState K T ops.Builder} (hwf : s.WellFormed)
    {batch : List (MutationTask K T)}
    (ht : someThrow ops idOf (fun m => !m.isRemove) s batch = false) :
    Replays s.docs ((applyAll ops idOf s batch).1.filterMap fun x => x.toOption.join)
      (applyAll ops idOf s batch).2.docs := by
  induction batch generalizing s with
  | nil => exact .nil _
  | cons task rest ih =>
    rw [someThrow, Bool.or_eq_false_iff] at ht
    have hrest := ih (applyTask_wellFormed hwf) ht.2
    have hstep := (applyTask_replays idOf hwf fun _ _ => ht.1).append hrest
    simp only [applyAll, List.filterMap_cons]
    cases hc : (applyTask ops idOf s task).1.toOption.join <;> simpa [hc] using hstep

theorem applyAll_wellFormed {s : BatchState K T ops.Builder} (hwf : s.WellFormed)
    (batch : List (MutationTask K T)) : (applyAll ops idOf s batch).2.WellFormed := by
  induction batch generalizing s with
  | nil => exact hwf
  | cons task rest ih => exact ih (applyTask_wellFormed hwf)

theorem applyTask_nextVersion {s : BatchState K T ops.Builder} {task : MutationTask K T}
    (hwf : s.WellFormed) :
    (applyTask ops idOf s task).2.snapshots.nextVersion = s.snapshots.nextVersion := by
  have hstep := applyTask_cases idOf task hwf
  generalize (applyTask ops idOf s task).1 = r at hstep
  generalize (applyTask ops idOf s task).2 = s' at hstep
  cases hstep <;> rfl

theorem applyAll_nextVersion {s : BatchState K T ops.Builder} (hwf : s.WellFormed)
    (batch : List (MutationTask K T)) :
    (applyAll ops idOf s batch).2.snapshots.nextVersion = s.snapshots.nextVersion := by
  induction batch generalizing s with
  | nil => rfl
  | cons task rest ih => exact (ih (applyTask_wellFormed hwf)).trans (applyTask_nextVersion hwf)

/-- A bulk mutation that is applied to its end changes the documents by its changes. -/
theorem applyBulk_replays {s s' : BatchState K T ops.Builder} (hwf : s.WellFormed)
    {tasks : List (MutationTask K T)} {changes : List (IndexChange T)}
    (h : applyBulk ops idOf s tasks = .ok (changes, s')) :
    Replays s.docs changes s'.docs ∧ s'.WellFormed ∧
      s'.snapshots.nextVersion = s.snapshots.nextVersion := by
  induction tasks generalizing s changes with
  | nil => cases h; exact ⟨.nil _, hwf, rfl⟩
  | cons task rest ih =>
    unfold applyBulk at h
    cases htask : applyTask ops idOf s task with
    | mk result s1 =>
      rw [htask] at h
      cases result with
      | error e => cases h
      | ok change =>
        cases hrest : applyBulk ops idOf s1 rest with
        | error e => simp [hrest, Except.map] at h
        | ok r =>
          obtain ⟨later, last⟩ := r
          simp only [hrest, Except.map, Except.ok.injEq, Prod.mk.injEq] at h
          obtain ⟨rfl, rfl⟩ := h
          have hs1 : s1 = (applyTask ops idOf s task).2 := by rw [htask]
          have hwf1 : s1.WellFormed := hs1 ▸ applyTask_wellFormed hwf
          obtain ⟨hlater, hlast, hversion⟩ := ih hwf1 hrest
          have hstep := applyTask_replays idOf hwf (show ∀ e, (applyTask ops idOf s task).1 = .error e → _ by
            simp [htask])
          rw [htask] at hstep
          exact ⟨hstep.append hlater, hlast,
            hversion.trans (by rw [hs1]; exact applyTask_nextVersion hwf)⟩

end

section

variable {K T : Type} {ops : IndexOps T}

/-! ### The builder of a fresh index -/

theorem foldl_add_holds (law : LawfulIndex ops) {f : ops.Field} {k : ops.Kind}
    (get : ℕ → Option T) {docs : ℕ → Option T} {l : List ℕ} (hnodup : l.Nodup)
    (hnone : ∀ d ∈ l, docs d = none) {b : ops.Builder} (hb : law.Holds f k b docs) :
    law.Holds f k (l.foldl (fun builder docId =>
      match get docId with
      | some document => ops.add builder docId document
      | none => builder) b) fun d => if d ∈ l then get d else docs d := by
  induction l generalizing docs b with
  | nil => simpa using hb
  | cons d rest ih =>
    obtain ⟨hd, hrest⟩ := List.nodup_cons.mp hnodup
    have hstep : law.Holds f k (match get d with
        | some document => ops.add b d document
        | none => b) (Function.update docs d (get d)) := by
      cases hget : get d with
      | none =>
        have hsame : Function.update docs d none = docs := by
          rw [← hnone d List.mem_cons_self, Function.update_eq_self]
        simpa only [hsame] using hb
      | some t => exact law.holds_add hb (hnone d List.mem_cons_self)
    have hlater : ∀ e ∈ rest, Function.update docs d (get d) e = none := by
      intro e he
      rw [Function.update_of_ne (by rintro rfl; exact hd he)]
      exact hnone e (List.mem_cons_of_mem _ he)
    rw [List.foldl_cons]
    convert ih hrest hlater hstep using 1
    funext e
    by_cases he : e ∈ rest
    · simp [he]
    · by_cases hed : e = d
      · subst hed
        simp [he]
      · simp [he, hed]

/-- The index that `buildIndex` builds holds the active documents of its snapshot. -/
theorem buildIndex_holds (law : LawfulIndex ops) (snapshot : SearchSnapshot T ops.Index)
    (f : ops.Field) (k : ops.Kind) :
    ∃ b, buildIndex ops snapshot (ops.createEmpty f k) = ops.build b ∧
      law.Holds f k b snapshot.get := by
  refine ⟨_, rfl, ?_⟩
  have hfold := foldl_add_holds law snapshot.get (setBits_nodup snapshot.activeDocuments)
    (fun _ _ => rfl) (law.holds_empty f k)
  convert hfold using 1
  funext d
  by_cases hd : d ∈ snapshot.activeDocuments <;> simp [SearchSnapshot.get, hd]

/-! ### The invariant of the journal -/

/-- What holds of the engine at any moment, `history` being all changes published so far: the
journal agrees with it behind the base of every pending build, and leads from the snapshot that a
build starts from to the current one. -/
structure Tracks (s : EngineState K ops) (history : List (VersionedChange T)) : Prop where
  wellFormed : s.current.WellFormed
  journalVersions : ∀ c ∈ s.mutationJournal, c.version ≤ s.current.snapshot.version
  historyVersions : ∀ c ∈ history, c.version ≤ s.current.snapshot.version
  baseVersions : ∀ p ∈ s.pendingIndexBuilds, p.baseVersion ≤ s.current.snapshot.version
  ids : ∀ p ∈ s.pendingIndexBuilds, p.id < s.nextIndexBuildId
  taskIds : ∀ t ∈ s.executing, t.buildId < s.nextIndexBuildId
  journal : ∀ p ∈ s.pendingIndexBuilds,
    behind p.baseVersion s.mutationJournal = behind p.baseVersion history
  replays : ∀ p ∈ s.pendingIndexBuilds, ∀ t ∈ s.executing, t.buildId = p.id →
    t.emptyIndex = ops.createEmpty p.field p.indexType ∧
      Replays t.baseSnapshot.get ((behind p.baseVersion s.mutationJournal).map (·.change))
        s.current.snapshot.get
  stopped : s.accepting = false → s.pendingIndexBuilds = []

variable {s : EngineState K ops} {history : List (VersionedChange T)}

theorem behind_append (v : ℕ) (a b : List (VersionedChange T)) :
    behind v (a ++ b) = behind v a ++ behind v b := List.filter_append ..

theorem behind_map {v w : ℕ} (h : v < w) (changes : List (IndexChange T)) :
    behind v (changes.map (⟨w, ·⟩)) = changes.map (⟨w, ·⟩) := by
  simp [behind, h]

/-- A publication with its changes. -/
theorem Tracks.publish (h : Tracks s history) {published : PublishedState K T ops.Index}
    (hwf : published.WellFormed) {changes : List (IndexChange T)}
    (hversion : published.snapshot.version = s.current.snapshot.version + 1)
    (hreplays : s.pendingIndexBuilds ≠ [] →
      Replays s.current.snapshot.get changes published.snapshot.get) :
    Tracks { s with current := published, mutationJournal := journaled s published changes }
      (history ++ changes.map (⟨published.snapshot.version, ·⟩)) := by
  have hle : s.current.snapshot.version ≤ published.snapshot.version := by omega
  have hjournal : s.pendingIndexBuilds ≠ [] → journaled s published changes =
      s.mutationJournal ++ changes.map (⟨published.snapshot.version, ·⟩) := by
    intro hp
    simp [journaled, hp]
  have hbase : ∀ p ∈ s.pendingIndexBuilds, p.baseVersion < published.snapshot.version :=
    fun p hp => Nat.lt_of_le_of_lt (h.baseVersions p hp) (by omega)
  constructor
  case wellFormed => exact hwf
  case journalVersions =>
    intro c hc
    unfold journaled at hc
    split at hc
    · exact (h.journalVersions c hc).trans hle
    · rcases List.mem_append.mp hc with hc | hc
      · exact (h.journalVersions c hc).trans hle
      · obtain ⟨_, _, rfl⟩ := List.mem_map.mp hc
        exact Nat.le_refl _
  case historyVersions =>
    intro c hc
    rcases List.mem_append.mp hc with hc | hc
    · exact (h.historyVersions c hc).trans hle
    · obtain ⟨_, _, rfl⟩ := List.mem_map.mp hc
      exact Nat.le_refl _
  case baseVersions => exact fun p hp => (h.baseVersions p hp).trans hle
  case ids => exact h.ids
  case taskIds => exact h.taskIds
  case journal =>
    intro p hp
    simp only
    rw [hjournal (List.ne_nil_of_mem hp), behind_append, behind_append, h.journal p hp]
  case replays =>
    intro p hp t ht hid
    have hne := List.ne_nil_of_mem hp
    obtain ⟨hempty, hfrom⟩ := h.replays p hp t ht hid
    refine ⟨hempty, ?_⟩
    simp only
    rw [hjournal hne, behind_append, behind_map (hbase p hp), List.map_append, List.map_map]
    simpa [Function.comp_def] using hfrom.append (hreplays hne)
  case stopped => exact h.stopped

/-- Pruning keeps what a pending build still has to replay. -/
theorem behind_prune {p : PendingIndexBuild ops} (hp : p ∈ s.pendingIndexBuilds) :
    behind p.baseVersion s.pruneMutationJournal.mutationJournal =
      behind p.baseVersion s.mutationJournal := by
  unfold EngineState.pruneMutationJournal
  split
  · next hmin =>
    rw [List.min?_eq_none_iff, List.map_eq_nil_iff] at hmin
    rw [hmin] at hp
    cases hp
  · next oldest hmin =>
    have hle : oldest ≤ p.baseVersion :=
      (List.min?_eq_some_iff.mp hmin).2 _ (List.mem_map_of_mem hp)
    simp only [behind, List.filter_filter]
    refine List.filter_congr fun c _ => ?_
    by_cases hc : p.baseVersion < c.version
    · simp [hc, show ¬ c.version ≤ oldest by omega]
    · simp [hc]

theorem prune_journal_subset {c : VersionedChange T}
    (hc : c ∈ s.pruneMutationJournal.mutationJournal) : c ∈ s.mutationJournal := by
  unfold EngineState.pruneMutationJournal at hc
  split at hc
  · cases hc
  · exact List.mem_of_mem_filter hc

@[simp] theorem prune_current : s.pruneMutationJournal.current = s.current := by
  unfold EngineState.pruneMutationJournal
  split <;> rfl

@[simp] theorem prune_pending :
    s.pruneMutationJournal.pendingIndexBuilds = s.pendingIndexBuilds := by
  unfold EngineState.pruneMutationJournal
  split <;> rfl

@[simp] theorem prune_executing : s.pruneMutationJournal.executing = s.executing := by
  unfold EngineState.pruneMutationJournal
  split <;> rfl

@[simp] theorem prune_accepting : s.pruneMutationJournal.accepting = s.accepting := by
  unfold EngineState.pruneMutationJournal
  split <;> rfl

@[simp] theorem prune_nextIndexBuildId :
    s.pruneMutationJournal.nextIndexBuildId = s.nextIndexBuildId := by
  unfold EngineState.pruneMutationJournal
  split <;> rfl

/-- A request for an index does not touch the published state. -/
theorem processCreateIndex_current (registered : ops.Field → Bool) (field : ops.Field)
    (indexType : ops.Kind) (prepared rejected : Bool) :
    (s.processCreateIndex ops registered field indexType prepared rejected).2.current =
      s.current := by
  unfold EngineState.processCreateIndex
  dsimp only
  split
  · rfl
  split
  · rfl
  split
  · rfl
  split
  · rfl
  split
  · rfl
  split
  · exact prune_current
  · rfl

theorem Tracks.prune (h : Tracks s history) : Tracks s.pruneMutationJournal history where
  wellFormed := by simpa using h.wellFormed
  journalVersions c hc := by simpa using h.journalVersions c (prune_journal_subset hc)
  historyVersions := by simpa using h.historyVersions
  baseVersions := by simpa using h.baseVersions
  ids := by simpa using h.ids
  taskIds := by simpa using h.taskIds
  journal p hp := by
    rw [prune_pending] at hp
    rw [behind_prune hp, h.journal p hp]
  replays p hp t ht hid := by
    rw [prune_pending] at hp
    rw [prune_executing] at ht
    rw [behind_prune hp, prune_current]
    exact h.replays p hp t ht hid
  stopped := by simpa using h.stopped

/-- Fewer pending builds, fewer tasks, and another registry with the same documents. -/
theorem Tracks.shrink (h : Tracks s history) {current : PublishedState K T ops.Index}
    {pending : List (PendingIndexBuild ops)} {executing : List (BuildTask ops)}
    (hwf : current.WellFormed) (hget : current.snapshot.get = s.current.snapshot.get)
    (hversion : s.current.snapshot.version ≤ current.snapshot.version)
    (hpending : ∀ p ∈ pending, p ∈ s.pendingIndexBuilds)
    (hexecuting : ∀ t ∈ executing, t ∈ s.executing) :
    Tracks { s with current := current, pendingIndexBuilds := pending, executing := executing }
      history where
  wellFormed := hwf
  journalVersions c hc := (h.journalVersions c hc).trans hversion
  historyVersions c hc := (h.historyVersions c hc).trans hversion
  baseVersions p hp := (h.baseVersions p (hpending p hp)).trans hversion
  ids p hp := h.ids p (hpending p hp)
  taskIds t ht := h.taskIds t (hexecuting t ht)
  journal p hp := h.journal p (hpending p hp)
  replays p hp t ht hid := by
    rw [hget]
    exact h.replays p (hpending p hp) t (hexecuting t ht) hid
  stopped hstopped := by
    have hnone := h.stopped hstopped
    exact List.eq_nil_iff_forall_not_mem.mpr fun p hp => by simpa [hnone] using hpending p hp

/-- A writer that has stopped keeps nothing that the invariant speaks of. -/
theorem Tracks.stop (h : Tracks s history) : Tracks s.stopAfterFailure history where
  wellFormed := h.wellFormed
  journalVersions := List.forall_mem_nil _
  historyVersions := h.historyVersions
  baseVersions := List.forall_mem_nil _
  ids := List.forall_mem_nil _
  taskIds := List.forall_mem_nil _
  journal := List.forall_mem_nil _
  replays := List.forall_mem_nil _
  stopped _ := rfl

theorem Tracks.failed (h : Tracks s history) (e : ControlFailure K) :
    Tracks (s.failed e) history := by
  unfold EngineState.failed
  split
  · exact h.stop
  · exact h

theorem Tracks.finish (h : Tracks s history) (buildId : ℕ) : Tracks (s.finish buildId) history :=
  (h.shrink h.wellFormed rfl (Nat.le_refl _) (fun _ hp => List.mem_of_mem_filter hp)
    fun _ => id).prune

/-- A delivered build that is installed: what it is, and what changes. -/
theorem processInstallIndex_installed {buildId : ℕ} {built : Option ops.Index}
    {replayThrows : Option Thrown} {commit : CommitResult} {p : PendingIndexBuild ops}
    {index : ops.Index}
    {s' : EngineState K ops}
    (h : s.processInstallIndex ops buildId built replayThrows commit = (.installed p index, s')) :
    p ∈ s.pendingIndexBuilds ∧ p.id = buildId ∧
      (∃ base, built = some base ∧ index = caughtUp ops s p base) ∧
      s'.current = { s.current with
        snapshot := s.current.snapshot.withIndexes (s.current.snapshot.indexes ++ [index]) } := by
  unfold EngineState.processInstallIndex at h
  cases hfind : s.pendingIndexBuilds.find? fun p => p.id = buildId with
  | none => simp [hfind] at h
  | some pending =>
    have hid : pending.id = buildId := by simpa using List.find?_some hfind
    have hmem := List.mem_of_find?_eq_some hfind
    cases built with
    | none => simp [hfind] at h
    | some base =>
      simp only [hfind] at h
      split at h
      · simp at h
      · simp at h
      split at h
      · simp at h
      split at h
      · simp only [Prod.mk.injEq, InstallOutcome.installed.injEq] at h
        obtain ⟨⟨rfl, rfl⟩, rfl⟩ := h
        exact ⟨hmem, hid, ⟨base, rfl, rfl⟩, by simp [EngineState.finish]⟩
      · simp at h
      · simp at h

/-- Whatever becomes of a delivered build, the invariant stays. -/
theorem Tracks.install (h : Tracks s history) (buildId : ℕ) (built : Option ops.Index)
    (replayThrows : Option Thrown) (commit : CommitResult) :
    Tracks (s.processInstallIndex ops buildId built replayThrows commit).2 history := by
  unfold EngineState.processInstallIndex
  split
  · exact h
  split
  · exact h.finish buildId
  dsimp only
  split
  · exact h.stop
  · exact h.finish buildId
  split
  · exact h.finish buildId
  split
  · refine Tracks.finish ?_ buildId
    exact h.shrink h.wellFormed rfl (Nat.le_succ _) (fun _ => id) fun _ => id
  · exact h.finish buildId
  · exact h.stop

theorem Tracks.create (law : LawfulIndex ops) (h : Tracks s history) (haccepting : s.accepting = true)
    (registered : ops.Field → Bool) (field : ops.Field) (indexType : ops.Kind)
    (prepared rejected : Bool) :
    Tracks (s.processCreateIndex ops registered field indexType prepared rejected).2 history := by
  unfold EngineState.processCreateIndex
  split
  · exact h
  dsimp only
  split
  · exact h
  split
  · exact h
  split
  · exact h
  split
  · exact h
  have hnext : Tracks { s with nextIndexBuildId := s.nextIndexBuildId + 1 } history :=
    { h with
      ids := fun p hp => Nat.lt_succ_of_lt (h.ids p hp)
      taskIds := fun t ht => Nat.lt_succ_of_lt (h.taskIds t ht) }
  split
  · exact hnext.prune
  -- the new build starts at the current version, behind which nothing is published yet
  have hnone : ∀ l : List (VersionedChange T),
      (∀ c ∈ l, c.version ≤ s.current.snapshot.version) →
      behind s.current.snapshot.version l = [] := by
    intro l hl
    simp only [behind, List.filter_eq_nil_iff, decide_eq_true_eq, Nat.not_lt]
    exact hl
  have hjournal := hnone _ h.journalVersions
  have hhistory := hnone _ h.historyVersions
  constructor
  case wellFormed => exact h.wellFormed
  case journalVersions => exact h.journalVersions
  case historyVersions => exact h.historyVersions
  case baseVersions =>
    intro p hp
    rcases List.mem_append.mp hp with hp | hp
    · exact h.baseVersions p hp
    · rw [List.mem_singleton.mp hp]
  case ids =>
    intro p hp
    rcases List.mem_append.mp hp with hp | hp
    · exact hnext.ids p hp
    · rw [List.mem_singleton.mp hp]
      exact Nat.lt_succ_self _
  case taskIds =>
    intro t ht
    rcases List.mem_append.mp ht with ht | ht
    · exact hnext.taskIds t ht
    · rw [List.mem_singleton.mp ht]
      exact Nat.lt_succ_self _
  case journal =>
    intro p hp
    rcases List.mem_append.mp hp with hp | hp
    · exact h.journal p hp
    · rw [List.mem_singleton.mp hp]
      exact hjournal.trans hhistory.symm
  case replays =>
    intro p hp t ht hid
    rcases List.mem_append.mp hp with hp | hp <;> rcases List.mem_append.mp ht with ht | ht
    · exact h.replays p hp t ht hid
    · have := h.ids p hp
      rw [List.mem_singleton.mp ht] at hid
      simp only at hid
      omega
    · have := h.taskIds t ht
      rw [List.mem_singleton.mp hp] at hid
      simp only at hid
      omega
    · rw [List.mem_singleton.mp hp, List.mem_singleton.mp ht]
      exact ⟨by rw [law.kind_empty], by simpa [hjournal] using Replays.nil _⟩
  case stopped => exact fun hstopped => absurd haccepting (by simpa using hstopped)

theorem Tracks.drop (h : Tracks s history) (registered : ops.Field → Bool) (field : ops.Field)
    (commit : CommitResult) :
    Tracks (s.processDropIndex ops registered field commit).2 history := by
  unfold EngineState.processDropIndex
  split
  · exact h
  split
  · refine Tracks.prune (h.shrink ?_ ?_ ?_ (fun _ hp => List.mem_of_mem_filter hp) fun _ => id)
    · dsimp only
      split <;> exact h.wellFormed
    · dsimp only
      split <;> rfl
    · dsimp only
      split
      · exact Nat.le_refl _
      · exact Nat.le_succ _
  · exact h
  · exact h.stop

end

section

variable {K T : Type} [DecidableEq K] {ops : IndexOps T} {idOf : T → K}
  {s : EngineState K ops} {history : List (VersionedChange T)}

omit [DecidableEq K] in
/-- A publication of a batch state. -/
theorem Tracks.publish_build (h : Tracks s history) {state : BatchState K T ops.Builder}
    (hwf : state.WellFormed) {changes : List (IndexChange T)}
    (hversion : state.snapshots.nextVersion = s.current.snapshot.version + 1)
    (hreplays : s.pendingIndexBuilds ≠ [] →
      Replays s.current.snapshot.get changes state.docs) :
    Tracks { s with
        current := state.build ops, mutationJournal := journaled s (state.build ops) changes }
      (history ++ changes.map (⟨(state.build ops).snapshot.version, ·⟩)) :=
  h.publish (show (state.build ops).WellFormed from hwf) hversion hreplays

theorem Tracks.batch (h : Tracks s history) (haccepting : s.accepting = true)
    {tasks : List (MutationTask K T)} {commit : CommitResult}
    (hsteady : s.Steady ops idOf (.batch tasks commit)) :
    Tracks (s.batch ops idOf tasks commit)
      (history ++ s.publishes ops idOf (.batch tasks commit)) := by
  have hunchanged : Tracks { s with mutationJournal := journaled s s.current [] } history := by
    unfold journaled
    split <;> simpa using h
  have hopen : ¬ s.accepting = false := by simp [haccepting]
  unfold EngineState.batch EngineState.publishes
  rw [if_neg hopen]
  by_cases herred : erred (applyAll ops idOf (.ofPublished ops s.current) tasks).1 = true
  · simpa [processBatch, herred] using h.stop
  cases hok : successful tasks (applyAll ops idOf (.ofPublished ops s.current) tasks).1 with
  | nil => simpa [processBatch, herred, hok] using hunchanged
  | cons task rest =>
    cases commit with
    | capacityExceeded => simpa [processBatch, herred, hok] using hunchanged
    | terminal => simpa [processBatch, herred, hok] using h.stop
    | committed =>
      simp only [processBatch, herred, hok, reduceCtorEq, Bool.false_eq_true, if_false]
      refine h.publish_build (applyAll_wellFormed h.wellFormed.batch tasks)
        (applyAll_nextVersion h.wellFormed.batch tasks) fun hp => ?_
      have ht := ((hsteady.resolve_left hp).resolve_left (by simp)).resolve_left herred
      exact applyAll_replays h.wellFormed.batch ht

theorem Tracks.bulk (h : Tracks s history) (haccepting : s.accepting = true)
    (tasks : List (MutationTask K T)) (commit : CommitResult) :
    Tracks (s.processBulk ops idOf tasks commit).2
      (history ++ s.publishes ops idOf (.bulk tasks commit)) := by
  have hopen : ¬ s.accepting = false := by simp [haccepting]
  unfold EngineState.processBulk EngineState.publishes
  rw [if_neg hopen]
  cases hids : bulkIds idOf [] tasks with
  | error e => simpa [hids] using h.failed e
  | ok _ =>
    cases hbulk : applyBulk ops idOf (.ofPublished ops s.current) tasks with
    | error e => simpa [hids, hbulk] using h.failed e
    | ok r =>
      obtain ⟨changes, state⟩ := r
      obtain ⟨hreplays, hwf, hversion⟩ := applyBulk_replays h.wellFormed.batch hbulk
      cases commit with
      | committed =>
        simp only [hids, hbulk, if_true]
        exact h.publish_build hwf hversion fun _ => hreplays
      | capacityExceeded => simpa [hids, hbulk] using h
      | terminal => simpa [hids, hbulk] using h.stop

variable {registered : ops.Field → Bool}

/-- One task of the writer keeps the invariant. -/
theorem handle_tracks (law : LawfulIndex ops) (h : Tracks s history) {e : Event K ops}
    (hsteady : s.Steady ops idOf e) :
    Tracks (s.handle ops idOf registered e).2 (history ++ s.publishes ops idOf e) := by
  unfold EngineState.handle
  by_cases haccepting : s.accepting = true
  · rw [if_pos haccepting]
    cases e with
    | batch tasks commit => exact h.batch haccepting hsteady
    | bulk tasks commit => exact h.bulk haccepting tasks commit
    | createIndex field indexType prepared rejected =>
      simpa [EngineState.publishes, EngineState.process] using
        h.create law haccepting registered field indexType prepared rejected
    | dropIndex field commit =>
      simpa [EngineState.publishes, EngineState.process] using h.drop registered field commit
    | installIndex position buildFails replayThrows commit =>
      simp only [EngineState.process, EngineState.publishes, ite_self, List.append_nil]
      split
      · exact h
      · exact (h.shrink h.wellFormed rfl (Nat.le_refl _) (fun _ => id)
          fun _ => List.mem_of_mem_eraseIdx).install ..
    | stop => simpa [EngineState.publishes, EngineState.process] using h.stop
  · simpa [EngineState.publishes, haccepting] using h

/-- Every steady run keeps the invariant. -/
theorem run_tracks (law : LawfulIndex ops) (h : Tracks s history) {events : List (Event K ops)}
    (hsteady : s.SteadyRun ops idOf registered events) :
    Tracks (s.run ops idOf registered events)
      (history ++ s.history ops idOf registered events) := by
  induction events generalizing s history with
  | nil => simpa [EngineState.run, EngineState.history] using h
  | cons e rest ih =>
    have hstep := ih (handle_tracks law h hsteady.1) hsteady.2
    simpa [EngineState.run, EngineState.history] using hstep

omit [DecidableEq K] in
theorem start_tracks {current : PublishedState K T ops.Index} (hwf : current.WellFormed) :
    Tracks (EngineState.start current) [] := by
  constructor
  case wellFormed => exact hwf
  all_goals simp [EngineState.start]

/-- An installed index comes from a builder that holds the current documents. -/
theorem Tracks.installed_holds (law : LawfulIndex ops) (h : Tracks s history) {e : Event K ops}
    {p : PendingIndexBuild ops} {index : ops.Index}
    (he : (s.handle ops idOf registered e).1 = .installed p index) :
    p ∈ s.pendingIndexBuilds ∧
      (∃ b, index = ops.build b ∧
        law.Holds p.field p.indexType b s.current.snapshot.get) ∧
      (s.handle ops idOf registered e).2.current = { s.current with
        snapshot := s.current.snapshot.withIndexes (s.current.snapshot.indexes ++ [index]) } := by
  unfold EngineState.handle at he ⊢
  split at he
  swap
  · cases he
  rename_i haccepting
  rw [if_pos haccepting]
  cases e with
  | installIndex position buildFails replayThrows commit =>
    simp only [EngineState.process] at he ⊢
    cases htask : s.executing[position]? with
    | none => simp [htask] at he
    | some task =>
      simp only [htask] at he ⊢
      obtain ⟨hp, hid, ⟨base, hbuilt, hindex⟩, hcurrent⟩ :=
        processInstallIndex_installed (Prod.ext he rfl)
      obtain ⟨hempty, hreplays⟩ := h.replays p hp task (List.mem_of_getElem? htask) hid.symm
      obtain ⟨b, hb, hholds⟩ :=
        buildIndex_holds law task.baseSnapshot p.field p.indexType
      have hbase : base = ops.build b := by
        by_cases hf : buildFails = true
        · simp [hf] at hbuilt
        · rw [← hb, ← hempty]
          simpa [hf] using hbuilt.symm
      exact ⟨hp, ⟨_, hindex, hreplays.holds law (hbase ▸ law.holds_build hholds)⟩, hcurrent⟩
  | _ => simp [EngineState.process] at he

/-- An installed index shows what an index built over the current documents shows. -/
theorem Tracks.installed (law : LawfulIndex ops) (h : Tracks s history) {e : Event K ops}
    {p : PendingIndexBuild ops} {index : ops.Index}
    (he : (s.handle ops idOf registered e).1 = .installed p index) :
    p ∈ s.pendingIndexBuilds ∧
      ops.observe index = ops.observe (buildIndex ops s.current.snapshot
        (ops.createEmpty p.field p.indexType)) ∧
      (s.handle ops idOf registered e).2.current = { s.current with
        snapshot := s.current.snapshot.withIndexes (s.current.snapshot.indexes ++ [index]) } := by
  obtain ⟨hp, ⟨b, rfl, hholds⟩, hcurrent⟩ := h.installed_holds law he
  obtain ⟨b', hb', hholds'⟩ := buildIndex_holds law s.current.snapshot p.field p.indexType
  refine ⟨hp, ?_, hcurrent⟩
  rw [hb']
  exact law.observe_build hholds hholds'

/-! ### Builds that are gone -/

/-- Build ids only grow: a build that is pending afterwards was pending before, or it has a build
id that was not given out before. -/
structure Ages (s s' : EngineState K ops) : Prop where
  next : s.nextIndexBuildId ≤ s'.nextIndexBuildId
  pending : ∀ p ∈ s'.pendingIndexBuilds, p ∈ s.pendingIndexBuilds ∨ s.nextIndexBuildId ≤ p.id

omit [DecidableEq K] in
theorem Ages.refl (s : EngineState K ops) : Ages s s := ⟨Nat.le_refl _, fun _ => .inl⟩

omit [DecidableEq K] in
theorem Ages.stop (s : EngineState K ops) : Ages s s.stopAfterFailure :=
  ⟨Nat.le_refl _, List.forall_mem_nil _⟩

omit [DecidableEq K] in
theorem Ages.failed (s : EngineState K ops) (e : ControlFailure K) : Ages s (s.failed e) := by
  unfold EngineState.failed
  split
  · exact .stop s
  · exact .refl s

omit [DecidableEq K] in
theorem Ages.finish {s s' : EngineState K ops} (h : Ages s s') (buildId : ℕ) :
    Ages s (s'.finish buildId) := by
  refine ⟨by simpa [EngineState.finish] using h.next, fun p hp => ?_⟩
  rw [EngineState.finish, prune_pending] at hp
  exact h.pending p (List.mem_of_mem_filter hp)

theorem processBatch_ages (tasks : List (MutationTask K T)) (commit : CommitResult) :
    Ages s (s.batch ops idOf tasks commit) := by
  unfold EngineState.batch
  dsimp only
  split
  · exact .stop s
  · exact ⟨Nat.le_refl _, fun _ => .inl⟩

theorem processBulk_ages (tasks : List (MutationTask K T)) (commit : CommitResult) :
    Ages s (s.processBulk ops idOf tasks commit).2 := by
  unfold EngineState.processBulk
  split
  · exact .failed s _
  split
  · exact .failed s _
  cases commit with
  | committed => exact ⟨Nat.le_refl _, fun _ => .inl⟩
  | capacityExceeded => exact .refl s
  | terminal => exact .stop s

omit [DecidableEq K] in
theorem processInstallIndex_ages (buildId : ℕ) (built : Option ops.Index)
    (replayThrows : Option Thrown) (commit : CommitResult) :
    Ages s (s.processInstallIndex ops buildId built replayThrows commit).2 := by
  unfold EngineState.processInstallIndex
  split
  · exact .refl s
  split
  · exact (Ages.refl s).finish buildId
  dsimp only
  split
  · exact .stop s
  · exact (Ages.refl s).finish buildId
  split
  · exact (Ages.refl s).finish buildId
  split
  · refine Ages.finish ?_ buildId
    exact ⟨Nat.le_refl _, fun _ => .inl⟩
  · exact (Ages.refl s).finish buildId
  · exact .stop s

omit [DecidableEq K] in
theorem processDropIndex_ages (field : ops.Field) (commit : CommitResult) :
    Ages s (s.processDropIndex ops registered field commit).2 := by
  unfold EngineState.processDropIndex
  split
  · exact .refl s
  split
  · refine ⟨by simp, fun p hp => ?_⟩
    rw [prune_pending] at hp
    exact .inl (List.mem_of_mem_filter hp)
  · exact .refl s
  · exact .stop s

omit [DecidableEq K] in
theorem processCreateIndex_ages (field : ops.Field) (indexType : ops.Kind)
    (prepared rejected : Bool) :
    Ages s (s.processCreateIndex ops registered field indexType prepared rejected).2 := by
  unfold EngineState.processCreateIndex
  split
  · exact .refl s
  dsimp only
  split
  · exact .refl s
  split
  · exact .refl s
  split
  · exact .refl s
  split
  · exact .refl s
  split
  · refine ⟨by simp, fun p hp => ?_⟩
    rw [prune_pending] at hp
    exact .inl hp
  · refine ⟨Nat.le_succ _, fun p hp => ?_⟩
    rcases List.mem_append.mp hp with hp | hp
    · exact .inl hp
    · rw [List.mem_singleton.mp hp]
      exact .inr (Nat.le_refl _)

theorem handle_ages (e : Event K ops) : Ages s (s.handle ops idOf registered e).2 := by
  unfold EngineState.handle
  split
  swap
  · exact .refl s
  cases e with
  | batch tasks commit => exact processBatch_ages tasks commit
  | bulk tasks commit => exact processBulk_ages tasks commit
  | createIndex field indexType prepared rejected =>
    exact processCreateIndex_ages field indexType prepared rejected
  | dropIndex field commit => exact processDropIndex_ages field commit
  | installIndex position buildFails replayThrows commit =>
    unfold EngineState.process
    dsimp only
    split
    · exact .refl s
    · obtain ⟨hnext, hpending⟩ := processInstallIndex_ages
        (s := { s with executing := s.executing.eraseIdx position }) _ _ replayThrows commit
      exact ⟨hnext, hpending⟩
  | stop => exact .stop s

/-- The build id was given out, and its build is no longer pending. -/
def EngineState.Gone (s : EngineState K ops) (id : ℕ) : Prop :=
  id < s.nextIndexBuildId ∧ ∀ p ∈ s.pendingIndexBuilds, p.id ≠ id

theorem run_gone {id : ℕ} (h : s.Gone id) (events : List (Event K ops)) :
    (s.run ops idOf registered events).Gone id := by
  induction events generalizing s with
  | nil => exact h
  | cons e rest ih =>
    apply ih
    have hages : Ages s (s.handle ops idOf registered e).2 := handle_ages e
    refine ⟨Nat.lt_of_lt_of_le h.1 hages.next, fun p hp => ?_⟩
    rcases hages.pending p hp with hp | hp
    · exact h.2 p hp
    · have := h.1
      omega

/-- What the writer owes to its background builds at the moment of one task, after a run. -/
structure BuildsConverge (ops : IndexOps T) (idOf : T → K) (registered : ops.Field → Bool)
    (current : PublishedState K T ops.Index) (events : List (Event K ops)) (e : Event K ops) :
    Prop where
  /-- An installed index shows the contents and statistics of one built over the current
  documents, and nothing else of the published state changes. -/
  installed : ∀ p index,
    (((EngineState.start current).run ops idOf registered events).handle ops idOf registered e).1 =
      .installed p index →
    let s := (EngineState.start current).run ops idOf registered events
    ops.observe index = ops.observe (buildIndex ops s.current.snapshot
      (ops.createEmpty p.field p.indexType)) ∧
    (s.handle ops idOf registered e).2.current = { s.current with
      snapshot := { s.current.snapshot with
        indexes := s.current.snapshot.indexes ++ [index]
        version := s.current.snapshot.version + 1 } }
  /-- The journal holds every change that was published behind the base of a pending build. -/
  journal : ∀ p ∈ ((EngineState.start current).run ops idOf registered events).pendingIndexBuilds,
    behind p.baseVersion
        ((EngineState.start current).run ops idOf registered events).mutationJournal =
      behind p.baseVersion ((EngineState.start current).history ops idOf registered events)
  /-- A build that finished, failed or was dropped at an earlier moment is not installed. -/
  gone : ∀ earlier later id, events = earlier ++ later →
    ((EngineState.start current).run ops idOf registered earlier).Gone id →
    ∀ p index, (((EngineState.start current).run ops idOf registered events).handle ops idOf
      registered e).1 = .installed p index → p.id ≠ id
  /-- A drop leaves no pending build of its field. -/
  dropped : ∀ field, e = .dropIndex field .committed → registered field = true →
    ∀ p ∈ (((EngineState.start current).run ops idOf registered events).handle ops idOf registered
      e).2.pendingIndexBuilds, p.field ≠ field

/-- Online builds converge in every run in which no addition or replacement of a published batch
throws inside an index builder while an index build is pending. -/
theorem run_buildsConverge (law : LawfulIndex ops) {current : PublishedState K T ops.Index}
    (hwf : current.WellFormed) {events : List (Event K ops)}
    (hsteady : (EngineState.start current).SteadyRun ops idOf registered events)
    (e : Event K ops) : BuildsConverge ops idOf registered current events e := by
  have htracks := run_tracks law (start_tracks hwf) hsteady
  rw [List.nil_append] at htracks
  constructor
  case installed =>
    intro p index he
    exact (htracks.installed law he).2
  case journal => exact htracks.journal
  case gone =>
    rintro earlier later id rfl hgone p index he
    have hlater : (((EngineState.start current).run ops idOf registered earlier).run ops idOf
        registered later).Gone id := run_gone hgone later
    rw [EngineState.run, EngineState.run, ← List.foldl_append] at hlater
    exact hlater.2 p (htracks.installed law he).1
  case dropped =>
    rintro field rfl hregistered p hp
    unfold EngineState.handle at hp
    split at hp
    · simp only [EngineState.process, EngineState.processDropIndex, hregistered, Bool.not_true,
        Bool.false_eq_true, if_false, prune_pending] at hp
      simpa using (List.mem_filter.mp hp).2
    · rename_i hstopped
      rw [htracks.stopped (by simpa using hstopped)] at hp
      cases hp

end

/-! ### One build that misses a document -/

/-- An engine of numbers with two fields, of which only the first is indexed. -/
def twoFieldOps : IndexOps ℕ := Index.equalityOps ℕ Bool ℕ fun _ t => some t

/-- The engine before its first mutation. -/
def twoFieldEngine : PublishedState ℕ ℕ twoFieldOps.Index where
  snapshot := ⟨fun _ => none, ∅, [twoFieldOps.createEmpty false ()], 0⟩
  documentIds := fun _ => none
  nextDocId := 0

/-- An index on the second field is being built while the first index throws for document 7. -/
def missedDocument : List (Event ℕ twoFieldOps) :=
  [.createIndex true () true false, .batch failingBatch .committed]

/-- The installed index has no entry for 7, which the published snapshot holds. -/
theorem build_misses_document :
    ¬ BuildsConverge twoFieldOps id (fun _ => true) twoFieldEngine missedDocument
      (.installIndex 0 false none .committed) := by
  intro h
  have hobserve := (h.installed _ _ rfl).1
  have hseven := congrFun (congrArg Prod.fst hobserve) 7
  revert hseven
  decide

theorem run_buildsConverge_number :
    BuildsConverge twoFieldOps id (fun _ => true) twoFieldEngine
      [.createIndex true () true false, .batch [⟨.add 7, .none⟩, ⟨.remove 9, .index 0 .exception⟩] .committed]
      (.installIndex 0 false none .committed) := by
  have hwf : twoFieldEngine.WellFormed := ⟨nofun, nofun, by simp [twoFieldEngine]⟩
  have law : LawfulIndex twoFieldOps := Index.equality_lawful ℕ Bool ℕ fun _ t => some t
  refine run_buildsConverge law hwf ?_ _
  exact ⟨trivial, .inr (.inr (.inr (by decide))), trivial⟩

end GeneralSearch.Engine
