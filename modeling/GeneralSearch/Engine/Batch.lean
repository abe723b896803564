import GeneralSearch.Storage.Snapshot
import GeneralSearch.Index.Equality
import Mathlib.Tactic.Common

/-! A batch of single mutations in `SnapshotSearchEngine`: `BatchState` applies one mutation after
the other to one shared builder, and `processBatch` publishes what the builder holds at the end.
The callbacks that a mutation runs (field extractors, analyzers, index builders) may throw; where
they do, and whether it is an exception or an error, is part of the task, so that a theorem ranges
over every choice. -/

namespace GeneralSearch.Engine

open GeneralSearch.Storage

/-- `SearchMutation`. -/
inductive SearchMutation (K T : Type) where
  | add (document : T)
  | update (document : T)
  | remove (id : K)
  deriving DecidableEq, Repr

/-- What a callback throws: a `RuntimeException`, which fails the mutation, or an `Error`, which the
writer does not survive. -/
inductive Thrown where
  | exception
  | error
  deriving DecidableEq, Repr

/-- Where a callback of the mutation throws: nowhere, before the mutation is applied (in
`schema.idOf` or in the durable codec), or in the index builder at one position of the registry. -/
inductive Fault where
  | none
  | preparing (thrown : Thrown)
  | index (position : ℕ) (thrown : Thrown)
  deriving DecidableEq, Repr

/-- The position at which the loop over the index builders is left. -/
def Fault.position : Fault → Option ℕ
  | .index k _ => some k
  | _ => Option.none

/-- What is thrown where the loop is left. -/
def Fault.thrown : Fault → Thrown
  | .none => .exception
  | .preparing thrown => thrown
  | .index _ thrown => thrown

/-- `MutationTask`, with the behaviour of its callbacks. -/
structure MutationTask (K T : Type) where
  mutation : SearchMutation K T
  fault : Fault
  deriving DecidableEq, Repr

/-- What fails one mutation. -/
inductive MutationFailure (K : Type) where
  | callback (thrown : Thrown)
  | documentAlreadyExists (id : K)
  | documentNotFound (id : K)
  | documentIdsExhausted
  | alreadyActive (docId : ℕ)
  | missingDocument (docId : ℕ)
  deriving DecidableEq, Repr

/-- `IndexChange`. -/
structure IndexChange (T : Type) where
  docId : ℕ
  oldDocument : Option T
  newDocument : Option T
  deriving DecidableEq, Repr

/-- `PublishedState`. -/
structure PublishedState (K T Index : Type) where
  snapshot : SearchSnapshot T Index
  documentIds : K → Option ℕ
  nextDocId : ℕ

/-- `BatchState`. -/
structure BatchState (K T Builder : Type) where
  snapshots : SearchSnapshotBuilder T Builder
  documentIds : K → Option ℕ
  nextDocId : ℕ

/-- `Integer.MAX_VALUE`. -/
def maxDocId : ℕ := 2147483647

section

variable {K T : Type} [DecidableEq K]

/-- `new BatchState(base)`. -/
def BatchState.ofPublished (ops : IndexOps T) (base : PublishedState K T ops.Index) :
    BatchState K T ops.Builder where
  snapshots := .ofSnapshot ops base.snapshot
  documentIds := base.documentIds
  nextDocId := base.nextDocId

/-- `BatchState.build`. -/
def BatchState.build (ops : IndexOps T) (s : BatchState K T ops.Builder) :
    PublishedState K T ops.Index where
  snapshot := s.snapshots.build ops
  documentIds := s.documentIds
  nextDocId := s.nextDocId

/-- What a call leaves behind: its result or exception, and the state it was called on. -/
abbrev Attempt (K σ α : Type) := Except (MutationFailure K) α × σ

/-- `SearchSnapshotBuilder.add`: the document slot and the active bit are set before the indexes
are updated. -/
def snapshotAdd (ops : IndexOps T) (s : SearchSnapshotBuilder T ops.Builder) (docId : ℕ)
    (document : T) (fault : Fault) : Attempt K (SearchSnapshotBuilder T ops.Builder) Unit :=
  if docId ∈ s.activeDocuments then (.error (.alreadyActive docId), s)
  else
    let r := forEachBuilder ops.torn (fun b => ops.add b docId document) fault.position s.indexes
    (if r.2 then .error (.callback fault.thrown) else .ok (),
      { s with
        documents := Function.update s.documents docId (some document)
        activeDocuments := insert docId s.activeDocuments
        indexes := r.1 })

/-- `SearchSnapshotBuilder.update`: the document slot is replaced before the indexes are
updated. -/
def snapshotUpdate (ops : IndexOps T) (s : SearchSnapshotBuilder T ops.Builder) (docId : ℕ)
    (document : T) (fault : Fault) : Attempt K (SearchSnapshotBuilder T ops.Builder) Unit :=
  match s.get docId with
  | none => (.error (.missingDocument docId), s)
  | some oldDocument =>
    let r := forEachBuilder ops.torn (fun b => ops.update b docId oldDocument document) fault.position
      s.indexes
    (if r.2 then .error (.callback fault.thrown) else .ok (),
      { s with
        documents := Function.update s.documents docId (some document)
        indexes := r.1 })

/-- `SearchSnapshotBuilder.remove`: the indexes are updated first, and the slot and the active bit
are cleared only when no index threw. -/
def snapshotRemove (ops : IndexOps T) (s : SearchSnapshotBuilder T ops.Builder) (docId : ℕ)
    (fault : Fault) : Attempt K (SearchSnapshotBuilder T ops.Builder) Unit :=
  if docId ∉ s.activeDocuments then (.ok (), s)
  else match s.documents docId with
  | none => (.error (.missingDocument docId), s)
  | some document =>
    let r := forEachBuilder ops.torn (fun b => ops.remove b docId document) fault.position s.indexes
    if r.2 then (.error (.callback fault.thrown), { s with indexes := r.1 })
    else (.ok (),
      { s with
        documents := Function.update s.documents docId none
        activeDocuments := s.activeDocuments.erase docId
        indexes := r.1 })

/-- `BatchState.add`: the id counter advances before the document is added, and the key is recorded
after. -/
def BatchState.add (ops : IndexOps T) (s : BatchState K T ops.Builder) (id : K) (document : T)
    (fault : Fault) : Attempt K (BatchState K T ops.Builder) (Option (IndexChange T)) :=
  if (s.documentIds id).isSome then (.error (.documentAlreadyExists id), s)
  else if s.nextDocId = maxDocId then (.error .documentIdsExhausted, s)
  else
    let docId := s.nextDocId
    let r : Attempt K _ Unit := snapshotAdd ops s.snapshots docId document fault
    let s := { s with snapshots := r.2, nextDocId := docId + 1 }
    match r.1 with
    | .error e => (.error e, s)
    | .ok _ =>
      (.ok (some ⟨docId, none, some document⟩),
        { s with documentIds := Function.update s.documentIds id (some docId) })

/-- `BatchState.update`. -/
def BatchState.update (ops : IndexOps T) (s : BatchState K T ops.Builder) (id : K) (document : T)
    (fault : Fault) : Attempt K (BatchState K T ops.Builder) (Option (IndexChange T)) :=
  match s.documentIds id with
  | none => (.error (.documentNotFound id), s)
  | some docId =>
    match s.snapshots.get docId with
    | none => (.error (.missingDocument docId), s)
    | some oldDocument =>
      let r : Attempt K _ Unit := snapshotUpdate ops s.snapshots docId document fault
      (r.1.map fun _ => some ⟨docId, some oldDocument, some document⟩,
        { s with snapshots := r.2 })

/-- `BatchState.remove`: the key leaves the map before the document is looked up. -/
def BatchState.remove (ops : IndexOps T) (s : BatchState K T ops.Builder) (id : K)
    (fault : Fault) : Attempt K (BatchState K T ops.Builder) (Option (IndexChange T)) :=
  match s.documentIds id with
  | none => (.ok none, s)
  | some docId =>
    let s := { s with documentIds := Function.update s.documentIds id none }
    match s.snapshots.get docId with
    | none => (.error (.missingDocument docId), s)
    | some oldDocument =>
      let r : Attempt K _ Unit := snapshotRemove ops s.snapshots docId fault
      (r.1.map fun _ => some ⟨docId, some oldDocument, none⟩, { s with snapshots := r.2 })

/-- The body of the loop of `processBatch` for one task: the id and the durable form first, then
`apply`. -/
def applyTask (ops : IndexOps T) (idOf : T → K) (s : BatchState K T ops.Builder)
    (task : MutationTask K T) : Attempt K (BatchState K T ops.Builder) (Option (IndexChange T)) :=
  match task.fault with
  | .preparing thrown => (.error (.callback thrown), s)
  | _ => match task.mutation with
    | .add document => s.add ops (idOf document) document task.fault
    | .update document => s.update ops (idOf document) document task.fault
    | .remove id => s.remove ops id task.fault

/-- The loop of `processBatch`: the result of each task in order, and the final batch state. -/
def applyAll (ops : IndexOps T) (idOf : T → K) :
    BatchState K T ops.Builder → List (MutationTask K T) →
      List (Except (MutationFailure K) (Option (IndexChange T))) × BatchState K T ops.Builder
  | s, [] => ([], s)
  | s, task :: rest =>
    let r := applyTask ops idOf s task
    let later := applyAll ops idOf r.2 rest
    (r.1 :: later.1, later.2)

/-- Some task threw an `Error`. -/
def erred {α : Type} (results : List (Except (MutationFailure K) α)) : Bool :=
  results.any fun
    | .error (.callback .error) => true
    | _ => false

/-- The answer to a group of mutations that were applied: committed (also without durability),
refused for capacity, or failed for good, which stops the writer.  So does an exception of
`state.build()` in a batch. -/
inductive CommitResult where
  | committed
  | capacityExceeded
  | terminal
  deriving DecidableEq, Repr

/-- The tasks of the batch whose application succeeded, in order. -/
def successful {α β ε : Type} : List α → List (Except ε β) → List α
  | task :: tasks, .ok _ :: results => task :: successful tasks results
  | _ :: tasks, .error _ :: results => successful tasks results
  | _, _ => []

/-- The outcome of `processBatch`: the state that readers see afterwards, the tasks whose futures
complete normally, the changes of the journal, and whether a throwable leaves the method. -/
structure BatchOutcome (K T Index : Type) where
  published : PublishedState K T Index
  completed : List (MutationTask K T)
  changes : List (IndexChange T)
  stopped : Bool

/-- `processBatch`.  The first `Error` leaves it, whatever the tasks behind it would do.  Without a
successful task nothing is published; a refused commit completes the successful tasks exceptionally
as well. -/
def processBatch (ops : IndexOps T) (idOf : T → K) (current : PublishedState K T ops.Index)
    (batch : List (MutationTask K T)) (commit : CommitResult) : BatchOutcome K T ops.Index :=
  let r := applyAll ops idOf (.ofPublished ops current) batch
  let ok := successful batch r.1
  if erred r.1 = true then ⟨current, [], [], true⟩
  else if ok = [] then ⟨current, [], [], false⟩
  else match commit with
  | .committed => ⟨r.2.build ops, ok, r.1.filterMap fun x => x.toOption.join, false⟩
  | .capacityExceeded => ⟨current, [], [], false⟩
  | .terminal => ⟨current, [], [], true⟩

/-- The mutation passes its own checks in `s`, and then an index builder throws. -/
def throwsInIndex (ops : IndexOps T) (idOf : T → K) (s : BatchState K T ops.Builder)
    (task : MutationTask K T) : Bool :=
  match task.fault with
  | .index k _ => decide (k < s.snapshots.indexes.length) &&
    match task.mutation with
    | .add document => (s.documentIds (idOf document)).isNone && s.nextDocId != maxDocId
    | .update document => (s.documentIds (idOf document)).isSome
    | .remove id => (s.documentIds id).isSome
  | _ => false

/-- Some mutation of the batch that satisfies `p` throws in an index builder. -/
def someThrow (ops : IndexOps T) (idOf : T → K) (p : SearchMutation K T → Bool) :
    BatchState K T ops.Builder → List (MutationTask K T) → Bool
  | _, [] => false
  | s, task :: rest =>
    (p task.mutation && throwsInIndex ops idOf s task) ||
      someThrow ops idOf p (applyTask ops idOf s task).2 rest

/-- The mutation replaces a document. -/
def SearchMutation.isUpdate : SearchMutation K T → Bool
  | .update _ => true
  | _ => false

/-- The task with callbacks that return. -/
def MutationTask.quiet (task : MutationTask K T) : MutationTask K T := { task with fault := .none }

/-- No part of a failed mutation is published: the published state is the one that the mutations
that complete normally produce alone. -/
def LeavesNoTrace (ops : IndexOps T) (idOf : T → K) (current : PublishedState K T ops.Index)
    (batch : List (MutationTask K T)) (commit : CommitResult) : Prop :=
  (processBatch ops idOf current batch commit).published =
    (processBatch ops idOf current
      ((processBatch ops idOf current batch commit).completed.map MutationTask.quiet)
      .committed).published

/-! ### Well-formed states -/

/-- Every key names an active document of its own, and the id counter is above every active id. -/
structure WellFormed (documents : ℕ → Option T) (active : Finset ℕ) (documentIds : K → Option ℕ)
    (nextDocId : ℕ) : Prop where
  stored : ∀ id d, documentIds id = some d → d ∈ active ∧ (documents d).isSome
  injective : ∀ id id' d, documentIds id = some d → documentIds id' = some d → id = id'
  fresh : ∀ d ∈ active, d < nextDocId

def BatchState.WellFormed {Builder : Type} (s : BatchState K T Builder) : Prop :=
  Engine.WellFormed s.snapshots.documents s.snapshots.activeDocuments s.documentIds s.nextDocId

def PublishedState.WellFormed {Index : Type} (s : PublishedState K T Index) : Prop :=
  Engine.WellFormed s.snapshot.documents s.snapshot.activeDocuments s.documentIds s.nextDocId

variable {ops : IndexOps T} {idOf : T → K} {s : BatchState K T ops.Builder}
  {task : MutationTask K T}

omit [DecidableEq K] in
theorem WellFormed.get {documents : ℕ → Option T} {active : Finset ℕ}
    {documentIds : K → Option ℕ} {nextDocId : ℕ}
    (h : WellFormed documents active documentIds nextDocId) {id : K} {d : ℕ}
    (hd : documentIds id = some d) : ∃ t, documents d = some t ∧ d ∈ active := by
  obtain ⟨hactive, hsome⟩ := h.stored id d hd
  obtain ⟨t, ht⟩ := Option.isSome_iff_exists.mp hsome
  exact ⟨t, ht, hactive⟩

omit [DecidableEq K] in
theorem BatchState.WellFormed.next_notMem (h : s.WellFormed) :
    s.nextDocId ∉ s.snapshots.activeDocuments :=
  fun hm => absurd (h.fresh _ hm) (Nat.lt_irrefl _)

/-! ### One task

What `applyTask` does when the state is well-formed: each case fixes the result and the whole state
behind it. -/

/-- The state after an added document, with the indexes as the loop over the builders left them. -/
def BatchState.added (s : BatchState K T ops.Builder) (document : T) (fault : Fault) :
    BatchState K T ops.Builder where
  snapshots :=
    { s.snapshots with
      documents := Function.update s.snapshots.documents s.nextDocId (some document)
      activeDocuments := insert s.nextDocId s.snapshots.activeDocuments
      indexes := (forEachBuilder ops.torn (fun b => ops.add b s.nextDocId document) fault.position
        s.snapshots.indexes).1 }
  documentIds := s.documentIds
  nextDocId := s.nextDocId + 1

/-- The state after a replaced document. -/
def BatchState.updated (s : BatchState K T ops.Builder) (docId : ℕ) (oldDocument document : T)
    (fault : Fault) : BatchState K T ops.Builder :=
  { s with
    snapshots :=
      { s.snapshots with
        documents := Function.update s.snapshots.documents docId (some document)
        indexes := (forEachBuilder ops.torn (fun b => ops.update b docId oldDocument document)
          fault.position s.snapshots.indexes).1 } }

/-- The indexes after a removed document. -/
def BatchState.unindexed (s : BatchState K T ops.Builder) (docId : ℕ) (document : T)
    (fault : Fault) : List ops.Builder :=
  (forEachBuilder ops.torn (fun b => ops.remove b docId document) fault.position s.snapshots.indexes).1

/-- The loop over the index builders throws for this fault. -/
def Fault.throws (fault : Fault) (builders : ℕ) : Bool :=
  match fault with
  | .index k _ => decide (k < builders)
  | _ => false

theorem forEachBuilder_snd {Builder : Type} (torn apply : Builder → Builder) (fault : Fault)
    (bs : List Builder) : (forEachBuilder torn apply fault.position bs).2 = fault.throws bs.length := by
  cases fault with
  | none => simp [Fault.position, Fault.throws]
  | preparing thrown => simp [Fault.position, Fault.throws]
  | index k thrown => simp [Fault.position, Fault.throws, forEachBuilder_throws]

theorem forEachBuilder_fst {Builder : Type} (torn apply : Builder → Builder) {fault : Fault}
    {bs : List Builder} (h : fault.throws bs.length = false) :
    (forEachBuilder torn apply fault.position bs).1 = bs.map apply := by
  cases fault with
  | none => simp [Fault.position]
  | preparing thrown => simp [Fault.position]
  | index k thrown =>
    have hk : bs.length ≤ k := by simpa [Fault.throws] using h
    simp [Fault.position, forEachBuilder_past torn apply hk]

/-- The cases of one task.  Only the last three throw behind a change. -/
inductive TaskCase (ops : IndexOps T) (idOf : T → K) (s : BatchState K T ops.Builder)
    (task : MutationTask K T) :
    Except (MutationFailure K) (Option (IndexChange T)) → BatchState K T ops.Builder → Prop
  | refused (e : MutationFailure K) : throwsInIndex ops idOf s task = false →
      TaskCase ops idOf s task (.error e) s
  | absent (id : K) : task.mutation = .remove id → s.documentIds id = none →
      TaskCase ops idOf s task (.ok none) s
  | added (document : T) : task.mutation = .add document →
      s.documentIds (idOf document) = none → s.nextDocId ≠ maxDocId →
      task.fault.throws s.snapshots.indexes.length = false →
      TaskCase ops idOf s task (.ok (some ⟨s.nextDocId, none, some document⟩))
        { s.added document .none with
          documentIds := Function.update s.documentIds (idOf document) (some s.nextDocId) }
  | updated (document oldDocument : T) (docId : ℕ) : task.mutation = .update document →
      s.documentIds (idOf document) = some docId →
      s.snapshots.documents docId = some oldDocument → docId ∈ s.snapshots.activeDocuments →
      task.fault.throws s.snapshots.indexes.length = false →
      TaskCase ops idOf s task (.ok (some ⟨docId, some oldDocument, some document⟩))
        (s.updated docId oldDocument document .none)
  | removed (id : K) (document : T) (docId : ℕ) : task.mutation = .remove id →
      s.documentIds id = some docId → s.snapshots.documents docId = some document →
      docId ∈ s.snapshots.activeDocuments →
      task.fault.throws s.snapshots.indexes.length = false →
      TaskCase ops idOf s task (.ok (some ⟨docId, some document, none⟩))
        { s with
          snapshots :=
            { s.snapshots with
              documents := Function.update s.snapshots.documents docId none
              activeDocuments := s.snapshots.activeDocuments.erase docId
              indexes := s.unindexed docId document .none }
          documentIds := Function.update s.documentIds id none }
  | addThrew (document : T) : task.mutation = .add document →
      s.documentIds (idOf document) = none → throwsInIndex ops idOf s task = true →
      TaskCase ops idOf s task (.error (.callback task.fault.thrown)) (s.added document task.fault)
  | updateThrew (document oldDocument : T) (docId : ℕ) : task.mutation = .update document →
      s.documentIds (idOf document) = some docId →
      s.snapshots.documents docId = some oldDocument → docId ∈ s.snapshots.activeDocuments →
      throwsInIndex ops idOf s task = true →
      TaskCase ops idOf s task (.error (.callback task.fault.thrown))
        (s.updated docId oldDocument document task.fault)
  | removeThrew (id : K) (document : T) (docId : ℕ) : task.mutation = .remove id →
      s.documentIds id = some docId → s.snapshots.documents docId = some document →
      docId ∈ s.snapshots.activeDocuments → throwsInIndex ops idOf s task = true →
      TaskCase ops idOf s task (.error (.callback task.fault.thrown))
        { s with
          snapshots := { s.snapshots with indexes := s.unindexed docId document task.fault }
          documentIds := Function.update s.documentIds id none }

omit [DecidableEq K] in
theorem throwsInIndex_of_throws {f : Bool} (hfault : task.fault.throws s.snapshots.indexes.length = f)
    (hreach : match task.mutation with
      | .add document => s.documentIds (idOf document) = none ∧ s.nextDocId ≠ maxDocId
      | .update document => (s.documentIds (idOf document)).isSome
      | .remove id => (s.documentIds id).isSome) :
    throwsInIndex ops idOf s task = f := by
  unfold throwsInIndex
  subst hfault
  cases hf : task.fault with
  | none => rfl
  | preparing thrown => rfl
  | index k thrown =>
    cases hm : task.mutation with
    | add document => simp [hm] at hreach; simp [Fault.throws, hreach]
    | update document => simp [hm] at hreach; simp [Fault.throws, hreach]
    | remove id => simp [hm] at hreach; simp [Fault.throws, hreach]

theorem forEachBuilder_fault {Builder : Type} (torn apply : Builder → Builder) {fault : Fault}
    {bs : List Builder} (h : fault.throws bs.length = false) :
    (forEachBuilder torn apply fault.position bs).1 =
      (forEachBuilder torn apply Fault.none.position bs).1 := by
  rw [forEachBuilder_fst torn apply h, forEachBuilder_fst torn apply rfl]

/-- One task falls under one of the cases. -/
theorem applyTask_cases (idOf : T → K) (task : MutationTask K T) (hwf : s.WellFormed) :
    TaskCase ops idOf s task (applyTask ops idOf s task).1 (applyTask ops idOf s task).2 := by
  unfold applyTask
  split
  · rename_i thrown hp
    exact .refused _ (by simp [throwsInIndex, hp])
  cases hm : task.mutation with
  | add document =>
    simp only [BatchState.add]
    split
    · rename_i hsome
      refine .refused _ ?_
      unfold throwsInIndex
      cases task.fault <;> simp [hm, Option.isSome_iff_ne_none.mp hsome]
    rename_i hnone
    have hnone : s.documentIds (idOf document) = none := by simpa using hnone
    split
    · rename_i hmax
      refine .refused _ ?_
      unfold throwsInIndex
      cases task.fault <;> simp [hm, hmax]
    rename_i hmax
    simp only [snapshotAdd, if_neg hwf.next_notMem, forEachBuilder_snd]
    cases ht : task.fault.throws s.snapshots.indexes.length with
    | true =>
      exact .addThrew document hm hnone (throwsInIndex_of_throws ht (by simp [hm, hnone, hmax]))
    | false =>
      have hcase : TaskCase ops idOf s task _ _ := .added document hm hnone hmax ht
      simpa [BatchState.added, forEachBuilder_fault _ _ ht] using hcase
  | update document =>
    simp only [BatchState.update]
    cases hid : s.documentIds (idOf document) with
    | none =>
      refine .refused _ ?_
      unfold throwsInIndex
      cases task.fault <;> simp [hm, hid]
    | some docId =>
      obtain ⟨t, ht, hactive⟩ := WellFormed.get hwf hid
      have hget : s.snapshots.get docId = some t := by
        simp [SearchSnapshotBuilder.get, hactive, ht]
      simp only [snapshotUpdate, hget, forEachBuilder_snd]
      cases hf : task.fault.throws s.snapshots.indexes.length with
      | true =>
        exact .updateThrew document t docId hm hid ht hactive
          (throwsInIndex_of_throws hf (by simp [hm, hid]))
      | false =>
        have hcase : TaskCase ops idOf s task _ _ := .updated document t docId hm hid ht hactive hf
        simpa [BatchState.updated, forEachBuilder_fault _ _ hf, Except.map] using hcase
  | remove id =>
    simp only [BatchState.remove]
    cases hid : s.documentIds id with
    | none => exact .absent id hm hid
    | some docId =>
      obtain ⟨t, ht, hactive⟩ := WellFormed.get hwf hid
      have hget : s.snapshots.get docId = some t := by
        simp [SearchSnapshotBuilder.get, hactive, ht]
      simp only [hget, snapshotRemove, hactive, not_true_eq_false, if_false, ht,
        forEachBuilder_snd]
      cases hf : task.fault.throws s.snapshots.indexes.length with
      | true =>
        exact .removeThrew id t docId hm hid ht hactive
          (throwsInIndex_of_throws hf (by simp [hm, hid]))
      | false =>
        have hcase : TaskCase ops idOf s task _ _ := .removed id t docId hm hid ht hactive hf
        simpa [BatchState.unindexed, forEachBuilder_fault _ _ hf, Except.map] using hcase

/-- Every task keeps the state well-formed, also one that throws behind a change. -/
theorem applyTask_wellFormed (hwf : s.WellFormed) : (applyTask ops idOf s task).2.WellFormed := by
  have hstep := applyTask_cases idOf task hwf
  generalize (applyTask ops idOf s task).1 = r at hstep
  generalize (applyTask ops idOf s task).2 = s' at hstep
  cases hstep with
  | refused => exact hwf
  | absent => exact hwf
  | added document _ hnone =>
    refine ⟨fun id d h => ?_, fun id id' d h h' => ?_, fun d h => ?_⟩
    · simp only [Function.update_apply] at h
      split at h
      · cases h; simp [BatchState.added]
      · obtain ⟨ha, hs⟩ := hwf.stored id d h
        refine ⟨Finset.mem_insert_of_mem ha, ?_⟩
        simp only [BatchState.added, Function.update_apply]
        split <;> simp [hs]
    · have hne : ∀ i, s.documentIds i = some s.nextDocId → False := fun i hi =>
        hwf.next_notMem (hwf.stored i _ hi).1
      simp only [Function.update_apply] at h h'
      split at h <;> split at h'
      · simp_all
      · cases h; exact (hne _ h').elim
      · cases h'; exact (hne _ h).elim
      · exact hwf.injective id id' d h h'
    · rcases Finset.mem_insert.mp h with rfl | h
      · exact Nat.lt_succ_self _
      · exact Nat.lt_succ_of_lt (hwf.fresh d h)
  | updated document oldDocument docId =>
    refine ⟨fun id d h => ?_, hwf.injective, hwf.fresh⟩
    obtain ⟨ha, hs⟩ := hwf.stored id d h
    refine ⟨ha, ?_⟩
    simp only [BatchState.updated, Function.update_apply]
    split <;> simp [hs]
  | removed id document docId _ hid =>
    refine ⟨fun i d h => ?_, fun i i' d h h' => ?_, fun d h => ?_⟩
    · simp only [Function.update_apply] at h
      split at h
      · cases h
      rename_i hne
      obtain ⟨ha, hs⟩ := hwf.stored i d h
      have hd : d ≠ docId := fun hd => hne (hwf.injective i id d h (hd ▸ hid))
      exact ⟨Finset.mem_erase.mpr ⟨hd, ha⟩, by simpa [Function.update_apply, hd] using hs⟩
    · simp only [Function.update_apply] at h h'
      split at h <;> split at h' <;> first | cases h | cases h' | skip
      exact hwf.injective i i' d h h'
    · exact hwf.fresh d (Finset.mem_of_mem_erase h)
  | addThrew document _ hnone =>
    refine ⟨fun id d h => ?_, hwf.injective, fun d h => ?_⟩
    · obtain ⟨ha, hs⟩ := hwf.stored id d h
      refine ⟨Finset.mem_insert_of_mem ha, ?_⟩
      simp only [BatchState.added, Function.update_apply]
      split <;> simp [hs]
    · rcases Finset.mem_insert.mp h with rfl | h
      · exact Nat.lt_succ_self _
      · exact Nat.lt_succ_of_lt (hwf.fresh d h)
  | updateThrew document oldDocument docId =>
    refine ⟨fun id d h => ?_, hwf.injective, hwf.fresh⟩
    obtain ⟨ha, hs⟩ := hwf.stored id d h
    refine ⟨ha, ?_⟩
    simp only [BatchState.updated, Function.update_apply]
    split <;> simp [hs]
  | removeThrew id document docId =>
    refine ⟨fun i d h => ?_, fun i i' d h h' => ?_, hwf.fresh⟩
    · simp only [Function.update_apply] at h
      split at h
      · cases h
      · exact hwf.stored i d h
    · simp only [Function.update_apply] at h h'
      split at h <;> split at h' <;> first | cases h | cases h' | skip
      exact hwf.injective i i' d h h'

/-- A task that fails without throwing in an index leaves the state as it was. -/
theorem applyTask_error (hwf : s.WellFormed) (ht : throwsInIndex ops idOf s task = false)
    {e : MutationFailure K} (he : (applyTask ops idOf s task).1 = .error e) :
    (applyTask ops idOf s task).2 = s := by
  have hstep := applyTask_cases idOf task hwf
  rw [he] at hstep
  generalize (applyTask ops idOf s task).2 = s' at hstep
  cases hstep with
  | refused => rfl
  | addThrew _ _ _ h => rw [ht] at h; cases h
  | updateThrew _ _ _ _ _ _ _ h => rw [ht] at h; cases h
  | removeThrew _ _ _ _ _ _ _ h => rw [ht] at h; cases h

/-- A task that succeeds does the same when its callbacks cannot throw. -/
theorem applyTask_quiet (hwf : s.WellFormed) {change : Option (IndexChange T)}
    (hok : (applyTask ops idOf s task).1 = .ok change) :
    applyTask ops idOf s task.quiet = applyTask ops idOf s task := by
  have hstep := applyTask_cases idOf task hwf
  have hpair : applyTask ops idOf s task = (.ok change, (applyTask ops idOf s task).2) :=
    Prod.ext hok rfl
  rw [hok] at hstep
  generalize (applyTask ops idOf s task).2 = s' at hstep hpair
  rw [hpair]
  cases hstep with
  | absent id hm hid =>
    simp [applyTask, hm, BatchState.remove, hid, MutationTask.quiet]
  | added document hm hnone hmax hf =>
    simp [applyTask, hm, BatchState.add, hnone, hmax, snapshotAdd, hwf.next_notMem,
      BatchState.added, MutationTask.quiet, Fault.position]
  | updated document oldDocument docId hm hid ht ha hf =>
    simp [applyTask, hm, BatchState.update, hid, snapshotUpdate, SearchSnapshotBuilder.get, ha,
      ht, BatchState.updated, MutationTask.quiet, Fault.position, Except.map]
  | removed id document docId hm hid ht ha hf =>
    simp [applyTask, hm, BatchState.remove, hid, snapshotRemove, SearchSnapshotBuilder.get, ha,
      ht, BatchState.unindexed, MutationTask.quiet, Fault.position, Except.map]

/-! ### The batch -/

/-- Without an exception in an index, the tasks that succeed lead to the same batch state alone, and
every one of them succeeds again. -/
theorem applyAll_successful (hwf : s.WellFormed) {batch : List (MutationTask K T)}
    (ht : someThrow ops idOf (fun _ => true) s batch = false) :
    (applyAll ops idOf s ((successful batch (applyAll ops idOf s batch).1).map
        MutationTask.quiet)).2 = (applyAll ops idOf s batch).2 ∧
      successful ((successful batch (applyAll ops idOf s batch).1).map MutationTask.quiet)
        (applyAll ops idOf s ((successful batch (applyAll ops idOf s batch).1).map
          MutationTask.quiet)).1 =
        (successful batch (applyAll ops idOf s batch).1).map MutationTask.quiet := by
  induction batch generalizing s with
  | nil => exact ⟨rfl, rfl⟩
  | cons task rest ih =>
    simp only [someThrow, Bool.true_and, Bool.or_eq_false_iff] at ht
    simp only [applyAll]
    cases hr : (applyTask ops idOf s task).1 with
    | error e =>
      have hs := applyTask_error hwf ht.1 hr
      simp only [successful, hs]
      exact ih hwf (hs ▸ ht.2)
    | ok change =>
      obtain ⟨h1, h2⟩ := ih (applyTask_wellFormed hwf) ht.2
      simp only [successful, List.map_cons, applyAll, applyTask_quiet hwf hr, hr, h1, h2,
        and_self]

/-- An active document that no key names. -/
def BatchState.Ghost {Builder : Type} (s : BatchState K T Builder) (d : ℕ) : Prop :=
  d ∈ s.snapshots.activeDocuments ∧ ∀ id, s.documentIds id ≠ some d

/-- No task makes a document without a key reachable again. -/
theorem applyTask_ghost (hwf : s.WellFormed) {d : ℕ} (hg : s.Ghost d) :
    (applyTask ops idOf s task).2.Ghost d := by
  have hstep := applyTask_cases idOf task hwf
  generalize (applyTask ops idOf s task).1 = r at hstep
  generalize (applyTask ops idOf s task).2 = s' at hstep
  cases hstep with
  | refused => exact hg
  | absent => exact hg
  | added document =>
    have hd : s.nextDocId ≠ d := fun h => hwf.next_notMem (h ▸ hg.1)
    refine ⟨Finset.mem_insert_of_mem hg.1, fun id => ?_⟩
    simp only [Function.update_apply]
    split
    · simpa using hd
    · exact hg.2 id
  | updated => exact hg
  | removed id document docId _ hid =>
    have hd : d ≠ docId := fun h => hg.2 id (h ▸ hid)
    refine ⟨Finset.mem_erase.mpr ⟨hd, hg.1⟩, fun i => ?_⟩
    simp only [Function.update_apply]
    split
    · simp
    · exact hg.2 i
  | addThrew document => exact ⟨Finset.mem_insert_of_mem hg.1, hg.2⟩
  | updateThrew => exact hg
  | removeThrew id document docId =>
    refine ⟨hg.1, fun i => ?_⟩
    simp only [Function.update_apply]
    split
    · simp
    · exact hg.2 i

theorem applyAll_ghost (hwf : s.WellFormed) {d : ℕ} (hg : s.Ghost d)
    (batch : List (MutationTask K T)) : (applyAll ops idOf s batch).2.Ghost d := by
  induction batch generalizing s with
  | nil => exact hg
  | cons task rest ih => exact ih (applyTask_wellFormed hwf) (applyTask_ghost hwf hg)

/-- A throwing addition or removal leaves a document without a key that was not there before. -/
theorem applyTask_throws_ghost (hwf : s.WellFormed) (ht : throwsInIndex ops idOf s task = true)
    (hu : task.mutation.isUpdate = false) :
    ∃ d, ¬ s.Ghost d ∧ (applyTask ops idOf s task).2.Ghost d := by
  have hstep := applyTask_cases idOf task hwf
  generalize (applyTask ops idOf s task).1 = r at hstep
  generalize (applyTask ops idOf s task).2 = s' at hstep
  have hquiet : task.fault.throws s.snapshots.indexes.length = false →
      throwsInIndex ops idOf s task = false := by
    intro hf
    unfold throwsInIndex
    cases hfault : task.fault <;> simp_all [Fault.throws]
  cases hstep with
  | refused _ h => rw [ht] at h; cases h
  | absent id hm hid =>
    unfold throwsInIndex at ht
    cases hfault : task.fault <;> simp [hfault, hm, hid] at ht
  | added _ _ _ _ hf => rw [hquiet hf] at ht; cases ht
  | updated document oldDocument docId hm => simp [hm, SearchMutation.isUpdate] at hu
  | removed _ _ _ _ _ _ _ hf => rw [hquiet hf] at ht; cases ht
  | addThrew document =>
    refine ⟨s.nextDocId, fun h => hwf.next_notMem h.1, Finset.mem_insert_self _ _, fun id h => ?_⟩
    exact hwf.next_notMem (hwf.stored id _ h).1
  | updateThrew document oldDocument docId hm => simp [hm, SearchMutation.isUpdate] at hu
  | removeThrew id document docId hm hid ht' hactive =>
    refine ⟨docId, fun h => h.2 id hid, hactive, fun i => ?_⟩
    simp only [Function.update_apply]
    split
    · simp
    · rename_i hne
      exact fun h => hne (hwf.injective i id docId h hid)

/-- A task that does not throw in an index leaves no document without a key. -/
theorem applyTask_noThrow_ghost (hwf : s.WellFormed)
    (ht : throwsInIndex ops idOf s task = false) {d : ℕ}
    (hg : (applyTask ops idOf s task).2.Ghost d) : s.Ghost d := by
  have hstep := applyTask_cases idOf task hwf
  generalize (applyTask ops idOf s task).1 = r at hstep
  generalize (applyTask ops idOf s task).2 = s' at hstep hg
  cases hstep with
  | refused => exact hg
  | absent => exact hg
  | added document _ hnone =>
    have hd : d ≠ s.nextDocId := by
      rintro rfl
      exact hg.2 (idOf document) (by simp)
    refine ⟨(Finset.mem_insert.mp hg.1).resolve_left hd, fun id h => ?_⟩
    by_cases hid : id = idOf document
    · rw [hid, hnone] at h; cases h
    · exact hg.2 id (by simpa [Function.update_apply, hid] using h)
  | updated => exact hg
  | removed id document docId _ hid =>
    obtain ⟨hd, ha⟩ := Finset.mem_erase.mp hg.1
    refine ⟨ha, fun i h => ?_⟩
    by_cases hi : i = id
    · rw [hi, hid] at h; cases h; exact hd rfl
    · exact hg.2 i (by simpa [Function.update_apply, hi] using h)
  | addThrew _ _ _ h => rw [ht] at h; cases h
  | updateThrew _ _ _ _ _ _ _ h => rw [ht] at h; cases h
  | removeThrew _ _ _ _ _ _ _ h => rw [ht] at h; cases h

/-- Tasks whose callbacks return leave no document without a key. -/
theorem applyAll_quiet_ghost (hwf : s.WellFormed) {d : ℕ} (batch : List (MutationTask K T))
    (hg : (applyAll ops idOf s (batch.map MutationTask.quiet)).2.Ghost d) : s.Ghost d := by
  induction batch generalizing s with
  | nil => exact hg
  | cons task rest ih =>
    exact applyTask_noThrow_ghost hwf (by simp [throwsInIndex, MutationTask.quiet])
      (ih (applyTask_wellFormed hwf) hg)

/-- A throwing addition or removal anywhere in the batch leaves such a document at its end. -/
theorem applyAll_throws_ghost (hwf : s.WellFormed) {batch : List (MutationTask K T)}
    (ht : someThrow ops idOf (fun m => !m.isUpdate) s batch = true) :
    ∃ d, ¬ s.Ghost d ∧ (applyAll ops idOf s batch).2.Ghost d := by
  induction batch generalizing s with
  | nil => simp [someThrow] at ht
  | cons task rest ih =>
    rw [someThrow, Bool.or_eq_true, Bool.and_eq_true] at ht
    rcases ht with ⟨hu, ht⟩ | ht
    · obtain ⟨d, hnew, hg⟩ := applyTask_throws_ghost hwf ht (by simpa using hu)
      exact ⟨d, hnew, applyAll_ghost (applyTask_wellFormed hwf) hg rest⟩
    · obtain ⟨d, hnew, hg⟩ := ih (applyTask_wellFormed hwf) ht
      exact ⟨d, fun h => hnew (applyTask_ghost hwf h), hg⟩

omit [DecidableEq K] in
theorem PublishedState.WellFormed.batch {current : PublishedState K T ops.Index}
    (hwf : current.WellFormed) : (BatchState.ofPublished ops current).WellFormed := hwf

section

variable {builder : SearchSnapshotBuilder T ops.Builder} {docId : ℕ} {document : T} {fault : Fault}
  {thrown : Thrown}

omit [DecidableEq K] in
theorem snapshotAdd_thrown (h : (snapshotAdd ops builder docId document fault :
    Attempt K _ Unit).1 = .error (.callback thrown)) : fault.thrown = thrown := by
  unfold snapshotAdd at h
  split at h
  · cases h
  · dsimp only at h
    split at h
    · cases h
      rfl
    · cases h

omit [DecidableEq K] in
theorem snapshotUpdate_thrown (h : (snapshotUpdate ops builder docId document fault :
    Attempt K _ Unit).1 = .error (.callback thrown)) : fault.thrown = thrown := by
  unfold snapshotUpdate at h
  split at h
  · cases h
  · dsimp only at h
    split at h
    · cases h
      rfl
    · cases h

omit [DecidableEq K] in
theorem snapshotRemove_thrown (h : (snapshotRemove ops builder docId fault :
    Attempt K _ Unit).1 = .error (.callback thrown)) : fault.thrown = thrown := by
  unfold snapshotRemove at h
  split at h
  · cases h
  split at h
  · cases h
  · dsimp only at h
    split at h
    · cases h
      rfl
    · cases h

omit [DecidableEq K] in
theorem map_error {α β : Type} {f : α → β} {result : Except (MutationFailure K) α}
    {e : MutationFailure K} (h : result.map f = .error e) : result = .error e := by
  cases result with
  | error e' => exact congrArg _ (Except.error.inj h)
  | ok a => cases h

/-- A callback's throwable is the one of its task. -/
theorem applyTask_thrown (h : (applyTask ops idOf s task).1 = .error (.callback thrown)) :
    task.fault.thrown = thrown := by
  unfold applyTask at h
  split at h
  · rename_i hfault
    cases h
    rw [hfault, Fault.thrown]
  cases hm : task.mutation with
  | add document =>
    simp only [hm, BatchState.add] at h
    split at h
    · cases h
    split at h
    · cases h
    split at h
    · rename_i hadd
      cases h
      exact snapshotAdd_thrown hadd
    · cases h
  | update document =>
    simp only [hm, BatchState.update] at h
    split at h
    · cases h
    split at h
    · cases h
    · exact snapshotUpdate_thrown (map_error h)
  | remove id =>
    simp only [hm, BatchState.remove] at h
    split at h
    · cases h
    split at h
    · cases h
    · exact snapshotRemove_thrown (map_error h)

end

/-- Tasks whose callbacks return throw no `Error`. -/
theorem applyAll_quiet_erred (batch : List (MutationTask K T)) :
    erred (applyAll ops idOf s (batch.map MutationTask.quiet)).1 = false := by
  induction batch generalizing s with
  | nil => rfl
  | cons task rest ih =>
    rw [List.map_cons, applyAll, erred, List.any_cons, ← erred, ih, Bool.or_false]
    split
    · rename_i hthrown
      cases applyTask_thrown hthrown
    · rfl

/-- When a failed mutation of a batch leaves no trace: the published state is the one of the
mutations that complete normally if no mutation throws in an index builder, if every mutation
fails, if the commit is refused, or if an `Error` stops the writer; and once an addition or a
removal throws in an index builder of a batch that is published, it is not. -/
theorem processBatch_noTrace {current : PublishedState K T ops.Index} (hwf : current.WellFormed)
    (batch : List (MutationTask K T)) (commit : CommitResult) :
    ((someThrow ops idOf (fun _ => true) (.ofPublished ops current) batch = false ∨
        successful batch (applyAll ops idOf (.ofPublished ops current) batch).1 = [] ∨
        commit ≠ .committed ∨
        erred (applyAll ops idOf (.ofPublished ops current) batch).1 = true) →
          LeavesNoTrace ops idOf current batch commit) ∧
      (someThrow ops idOf (fun m => !m.isUpdate) (.ofPublished ops current) batch = true →
        successful batch (applyAll ops idOf (.ofPublished ops current) batch).1 ≠ [] →
        commit = .committed →
        erred (applyAll ops idOf (.ofPublished ops current) batch).1 = false →
          ¬ LeavesNoTrace ops idOf current batch commit) := by
  have hempty : ∀ {stopped}, processBatch ops idOf current batch commit =
      ⟨current, [], [], stopped⟩ → LeavesNoTrace ops idOf current batch commit := by
    intro stopped h
    unfold LeavesNoTrace
    rw [h]
    rfl
  constructor
  · intro h
    by_cases herred : erred (applyAll ops idOf (.ofPublished ops current) batch).1 = true
    · exact hempty (if_pos herred)
    by_cases hok : successful batch (applyAll ops idOf (.ofPublished ops current) batch).1 = []
    · exact hempty ((if_neg herred).trans (if_pos hok))
    cases commit with
    | capacityExceeded => exact hempty ((if_neg herred).trans (if_neg hok))
    | terminal => exact hempty ((if_neg herred).trans (if_neg hok))
    | committed =>
      have ht := h.resolve_right (by simp [hok, herred])
      obtain ⟨h1, h2⟩ := applyAll_successful hwf.batch ht
      unfold LeavesNoTrace
      simp only [processBatch, herred, hok, if_false, applyAll_quiet_erred, Bool.false_eq_true, h2,
        List.map_eq_nil_iff, h1]
  · rintro ht hok rfl herred heq
    obtain ⟨d, hnew, hg⟩ := applyAll_throws_ghost hwf.batch ht
    apply hnew
    unfold LeavesNoTrace at heq
    simp only [processBatch, herred, hok, if_false, Bool.false_eq_true, applyAll_quiet_erred] at heq
    split at heq
    · have ha := congrArg (fun s => s.snapshot.activeDocuments) heq
      have hi := congrArg PublishedState.documentIds heq
      exact ⟨ha.subset hg.1, fun id h => hg.2 id ((congrFun hi id).trans h)⟩
    · have ha := congrArg (fun s => s.snapshot.activeDocuments) heq
      have hi := congrArg PublishedState.documentIds heq
      exact applyAll_quiet_ghost hwf.batch _
        ⟨ha.subset hg.1, fun id h => hg.2 id ((congrFun hi id).trans h)⟩

end

/-! ### One batch with a failing addition -/

/-- An engine of numbers, each its own key and its own indexed value, with one equality index. -/
def numberOps : IndexOps ℕ := Index.equalityOps ℕ Unit ℕ fun _ t => some t

/-- The engine before its first mutation. -/
def numberEngine : PublishedState ℕ ℕ numberOps.Index where
  snapshot := ⟨fun _ => none, ∅, [numberOps.createEmpty () ()], 0⟩
  documentIds := fun _ => none
  nextDocId := 0

/-- The extractor throws for 7 in the index, and 8 is added normally. -/
def failingBatch : List (MutationTask ℕ ℕ) := [⟨.add 7, .index 0 .exception⟩, ⟨.add 8, .none⟩]

theorem numberEngine_wellFormed : numberEngine.WellFormed :=
  ⟨nofun, nofun, by simp [numberEngine]⟩

/-- Document 7 is reported as failed and published as document 0. -/
theorem processBatch_leaves_trace :
    ¬ LeavesNoTrace numberOps id numberEngine failingBatch .committed := by
  intro h
  have hactive := congrArg (fun s => s.snapshot.activeDocuments) h
  revert hactive
  decide

theorem processBatch_noTrace_number :
    LeavesNoTrace numberOps id numberEngine [⟨.update 7, .index 0 .exception⟩, ⟨.add 8, .none⟩]
        .committed ∧
      ¬ LeavesNoTrace numberOps id numberEngine failingBatch .committed :=
  ⟨(processBatch_noTrace numberEngine_wellFormed _ _).1 (.inl (by decide)),
    (processBatch_noTrace numberEngine_wellFormed _ _).2 (by decide) (by decide) rfl (by decide)⟩

end GeneralSearch.Engine
