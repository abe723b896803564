import GeneralSearch.Replica.Application

/-! The two engines of `ReplicaApplication` over whole runs: the published one holds the published
operations, the other one is one operation ahead or one behind, and a preparation that is refused
is forgotten, but for the build ids it has used, unless it has stopped the writer of its engine. -/

namespace GeneralSearch.Replica

open GeneralSearch.Storage
open GeneralSearch.Engine

section

variable {K T : Type} [DecidableEq K] {ops : IndexOps T} (setup : ApplicationSetup K ops)

/-! ### What an operation makes of a published state -/

/-- An engine between two operations. -/
def idle (current : PublishedState K T ops.Index) (buildId : ℕ) : EngineState K ops :=
  { EngineState.start current with nextIndexBuildId := buildId }

/-- An engine between two operations, or one that has stopped. -/
def resting (current : PublishedState K T ops.Index) (accepting : Bool) (buildId : ℕ) :
    EngineState K ops :=
  { idle current buildId with accepting }

/-- What an operation makes of a published state when no callback throws. -/
def effect (operation : ApplicationOperation K ops) (current : PublishedState K T ops.Index) :
    PublishedState K T ops.Index :=
  (apply setup (.quiet K ops) (idle current 0) operation).2.current

/-- What a published operation makes of a published state. -/
def Decoded.effect (current : PublishedState K T ops.Index) :
    Decoded K ops → PublishedState K T ops.Index
  | .control => current
  | .application operation => Replica.effect setup operation current

/-- The outcome of a batch of one task. -/
def singleOutcome (callbacks : Callbacks K ops) (current : PublishedState K T ops.Index)
    (mutation : SearchMutation K T) :
    Except (ApplicationFailure K) (PublishedState K T ops.Index) :=
  match applyTask ops setup.idOf (.ofPublished ops current)
      ⟨mutation, callbacks.fault current 0 mutation⟩ with
  | (.ok _, state) =>
    match callbacks.building current [mutation] with
    | some thrown => .error (.engine (.callback thrown))
    | none => .ok (state.build ops)
  | (.error e, _) => .error (.engine (.mutation e))

/-- An `Error` leaves the batch of one task, or any throwable leaves `state.build()` behind it. -/
def singleStops (callbacks : Callbacks K ops) (current : PublishedState K T ops.Index)
    (mutation : SearchMutation K T) : Bool :=
  match (applyTask ops setup.idOf (.ofPublished ops current)
      ⟨mutation, callbacks.fault current 0 mutation⟩).1 with
  | .ok _ => (callbacks.building current [mutation]).isSome
  | .error e => (ControlFailure.mutation e).isError

/-- The outcome of a bulk mutation. -/
def bulkOutcome (callbacks : Callbacks K ops) (current : PublishedState K T ops.Index)
    (mutations : List (SearchMutation K T)) :
    Except (ApplicationFailure K) (PublishedState K T ops.Index) :=
  if mutations.isEmpty then .ok current
  else if setup.maxBatchSize < mutations.length then .error .tooLarge
  else match bulkIds setup.idOf [] (tasks callbacks current mutations) with
  | .error e => .error (.engine e)
  | .ok _ => match applyBulk ops setup.idOf (.ofPublished ops current)
      (tasks callbacks current mutations) with
    | .error e => .error (.engine e)
    | .ok (_, state) =>
      match callbacks.building current mutations with
      | some thrown => .error (.engine (.callback thrown))
      | none => .ok (state.build ops)

/-- An `Error` leaves the bulk. -/
def bulkStops (callbacks : Callbacks K ops) (current : PublishedState K T ops.Index)
    (mutations : List (SearchMutation K T)) : Bool :=
  if mutations.isEmpty then false
  else if setup.maxBatchSize < mutations.length then false
  else match bulkIds setup.idOf [] (tasks callbacks current mutations) with
  | .error e => e.isError
  | .ok _ => match applyBulk ops setup.idOf (.ofPublished ops current)
      (tasks callbacks current mutations) with
    | .error e => e.isError
    | .ok _ => callbacks.building current mutations = some .error

/-- The index that a build installs when nothing was published meanwhile. -/
def builtIndex (current : PublishedState K T ops.Index) (field : ops.Field)
    (indexType : ops.Kind) : ops.Index :=
  ops.build (ops.toBuilder (buildIndex ops current.snapshot (ops.createEmpty field indexType)))

/-- The creation of the index gets as far as the id of its build. -/
def startsBuild (current : PublishedState K T ops.Index) (field : ops.Field)
    (indexType : ops.Kind) : Bool :=
  setup.registered field && !registryContains ops current.snapshot.indexes field
    (ops.kind (ops.createEmpty field indexType))

/-- The outcome of a creation for which there is a build id. -/
def createOutcome (callbacks : Callbacks K ops) (current : PublishedState K T ops.Index)
    (field : ops.Field) (indexType : ops.Kind) :
    Except (ApplicationFailure K) (PublishedState K T ops.Index) :=
  let index := builtIndex current field indexType
  if setup.registered field = false then .error (.engine .unregisteredIndexField)
  else if startsBuild setup current field indexType = false then .error (.engine .alreadyExists)
  else if callbacks.rejects current field = true then .error (.engine .rejectedExecution)
  else if callbacks.buildFails current field indexType = true ∨
      (callbacks.replayThrows current field indexType).isSome = true ∨
      registryContains ops current.snapshot.indexes (ops.field index) (ops.kind index) = true then
    .error (.engine (.callback (installThrows callbacks current field indexType)))
  else .ok { current with
    snapshot := current.snapshot.withIndexes (current.snapshot.indexes ++ [index]) }

/-- An `Error` leaves the installation of the index. -/
def createStops (callbacks : Callbacks K ops) (current : PublishedState K T ops.Index)
    (field : ops.Field) (indexType : ops.Kind) : Bool :=
  startsBuild setup current field indexType && !callbacks.rejects current field &&
    !callbacks.buildFails current field indexType &&
    decide (callbacks.replayThrows current field indexType = some .error)

def dropOutcome (current : PublishedState K T ops.Index) (field : ops.Field) :
    Except (ApplicationFailure K) (PublishedState K T ops.Index) :=
  let indexes := withoutIndexes ops current.snapshot.indexes field
  if setup.registered field = false then .error (.engine .unregisteredIndexField)
  else .ok { current with
    snapshot := if indexes.length = current.snapshot.indexes.length then current.snapshot
      else current.snapshot.withIndexes indexes }

/-- The outcome of an operation, apart from the engine's counter of builds. -/
def outcome (callbacks : Callbacks K ops) (current : PublishedState K T ops.Index) :
    ApplicationOperation K ops → Except (ApplicationFailure K) (PublishedState K T ops.Index)
  | .add document => singleOutcome setup callbacks current (.add document)
  | .update document => singleOutcome setup callbacks current (.update document)
  | .remove key => singleOutcome setup callbacks current (.remove key)
  | .addAll documents => bulkOutcome setup callbacks current (documents.map .add)
  | .updateAll documents => bulkOutcome setup callbacks current (documents.map .update)
  | .removeAll keys => bulkOutcome setup callbacks current (keys.map .remove)
  | .indexCreate field indexType => createOutcome setup callbacks current field indexType
  | .indexDrop field => dropOutcome setup current field

/-- The operation is left by what its engine does not survive. -/
def stopsWriter (callbacks : Callbacks K ops) (current : PublishedState K T ops.Index) :
    ApplicationOperation K ops → Bool
  | .add document => singleStops setup callbacks current (.add document)
  | .update document => singleStops setup callbacks current (.update document)
  | .remove key => singleStops setup callbacks current (.remove key)
  | .addAll documents => bulkStops setup callbacks current (documents.map .add)
  | .updateAll documents => bulkStops setup callbacks current (documents.map .update)
  | .removeAll keys => bulkStops setup callbacks current (keys.map .remove)
  | .indexCreate field indexType => createStops setup callbacks current field indexType
  | .indexDrop _ => false

/-- An operation needs the id of an index build. -/
def usesBuildId (current : PublishedState K T ops.Index) : ApplicationOperation K ops → Bool
  | .indexCreate field indexType => startsBuild setup current field indexType
  | _ => false

/-- What an outcome is on an engine. -/
def answer (current : PublishedState K T ops.Index) (buildId : ℕ) (stops : Bool) :
    Except (ApplicationFailure K) (PublishedState K T ops.Index) → Applied K ops
  | .ok published => (.ok (), idle published buildId)
  | .error e => (.error e, resting current (!stops) buildId)

end

section

variable {K T : Type} [DecidableEq K] {ops : IndexOps T} {setup : ApplicationSetup K ops}
  {callbacks : Callbacks K ops} {current : PublishedState K T ops.Index} {n : ℕ}

omit [DecidableEq K] in
theorem idle_failed (e : ControlFailure K) :
    (idle current n : EngineState K ops).failed e = resting current (!e.isError) n := by
  unfold EngineState.failed
  cases e.isError <;> rfl

omit [DecidableEq K] in
theorem erred_single {e : MutationFailure K} :
    erred [(.error e : Except (MutationFailure K) (Option (IndexChange T)))] =
      (ControlFailure.mutation e).isError := by
  cases e with
  | callback thrown => cases thrown <;> rfl
  | _ => rfl

theorem applySingle_idle (mutation : SearchMutation K T) :
    applySingle setup callbacks (idle current n) mutation =
      answer current n (singleStops setup callbacks current mutation)
        (singleOutcome setup callbacks current mutation) := by
  have hcurrent : (idle current n : EngineState K ops).current = current := rfl
  have haccepting : ¬ (idle current n : EngineState K ops).accepting = false := nofun
  unfold applySingle singleOutcome singleStops
  rw [if_neg haccepting]
  simp only [EngineState.batch, processBatch, applyAll, hcurrent]
  generalize (⟨mutation, callbacks.fault current 0 mutation⟩ : MutationTask K T) = task
  obtain ⟨result, state, happly⟩ : ∃ result state,
      applyTask ops setup.idOf (.ofPublished ops current) task = (result, state) := ⟨_, _, rfl⟩
  cases result with
  | error e =>
    simp only [happly, successful, erred_single, answer]
    cases (ControlFailure.mutation e).isError <;> rfl
  | ok change =>
    simp only [happly]
    cases callbacks.building current [mutation] with
    | some thrown => rfl
    | none => rfl

theorem applyAllOf_idle (mutations : List (SearchMutation K T)) :
    applyAllOf setup callbacks (idle current n) mutations =
      answer current n (bulkStops setup callbacks current mutations)
        (bulkOutcome setup callbacks current mutations) := by
  have hcurrent : (idle current n : EngineState K ops).current = current := rfl
  have haccepting : ¬ (idle current n : EngineState K ops).accepting = false := nofun
  unfold applyAllOf bulkOutcome bulkStops
  split
  · rfl
  split
  · rfl
  unfold EngineState.processBulk
  rw [hcurrent]
  cases bulkIds setup.idOf [] (tasks callbacks current mutations) with
  | error e => simp only [answer, idle_failed]
  | ok _ =>
    cases applyBulk ops setup.idOf (.ofPublished ops current)
        (tasks callbacks current mutations) with
    | error e => simp only [answer, idle_failed]
    | ok r =>
      cases callbacks.building current mutations with
      | none => rfl
      | some thrown =>
        simp only [answer, idle_failed]
        cases thrown <;> rfl

omit [DecidableEq K] in
theorem applyIndexDrop_idle (field : ops.Field) :
    applyIndexDrop setup (idle current n) field =
      answer current n false (dropOutcome setup current field) := by
  unfold applyIndexDrop dropOutcome EngineState.processDropIndex
  cases setup.registered field with
  | false => rfl
  | true => rfl

/-- An engine whose executor has one build. -/
def building (current : PublishedState K T ops.Index) (n : ℕ) (field : ops.Field)
    (indexType : ops.Kind) : EngineState K ops :=
  { idle current (n + 1) with
    pendingIndexBuilds := [⟨n, current.snapshot.version, field,
      ops.kind (ops.createEmpty field indexType)⟩]
    executing := [⟨n, current.snapshot, ops.createEmpty field indexType⟩] }

/-- The delivery of the one build. -/
theorem building_install (field : ops.Field) (indexType : ops.Kind) (buildFails : Bool)
    (replayThrows : Option Thrown) :
    ((building current n field indexType).process ops setup.idOf setup.registered
      (.installIndex 0 buildFails replayThrows .committed)) =
    let index := builtIndex current field indexType
    if buildFails = true ∨ replayThrows.isSome = true ∨
        registryContains ops current.snapshot.indexes (ops.field index) (ops.kind index) = true then
      (.failed, resting current (!(!buildFails && decide (replayThrows = some .error))) (n + 1))
    else (.installed ⟨n, current.snapshot.version, field,
        ops.kind (ops.createEmpty field indexType)⟩ index,
      idle { current with
        snapshot := current.snapshot.withIndexes (current.snapshot.indexes ++ [index]) } (n + 1)) := by
  unfold EngineState.process EngineState.processInstallIndex
  cases buildFails with
  | true => simp [building, idle, resting, EngineState.start, EngineState.finish,
      EngineState.pruneMutationJournal]
  | false =>
    cases replayThrows with
    | some thrown =>
      cases thrown with
      | error => simp [building, idle, resting, EngineState.start, EngineState.stopAfterFailure]
      | exception => simp [building, idle, resting, EngineState.start, EngineState.finish,
          EngineState.pruneMutationJournal]
    | none =>
      simp [building, idle, resting, EngineState.start, EngineState.finish,
        EngineState.pruneMutationJournal, caughtUp, behind, builtIndex]

omit [DecidableEq K] in
theorem create_idle (field : ops.Field) (indexType : ops.Kind) (rejected : Bool) :
    (idle current n).processCreateIndex ops setup.registered field indexType true rejected =
      if setup.registered field = false then (.error .unregisteredIndexField, idle current n)
      else if startsBuild setup current field indexType = false then
        (.error .alreadyExists, idle current n)
      else if buildIdLimit ≤ n then (.error .buildIdsExhausted, idle current n)
      else if rejected = true then (.error .rejectedExecution, idle current (n + 1))
      else (.ok (), building current n field indexType) := by
  simp only [EngineState.processCreateIndex, startsBuild, idle, EngineState.start, building,
    EngineState.pruneMutationJournal]
  by_cases hregistered : setup.registered field = true
  · by_cases hcontains : registryContains ops current.snapshot.indexes field
        (ops.kind (ops.createEmpty field indexType)) = true
    · simp [hregistered, hcontains]
    · simp [hregistered, hcontains]
  · simp [hregistered]

theorem applyIndexCreate_idle (field : ops.Field) (indexType : ops.Kind) :
    applyIndexCreate setup callbacks (idle current n) field indexType =
      if startsBuild setup current field indexType = true then
        if buildIdLimit ≤ n then (.error (.engine .buildIdsExhausted), idle current n)
        else answer current (n + 1) (createStops setup callbacks current field indexType)
          (createOutcome setup callbacks current field indexType)
      else answer current n (createStops setup callbacks current field indexType)
        (createOutcome setup callbacks current field indexType) := by
  have hcurrent : (idle current n : EngineState K ops).current = current := rfl
  have hexecuting : (idle current n : EngineState K ops).executing.length = 0 := rfl
  have haccepting : ¬ (idle current n : EngineState K ops).accepting = false := nofun
  have hresting : ∀ m, (resting current true m : EngineState K ops) = idle current m := fun _ => rfl
  unfold applyIndexCreate createOutcome createStops
  rw [if_neg haccepting]
  simp only [create_idle, hcurrent, hexecuting]
  by_cases hregistered : setup.registered field = false
  · simp [startsBuild, hregistered, answer, hresting]
  cases hstarts : startsBuild setup current field indexType with
  | false => simp [hregistered, answer, hresting]
  | true =>
    by_cases hlimit : buildIdLimit ≤ n
    · simp [hregistered, hlimit]
    cases hrejects : callbacks.rejects current field with
    | true => simp [hregistered, hlimit, answer, hresting]
    | false =>
      simp only [hregistered, hlimit, if_false, building_install, Bool.true_eq_false,
        Bool.false_eq_true]
      by_cases hfails : callbacks.buildFails current field indexType = true ∨
          (callbacks.replayThrows current field indexType).isSome = true ∨
          registryContains ops current.snapshot.indexes
            (ops.field (builtIndex current field indexType))
            (ops.kind (builtIndex current field indexType)) = true
      · simp only [if_pos hfails, answer, if_true, Bool.true_and, Bool.not_false]
      · simp only [if_neg hfails, answer, if_true]

/-- What an operation does on an engine between two operations: its outcome does not depend on the
engine's counter of builds, unless there is no build id left. -/
theorem apply_idle (operation : ApplicationOperation K ops) :
    apply setup callbacks (idle current n) operation =
      if usesBuildId setup current operation = true then
        if buildIdLimit ≤ n then (.error (.engine .buildIdsExhausted), idle current n)
        else answer current (n + 1) (stopsWriter setup callbacks current operation)
          (outcome setup callbacks current operation)
      else answer current n (stopsWriter setup callbacks current operation)
        (outcome setup callbacks current operation) := by
  cases operation with
  | add document => exact applySingle_idle _
  | update document => exact applySingle_idle _
  | remove key => exact applySingle_idle _
  | addAll documents => exact applyAllOf_idle _
  | updateAll documents => exact applyAllOf_idle _
  | removeAll keys => exact applyAllOf_idle _
  | indexCreate field indexType => exact applyIndexCreate_idle field indexType
  | indexDrop field => exact applyIndexDrop_idle field

/-! ### Outcomes that no callback spoils -/

omit [DecidableEq K] in
theorem tasks_quiet (mutations : List (SearchMutation K T)) :
    tasks (.quiet K ops) current mutations =
      (tasks callbacks current mutations).map MutationTask.quiet := by
  unfold tasks
  apply List.ext_getElem
  · simp
  · simp [Callbacks.quiet, MutationTask.quiet]

theorem bulkIds_quiet {idOf : T → K} {seen : List K} {batch : List (MutationTask K T)}
    (h : bulkIds idOf seen batch = .ok ()) :
    bulkIds idOf seen (batch.map MutationTask.quiet) = .ok () := by
  induction batch generalizing seen with
  | nil => rfl
  | cons task rest ih =>
    unfold bulkIds at h
    split at h
    · cases h
    split at h
    · cases h
    rename_i hseen
    simp only [List.map_cons, bulkIds, MutationTask.quiet, if_neg hseen]
    exact ih h

theorem applyBulk_quiet {idOf : T → K} {s s' : BatchState K T ops.Builder} (hwf : s.WellFormed)
    {batch : List (MutationTask K T)} {changes : List (IndexChange T)}
    (h : applyBulk ops idOf s batch = .ok (changes, s')) :
    applyBulk ops idOf s (batch.map MutationTask.quiet) = .ok (changes, s') := by
  induction batch generalizing s changes with
  | nil => exact h
  | cons task rest ih =>
    unfold applyBulk at h
    cases htask : applyTask ops idOf s task with
    | mk result s1 =>
      rw [htask] at h
      cases result with
      | error e => cases h
      | ok change =>
        cases hrest : applyBulk ops idOf s1 rest with
        | error e => simp [hrest, Except.map] at h
        | ok r =>
          have hwf1 : s1.WellFormed := by
            have hnext : (applyTask ops idOf s task).2.WellFormed := applyTask_wellFormed hwf
            rwa [htask] at hnext
          have hquiet := applyTask_quiet hwf (show (applyTask ops idOf s task).1 = .ok change by
            rw [htask])
          simp only [hrest, Except.map, Except.ok.injEq, Prod.mk.injEq] at h
          obtain ⟨rfl, rfl⟩ := h
          rw [List.map_cons, applyBulk, hquiet, htask]
          simp [ih hwf1 hrest, Except.map]

/-- An operation that succeeds does the same when no callback throws. -/
theorem outcome_quiet (hwf : current.WellFormed) {operation : ApplicationOperation K ops}
    {published : PublishedState K T ops.Index}
    (h : outcome setup callbacks current operation = .ok published) :
    outcome setup (.quiet K ops) current operation = .ok published := by
  have hsingle : ∀ mutation : SearchMutation K T,
      singleOutcome setup callbacks current mutation = .ok published →
      singleOutcome setup (.quiet K ops) current mutation = .ok published := by
    intro mutation hok
    unfold singleOutcome at hok
    split at hok
    · rename_i change state happly
      split at hok
      · cases hok
      have hquiet := applyTask_quiet hwf.batch (show (applyTask ops setup.idOf
        (.ofPublished ops current) ⟨mutation, callbacks.fault current 0 mutation⟩).1 = .ok change by
          rw [happly])
      rw [happly] at hquiet
      unfold singleOutcome
      simp only [MutationTask.quiet] at hquiet
      simp only [Callbacks.quiet, hquiet]
      exact hok
    · cases hok
  have hbulk : ∀ mutations : List (SearchMutation K T),
      bulkOutcome setup callbacks current mutations = .ok published →
      bulkOutcome setup (.quiet K ops) current mutations = .ok published := by
    intro mutations hok
    unfold bulkOutcome at hok ⊢
    split at hok
    · rw [if_pos ‹_›]
      exact hok
    rw [if_neg ‹_›]
    split at hok
    · cases hok
    rw [if_neg ‹_›, @tasks_quiet _ _ _ callbacks]
    cases hids : bulkIds setup.idOf [] (tasks callbacks current mutations) with
    | error e => simp [hids] at hok
    | ok _ =>
      cases happly : applyBulk ops setup.idOf (.ofPublished ops current)
          (tasks callbacks current mutations) with
      | error e => simp [hids, happly] at hok
      | ok r =>
        simp only [hids, happly] at hok
        simp only [bulkIds_quiet hids, applyBulk_quiet hwf.batch happly]
        split at hok
        · cases hok
        · exact hok
  cases operation with
  | add document => exact hsingle _ h
  | update document => exact hsingle _ h
  | remove key => exact hsingle _ h
  | addAll documents => exact hbulk _ h
  | updateAll documents => exact hbulk _ h
  | removeAll keys => exact hbulk _ h
  | indexDrop field => exact h
  | indexCreate field indexType =>
    simp only [outcome, createOutcome] at h ⊢
    split at h
    · cases h
    split at h
    · cases h
    split at h
    · cases h
    split at h
    · cases h
    rename_i hregistered hstarts _ hfails
    obtain ⟨-, -, hcontains⟩ := by simpa only [not_or] using hfails
    simpa [hregistered, hstarts, Callbacks.quiet, hcontains] using h

theorem singleOutcome_wellFormed (hwf : current.WellFormed) {mutation : SearchMutation K T}
    {published : PublishedState K T ops.Index}
    (h : singleOutcome setup callbacks current mutation = .ok published) :
    published.WellFormed := by
  unfold singleOutcome at h
  split at h
  · rename_i change state happly
    split at h
    · cases h
    have hstate : (applyTask ops setup.idOf (.ofPublished ops current)
        ⟨mutation, callbacks.fault current 0 mutation⟩).2.WellFormed :=
      applyTask_wellFormed hwf.batch
    rw [happly] at hstate
    cases h
    exact hstate
  · cases h

theorem bulkOutcome_wellFormed (hwf : current.WellFormed) {mutations : List (SearchMutation K T)}
    {published : PublishedState K T ops.Index}
    (h : bulkOutcome setup callbacks current mutations = .ok published) :
    published.WellFormed := by
  unfold bulkOutcome at h
  split at h
  · cases h
    exact hwf
  split at h
  · cases h
  split at h
  · cases h
  split at h
  · cases h
  · rename_i changes state happly
    obtain ⟨-, hstate, -⟩ := applyBulk_replays hwf.batch happly
    split at h
    · cases h
    · cases h
      exact hstate

/-- An operation that succeeds leaves a well-formed state. -/
theorem outcome_wellFormed (hwf : current.WellFormed) {operation : ApplicationOperation K ops}
    {published : PublishedState K T ops.Index}
    (h : outcome setup callbacks current operation = .ok published) : published.WellFormed := by
  cases operation with
  | add document => exact singleOutcome_wellFormed hwf h
  | update document => exact singleOutcome_wellFormed hwf h
  | remove key => exact singleOutcome_wellFormed hwf h
  | addAll documents => exact bulkOutcome_wellFormed hwf h
  | updateAll documents => exact bulkOutcome_wellFormed hwf h
  | removeAll keys => exact bulkOutcome_wellFormed hwf h
  | indexDrop field =>
    simp only [outcome, dropOutcome] at h
    split at h
    · cases h
    · cases h
      split
      · exact hwf
      · exact hwf
  | indexCreate field indexType =>
    simp only [outcome, createOutcome] at h
    split at h
    · cases h
    split at h
    · cases h
    split at h
    · cases h
    split at h
    · cases h
    · cases h
      exact hwf

theorem buildIdLimit_pos : 0 < buildIdLimit := by decide

/-- The effect of an operation is its outcome where no callback throws. -/
theorem effect_eq (operation : ApplicationOperation K ops) :
    effect setup operation current =
      ((outcome setup (.quiet K ops) current operation).toOption).getD current := by
  have hlimit : ¬ buildIdLimit ≤ 0 := Nat.not_le.mpr buildIdLimit_pos
  unfold effect
  rw [apply_idle, if_neg hlimit]
  cases outcome setup (.quiet K ops) current operation with
  | error e => split <;> rfl
  | ok published => split <;> rfl

theorem effect_of_ok (hwf : current.WellFormed) {operation : ApplicationOperation K ops}
    {published : PublishedState K T ops.Index}
    (h : outcome setup callbacks current operation = .ok published) :
    effect setup operation current = published := by
  rw [effect_eq, outcome_quiet hwf h]
  rfl

theorem effect_wellFormed (hwf : current.WellFormed) (operation : ApplicationOperation K ops) :
    (effect setup operation current).WellFormed := by
  rw [effect_eq]
  cases h : outcome setup (.quiet K ops) current operation with
  | error e => exact hwf
  | ok published => exact outcome_wellFormed hwf h

/-! ### Engines between two operations -/

/-- An engine that has stopped answers by the operation alone, and nothing changes. -/
theorem apply_stopped (setup : ApplicationSetup K ops) (operation : ApplicationOperation K ops) :
    ∃ r : Except (ApplicationFailure K) Unit,
      (∀ callbacks current n, apply setup callbacks (resting current false n) operation =
        (r, resting current false n)) ∧
      (r = .ok () → ∀ current, effect setup operation current = current) := by
  have hsingle : ∀ mutation callbacks current n,
      applySingle setup callbacks (resting current false n) mutation =
        (.error (.engine .closed), resting current false n) := fun _ _ _ _ => rfl
  -- Only an empty bulk is answered before the writer is asked.
  have hbulk : ∀ mutations : List (SearchMutation K T), ∃ r : Except (ApplicationFailure K) Unit,
      (∀ callbacks current n, applyAllOf setup callbacks (resting current false n) mutations =
        (r, resting current false n)) ∧
      (r = .ok () → ∀ current, bulkOutcome setup (.quiet K ops) current mutations =
        .ok current) := by
    intro mutations
    unfold applyAllOf bulkOutcome
    split
    · exact ⟨.ok (), fun _ _ _ => rfl, fun _ _ => rfl⟩
    split
    · exact ⟨.error .tooLarge, fun _ _ _ => rfl, nofun⟩
    · exact ⟨.error (.engine .closed), fun _ _ _ => if_pos rfl, nofun⟩
  have hall : ∀ mutations, (∀ callbacks engine, apply setup callbacks engine operation =
      applyAllOf setup callbacks engine mutations) → (∀ current,
        outcome setup (.quiet K ops) current operation =
          bulkOutcome setup (.quiet K ops) current mutations) →
      ∃ r : Except (ApplicationFailure K) Unit,
        (∀ callbacks current n, apply setup callbacks (resting current false n) operation =
          (r, resting current false n)) ∧
        (r = .ok () → ∀ current, effect setup operation current = current) := by
    intro mutations happly houtcome
    obtain ⟨r, hr, hok⟩ := hbulk mutations
    refine ⟨r, fun callbacks current n => (happly _ _).trans (hr _ _ _), fun hr current => ?_⟩
    rw [effect_eq, houtcome, hok hr]
    rfl
  cases operation with
  | add document => exact ⟨_, hsingle (.add document), nofun⟩
  | update document => exact ⟨_, hsingle (.update document), nofun⟩
  | remove key => exact ⟨_, hsingle (.remove key), nofun⟩
  | addAll documents => exact hall _ (fun _ _ => rfl) fun _ => rfl
  | updateAll documents => exact hall _ (fun _ _ => rfl) fun _ => rfl
  | removeAll keys => exact hall _ (fun _ _ => rfl) fun _ => rfl
  | indexCreate field indexType =>
    exact ⟨.error (.engine .closed), fun _ _ _ => rfl, nofun⟩
  | indexDrop field => exact ⟨.error (.engine .closed), fun _ _ _ => rfl, nofun⟩

/-- The engine holds a published state, and nothing is under way. -/
def Rests (current : PublishedState K T ops.Index) (engine : EngineState K ops) : Prop :=
  ∃ accepting n, engine = resting current accepting n

/-- The engine runs, and the operation is left by what it does not survive. -/
def Halts (setup : ApplicationSetup K ops) (callbacks : Callbacks K ops) (engine : EngineState K ops)
    (operation : ApplicationOperation K ops) : Prop :=
  engine.accepting = true ∧ stopsWriter setup callbacks engine.current operation = true

theorem apply_ok (hwf : current.WellFormed) {operation : Decoded K ops} {accepting : Bool}
    (h : (applyDecoded setup callbacks (resting current accepting n) operation).1 = .ok ()) :
    Rests (operation.effect setup current)
      (applyDecoded setup callbacks (resting current accepting n) operation).2 := by
  cases operation with
  | control => exact ⟨accepting, n, rfl⟩
  | application operation =>
    cases accepting with
    | false =>
      obtain ⟨r, hr, heffect⟩ := apply_stopped setup operation
      simp only [applyDecoded, hr, Decoded.effect] at h ⊢
      rw [heffect h]
      exact ⟨false, n, rfl⟩
    | true =>
      change (apply setup callbacks (idle current n) operation).1 = .ok () at h
      show Rests (effect setup operation current) (apply setup callbacks (idle current n) operation).2
      rw [apply_idle] at h ⊢
      cases houtcome : outcome setup callbacks current operation with
      | error e =>
        rw [houtcome] at h
        split at h
        · split at h <;> cases h
        · cases h
      | ok published =>
        rw [effect_of_ok hwf houtcome]
        rw [houtcome] at h
        split
        · split
          · rename_i huses hlimit
            simp [huses, hlimit] at h
          · exact ⟨true, n + 1, rfl⟩
        · exact ⟨true, n, rfl⟩

/-- What an operation that fails leaves: the published state, and a running engine unless it does
not survive the failure. -/
theorem apply_error {operation : Decoded K ops} {accepting : Bool} {e : ApplicationFailure K}
    (h : (applyDecoded setup callbacks (resting current accepting n) operation).1 = .error e) :
    ∃ still m, n ≤ m ∧ (applyDecoded setup callbacks (resting current accepting n) operation).2 =
        resting current still m ∧
      ((∀ operation', operation = .application operation' →
        ¬ Halts setup callbacks (resting current accepting n) operation') → still = accepting) := by
  cases operation with
  | control => cases h
  | application operation =>
    cases accepting with
    | false =>
      obtain ⟨r, hr, -⟩ := apply_stopped setup operation
      exact ⟨false, n, Nat.le_refl n, by rw [applyDecoded, hr], fun _ => rfl⟩
    | true =>
      have hstill : (∀ operation', Decoded.application operation = .application operation' →
          ¬ Halts setup callbacks (resting current true n) operation') →
          (!stopsWriter setup callbacks current operation) = true := by
        intro hcalm
        have hnot := hcalm operation rfl
        unfold Halts at hnot
        simpa [resting, idle, EngineState.start] using hnot
      change (apply setup callbacks (idle current n) operation).1 = .error e at h
      show ∃ still m, n ≤ m ∧ (apply setup callbacks (idle current n) operation).2 =
        resting current still m ∧ _
      rw [apply_idle] at h ⊢
      cases houtcome : outcome setup callbacks current operation with
      | ok published =>
        rw [houtcome] at h
        split
        · split
          · exact ⟨true, n, Nat.le_refl n, rfl, fun _ => rfl⟩
          · rename_i huses hlimit
            simp [huses, hlimit, answer] at h
        · rename_i huses
          simp [huses, answer] at h
      | error e =>
        split
        · split
          · exact ⟨true, n, Nat.le_refl n, rfl, fun _ => rfl⟩
          · exact ⟨_, n + 1, Nat.le_succ n, rfl, hstill⟩
        · exact ⟨_, n, Nat.le_refl n, rfl, hstill⟩

/-- An operation uses one build id at most. -/
theorem apply_nextId (operation : Decoded K ops) (accepting : Bool) :
    (applyDecoded setup callbacks (resting current accepting n) operation).2.nextIndexBuildId ≤
      n + 1 := by
  cases operation with
  | control => exact Nat.le_succ n
  | application operation =>
    cases accepting with
    | false =>
      obtain ⟨r, hr, -⟩ := apply_stopped setup operation
      rw [applyDecoded, hr]
      exact Nat.le_succ n
    | true =>
      show (apply setup callbacks (idle current n) operation).2.nextIndexBuildId ≤ n + 1
      rw [apply_idle]
      cases outcome setup callbacks current operation with
      | ok published =>
        split
        · split
          · exact Nat.le_succ n
          · exact Nat.le_refl _
        · exact Nat.le_succ n
      | error e =>
        split
        · split
          · exact Nat.le_succ n
          · exact Nat.le_refl _
        · exact Nat.le_succ n

/-- The engines are both between two operations or have both stopped, in the same published state,
and the first one has handed out at least as many build ids. -/
def Twin (engine other : EngineState K ops) : Prop :=
  ∃ current accepting n m, m ≤ n ∧ engine = resting current accepting n ∧
    other = resting current accepting m

omit [DecidableEq K] in
theorem Twin.current_eq {engine other : EngineState K ops} (twin : Twin engine other) :
    engine.current = other.current := by
  obtain ⟨current, accepting, n, m, -, rfl, rfl⟩ := twin
  rfl

/-- Twins stay twins, as long as the first one has a build id left. -/
theorem Twin.apply {engine other : EngineState K ops} (twin : Twin engine other)
    (operation : Decoded K ops) (hroom : engine.nextIndexBuildId < buildIdLimit) :
    (applyDecoded setup callbacks engine operation).1 =
        (applyDecoded setup callbacks other operation).1 ∧
      Twin (applyDecoded setup callbacks engine operation).2
        (applyDecoded setup callbacks other operation).2 := by
  obtain ⟨current, accepting, n, m, hle, rfl, rfl⟩ := twin
  have hn : ¬ buildIdLimit ≤ n := Nat.not_le.mpr hroom
  have hm : ¬ buildIdLimit ≤ m := fun hm => hn (Nat.le_trans hm hle)
  cases operation with
  | control => exact ⟨rfl, current, accepting, n, m, hle, rfl, rfl⟩
  | application operation =>
    cases accepting with
    | false =>
      obtain ⟨r, hr, -⟩ := apply_stopped setup operation
      simp only [applyDecoded, hr]
      exact ⟨trivial, current, false, n, m, hle, rfl, rfl⟩
    | true =>
      show (Replica.apply setup callbacks (idle current n) operation).1 =
          (Replica.apply setup callbacks (idle current m) operation).1 ∧
        Twin (Replica.apply setup callbacks (idle current n) operation).2
          (Replica.apply setup callbacks (idle current m) operation).2
      simp only [apply_idle, hn, hm, if_false]
      split
      · cases outcome setup callbacks current operation with
        | error e => exact ⟨rfl, current, _, n + 1, m + 1, Nat.succ_le_succ hle, rfl, rfl⟩
        | ok published =>
          exact ⟨rfl, published, true, n + 1, m + 1, Nat.succ_le_succ hle, rfl, rfl⟩
      · cases outcome setup callbacks current operation with
        | error e => exact ⟨rfl, current, _, n, m, hle, rfl, rfl⟩
        | ok published => exact ⟨rfl, published, true, n, m, hle, rfl, rfl⟩

omit [DecidableEq K] in
theorem Rests.twin {engine : EngineState K ops} (h : Rests current engine) :
    Twin engine engine := by
  obtain ⟨accepting, n, rfl⟩ := h
  exact ⟨current, accepting, n, n, Nat.le_refl n, rfl, rfl⟩

/-- What an operation that fails leaves is a twin of what it was applied to, if the engine survives
it. -/
theorem Twin.failed {engine : EngineState K ops} (h : Twin engine engine) {decoded : Decoded K ops}
    {e : ApplicationFailure K}
    (happly : (applyDecoded setup callbacks engine decoded).1 = .error e)
    (hcalm : ∀ operation, decoded = .application operation →
      ¬ Halts setup callbacks engine operation) :
    Twin (applyDecoded setup callbacks engine decoded).2 engine := by
  obtain ⟨current, accepting, n, -, -, rfl, -⟩ := h
  obtain ⟨still, m, hle, hm, hstill⟩ := apply_error happly
  rw [hstill hcalm] at hm
  exact ⟨current, accepting, m, n, hle, hm, rfl⟩

/-- A twin of its own rests. -/
theorem Twin.nextId {engine other : EngineState K ops} (twin : Twin engine other)
    (operation : Decoded K ops) :
    (applyDecoded setup callbacks engine operation).2.nextIndexBuildId ≤
      engine.nextIndexBuildId + 1 := by
  obtain ⟨current, accepting, n, m, -, rfl, -⟩ := twin
  exact apply_nextId operation accepting

end

namespace ReplicaApplication

section

variable {K T : Type} [DecidableEq K] {ops : IndexOps T} (setup : ApplicationSetup K ops)

/-! ### The invariant -/

/-- What the operations of a log make of a published state, one after the other. -/
def folded (current : PublishedState K T ops.Index) (log : List (Decoded K ops)) :
    PublishedState K T ops.Index :=
  log.foldl (fun current operation => operation.effect setup current) current

theorem folded_append (current : PublishedState K T ops.Index) (log later : List (Decoded K ops)) :
    folded setup current (log ++ later) = folded setup (folded setup current log) later :=
  List.foldl_append

/-- The published engine holds the published operations.  The other one has done the prepared
operation as well, or it is one operation behind, which is the one that it has to catch up with. -/
structure Buffered (current : PublishedState K T ops.Index) (s : ReplicaApplication K ops) :
    Prop where
  wellFormed : current.WellFormed
  published : Rests current s.published.engine
  level : s.catchup = none →
    Rests (s.prepared.elim current fun decoded => decoded.effect setup current) s.working.engine
  behind : ∀ operation, s.catchup = some operation → s.prepared = none ∧
    ∃ before, before.WellFormed ∧ effect setup operation before = current ∧
      Rests before s.working.engine
  room : ∀ operation, s.prepared = some (.application operation) → s.sequence < maxLong
  retired : s.working.retired = true
  drained : s.catchup = none → s.working.leases = 0

variable {setup} {world : World K ops} {current : PublishedState K T ops.Index}
  {s : ReplicaApplication K ops}

theorem Fresh.buffered (fresh : Fresh current s) : Buffered setup current s := by
  obtain ⟨n, hpublished⟩ := fresh.published
  obtain ⟨m, hworking⟩ := fresh.working
  refine ⟨fresh.wellFormed, ⟨true, n, hpublished⟩, fun _ => ?_, fun operation h => ?_,
    fun operation h => ?_, fresh.retired.1, fun _ => fresh.leases⟩
  · rw [fresh.prepared]
    exact ⟨true, m, hworking⟩
  · rw [fresh.catchup] at h
    cases h
  · rw [fresh.prepared] at h
    cases h

theorem catchUp_none (h : s.catchup = none) : catchUp setup world s = (.ok (), s) := by
  rw [catchUp, h]

theorem catchUp_waits {operation : ApplicationOperation K ops} (h : s.catchup = some operation)
    (hleases : s.working.leases ≠ 0) :
    catchUp setup world s = (.error (.thrown (.replication .quorumUnavailable
      "retired readers did not drain")), s) := by
  rw [catchUp, h]
  exact if_pos hleases

theorem catchUp_fails {operation : ApplicationOperation K ops} (h : s.catchup = some operation)
    (hleases : s.working.leases = 0) {e : ApplicationFailure K}
    (happly : (apply setup world.toCallbacks s.working.engine operation).1 = .error e) :
    catchUp setup world s = (.error e,
      s.withEngine (apply setup world.toCallbacks s.working.engine operation).2) := by
  simp [catchUp, h, hleases, happly]

theorem catchUp_done {operation : ApplicationOperation K ops} (h : s.catchup = some operation)
    (hleases : s.working.leases = 0)
    (happly : (apply setup world.toCallbacks s.working.engine operation).1 = .ok ()) :
    catchUp setup world s = (.ok (), { s.withEngine
      (apply setup world.toCallbacks s.working.engine operation).2 with catchup := none }) := by
  simp [catchUp, h, hleases, happly]

/-- Catching up changes the working engine and what it has to catch up with. -/
theorem catchUp_frame (setup : ApplicationSetup K ops) (world : World K ops)
    (s : ReplicaApplication K ops) : ∃ engine catchup,
    (catchUp setup world s).2 = { s.withEngine engine with catchup } := by
  cases h : s.catchup with
  | none => exact ⟨s.working.engine, s.catchup, by rw [catchUp_none h]; rfl⟩
  | some operation =>
    by_cases hleases : s.working.leases = 0
    · cases happly : (apply setup world.toCallbacks s.working.engine operation).1 with
      | error e =>
        rw [catchUp_fails h hleases happly]
        exact ⟨(apply setup world.toCallbacks s.working.engine operation).2, s.catchup, rfl⟩
      | ok _ =>
        rw [catchUp_done h hleases happly]
        exact ⟨(apply setup world.toCallbacks s.working.engine operation).2, none, rfl⟩
    · exact ⟨s.working.engine, s.catchup, by rw [catchUp_waits h hleases]; rfl⟩

/-- Behind a success of catching up both engines hold the published state. -/
theorem Buffered.catchUp (h : Buffered setup current s) (hprepared : s.prepared = none) :
    Buffered setup current (catchUp setup world s).2 ∧
      ((catchUp setup world s).1 = .ok () → (catchUp setup world s).2.catchup = none) := by
  cases hcatchup : s.catchup with
  | none =>
    rw [catchUp_none hcatchup]
    exact ⟨h, fun _ => hcatchup⟩
  | some operation =>
    by_cases hleases : s.working.leases = 0
    swap
    · rw [catchUp_waits hcatchup hleases]
      exact ⟨h, nofun⟩
    obtain ⟨-, before, hwf, heffect, accepting, n, hengine⟩ := h.behind operation hcatchup
    cases happly : (apply setup world.toCallbacks s.working.engine operation).1 with
    | error e =>
      rw [catchUp_fails hcatchup hleases happly]
      have hfailed : (applyDecoded setup world.toCallbacks (resting before accepting n)
        (.application operation)).1 = .error e := hengine ▸ happly
      obtain ⟨still, m, -, hm, -⟩ := apply_error hfailed
      refine ⟨⟨h.wellFormed, h.published, fun hnone => ?_, fun other hother => ?_, h.room, h.retired,
        h.drained⟩, nofun⟩
      · exact absurd (hcatchup.symm.trans hnone) (by simp)
      · cases hcatchup.symm.trans hother
        refine ⟨hprepared, before, hwf, heffect, still, m, ?_⟩
        rw [hengine]
        exact hm
    | ok _ =>
      rw [catchUp_done hcatchup hleases happly]
      have hdone : (applyDecoded setup world.toCallbacks (resting before accepting n)
        (.application operation)).1 = .ok () := hengine ▸ happly
      have hrests := apply_ok hwf hdone
      rw [Decoded.effect, heffect] at hrests
      refine ⟨⟨h.wellFormed, h.published, fun _ => ?_, nofun, h.room, h.retired,
        fun _ => hleases⟩, fun _ => rfl⟩
      simp only [withEngine, hprepared, Option.elim, hengine]
      exact hrests

/-- What a preparation leaves when it is accepted: the operation is prepared, and the working engine
has done it. -/
structure Accepted (setup : ApplicationSetup K ops) (decoded : Decoded K ops) (current : PublishedState K T ops.Index)
    (s s' : ReplicaApplication K ops) : Prop where
  prepared : s'.prepared = some decoded
  working : Rests (decoded.effect setup current) s'.working.engine
  published : s'.published = s.published
  index : s'.index = s.index
  sequence : s'.sequence = s.sequence

omit [DecidableEq K] in
theorem decode_control {operation : Operation} {payload : Bytes} {decoded : Decoded K ops}
    (h : decode world operation payload = .ok decoded) :
    control operation = true ↔ decoded = .control := by
  unfold decode at h
  split at h
  · rename_i hcontrol
    split at h
    · cases h
      simp [hcontrol]
    · cases h
  · rename_i hcontrol
    cases hdecode : world.decode operation payload with
    | error e => simp [hdecode, Except.mapError, Except.map] at h
    | ok operation =>
      simp only [hdecode, Except.mapError, Except.map, Except.ok.injEq] at h
      subst h
      simp [hcontrol]

omit [DecidableEq K] in
/-- What passes the checks was decoded. -/
theorem decode_of_checked {operation : Operation} {payload : Bytes} {decoded : Decoded K ops}
    (h : (do
      let decoded ← decode world operation payload
      checkOperation setup s decoded
      return decoded) = .ok decoded) : decode world operation payload = .ok decoded := by
  cases hdecode : decode world operation payload with
  | error e => simp [hdecode, bind, Except.bind] at h
  | ok other =>
    cases hcheck : checkOperation setup s other with
    | error e => simp [hdecode, hcheck, bind, Except.bind] at h
    | ok _ => simpa [hdecode, hcheck, bind, Except.bind, pure, Except.pure] using h

theorem Buffered.prepareNext (h : Buffered setup current s) (hprepared : s.prepared = none)
    (hcatchup : s.catchup = none) (operation : Operation) (payload : Bytes) :
    Buffered setup current (prepareNext setup world s operation payload).2 ∧
      ((prepareNext setup world s operation payload).1 = .ok () →
        ∃ decoded, decode world operation payload = .ok decoded ∧
          Accepted setup decoded current s
            (prepareNext setup world s operation payload).2) := by
  unfold ReplicaApplication.prepareNext
  split
  · exact ⟨h, nofun⟩
  rename_i hroom
  split
  · exact ⟨h, nofun⟩
  rename_i decoded hchecked
  have hdecode := decode_of_checked hchecked
  obtain ⟨accepting, n, hengine⟩ := h.level hcatchup
  rw [hprepared, Option.elim] at hengine
  dsimp only
  rw [hengine]
  cases happly : (applyDecoded setup world.toCallbacks (resting current accepting n) decoded).1 with
  | error e =>
    obtain ⟨still, m, -, hm, -⟩ := apply_error happly
    refine ⟨⟨h.wellFormed, h.published, fun _ => ?_, fun other hother => ?_, h.room, h.retired, h.drained⟩,
      nofun⟩
    · simp only [withEngine, hprepared, Option.elim]
      exact ⟨still, m, hm⟩
    · cases hcatchup.symm.trans hother
  | ok _ =>
    have hworking := apply_ok h.wellFormed happly
    refine ⟨⟨h.wellFormed, h.published, fun _ => hworking, fun other hother => ?_,
      fun other hother => ?_, h.retired, h.drained⟩, fun _ => ⟨decoded, hdecode, rfl, hworking, rfl, rfl, rfl⟩⟩
    · cases hcatchup.symm.trans hother
    · cases hother
      have hcontrol : control operation = false := by
        simpa using mt (decode_control hdecode).mp (by simp)
      exact Nat.lt_of_not_le fun hfull => hroom ⟨hcontrol, hfull⟩

theorem Buffered.prepare (h : Buffered setup current s) (operation : Operation) (payload : Bytes) :
    Buffered setup current (prepare setup world s operation payload).2 ∧
      ((prepare setup world s operation payload).1 = .ok () →
        ∃ decoded, decode world operation payload = .ok decoded ∧
          Accepted setup decoded current s
            (prepare setup world s operation payload).2) := by
  unfold ReplicaApplication.prepare
  split
  · exact ⟨h, nofun⟩
  rename_i hopen
  have hprepared : s.prepared = none := by
    simpa using (not_or.mp hopen).2
  obtain ⟨hbuffered, hlevel⟩ := @Buffered.catchUp _ _ _ _ _ world _ _ h hprepared
  obtain ⟨engine, catchup, hframe⟩ := catchUp_frame setup world s
  dsimp only
  cases hcaught : (ReplicaApplication.catchUp setup world s).1 with
  | error e => exact ⟨hbuffered, nofun⟩
  | ok _ =>
    have hnone : (ReplicaApplication.catchUp setup world s).2.prepared = none := by
      rw [hframe]
      exact hprepared
    obtain ⟨hnext, haccepted⟩ :=
      @Buffered.prepareNext _ _ _ _ _ world _ _ hbuffered hnone (hlevel hcaught) operation payload
    refine ⟨hnext, fun hok => ?_⟩
    obtain ⟨decoded, hdecode, hdone⟩ := haccepted hok
    refine ⟨decoded, hdecode, hdone.prepared, hdone.working, hdone.published.trans ?_,
      hdone.index.trans ?_, hdone.sequence.trans ?_⟩
    · rw [hframe, withEngine]
    · rw [hframe, withEngine]
    · rw [hframe, withEngine]

omit [DecidableEq K] in
theorem publish_cases (s : ReplicaApplication K ops) (index : ℕ) :
    ((∃ e, (publish s index).1 = .error e) ∧ (publish s index).2 = s) ∨
    (s.prepared = some .control ∧ publish s index = (.ok (), { s with index, prepared := none })) ∨
    (∃ operation, s.prepared = some (.application operation) ∧
      (s.sequence = maxLong ∨ publish s index = (.ok (), s.exchange operation index))) := by
  unfold publish
  cases s.prepared with
  | none => exact .inl ⟨⟨_, rfl⟩, rfl⟩
  | some decoded =>
    dsimp only
    split
    · exact .inl ⟨⟨_, rfl⟩, rfl⟩
    cases decoded with
    | control => exact .inr (.inl ⟨rfl, rfl⟩)
    | application operation =>
      refine .inr (.inr ⟨operation, rfl, ?_⟩)
      by_cases hfull : s.sequence = maxLong
      · exact .inl hfull
      · exact .inr (by simp [hfull])

omit [DecidableEq K] in
theorem leased_engine (slot : Slot K ops) : (leased slot).engine = slot.engine := by
  unfold leased
  split
  · rfl
  · rfl

omit [DecidableEq K] in
theorem leased_withEngine (slot : Slot K ops) (engine : EngineState K ops) :
    leased { slot with engine } = { leased slot with engine } := by
  unfold leased
  split
  · rfl
  · rfl

/-- An event keeps the invariant, with the operation that it publishes. -/
theorem Buffered.handle (h : Buffered setup current s) (event : Event) :
    Buffered setup (folded setup current (publishedBy s event)) (handle setup world s event).2 := by
  cases event with
  | prepare operation payload => exact (h.prepare operation payload).1
  | read => exact h
  | close => exact ⟨h.wellFormed, h.published, h.level, h.behind, h.room, h.retired, h.drained⟩
  | lease side =>
    cases side with
    | published =>
      refine ⟨h.wellFormed, ?_, h.level, h.behind, h.room, h.retired, h.drained⟩
      rw [ReplicaApplication.handle, leased_engine]
      exact h.published
    | working =>
      have hleased : leased s.working = s.working := if_pos h.retired
      rw [ReplicaApplication.handle, hleased]
      exact h
  | release side =>
    cases side with
    | published => exact ⟨h.wellFormed, h.published, h.level, h.behind, h.room, h.retired, h.drained⟩
    | working =>
      refine ⟨h.wellFormed, h.published, h.level, h.behind, h.room, h.retired, fun hnone => ?_⟩
      simp only [ReplicaApplication.handle, released, h.drained hnone]
  | publish index =>
    simp only [ReplicaApplication.handle, publishedBy]
    obtain ⟨⟨e, herror⟩, hs⟩ | ⟨hprepared, hpublish⟩ | ⟨operation, hprepared, hpublish⟩ :=
      publish_cases s index
    · rw [herror, hs]
      exact h
    · rw [hpublish, hprepared]
      have hcatchup : s.catchup = none := by
        cases hcatchup : s.catchup with
        | none => rfl
        | some operation =>
          cases hprepared.symm.trans (h.behind operation hcatchup).1
      have hlevel := h.level hcatchup
      rw [hprepared] at hlevel
      exact ⟨h.wellFormed, h.published, fun _ => hlevel,
        fun operation hsome => absurd (hcatchup.symm.trans hsome) (by simp), nofun, h.retired,
        h.drained⟩
    · have hroom : s.sequence ≠ maxLong := Nat.ne_of_lt (h.room operation hprepared)
      have hcatchup : s.catchup = none := by
        cases hcatchup : s.catchup with
        | none => rfl
        | some operation =>
          cases hprepared.symm.trans (h.behind operation hcatchup).1
      rw [hpublish.resolve_left hroom, hprepared]
      have hlevel := h.level hcatchup
      rw [hprepared] at hlevel
      refine ⟨effect_wellFormed h.wellFormed operation, hlevel, nofun, fun other hother => ?_,
        nofun, rfl, nofun⟩
      cases hother
      exact ⟨rfl, current, h.wellFormed, rfl, h.published⟩

/-- The invariant holds over every run, of the operations that the run has published. -/
theorem Run.buffered {start : ReplicaApplication K ops} {log : List (Decoded K ops)}
    (hstart : Buffered setup current start) (run : Run setup start log s) :
    Buffered setup (folded setup current log) s := by
  induction run with
  | nil => exact hstart
  | step run world event ih =>
    have hnext := @Buffered.handle _ _ _ _ _ world _ _ ih event
    rwa [folded_append]

/-! ### With and without a rejected preparation -/

/-- The application with other engines. -/
def withEngines (s : ReplicaApplication K ops) (published working : EngineState K ops) :
    ReplicaApplication K ops :=
  { s with
    published := { s.published with engine := published }
    working := { s.working with engine := working } }

/-- The first application differs from the second in the build ids of its engines. -/
def Level (s t : ReplicaApplication K ops) : Prop :=
  ∃ published working, Twin published t.published.engine ∧ Twin working t.working.engine ∧
    s = t.withEngines published working

/-- The working engine is due to catch up, and nothing holds it back. -/
structure Due (setup : ApplicationSetup K ops) (world : World K ops) (t : ReplicaApplication K ops) :
    Prop where
  prepared : t.prepared = none
  retired : t.working.retired = true
  leases : t.working.leases = 0
  caught : (ReplicaApplication.catchUp setup world t).1 = .ok ()

/-- The first application differs from the second in the build ids of its engines, and possibly in
that it has caught up already, as the second one will. -/
def Same (setup : ApplicationSetup K ops) (world : World K ops) (s t : ReplicaApplication K ops) :
    Prop :=
  Level s t ∨ (Due setup world t ∧ Level s (catchUp setup world t).2)

theorem Level.catchUp {s t : ReplicaApplication K ops} (level : Level s t)
    (hroom : s.working.engine.nextIndexBuildId < buildIdLimit) :
    (catchUp setup world s).1 = (catchUp setup world t).1 ∧
      Level (catchUp setup world s).2 (catchUp setup world t).2 := by
  obtain ⟨published, working, hpublished, hworking, rfl⟩ := level
  have hlevel : Level (t.withEngines published working) t :=
    ⟨published, working, hpublished, hworking, rfl⟩
  cases hcatchup : t.catchup with
  | none =>
    rw [catchUp_none hcatchup, catchUp_none (s := t.withEngines published working) hcatchup]
    exact ⟨rfl, hlevel⟩
  | some operation =>
    have hother : (t.withEngines published working).catchup = some operation := hcatchup
    by_cases hleases : t.working.leases = 0
    swap
    · rw [catchUp_waits hcatchup hleases, catchUp_waits hother hleases]
      exact ⟨rfl, hlevel⟩
    obtain ⟨hsame, htwin⟩ := @Twin.apply _ _ _ _ setup world.toCallbacks _ _ hworking
      (.application operation) hroom
    simp only [applyDecoded] at hsame htwin
    cases happly : (apply setup world.toCallbacks working operation).1 with
    | error e =>
      rw [catchUp_fails hother hleases happly, catchUp_fails hcatchup hleases (hsame ▸ happly)]
      exact ⟨rfl, published, _, hpublished, htwin, rfl⟩
    | ok _ =>
      rw [catchUp_done hother hleases happly, catchUp_done hcatchup hleases (hsame ▸ happly)]
      exact ⟨rfl, published, _, hpublished, htwin, rfl⟩

theorem Level.prepareNext {s t : ReplicaApplication K ops} (level : Level s t)
    (operation : Operation) (payload : Bytes)
    (hroom : s.working.engine.nextIndexBuildId < buildIdLimit) :
    (prepareNext setup world s operation payload).1 =
        (prepareNext setup world t operation payload).1 ∧
      Level (prepareNext setup world s operation payload).2
        (prepareNext setup world t operation payload).2 := by
  obtain ⟨published, working, hpublished, hworking, rfl⟩ := level
  have hcheck : ∀ decoded, checkOperation setup (t.withEngines published working) decoded =
      checkOperation setup t decoded := by
    intro decoded
    unfold checkOperation
    simp only [withEngines, descriptor, hworking.current_eq]
  have hsequence : (t.withEngines published working).sequence = t.sequence := rfl
  unfold ReplicaApplication.prepareNext
  simp only [hcheck, hsequence]
  split
  · exact ⟨rfl, published, working, hpublished, hworking, rfl⟩
  split
  · exact ⟨rfl, published, working, hpublished, hworking, rfl⟩
  rename_i decoded hdecoded
  obtain ⟨hsame, htwin⟩ := @Twin.apply _ _ _ _ setup world.toCallbacks _ _ hworking decoded hroom
  simp only [withEngines, withEngine]
  rw [← hsame]
  cases (applyDecoded setup world.toCallbacks working decoded).1 with
  | error e => exact ⟨rfl, published, _, hpublished, htwin, rfl⟩
  | ok _ => exact ⟨rfl, published, _, hpublished, htwin, rfl⟩

/-- Two build ids are left: one to catch up with, and one for the operation. -/
def Roomy (s : ReplicaApplication K ops) : Prop :=
  s.working.engine.nextIndexBuildId + 1 < buildIdLimit

/-- Catching up uses one build id at most. -/
theorem Level.caughtUp {s t : ReplicaApplication K ops} (level : Level s t) (hroom : Roomy s) :
    (ReplicaApplication.catchUp setup world s).2.working.engine.nextIndexBuildId <
      buildIdLimit := by
  have hwithin : s.working.engine.nextIndexBuildId < buildIdLimit := Nat.lt_of_succ_lt hroom
  obtain ⟨published, working, -, hworking, rfl⟩ := level
  cases hcatchup : (t.withEngines published working).catchup with
  | none =>
    rw [catchUp_none hcatchup]
    exact hwithin
  | some operation =>
    have hnext : (apply setup world.toCallbacks working operation).2.nextIndexBuildId <
        buildIdLimit := Nat.lt_of_le_of_lt (hworking.nextId (.application operation)) hroom
    by_cases hleases : (t.withEngines published working).working.leases = 0
    · cases happly : (apply setup world.toCallbacks working operation).1 with
      | error e =>
        rw [catchUp_fails hcatchup hleases happly]
        exact hnext
      | ok _ =>
        rw [catchUp_done hcatchup hleases happly]
        exact hnext
    · rw [catchUp_waits hcatchup hleases]
      exact hwithin

theorem Level.prepare {s t : ReplicaApplication K ops} (level : Level s t)
    (operation : Operation) (payload : Bytes) (hroom : Roomy s) :
    (prepare setup world s operation payload).1 = (prepare setup world t operation payload).1 ∧
      Level (prepare setup world s operation payload).2
        (prepare setup world t operation payload).2 := by
  have hopen : (s.closed = true ∨ s.prepared.isSome = true) ↔
      (t.closed = true ∨ t.prepared.isSome = true) := by
    obtain ⟨published, working, -, -, rfl⟩ := level
    exact Iff.rfl
  unfold ReplicaApplication.prepare
  simp only [hopen]
  split
  · exact ⟨rfl, level⟩
  obtain ⟨hsame, hlevel⟩ :=
    @Level.catchUp _ _ _ _ setup world _ _ level (Nat.lt_of_succ_lt hroom)
  have hcaught := @Level.caughtUp _ _ _ _ setup world _ _ level hroom
  rw [← hsame]
  cases (ReplicaApplication.catchUp setup world s).1 with
  | error e => exact ⟨rfl, hlevel⟩
  | ok _ => exact hlevel.prepareNext operation payload hcaught

omit [DecidableEq K] in
theorem Level.publish {s t : ReplicaApplication K ops} (level : Level s t) (index : ℕ) :
    (publish s index).1 = (publish t index).1 ∧ Level (publish s index).2 (publish t index).2 := by
  obtain ⟨published, working, hpublished, hworking, rfl⟩ := level
  have hlevel : Level (t.withEngines published working) t :=
    ⟨published, working, hpublished, hworking, rfl⟩
  have hprepared : (t.withEngines published working).prepared = t.prepared := rfl
  have hguard : ((t.withEngines published working).closed = true ∨
      index ≠ (t.withEngines published working).index + 1) ↔
      (t.closed = true ∨ index ≠ t.index + 1) := Iff.rfl
  have hsequence : (t.withEngines published working).sequence = t.sequence := rfl
  unfold ReplicaApplication.publish
  simp only [hprepared, hguard, hsequence]
  cases t.prepared with
  | none => exact ⟨rfl, hlevel⟩
  | some decoded =>
    dsimp only
    split
    · exact ⟨rfl, hlevel⟩
    cases decoded with
    | control => exact ⟨rfl, published, working, hpublished, hworking, rfl⟩
    | application operation =>
      dsimp only
      split
      · exact ⟨rfl, published, working, hpublished, hworking, rfl⟩
      · exact ⟨rfl, working, published, hworking, hpublished, rfl⟩

/-- What differs only in the build ids of the engines answers every event in the same way, as long
as they last. -/
theorem Level.handle {s t : ReplicaApplication K ops} (level : Level s t) (event : Event)
    (hroom : Roomy s) :
    (handle setup world s event).1 = (handle setup world t event).1 ∧
      Level (handle setup world s event).2 (handle setup world t event).2 := by
  cases event with
  | prepare operation payload =>
    obtain ⟨hsame, hlevel⟩ :=
      @Level.prepare _ _ _ _ setup world _ _ level operation payload hroom
    exact ⟨congrArg Result.called hsame, hlevel⟩
  | publish index =>
    obtain ⟨hsame, hlevel⟩ := level.publish index
    exact ⟨congrArg Result.called hsame, hlevel⟩
  | read =>
    obtain ⟨published, working, hpublished, hworking, rfl⟩ := level
    have hcurrent := hpublished.current_eq
    refine ⟨?_, published, working, hpublished, hworking, rfl⟩
    simp only [ReplicaApplication.handle, withEngines, hcurrent]
  | close =>
    obtain ⟨published, working, hpublished, hworking, rfl⟩ := level
    exact ⟨rfl, published, working, hpublished, hworking, rfl⟩
  | release side =>
    obtain ⟨published, working, hpublished, hworking, rfl⟩ := level
    cases side with
    | published => exact ⟨rfl, published, working, hpublished, hworking, rfl⟩
    | working => exact ⟨rfl, published, working, hpublished, hworking, rfl⟩
  | lease side =>
    obtain ⟨published, working, hpublished, hworking, rfl⟩ := level
    cases side with
    | published =>
      refine ⟨rfl, published, working, ?_, hworking, ?_⟩
      · rw [ReplicaApplication.handle, leased_engine]
        exact hpublished
      · simp only [ReplicaApplication.handle, withEngines, leased_withEngine]
    | working =>
      refine ⟨rfl, published, working, hpublished, ?_, ?_⟩
      · rw [ReplicaApplication.handle, leased_engine]
        exact hworking
      · simp only [ReplicaApplication.handle, withEngines, leased_withEngine]

theorem catchUp_ok {t : ReplicaApplication K ops} (h : (catchUp setup world t).1 = .ok ()) :
    (catchUp setup world t).2.catchup = none := by
  cases hcatchup : t.catchup with
  | none =>
    rw [catchUp_none hcatchup]
    exact hcatchup
  | some operation =>
    by_cases hleases : t.working.leases = 0
    · cases happly : (apply setup world.toCallbacks t.working.engine operation).1 with
      | error e =>
        rw [catchUp_fails hcatchup hleases happly] at h
        cases h
      | ok _ => rw [catchUp_done hcatchup hleases happly]
    · rw [catchUp_waits hcatchup hleases] at h
      cases h

/-- Catching up does not look at the published slot, and closing does not stop it. -/
theorem catchUp_with (setup : ApplicationSetup K ops) (world : World K ops)
    (t : ReplicaApplication K ops) (published : Slot K ops) (closed : Bool) :
    catchUp setup world { t with published, closed } =
      ((catchUp setup world t).1, { (catchUp setup world t).2 with published, closed }) := by
  generalize hother : ({ t with published, closed } : ReplicaApplication K ops) = other
  have hcatchup : other.catchup = t.catchup := by rw [← hother]
  have hworking : other.working = t.working := by rw [← hother]
  cases h : t.catchup with
  | none => rw [catchUp_none (hcatchup.trans h), catchUp_none h, ← hother]
  | some operation =>
    by_cases hleases : t.working.leases = 0
    · have hdrained : other.working.leases = 0 := by rw [hworking, hleases]
      cases happly : (apply setup world.toCallbacks t.working.engine operation).1 with
      | error e =>
        rw [catchUp_fails (hcatchup.trans h) hdrained (hworking ▸ happly),
          catchUp_fails h hleases happly, ← hother]
        rfl
      | ok _ =>
        rw [catchUp_done (hcatchup.trans h) hdrained (hworking ▸ happly),
          catchUp_done h hleases happly, ← hother]
        rfl
    · rw [catchUp_waits (hcatchup.trans h) (hworking ▸ hleases), catchUp_waits h hleases, ← hother]

/-- A preparation catches up first. -/
theorem Due.prepare {t : ReplicaApplication K ops} (due : Due setup world t)
    (hclosed : t.closed = false) (operation : Operation) (payload : Bytes) :
    prepare setup world t operation payload =
      prepare setup world (catchUp setup world t).2 operation payload := by
  have hnone := catchUp_ok due.caught
  obtain ⟨engine, catchup, hframe⟩ := catchUp_frame setup world t
  have hopen : ¬ (t.closed = true ∨ t.prepared.isSome = true) := by
    simp [hclosed, due.prepared]
  have hlater : ¬ ((catchUp setup world t).2.closed = true ∨
      (catchUp setup world t).2.prepared.isSome = true) := by
    rw [hframe]
    exact hopen
  unfold ReplicaApplication.prepare
  rw [if_neg hopen, if_neg hlater, catchUp_none hnone]
  simp only [due.caught]

/-- Any other event leaves what is due as it is. -/
theorem Due.handle {t : ReplicaApplication K ops} (due : Due setup world t) {event : Event}
    (h : ∀ operation payload, event ≠ .prepare operation payload) :
    (handle setup world t event).1 = (handle setup world (catchUp setup world t).2 event).1 ∧
      Due setup world (handle setup world t event).2 ∧
      (catchUp setup world (handle setup world t event).2).2 =
        (handle setup world (catchUp setup world t).2 event).2 := by
  obtain ⟨engine, catchup, hframe⟩ := catchUp_frame setup world t
  cases event with
  | prepare operation payload => exact absurd rfl (h operation payload)
  | read =>
    refine ⟨?_, due, rfl⟩
    rw [hframe]
    rfl
  | close =>
    have hwith := catchUp_with setup world t t.published true
    refine ⟨rfl, ⟨due.prepared, due.retired, due.leases, ?_⟩, ?_⟩
    · exact (congrArg Prod.fst hwith).trans due.caught
    · rw [ReplicaApplication.handle, hwith, hframe]
      rfl
  | publish index =>
    have hnone : (catchUp setup world t).2.prepared = none := by
      rw [hframe]
      exact due.prepared
    simp only [ReplicaApplication.handle, ReplicaApplication.publish, due.prepared, hnone]
    exact ⟨trivial, due, trivial⟩
  | lease side =>
    cases side with
    | published =>
      have hwith := catchUp_with setup world t (leased t.published) t.closed
      refine ⟨rfl, ⟨due.prepared, due.retired, due.leases, ?_⟩, ?_⟩
      · exact (congrArg Prod.fst hwith).trans due.caught
      · rw [ReplicaApplication.handle, hwith, hframe]
        rfl
    | working =>
      have hleased : leased t.working = t.working := if_pos due.retired
      have hlater : leased (catchUp setup world t).2.working =
          (catchUp setup world t).2.working := by
        rw [hframe]
        exact if_pos due.retired
      simp only [ReplicaApplication.handle, hleased, hlater]
      exact ⟨trivial, due, trivial⟩
  | release side =>
    cases side with
    | published =>
      have hwith := catchUp_with setup world t (released t.published) t.closed
      refine ⟨rfl, ⟨due.prepared, due.retired, due.leases, ?_⟩, ?_⟩
      · exact (congrArg Prod.fst hwith).trans due.caught
      · rw [ReplicaApplication.handle, hwith, hframe]
        rfl
    | working =>
      have hreleased : ∀ slot : Slot K ops, slot.leases = 0 → released slot = slot := by
        rintro ⟨engine, leases, retired⟩ rfl
        rfl
      have hlater : (catchUp setup world t).2.working.leases = 0 := by
        rw [hframe]
        exact due.leases
      simp only [ReplicaApplication.handle, hreleased _ due.leases, hreleased _ hlater]
      exact ⟨trivial, due, trivial⟩

/-- One event, answered with the rejected preparation behind it and without. -/
theorem Same.handle {s t : ReplicaApplication K ops} (same : Same setup world s t) (event : Event)
    (hroom : Roomy s) :
    (handle setup world s event).1 = (handle setup world t event).1 ∧
      Same setup world (handle setup world s event).2 (handle setup world t event).2 := by
  rcases same with level | ⟨due, level⟩
  · obtain ⟨hsame, hlevel⟩ := level.handle event hroom
    exact ⟨hsame, .inl hlevel⟩
  by_cases hprepare : ∀ operation payload, event ≠ .prepare operation payload
  · obtain ⟨hsame, hlevel⟩ := level.handle event hroom
    obtain ⟨hresult, hdue, hcaught⟩ := due.handle hprepare
    exact ⟨hsame.trans hresult.symm, .inr ⟨hdue, hcaught ▸ hlevel⟩⟩
  push Not at hprepare
  obtain ⟨operation, payload, rfl⟩ := hprepare
  obtain ⟨hsame, hlevel⟩ := level.handle (.prepare operation payload) hroom
  cases hclosed : t.closed with
  | false =>
    simp only [ReplicaApplication.handle, due.prepare hclosed] at hsame hlevel ⊢
    exact ⟨hsame, .inl hlevel⟩
  | true =>
    have hother : s.closed = true := by
      obtain ⟨published, working, -, -, rfl⟩ := level
      obtain ⟨engine, catchup, hframe⟩ := catchUp_frame setup world t
      rw [hframe]
      exact hclosed
    simp only [ReplicaApplication.handle, ReplicaApplication.prepare, hclosed, hother, true_or,
      if_true]
    exact ⟨trivial, .inr ⟨due, level⟩⟩

/-- Build ids are left at every event that follows. -/
def RoomyRun (setup : ApplicationSetup K ops) (world : World K ops) :
    ReplicaApplication K ops → List Event → Prop
  | _, [] => True
  | s, event :: events => Roomy s ∧ RoomyRun setup world (handle setup world s event).2 events

/-- The results of a list of events with the rejected preparation behind it and without. -/
theorem Same.results {s t : ReplicaApplication K ops} (same : Same setup world s t)
    (events : List Event) (hroom : RoomyRun setup world s events) :
    (results setup world s events).1 = (results setup world t events).1 ∧
      Same setup world (results setup world s events).2 (results setup world t events).2 := by
  induction events generalizing s t with
  | nil => exact ⟨rfl, same⟩
  | cons event events ih =>
    simp only [ReplicaApplication.results]
    obtain ⟨hsame, hnext⟩ := same.handle event hroom.1
    obtain ⟨hlater, hlast⟩ := ih hnext hroom.2
    exact ⟨congrArg₂ List.cons hsame hlater, hlast⟩

theorem Buffered.twin (h : Buffered setup current s) : Twin s.working.engine s.working.engine := by
  cases hcatchup : s.catchup with
  | none => exact Rests.twin (h.level hcatchup)
  | some operation =>
    obtain ⟨-, before, -, -, hrests⟩ := h.behind operation hcatchup
    exact Rests.twin hrests

/-- The engine survives the preparation: if it comes to the operation with which it catches up, or to
the one that is prepared, this is not left by what stops a writer. -/
def Calm (setup : ApplicationSetup K ops) (world : World K ops) (s : ReplicaApplication K ops)
    (operation : Operation) (payload : Bytes) : Prop :=
  s.closed = false → s.prepared = none →
    (∀ behind, s.catchup = some behind → s.working.leases = 0 →
      ¬ Halts setup world.toCallbacks s.working.engine behind) ∧
    ∀ next, (do
      let decoded ← decode world operation payload
      checkOperation setup (ReplicaApplication.catchUp setup world s).2 decoded
      return decoded) = .ok (.application next) →
      ¬ Halts setup world.toCallbacks (ReplicaApplication.catchUp setup world s).2.working.engine next

theorem Buffered.rejectedNext (h : Buffered setup current s) {operation : Operation}
    {payload : Bytes} {e : ApplicationFailure K}
    (hrejected : (ReplicaApplication.prepareNext setup world s operation payload).1 = .error e)
    (hcalm : ∀ next, (do
      let decoded ← decode world operation payload
      checkOperation setup s decoded
      return decoded) = .ok (.application next) →
      ¬ Halts setup world.toCallbacks s.working.engine next) :
    Level (ReplicaApplication.prepareNext setup world s operation payload).2 s := by
  have hlevel : Level s s := ⟨_, _, Rests.twin h.published, h.twin, rfl⟩
  unfold ReplicaApplication.prepareNext at hrejected ⊢
  split
  · exact hlevel
  rename_i hroom
  rw [if_neg hroom] at hrejected
  split
  · exact hlevel
  rename_i decoded hdecoded
  simp only [hdecoded] at hrejected
  cases happly : (applyDecoded setup world.toCallbacks s.working.engine decoded).1 with
  | ok _ => simp [happly] at hrejected
  | error e =>
    refine ⟨_, _, Rests.twin h.published, h.twin.failed happly ?_, by simp [happly]; rfl⟩
    rintro application rfl
    exact hcalm application hdecoded

/-- A rejected preparation leaves what it found, but for the build ids and for what was due. -/
theorem Buffered.rejected (h : Buffered setup current s) {operation : Operation} {payload : Bytes}
    {e : ApplicationFailure K}
    (hrejected : (ReplicaApplication.prepare setup world s operation payload).1 = .error e)
    (hcalm : Calm setup world s operation payload) :
    Same setup world (ReplicaApplication.prepare setup world s operation payload).2 s := by
  have hlevel : Level s s := ⟨_, _, Rests.twin h.published, h.twin, rfl⟩
  unfold ReplicaApplication.prepare at hrejected ⊢
  split
  · exact .inl hlevel
  rename_i hopen
  rw [if_neg hopen] at hrejected
  have hprepared : s.prepared = none := by
    simpa using (not_or.mp hopen).2
  obtain ⟨hcatches, hnext⟩ := hcalm (by simpa using (not_or.mp hopen).1) hprepared
  cases hcaught : (ReplicaApplication.catchUp setup world s).1 with
  | ok _ =>
    obtain ⟨hbuffered, hnone⟩ := @Buffered.catchUp _ _ _ _ _ world _ _ h hprepared
    simp only [hcaught] at hrejected ⊢
    have hlater := hbuffered.rejectedNext hrejected hnext
    cases hcatchup : s.catchup with
    | none =>
      rw [catchUp_none hcatchup] at hlater ⊢
      exact .inl hlater
    | some operation =>
      have hleases : s.working.leases = 0 := by
        by_contra hleases
        rw [catchUp_waits hcatchup hleases] at hcaught
        cases hcaught
      exact .inr ⟨⟨hprepared, h.retired, hleases, hcaught⟩, hlater⟩
  | error e =>
    refine .inl ?_
    simp only
    cases hcatchup : s.catchup with
    | none =>
      rw [catchUp_none hcatchup] at hcaught
      cases hcaught
    | some operation =>
      by_cases hleases : s.working.leases = 0
      · cases happly : (apply setup world.toCallbacks s.working.engine operation).1 with
        | error e =>
          rw [catchUp_fails hcatchup hleases happly]
          have hfailed : (applyDecoded setup world.toCallbacks s.working.engine
            (.application operation)).1 = .error e := happly
          refine ⟨_, _, Rests.twin h.published, h.twin.failed hfailed fun behind hbehind => ?_, rfl⟩
          cases hbehind
          exact hcatches operation hcatchup hleases
        | ok _ =>
          rw [catchUp_done hcatchup hleases happly] at hcaught
          cases hcaught
      · rw [catchUp_waits hcatchup hleases]
        exact hlevel

/-- The applications differ at most in the build ids of their engines and, while nothing is
prepared, in whether the working engine has caught up. -/
structure Alike (s t : ReplicaApplication K ops) : Prop where
  published : s.published.engine.current = t.published.engine.current
  readers : s.published.leases = t.published.leases ∧ s.published.retired = t.published.retired
  index : s.index = t.index
  sequence : s.sequence = t.sequence
  prepared : s.prepared = t.prepared
  registered : s.registered = t.registered
  closed : s.closed = t.closed
  working : s.prepared ≠ none → s.working.engine.current = t.working.engine.current

theorem Same.alike {s t : ReplicaApplication K ops} (same : Same setup world s t) : Alike s t := by
  rcases same with ⟨published, working, hpublished, hworking, rfl⟩ | ⟨due, level⟩
  · exact ⟨hpublished.current_eq, ⟨rfl, rfl⟩, rfl, rfl, rfl, rfl, rfl,
      fun _ => hworking.current_eq⟩
  · obtain ⟨engine, catchup, hframe⟩ := catchUp_frame setup world t
    rw [hframe] at level
    obtain ⟨published, working, hpublished, -, rfl⟩ := level
    exact ⟨hpublished.current_eq, ⟨rfl, rfl⟩, rfl, rfl, rfl, rfl, rfl,
      fun hsome => absurd due.prepared hsome⟩

theorem Buffered.leased (h : Buffered setup current s) (hleases : s.working.leases ≠ 0)
    (operation : Operation) (payload : Bytes) :
    (ReplicaApplication.prepare setup world s operation payload).2 = s := by
  unfold ReplicaApplication.prepare
  split
  · rfl
  cases hcatchup : s.catchup with
  | none => exact absurd (h.drained hcatchup) hleases
  | some other => rw [catchUp_waits hcatchup hleases]

/-! ### The double buffer -/

/-- The state of an application that has published the operations of a log: what its readers see,
what a preparation makes of it, and that a rejected preparation that the engine survives shows nowhere
behind it, as long as the build ids of the engine last. -/
structure DoubleBuffered (setup : ApplicationSetup K ops) (current : PublishedState K T ops.Index)
    (log : List (Decoded K ops)) (s : ReplicaApplication K ops) : Prop where
  published : s.published.engine.current = folded setup current log
  leased : s.working.leases ≠ 0 → ∀ world operation payload,
    (prepare setup world s operation payload).2.working.engine = s.working.engine
  prepared : ∀ world operation payload, (prepare setup world s operation payload).1 = .ok () →
    ∃ decoded, decode world operation payload = .ok decoded ∧
      (prepare setup world s operation payload).2.prepared = some decoded ∧
      (prepare setup world s operation payload).2.working.engine.current =
        folded setup current (log ++ [decoded]) ∧
      (prepare setup world s operation payload).2.published = s.published
  rejected : ∀ world operation payload e,
    (prepare setup world s operation payload).1 = .error e →
    Calm setup world s operation payload → ∀ events,
    RoomyRun setup world (prepare setup world s operation payload).2 events →
    (results setup world (prepare setup world s operation payload).2 events).1 =
        (results setup world s events).1 ∧
      Alike (results setup world (prepare setup world s operation payload).2 events).2
        (results setup world s events).2

/-- Every run of an application that starts with two equal engines. -/
theorem run_doubleBuffered {start : ReplicaApplication K ops} (fresh : Fresh current start)
    {log : List (Decoded K ops)} (run : Run setup start log s) :
    DoubleBuffered setup current log s := by
  have h : Buffered setup (folded setup current log) s := run.buffered fresh.buffered
  refine ⟨?_, fun hleases world operation payload => ?_, fun world operation payload hok => ?_,
    fun world operation payload e hrejected hcalm events hroom => ?_⟩
  · obtain ⟨accepting, n, hengine⟩ := h.published
    rw [hengine]
    rfl
  · rw [h.leased hleases]
  · obtain ⟨decoded, hdecode, haccepted⟩ := (h.prepare operation payload).2 hok
    refine ⟨decoded, hdecode, haccepted.prepared, ?_, haccepted.published⟩
    obtain ⟨accepting, n, hengine⟩ := haccepted.working
    rw [hengine, folded_append]
    rfl
  · obtain ⟨hsame, hlast⟩ := (h.rejected hrejected hcalm).results events hroom
    exact ⟨hsame, hlast.alike⟩

end

/-! ### One extractor that throws an `Error` -/

def numberSetup : ApplicationSetup ℕ twoFieldOps := ⟨id, fun _ => true, 10, 10⟩

/-- Every payload of one byte is an addition, and the extractor of the index on the first field throws
an `Error` for document 7. -/
def failingWorld : World ℕ twoFieldOps where
  fault _ _ mutation := if mutation = .add 7 then .index 0 .error else .none
  building _ _ := none
  rejects _ _ := false
  buildFails _ _ _ := false
  replayThrows _ _ _ := none
  decode _ payload :=
    match payload with
    | [document] => .ok (.add document.toNat)
    | _ => .error (.replication .integrityFailure "invalid application payload")

/-- The application over two engines with an index on the first field. -/
def numberApplication : ReplicaApplication ℕ twoFieldOps where
  published := ⟨idle twoFieldEngine 0, 0, false⟩
  index := 0
  sequence := 0
  working := ⟨idle twoFieldEngine 0, 0, true⟩
  catchup := none
  prepared := none
  registered := [(false, ())]
  closed := false

theorem numberApplication_fresh : Fresh twoFieldEngine numberApplication where
  published := ⟨0, rfl⟩
  working := ⟨0, rfl⟩
  leases := rfl
  retired := ⟨rfl, rfl⟩
  catchup := rfl
  prepared := rfl
  wellFormed := ⟨nofun, nofun, by simp [twoFieldEngine]⟩

/-- Behind the rejected addition of document 7 the addition of document 8 is refused as well, which is
accepted without it. -/
theorem rejected_shows :
    ¬ ∀ current start, Fresh current start → ∀ log s, Run numberSetup start log s →
      ∀ world operation payload e, (prepare numberSetup world s operation payload).1 = .error e →
        ∀ events,
          (results numberSetup world (prepare numberSetup world s operation payload).2 events).1 =
            (results numberSetup world s events).1 := by
  intro h
  have hsame := h twoFieldEngine numberApplication numberApplication_fresh [] numberApplication .nil
    failingWorld .add [7] (.engine (.mutation (.callback .error))) rfl [.prepare .add [8]]
  have hwith : (results numberSetup failingWorld
      (prepare numberSetup failingWorld numberApplication .add [7]).2 [.prepare .add [8]]).1 =
      [.called (.error (.engine .closed))] := rfl
  have hwithout : (results numberSetup failingWorld numberApplication [.prepare .add [8]]).1 =
      [.called (.ok ())] := rfl
  rw [hwith, hwithout] at hsame
  cases hsame

/-- Document 8 is published, a payload that is no operation is rejected behind it, and document 9 is
published. -/
theorem run_doubleBuffered_number : ∃ s : ReplicaApplication ℕ twoFieldOps, s.index = 2 ∧
    DoubleBuffered numberSetup twoFieldEngine [.application (.add 8), .application (.add 9)] s := by
  have run : Run numberSetup numberApplication [.application (.add 8), .application (.add 9)] _ :=
    ((((Run.nil.step failingWorld (.prepare .add [8])).step failingWorld (.publish 1)).step
      failingWorld (.prepare .add [])).step failingWorld (.prepare .add [9])).step failingWorld
      (.publish 2)
  exact ⟨_, rfl, run_doubleBuffered numberApplication_fresh run⟩

end ReplicaApplication

end GeneralSearch.Replica
