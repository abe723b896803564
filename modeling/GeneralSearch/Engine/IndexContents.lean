import GeneralSearch.Engine.IndexBuild

/-! What the indexes of the published snapshot hold.  A task reports its change, and the loops over the
index builders have made the same change in each of them; so in every run in which no mutation of a
published batch throws inside an index builder, all indexes hold the published documents: those that
were there from the start, and those that were built and installed on the way. -/

namespace GeneralSearch.Engine

open GeneralSearch.Storage

section

variable {K T : Type} [DecidableEq K] {ops : IndexOps T} {idOf : T → K} {law : LawfulIndex ops}

/-! ### The calls of a task -/

/-- A task that throws in no index has called each builder with the change that it reports. -/
theorem applyTask_indexes {s : BatchState K T ops.Builder} (hwf : s.WellFormed)
    {task : MutationTask K T}
    (ht : ∀ e, (applyTask ops idOf s task).1 = .error e → throwsInIndex ops idOf s task = false) :
    (applyTask ops idOf s task).2.snapshots.indexes = s.snapshots.indexes.map
      ((applyTask ops idOf s task).1.toOption.join.toList.foldl (applyChange ops)) := by
  have hstep := applyTask_cases idOf task hwf
  generalize (applyTask ops idOf s task).1 = r at hstep ht
  generalize (applyTask ops idOf s task).2 = s' at hstep
  cases hstep with
  | refused => exact (List.map_id' _).symm
  | absent => exact (List.map_id' _).symm
  | added => exact congrArg Prod.fst (forEachBuilder_none ..)
  | updated => exact congrArg Prod.fst (forEachBuilder_none ..)
  | removed => exact congrArg Prod.fst (forEachBuilder_none ..)
  | addThrew _ _ _ h => exact absurd (ht _ rfl) (by simp [h])
  | updateThrew _ _ _ _ _ _ _ h => exact absurd (ht _ rfl) (by simp [h])
  | removeThrew _ _ _ _ _ _ _ h => exact absurd (ht _ rfl) (by simp [h])

/-- Every active document is stored. -/
def Stored (documents : ℕ → Option T) (active : Finset ℕ) : Prop :=
  ∀ d ∈ active, (documents d).isSome = true

omit [DecidableEq K] in
theorem Stored.update {documents : ℕ → Option T} {active : Finset ℕ} (h : Stored documents active)
    (docId : ℕ) (document : T) :
    Stored (Function.update documents docId (some document)) (insert docId active) := by
  intro d hd
  rw [Function.update_apply]
  split
  · rfl
  · next hne => exact h d ((Finset.mem_insert.mp hd).resolve_left hne)

theorem applyTask_stored {s : BatchState K T ops.Builder} (hwf : s.WellFormed)
    (h : Stored s.snapshots.documents s.snapshots.activeDocuments) (task : MutationTask K T) :
    Stored (applyTask ops idOf s task).2.snapshots.documents
      (applyTask ops idOf s task).2.snapshots.activeDocuments := by
  have hstep := applyTask_cases idOf task hwf
  generalize (applyTask ops idOf s task).1 = r at hstep
  generalize (applyTask ops idOf s task).2 = s' at hstep
  cases hstep with
  | refused => exact h
  | absent => exact h
  | added document => exact h.update s.nextDocId document
  | addThrew document => exact h.update s.nextDocId document
  | updated document _ docId =>
    exact fun d hd => h.update docId document d (Finset.mem_insert_of_mem hd)
  | updateThrew document _ docId =>
    exact fun d hd => h.update docId document d (Finset.mem_insert_of_mem hd)
  | removed id document docId =>
    intro d hd
    obtain ⟨hne, hactive⟩ := Finset.mem_erase.mp hd
    simpa [Function.update_of_ne hne] using h d hactive
  | removeThrew => exact h

/-! ### Builders and snapshots -/

/-- The active documents are stored, and every builder holds them. -/
structure BuilderUpheld (law : LawfulIndex ops) (s : SearchSnapshotBuilder T ops.Builder) : Prop where
  stored : Stored s.documents s.activeDocuments
  holds : ∀ b ∈ s.indexes, ∃ f k, law.Holds f k b s.get

/-- The active documents are stored, and every index goes on from a builder that holds them. -/
structure Upheld (law : LawfulIndex ops) (s : SearchSnapshot T ops.Index) : Prop where
  stored : Stored s.documents s.activeDocuments
  holds : ∀ index ∈ s.indexes, ∃ f k, law.Holds f k (ops.toBuilder index) s.get

omit [DecidableEq K] in
theorem Upheld.ofSnapshot {base : SearchSnapshot T ops.Index} (h : Upheld law base) :
    BuilderUpheld law (.ofSnapshot ops base) := by
  refine ⟨h.stored, fun b hb => ?_⟩
  obtain ⟨index, hindex, rfl⟩ := List.mem_map.mp hb
  exact h.holds index hindex

omit [DecidableEq K] in
theorem BuilderUpheld.build {s : SearchSnapshotBuilder T ops.Builder} (h : BuilderUpheld law s) :
    Upheld law (s.build ops) := by
  refine ⟨h.stored, fun index hindex => ?_⟩
  obtain ⟨b, hb, rfl⟩ := List.mem_map.mp hindex
  obtain ⟨f, k, hholds⟩ := h.holds b hb
  exact ⟨f, k, law.holds_build hholds⟩

/-- One task that throws in no index. -/
theorem BuilderUpheld.applyTask {s : BatchState K T ops.Builder} (h : BuilderUpheld law s.snapshots)
    (hwf : s.WellFormed) {task : MutationTask K T}
    (ht : ∀ e, (applyTask ops idOf s task).1 = .error e → throwsInIndex ops idOf s task = false) :
    BuilderUpheld law (applyTask ops idOf s task).2.snapshots := by
  have hreplays : Replays s.docs _ (Engine.applyTask ops idOf s task).2.docs :=
    applyTask_replays idOf hwf fun e he => by simp [ht e he]
  refine ⟨applyTask_stored hwf h.stored task, fun b hb => ?_⟩
  rw [applyTask_indexes hwf ht] at hb
  obtain ⟨b, hmem, rfl⟩ := List.mem_map.mp hb
  obtain ⟨f, k, hholds⟩ := h.holds b hmem
  exact ⟨f, k, hreplays.holds law hholds⟩

theorem BuilderUpheld.applyAll {s : BatchState K T ops.Builder} (h : BuilderUpheld law s.snapshots)
    (hwf : s.WellFormed) {batch : List (MutationTask K T)}
    (ht : someThrow ops idOf (fun _ => true) s batch = false) :
    BuilderUpheld law (applyAll ops idOf s batch).2.snapshots := by
  induction batch generalizing s with
  | nil => exact h
  | cons task rest ih =>
    rw [someThrow, Bool.true_and, Bool.or_eq_false_iff] at ht
    exact ih (h.applyTask hwf fun _ _ => ht.1) (applyTask_wellFormed hwf) ht.2

/-- A bulk mutation that is applied to its end. -/
theorem BuilderUpheld.applyBulk {s s' : BatchState K T ops.Builder}
    (h : BuilderUpheld law s.snapshots) (hwf : s.WellFormed) {tasks : List (MutationTask K T)}
    {changes : List (IndexChange T)} (hbulk : applyBulk ops idOf s tasks = .ok (changes, s')) :
    BuilderUpheld law s'.snapshots := by
  induction tasks generalizing s changes with
  | nil =>
    cases hbulk
    exact h
  | cons task rest ih =>
    unfold Engine.applyBulk at hbulk
    split at hbulk
    · cases hbulk
    · next change s1 htask =>
      cases hrest : Engine.applyBulk ops idOf s1 rest with
      | error e => simp [hrest, Except.map] at hbulk
      | ok later =>
        simp only [hrest, Except.map, Except.ok.injEq, Prod.mk.injEq] at hbulk
        have hs1 : s1 = (Engine.applyTask ops idOf s task).2 := by rw [htask]
        subst hs1
        refine ih (h.applyTask hwf fun e he => ?_) (applyTask_wellFormed hwf)
          (hrest.trans (congrArg _ (Prod.ext rfl hbulk.2)))
        rw [htask] at he
        cases he

/-! ### Runs -/

/-- No mutation of a published batch throws inside an index builder. -/
def EngineState.Unbroken (ops : IndexOps T) (idOf : T → K) (s : EngineState K ops) :
    Event K ops → Prop
  | .batch tasks commit => commit ≠ .committed ∨
      erred (applyAll ops idOf (.ofPublished ops s.current) tasks).1 = true ∨
      someThrow ops idOf (fun _ => true) (.ofPublished ops s.current) tasks = false
  | _ => True

/-- Every task of the run is handled in a state in which it is unbroken. -/
def EngineState.UnbrokenRun (ops : IndexOps T) (idOf : T → K) (registered : ops.Field → Bool) :
    EngineState K ops → List (Event K ops) → Prop
  | _, [] => True
  | s, e :: rest => s.Unbroken ops idOf e ∧
      UnbrokenRun ops idOf registered (s.handle ops idOf registered e).2 rest

theorem someThrow_mono {p : SearchMutation K T → Bool} {s : BatchState K T ops.Builder}
    {batch : List (MutationTask K T)} (h : someThrow ops idOf (fun _ => true) s batch = false) :
    someThrow ops idOf p s batch = false := by
  induction batch generalizing s with
  | nil => rfl
  | cons task rest ih =>
    rw [someThrow, Bool.true_and, Bool.or_eq_false_iff] at h
    rw [someThrow, h.1, Bool.and_false, Bool.false_or]
    exact ih h.2

variable {s : EngineState K ops} {history : List (VersionedChange T)} {registered : ops.Field → Bool}

theorem EngineState.Unbroken.steady {e : Event K ops} (h : s.Unbroken ops idOf e) :
    s.Steady ops idOf e := by
  cases e with
  | batch tasks commit => exact .inr (h.imp_right fun hrest => hrest.imp_right someThrow_mono)
  | _ => trivial

theorem Upheld.batch (h : Upheld law s.current.snapshot) (hwf : s.current.WellFormed)
    {tasks : List (MutationTask K T)} {commit : CommitResult}
    (hunbroken : s.Unbroken ops idOf (.batch tasks commit)) :
    Upheld law (s.batch ops idOf tasks commit).current.snapshot := by
  unfold EngineState.batch
  by_cases herred : erred (Engine.applyAll ops idOf (.ofPublished ops s.current) tasks).1 = true
  · simpa [processBatch, herred, EngineState.stopAfterFailure] using h
  cases hok : successful tasks (Engine.applyAll ops idOf (.ofPublished ops s.current) tasks).1 with
  | nil => simpa [processBatch, herred, hok] using h
  | cons task rest =>
    cases commit with
    | capacityExceeded => simpa [processBatch, herred, hok] using h
    | terminal => simpa [processBatch, herred, hok, EngineState.stopAfterFailure] using h
    | committed =>
      have ht := (hunbroken.resolve_left (by simp)).resolve_left herred
      simp only [processBatch, herred, hok, reduceCtorEq, Bool.false_eq_true, if_false]
      exact (BuilderUpheld.applyAll (s := .ofPublished ops s.current) h.ofSnapshot hwf ht).build

theorem Upheld.bulk (h : Upheld law s.current.snapshot) (hwf : s.current.WellFormed)
    (tasks : List (MutationTask K T)) (commit : CommitResult) :
    Upheld law (s.processBulk ops idOf tasks commit).2.current.snapshot := by
  have hfailed : ∀ e, Upheld law (s.failed e).current.snapshot := by
    intro e
    unfold EngineState.failed
    split <;> exact h
  unfold EngineState.processBulk
  split
  · exact hfailed _
  split
  · exact hfailed _
  next hbulk =>
    cases commit with
    | committed =>
      exact (BuilderUpheld.applyBulk (s := .ofPublished ops s.current) h.ofSnapshot hwf hbulk).build
    | capacityExceeded => exact h
    | terminal => exact h

omit [DecidableEq K] in
theorem Upheld.drop (h : Upheld law s.current.snapshot) (field : ops.Field) (commit : CommitResult) :
    Upheld law (s.processDropIndex ops registered field commit).2.current.snapshot := by
  unfold EngineState.processDropIndex
  split
  · exact h
  split
  · rw [prune_current]
    dsimp only
    split
    · exact h
    · exact ⟨h.stored, fun index hindex => h.holds index (List.mem_of_mem_filter hindex)⟩
  · exact h
  · exact h

omit [DecidableEq K] in
theorem finish_current (buildId : ℕ) : (s.finish buildId).current = s.current := prune_current

omit [DecidableEq K] in
/-- A delivered build is installed, or the published state stays. -/
theorem processInstallIndex_current (buildId : ℕ) (built : Option ops.Index)
    (replayThrows : Option Thrown) (commit : CommitResult) :
    (∃ p index, (s.processInstallIndex ops buildId built replayThrows commit).1 =
        .installed p index) ∨
      (s.processInstallIndex ops buildId built replayThrows commit).2.current = s.current := by
  unfold EngineState.processInstallIndex
  split
  · exact .inr rfl
  split
  · exact .inr (finish_current buildId)
  dsimp only
  split
  · exact .inr rfl
  · exact .inr (finish_current buildId)
  split
  · exact .inr (finish_current buildId)
  cases commit with
  | committed => exact .inl ⟨_, _, rfl⟩
  | capacityExceeded => exact .inr (finish_current buildId)
  | terminal => exact .inr rfl

/-- One task of the writer. -/
theorem Upheld.handle (h : Upheld law s.current.snapshot) (htracks : Tracks s history)
    {e : Event K ops} (hunbroken : s.Unbroken ops idOf e) :
    Upheld law (s.handle ops idOf registered e).2.current.snapshot := by
  have hinstalled : ∀ p index, (s.handle ops idOf registered e).1 = .installed p index →
      Upheld law (s.handle ops idOf registered e).2.current.snapshot := by
    intro p index he
    obtain ⟨-, ⟨b, rfl, hholds⟩, hcurrent⟩ := htracks.installed_holds law he
    rw [hcurrent]
    refine ⟨h.stored, fun index hindex => ?_⟩
    rcases List.mem_append.mp hindex with hindex | hindex
    · exact h.holds index hindex
    · rw [List.mem_singleton.mp hindex]
      exact ⟨_, _, law.holds_build hholds⟩
  unfold EngineState.handle at hinstalled ⊢
  split
  swap
  · exact h
  next haccepting =>
    rw [if_pos haccepting] at hinstalled
    cases e with
    | batch tasks commit => exact h.batch htracks.wellFormed hunbroken
    | bulk tasks commit => exact h.bulk htracks.wellFormed tasks commit
    | createIndex field indexType prepared rejected =>
      unfold EngineState.process
      rw [processCreateIndex_current]
      exact h
    | dropIndex field commit => exact h.drop field commit
    | stop => exact h
    | installIndex position buildFails replayThrows commit =>
      unfold EngineState.process at hinstalled ⊢
      dsimp only at hinstalled ⊢
      split at hinstalled
      · exact h
      · next task htask =>
        rcases processInstallIndex_current (s := { s with
            executing := s.executing.eraseIdx position }) task.buildId
          (if buildFails then none else some (buildIndex ops task.baseSnapshot task.emptyIndex))
          replayThrows commit with ⟨p, index, he⟩ | hcurrent
        · exact hinstalled p index he
        · rw [hcurrent]
          exact h

/-- In every unbroken run all indexes of the published snapshot hold the published documents. -/
theorem Upheld.run (h : Upheld law s.current.snapshot) (htracks : Tracks s history)
    {events : List (Event K ops)} (hrun : s.UnbrokenRun ops idOf registered events) :
    Upheld law (s.run ops idOf registered events).current.snapshot := by
  induction events generalizing s history with
  | nil => exact h
  | cons e rest ih =>
    exact ih (h.handle htracks hrun.1) (handle_tracks law htracks hrun.1.steady) hrun.2

/-- The engine that is constructed over its index definitions. -/
def PublishedState.fresh (ops : IndexOps T) (definitions : List (ops.Field × ops.Kind)) :
    PublishedState K T ops.Index where
  snapshot := ⟨fun _ => none, ∅, definitions.map fun d => ops.createEmpty d.1 d.2, 0⟩
  documentIds _ := none
  nextDocId := 0

omit [DecidableEq K] in
theorem PublishedState.fresh_wellFormed (definitions : List (ops.Field × ops.Kind)) :
    (PublishedState.fresh (K := K) ops definitions).WellFormed :=
  ⟨nofun, nofun, fun _ hd => absurd hd (Finset.notMem_empty _)⟩

omit [DecidableEq K] in
theorem Upheld.fresh (definitions : List (ops.Field × ops.Kind)) :
    Upheld law (PublishedState.fresh (K := K) ops definitions).snapshot := by
  refine ⟨fun _ hd => absurd hd (Finset.notMem_empty _), fun index hindex => ?_⟩
  obtain ⟨⟨f, k⟩, -, rfl⟩ := List.mem_map.mp hindex
  refine ⟨f, k, ?_⟩
  convert law.holds_empty f k using 1
  funext d
  exact if_neg (Finset.notMem_empty _)

end

end GeneralSearch.Engine
