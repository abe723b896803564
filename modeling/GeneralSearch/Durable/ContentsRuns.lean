import GeneralSearch.Durable.Contents

/-! Whole runs of the durable engine: what the store holds is what the acknowledged mutations mean,
in the engine, in the state that replay recovers from any start, and in the engine that is opened
over that state. -/

namespace GeneralSearch.Durable

open GeneralSearch.Storage GeneralSearch.Engine
open GeneralSearch.Utf8 (JavaString)

variable {K T : Type} [DecidableEq K] {ops : IndexOps T} {setup : Setup K ops}

/-! ### Acknowledged mutations -/

/-- The mutations of a task whose futures complete normally. -/
def DurableEngine.acknowledged (setup : Setup K ops) (s : DurableEngine K ops) :
    Task setup → List (SearchMutation K T)
  | .batch tasks storage =>
    if s.coordinator.terminal then []
    else
      let tasks := tasks.map (preparedTask setup)
      let r := applyAll ops setup.idOf (.ofPublished ops s.engine.current) tasks
      let units := (preparedMutations setup (successful tasks r.1)).map (⟨singleType, ·⟩)
      let commit := s.coordinator.commitGroup setup.config units
        r.2.snapshots.activeDocuments.card storage
      (processBatch ops setup.idOf s.engine.current tasks commit.1).completed.map (·.mutation)
  | .bulk tasks storage =>
    if s.coordinator.terminal then []
    else
      let prepared := tasks.map (preparedTask setup)
      match bulkIds setup.idOf [] prepared,
          applyBulk ops setup.idOf (.ofPublished ops s.engine.current) prepared,
          bulkUnit setup.config (preparedMutations setup prepared) with
      | .ok _, .ok (_, state), .ok unit =>
        let commit := s.coordinator.commitGroup setup.config [unit]
          state.snapshots.activeDocuments.card storage
        match (s.engine.processBulk ops setup.idOf prepared commit.1).1 with
        | .ok _ => tasks.map (·.mutation)
        | .error _ => []
      | _, _, _ => []
  | _ => []

/-- The acknowledged mutations of a run, in order. -/
def DurableEngine.acknowledgedRun (setup : Setup K ops)
    (startupIndexes : List DurableIndexDescriptor) :
    DurableEngine K ops → List (Task setup) → List (SearchMutation K T)
  | _, [] => []
  | s, task :: rest => s.acknowledged setup task ++
      acknowledgedRun setup startupIndexes (s.handle setup startupIndexes task) rest

/-- The task is admissible, and no index builder throws in a batch that is committed. -/
def Undisturbed (setup : Setup K ops) (s : DurableEngine K ops) (task : Task setup) : Prop :=
  Admissible setup s task ∧ match task with
    | .batch tasks storage => batchCommits setup s tasks storage = true →
        someThrow ops setup.idOf (fun _ => true) (.ofPublished ops s.engine.current)
          (tasks.map (preparedTask setup)) = false
    | _ => True

def UndisturbedRun (setup : Setup K ops) (startupIndexes : List DurableIndexDescriptor) :
    DurableEngine K ops → List (Task setup) → Prop
  | _, [] => True
  | s, task :: rest => Undisturbed setup s task ∧
      UndisturbedRun setup startupIndexes (s.handle setup startupIndexes task) rest

/-! ### The invariant -/

/-- The published state shows the contents. -/
abbrev PublishedShows (setup : Setup K ops) (current : PublishedState K T ops.Index)
    (contents : Contents K) : Prop :=
  Shows setup (slotsOf current.snapshot.get current.nextDocId) current.documentIds contents

/-- The engine holds the contents, and so does every recovered state. -/
structure Faithful (setup : Setup K ops) (startupIndexes : List DurableIndexDescriptor)
    (s : DurableEngine K ops) (contents : Contents K) : Prop where
  shows : PublishedShows setup s.engine.current contents
  recalls : ∀ c ∈ s.starts, ∀ R, replay setup startupIndexes c s.coordinator.frames = .ok R →
    Recalls setup contents R

section

variable {startupIndexes : List DurableIndexDescriptor} {s : DurableEngine K ops}
  {contents : Contents K}

theorem Faithful.refused (h : Faithful setup startupIndexes s contents) {engine : EngineState K ops}
    (hcurrent : engine.current = s.engine.current) {c : Coordinator}
    (hframes : c.frames = s.coordinator.frames) :
    Faithful setup startupIndexes { s with engine, coordinator := c } contents where
  shows := by rw [hcurrent]; exact h.shows
  recalls := by rw [hframes]; exact h.recalls

/-- A committed group whose units mean what the engine did. -/
theorem Faithful.committed (hsound : Sound setup startupIndexes s)
    (h : Faithful setup startupIndexes s contents) {engine : EngineState K ops}
    {units : List PreparedUnit} {meanings : List (List (SearchMutation K T))}
    (hmeans : List.Forall₂ (Means setup) units meanings) {mutations : List (SearchMutation K T)}
    (hflatten : meanings.flatten = mutations)
    (hshows : PublishedShows setup engine.current (afterAll setup contents mutations)) (n : ℕ) :
    Faithful setup startupIndexes { s with
      engine
      coordinator := ⟨n, n, false, s.coordinator.frames ++
        sequenced (s.coordinator.publishedSequence + 1) units⟩ }
      (afterAll setup contents mutations) where
  shows := hshows
  recalls := by
    intro c hc R' hR'
    subst hflatten
    obtain ⟨R, hR, hmatches⟩ := hsound.accepted c hc
    have hrecalls := h.recalls c hc R hR
    unfold replay at hR hR'
    rw [applyFrames_append, hR] at hR'
    exact applyFrames_recalls hrecalls hmeans hmatches.sequence hR'

theorem Faithful.stop (h : Faithful setup startupIndexes s contents) :
    Faithful setup startupIndexes s.stopAfterFailure contents :=
  h.refused (show s.engine.stopAfterFailure.current = _ from rfl) rfl

theorem Faithful.failed (h : Faithful setup startupIndexes s contents) (e : ControlFailure K) :
    Faithful setup startupIndexes (s.failed e) contents := by
  unfold DurableEngine.failed
  split
  · exact h.stop
  · exact h

/-! ### Mutations -/

/-- What a batch without an `Error` and with a successful task completes. -/
theorem processBatch_completed {idOf : T → K} {current : PublishedState K T ops.Index}
    {tasks : List (MutationTask K T)}
    (herred : ¬ erred (applyAll ops idOf (.ofPublished ops current) tasks).1 = true)
    (hok : successful tasks (applyAll ops idOf (.ofPublished ops current) tasks).1 ≠ [])
    (commit : CommitResult) :
    (processBatch ops idOf current tasks commit).completed =
      if commit = .committed then
        successful tasks (applyAll ops idOf (.ofPublished ops current) tasks).1
      else [] := by
  cases commit <;> simp [processBatch, herred, hok]

/-- Every unit of a batch means the mutation of its task. -/
theorem means_batch (b : BatchState K T ops.Builder) (tasks : List (MutationTask K T))
    {ok : List (MutationTask K T)}
    (hok : ok = successful (tasks.map (preparedTask setup))
      (applyAll ops setup.idOf b (tasks.map (preparedTask setup))).1) :
    List.Forall₂ (Means setup) ((preparedMutations setup ok).map (⟨singleType, ·⟩))
      (ok.map fun task => [task.mutation]) := by
  induction tasks generalizing b ok with
  | nil =>
    subst hok
    exact .nil
  | cons task tasks ih =>
    simp only [List.map_cons, applyAll] at hok
    cases hr : (applyTask ops setup.idOf b (preparedTask setup task)).1 with
    | error e =>
      rw [hr, successful] at hok
      exact ih _ hok
    | ok change =>
      rw [hr, successful] at hok
      obtain ⟨hself, payload, hpayload⟩ := prepared_of_ok hr
      subst hok
      rw [hself]
      have hcons : ∀ rest : List (MutationTask K T),
          preparedMutations setup (task :: rest) = payload :: preparedMutations setup rest := by
        intro rest
        simp [preparedMutations, hpayload, Except.toOption]
      rw [hcons, List.map_cons, List.map_cons]
      exact .cons (.single hpayload) (ih _ rfl)

theorem Faithful.batch (hsound : Sound setup startupIndexes s)
    (h : Faithful setup startupIndexes s contents) (hterminal : s.coordinator.terminal = false)
    {tasks : List (MutationTask K T)} {storage : StorageAnswer}
    (hthrow : batchCommits setup s tasks storage = true →
      someThrow ops setup.idOf (fun _ => true) (.ofPublished ops s.engine.current)
        (tasks.map (preparedTask setup)) = false) :
    Faithful setup startupIndexes (s.batch setup tasks storage)
      (afterAll setup contents (s.acknowledged setup (.batch tasks storage))) := by
  have hwf : (BatchState.ofPublished ops s.engine.current).WellFormed := hsound.wellFormed.batch
  unfold batchCommits at hthrow
  unfold DurableEngine.batch DurableEngine.acknowledged
  simp only [hterminal, Bool.false_eq_true, if_false] at hthrow ⊢
  split
  · rename_i herred
    simp only [processBatch, if_pos herred]
    exact h.stop
  rename_i herred
  split
  · rename_i hok
    simp only [processBatch, if_neg herred, if_pos hok]
    exact h
  rename_i hok
  generalize hr : s.coordinator.commitGroup setup.config _ _ storage = r at hthrow ⊢
  have hcurrent := batch_current herred hok r.1
  rw [processBatch_completed herred hok]
  rcases commitGroup_cases (hsound.settled hterminal) hterminal hr with
    ⟨hcommit, -, -, hc⟩ | ⟨hcommit, hframes, -, -⟩
  · have hquiet := hthrow (by simp [herred, hok, hcommit])
    have hshows := applyAll_shows hwf (show BatchShows setup _ contents from h.shows) hquiet
    have hmeans : List.Forall₂ (Means setup) _ _ :=
      means_batch (.ofPublished ops s.engine.current) tasks rfl
    rw [if_pos hcommit] at hcurrent ⊢
    rw [hc]
    refine h.committed hsound hmeans ?_ ?_ _
    · rw [← List.flatMap_def, ← List.map_eq_flatMap]
    · rw [hcurrent]
      exact hshows
  · rw [if_neg hcommit] at hcurrent ⊢
    exact h.refused hcurrent hframes

/-- The answer to a bulk whose mutations were all applied. -/
theorem processBulk_result {idOf : T → K} {e : EngineState K ops} {tasks : List (MutationTask K T)}
    (hids : bulkIds idOf [] tasks = .ok ()) {changes : List (IndexChange T)}
    {state : BatchState K T ops.Builder}
    (hbulk : applyBulk ops idOf (.ofPublished ops e.current) tasks = .ok (changes, state))
    (commit : CommitResult) :
    (e.processBulk ops idOf tasks commit).1 =
      if commit = .committed then .ok () else .error .durability := by
  unfold EngineState.processBulk
  simp only [hids, hbulk]
  cases commit <;> rfl

theorem Faithful.bulk (hsound : Sound setup startupIndexes s)
    (h : Faithful setup startupIndexes s contents) (hterminal : s.coordinator.terminal = false)
    (tasks : List (MutationTask K T)) (storage : StorageAnswer) :
    Faithful setup startupIndexes (s.bulk setup tasks storage)
      (afterAll setup contents (s.acknowledged setup (.bulk tasks storage))) := by
  have hwf : (BatchState.ofPublished ops s.engine.current).WellFormed := hsound.wellFormed.batch
  unfold DurableEngine.bulk DurableEngine.acknowledged
  simp only [hterminal, Bool.false_eq_true, if_false]
  cases hids : bulkIds setup.idOf [] (tasks.map (preparedTask setup)) with
  | error e => exact h.failed e
  | ok _ =>
  cases hbulk : applyBulk ops setup.idOf (.ofPublished ops s.engine.current)
      (tasks.map (preparedTask setup)) with
  | error e => exact h.failed e
  | ok result =>
  cases hunit : bulkUnit setup.config
      (preparedMutations setup (tasks.map (preparedTask setup))) with
  | error e => exact h
  | ok unit =>
  obtain ⟨changes, state⟩ := result
  dsimp only
  generalize hr : s.coordinator.commitGroup setup.config _ _ storage = r
  obtain ⟨-, hcurrent⟩ := hsound.builds.bulk hids hbulk r.1
  have hshows := applyBulk_shows hwf (show BatchShows setup _ contents from h.shows) hbulk
  rw [List.map_map, show ((·.mutation) ∘ preparedTask setup : MutationTask K T → _) = (·.mutation)
    from funext (preparedTask_mutation setup)] at hshows
  split
  · rename_i hnil
    rw [List.map_eq_nil_iff.mp hnil]
    split <;> exact h
  rcases commitGroup_cases (hsound.settled hterminal) hterminal hr with
    ⟨hcommit, -, -, hc⟩ | ⟨hcommit, hframes, -, -⟩
  · rw [if_pos hcommit] at hcurrent
    rw [processBulk_result hids hbulk, if_pos hcommit, hc]
    refine h.committed hsound (.cons (.bulk hids hunit) .nil) ?_ ?_ _
    · exact List.append_nil _
    · rw [hcurrent]
      exact hshows
  · rw [if_neg hcommit] at hcurrent
    rw [processBulk_result hids hbulk, if_neg hcommit]
    exact h.refused hcurrent hframes

/-! ### Indexes -/

omit [DecidableEq K] in
theorem createIndexUnit_type {descriptor : DurableIndexDescriptor} {unit : PreparedUnit}
    (h : createIndexUnit descriptor = some unit) : unit.type = indexCreateType := by
  simp only [createIndexUnit, bind, Option.bind_eq_some_iff, pure, Option.some.injEq] at h
  obtain ⟨_, -, _, -, rfl⟩ := h
  rfl

omit [DecidableEq K] in
theorem dropIndexUnit_type {fieldName : JavaString} {unit : PreparedUnit}
    (h : dropIndexUnit fieldName = some unit) : unit.type = indexDropType := by
  simp only [dropIndexUnit, bind, Option.bind_eq_some_iff, pure, Option.some.injEq] at h
  obtain ⟨_, -, rfl⟩ := h
  rfl

/-- The unit of an installed index means no mutation. -/
theorem means_durableUnit (field : ops.Field) (indexType : ops.Kind) :
    ∃ meanings, List.Forall₂ (Means setup) (durableUnit setup field indexType).toList meanings ∧
      meanings.flatten = [] := by
  cases hunit : durableUnit setup field indexType with
  | none => exact ⟨[], .nil, rfl⟩
  | some unit =>
    obtain ⟨descriptor, -, hcreate⟩ := Option.bind_eq_some_iff.mp hunit
    exact ⟨[[]], .cons (.index (.inl (createIndexUnit_type hcreate))) .nil, rfl⟩

theorem Faithful.createIndex (h : Faithful setup startupIndexes s contents)
    (definition : IndexDefinition setup) (rejected : Bool) :
    Faithful setup startupIndexes (s.createIndex setup definition rejected) contents := by
  unfold DurableEngine.createIndex
  split
  · exact h
  · exact h.refused (processCreateIndex_current ..) rfl

theorem Faithful.dropIndex (hsound : Sound setup startupIndexes s)
    (h : Faithful setup startupIndexes s contents) (hterminal : s.coordinator.terminal = false)
    (fieldName : JavaString) (storage : StorageAnswer) :
    Faithful setup startupIndexes (s.dropIndex setup fieldName storage) contents := by
  unfold DurableEngine.dropIndex
  split
  case h_2 => exact h
  rename_i field unit hfield hunit
  have hregistered : setup.schema.registered field = true := by
    have hfound : setup.schema.name field = fieldName := by simpa using List.find?_some hfield
    simp [SearchSchema.registered, hfound, hfield]
  dsimp only
  generalize hr : s.coordinator.commitGroup setup.config _ _ storage = r
  rcases commitGroup_cases (hsound.settled hterminal) hterminal hr with
    ⟨hcommit, -, -, hc⟩ | ⟨hcommit, hframes, -, -⟩
  · rw [hc, hcommit]
    have hcurrent := (processDropIndex_committed s.engine hregistered).1
    refine h.committed hsound (.cons (.index (.inr (dropIndexUnit_type hunit))) .nil) rfl ?_ _
    rw [hcurrent]
    exact h.shows
  · exact h.refused (hsound.builds.dropRefused hregistered hcommit).2 hframes

theorem Faithful.installIndex (hsound : Sound setup startupIndexes s)
    (h : Faithful setup startupIndexes s contents) (hterminal : s.coordinator.terminal = false)
    (position : ℕ) (buildFails : Bool) (replayThrows : Option Thrown) (storage : StorageAnswer) :
    Faithful setup startupIndexes
      (s.installIndex setup position buildFails replayThrows storage) contents := by
  unfold DurableEngine.installIndex
  dsimp only
  cases htask : s.engine.executing[position]? with
  | none =>
    simp only [EngineState.process, htask]
    exact h.refused rfl rfl
  | some task =>
    simp only [EngineState.process, htask]
    generalize hbase : ({ s.engine with executing := s.engine.executing.eraseIdx position } :
      EngineState K ops) = e
    generalize (if buildFails = true then none
      else some (buildIndex ops task.baseSnapshot task.emptyIndex)) = built
    have hcurrent : e.current = s.engine.current := by rw [← hbase]
    split
    · rename_i pending index hinstalled
      obtain ⟨-, hothers⟩ := processInstallIndex_fresh hinstalled
      obtain ⟨-, -, -, hcurrent'⟩ := processInstallIndex_installed (Prod.ext hinstalled rfl)
      generalize hr : s.coordinator.commitGroup setup.config _ _ storage = r
      rcases commitGroup_cases (hsound.settled hterminal) hterminal hr with
        ⟨hcommit, -, -, hc⟩ | ⟨hcommit, hframes, -, -⟩
      · rw [hc, hcommit]
        obtain ⟨meanings, hmeans, hflatten⟩ :=
          @means_durableUnit K T _ ops setup pending.field pending.indexType
        refine h.committed hsound hmeans hflatten ?_ _
        rw [hcurrent', hcurrent]
        exact h.shows
      · refine h.refused ?_ hframes
        rw [processInstallIndex_current _ _ _ _ _ (hothers _ hcommit), hcurrent]
    · rename_i hother
      refine h.refused ?_ rfl
      rw [processInstallIndex_current _ _ _ _ _ hother, hcurrent]

/-! ### Checkpoints and recovered engines -/

/-- A slot of a checkpoint holds the document that the engine has there, as the codec writes it. -/
theorem checkpointSlot_entry {current : PublishedState K T ops.Index} {docId : ℕ}
    {slot : Option (K × T)} (h : checkpointSlot setup current docId = some slot) :
    (slot.map fun entry => entryOf setup entry.2) =
      (current.snapshot.get docId).map (entryOf setup) := by
  unfold checkpointSlot at h
  cases hget : current.snapshot.get docId with
  | none =>
    rw [hget] at h
    cases h
    rfl
  | some document =>
    simp only [hget] at h
    split at h
    case isFalse => cases h
    split at h
    case h_2 => cases h
    rename_i encoded _ hdoc
    obtain ⟨-, decoded, hdec, hid, hencode⟩ := canonicalDocument_ok hdoc
    rw [hdec] at h
    cases h
    simp only [Option.map_some, entryOf, hid, hencode, canonicalDocument_encoded hdoc]

omit [DecidableEq K] in
theorem filterMap_of_map_eq {α β γ : Type} {f : α → Option β} {as : List α} {bs : List β}
    (h : as.map f = bs.map some) {p : α → Option γ} {q : β → Option γ}
    (hpq : ∀ a b, f a = some b → q b = p a) : bs.filterMap q = as.filterMap p := by
  induction as generalizing bs with
  | nil =>
    obtain rfl := List.map_eq_nil_iff.mp h.symm
    rfl
  | cons a as ih =>
    cases bs with
    | nil => cases h
    | cons b bs =>
      obtain ⟨hb, hbs⟩ := List.cons.inj h
      rw [List.filterMap_cons, List.filterMap_cons, hpq a b hb, ih hbs]

/-- The checkpoint of a published state shows what the state shows. -/
theorem checkpointOf_recalls {current : PublishedState K T ops.Index} {sequence : ℕ}
    {loaded : Loaded K T} (hload : checkpointOf setup current sequence = some loaded)
    (h : PublishedShows setup current contents)
    (startupIndexes : List DurableIndexDescriptor) :
    Recalls setup contents (ReplayState.start startupIndexes (some loaded)) := by
  simp only [checkpointOf, bind, Option.bind_eq_some_iff] at hload
  obtain ⟨indexes, -, slots, hslots, hload⟩ := hload
  split at hload
  case isFalse => cases hload
  rename_i hunique
  cases hload
  have hslots := map_of_mapM hslots
  have hlen : slots.length = current.nextDocId := by
    simpa using (congrArg List.length hslots).symm
  have hkey : ∀ {d : ℕ} {k : K} {t : T}, slots[d]? = some (some (k, t)) →
      setup.idOf t = k ∧ current.documentIds k = some d := by
    intro d k t hd
    have hlt : d < slots.length := (List.getElem?_eq_some_iff.mp hd).1
    have hat := congrArg (·[d]?) hslots
    simp only [List.getElem?_map, hd, Option.map_some,
      List.getElem?_range (show d < current.nextDocId by omega), Option.some.injEq] at hat
    rcases checkpointSlot_eq_some hat with ⟨hnone, -⟩ | ⟨document, decoded, -, hsome, hid, hmap⟩
    · cases hnone
    · cases hsome
      exact ⟨hid, hmap⟩
  have hfind : ∀ {k : K} {d : ℕ},
      (slots.findIdx? fun slot => decide (slot.map Prod.fst = some k)) = some d →
      ∃ t, slots[d]? = some (some (k, t)) := by
    intro k d hd
    obtain ⟨hlt, hat, -⟩ := List.findIdx?_eq_some_iff_getElem.mp hd
    obtain ⟨⟨k', t⟩, ht, rfl⟩ := Option.map_eq_some_iff.mp (of_decide_eq_true hat)
    exact ⟨t, by rw [List.getElem?_eq_getElem hlt, ht]⟩
  refine ⟨⟨fun k d => ⟨fun hd => ?_, ?_⟩, ?_⟩, by simp [ReplayState.start, hlen], hunique⟩
  · obtain ⟨t, ht⟩ := hfind hd
    exact ⟨t, by simp [ReplayState.start, ht], (hkey ht).1⟩
  · rintro ⟨t, ht, rfl⟩
    obtain ⟨slot, hslot, heq⟩ : ∃ slot, slots[d]? = some slot ∧ slot.map Prod.snd = some t := by
      simpa [ReplayState.start] using ht
    obtain ⟨⟨k, t'⟩, rfl, rfl⟩ := Option.map_eq_some_iff.mp heq
    obtain ⟨rfl, hmap⟩ := hkey hslot
    have hfound : (slots.findIdx? fun slot =>
        decide (slot.map Prod.fst = some (setup.idOf t'))).isSome := by
      rw [List.findIdx?_isSome, List.any_eq_true]
      exact ⟨_, List.mem_of_getElem? hslot, by simp⟩
    obtain ⟨e, he⟩ := Option.isSome_iff_exists.mp hfound
    obtain ⟨t, ht⟩ := hfind he
    have hmap' := (hkey ht).2
    rw [hmap] at hmap'
    cases hmap'
    exact he
  · rw [← h.contents]
    show contentsOf setup (slots.map (Option.map Prod.snd)) = _
    rw [contentsOf, contentsOf, slotsOf, List.filterMap_map, List.filterMap_map]
    refine filterMap_of_map_eq hslots fun d slot hslot => ?_
    rw [Function.comp_apply, Function.comp_apply, ← checkpointSlot_entry hslot, Option.map_map]
    rfl

theorem Faithful.checkpoint (hsound : Sound setup startupIndexes s)
    (h : Faithful setup startupIndexes s contents) {loaded : Loaded K T}
    (hload : checkpointOf setup s.engine.current s.coordinator.publishedSequence = some loaded) :
    Faithful setup startupIndexes { s with checkpoints := loaded :: s.checkpoints } contents where
  shows := h.shows
  recalls := by
    intro c hc R hR
    rcases List.mem_cons.mp hc with rfl | hc
    · have hrecalls := checkpointOf_recalls hload h.shows startupIndexes
      have hsequence : loaded.sequence = s.coordinator.publishedSequence := by
        simp only [checkpointOf, bind, Option.bind_eq_some_iff] at hload
        obtain ⟨_, -, _, -, hload⟩ := hload
        split at hload
        · cases hload
          rfl
        · cases hload
      have hreplay : replay setup startupIndexes (some loaded) s.coordinator.frames =
          .ok (ReplayState.start startupIndexes (some loaded)) := by
        refine applyFrames_covered fun frame hframe => ?_
        show frame.sequence ≤ loaded.sequence
        rw [hsequence]
        exact hsound.covered frame hframe
      simp only at hR
      rw [hreplay] at hR
      cases hR
      exact hrecalls
    · exact h.recalls c hc R hR

omit [DecidableEq K] in
/-- The engine over a recovered state shows what the state shows. -/
theorem recoveredState_shows {R : ReplayState K T} {current : PublishedState K T ops.Index}
    (h : recoveredState setup R = some current) (hrecalls : Recalls setup contents R) :
    PublishedShows setup current contents := by
  simp only [recoveredState, bind, Option.bind_eq_some_iff] at h
  obtain ⟨definitions, -, h⟩ := h
  split at h
  case isFalse => cases h
  cases h
  have hslots : ∀ get : ℕ → Option T, (∀ d, get d = R.slots[d]?.join) →
      slotsOf get R.nextDocId = R.slots := by
    intro get hget
    refine List.ext_getElem (by simp [hrecalls.size]) fun d hd hlt => ?_
    simp [slotsOf, hget, List.getElem?_eq_getElem hlt]
  show Shows setup (slotsOf (SearchSnapshot.get _) R.nextDocId) R.documentIds contents
  rw [hslots]
  · exact hrecalls.shows
  intro d
  simp only [SearchSnapshot.get, Finset.mem_filter, Finset.mem_range]
  split
  · rfl
  rename_i hnot
  by_cases hd : d < R.slots.length
  · have hnone : R.slots[d] = none := by simpa [hd] using hnot
    rw [List.getElem?_eq_getElem hd, hnone]
    rfl
  · rw [List.getElem?_eq_none (by omega)]
    rfl

omit [DecidableEq K] in
/-- The definitions that the schema has for the descriptors of usable indexes. -/
theorem mapM_toDefinition {tags : List (ops.Field × ops.Kind)}
    {descriptors : List DurableIndexDescriptor} (husable : ∀ tag ∈ tags, Usable setup tag.1 tag.2)
    (h : tags.map (fun tag => descriptorOf setup tag.1 tag.2) = descriptors.map some) :
    descriptors.mapM (toDefinition setup) = some tags := by
  induction tags generalizing descriptors with
  | nil =>
    obtain rfl := List.map_eq_nil_iff.mp h.symm
    rfl
  | cons tag tags ih =>
    cases descriptors with
    | nil => cases h
    | cons d ds =>
      obtain ⟨hd, hds⟩ := List.cons.inj h
      rw [List.mapM_cons, toDefinition_descriptorOf (husable tag (by simp)) hd,
        ih (fun tag htag => husable tag (by simp [htag])) hds]
      rfl

omit [DecidableEq K] in
/-- A recovered state whose indexes stand for usable ones starts an engine with those indexes. -/
theorem exists_recoveredState (identity : IndexIdentity ops)
    {current : PublishedState K T ops.Index} {n : ℕ} {R : ReplayState K T}
    (hmatches : Matches setup current n R) (hunique : R.indexes.Nodup)
    (husable : ∀ tag ∈ tagsOf ops current.snapshot.indexes, Usable setup tag.1 tag.2) :
    ∃ current', recoveredState setup R = some current' ∧
      tagsOf ops current'.snapshot.indexes = tagsOf ops current.snapshot.indexes := by
  have hdefinitions := mapM_toDefinition husable hmatches.indexes
  have hnodup : (tagsOf ops current.snapshot.indexes).Nodup := by
    have hsome : (R.indexes.map some).Nodup := hunique.map (Option.some_injective _)
    rw [← hmatches.indexes] at hsome
    exact hsome.of_map _
  obtain ⟨current', hcurrent⟩ : ∃ current', recoveredState setup R = some current' := by
    simp only [recoveredState, hdefinitions, bind, Option.bind_some, if_pos hnodup]
    exact ⟨_, rfl⟩
  obtain ⟨-, -, -, -, husable', hindexes'⟩ :=
    recoveredState_eq_some identity hcurrent hmatches.consistent
  have hdefinitions' := mapM_toDefinition husable' hindexes'
  rw [hdefinitions] at hdefinitions'
  exact ⟨current', hcurrent, (Option.some.inj hdefinitions').symm⟩

/-- Opening the store again: the engine shows what the recovered state shows. -/
theorem Faithful.reopen (h : Faithful setup startupIndexes s contents) {R : ReplayState K T}
    (hR : replay setup startupIndexes s.checkpoints.head? s.coordinator.frames = .ok R)
    {current : PublishedState K T ops.Index} (hcurrent : recoveredState setup R = some current)
    (c : Coordinator) (hframes : c.frames = s.coordinator.frames) :
    Faithful setup startupIndexes { s with engine := .start current, coordinator := c }
      contents where
  shows := by
    refine recoveredState_shows hcurrent (h.recalls _ ?_ R hR)
    unfold DurableEngine.starts
    cases s.checkpoints with
    | nil => simp
    | cons loaded rest => simp
  recalls := by rw [hframes]; exact h.recalls

theorem Faithful.fresh (h : DurableEngine.fresh setup startupIndexes = some s) :
    Faithful setup startupIndexes s [] := by
  obtain ⟨current, hcurrent, rfl⟩ := Option.map_eq_some_iff.mp h
  have hunique : startupIndexes.Nodup := by
    simp only [recoveredState, bind, Option.bind_eq_some_iff] at hcurrent
    obtain ⟨definitions, hdefinitions, hcurrent⟩ := hcurrent
    split at hcurrent
    case isFalse => cases hcurrent
    rename_i hnodup
    have hmap : startupIndexes.map (toDefinition setup) = definitions.map some :=
      map_of_mapM hdefinitions
    have hsome : (definitions.map some).Nodup := hnodup.map (Option.some_injective _)
    rw [← hmap] at hsome
    exact hsome.of_map _
  have hrecalls : Recalls setup [] (ReplayState.start startupIndexes none : ReplayState K T) :=
    ⟨⟨fun k d => by simp [ReplayState.start], rfl⟩, rfl, hunique⟩
  refine ⟨recoveredState_shows hcurrent hrecalls, fun c hc R hR => ?_⟩
  obtain rfl : c = none := by simpa [DurableEngine.starts] using hc
  cases hR
  exact hrecalls

/-! ### Runs -/

/-- One task. -/
theorem Faithful.handle (hsound : Sound setup startupIndexes s)
    (h : Faithful setup startupIndexes s contents) {task : Task setup}
    (hundisturbed : Undisturbed setup s task) :
    Faithful setup startupIndexes (s.handle setup startupIndexes task)
      (afterAll setup contents (s.acknowledged setup task)) := by
  have hreopen : Faithful setup startupIndexes (s.handle setup startupIndexes .reopen)
      contents := by
    unfold DurableEngine.handle
    dsimp only
    split
    · exact h
    rename_i R hR
    split
    · exact h
    · exact h.reopen hR ‹_› _ rfl
  cases hterminal : s.coordinator.terminal with
  | false =>
    cases task with
    | batch tasks storage =>
      rw [DurableEngine.handle, hterminal]
      exact h.batch hsound hterminal hundisturbed.2
    | bulk tasks storage =>
      rw [DurableEngine.handle, hterminal]
      exact h.bulk hsound hterminal tasks storage
    | createIndex definition rejected =>
      rw [DurableEngine.handle, hterminal]
      exact h.createIndex definition rejected
    | installIndex position buildFails replayThrows storage =>
      rw [DurableEngine.handle, hterminal]
      exact h.installIndex hsound hterminal position buildFails replayThrows storage
    | dropIndex fieldName storage =>
      rw [DurableEngine.handle, hterminal]
      exact h.dropIndex hsound hterminal fieldName storage
    | checkpoint =>
      rw [DurableEngine.handle, hterminal]
      simp only [Bool.false_eq_true, if_false]
      split
      · exact h.checkpoint hsound ‹_›
      · exact h
    | reopen => exact hreopen
  | true =>
    cases task with
    | reopen => exact hreopen
    | _ =>
      simp only [DurableEngine.handle, DurableEngine.acknowledged, hterminal, if_true]
      exact h

theorem Faithful.run (identity : IndexIdentity ops) (hsound : Sound setup startupIndexes s)
    (h : Faithful setup startupIndexes s contents) {tasks : List (Task setup)}
    (hrun : UndisturbedRun setup startupIndexes s tasks) :
    Sound setup startupIndexes (s.run setup startupIndexes tasks) ∧
      Faithful setup startupIndexes (s.run setup startupIndexes tasks)
        (afterAll setup contents (s.acknowledgedRun setup startupIndexes tasks)) := by
  induction tasks generalizing s contents with
  | nil => exact ⟨hsound, h⟩
  | cons task tasks ih =>
    rw [DurableEngine.acknowledgedRun, afterAll_append]
    exact ih (hsound.handle identity hrun.1.1) (h.handle hsound hrun.1) hrun.2

/-- After every undisturbed run of the engine, in whatever order of batches, bulks, index changes,
checkpoints and reopenings, the store can be opened from the empty state and from every checkpoint
that was taken: what is opened has the acknowledged documents in their order, the indexes of the
engine and its sequence number. -/
theorem recovers_acknowledged (identity : IndexIdentity ops)
    (hfresh : DurableEngine.fresh setup startupIndexes = some s) {tasks : List (Task setup)}
    (hrun : UndisturbedRun setup startupIndexes s tasks) :
    PublishedShows setup (s.run setup startupIndexes tasks).engine.current
        (afterAll setup [] (s.acknowledgedRun setup startupIndexes tasks)) ∧
      ∀ c ∈ (s.run setup startupIndexes tasks).starts, ∃ R current,
        replay setup startupIndexes c (s.run setup startupIndexes tasks).coordinator.frames =
          .ok R ∧
        recoveredState setup R = some current ∧
        PublishedShows setup current
          (afterAll setup [] (s.acknowledgedRun setup startupIndexes tasks)) ∧
        tagsOf ops current.snapshot.indexes =
          tagsOf ops (s.run setup startupIndexes tasks).engine.current.snapshot.indexes ∧
        R.lastSequence = (s.run setup startupIndexes tasks).coordinator.publishedSequence := by
  obtain ⟨hsound, hfaithful⟩ := (Faithful.fresh hfresh).run identity (.fresh identity hfresh) hrun
  refine ⟨hfaithful.shows, fun c hc => ?_⟩
  obtain ⟨R, hR, hmatches⟩ := hsound.accepted c hc
  have hrecalls := hfaithful.recalls c hc R hR
  obtain ⟨current, hcurrent, htags⟩ :=
    exists_recoveredState identity hmatches hrecalls.unique hsound.usable
  exact ⟨R, current, hR, hcurrent, recoveredState_shows hcurrent hrecalls, htags,
    hmatches.sequence⟩

end

/-- A run of the store of bytes with a checkpoint behind its first group. -/
theorem recovers_acknowledged_bytes :
    afterAll byteSetup [] (freshStore.acknowledgedRun byteSetup [] roomyTasks) =
        [(8, some [8])] ∧
      ∀ c ∈ (freshStore.run byteSetup [] roomyTasks).starts, ∃ R current,
        replay byteSetup [] c (freshStore.run byteSetup [] roomyTasks).coordinator.frames =
          .ok R ∧
        recoveredState byteSetup R = some current ∧
        PublishedShows byteSetup current [(8, some [8])] := by
  have hcontents : afterAll byteSetup [] (freshStore.acknowledgedRun byteSetup [] roomyTasks) =
      [(8, some [8])] := by decide +kernel
  have hrun : UndisturbedRun byteSetup [] freshStore roomyTasks := by
    refine ⟨⟨fun _ => ⟨by decide +kernel, by decide +kernel⟩, fun _ => by decide +kernel⟩,
      ⟨fun _ index hindex => ?_, trivial⟩,
      ⟨fun _ => ⟨by decide +kernel, by decide +kernel⟩, fun _ => by decide +kernel⟩,
      ⟨fun _ => by decide +kernel, trivial⟩, trivial⟩
    have hnone : (freshStore.handle byteSetup []
        (.batch [⟨.add 7, .none⟩] ⟨48, false⟩)).engine.current.snapshot.indexes = [] := by
      decide +kernel
    rw [hnone] at hindex
    exact absurd hindex List.not_mem_nil
  obtain ⟨-, hrecovers⟩ := recovers_acknowledged listOps_identity rfl hrun
  refine ⟨hcontents, fun c hc => ?_⟩
  obtain ⟨R, current, hR, hcurrent, hshows, -⟩ := hrecovers c hc
  rw [hcontents] at hshows
  exact ⟨R, current, hR, hcurrent, hshows⟩

end GeneralSearch.Durable
