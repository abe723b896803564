import GeneralSearch.Durable.ContentsRuns
import GeneralSearch.Durable.WalFrames

/-! What one task of the engine writes to the log.  Its units have frames, and the store could also be
opened behind the first of them alone: a batch that is cut off is the batch of its first tasks. -/

namespace GeneralSearch.Durable

open GeneralSearch.Storage GeneralSearch.Engine
open GeneralSearch.Utf8 (JavaString)

variable {K T : Type} [DecidableEq K] {ops : IndexOps T} {setup : Setup K ops}

/-- The mutations of a task, unit by unit. -/
def DurableEngine.meanings (setup : Setup K ops) (s : DurableEngine K ops) :
    Task setup → List (List (SearchMutation K T))
  | .batch tasks storage => (s.acknowledged setup (.batch tasks storage)).map ([·])
  | task => [s.acknowledged setup task]

/-- An engine that has committed these frames and taken these checkpoints holds the contents. -/
def Resumes (setup : Setup K ops) (startupIndexes : List DurableIndexDescriptor)
    (checkpoints : List (Loaded K T)) (frames : List Frame) (sequence : ℕ)
    (contents : Contents K) : Prop :=
  ∃ e : DurableEngine K ops, e.checkpoints = checkpoints ∧ e.coordinator.frames = frames ∧
    e.coordinator.publishedSequence = sequence ∧ Sound setup startupIndexes e ∧
    Faithful setup startupIndexes e contents

theorem resumes_of {startupIndexes : List DurableIndexDescriptor} {e : DurableEngine K ops}
    {contents : Contents K} (hsound : Sound setup startupIndexes e)
    (h : Faithful setup startupIndexes e contents) :
    Resumes setup startupIndexes e.checkpoints e.coordinator.frames e.coordinator.publishedSequence
      contents :=
  ⟨e, rfl, rfl, rfl, hsound, h⟩

/-- What a task writes: its units, and what the store holds behind the first of them. -/
structure Writes (setup : Setup K ops) (startupIndexes : List DurableIndexDescriptor)
    (s s' : DurableEngine K ops) (meanings : List (List (SearchMutation K T)))
    (contents : Contents K) (units : List PreparedUnit) : Prop where
  frames : s'.coordinator.frames =
    s.coordinator.frames ++ sequenced (s.coordinator.publishedSequence + 1) units
  published : s'.coordinator.publishedSequence = s.coordinator.publishedSequence + units.length
  checkpoints : s'.checkpoints = s.checkpoints
  framed : ∀ unit ∈ units, DurableWal.Framed unit
  fits : s.coordinator.publishedSequence + units.length ≤ maxSequence
  counted : units.length ≤ meanings.length
  resumes : ∀ k ≤ units.length, Resumes setup startupIndexes s.checkpoints
    (s.coordinator.frames ++ sequenced (s.coordinator.publishedSequence + 1) (units.take k))
    (s.coordinator.publishedSequence + k) (afterAll setup contents (meanings.take k).flatten)

section

variable {startupIndexes : List DurableIndexDescriptor} {s s' : DurableEngine K ops}
  {contents : Contents K}

theorem Writes.nothing (hsound : Sound setup startupIndexes s)
    (h : Faithful setup startupIndexes s contents)
    (hframes : s'.coordinator.frames = s.coordinator.frames)
    (hpublished : s'.coordinator.publishedSequence = s.coordinator.publishedSequence)
    (hcheckpoints : s'.checkpoints = s.checkpoints)
    (hfits : s.coordinator.publishedSequence ≤ maxSequence)
    (meanings : List (List (SearchMutation K T))) :
    Writes setup startupIndexes s s' meanings contents [] where
  frames := by rw [hframes, sequenced, List.append_nil]
  published := hpublished
  checkpoints := hcheckpoints
  framed := by simp
  fits := hfits
  counted := Nat.zero_le _
  resumes := by
    intro k hk
    obtain rfl := Nat.le_zero.mp hk
    have hresumes := resumes_of hsound h
    rwa [← List.append_nil s.coordinator.frames] at hresumes

/-! ### Batches -/

/-- The first successful tasks of a batch are the successful ones of its first tasks. -/
theorem exists_successful_take (idOf : T → K) (b : BatchState K T ops.Builder)
    (tasks : List (MutationTask K T)) (k : ℕ) :
    ∃ i, successful (tasks.take i) (applyAll ops idOf b (tasks.take i)).1 =
      (successful tasks (applyAll ops idOf b tasks).1).take k := by
  induction tasks generalizing b k with
  | nil => exact ⟨0, by simp [successful]⟩
  | cons task tasks ih =>
    cases k with
    | zero => exact ⟨0, rfl⟩
    | succ k =>
      cases hr : (applyTask ops idOf b task).1 with
      | error e =>
        obtain ⟨i, hi⟩ := ih (applyTask ops idOf b task).2 (k + 1)
        refine ⟨i + 1, ?_⟩
        simp only [List.take_succ_cons, applyAll, hr, successful]
        exact hi
      | ok change =>
        obtain ⟨i, hi⟩ := ih (applyTask ops idOf b task).2 k
        refine ⟨i + 1, ?_⟩
        simp only [List.take_succ_cons, applyAll, hr, successful]
        rw [hi]

theorem roomForAdds_take {b : BatchState K T ops.Builder} {tasks : List (MutationTask K T)}
    (h : roomForAdds setup b tasks = true) (i : ℕ) :
    roomForAdds setup b (tasks.take i) = true := by
  induction tasks generalizing b i with
  | nil => rwa [List.take_nil]
  | cons task tasks ih =>
    cases i with
    | zero => rfl
    | succ i =>
      rw [roomForAdds, Bool.and_eq_true] at h
      rw [List.take_succ_cons, roomForAdds, h.1, ih h.2 i]
      rfl

theorem someThrow_take {idOf : T → K} {p : SearchMutation K T → Bool}
    {b : BatchState K T ops.Builder} {tasks : List (MutationTask K T)}
    (h : someThrow ops idOf p b tasks = false) (i : ℕ) :
    someThrow ops idOf p b (tasks.take i) = false := by
  induction tasks generalizing b i with
  | nil => rwa [List.take_nil]
  | cons task tasks ih =>
    cases i with
    | zero => rfl
    | succ i =>
      rw [someThrow, Bool.or_eq_false_iff] at h
      rw [List.take_succ_cons, someThrow, h.1, ih h.2 i]
      rfl

/-- The store could be opened behind the first units of a batch. -/
theorem Resumes.batch (identity : IndexIdentity ops) (hsound : Sound setup startupIndexes s)
    (h : Faithful setup startupIndexes s contents) {tasks : List (MutationTask K T)}
    (hroom : roomForAdds setup (.ofPublished ops s.engine.current)
      (tasks.map (preparedTask setup)) = true)
    (hremove : someThrow ops setup.idOf SearchMutation.isRemove (.ofPublished ops s.engine.current)
      (tasks.map (preparedTask setup)) = false)
    (hthrow : someThrow ops setup.idOf (fun _ => true) (.ofPublished ops s.engine.current)
      (tasks.map (preparedTask setup)) = false)
    {ok : List (MutationTask K T)} (hok : ok = successful (tasks.map (preparedTask setup))
      (applyAll ops setup.idOf (.ofPublished ops s.engine.current)
        (tasks.map (preparedTask setup))).1) {k : ℕ} (hk : k ≤ ok.length)
    (hmax : s.coordinator.publishedSequence + k ≤ maxSequence) :
    Resumes setup startupIndexes s.checkpoints
      (s.coordinator.frames ++ sequenced (s.coordinator.publishedSequence + 1)
        (((preparedMutations setup ok).map (⟨singleType, ·⟩)).take k))
      (s.coordinator.publishedSequence + k)
      (afterAll setup contents ((ok.map fun task => [task.mutation]).take k).flatten) := by
  have hwf : (BatchState.ofPublished ops s.engine.current).WellFormed := hsound.wellFormed.batch
  obtain ⟨i, hi⟩ := exists_successful_take setup.idOf (.ofPublished ops s.engine.current)
    (tasks.map (preparedTask setup)) k
  rw [← hok] at hi
  replace hroom := roomForAdds_take hroom i
  replace hremove := someThrow_take hremove i
  replace hthrow := someThrow_take hthrow i
  rw [← List.map_take] at hi hroom hremove hthrow
  -- The units of the first tasks are the first units.
  have hlen := preparedMutations_length setup (.ofPublished ops s.engine.current) (tasks.take i)
  rw [hi, List.length_take, Nat.min_eq_left hk] at hlen
  have hunits : ((preparedMutations setup ok).map (⟨singleType, ·⟩ : Bytes → PreparedUnit)).take k =
      (preparedMutations setup (ok.take k)).map (⟨singleType, ·⟩) := by
    have hprefix : preparedMutations setup (ok.take k) <+: preparedMutations setup ok :=
      (List.take_prefix k ok).filterMap _
    rw [← List.map_take, List.prefix_iff_eq_take.mp hprefix, hlen]
  have hlength : ((preparedMutations setup (ok.take k)).map
      (⟨singleType, ·⟩ : Bytes → PreparedUnit)).length = k := by
    rw [List.length_map, hlen]
  generalize hstate : (applyAll ops setup.idOf (.ofPublished ops s.engine.current)
    ((tasks.take i).map (preparedTask setup))).2 = state
  have htags := build_tags identity
    (applyAll_tags identity setup.idOf hwf ((tasks.take i).map (preparedTask setup)))
  have hadvance := advances_batch identity hwf hsound.keyed hroom hremove rfl
  have hmeans : List.Forall₂ (Means setup) _ _ :=
    means_batch (.ofPublished ops s.engine.current) (tasks.take i) rfl
  have hshows := applyAll_shows hwf (show BatchShows setup _ contents from h.shows) hthrow
  have hstateWf : (applyAll ops setup.idOf (.ofPublished ops s.engine.current)
      ((tasks.take i).map (preparedTask setup))).2.WellFormed := applyAll_wellFormed hwf _
  have hkeyed : Keyed setup.idOf (applyAll ops setup.idOf (.ofPublished ops s.engine.current)
      ((tasks.take i).map (preparedTask setup))).2 := applyAll_keyed hwf hsound.keyed _
  rw [hi] at hadvance hmeans hshows
  rw [hstate] at htags hadvance hshows hstateWf hkeyed
  -- An engine that has published the first tasks.
  obtain ⟨engine, hcurrent, hbuilds⟩ : ∃ engine : EngineState K ops,
      engine.current = state.build ops ∧ Builds setup engine :=
    ⟨{ s.engine with current := state.build ops }, rfl,
      hsound.builds.shrink (fun _ => id) (fun _ => id) (Nat.le_refl _)⟩
  replace hshows : PublishedShows setup engine.current
      (afterAll setup contents ((ok.take k).map (·.mutation))) := by
    rw [hcurrent]
    exact hshows
  have hsound' := hsound.committed hbuilds (by rw [hcurrent]; exact hstateWf)
    (by rw [hcurrent]; exact hkeyed) (by rw [hcurrent, htags]; exact hsound.usable)
    (by rw [hcurrent]; exact hadvance) (by rwa [hlength])
  have hfaithful' := h.committed hsound hmeans rfl
    (by rw [← List.flatMap_def, ← List.map_eq_flatMap]; exact hshows)
    (s.coordinator.publishedSequence + k)
  rw [hlength] at hsound'
  rw [hunits, ← List.map_take]
  have hresumes := resumes_of hsound' hfaithful'
  exact hresumes

/-! ### Tasks -/

omit [DecidableEq K] in
/-- Units that `commit` does not refuse have frames. -/
theorem framed_of_commit {config : StorageConfig} {units : List PreparedUnit} {live : ℕ}
    {storage : StorageAnswer} (h : exceedsCapacity config units live storage = false)
    (htypes : ∀ unit ∈ units, singleType ≤ unit.type ∧ unit.type ≤ indexDropType) :
    ∀ unit ∈ units, DurableWal.Framed unit := by
  intro unit hunit
  simp only [exceedsCapacity, Bool.or_eq_false_iff, List.any_eq_false] at h
  have hbound := h.1.2 unit hunit
  rw [decide_eq_true_eq, Nat.not_lt] at hbound
  exact ⟨htypes unit hunit, hbound⟩

theorem Writes.batch (identity : IndexIdentity ops) (hsound : Sound setup startupIndexes s)
    (h : Faithful setup startupIndexes s contents) (hterminal : s.coordinator.terminal = false)
    {tasks : List (MutationTask K T)} {storage : StorageAnswer}
    (hundisturbed : Undisturbed setup s (.batch tasks storage))
    (hmax : s.coordinator.publishedSequence ≤ maxSequence) :
    ∃ units, Writes setup startupIndexes s (s.batch setup tasks storage)
      (s.meanings setup (.batch tasks storage)) contents units := by
  obtain ⟨hadmissible, hthrow⟩ := hundisturbed
  have hadmissible : batchCommits setup s tasks storage = true → _ := hadmissible
  have hthrow : batchCommits setup s tasks storage = true → _ := hthrow
  unfold batchCommits at hadmissible hthrow
  unfold DurableEngine.batch DurableEngine.meanings DurableEngine.acknowledged
  simp only [hterminal, Bool.false_eq_true, if_false] at hadmissible hthrow ⊢
  split
  · have hframes : s.stopAfterFailure.coordinator.frames = s.coordinator.frames := rfl
    exact ⟨[], .nothing hsound h hframes rfl rfl hmax _⟩
  rename_i herred
  split
  · exact ⟨[], .nothing hsound h rfl rfl rfl hmax _⟩
  rename_i hok
  rw [processBatch_completed herred hok]
  generalize hr : s.coordinator.commitGroup setup.config _ _ storage = r at hadmissible hthrow ⊢
  rcases commitGroup_cases (hsound.settled hterminal) hterminal hr with
    ⟨hcommit, hcap, hfits, hc⟩ | ⟨-, hframes, hpublished, -⟩
  · obtain ⟨hroom, hremove⟩ := hadmissible (by simp [herred, hok, hcommit])
    have hlen := preparedMutations_length setup (.ofPublished ops s.engine.current) tasks
    rw [if_pos hcommit, hc, List.map_map]
    refine ⟨_, rfl, rfl, rfl, framed_of_commit hcap fun unit hunit => ?_, hfits, ?_,
      fun k hk => ?_⟩
    · obtain ⟨payload, -, rfl⟩ := List.mem_map.mp hunit
      exact show singleType ≤ singleType ∧ singleType ≤ indexDropType by decide
    · rw [List.length_map, List.length_map, hlen]
    · refine Resumes.batch identity hsound h hroom hremove
        (hthrow (by simp [herred, hok, hcommit])) rfl ?_ (by omega)
      rwa [List.length_map, hlen] at hk
  · refine ⟨[], ?_⟩
    apply Writes.nothing hsound h hframes hpublished
    · rfl
    · exact hmax

/-- A task of one unit at most. -/
theorem Writes.single (hsound : Sound setup startupIndexes s)
    (h : Faithful setup startupIndexes s contents) (hterminal : s.coordinator.terminal = false)
    {units : List PreparedUnit} (hsingle : units.length ≤ 1)
    (htypes : ∀ unit ∈ units, singleType ≤ unit.type ∧ unit.type ≤ indexDropType) {live : ℕ}
    {storage : StorageAnswer}
    (hcoordinator : s'.coordinator = (s.coordinator.commitGroup setup.config units live storage).2)
    (hcheckpoints : s'.checkpoints = s.checkpoints) {mutations : List (SearchMutation K T)}
    (hsound' : Sound setup startupIndexes s')
    (h' : Faithful setup startupIndexes s' (afterAll setup contents mutations))
    (hmax : s.coordinator.publishedSequence ≤ maxSequence) :
    ∃ units, Writes setup startupIndexes s s' [mutations] contents units := by
  generalize hr : s.coordinator.commitGroup setup.config units live storage = r at hcoordinator
  rcases commitGroup_cases (hsound.settled hterminal) hterminal hr with
    ⟨-, hcap, hfits, hc⟩ | ⟨-, hframes, hpublished, -⟩
  · rw [hc] at hcoordinator
    refine ⟨units, by rw [hcoordinator], by rw [hcoordinator], hcheckpoints,
      framed_of_commit hcap htypes, hfits, hsingle, fun k hk => ?_⟩
    rcases Nat.eq_zero_or_pos k with rfl | hpos
    · have hresumes := resumes_of hsound h
      rwa [← List.append_nil s.coordinator.frames] at hresumes
    · obtain rfl : k = units.length := by omega
      have hresumes := resumes_of hsound' h'
      rw [hcoordinator, hcheckpoints] at hresumes
      rwa [List.take_length, List.take_of_length_le hpos, List.flatten_singleton]
  · exact ⟨[], .nothing hsound h (by rw [hcoordinator, hframes])
      (by rw [hcoordinator, hpublished]) hcheckpoints hmax _⟩

/-- A task of the writer that commits one group at most: all but checkpoints and openings. -/
def Task.writes : Task setup → Prop
  | .checkpoint => False
  | .reopen => False
  | _ => True

omit [DecidableEq K] in
theorem durableUnit_type {field : ops.Field} {indexType : ops.Kind} {unit : PreparedUnit}
    (h : durableUnit setup field indexType = some unit) : unit.type = indexCreateType := by
  obtain ⟨descriptor, -, hcreate⟩ := Option.bind_eq_some_iff.mp h
  exact createIndexUnit_type hcreate

/-- What a task that is no batch hands to the coordinator. -/
theorem handle_commits (hterminal : s.coordinator.terminal = false) {task : Task setup}
    (hwrites : task.writes) (hbatch : ∀ tasks storage, task ≠ .batch tasks storage) :
    (s.handle setup startupIndexes task).checkpoints = s.checkpoints ∧
      ((s.handle setup startupIndexes task).coordinator.frames = s.coordinator.frames ∧
          (s.handle setup startupIndexes task).coordinator.publishedSequence =
            s.coordinator.publishedSequence ∨
        ∃ units live storage, units.length ≤ 1 ∧
          (∀ unit ∈ units, singleType ≤ unit.type ∧ unit.type ≤ indexDropType) ∧
          (s.handle setup startupIndexes task).coordinator =
            (s.coordinator.commitGroup setup.config units live storage).2) := by
  cases task with
  | batch tasks storage => exact absurd rfl (hbatch tasks storage)
  | checkpoint => exact hwrites.elim
  | reopen => exact hwrites.elim
  | bulk tasks storage =>
    simp only [DurableEngine.handle, hterminal, Bool.false_eq_true, if_false]
    have hfailed : ∀ e : ControlFailure K, (s.failed e).checkpoints = s.checkpoints ∧
        (s.failed e).coordinator.frames = s.coordinator.frames ∧
        (s.failed e).coordinator.publishedSequence = s.coordinator.publishedSequence := by
      intro e
      unfold DurableEngine.failed
      split
      · exact ⟨rfl, rfl, rfl⟩
      · exact ⟨rfl, rfl, rfl⟩
    unfold DurableEngine.bulk
    dsimp only
    split
    · exact (hfailed _).imp_right .inl
    split
    · exact (hfailed _).imp_right .inl
    split
    · exact ⟨rfl, .inl ⟨rfl, rfl⟩⟩
    rename_i unit hunit
    split
    · exact ⟨rfl, .inl ⟨rfl, rfl⟩⟩
    refine ⟨rfl, .inr ⟨[unit], _, storage, by simp, fun other hother => ?_, rfl⟩⟩
    obtain ⟨-, -, rfl⟩ := bulkUnit_ok hunit
    rw [List.mem_singleton.mp hother]
    exact show singleType ≤ bulkType ∧ bulkType ≤ indexDropType by decide
  | createIndex definition rejected =>
    simp only [DurableEngine.handle, hterminal, Bool.false_eq_true, if_false]
    unfold DurableEngine.createIndex
    split
    · exact ⟨rfl, .inl ⟨rfl, rfl⟩⟩
    · exact ⟨rfl, .inl ⟨rfl, rfl⟩⟩
  | installIndex position buildFails replayThrows storage =>
    simp only [DurableEngine.handle, hterminal, Bool.false_eq_true, if_false]
    unfold DurableEngine.installIndex
    dsimp only
    split
    · rename_i pending _ _
      refine ⟨rfl, .inr ⟨_, _, storage, ?_, fun unit hunit => ?_, rfl⟩⟩
      · exact Option.length_toList_le
      · rw [durableUnit_type (Option.mem_toList.mp hunit)]
        exact ⟨by decide, by decide⟩
    · exact ⟨rfl, .inl ⟨rfl, rfl⟩⟩
  | dropIndex fieldName storage =>
    simp only [DurableEngine.handle, hterminal, Bool.false_eq_true, if_false]
    unfold DurableEngine.dropIndex
    split
    · rename_i unit _ hunit
      refine ⟨rfl, .inr ⟨[unit], _, storage, by simp, fun other hother => ?_, rfl⟩⟩
      rw [List.mem_singleton.mp hother, dropIndexUnit_type hunit]
      exact ⟨by decide, by decide⟩
    · exact ⟨rfl, .inl ⟨rfl, rfl⟩⟩

/-- What a task writes. -/
theorem exists_writes (identity : IndexIdentity ops) (hsound : Sound setup startupIndexes s)
    (h : Faithful setup startupIndexes s contents) (hterminal : s.coordinator.terminal = false)
    {task : Task setup} (hwrites : task.writes) (hundisturbed : Undisturbed setup s task)
    (hmax : s.coordinator.publishedSequence ≤ maxSequence) :
    ∃ units, Writes setup startupIndexes s (s.handle setup startupIndexes task)
      (s.meanings setup task) contents units := by
  cases task with
  | batch tasks storage =>
    rw [DurableEngine.handle, hterminal]
    exact Writes.batch identity hsound h hterminal hundisturbed hmax
  | _ =>
    obtain ⟨hcheckpoints, ⟨hframes, hpublished⟩ | ⟨units, live, storage, hsingle, htypes,
        hcoordinator⟩⟩ :=
      @handle_commits K T _ ops setup startupIndexes s hterminal _ hwrites
        fun _ _ hbatch => by cases hbatch
    · exact ⟨[], .nothing hsound h hframes hpublished hcheckpoints hmax _⟩
    · exact Writes.single hsound h hterminal hsingle htypes hcoordinator hcheckpoints
        (hsound.handle identity hundisturbed.1) (h.handle hsound hundisturbed) hmax

end

end GeneralSearch.Durable
