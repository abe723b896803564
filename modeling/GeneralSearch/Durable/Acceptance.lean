import GeneralSearch.Durable.Admission

/-! Whole runs of the durable engine: every unit that was committed is accepted by replay, from the
empty state and from every checkpoint that was taken. -/

namespace GeneralSearch.Durable

open GeneralSearch.Storage GeneralSearch.Engine
open GeneralSearch.Utf8 (JavaString)

/-- The operations of an index keep its field and its class. -/
structure IndexIdentity {T : Type} (ops : IndexOps T) where
  tag : ops.Builder → ops.Field × ops.Kind
  tag_toBuilder : ∀ i, tag (ops.toBuilder i) = (ops.field i, ops.kind i)
  tag_add : ∀ b d t, tag (ops.add b d t) = tag b
  tag_remove : ∀ b d t, tag (ops.remove b d t) = tag b
  tag_update : ∀ b d t t', tag (ops.update b d t t') = tag b
  tag_torn : ∀ b, tag (ops.torn b) = tag b
  tag_build : ∀ b, (ops.field (ops.build b), ops.kind (ops.build b)) = tag b
  tag_empty : ∀ f k, (ops.field (ops.createEmpty f k), ops.kind (ops.createEmpty f k)) = (f, k)

variable {K T : Type} [DecidableEq K] {ops : IndexOps T} {setup : Setup K ops}

/-! ### Descriptors and definitions -/

/-- An index that the engine can hold: its field is the schema's, and it has a descriptor. -/
structure Usable (setup : Setup K ops) (field : ops.Field) (indexType : ops.Kind) : Prop where
  registered : setup.schema.registered field = true
  typed : setup.durableKind indexType = some prefixKind → setup.schema.isString field = true
  described : (descriptorOf setup field indexType).isSome

theorem DurableIndexDescriptor.make_eq_some {kind : UInt8} {fieldName analyzerId : JavaString}
    {descriptor : DurableIndexDescriptor}
    (h : DurableIndexDescriptor.make kind fieldName analyzerId = some descriptor) :
    descriptor.kind = kind ∧ descriptor.fieldName = fieldName ∧
      descriptor.analyzerId = analyzerId := by
  unfold DurableIndexDescriptor.make at h
  split at h
  · cases h
    exact ⟨rfl, rfl, rfl⟩
  · cases h

omit [DecidableEq K] in
/-- What the descriptor of an index says. -/
theorem descriptorOf_eq_some {field : ops.Field} {indexType : ops.Kind}
    {descriptor : DurableIndexDescriptor}
    (h : descriptorOf setup field indexType = some descriptor) :
    setup.durableKind indexType = some descriptor.kind ∧
      descriptor.fieldName = setup.schema.name field ∧
      (descriptor.kind = textKind → ∃ text, setup.schema.textField (setup.schema.name field) =
        some text ∧ text.simpleAnalyzer = true) := by
  unfold descriptorOf at h
  split at h
  · cases h
  rename_i kind hkind
  split at h
  · split at h
    · rename_i text htext
      split at h
      · rename_i hsimple
        obtain ⟨rfl, hname, -⟩ := DurableIndexDescriptor.make_eq_some h
        exact ⟨hkind, hname, fun _ => ⟨text, htext, hsimple⟩⟩
      · cases h
    · cases h
  · rename_i hne
    obtain ⟨rfl, hname, -⟩ := DurableIndexDescriptor.make_eq_some h
    exact ⟨hkind, hname, fun heq => absurd heq hne⟩

omit [DecidableEq K] in
theorem field_of_registered {field : ops.Field}
    (h : setup.schema.registered field = true) :
    setup.schema.field (setup.schema.name field) = some field := by
  simpa [SearchSchema.registered] using h

omit [DecidableEq K] in
/-- The schema has the definition that a descriptor came from. -/
theorem toDefinition_descriptorOf {field : ops.Field} {indexType : ops.Kind}
    (hu : Usable setup field indexType) {descriptor : DurableIndexDescriptor}
    (h : descriptorOf setup field indexType = some descriptor) :
    toDefinition setup descriptor = some (field, indexType) := by
  obtain ⟨hkind, hname, htext⟩ := descriptorOf_eq_some h
  obtain ⟨-, hclass⟩ := (setup.durableKind_eq _ _).mp hkind
  unfold toDefinition
  rw [hname, field_of_registered hu.registered]
  simp only
  split
  · rename_i hp
    rw [if_pos (hu.typed (by rw [hkind, hp])), hclass]
  split
  · rename_i hkindText
    obtain ⟨text, htextField, hsimple⟩ := htext hkindText
    simp only [htextField, hsimple, true_and, descriptor.valid.2.2.1 hkindText, if_true, hclass]
  · rw [hclass]

omit [DecidableEq K] in
/-- The definition that the schema has for a descriptor has this descriptor. -/
theorem descriptorOf_toDefinition {descriptor : DurableIndexDescriptor} {field : ops.Field}
    {indexType : ops.Kind} (h : toDefinition setup descriptor = some (field, indexType)) :
    descriptorOf setup field indexType = some descriptor ∧ Usable setup field indexType := by
  have hfield : setup.schema.field descriptor.fieldName = some field := by
    unfold toDefinition at h
    split at h
    · cases h
    rename_i f hf
    rw [hf]
    split at h
    · split at h
      · cases h
        rfl
      · cases h
    split at h
    · split at h
      · split at h
        · cases h
          rfl
        · cases h
      · cases h
    · cases h
      rfl
  have hname : setup.schema.name field = descriptor.fieldName := by
    simpa using List.find?_some hfield
  have hclass : indexType = setup.classOf descriptor.kind ∧
      (descriptor.kind = prefixKind → setup.schema.isString field = true) ∧
      (descriptor.kind = textKind → ∃ text, setup.schema.textField descriptor.fieldName =
        some text ∧ text.simpleAnalyzer = true) := by
    unfold toDefinition at h
    rw [hfield] at h
    simp only at h
    split at h
    · rename_i hp
      split at h
      · rename_i hstring
        cases h
        exact ⟨rfl, fun _ => hstring, fun heq => by rw [hp] at heq; cases heq⟩
      · cases h
    rename_i hne
    split at h
    · split at h
      · rename_i text htext
        split at h
        · rename_i hsimple
          cases h
          exact ⟨rfl, fun heq => absurd heq hne, fun _ => ⟨text, htext, hsimple.1⟩⟩
        · cases h
      · cases h
    · rename_i hne'
      cases h
      exact ⟨rfl, fun heq => absurd heq hne, fun heq => absurd heq hne'⟩
  obtain ⟨rfl, hstring, htext⟩ := hclass
  have hkind : setup.durableKind (setup.classOf descriptor.kind) = some descriptor.kind :=
    (setup.durableKind_eq _ _).mpr ⟨descriptor.valid.1, rfl⟩
  have hdescriptor : descriptorOf setup field (setup.classOf descriptor.kind) =
      some descriptor := by
    unfold descriptorOf
    rw [hkind, hname]
    simp only
    split
    · rename_i heq
      obtain ⟨text, htextField, hsimple⟩ := htext heq
      simp only [htextField, hsimple, if_true]
      rw [← descriptor.valid.2.2.1 heq]
      exact descriptor.make_self
    · rename_i hne
      rw [← descriptor.valid.2.2.2 hne]
      exact descriptor.make_self
  refine ⟨hdescriptor, ?_, fun heq => hstring ?_, by rw [hdescriptor]; rfl⟩
  · simp [SearchSchema.registered, hname, hfield]
  · rw [hkind] at heq
    exact Option.some.inj heq

omit [DecidableEq K] in
/-- An index has a descriptor of its own. -/
theorem descriptorOf_injective {f f' : ops.Field} {k k' : ops.Kind} (hu : Usable setup f k)
    (hu' : Usable setup f' k') (h : descriptorOf setup f k = descriptorOf setup f' k') :
    (f, k) = (f', k') := by
  obtain ⟨d, hd⟩ := Option.isSome_iff_exists.mp hu.described
  have hdef := toDefinition_descriptorOf hu hd
  have hdef' := toDefinition_descriptorOf hu' (h ▸ hd)
  exact Option.some.inj (hdef.symm.trans hdef')

/-! ### The registry under mutations -/

/-- The fields and classes of the registered indexes, in order. -/
def tagsOf (ops : IndexOps T) (indexes : List ops.Index) : List (ops.Field × ops.Kind) :=
  indexes.map fun index => (ops.field index, ops.kind index)

section

variable (identity : IndexIdentity ops)

theorem forEachBuilder_tags {apply : ops.Builder → ops.Builder}
    (h : ∀ b, identity.tag (apply b) = identity.tag b) (position : Option ℕ)
    (bs : List ops.Builder) :
    (forEachBuilder ops.torn apply position bs).1.map identity.tag = bs.map identity.tag := by
  induction bs generalizing position with
  | nil => rfl
  | cons b bs ih =>
    cases position with
    | none => simp [h]
    | some k =>
      cases k with
      | zero => simp [forEachBuilder, identity.tag_torn]
      | succ k => simp [forEachBuilder, h, ih]

theorem applyTask_tags (idOf : T → K) {s : BatchState K T ops.Builder} (task : MutationTask K T)
    (hwf : s.WellFormed) :
    (applyTask ops idOf s task).2.snapshots.indexes.map identity.tag =
      s.snapshots.indexes.map identity.tag := by
  have hstep := applyTask_cases idOf task hwf
  generalize (applyTask ops idOf s task).1 = r at hstep
  generalize (applyTask ops idOf s task).2 = s' at hstep
  have hremove := fun (docId : ℕ) (document : T) =>
    forEachBuilder_tags identity fun b => identity.tag_remove b docId document
  have hadd := fun (docId : ℕ) (document : T) =>
    forEachBuilder_tags identity fun b => identity.tag_add b docId document
  have hupdate := fun (docId : ℕ) (old new : T) =>
    forEachBuilder_tags identity fun b => identity.tag_update b docId old new
  cases hstep with
  | refused => rfl
  | absent => rfl
  | added => exact hadd ..
  | updated => exact hupdate ..
  | removed => exact hremove ..
  | addThrew => exact hadd ..
  | updateThrew => exact hupdate ..
  | removeThrew => exact hremove ..

theorem applyAll_tags (idOf : T → K) {s : BatchState K T ops.Builder} (hwf : s.WellFormed)
    (tasks : List (MutationTask K T)) :
    (applyAll ops idOf s tasks).2.snapshots.indexes.map identity.tag =
      s.snapshots.indexes.map identity.tag := by
  induction tasks generalizing s with
  | nil => rfl
  | cons task tasks ih =>
    exact (ih (applyTask_wellFormed hwf)).trans (applyTask_tags identity idOf task hwf)

theorem applyBulk_tags {s s' : BatchState K T ops.Builder} (hwf : s.WellFormed)
    {tasks : List (MutationTask K T)} {changes : List (IndexChange T)}
    (h : applyBulk ops setup.idOf s tasks = .ok (changes, s')) :
    s'.snapshots.indexes.map identity.tag = s.snapshots.indexes.map identity.tag := by
  induction tasks generalizing s changes with
  | nil =>
    cases h
    rfl
  | cons task tasks ih =>
    obtain ⟨change, later, -, hlater⟩ := applyBulk_cons h
    exact (ih (applyTask_wellFormed hwf) hlater).trans (applyTask_tags identity _ task hwf)

omit [DecidableEq K] in
/-- A batch state built from a published one and published again keeps the registry. -/
theorem build_tags {current : PublishedState K T ops.Index} {s : BatchState K T ops.Builder}
    (h : s.snapshots.indexes.map identity.tag =
      (BatchState.ofPublished ops current).snapshots.indexes.map identity.tag) :
    tagsOf ops (s.build ops).snapshot.indexes = tagsOf ops current.snapshot.indexes := by
  have hbuild : ∀ bs : List ops.Builder, tagsOf ops (bs.map ops.build) = bs.map identity.tag := by
    intro bs
    simp [tagsOf, identity.tag_build]
  have hto : ∀ is : List ops.Index, (is.map ops.toBuilder).map identity.tag = tagsOf ops is := by
    intro is
    simp [tagsOf, identity.tag_toBuilder]
  exact (hbuild _).trans (h.trans (hto _))

theorem foldl_tag {α : Type} (f : ops.Builder → α → ops.Builder)
    (h : ∀ b a, identity.tag (f b a) = identity.tag b) (as : List α) (b : ops.Builder) :
    identity.tag (as.foldl f b) = identity.tag b := by
  induction as generalizing b with
  | nil => rfl
  | cons a as ih => exact (ih _).trans (h b a)

include identity in
theorem buildIndex_tag (base : SearchSnapshot T ops.Index) (emptyIndex : ops.Index) :
    (ops.field (buildIndex ops base emptyIndex), ops.kind (buildIndex ops base emptyIndex)) =
      (ops.field emptyIndex, ops.kind emptyIndex) := by
  rw [buildIndex, identity.tag_build, foldl_tag identity, identity.tag_toBuilder]
  intro b docId
  split
  · exact identity.tag_add ..
  · rfl

include identity in
omit [DecidableEq K] in
theorem caughtUp_tag (s : EngineState K ops) (pending : PendingIndexBuild ops)
    (index : ops.Index) :
    (ops.field (caughtUp ops s pending index), ops.kind (caughtUp ops s pending index)) =
      (ops.field index, ops.kind index) := by
  rw [caughtUp, identity.tag_build, foldl_tag identity, identity.tag_toBuilder]
  intro b change
  unfold applyChange
  split
  · exact identity.tag_add ..
  · exact identity.tag_remove ..
  · exact identity.tag_update ..
  · rfl

end

theorem applyAll_keyed {s : BatchState K T ops.Builder} (hwf : s.WellFormed)
    (hkeyed : Keyed setup.idOf s) (tasks : List (MutationTask K T)) :
    Keyed setup.idOf (applyAll ops setup.idOf s tasks).2 := by
  induction tasks generalizing s with
  | nil => exact hkeyed
  | cons task tasks ih => exact ih (applyTask_wellFormed hwf) (applyTask_keyed hwf hkeyed)

/-! ### The engine and its recovered states -/

/-- The recovered state stands for the published one at a sequence number. -/
structure Matches (setup : Setup K ops) (current : PublishedState K T ops.Index) (sequence : ℕ)
    (R : ReplayState K T) : Prop where
  consistent : R.Consistent setup.idOf
  follows : Follows (BatchState.ofPublished ops current) R
  indexes : (tagsOf ops current.snapshot.indexes).map (fun tag => descriptorOf setup tag.1 tag.2) =
    R.indexes.map some
  sequence : R.lastSequence = sequence

/-- Replay of the units leads from the one published state to the other, whatever recovered state
it starts from, and gives out as many document ids. -/
def Advances (setup : Setup K ops) (current current' : PublishedState K T ops.Index)
    (units : List PreparedUnit) : Prop :=
  ∃ adds, ∀ R n, Matches setup current n R → n + units.length ≤ maxSequence →
    ∃ R', R.applyFrames setup (sequenced (n + 1) units) = .ok R' ∧
      Matches setup current' (n + units.length) R' ∧ R'.nextDocId = R.nextDocId + adds

/-- The pending builds: each is of a usable index, and the executor builds that index. -/
structure Builds (setup : Setup K ops) (s : EngineState K ops) : Prop where
  usable : ∀ p ∈ s.pendingIndexBuilds, Usable setup p.field p.indexType
  tasks : ∀ p ∈ s.pendingIndexBuilds, ∀ t ∈ s.executing, t.buildId = p.id →
    (ops.field t.emptyIndex, ops.kind t.emptyIndex) = (p.field, p.indexType)
  pendingIds : ∀ p ∈ s.pendingIndexBuilds, p.id < s.nextIndexBuildId
  taskIds : ∀ t ∈ s.executing, t.buildId < s.nextIndexBuildId

/-- The states from which replay can start, the newest checkpoint first. -/
def DurableEngine.starts (s : DurableEngine K ops) : List (Option (Loaded K T)) :=
  s.checkpoints.map some ++ [none]

/-- The invariant of the durable engine. -/
structure Sound (setup : Setup K ops) (startupIndexes : List DurableIndexDescriptor)
    (s : DurableEngine K ops) : Prop where
  wellFormed : s.engine.current.WellFormed
  keyed : Keyed setup.idOf (BatchState.ofPublished ops s.engine.current)
  usable : ∀ tag ∈ tagsOf ops s.engine.current.snapshot.indexes, Usable setup tag.1 tag.2
  builds : Builds setup s.engine
  covered : ∀ frame ∈ s.coordinator.frames, frame.sequence ≤ s.coordinator.publishedSequence
  settled : s.coordinator.terminal = false →
    s.coordinator.allocatedSequence = s.coordinator.publishedSequence
  accepted : ∀ c ∈ s.starts, ∃ R, replay setup startupIndexes c s.coordinator.frames = .ok R ∧
    Matches setup s.engine.current s.coordinator.publishedSequence R
  ordered : s.starts.Pairwise fun newer older => ∀ R R',
    replay setup startupIndexes newer s.coordinator.frames = .ok R →
    replay setup startupIndexes older s.coordinator.frames = .ok R' → R'.nextDocId ≤ R.nextDocId

/-! ### Commit groups -/

section

variable {startupIndexes : List DurableIndexDescriptor} {s : DurableEngine K ops}

theorem applyFrames_append (R : ReplayState K T) (fs gs : List Frame) :
    R.applyFrames setup (fs ++ gs) = (R.applyFrames setup fs).bind (·.applyFrames setup gs) := by
  induction fs generalizing R with
  | nil => rfl
  | cons f fs ih =>
    simp only [List.cons_append, ReplayState.applyFrames]
    split
    · exact ih R
    · cases R.apply setup f with
      | error e => rfl
      | ok R' => exact ih R'

/-- Frames that the state covers are skipped. -/
theorem applyFrames_covered {R : ReplayState K T} {frames : List Frame}
    (h : ∀ frame ∈ frames, frame.sequence ≤ R.lastSequence) :
    R.applyFrames setup frames = .ok R := by
  induction frames with
  | nil => rfl
  | cons frame frames ih =>
    rw [ReplayState.applyFrames, if_pos (h frame (by simp))]
    exact ih fun f hf => h f (by simp [hf])

/-- One frame behind the last. -/
theorem applyFrames_single {R R' : ReplayState K T} {n : ℕ} {unit : PreparedUnit}
    (hn : R.lastSequence = n) (h : R.apply setup ⟨n + 1, unit.type, unit.payload⟩ = .ok R') :
    R.applyFrames setup (sequenced (n + 1) [unit]) = .ok R' := by
  rw [sequenced, ReplayState.applyFrames, if_neg (by simp only; omega), h]
  rfl

theorem sequenced_le {first : ℕ} {units : List PreparedUnit} {frame : Frame}
    (h : frame ∈ sequenced first units) : frame.sequence < first + units.length := by
  induction units generalizing first with
  | nil => cases h
  | cons unit units ih =>
    rcases List.mem_cons.mp h with rfl | h
    · simp
    · have := ih h
      simp only [List.length_cons]
      omega

/-- What `commit` followed by `published` does to a coordinator that is in order. -/
theorem commitGroup_cases {config : StorageConfig} {c : Coordinator} {units : List PreparedUnit}
    {live : ℕ} {storage : StorageAnswer} (hsettled : c.allocatedSequence = c.publishedSequence)
    (hterminal : c.terminal = false) {r : CommitResult × Coordinator}
    (h : c.commitGroup config units live storage = r) :
    (r.1 = .committed ∧ exceedsCapacity config units live storage = false ∧
      c.publishedSequence + units.length ≤ maxSequence ∧
      r.2 = ⟨c.publishedSequence + units.length, c.publishedSequence + units.length, false,
        c.frames ++ sequenced (c.publishedSequence + 1) units⟩) ∨
    (r.1 ≠ .committed ∧ r.2.frames = c.frames ∧
      r.2.publishedSequence = c.publishedSequence ∧ (r.2 = c ∨ r.2.terminal = true)) := by
  subst h
  unfold Coordinator.commitGroup Coordinator.commit
  rw [hterminal]
  simp only [Bool.false_eq_true, if_false]
  cases hcap : exceedsCapacity config units live storage with
  | true => exact .inr ⟨by simp, rfl, rfl, .inl rfl⟩
  | false =>
    simp only [Bool.false_eq_true, if_false]
    by_cases hlast : c.allocatedSequence + units.length > maxSequence
    · rw [if_pos hlast]
      exact .inr ⟨by simp, rfl, rfl, .inr rfl⟩
    rw [if_neg hlast]
    cases storage.appendFails with
    | true => exact .inr ⟨by simp, rfl, rfl, .inr rfl⟩
    | false =>
      refine .inl ⟨rfl, trivial, by omega, ?_⟩
      simp only [Bool.false_eq_true, if_false, Coordinator.published, hsettled, and_self, if_true]

/-- A group that is not committed changes nothing that replay sees. -/
theorem Sound.refused (h : Sound setup startupIndexes s) {engine : EngineState K ops}
    (hcurrent : engine.current = s.engine.current) (hbuilds : Builds setup engine)
    {c : Coordinator} (hframes : c.frames = s.coordinator.frames)
    (hpublished : c.publishedSequence = s.coordinator.publishedSequence)
    (hc : c = s.coordinator ∨ c.terminal = true) :
    Sound setup startupIndexes { s with engine, coordinator := c } where
  wellFormed := by rw [hcurrent]; exact h.wellFormed
  keyed := by rw [hcurrent]; exact h.keyed
  usable := by rw [hcurrent]; exact h.usable
  builds := hbuilds
  covered := by rw [hframes, hpublished]; exact h.covered
  settled hterminal := by
    rcases hc with rfl | hc
    · exact h.settled hterminal
    · rw [hc] at hterminal
      cases hterminal
  accepted := by
    rw [hframes, hpublished, hcurrent]
    exact h.accepted
  ordered := by
    rw [hframes]
    exact h.ordered

/-- A committed group that replay follows keeps the invariant. -/
theorem Sound.committed (h : Sound setup startupIndexes s) {engine : EngineState K ops}
    (hbuilds : Builds setup engine) (hwf : engine.current.WellFormed)
    (hkeyed : Keyed setup.idOf (BatchState.ofPublished ops engine.current))
    (husable : ∀ tag ∈ tagsOf ops engine.current.snapshot.indexes, Usable setup tag.1 tag.2)
    {units : List PreparedUnit}
    (hadvance : Advances setup s.engine.current engine.current units)
    (hmax : s.coordinator.publishedSequence + units.length ≤ maxSequence) :
    Sound setup startupIndexes { s with
      engine
      coordinator := ⟨s.coordinator.publishedSequence + units.length,
        s.coordinator.publishedSequence + units.length, false,
        s.coordinator.frames ++ sequenced (s.coordinator.publishedSequence + 1) units⟩ } := by
  obtain ⟨adds, hadvance⟩ := hadvance
  have hreplay : ∀ c ∈ s.starts, ∃ R R',
      replay setup startupIndexes c s.coordinator.frames = .ok R ∧
      replay setup startupIndexes c (s.coordinator.frames ++
        sequenced (s.coordinator.publishedSequence + 1) units) = .ok R' ∧
      Matches setup engine.current (s.coordinator.publishedSequence + units.length) R' ∧
      R'.nextDocId = R.nextDocId + adds := by
    intro c hc
    obtain ⟨R, hR, hmatches⟩ := h.accepted c hc
    obtain ⟨R', hR', hmatches', hnext⟩ := hadvance R _ hmatches hmax
    refine ⟨R, R', hR, ?_, hmatches', hnext⟩
    unfold replay at hR ⊢
    rw [applyFrames_append, hR]
    exact hR'
  refine ⟨hwf, hkeyed, husable, hbuilds, fun frame hframe => ?_, fun _ => rfl, fun c hc => ?_, ?_⟩
  · rcases List.mem_append.mp hframe with hframe | hframe
    · have := h.covered frame hframe
      simp only
      omega
    · have := sequenced_le hframe
      simp only
      omega
  · obtain ⟨R, R', -, hR', hmatches, -⟩ := hreplay c hc
    exact ⟨R', hR', hmatches⟩
  · refine h.ordered.imp_of_mem fun {newer older} hnewer holder hle R₁ R₁' hR₁ hR₁' => ?_
    obtain ⟨R, R', hR, hR', -, hnext⟩ := hreplay newer hnewer
    obtain ⟨Q, Q', hQ, hQ', -, hnext'⟩ := hreplay older holder
    have hle := hle R Q hR hQ
    simp only at hR₁ hR₁'
    rw [hR'] at hR₁
    rw [hQ'] at hR₁'
    cases hR₁
    cases hR₁'
    omega

/-! ### The end of the writer -/

omit [DecidableEq K] in
theorem Builds.stop (e : EngineState K ops) : Builds setup e.stopAfterFailure :=
  ⟨List.forall_mem_nil _, List.forall_mem_nil _, List.forall_mem_nil _, List.forall_mem_nil _⟩

theorem Sound.stop (h : Sound setup startupIndexes s) :
    Sound setup startupIndexes s.stopAfterFailure := by
  have hstopped : ({ s.coordinator with terminal := true } : Coordinator).terminal = true := rfl
  exact h.refused (show s.engine.stopAfterFailure.current = _ from rfl) (.stop s.engine) rfl rfl
    (.inr hstopped)

theorem Sound.failed (h : Sound setup startupIndexes s) (e : ControlFailure K) :
    Sound setup startupIndexes (s.failed e) := by
  unfold DurableEngine.failed
  split
  · exact h.stop
  · exact h

/-! ### Mutations -/

omit [DecidableEq K] in
theorem Builds.shrink {e e' : EngineState K ops} (h : Builds setup e)
    (hpending : ∀ p ∈ e'.pendingIndexBuilds, p ∈ e.pendingIndexBuilds)
    (hexecuting : ∀ t ∈ e'.executing, t ∈ e.executing)
    (hnext : e.nextIndexBuildId ≤ e'.nextIndexBuildId) : Builds setup e' where
  usable p hp := h.usable p (hpending p hp)
  tasks p hp t ht := h.tasks p (hpending p hp) t (hexecuting t ht)
  pendingIds p hp := Nat.lt_of_lt_of_le (h.pendingIds p (hpending p hp)) hnext
  taskIds t ht := Nat.lt_of_lt_of_le (h.taskIds t (hexecuting t ht)) hnext

theorem Builds.batch {e : EngineState K ops} (h : Builds setup e) (tasks : List (MutationTask K T))
    (commit : CommitResult) : Builds setup (e.batch ops setup.idOf tasks commit) := by
  unfold EngineState.batch
  dsimp only
  split
  · exact .stop e
  · exact h.shrink (fun _ => id) (fun _ => id) (Nat.le_refl _)

/-- What a batch without an `Error` and with a successful task publishes. -/
theorem batch_current {idOf : T → K} {e : EngineState K ops} {tasks : List (MutationTask K T)}
    (herred : ¬ erred (applyAll ops idOf (.ofPublished ops e.current) tasks).1 = true)
    (hok : successful tasks (applyAll ops idOf (.ofPublished ops e.current) tasks).1 ≠ [])
    (commit : CommitResult) :
    (e.batch ops idOf tasks commit).current =
      if commit = .committed then
        (applyAll ops idOf (.ofPublished ops e.current) tasks).2.build ops
      else e.current := by
  cases commit <;> simp [EngineState.batch, processBatch, herred, hok, EngineState.stopAfterFailure]

/-- What a bulk leaves whose mutations were all applied. -/
theorem Builds.bulk {e : EngineState K ops} (h : Builds setup e) {tasks : List (MutationTask K T)}
    (hids : bulkIds setup.idOf [] tasks = .ok ()) {changes : List (IndexChange T)}
    {state : BatchState K T ops.Builder}
    (hbulk : applyBulk ops setup.idOf (.ofPublished ops e.current) tasks = .ok (changes, state))
    (commit : CommitResult) :
    Builds setup (e.processBulk ops setup.idOf tasks commit).2 ∧
      (e.processBulk ops setup.idOf tasks commit).2.current =
        if commit = .committed then state.build ops else e.current := by
  unfold EngineState.processBulk
  simp only [hids, hbulk]
  cases commit with
  | committed => exact ⟨h.shrink (fun _ => id) (fun _ => id) (Nat.le_refl _), rfl⟩
  | capacityExceeded => exact ⟨h, rfl⟩
  | terminal => exact ⟨.stop e, rfl⟩

omit [DecidableEq K] in
/-- Replayed mutations lead to the published state that is built of them. -/
theorem Matches.build (identity : IndexIdentity ops) {current : PublishedState K T ops.Index}
    {n : ℕ} {R R' : ReplayState K T} (h : Matches setup current n R)
    {state : BatchState K T ops.Builder}
    (htags : state.snapshots.indexes.map identity.tag =
      (BatchState.ofPublished ops current).snapshots.indexes.map identity.tag) {adds : ℕ}
    (hreplayed : Replayed setup state adds R R') {m : ℕ} (hlast : R'.lastSequence = m) :
    Matches setup (state.build ops) m R' where
  consistent := hreplayed.consistent
  follows := ⟨hreplayed.follows.keys, hreplayed.follows.next, hreplayed.follows.bound⟩
  indexes := by rw [build_tags identity htags, h.indexes, hreplayed.indexes]
  sequence := hlast

/-- The units of a batch lead to the state that it publishes. -/
theorem advances_batch (identity : IndexIdentity ops) {current : PublishedState K T ops.Index}
    (hwf : (BatchState.ofPublished ops current).WellFormed)
    (hkeyed : Keyed setup.idOf (BatchState.ofPublished ops current))
    {tasks : List (MutationTask K T)}
    (hroom : roomForAdds setup (.ofPublished ops current) (tasks.map (preparedTask setup)) = true)
    (hthrow : someThrow ops setup.idOf SearchMutation.isRemove (.ofPublished ops current)
      (tasks.map (preparedTask setup)) = false) {ok : List (MutationTask K T)}
    (hok : ok = successful (tasks.map (preparedTask setup)) (applyAll ops setup.idOf
      (.ofPublished ops current) (tasks.map (preparedTask setup))).1) :
    Advances setup current ((applyAll ops setup.idOf (.ofPublished ops current)
      (tasks.map (preparedTask setup))).2.build ops)
      ((preparedMutations setup ok).map (⟨singleType, ·⟩)) := by
  refine ⟨ok.countP fun task => isAdd task.mutation, fun R n hR hn => ?_⟩
  have hlen := preparedMutations_length setup (.ofPublished ops current) tasks
  rw [← hok] at hlen
  rw [List.length_map, hlen] at hn
  obtain ⟨R', hframes, hreplayed, hlast⟩ := applyAll_replayed hwf hkeyed hR.follows
    hR.consistent hthrow hroom hok (by rwa [hR.sequence])
  rw [hR.sequence] at hframes hlast
  rw [List.length_map, hlen]
  exact ⟨R', hframes, hR.build identity (applyAll_tags identity setup.idOf hwf _) hreplayed hlast,
    hreplayed.next⟩

/-- The unit of a bulk leads to the state that it publishes. -/
theorem advances_bulk (identity : IndexIdentity ops) {current : PublishedState K T ops.Index}
    (hwf : (BatchState.ofPublished ops current).WellFormed)
    (hkeyed : Keyed setup.idOf (BatchState.ofPublished ops current))
    {tasks : List (MutationTask K T)}
    (hids : bulkIds setup.idOf [] (tasks.map (preparedTask setup)) = .ok ())
    {changes : List (IndexChange T)} {state : BatchState K T ops.Builder}
    (hbulk : applyBulk ops setup.idOf (.ofPublished ops current)
      (tasks.map (preparedTask setup)) = .ok (changes, state))
    {unit : PreparedUnit}
    (hunit : bulkUnit setup.config
      (preparedMutations setup (tasks.map (preparedTask setup))) = .ok unit)
    (hne : tasks ≠ [])
    (hroom : roomForAdds setup (.ofPublished ops current) (tasks.map (preparedTask setup)) = true) :
    Advances setup current (state.build ops) [unit] := by
  refine ⟨(tasks.map (preparedTask setup)).countP fun task => isAdd task.mutation,
    fun R n hR hn => ?_⟩
  have hmax : R.lastSequence < maxSequence := by
    rw [hR.sequence]
    exact hn
  obtain ⟨R', happly, hreplayed, hlast⟩ := apply_bulk hwf hkeyed hR.follows hR.consistent hids
    hbulk hunit hne hroom hmax
  rw [hR.sequence] at happly hlast
  exact ⟨R', applyFrames_single hR.sequence happly,
    hR.build identity (applyBulk_tags identity hwf hbulk) hreplayed hlast, hreplayed.next⟩

theorem Sound.batch (identity : IndexIdentity ops) (h : Sound setup startupIndexes s)
    (hterminal : s.coordinator.terminal = false) {tasks : List (MutationTask K T)}
    {storage : StorageAnswer} (hadmissible : Admissible setup s (.batch tasks storage)) :
    Sound setup startupIndexes (s.batch setup tasks storage) := by
  have hwf : (BatchState.ofPublished ops s.engine.current).WellFormed := h.wellFormed.batch
  have hadmissible : batchCommits setup s tasks storage = true → _ := hadmissible
  unfold batchCommits at hadmissible
  unfold DurableEngine.batch
  simp only at hadmissible ⊢
  split
  · exact h.stop
  rename_i herred
  split
  · exact h
  rename_i hok
  generalize hr : s.coordinator.commitGroup setup.config _ _ storage = r at hadmissible ⊢
  have hbuilds := h.builds.batch (tasks.map (preparedTask setup)) r.1
  have hcurrent := batch_current herred hok r.1
  rcases commitGroup_cases (h.settled hterminal) hterminal hr with
    ⟨hcommit, -, hmax, hc⟩ | ⟨hcommit, hframes, hpublished, hc⟩
  · rw [if_pos hcommit] at hcurrent
    obtain ⟨hroom, hthrow⟩ := hadmissible (by simp [herred, hok, hcommit])
    rw [hc]
    refine h.committed hbuilds ?_ ?_ ?_ ?_ hmax
    · rw [hcurrent]
      exact applyAll_wellFormed hwf _
    · rw [hcurrent]
      exact applyAll_keyed hwf h.keyed _
    · rw [hcurrent, build_tags identity (applyAll_tags identity setup.idOf hwf _)]
      exact h.usable
    · rw [hcurrent]
      exact advances_batch identity hwf h.keyed hroom hthrow rfl
  · rw [if_neg hcommit] at hcurrent
    exact h.refused hcurrent hbuilds hframes hpublished hc

theorem Sound.bulk (identity : IndexIdentity ops) (h : Sound setup startupIndexes s)
    (hterminal : s.coordinator.terminal = false) {tasks : List (MutationTask K T)}
    {storage : StorageAnswer} (hadmissible : Admissible setup s (.bulk tasks storage)) :
    Sound setup startupIndexes (s.bulk setup tasks storage) := by
  have hwf : (BatchState.ofPublished ops s.engine.current).WellFormed := h.wellFormed.batch
  have hadmissible : bulkCommits setup s tasks storage = true → _ := hadmissible
  unfold bulkCommits at hadmissible
  unfold DurableEngine.bulk
  cases hids : bulkIds setup.idOf [] (tasks.map (preparedTask setup)) with
  | error e =>
    simp only [hids]
    exact h.failed e
  | ok _ =>
  cases hbulk : applyBulk ops setup.idOf (.ofPublished ops s.engine.current)
      (tasks.map (preparedTask setup)) with
  | error e =>
    simp only [hids, hbulk]
    exact h.failed e
  | ok result =>
  cases hunit : bulkUnit setup.config
      (preparedMutations setup (tasks.map (preparedTask setup))) with
  | error e =>
    simp only [hids, hbulk, hunit]
    exact h
  | ok unit =>
  obtain ⟨changes, state⟩ := result
  simp only [hids, hbulk, hunit, decide_eq_true_eq] at hadmissible ⊢
  split
  · exact h
  rename_i hne
  generalize hr : s.coordinator.commitGroup setup.config _ _ storage = r at hadmissible ⊢
  obtain ⟨hbuilds, hcurrent⟩ := h.builds.bulk hids hbulk r.1
  rcases commitGroup_cases (h.settled hterminal) hterminal hr with
    ⟨hcommit, -, hmax, hc⟩ | ⟨hcommit, hframes, hpublished, hc⟩
  · rw [if_pos hcommit] at hcurrent
    have hroom := hadmissible hcommit
    have hne' : tasks ≠ [] := fun hnil => hne (by rw [hnil]; rfl)
    obtain ⟨hwf', hkeyed'⟩ := applyBulk_keeps hwf h.keyed hbulk
    rw [hc]
    refine h.committed hbuilds ?_ ?_ ?_ ?_ hmax
    all_goals rw [hcurrent]
    · exact hwf'
    · exact hkeyed'
    · rw [build_tags identity (applyBulk_tags identity hwf hbulk)]
      exact h.usable
    · exact advances_bulk identity hwf h.keyed hids hbulk hunit hne' hroom
  · rw [if_neg hcommit] at hcurrent
    exact h.refused hcurrent hbuilds hframes hpublished hc

/-! ### Indexes -/

omit [DecidableEq K] in
theorem Builds.create (identity : IndexIdentity ops) {e : EngineState K ops} (h : Builds setup e)
    {field : ops.Field} {indexType : ops.Kind} {prepared : Bool}
    (husable : setup.schema.registered field = true → prepared = true →
      Usable setup field indexType) (rejected : Bool) :
    Builds setup (e.processCreateIndex ops setup.schema.registered field indexType prepared
      rejected).2 := by
  obtain ⟨hfield, hkind⟩ : ops.field (ops.createEmpty field indexType) = field ∧
      ops.kind (ops.createEmpty field indexType) = indexType := by
    simpa using identity.tag_empty field indexType
  unfold EngineState.processCreateIndex
  split
  · exact h
  rename_i hregistered
  dsimp only
  split
  · exact h
  split
  · exact h
  split
  · exact h
  rename_i hprepared
  split
  · exact h
  split
  · exact h.shrink (fun p hp => by simpa using hp) (fun t ht => by simpa using ht) (by simp)
  constructor
  · intro p hp
    rcases List.mem_append.mp hp with hp | hp
    · exact h.usable p hp
    · rw [List.mem_singleton.mp hp]
      simp only [hkind]
      exact husable (by simpa using hregistered) (by simpa using hprepared)
  · intro p hp t ht hid
    rcases List.mem_append.mp hp with hp | hp <;> rcases List.mem_append.mp ht with ht | ht
    · exact h.tasks p hp t ht hid
    · rw [List.mem_singleton.mp ht] at hid
      have := h.pendingIds p hp
      simp only at hid
      omega
    · rw [List.mem_singleton.mp hp] at hid
      have := h.taskIds t ht
      simp only at hid
      omega
    · rw [List.mem_singleton.mp hp, List.mem_singleton.mp ht]
      simp only [hfield]
  · intro p hp
    rcases List.mem_append.mp hp with hp | hp
    · exact Nat.lt_succ_of_lt (h.pendingIds p hp)
    · rw [List.mem_singleton.mp hp]
      exact Nat.lt_succ_self _
  · intro t ht
    rcases List.mem_append.mp ht with ht | ht
    · exact Nat.lt_succ_of_lt (h.taskIds t ht)
    · rw [List.mem_singleton.mp ht]
      exact Nat.lt_succ_self _

theorem Sound.createIndex (identity : IndexIdentity ops) (h : Sound setup startupIndexes s)
    (definition : IndexDefinition setup) (rejected : Bool) :
    Sound setup startupIndexes (s.createIndex setup definition rejected) := by
  unfold DurableEngine.createIndex
  split
  · exact h
  refine h.refused (processCreateIndex_current ..) (h.builds.create identity ?_ rejected) rfl rfl
    (.inl rfl)
  intro hregistered hprepared
  refine ⟨hregistered, definition.typed, ?_⟩
  unfold durableUnit at hprepared
  cases hd : descriptorOf setup definition.field definition.indexType with
  | none => simp [hd] at hprepared
  | some d => rfl

/-- The unit of an index drop leads to the registry without the indexes of the field. -/
theorem advances_drop {current current' : PublishedState K T ops.Index}
    (hcurrent' : current'.documentIds = current.documentIds ∧ current'.nextDocId = current.nextDocId)
    (husable : ∀ tag ∈ tagsOf ops current.snapshot.indexes, Usable setup tag.1 tag.2)
    {fieldName : JavaString} {field : ops.Field} (hfield : setup.schema.field fieldName = some field)
    (hindexes : tagsOf ops current'.snapshot.indexes =
      (tagsOf ops current.snapshot.indexes).filter fun tag => tag.1 ≠ field)
    {unit : PreparedUnit} (hunit : dropIndexUnit fieldName = some unit)
    (hname : Utf8.WellFormed fieldName) : Advances setup current current' [unit] := by
  refine ⟨0, fun R n hR hn => ?_⟩
  have hfound : setup.schema.name field = fieldName := by
    simpa using List.find?_some hfield
  have hregistered := hfound.symm
  have hne : fieldName ≠ [] := by
    rw [hregistered]
    exact setup.schema.named field (List.mem_of_find?_eq_some hfield)
  obtain ⟨htype, hread⟩ := readString_dropUnit hunit hname hne (n + 1)
  have hmax : R.lastSequence < maxSequence := by
    rw [hR.sequence]
    exact hn
  have happly : R.apply setup ⟨n + 1, unit.type, unit.payload⟩ = .ok { R with
      indexes := R.indexes.filter fun index => index.fieldName ≠ fieldName
      lastSequence := n + 1
      replayedRecords := R.replayedRecords + 1 } := by
    refine ReplayState.apply_unit
      { R with indexes := R.indexes.filter fun index => index.fieldName ≠ fieldName } hmax
      (by rw [hR.sequence]) ?_
    rw [htype]
    show ReplayState.applyUnit setup R indexDropType _ _ = _
    rw [ReplayState.applyUnit, if_neg (by decide), if_neg (by decide), if_neg (by decide),
      if_pos rfl, Reader.bind_ok hread, ReplayState.applyDropIndex, hfield]
    rfl
  refine ⟨_, applyFrames_single hR.sequence happly, ?_, rfl⟩
  refine ⟨⟨hR.consistent.size, hR.consistent.filled, hR.consistent.count⟩,
    ⟨fun k => ?_, ?_, ?_⟩, ?_, rfl⟩
  · simpa [BatchState.ofPublished, hcurrent'.1] using hR.follows.keys k
  · simpa [BatchState.ofPublished, hcurrent'.2] using hR.follows.next
  · simpa [BatchState.ofPublished, hcurrent'.2] using hR.follows.bound
  rw [hindexes]
  have hall := hR.indexes
  revert hall husable
  generalize tagsOf ops current.snapshot.indexes = tags
  generalize R.indexes = descriptors
  intro husable hall
  induction tags generalizing descriptors with
  | nil =>
    cases descriptors with
    | nil => rfl
    | cons d ds => cases hall
  | cons tag tags ih =>
    cases descriptors with
    | nil => cases hall
    | cons d ds =>
      simp only [List.map_cons, List.cons.injEq] at hall
      obtain ⟨hd, hrest⟩ := hall
      have hih := ih ds (fun tag htag => husable tag (by simp [htag])) hrest
      have hsame : tag.1 = field ↔ d.fieldName = fieldName := by
        rw [(descriptorOf_eq_some hd).2.1, hregistered]
        constructor
        · rintro rfl
          rfl
        · intro heq
          have hu := field_of_registered (husable tag (by simp)).registered
          rw [heq, ← hregistered, hfield] at hu
          exact (Option.some.inj hu).symm
      by_cases htag : tag.1 = field
      · have hdn := hsame.mp htag
        simpa [htag, hdn] using hih
      · have hdn : ¬ d.fieldName = fieldName := fun heq => htag (hsame.mpr heq)
        simpa [htag, hdn, hd] using hih

omit [DecidableEq K] in
/-- What a delivered build leaves of the pending ones. -/
theorem Builds.install {e : EngineState K ops} (h : Builds setup e) (buildId : ℕ)
    (built : Option ops.Index) (replayThrows : Option Thrown) (commit : CommitResult) :
    Builds setup (e.processInstallIndex ops buildId built replayThrows commit).2 := by
  have hfinish : ∀ e₁ : EngineState K ops, e₁.pendingIndexBuilds = e.pendingIndexBuilds →
      e₁.executing = e.executing → e₁.nextIndexBuildId = e.nextIndexBuildId →
      Builds setup (e₁.finish buildId) := by
    intro e₁ hpending hexecuting hnext
    refine h.shrink (fun p hp => ?_) (fun t ht => ?_) (by simp [EngineState.finish, hnext])
    · rw [EngineState.finish, prune_pending] at hp
      exact hpending ▸ List.mem_of_mem_filter hp
    · rw [EngineState.finish, prune_executing] at ht
      exact hexecuting ▸ ht
  unfold EngineState.processInstallIndex
  split
  · exact h
  split
  · exact hfinish e rfl rfl rfl
  dsimp only
  split
  · exact .stop e
  · exact hfinish e rfl rfl rfl
  split
  · exact hfinish e rfl rfl rfl
  split
  · exact hfinish _ rfl rfl rfl
  · exact hfinish e rfl rfl rfl
  · exact .stop e

omit [DecidableEq K] in
/-- Only an installation changes the published state. -/
theorem processInstallIndex_current (e : EngineState K ops) (buildId : ℕ)
    (built : Option ops.Index) (replayThrows : Option Thrown) (commit : CommitResult)
    (h : ∀ p i, (e.processInstallIndex ops buildId built replayThrows commit).1 ≠ .installed p i) :
    (e.processInstallIndex ops buildId built replayThrows commit).2.current = e.current := by
  unfold EngineState.processInstallIndex at h ⊢
  split
  · rfl
  rename_i pending hfind
  rw [hfind] at h
  cases built with
  | none => simp [EngineState.finish]
  | some index =>
    dsimp only at h ⊢
    cases replayThrows with
    | some thrown =>
      cases thrown with
      | exception => simp [EngineState.finish]
      | error => rfl
    | none =>
      dsimp only at h ⊢
      split
      · simp [EngineState.finish]
      rename_i hcontains
      rw [if_neg hcontains] at h
      cases commit with
      | committed => exact absurd rfl (h _ _)
      | capacityExceeded => simp [EngineState.finish]
      | terminal => rfl

omit [DecidableEq K] in
/-- An installation that a commit other than this one would stop is the installation of a new
index. -/
theorem processInstallIndex_fresh {e : EngineState K ops} {buildId : ℕ} {built : Option ops.Index}
    {replayThrows : Option Thrown} {pending : PendingIndexBuild ops} {index : ops.Index}
    (h : (e.processInstallIndex ops buildId built replayThrows .committed).1 =
      .installed pending index) :
    registryContains ops e.current.snapshot.indexes (ops.field index) (ops.kind index) = false ∧
      ∀ commit, commit ≠ .committed → ∀ p i,
        (e.processInstallIndex ops buildId built replayThrows commit).1 ≠ .installed p i := by
  unfold EngineState.processInstallIndex at h ⊢
  split at h
  · cases h
  rename_i found hfind
  simp only
  cases built with
  | none => cases h
  | some base =>
    dsimp only at h ⊢
    cases replayThrows with
    | some thrown => cases thrown <;> cases h
    | none =>
      dsimp only at h ⊢
      split at h
      · cases h
      rename_i hcontains
      simp only [InstallOutcome.installed.injEq] at h
      obtain ⟨-, rfl⟩ := h
      refine ⟨by simpa using hcontains, fun commit hcommit p i => ?_⟩
      rw [if_neg hcontains]
      cases commit with
      | committed => exact absurd rfl hcommit
      | capacityExceeded => nofun
      | terminal => nofun

/-- The unit of an index leads to the registry with the index at its end. -/
theorem advances_create {current current' : PublishedState K T ops.Index}
    (hcurrent' : current'.documentIds = current.documentIds ∧ current'.nextDocId = current.nextDocId)
    (husable : ∀ tag ∈ tagsOf ops current.snapshot.indexes, Usable setup tag.1 tag.2)
    {field : ops.Field} {indexType : ops.Kind} (hu : Usable setup field indexType)
    (hname : Utf8.WellFormed (setup.schema.name field))
    (hnew : (field, indexType) ∉ tagsOf ops current.snapshot.indexes)
    (hindexes : tagsOf ops current'.snapshot.indexes =
      tagsOf ops current.snapshot.indexes ++ [(field, indexType)]) {unit : PreparedUnit}
    (hunit : durableUnit setup field indexType = some unit) :
    Advances setup current current' [unit] := by
  refine ⟨0, fun R n hR hn => ?_⟩
  obtain ⟨d, hd, hcreate⟩ := Option.bind_eq_some_iff.mp hunit
  rw [← (descriptorOf_eq_some hd).2.1] at hname
  obtain ⟨htype, hread⟩ := decodeIndex_unit hcreate hname (n + 1)
  have hmax : R.lastSequence < maxSequence := by
    rw [hR.sequence]
    exact hn
  have hmem : d ∉ R.indexes := by
    intro hd'
    have hsome : some d ∈ R.indexes.map some := List.mem_map_of_mem hd'
    rw [← hR.indexes] at hsome
    obtain ⟨tag, htag, heq⟩ := List.mem_map.mp hsome
    have hsame := descriptorOf_injective (husable tag htag) hu (heq.trans hd.symm)
    exact hnew (hsame ▸ htag)
  have happly : R.apply setup ⟨n + 1, unit.type, unit.payload⟩ = .ok { R with
      indexes := R.indexes ++ [d]
      replayCreatedIndexes := R.replayCreatedIndexes + 1
      lastSequence := n + 1
      replayedRecords := R.replayedRecords + 1 } := by
    refine ReplayState.apply_unit { R with
      indexes := R.indexes ++ [d]
      replayCreatedIndexes := R.replayCreatedIndexes + 1 } hmax (by rw [hR.sequence]) ?_
    rw [htype]
    show ReplayState.applyUnit setup R indexCreateType _ _ = _
    rw [ReplayState.applyUnit, if_neg (by decide), if_neg (by decide), if_pos rfl,
      Reader.bind_ok hread, ReplayState.applyCreateIndex, toDefinition_descriptorOf hu hd,
      if_neg (by simp), if_neg hmem]
    rfl
  refine ⟨_, applyFrames_single hR.sequence happly, ?_, rfl⟩
  refine ⟨⟨hR.consistent.size, hR.consistent.filled, hR.consistent.count⟩,
    ⟨fun k => ?_, ?_, ?_⟩, ?_, rfl⟩
  · simpa [BatchState.ofPublished, hcurrent'.1] using hR.follows.keys k
  · simpa [BatchState.ofPublished, hcurrent'.2] using hR.follows.next
  · simpa [BatchState.ofPublished, hcurrent'.2] using hR.follows.bound
  · rw [hindexes, List.map_append, hR.indexes, List.map_append]
    simp [hd]

omit [DecidableEq K] in
/-- What a committed drop leaves: the documents and their ids, and the indexes of other fields. -/
theorem processDropIndex_committed {registered : ops.Field → Bool} (e : EngineState K ops)
    {field : ops.Field} (h : registered field = true) :
    let e' := (e.processDropIndex ops registered field .committed).2
    e'.current = { e.current with
        snapshot := { e.current.snapshot with
          indexes := withoutIndexes ops e.current.snapshot.indexes field
          version := e'.current.snapshot.version } } ∧
      (∀ p ∈ e'.pendingIndexBuilds, p ∈ e.pendingIndexBuilds) ∧ e'.executing = e.executing ∧
      e'.nextIndexBuildId = e.nextIndexBuildId := by
  unfold EngineState.processDropIndex
  rw [if_neg (by simp [h])]
  dsimp only
  rw [prune_current, prune_executing, prune_nextIndexBuildId, prune_pending]
  refine ⟨?_, fun p hp => List.mem_of_mem_filter hp, rfl, rfl⟩
  dsimp only
  split
  · rename_i hlen
    have hsame : withoutIndexes ops e.current.snapshot.indexes field =
        e.current.snapshot.indexes := List.filter_sublist.eq_of_length hlen
    rw [hsame]
  · rfl

omit [DecidableEq K] in
/-- What a drop leaves that is not committed. -/
theorem Builds.dropRefused {e : EngineState K ops} (h : Builds setup e)
    {registered : ops.Field → Bool} {field : ops.Field} (hregistered : registered field = true)
    {commit : CommitResult} (hcommit : commit ≠ .committed) :
    Builds setup (e.processDropIndex ops registered field commit).2 ∧
      (e.processDropIndex ops registered field commit).2.current = e.current := by
  unfold EngineState.processDropIndex
  rw [if_neg (by simp [hregistered])]
  cases commit with
  | committed => exact absurd rfl hcommit
  | capacityExceeded => exact ⟨h, rfl⟩
  | terminal => exact ⟨.stop e, rfl⟩

theorem Sound.dropIndex (h : Sound setup startupIndexes s)
    (hterminal : s.coordinator.terminal = false) {fieldName : JavaString} {storage : StorageAnswer}
    (hadmissible : Admissible setup s (.dropIndex fieldName storage)) :
    Sound setup startupIndexes (s.dropIndex setup fieldName storage) := by
  have hadmissible : dropCommits setup s fieldName storage = true → _ := hadmissible
  unfold dropCommits at hadmissible
  unfold DurableEngine.dropIndex
  split
  case h_2 => exact h
  rename_i field unit hfield hunit
  simp only [hfield, hunit, decide_eq_true_eq] at hadmissible
  have hregistered : setup.schema.registered field = true := by
    have hfound : setup.schema.name field = fieldName := by simpa using List.find?_some hfield
    simp [SearchSchema.registered, hfound, hfield]
  dsimp only
  generalize hr : s.coordinator.commitGroup setup.config _ _ storage = r at hadmissible ⊢
  rcases commitGroup_cases (h.settled hterminal) hterminal hr with
    ⟨hcommit, -, hmax, hc⟩ | ⟨hcommit, hframes, hpublished, hc⟩
  · rw [hc, hcommit]
    obtain ⟨hcurrent, hpending, hexecuting, hnext⟩ :=
      processDropIndex_committed s.engine hregistered
    have htags : tagsOf ops (withoutIndexes ops s.engine.current.snapshot.indexes field) =
        (tagsOf ops s.engine.current.snapshot.indexes).filter fun tag => tag.1 ≠ field := by
      simp [tagsOf, withoutIndexes, List.filter_map, Function.comp_def]
    refine h.committed (h.builds.shrink hpending (fun t ht => hexecuting ▸ ht)
      (Nat.le_of_eq hnext.symm)) ?_ ?_ ?_ ?_ hmax
    all_goals rw [hcurrent]
    · exact h.wellFormed
    · exact h.keyed
    · intro tag htag
      rw [htags] at htag
      exact h.usable tag (List.mem_of_mem_filter htag)
    · refine advances_drop ?_ h.usable hfield htags hunit (hadmissible hcommit)
      exact ⟨rfl, rfl⟩
  · obtain ⟨hbuilds, hcurrent⟩ := h.builds.dropRefused hregistered hcommit
    exact h.refused hcurrent hbuilds hframes hpublished hc

omit [DecidableEq K] in
/-- A descriptor has a unit: its strings are short enough. -/
theorem durableUnit_of_descriptor {field : ops.Field} {indexType : ops.Kind}
    {d : DurableIndexDescriptor} (hd : descriptorOf setup field indexType = some d) :
    ∃ unit, durableUnit setup field indexType = some unit := by
  have hwrite : ∀ value : JavaString, (Utf8.getBytes value).length ≤ 1024 →
      ∃ payload, writeString value = some payload := fun value hle =>
    ⟨_, by rw [writeString, if_neg (by omega)]⟩
  have hanalyzer : (Utf8.getBytes d.analyzerId).length ≤ 1024 := by
    by_cases htext : d.kind = textKind
    · rw [d.valid.2.2.1 htext]
      decide
    · rw [d.valid.2.2.2 htext]
      decide
  obtain ⟨fieldName, hfield⟩ := hwrite d.fieldName d.valid.2.1.2
  obtain ⟨analyzerId, hanalyzer⟩ := hwrite d.analyzerId hanalyzer
  refine ⟨⟨indexCreateType, [d.kind] ++ fieldName ++ analyzerId⟩, ?_⟩
  simp only [durableUnit, hd, Option.bind_some, createIndexUnit, hfield, hanalyzer]
  rfl

/-- A task that commits nothing, and the end of the writer if the engine has stopped in it. -/
theorem Sound.uncommitted (h : Sound setup startupIndexes s) {engine : EngineState K ops}
    (hcurrent : engine.current = s.engine.current) (hbuilds : Builds setup engine) (stopped : Bool) :
    Sound setup startupIndexes { s with
      engine
      coordinator := { s.coordinator with terminal := s.coordinator.terminal || stopped } } := by
  refine h.refused hcurrent hbuilds rfl rfl ?_
  cases stopped with
  | false => exact .inl (by rw [Bool.or_false])
  | true => exact .inr (Bool.or_true _)

theorem Sound.installIndex (identity : IndexIdentity ops) (h : Sound setup startupIndexes s)
    (hterminal : s.coordinator.terminal = false) {position : ℕ} {buildFails : Bool}
    {replayThrows : Option Thrown} {storage : StorageAnswer}
    (hadmissible : Admissible setup s (.installIndex position buildFails replayThrows storage)) :
    Sound setup startupIndexes
      (s.installIndex setup position buildFails replayThrows storage) := by
  have hadmissible : ∀ name ∈ installedName setup s position buildFails replayThrows storage, _ :=
    hadmissible
  unfold installedName at hadmissible
  unfold DurableEngine.installIndex
  dsimp only
  cases htask : s.engine.executing[position]? with
  | none =>
    simp only [EngineState.process, htask]
    exact h.uncommitted rfl h.builds _
  | some task =>
    simp only [EngineState.process, htask] at hadmissible ⊢
    have hexecuting : task ∈ s.engine.executing := List.mem_of_getElem? htask
    generalize hbase : ({ s.engine with executing := s.engine.executing.eraseIdx position } :
      EngineState K ops) = e at hadmissible ⊢
    generalize hbuilt : (if buildFails = true then none
      else some (buildIndex ops task.baseSnapshot task.emptyIndex)) = built at hadmissible ⊢
    have hcurrent : e.current = s.engine.current := by rw [← hbase]
    have hbuilds : ∀ commit, Builds setup
        (e.processInstallIndex ops task.buildId built replayThrows commit).2 := by
      intro commit
      refine Builds.install ?_ task.buildId built replayThrows commit
      rw [← hbase]
      exact h.builds.shrink (fun _ => id) (fun _ => List.mem_of_mem_eraseIdx) (Nat.le_refl _)
    split
    · rename_i pending index hinstalled
      obtain ⟨hnew, hothers⟩ := processInstallIndex_fresh hinstalled
      obtain ⟨hpending, hid, ⟨base, hsome, rfl⟩, hcurrent'⟩ :=
        processInstallIndex_installed (Prod.ext hinstalled rfl)
      have hmem : pending ∈ s.engine.pendingIndexBuilds := by rwa [← hbase] at hpending
      have husable := h.builds.usable pending hmem
      have htag : (ops.field (caughtUp ops e pending base), ops.kind (caughtUp ops e pending base)) =
          (pending.field, pending.indexType) := by
        rw [caughtUp_tag identity]
        rw [hsome] at hbuilt
        split at hbuilt
        · cases hbuilt
        cases hbuilt
        rw [buildIndex_tag identity]
        exact h.builds.tasks pending hmem task hexecuting hid.symm
      obtain ⟨hfieldEq, hkindEq⟩ := Prod.mk.inj htag
      obtain ⟨d, hd⟩ := Option.isSome_iff_exists.mp husable.described
      obtain ⟨unit, hunit⟩ := durableUnit_of_descriptor hd
      simp only [hinstalled, hunit, Option.toList_some] at hadmissible ⊢
      generalize hr : s.coordinator.commitGroup setup.config _ _ storage = r at hadmissible ⊢
      rcases commitGroup_cases (h.settled hterminal) hterminal hr with
        ⟨hcommit, -, hmax, hc⟩ | ⟨hcommit, hframes, hpublished, hc⟩
      · have hname := hadmissible (setup.schema.name pending.field) (by rw [if_pos hcommit]; rfl)
        rw [hc, hcommit]
        have hindexes : tagsOf ops (e.processInstallIndex ops task.buildId built replayThrows
            .committed).2.current.snapshot.indexes =
            tagsOf ops s.engine.current.snapshot.indexes ++
              [(pending.field, pending.indexType)] := by
          rw [hcurrent', hcurrent]
          simp only [tagsOf, SearchSnapshot.withIndexes, List.map_append, List.map_singleton, htag]
        have hfresh : (pending.field, pending.indexType) ∉
            tagsOf ops s.engine.current.snapshot.indexes := by
          intro htags
          obtain ⟨i, hi, heq⟩ := List.mem_map.mp htags
          obtain ⟨hif, hik⟩ := Prod.mk.inj heq
          rw [hcurrent, hfieldEq, hkindEq] at hnew
          have := List.any_eq_false.mp hnew i hi
          simp [hif, hik] at this
        refine h.committed (hbuilds _) ?_ ?_ ?_ ?_ hmax
        · rw [hcurrent', hcurrent]
          exact h.wellFormed
        · rw [hcurrent', hcurrent]
          exact h.keyed
        · intro tag htag'
          rw [hindexes] at htag'
          rcases List.mem_append.mp htag' with hold | hlast
          · exact h.usable tag hold
          · rw [List.mem_singleton.mp hlast]
            exact husable
        · refine advances_create ?_ h.usable husable hname hfresh hindexes hunit
          rw [hcurrent', hcurrent]
          exact ⟨rfl, rfl⟩
      · refine h.refused ?_ (hbuilds _) hframes hpublished hc
        rw [processInstallIndex_current _ _ _ _ _ (hothers _ hcommit), hcurrent]
    · rename_i hother
      refine h.uncommitted ?_ (hbuilds _) _
      rw [processInstallIndex_current _ _ _ _ _ hother, hcurrent]

/-! ### Checkpoints and recovered engines -/

theorem checkpointSlot_eq_some {current : PublishedState K T ops.Index} {docId : ℕ}
    {slot : Option (K × T)} (h : checkpointSlot setup current docId = some slot) :
    (slot = none ∧ current.snapshot.get docId = none) ∨
      ∃ document decoded, current.snapshot.get docId = some document ∧
        slot = some (setup.idOf document, decoded) ∧
        setup.idOf decoded = setup.idOf document ∧
        current.documentIds (setup.idOf document) = some docId := by
  unfold checkpointSlot at h
  cases hget : current.snapshot.get docId with
  | none =>
    rw [hget] at h
    exact .inl ⟨(Option.some.inj h).symm, rfl⟩
  | some document =>
    simp only [hget] at h
    split at h
    case isFalse => cases h
    rename_i hid
    split at h
    case h_2 => cases h
    rename_i encoded _ hdoc
    obtain ⟨-, decoded, hdec, hkey, -⟩ := canonicalDocument_ok hdoc
    rw [hdec] at h
    exact .inr ⟨document, decoded, rfl, (Option.some.inj h).symm, hkey, hid⟩

/-- A list of results, one for each element. -/
theorem map_of_mapM {α β : Type} {f : α → Option β} {as : List α} {bs : List β}
    (h : as.mapM f = some bs) : as.map f = bs.map some := by
  induction as generalizing bs with
  | nil =>
    cases h
    rfl
  | cons a as ih =>
    simp only [List.mapM_cons, bind, Option.bind_eq_some_iff, pure, Option.some.injEq] at h
    obtain ⟨b, hb, bs', hbs, rfl⟩ := h
    rw [List.map_cons, List.map_cons, hb, ih hbs]

/-- The keys of slots without a repetition are as many as the filled slots. -/
theorem exists_keys (slots : List (Option (K × T)))
    (h : ∀ (i j : ℕ) (k : K) (t t' : T), slots[i]? = some (some (k, t)) →
      slots[j]? = some (some (k, t')) → i = j) :
    ∃ ks : Finset K, (∀ k, k ∈ ks ↔ ∃ (i : ℕ) (t : T), slots[i]? = some (some (k, t))) ∧
      ks.card = slots.countP Option.isSome := by
  induction slots with
  | nil => exact ⟨∅, by simp, rfl⟩
  | cons slot slots ih =>
    obtain ⟨ks, hks, hcard⟩ := ih fun i j k t t' hi hj =>
      Nat.succ_injective (h (i + 1) (j + 1) k t t' (by simpa using hi) (by simpa using hj))
    cases slot with
    | none =>
      refine ⟨ks, fun k => ?_, by simpa using hcard⟩
      rw [hks]
      constructor
      · rintro ⟨i, t, hi⟩
        exact ⟨i + 1, t, by simpa using hi⟩
      · rintro ⟨i, t, hi⟩
        cases i with
        | zero => simp at hi
        | succ i => exact ⟨i, t, by simpa using hi⟩
    | some kt =>
      obtain ⟨k, t⟩ := kt
      have hnew : k ∉ ks := by
        intro hk
        obtain ⟨i, t', hi⟩ := (hks k).mp hk
        have := h 0 (i + 1) k t t' rfl (by simpa using hi)
        omega
      refine ⟨insert k ks, fun k' => ?_, by
        rw [Finset.card_insert_of_notMem hnew, hcard]
        simp⟩
      rw [Finset.mem_insert, hks]
      constructor
      · rintro (rfl | ⟨i, t', hi⟩)
        · exact ⟨0, t, rfl⟩
        · exact ⟨i + 1, t', by simpa using hi⟩
      · rintro ⟨i, t', hi⟩
        cases i with
        | zero =>
          simp only [List.getElem?_cons_zero, Option.some.injEq, Prod.mk.injEq] at hi
          exact .inl hi.1.symm
        | succ i => exact .inr ⟨i, t', by simpa using hi⟩

/-- The checkpoint of a published state stands for it. -/
theorem checkpointOf_matches {current : PublishedState K T ops.Index} {sequence : ℕ}
    {loaded : Loaded K T} (hload : checkpointOf setup current sequence = some loaded)
    (hwf : current.WellFormed) (hkeyed : Keyed setup.idOf (BatchState.ofPublished ops current))
    (hbound : current.nextDocId ≤ maxDocId)
    (hnames : ∀ index ∈ current.snapshot.indexes,
      Utf8.WellFormed (setup.schema.name (ops.field index)))
    (startupIndexes : List DurableIndexDescriptor) :
    Matches setup current sequence (ReplayState.start startupIndexes (some loaded)) ∧
      loaded.nextDocId = current.nextDocId ∧ loaded.sequence = sequence := by
  simp only [checkpointOf, bind, Option.bind_eq_some_iff] at hload
  obtain ⟨indexes, hindexes, slots, hslots, hload⟩ := hload
  split at hload
  case isFalse => cases hload
  cases hload
  have hslots := map_of_mapM hslots
  have hlen : slots.length = current.nextDocId := by
    simpa using (congrArg List.length hslots).symm
  have hslot : ∀ {d : ℕ} {slot : Option (K × T)}, slots[d]? = some slot →
      d < current.nextDocId ∧ checkpointSlot setup current d = some slot := by
    intro d slot hd
    have hlt : d < slots.length := (List.getElem?_eq_some_iff.mp hd).1
    have hat := congrArg (·[d]?) hslots
    simp only [List.getElem?_map, hd, Option.map_some,
      List.getElem?_range (show d < current.nextDocId by omega), Option.some.injEq] at hat
    exact ⟨by omega, hat⟩
  -- A filled slot holds the key that the key map has under its position.
  have hkey : ∀ {d : ℕ} {k : K} {t : T}, slots[d]? = some (some (k, t)) →
      setup.idOf t = k ∧ current.documentIds k = some d := by
    intro d k t hd
    obtain ⟨-, hslot⟩ := hslot hd
    rcases checkpointSlot_eq_some hslot with ⟨hnone, -⟩ | ⟨document, decoded, -, hsome, hid, hmap⟩
    · cases hnone
    · cases hsome
      exact ⟨hid, hmap⟩
  have hfind : ∀ {k : K} {d : ℕ},
      (slots.findIdx? fun slot => decide (slot.map Prod.fst = some k)) = some d →
      ∃ t, slots[d]? = some (some (k, t)) := by
    intro k d hd
    obtain ⟨hlt, hat, -⟩ := List.findIdx?_eq_some_iff_getElem.mp hd
    simp only [decide_eq_true_eq, Option.map_eq_some_iff, Prod.exists, exists_and_right,
      exists_eq_right] at hat
    obtain ⟨t, ht⟩ := hat
    exact ⟨t, by rw [List.getElem?_eq_getElem hlt, ht]⟩
  have hfound : ∀ {k : K} {d : ℕ} {t : T}, slots[d]? = some (some (k, t)) →
      (slots.findIdx? fun slot => decide (slot.map Prod.fst = some k)).isSome := by
    intro k d t hd
    rw [List.findIdx?_isSome, List.any_eq_true]
    exact ⟨_, List.mem_of_getElem? hd, by simp⟩
  refine ⟨⟨⟨?_, ?_, ?_⟩, ⟨?_, Nat.le_refl _, hbound⟩, ?_, rfl⟩, rfl, rfl⟩
  · simpa [ReplayState.start] using hlen
  · intro k d hd
    obtain ⟨t, ht⟩ := hfind hd
    exact ⟨t, by simp [ReplayState.start, ht], (hkey ht).1⟩
  · obtain ⟨ks, hks, hcard⟩ := exists_keys slots fun i j k t t' hi hj => by
      have h1 := (hkey hi).2
      rw [(hkey hj).2] at h1
      exact (Option.some.inj h1).symm
    refine ⟨ks, fun k => ?_, hcard⟩
    rw [hks]
    constructor
    · rintro ⟨i, t, hi⟩
      exact hfound hi
    · intro hk
      obtain ⟨d, hd⟩ := Option.isSome_iff_exists.mp hk
      obtain ⟨t, ht⟩ := hfind hd
      exact ⟨d, t, ht⟩
  · intro k
    rw [Bool.eq_iff_iff]
    constructor
    · intro hk
      obtain ⟨d, hd⟩ := Option.isSome_iff_exists.mp hk
      obtain ⟨t, ht⟩ := hfind hd
      simp [BatchState.ofPublished, (hkey ht).2]
    · intro hk
      obtain ⟨d, hd⟩ := Option.isSome_iff_exists.mp hk
      obtain ⟨document, hdoc, hactive⟩ := WellFormed.get hwf hd
      have hid : setup.idOf document = k := hkeyed k d document hd hdoc
      have hlt : d < slots.length := by
        rw [hlen]
        exact hwf.fresh d hactive
      obtain ⟨slot, hat⟩ : ∃ slot, slots[d]? = some slot := ⟨_, List.getElem?_eq_getElem hlt⟩
      rcases checkpointSlot_eq_some (hslot hat).2 with ⟨-, hnone⟩ | ⟨document', decoded, hget, hsome, -⟩
      · rw [SearchSnapshot.get, if_pos hactive, hdoc] at hnone
        cases hnone
      · rw [SearchSnapshot.get, if_pos hactive, hdoc] at hget
        cases hget
        rw [hid] at hsome
        rw [hsome] at hat
        exact hfound hat
  · have hmap := map_of_mapM hindexes
    rw [tagsOf, List.map_map]
    refine Eq.trans (List.map_congr_left fun index hindex => ?_) hmap
    obtain ⟨d, hd⟩ : ∃ d, checkpointIndex setup index = some d := by
      have hmem := List.mem_map_of_mem (f := checkpointIndex setup) hindex
      rw [hmap] at hmem
      obtain ⟨d, -, heq⟩ := List.mem_map.mp hmem
      exact ⟨d, heq.symm⟩
    rw [hd]
    simp only [checkpointIndex, bind, Option.bind_eq_some_iff] at hd
    obtain ⟨descriptor, hdescriptor, fieldName, hfield, analyzerId, hanalyzer, hmake⟩ := hd
    have hname := hnames index hindex
    rw [← (descriptorOf_eq_some hdescriptor).2.1] at hname
    rw [Utf8.decode_getBytes hname] at hfield
    rw [Utf8.decode_getBytes (descriptor_analyzer_wellFormed descriptor)] at hanalyzer
    cases hfield
    cases hanalyzer
    rw [DurableIndexDescriptor.make_self] at hmake
    cases hmake
    exact hdescriptor

theorem Sound.checkpoint (h : Sound setup startupIndexes s) {loaded : Loaded K T}
    (hload : checkpointOf setup s.engine.current s.coordinator.publishedSequence = some loaded)
    (hnames : ∀ index ∈ s.engine.current.snapshot.indexes,
      Utf8.WellFormed (setup.schema.name (ops.field index))) :
    Sound setup startupIndexes { s with checkpoints := loaded :: s.checkpoints } := by
  obtain ⟨R₀, hR₀, hmatches₀⟩ := h.accepted none (by simp [DurableEngine.starts])
  obtain ⟨hmatches, hnext, hsequence⟩ := checkpointOf_matches hload h.wellFormed h.keyed
    hmatches₀.follows.bound hnames startupIndexes
  -- The log behind the newest checkpoint is empty.
  have hreplay : replay setup startupIndexes (some loaded) s.coordinator.frames =
      .ok (ReplayState.start startupIndexes (some loaded)) := by
    refine applyFrames_covered fun frame hframe => ?_
    show frame.sequence ≤ loaded.sequence
    rw [hsequence]
    exact h.covered frame hframe
  refine ⟨h.wellFormed, h.keyed, h.usable, h.builds, h.covered, h.settled, fun c hc => ?_,
    List.pairwise_cons.mpr ⟨fun older holder R R' hR hR' => ?_, h.ordered⟩⟩
  · rcases List.mem_cons.mp hc with rfl | hc
    · exact ⟨_, hreplay, hmatches⟩
    · exact h.accepted c hc
  · rw [hreplay] at hR
    cases hR
    obtain ⟨Q, hQ, hmatchesQ⟩ := h.accepted older holder
    rw [hQ] at hR'
    cases hR'
    exact Nat.le_trans hmatchesQ.follows.next (Nat.le_of_eq hnext.symm)

omit [DecidableEq K] in
/-- The published state of a recovered one. -/
theorem recoveredState_eq_some (identity : IndexIdentity ops) {R : ReplayState K T}
    {current : PublishedState K T ops.Index} (h : recoveredState setup R = some current)
    (hc : R.Consistent setup.idOf) :
    current.WellFormed ∧ Keyed setup.idOf (BatchState.ofPublished ops current) ∧
      current.documentIds = R.documentIds ∧ current.nextDocId = R.nextDocId ∧
      (∀ tag ∈ tagsOf ops current.snapshot.indexes, Usable setup tag.1 tag.2) ∧
      (tagsOf ops current.snapshot.indexes).map (fun tag => descriptorOf setup tag.1 tag.2) =
        R.indexes.map some := by
  simp only [recoveredState, bind, Option.bind_eq_some_iff] at h
  obtain ⟨definitions, hdefinitions, h⟩ := h
  split at h
  case isFalse => cases h
  cases h
  have hmap := map_of_mapM hdefinitions
  have hdocument : ∀ {k d}, R.documentIds k = some d →
      ∃ t, R.slots[d]?.join = some t ∧ setup.idOf t = k ∧ d < R.slots.length := by
    intro k d hd
    obtain ⟨t, ht, hid⟩ := hc.filled k d hd
    exact ⟨t, by rw [ht]; rfl, hid, hc.lt hd⟩
  have hback : ∀ definition ∈ definitions, ∃ d ∈ R.indexes,
      toDefinition setup d = some definition := by
    intro definition hdefinition
    have hmem : some definition ∈ definitions.map some := List.mem_map_of_mem hdefinition
    rw [← hmap] at hmem
    exact List.mem_map.mp hmem
  -- The indexes that are built have the tags of the definitions.
  have htags : ∀ base : SearchSnapshot T ops.Index, tagsOf ops (definitions.map fun definition =>
      buildIndex ops base (ops.createEmpty definition.1 definition.2)) = definitions := by
    intro base
    rw [tagsOf, List.map_map]
    refine Eq.trans (List.map_congr_left fun definition _ => ?_) (List.map_id _)
    exact (buildIndex_tag identity base _).trans (identity.tag_empty definition.1 definition.2)
  refine ⟨⟨fun k d hd => ?_, fun k k' d => hc.injective, fun d hd => ?_⟩, ?_, rfl, rfl, ?_, ?_⟩
  · obtain ⟨t, ht, -, hlt⟩ := hdocument hd
    refine ⟨Finset.mem_filter.mpr ⟨Finset.mem_range.mpr hlt, ?_⟩, ?_⟩
    · rw [ht]
      rfl
    · simp only [ht, Option.isSome_some]
  · simp only [Finset.mem_filter, Finset.mem_range] at hd
    rw [← hc.size]
    exact hd.1
  · intro k d t hd ht
    obtain ⟨t', ht', hid, -⟩ := hdocument hd
    simp only [BatchState.ofPublished, SearchSnapshotBuilder.ofSnapshot] at ht
    rw [ht'] at ht
    cases ht
    exact hid
  · intro tag htag
    simp only [htags] at htag
    obtain ⟨d, -, hd⟩ := hback tag htag
    exact (descriptorOf_toDefinition hd).2
  · simp only [htags]
    have hdescriptors : R.indexes.map (fun d => (toDefinition setup d).bind fun tag =>
        descriptorOf setup tag.1 tag.2) = R.indexes.map some := by
      refine List.map_congr_left fun d hd => ?_
      have hmem : toDefinition setup d ∈ R.indexes.map (toDefinition setup) :=
        List.mem_map_of_mem hd
      rw [hmap] at hmem
      obtain ⟨tag, -, htag⟩ := List.mem_map.mp hmem
      rw [← htag, Option.bind_some]
      exact (descriptorOf_toDefinition htag.symm).1
    rw [← hdescriptors, ← Function.comp_def (fun o : Option (ops.Field × ops.Kind) =>
      o.bind fun tag => descriptorOf setup tag.1 tag.2) (toDefinition setup), ← List.map_map, hmap,
      List.map_map]
    rfl

omit [DecidableEq K] in
theorem Builds.start (current : PublishedState K T ops.Index) :
    Builds setup (EngineState.start current : EngineState K ops) :=
  ⟨by simp [EngineState.start], by simp [EngineState.start], by simp [EngineState.start],
    by simp [EngineState.start]⟩

theorem Sound.fresh (identity : IndexIdentity ops)
    (h : DurableEngine.fresh setup startupIndexes = some s) : Sound setup startupIndexes s := by
  obtain ⟨current, hcurrent, rfl⟩ := Option.map_eq_some_iff.mp h
  have hc : (ReplayState.start startupIndexes none : ReplayState K T).Consistent setup.idOf :=
    ⟨rfl, nofun, ∅, by simp [ReplayState.start], rfl⟩
  obtain ⟨hwf, hkeyed, hids, hnext, husable, hindexes⟩ :=
    recoveredState_eq_some identity hcurrent hc
  refine ⟨hwf, hkeyed, husable, .start current, nofun, fun _ => rfl, fun c hcmem => ?_,
    List.pairwise_singleton _ _⟩
  obtain rfl : c = none := by simpa [DurableEngine.starts] using hcmem
  refine ⟨_, rfl, hc, ⟨fun k => ?_, ?_, ?_⟩, hindexes, rfl⟩
  · exact (congrArg Option.isSome (congrFun hids k)).symm
  · exact Nat.le_of_eq hnext.symm
  · exact Nat.le_trans (Nat.le_of_eq hnext) (Nat.zero_le _)

/-- Opening the store again: the engine starts from the newest recovered state, and the others
follow it as before. -/
theorem Sound.reopen (identity : IndexIdentity ops) (h : Sound setup startupIndexes s)
    {R : ReplayState K T}
    (hR : replay setup startupIndexes s.checkpoints.head? s.coordinator.frames = .ok R)
    {current : PublishedState K T ops.Index} (hcurrent : recoveredState setup R = some current) :
    Sound setup startupIndexes { s with
      engine := .start current
      coordinator := { s.coordinator with
        allocatedSequence := R.lastSequence
        publishedSequence := R.lastSequence
        terminal := false } } := by
  have hhead : ∃ tail, s.starts = s.checkpoints.head? :: tail := by
    unfold DurableEngine.starts
    cases s.checkpoints with
    | nil => exact ⟨[], rfl⟩
    | cons c cs => exact ⟨cs.map some ++ [none], rfl⟩
  obtain ⟨tail, hstarts⟩ := hhead
  obtain ⟨R', hR', hmatches⟩ := h.accepted s.checkpoints.head? (by simp [hstarts])
  rw [hR] at hR'
  cases hR'
  obtain ⟨hwf, hkeyed, hids, hnext, husable, hindexes⟩ :=
    recoveredState_eq_some identity hcurrent hmatches.consistent
  refine ⟨hwf, hkeyed, husable, .start current, fun frame hframe => ?_, fun _ => rfl,
    fun c hc => ?_, h.ordered⟩
  · have := h.covered frame hframe
    simp only [hmatches.sequence]
    exact this
  change c ∈ s.starts at hc
  obtain ⟨Q, hQ, hmatchesQ⟩ := h.accepted c hc
  refine ⟨Q, hQ, hmatchesQ.consistent, ⟨fun k => ?_, ?_, ?_⟩, ?_, ?_⟩
  · have h1 := hmatchesQ.follows.keys k
    have h2 := hmatches.follows.keys k
    rw [h1, ← h2]
    exact (congrArg Option.isSome (congrFun hids k)).symm
  · show Q.nextDocId ≤ current.nextDocId
    rw [hnext]
    have hordered := h.ordered
    rw [hstarts] at hordered hc
    rcases List.mem_cons.mp hc with rfl | hc
    · rw [hR] at hQ
      cases hQ
      exact Nat.le_refl _
    · exact (List.pairwise_cons.mp hordered).1 c hc R Q hR hQ
  · show current.nextDocId ≤ maxDocId
    rw [hnext]
    exact Nat.le_trans hmatches.follows.next hmatches.follows.bound
  · exact hindexes.trans (hmatches.indexes.symm.trans hmatchesQ.indexes)
  · exact hmatchesQ.sequence.trans hmatches.sequence.symm

/-! ### Runs -/

/-- One task keeps the invariant. -/
theorem Sound.handle (identity : IndexIdentity ops) (h : Sound setup startupIndexes s)
    {task : Task setup} (hadmissible : Admissible setup s task) :
    Sound setup startupIndexes (s.handle setup startupIndexes task) := by
  cases hterminal : s.coordinator.terminal with
  | false =>
    cases task with
    | batch tasks storage =>
      rw [DurableEngine.handle, hterminal]
      exact h.batch identity hterminal hadmissible
    | bulk tasks storage =>
      rw [DurableEngine.handle, hterminal]
      exact h.bulk identity hterminal hadmissible
    | createIndex definition rejected =>
      rw [DurableEngine.handle, hterminal]
      exact h.createIndex identity definition rejected
    | installIndex position buildFails replayThrows storage =>
      rw [DurableEngine.handle, hterminal]
      exact h.installIndex identity hterminal hadmissible
    | dropIndex fieldName storage =>
      rw [DurableEngine.handle, hterminal]
      exact h.dropIndex hterminal hadmissible
    | checkpoint =>
      rw [DurableEngine.handle, hterminal]
      simp only [Bool.false_eq_true, if_false]
      split
      · rename_i loaded hload
        exact h.checkpoint hload (hadmissible (by rw [hload]; rfl))
      · exact h
    | reopen =>
      unfold DurableEngine.handle
      dsimp only
      split
      · exact h
      split
      · exact h
      · exact h.reopen identity ‹_› ‹_›
  | true =>
    cases task with
    | reopen =>
      unfold DurableEngine.handle
      dsimp only
      split
      · exact h
      split
      · exact h
      · exact h.reopen identity ‹_› ‹_›
    | _ =>
      simp only [DurableEngine.handle, hterminal, if_true]
      exact h

/-- Every task of the run is admissible where it is handled. -/
def AdmissibleRun (setup : Setup K ops) (startupIndexes : List DurableIndexDescriptor) :
    DurableEngine K ops → List (Task setup) → Prop
  | _, [] => True
  | s, task :: rest => Admissible setup s task ∧
      AdmissibleRun setup startupIndexes (s.handle setup startupIndexes task) rest

theorem Sound.run (identity : IndexIdentity ops) (h : Sound setup startupIndexes s)
    {tasks : List (Task setup)} (hrun : AdmissibleRun setup startupIndexes s tasks) :
    Sound setup startupIndexes (s.run setup startupIndexes tasks) := by
  induction tasks generalizing s with
  | nil => exact h
  | cons task tasks ih => exact ih (h.handle identity hrun.1) hrun.2

/-- Replay accepts what was committed: behind a run of admissible tasks, the whole log is replayed
without an exception, from the empty state and from every checkpoint that was taken. -/
theorem replay_accepts (identity : IndexIdentity ops)
    (hfresh : DurableEngine.fresh setup startupIndexes = some s) {tasks : List (Task setup)}
    (hrun : AdmissibleRun setup startupIndexes s tasks) :
    ∀ c ∈ (s.run setup startupIndexes tasks).starts, ∃ R,
      replay setup startupIndexes c (s.run setup startupIndexes tasks).coordinator.frames =
        .ok R := by
  intro c hc
  obtain ⟨R, hR, -⟩ := ((Sound.fresh identity hfresh).run identity hrun).accepted c hc
  exact ⟨R, hR⟩

end

/-! ### One store that cannot be opened again -/

/-- Indexes that list the ids of their documents, one class for each kind byte. -/
def listOps : IndexOps ℕ where
  Field := Unit
  Kind := UInt8
  Index := UInt8 × List ℕ
  Builder := UInt8 × List ℕ
  Observation := List ℕ
  field _ := ()
  kind := Prod.fst
  createEmpty _ k := (k, [])
  toBuilder := id
  add b d _ := (b.1, d :: b.2)
  remove b d _ := (b.1, b.2.erase d)
  update b _ _ _ := b
  torn := id
  build := id
  observe := Prod.snd

def listOps_identity : IndexIdentity listOps where
  tag b := ((), b.1)
  tag_toBuilder _ := rfl
  tag_add _ _ _ := rfl
  tag_remove _ _ _ := rfl
  tag_update _ _ _ _ := rfl
  tag_torn _ := rfl
  tag_build _ := rfl
  tag_empty _ _ := rfl

/-- A store of bytes, each its own key, with one field and room for one document. -/
def byteSetup : Setup ℕ listOps where
  config := ⟨8, 8, 10, 1, 1000⟩
  codec := {
    encodeKey n := if n < 256 then some [UInt8.ofNat n] else none
    decodeKey bs := match bs with
      | [b] => some b.toNat
      | _ => none
    encodeDocument n := if n < 256 then some [UInt8.ofNat n] else none
    decodeDocument bs := match bs with
      | [b] => some b.toNat
      | _ => none }
  idOf := id
  schema := {
    name _ := Utf8.ofString "f"
    isString _ := true
    fields := [()]
    textFields := []
    unique := by decide
    named := by decide
    textRegistered := by decide }
  durableKind (k : UInt8) := if 1 ≤ k ∧ k ≤ 4 then some k else none
  classOf := id
  durableKind_eq k b := by
    constructor
    · intro h
      split at h
      · cases h
        exact ⟨‹_›, rfl⟩
      · cases h
    · rintro ⟨h, rfl⟩
      exact if_pos h

/-- Document 7 is added; then document 8 is added in the batch that removes 7. -/
def replacingTasks : List (Task byteSetup) :=
  [.batch [⟨.add 7, .none⟩] ⟨48, false⟩,
    .batch [⟨.add 8, .none⟩, ⟨.remove 7, .none⟩] ⟨87, false⟩]

/-- The engine over the fresh store. -/
def freshStore : DurableEngine ℕ listOps :=
  ⟨.start ⟨⟨fun _ => none, ∅, [], 0⟩, fun _ => none, 0⟩, ⟨0, 0, false, []⟩, []⟩

/-- Both groups are committed and published, and the second is refused when it is replayed. -/
theorem replay_refuses_committed :
    ¬ (∀ s, DurableEngine.fresh byteSetup [] = some s → ∀ tasks : List (Task byteSetup),
      ∀ c ∈ (s.run byteSetup [] tasks).starts, ∃ R,
        replay byteSetup [] c (s.run byteSetup [] tasks).coordinator.frames = .ok R) := by
  intro h
  have hfresh : DurableEngine.fresh byteSetup [] = some freshStore := rfl
  obtain ⟨R, hR⟩ := h freshStore hfresh replacingTasks none (by simp [DurableEngine.starts])
  have hrefused : (replay byteSetup [] none
      (freshStore.run byteSetup [] replacingTasks).coordinator.frames).toBool = false := by
    decide +kernel
  rw [hR] at hrefused
  cases hrefused

/-- The other order: the removal makes room before the addition, and a bulk replaces it. -/
def roomyTasks : List (Task byteSetup) :=
  [.batch [⟨.add 7, .none⟩] ⟨48, false⟩, .checkpoint,
    .batch [⟨.remove 7, .none⟩, ⟨.add 8, .none⟩] ⟨87, false⟩,
    .bulk [⟨.update 8, .none⟩] ⟨177, false⟩]

theorem replay_accepts_bytes :
    (freshStore.run byteSetup [] roomyTasks).coordinator.frames.length = 4 ∧
      ∀ c ∈ (freshStore.run byteSetup [] roomyTasks).starts, ∃ R,
        replay byteSetup [] c (freshStore.run byteSetup [] roomyTasks).coordinator.frames =
          .ok R := by
  refine ⟨by decide +kernel, replay_accepts listOps_identity rfl ⟨?_, ?_, ?_, ?_, trivial⟩⟩
  · exact fun _ => ⟨by decide +kernel, by decide +kernel⟩
  · intro _ index hindex
    have hnone : (freshStore.handle byteSetup []
        (.batch [⟨.add 7, .none⟩] ⟨48, false⟩)).engine.current.snapshot.indexes = [] := by
      decide +kernel
    rw [hnone] at hindex
    exact absurd hindex List.not_mem_nil
  · exact fun _ => ⟨by decide +kernel, by decide +kernel⟩
  · exact fun _ => by decide +kernel

end GeneralSearch.Durable
