import GeneralSearch.Durable.Writer
import Mathlib.Data.Finset.Card

/-! Replay of what was committed.  A recovered state follows the engine: it knows the same keys, and
a unit that the engine commits is applied by it as well, as long as no addition of a group stands at
the document limit, no removal of a published batch throws in an index builder, and the field names
that are written are well-formed. -/

namespace GeneralSearch.Durable

open GeneralSearch.Storage GeneralSearch.Engine
open GeneralSearch.Utf8 (JavaString)

variable {K T : Type} [DecidableEq K] {ops : IndexOps T} {setup : Setup K ops}

/-! ### The conditions -/

/-- The mutation adds a document. -/
def isAdd : SearchMutation K T → Bool
  | .add _ => true
  | _ => false

/-- The key map names the document. -/
def namesDocument {Builder : Type} (idOf : T → K) (s : BatchState K T Builder) (docId : ℕ) : Bool :=
  match s.snapshots.documents docId with
  | some document => s.documentIds (idOf document) = some docId
  | none => false

/-- The number of documents that the key map names. -/
def liveKeys {Builder : Type} (idOf : T → K) (s : BatchState K T Builder) : ℕ :=
  (s.snapshots.activeDocuments.filter fun docId => namesDocument idOf s docId).card

/-- Every addition of the group that succeeds finds room for a document, at the place where it
stands. -/
def roomForAdds (setup : Setup K ops) : BatchState K T ops.Builder → List (MutationTask K T) → Bool
  | _, [] => true
  | s, task :: rest =>
    (!(isAdd task.mutation && (applyTask ops setup.idOf s task).1.toBool) ||
      decide (liveKeys setup.idOf s < setup.config.maxDocuments)) &&
    roomForAdds setup (applyTask ops setup.idOf s task).2 rest

/-- The units of the batch are committed. -/
def batchCommits (setup : Setup K ops) (s : DurableEngine K ops) (tasks : List (MutationTask K T))
    (storage : StorageAnswer) : Bool :=
  let tasks := tasks.map (preparedTask setup)
  let r := applyAll ops setup.idOf (.ofPublished ops s.engine.current) tasks
  !erred r.1 && !(successful tasks r.1).isEmpty &&
    decide ((s.coordinator.commitGroup setup.config
      ((preparedMutations setup (successful tasks r.1)).map (⟨singleType, ·⟩))
      r.2.snapshots.activeDocuments.card storage).1 = .committed)

/-- The unit of the bulk is committed. -/
def bulkCommits (setup : Setup K ops) (s : DurableEngine K ops) (tasks : List (MutationTask K T))
    (storage : StorageAnswer) : Bool :=
  let tasks := tasks.map (preparedTask setup)
  match bulkIds setup.idOf [] tasks,
      applyBulk ops setup.idOf (.ofPublished ops s.engine.current) tasks,
      bulkUnit setup.config (preparedMutations setup tasks) with
  | .ok _, .ok (_, state), .ok unit =>
    decide ((s.coordinator.commitGroup setup.config [unit]
      state.snapshots.activeDocuments.card storage).1 = .committed)
  | _, _, _ => false

/-- The name of the field of a build that the task installs, with its unit committed. -/
def installedName (setup : Setup K ops) (s : DurableEngine K ops) (position : ℕ)
    (buildFails : Bool) (replayThrows : Option Thrown) (storage : StorageAnswer) :
    Option JavaString :=
  match (s.engine.process ops setup.idOf setup.schema.registered
      (.installIndex position buildFails replayThrows .committed)).1 with
  | .installed pending _ =>
    if (s.coordinator.commitGroup setup.config
        (durableUnit setup pending.field pending.indexType).toList
        s.engine.current.snapshot.activeDocuments.card storage).1 = .committed then
      some (setup.schema.name pending.field)
    else none
  | _ => none

/-- The unit of the drop is committed. -/
def dropCommits (setup : Setup K ops) (s : DurableEngine K ops) (fieldName : JavaString)
    (storage : StorageAnswer) : Bool :=
  match setup.schema.field fieldName, dropIndexUnit fieldName with
  | some _, some unit =>
    decide ((s.coordinator.commitGroup setup.config [unit]
      s.engine.current.snapshot.activeDocuments.card storage).1 = .committed)
  | _, _ => false

/-- The task does not reach a check that replay makes and the commit does not: in a group that is
committed, no addition stands at the document limit and, in a batch, no removal throws in an index
builder; and a field name that is written has no surrogate without a partner. -/
def Admissible (setup : Setup K ops) (s : DurableEngine K ops) : Task setup → Prop
  | .batch tasks storage => batchCommits setup s tasks storage = true →
    roomForAdds setup (.ofPublished ops s.engine.current) (tasks.map (preparedTask setup)) = true ∧
      someThrow ops setup.idOf SearchMutation.isRemove (.ofPublished ops s.engine.current)
        (tasks.map (preparedTask setup)) = false
  | .bulk tasks storage => bulkCommits setup s tasks storage = true →
    roomForAdds setup (.ofPublished ops s.engine.current) (tasks.map (preparedTask setup)) = true
  | .installIndex position buildFails replayThrows storage =>
    ∀ name ∈ installedName setup s position buildFails replayThrows storage, Utf8.WellFormed name
  | .dropIndex fieldName storage => dropCommits setup s fieldName storage = true →
    Utf8.WellFormed fieldName
  | .checkpoint =>
    (checkpointOf setup s.engine.current s.coordinator.publishedSequence).isSome = true →
      ∀ index ∈ s.engine.current.snapshot.indexes,
        Utf8.WellFormed (setup.schema.name (ops.field index))
  | _ => True

/-! ### Recovered states -/

/-- The slots and the key map of a recovered state belong together. -/
structure ReplayState.Consistent (idOf : T → K) (R : ReplayState K T) : Prop where
  size : R.slots.length = R.nextDocId
  filled : ∀ k d, R.documentIds k = some d → ∃ t, R.slots[d]? = some (some t) ∧ idOf t = k
  count : ∃ ks : Finset K, (∀ k, k ∈ ks ↔ (R.documentIds k).isSome) ∧ ks.card = R.liveDocuments

/-- The recovered state knows the keys of the engine, under document ids that are not ahead. -/
structure Follows {Builder : Type} (s : BatchState K T Builder) (R : ReplayState K T) : Prop where
  keys : ∀ k, (R.documentIds k).isSome = (s.documentIds k).isSome
  next : R.nextDocId ≤ s.nextDocId
  bound : s.nextDocId ≤ maxDocId

/-- A key names a document with that key. -/
def Keyed {Builder : Type} (idOf : T → K) (s : BatchState K T Builder) : Prop :=
  ∀ k d t, s.documentIds k = some d → s.snapshots.documents d = some t → idOf t = k

section

variable {R R' : ReplayState K T} {s : BatchState K T ops.Builder} {task : MutationTask K T}

omit [DecidableEq K] in
theorem ReplayState.Consistent.lt (h : R.Consistent setup.idOf) {k : K} {d : ℕ}
    (hd : R.documentIds k = some d) : d < R.slots.length := by
  obtain ⟨t, ht, -⟩ := h.filled k d hd
  exact (List.getElem?_eq_some_iff.mp ht).1

omit [DecidableEq K] in
theorem ReplayState.Consistent.injective (h : R.Consistent setup.idOf) {k k' : K} {d : ℕ}
    (hd : R.documentIds k = some d) (hd' : R.documentIds k' = some d) : k = k' := by
  obtain ⟨t, ht, rfl⟩ := h.filled k d hd
  obtain ⟨t', ht', rfl⟩ := h.filled k' d hd'
  rw [ht] at ht'
  cases ht'
  rfl

omit [DecidableEq K] in
/-- The documents that the engine's keys name are as many as the recovered ones. -/
theorem liveKeys_eq (hwf : s.WellFormed) (hkeyed : Keyed setup.idOf s) (hf : Follows s R)
    (hc : R.Consistent setup.idOf) : liveKeys setup.idOf s = R.liveDocuments := by
  obtain ⟨ks, hks, hcard⟩ := hc.count
  rw [← hcard]
  symm
  have hmem : ∀ k, k ∈ ks ↔ (s.documentIds k).isSome := fun k => by rw [hks, hf.keys]
  refine Finset.card_bij (fun k hk => (s.documentIds k).get ((hmem k).mp hk)) ?_ ?_ ?_
  · intro k hk
    obtain ⟨d, hd⟩ := Option.isSome_iff_exists.mp ((hmem k).mp hk)
    obtain ⟨t, ht, hactive⟩ := WellFormed.get hwf hd
    have hid := hkeyed k d t hd ht
    simp only [hd, Option.get_some]
    rw [Finset.mem_filter]
    exact ⟨hactive, by simp [namesDocument, ht, hid, hd]⟩
  · intro k hk k' hk' heq
    obtain ⟨d, hd⟩ := Option.isSome_iff_exists.mp ((hmem k).mp hk)
    obtain ⟨d', hd'⟩ := Option.isSome_iff_exists.mp ((hmem k').mp hk')
    simp only [hd, hd', Option.get_some] at heq
    exact hwf.injective k k' d hd (heq ▸ hd')
  · intro d hd
    obtain ⟨-, hnames⟩ := Finset.mem_filter.mp hd
    unfold namesDocument at hnames
    split at hnames
    · rename_i t ht
      have hid : s.documentIds (setup.idOf t) = some d := by simpa using hnames
      refine ⟨setup.idOf t, (hmem _).mpr (by rw [hid]; rfl), ?_⟩
      simp [hid]
    · cases hnames

/-! ### One mutation -/

theorem applyTask_keyed (hwf : s.WellFormed) (hkeyed : Keyed setup.idOf s) :
    Keyed setup.idOf (applyTask ops setup.idOf s task).2 := by
  have hstep := applyTask_cases setup.idOf task hwf
  generalize (applyTask ops setup.idOf s task).1 = r at hstep
  generalize (applyTask ops setup.idOf s task).2 = s' at hstep
  have hold : ∀ {k d t} {e : ℕ} {t' : T}, s.documentIds k = some d → d ≠ e →
      Function.update s.snapshots.documents e (some t') d = some t → setup.idOf t = k := by
    intro k d t e t' hid hne hdoc
    rw [Function.update_of_ne hne] at hdoc
    exact hkeyed k d t hid hdoc
  have hfresh : ∀ {k d}, s.documentIds k = some d → d ≠ s.nextDocId := by
    rintro k d hid rfl
    exact hwf.next_notMem (hwf.stored k _ hid).1
  have hupdated : ∀ {document : T} {docId : ℕ} {k d t},
      s.documentIds (setup.idOf document) = some docId → s.documentIds k = some d →
      Function.update s.snapshots.documents docId (some document) d = some t →
      setup.idOf t = k := by
    intro document docId k d t hid hk hdoc
    by_cases hd : d = docId
    · subst hd
      rw [Function.update_self] at hdoc
      cases hdoc
      exact hwf.injective _ _ _ hid hk
    · exact hold hk hd hdoc
  cases hstep with
  | refused => exact hkeyed
  | absent => exact hkeyed
  | added document =>
    intro k d t hid hdoc
    by_cases hk : k = setup.idOf document
    · subst hk
      simp only [Function.update_self, Option.some.injEq] at hid
      subst hid
      simp only [BatchState.added, Function.update_self, Option.some.injEq] at hdoc
      rw [hdoc]
    · simp only [Function.update_of_ne hk] at hid
      exact hold hid (hfresh hid) hdoc
  | updated document oldDocument docId _ hid => exact fun k d t hk hdoc => hupdated hid hk hdoc
  | removed id document docId =>
    intro k d t hid hdoc
    simp only [Function.update_apply] at hid hdoc
    split at hid
    · cases hid
    split at hdoc
    · cases hdoc
    exact hkeyed k d t hid hdoc
  | addThrew document =>
    exact fun k d t hid hdoc => hold hid (hfresh hid) hdoc
  | updateThrew document oldDocument docId _ hid =>
    exact fun k d t hk hdoc => hupdated hid hk hdoc
  | removeThrew id document docId =>
    intro k d t hid hdoc
    simp only [Function.update_apply] at hid
    split at hid
    · cases hid
    exact hkeyed k d t hid hdoc

/-- A mutation that fails leaves the keys as they were, unless it is a removal that throws in an
index builder. -/
theorem applyTask_follows_error (hwf : s.WellFormed) (hf : Follows s R)
    (hthrow : (task.mutation.isRemove && throwsInIndex ops setup.idOf s task) = false)
    {e : MutationFailure K} (herr : (applyTask ops setup.idOf s task).1 = .error e) :
    Follows (applyTask ops setup.idOf s task).2 R := by
  have hstep := applyTask_cases setup.idOf task hwf
  rw [herr] at hstep
  generalize (applyTask ops setup.idOf s task).2 = s' at hstep
  cases hstep with
  | refused => exact hf
  | addThrew document hm _ ht =>
    refine ⟨hf.keys, Nat.le_succ_of_le hf.next, ?_⟩
    have hmax : s.nextDocId ≠ maxDocId := by
      unfold throwsInIndex at ht
      split at ht <;> simp_all
    have := hf.bound
    simp only [BatchState.added]
    omega
  | updateThrew => exact ⟨hf.keys, hf.next, hf.bound⟩
  | removeThrew id document docId hm _ _ _ ht =>
    rw [hm, ht] at hthrow
    cases hthrow

/-- What replay does with a mutation that the engine applied. -/
structure Replayed (setup : Setup K ops) (s' : BatchState K T ops.Builder) (adds : ℕ)
    (R R' : ReplayState K T) : Prop where
  consistent : R'.Consistent setup.idOf
  follows : Follows s' R'
  next : R'.nextDocId = R.nextDocId + adds
  indexes : R'.indexes = R.indexes

theorem ReplayState.Consistent.added (h : R.Consistent setup.idOf) {document : T}
    (hnone : R.documentIds (setup.idOf document) = none) :
    ReplayState.Consistent setup.idOf { R with
      nextDocId := R.nextDocId + 1
      slots := R.slots ++ [some document]
      documentIds := Function.update R.documentIds (setup.idOf document) (some R.nextDocId)
      liveDocuments := R.liveDocuments + 1 } := by
  refine ⟨by simp [h.size], fun k d hd => ?_, ?_⟩
  · simp only [Function.update_apply] at hd
    split at hd
    · rename_i hk
      cases hd
      exact ⟨document, by simp [← h.size], hk.symm⟩
    · obtain ⟨t, ht, hid⟩ := h.filled k d hd
      exact ⟨t, by simp [List.getElem?_append_left (h.lt hd), ht], hid⟩
  · obtain ⟨ks, hks, hcard⟩ := h.count
    have hnew : setup.idOf document ∉ ks := by simp [hks, hnone]
    refine ⟨insert (setup.idOf document) ks, fun k => ?_, by
      rw [Finset.card_insert_of_notMem hnew, hcard]⟩
    simp only [Finset.mem_insert, Function.update_apply, hks]
    split <;> simp [*]

omit [DecidableEq K] in
theorem ReplayState.Consistent.updated (h : R.Consistent setup.idOf) {document : T} {d : ℕ}
    (hd : R.documentIds (setup.idOf document) = some d) :
    ReplayState.Consistent setup.idOf { R with slots := R.slots.set d (some document) } := by
  refine ⟨by simp [h.size], fun k d' hd' => ?_, h.count⟩
  by_cases hdd : d' = d
  · subst hdd
    exact ⟨document, by simp [h.lt hd], h.injective hd hd'⟩
  · obtain ⟨t, ht, hid⟩ := h.filled k d' hd'
    exact ⟨t, by simp [List.getElem?_set_ne (Ne.symm hdd), ht], hid⟩

theorem ReplayState.Consistent.removed (h : R.Consistent setup.idOf) {key : K} {d : ℕ}
    (hd : R.documentIds key = some d) :
    ReplayState.Consistent setup.idOf { R with
      documentIds := Function.update R.documentIds key none
      slots := R.slots.set d none
      liveDocuments := R.liveDocuments - 1 } := by
  refine ⟨by simp [h.size], fun k d' hd' => ?_, ?_⟩
  · simp only [Function.update_apply] at hd'
    split at hd'
    · cases hd'
    rename_i hk
    have hdd : d ≠ d' := by
      rintro rfl
      exact hk (h.injective hd' hd)
    obtain ⟨t, ht, hid⟩ := h.filled k d' hd'
    exact ⟨t, by simp [List.getElem?_set_ne hdd, ht], hid⟩
  · obtain ⟨ks, hks, hcard⟩ := h.count
    have hmem : key ∈ ks := by simp [hks, hd]
    refine ⟨ks.erase key, fun k => ?_, by rw [Finset.card_erase_of_mem hmem, hcard]⟩
    simp only [Finset.mem_erase, Function.update_apply, hks]
    split <;> simp [*]

/-- A mutation that the engine applied is applied by replay. -/
theorem applyTask_replayed (hwf : s.WellFormed) (hkeyed : Keyed setup.idOf s) (hf : Follows s R)
    (hc : R.Consistent setup.idOf) {change : Option (IndexChange T)}
    (hok : (applyTask ops setup.idOf s task).1 = .ok change) {decoded : DecodedMutation K T}
    (hdec : Decodes setup task.mutation decoded)
    (hroom : isAdd task.mutation = true → liveKeys setup.idOf s < setup.config.maxDocuments)
    (sequence : ℕ) :
    ∃ R', R.applyMutation setup.config decoded sequence = .ok R' ∧
      Replayed setup (applyTask ops setup.idOf s task).2 (if isAdd task.mutation then 1 else 0)
        R R' := by
  have hstep := applyTask_cases setup.idOf task hwf
  rw [hok] at hstep
  generalize (applyTask ops setup.idOf s task).2 = s' at hstep
  generalize hr : (Except.ok change : Except (MutationFailure K) _) = r at hstep
  cases hstep with
  | refused => cases hr
  | absent id hm hid =>
    rw [hm] at hdec ⊢
    cases hdec
    have hnone : R.documentIds id = none := by
      have := hf.keys id
      rw [hid] at this
      simpa using this
    exact ⟨R, by simp [ReplayState.applyMutation, hnone], hc, hf, rfl, rfl⟩
  | added document hm hnone hmax =>
    rw [hm] at hdec hroom ⊢
    cases hdec with
    | add _ document' hid =>
      have hkey : R.documentIds (setup.idOf document) = none := by
        have := hf.keys (setup.idOf document)
        rw [hnone] at this
        simpa using this
      have hlive := hroom rfl
      rw [liveKeys_eq hwf hkeyed hf hc] at hlive
      have hnext : R.nextDocId ≠ maxDocId := by
        have := hf.next
        have := hf.bound
        omega
      have happly : R.applyMutation setup.config (.add (setup.idOf document) document') sequence =
          .ok { R with
            nextDocId := R.nextDocId + 1
            slots := R.slots ++ [some document']
            documentIds := Function.update R.documentIds (setup.idOf document) (some R.nextDocId)
            liveDocuments := R.liveDocuments + 1 } := by
        rw [ReplayState.applyMutation, if_neg (by simp [hkey]), if_neg hnext, if_neg (by omega)]
      refine ⟨_, happly, ?_, ⟨fun k => ?_, Nat.succ_le_succ hf.next, ?_⟩, rfl, rfl⟩
      · rw [← hid] at hkey ⊢
        exact hc.added hkey
      · simp only [Function.update_apply]
        split
        · rfl
        · exact hf.keys k
      · have := hf.bound
        simp only [BatchState.added]
        omega
  | updated document oldDocument docId hm hid =>
    rw [hm] at hdec ⊢
    cases hdec with
    | update _ document' hid' =>
      obtain ⟨d, hd⟩ : ∃ d, R.documentIds (setup.idOf document) = some d := by
        have := hf.keys (setup.idOf document)
        rw [hid] at this
        exact Option.isSome_iff_exists.mp (by simpa using this)
      have happly : R.applyMutation setup.config (.update (setup.idOf document) document')
          sequence = .ok { R with slots := R.slots.set d (some document') } := by
        simp only [ReplayState.applyMutation, hd, if_pos (hc.lt hd)]
      refine ⟨_, happly, ?_, ⟨hf.keys, hf.next, hf.bound⟩, rfl, rfl⟩
      rw [← hid'] at hd
      exact hc.updated hd
  | removed id document docId hm hid =>
    rw [hm] at hdec ⊢
    cases hdec
    obtain ⟨d, hd⟩ : ∃ d, R.documentIds id = some d := by
      have := hf.keys id
      rw [hid] at this
      exact Option.isSome_iff_exists.mp (by simpa using this)
    have happly : R.applyMutation setup.config (.remove id) sequence = .ok { R with
        documentIds := Function.update R.documentIds id none
        slots := R.slots.set d none
        liveDocuments := R.liveDocuments - 1 } := by
      simp only [ReplayState.applyMutation, hd, if_pos (hc.lt hd)]
    refine ⟨_, happly, hc.removed hd, ⟨fun k => ?_, hf.next, hf.bound⟩, rfl, rfl⟩
    simp only [Function.update_apply]
    split
    · rfl
    · exact hf.keys k
  | addThrew => cases hr
  | updateThrew => cases hr
  | removeThrew => cases hr

/-! ### Groups of frames -/

omit [DecidableEq K] in
theorem Replayed.refl (hf : Follows s R) (hc : R.Consistent setup.idOf) :
    Replayed setup s 0 R R := ⟨hc, hf, rfl, rfl⟩

omit [DecidableEq K] in
/-- The sequence number and the number of records play no part. -/
theorem Replayed.renumber {adds : ℕ} (h : Replayed setup s adds R R') (sequence records : ℕ) :
    Replayed setup s adds R
      { R' with lastSequence := sequence, replayedRecords := records } :=
  ⟨⟨h.consistent.size, h.consistent.filled, h.consistent.count⟩,
    ⟨h.follows.keys, h.follows.next, h.follows.bound⟩, h.next, h.indexes⟩

omit [DecidableEq K] in
theorem Replayed.trans {s' : BatchState K T ops.Builder} {R'' : ReplayState K T} {a b : ℕ}
    (h : Replayed setup s a R R') (h' : Replayed setup s' b R' R'') :
    Replayed setup s' (a + b) R R'' :=
  ⟨h'.consistent, h'.follows, by rw [h'.next, h.next, Nat.add_assoc],
    h'.indexes.trans h.indexes⟩

theorem applyMutation_lastSequence {decoded : DecodedMutation K T} {sequence : ℕ}
    (h : R.applyMutation setup.config decoded sequence = .ok R') :
    R'.lastSequence = R.lastSequence := by
  unfold ReplayState.applyMutation at h
  cases decoded with
  | add key document =>
    simp only at h
    split at h
    · cases h
    split at h
    · cases h
    split at h
    · cases h
    · cases h
      rfl
  | update key document =>
    simp only at h
    split at h
    · cases h
    split at h
    · cases h
      rfl
    · cases h
  | remove key =>
    simp only at h
    split at h
    · cases h
      rfl
    split at h
    · cases h
      rfl
    · cases h

/-- A frame behind the last one applied is applied, and the others follow. -/
theorem applyFrames_cons {frame : Frame} {frames : List Frame} {R₁ : ReplayState K T}
    (hseq : frame.sequence = R.lastSequence + 1) (happly : R.apply setup frame = .ok R₁) :
    R.applyFrames setup (frame :: frames) = R₁.applyFrames setup frames := by
  rw [ReplayState.applyFrames, if_neg (by omega), happly]
  rfl

/-- The frame of one mutation. -/
theorem apply_single {mutation : SearchMutation K T} {payload : Bytes}
    (hpayload : prepareDurableMutation setup mutation = .ok payload)
    (hmax : R.lastSequence < maxSequence)
    (happly : ∀ decoded, Decodes setup mutation decoded →
      ∃ R', R.applyMutation setup.config decoded (R.lastSequence + 1) = .ok R' ∧
        Replayed setup s adds R R') :
    ∃ R', R.apply setup ⟨R.lastSequence + 1, singleType, payload⟩ = .ok R' ∧
      Replayed setup s adds R R' ∧ R'.lastSequence = R.lastSequence + 1 := by
  obtain ⟨decoded, hdec, hread⟩ := decodeMutation_prepared hpayload (R.lastSequence + 1) []
  obtain ⟨R', hR', hreplayed⟩ := happly decoded hdec
  rw [List.append_nil] at hread
  refine ⟨_, ReplayState.apply_unit R' hmax rfl ?_, hreplayed.renumber _ _, rfl⟩
  rw [ReplayState.applyUnit, if_pos rfl, Reader.bind_ok hread, hR']
  rfl

/-- The task of a batch that succeeds has a durable form. -/
theorem prepared_of_ok {change : Option (IndexChange T)}
    (hok : (applyTask ops setup.idOf s (preparedTask setup task)).1 = .ok change) :
    preparedTask setup task = task ∧
      ∃ payload, prepareDurableMutation setup task.mutation = .ok payload := by
  unfold preparedTask at hok ⊢
  cases hp : prepareDurableMutation setup task.mutation with
  | ok payload => exact ⟨rfl, payload, rfl⟩
  | error e => simp [hp, applyTask] at hok

theorem preparedTask_mutation (setup : Setup K ops) (task : MutationTask K T) :
    (preparedTask setup task).mutation = task.mutation := by
  unfold preparedTask
  split <;> rfl

/-- Every successful task of a batch has a unit. -/
theorem preparedMutations_length (setup : Setup K ops) (s : BatchState K T ops.Builder)
    (tasks : List (MutationTask K T)) :
    (preparedMutations setup (successful (tasks.map (preparedTask setup))
      (applyAll ops setup.idOf s (tasks.map (preparedTask setup))).1)).length =
    (successful (tasks.map (preparedTask setup))
      (applyAll ops setup.idOf s (tasks.map (preparedTask setup))).1).length := by
  induction tasks generalizing s with
  | nil => rfl
  | cons task tasks ih =>
    simp only [List.map_cons, applyAll]
    cases hr : (applyTask ops setup.idOf s (preparedTask setup task)).1 with
    | error e => exact ih _
    | ok change =>
      obtain ⟨hself, payload, hpayload⟩ := prepared_of_ok hr
      have hrest := ih (applyTask ops setup.idOf s (preparedTask setup task)).2
      simp only [preparedMutations, successful, List.filterMap_cons, hself, hpayload,
        Except.toOption, List.length_cons, Nat.add_right_cancel_iff] at hrest ⊢
      exact hrest

/-- The units of a batch are replayed. -/
theorem applyAll_replayed {tasks : List (MutationTask K T)} (hwf : s.WellFormed)
    (hkeyed : Keyed setup.idOf s) (hf : Follows s R) (hc : R.Consistent setup.idOf)
    (hthrow : someThrow ops setup.idOf SearchMutation.isRemove s
      (tasks.map (preparedTask setup)) = false)
    (hroom : roomForAdds setup s (tasks.map (preparedTask setup)) = true) {ok}
    (hok : ok = successful (tasks.map (preparedTask setup))
      (applyAll ops setup.idOf s (tasks.map (preparedTask setup))).1)
    (hmax : R.lastSequence + ok.length ≤ maxSequence) :
    ∃ R', R.applyFrames setup (sequenced (R.lastSequence + 1)
        ((preparedMutations setup ok).map (⟨singleType, ·⟩))) = .ok R' ∧
      Replayed setup (applyAll ops setup.idOf s (tasks.map (preparedTask setup))).2
        (ok.countP fun task => isAdd task.mutation) R R' ∧
      R'.lastSequence = R.lastSequence + ok.length := by
  induction tasks generalizing s R ok with
  | nil =>
    subst hok
    exact ⟨R, rfl, .refl hf hc, rfl⟩
  | cons task tasks ih =>
    simp only [List.map_cons, someThrow, roomForAdds, Bool.or_eq_false_iff,
      Bool.and_eq_true] at hthrow hroom
    simp only [List.map_cons, applyAll] at hok ⊢
    have hwf' : (applyTask ops setup.idOf s (preparedTask setup task)).2.WellFormed :=
      applyTask_wellFormed hwf
    have hkeyed' : Keyed setup.idOf (applyTask ops setup.idOf s (preparedTask setup task)).2 :=
      applyTask_keyed hwf hkeyed
    cases hr : (applyTask ops setup.idOf s (preparedTask setup task)).1 with
    | error e =>
      rw [hr, successful] at hok
      exact ih hwf' hkeyed' (applyTask_follows_error hwf hf hthrow.1 hr) hc hthrow.2 hroom.2
        hok hmax
    | ok change =>
      rw [hr, successful] at hok
      obtain ⟨hself, payload, hpayload⟩ := prepared_of_ok hr
      rw [hself] at hr hok hthrow hroom hwf' hkeyed' ⊢
      subst hok
      simp only [List.length_cons] at hmax
      obtain ⟨R₁, happly, hreplayed, hlast⟩ := apply_single hpayload (by omega)
        fun decoded hdec => applyTask_replayed hwf hkeyed hf hc hr hdec
          (fun hadd => by simpa [hadd, hr, Except.toBool] using hroom.1) (R.lastSequence + 1)
      obtain ⟨R', hframes, hreplayed', hlast'⟩ := ih hwf' hkeyed' hreplayed.follows
        hreplayed.consistent hthrow.2 hroom.2 rfl (by omega)
      refine ⟨R', ?_, ?_, by simp only [List.length_cons]; omega⟩
      · simp only [preparedMutations, List.filterMap_cons, hpayload, Except.toOption,
          List.map_cons, sequenced] at hframes ⊢
        rw [applyFrames_cons rfl happly, ← hlast]
        exact hframes
      · have htrans := hreplayed.trans hreplayed'
        rw [List.countP_cons, Nat.add_comm]
        exact htrans

theorem prepareDurableMutation_ne_nil {mutation : SearchMutation K T} {payload : Bytes}
    (h : prepareDurableMutation setup mutation = .ok payload) : payload ≠ [] := by
  cases mutation with
  | add document =>
    obtain ⟨key, encoded, -, -, rfl, -⟩ := prepareMutation_some h
    simp
  | update document =>
    obtain ⟨key, encoded, -, -, rfl, -⟩ := prepareMutation_some h
    simp
  | remove id =>
    obtain ⟨key, -, rfl, -⟩ := prepareMutation_none h
    simp

omit [DecidableEq K] in
theorem Decodes.key_eq {mutation : SearchMutation K T} {decoded : DecodedMutation K T}
    (h : Decodes setup mutation decoded) : decoded.key = mutationId setup.idOf mutation := by
  cases h <;> rfl

/-- The elements of a bulk are decoded one after the other; no key comes twice. -/
theorem decodeBulk_persists {tasks : List (MutationTask K T)} {distinct : List K}
    (hids : bulkIds setup.idOf distinct (tasks.map (preparedTask setup)) = .ok ())
    (sequence : ℕ) (rest : Bytes) :
    tasks.length ≤ (preparedMutations setup (tasks.map (preparedTask setup))).flatten.length ∧
      (preparedMutations setup (tasks.map (preparedTask setup))).length = tasks.length ∧
      ∃ decoded, List.Forall₂ (fun task d => Persists setup task.mutation d)
          (tasks.map (preparedTask setup)) decoded ∧
        decodeBulk setup sequence tasks.length distinct
          ((preparedMutations setup (tasks.map (preparedTask setup))).flatten ++ rest) =
            .ok (decoded, rest) := by
  induction tasks generalizing distinct with
  | nil => exact ⟨Nat.le_refl _, rfl, [], .nil, rfl⟩
  | cons task tasks ih =>
    rw [List.map_cons, bulkIds] at hids
    split at hids
    · cases hids
    rename_i hfault
    split at hids
    · cases hids
    rename_i hdistinct
    obtain ⟨payload, hpayload⟩ : ∃ payload,
        prepareDurableMutation setup (preparedTask setup task).mutation = .ok payload := by
      rw [preparedTask_mutation]
      cases hp : prepareDurableMutation setup task.mutation with
      | ok payload => exact ⟨payload, rfl⟩
      | error e => simp [preparedTask, hp] at hfault
    obtain ⟨hlen, hcount, decoded, hall, hread⟩ := ih hids
    obtain ⟨first, hfirst, hread'⟩ := decodeMutation_persists hpayload sequence
      ((preparedMutations setup (tasks.map (preparedTask setup))).flatten ++ rest)
    have hpos := List.length_pos_iff.mpr (prepareDurableMutation_ne_nil hpayload)
    rw [List.map_cons]
    generalize preparedTask setup task = task' at *
    generalize tasks.map (preparedTask setup) = tasks' at *
    have hcons : preparedMutations setup (task' :: tasks') =
        payload :: preparedMutations setup tasks' := by
      simp [preparedMutations, hpayload, Except.toOption]
    rw [hcons]
    refine ⟨by rw [List.flatten_cons, List.length_append, List.length_cons]; omega,
      by simp [hcount], first :: decoded, .cons hfirst hall, ?_⟩
    rw [List.flatten_cons, List.append_assoc, List.length_cons, decodeBulk,
      Reader.bind_ok hread', Reader.bind_throwIf (by rwa [hfirst.decodes.key_eq])]
    rw [← hfirst.decodes.key_eq] at hread
    rw [Reader.bind_ok hread]
    rfl

theorem decodeBulk_prepared {tasks : List (MutationTask K T)} {distinct : List K}
    (hids : bulkIds setup.idOf distinct (tasks.map (preparedTask setup)) = .ok ())
    (sequence : ℕ) (rest : Bytes) :
    tasks.length ≤ (preparedMutations setup (tasks.map (preparedTask setup))).flatten.length ∧
      (preparedMutations setup (tasks.map (preparedTask setup))).length = tasks.length ∧
      ∃ decoded, List.Forall₂ (fun task d => Decodes setup task.mutation d)
          (tasks.map (preparedTask setup)) decoded ∧
        decodeBulk setup sequence tasks.length distinct
          ((preparedMutations setup (tasks.map (preparedTask setup))).flatten ++ rest) =
            .ok (decoded, rest) := by
  obtain ⟨hlen, hcount, decoded, hall, hread⟩ := decodeBulk_persists hids sequence rest
  exact ⟨hlen, hcount, decoded, hall.imp fun _ _ h => h.decodes, hread⟩

/-- The first task of a bulk that succeeds, and the others behind it. -/
theorem applyBulk_cons {tasks : List (MutationTask K T)} {changes : List (IndexChange T)}
    {s' : BatchState K T ops.Builder}
    (h : applyBulk ops setup.idOf s (task :: tasks) = .ok (changes, s')) :
    ∃ change later, (applyTask ops setup.idOf s task).1 = .ok change ∧
      applyBulk ops setup.idOf (applyTask ops setup.idOf s task).2 tasks = .ok (later, s') := by
  rw [Engine.applyBulk] at h
  split at h
  · cases h
  rename_i change s₁ htask
  rw [htask]
  cases hb : Engine.applyBulk ops setup.idOf s₁ tasks with
  | error e => simp [hb, Except.map] at h
  | ok r =>
    rw [hb] at h
    simp only [Except.map, Except.ok.injEq, Prod.mk.injEq] at h
    obtain ⟨-, rfl⟩ := h
    exact ⟨change, r.1, rfl, rfl⟩

theorem applyBulk_keeps {tasks : List (MutationTask K T)} (hwf : s.WellFormed)
    (hkeyed : Keyed setup.idOf s) {changes : List (IndexChange T)}
    {s' : BatchState K T ops.Builder}
    (h : applyBulk ops setup.idOf s tasks = .ok (changes, s')) :
    s'.WellFormed ∧ Keyed setup.idOf s' := by
  induction tasks generalizing s changes with
  | nil =>
    cases h
    exact ⟨hwf, hkeyed⟩
  | cons task tasks ih =>
    obtain ⟨change, later, -, hlater⟩ := applyBulk_cons h
    exact ih (applyTask_wellFormed hwf) (applyTask_keyed hwf hkeyed) hlater

/-- The elements of a bulk that the engine applied are applied by replay. -/
theorem applyBulk_replayed {tasks : List (MutationTask K T)} (hwf : s.WellFormed)
    (hkeyed : Keyed setup.idOf s) (hf : Follows s R) (hc : R.Consistent setup.idOf)
    {changes : List (IndexChange T)} {s' : BatchState K T ops.Builder}
    (hbulk : applyBulk ops setup.idOf s tasks = .ok (changes, s'))
    (hroom : roomForAdds setup s tasks = true) {decoded : List (DecodedMutation K T)}
    (hdec : List.Forall₂ (fun task d => Decodes setup task.mutation d) tasks decoded)
    (sequence : ℕ) :
    ∃ R', R.applyMutations setup.config sequence decoded = .ok R' ∧
      Replayed setup s' (tasks.countP fun task => isAdd task.mutation) R R' ∧
      R'.lastSequence = R.lastSequence := by
  induction hdec generalizing s R changes with
  | nil =>
    cases hbulk
    exact ⟨R, rfl, .refl hf hc, rfl⟩
  | @cons task first tasks decoded hfirst _ ih =>
    rw [roomForAdds, Bool.and_eq_true] at hroom
    obtain ⟨change, later, hr, hlater⟩ := applyBulk_cons hbulk
    obtain ⟨R₁, happly, hreplayed⟩ := applyTask_replayed hwf hkeyed hf hc hr hfirst
      (fun hadd => by simpa [hadd, hr, Except.toBool] using hroom.1) sequence
    have hlast := applyMutation_lastSequence happly
    obtain ⟨R', hrest, hreplayed', hlast'⟩ := ih (applyTask_wellFormed hwf)
      (applyTask_keyed hwf hkeyed) hreplayed.follows hreplayed.consistent hlater hroom.2
    refine ⟨R', ?_, ?_, hlast'.trans hlast⟩
    · rw [ReplayState.applyMutations, happly]
      exact hrest
    · rw [List.countP_cons, Nat.add_comm]
      exact hreplayed.trans hreplayed'

theorem bulkUnit_ok {config : StorageConfig} {mutations : List Bytes} {unit : PreparedUnit}
    (h : bulkUnit config mutations = .ok unit) :
    mutations.length ≤ config.maxBulkElements ∧ mutations.flatten.length < 2147483648 ∧
      unit = ⟨bulkType, twosComplement 4 mutations.length ++ mutations.flatten⟩ := by
  unfold bulkUnit at h
  split at h
  · cases h
  rename_i hlen
  cases hbound : requireFrameBound (4 + mutations.flatten.length) with
  | error e => simp only [hbound, bind, Except.bind, reduceCtorEq] at h
  | ok _ =>
    have hlt := requireFrameBound_ok hbound
    simp only [hbound, bind, Except.bind, pure, Except.pure, Except.ok.injEq] at h
    exact ⟨by omega, by omega, h.symm⟩

/-- The frame of a bulk is replayed. -/
theorem apply_bulk {tasks : List (MutationTask K T)} (hwf : s.WellFormed)
    (hkeyed : Keyed setup.idOf s) (hf : Follows s R) (hc : R.Consistent setup.idOf)
    (hids : bulkIds setup.idOf [] (tasks.map (preparedTask setup)) = .ok ())
    {changes : List (IndexChange T)} {s' : BatchState K T ops.Builder}
    (hbulk : applyBulk ops setup.idOf s (tasks.map (preparedTask setup)) = .ok (changes, s'))
    {unit : PreparedUnit}
    (hunit : bulkUnit setup.config
      (preparedMutations setup (tasks.map (preparedTask setup))) = .ok unit)
    (hne : tasks ≠ [])
    (hroom : roomForAdds setup s (tasks.map (preparedTask setup)) = true)
    (hmax : R.lastSequence < maxSequence) :
    ∃ R', R.apply setup ⟨R.lastSequence + 1, unit.type, unit.payload⟩ = .ok R' ∧
      Replayed setup s' ((tasks.map (preparedTask setup)).countP fun task => isAdd task.mutation)
        R R' ∧ R'.lastSequence = R.lastSequence + 1 := by
  obtain ⟨hcount, hbytes, rfl⟩ := bulkUnit_ok hunit
  obtain ⟨hlen, heq, decoded, hall, hread⟩ := decodeBulk_prepared hids (R.lastSequence + 1) []
  obtain ⟨R', happly, hreplayed, -⟩ := applyBulk_replayed hwf hkeyed hf hc hbulk hroom hall
    (R.lastSequence + 1)
  have hpos := List.length_pos_iff.mpr hne
  rw [List.append_nil] at hread
  rw [heq] at hcount
  refine ⟨_, ReplayState.apply_unit R' hmax rfl ?_, hreplayed.renumber _ _, rfl⟩
  show ReplayState.applyUnit setup R bulkType _ _ = _
  rw [ReplayState.applyUnit, if_neg (by decide), if_pos rfl, ReplayState.applyBulk, heq,
    Reader.bind_ok (readInt_append _ _ (by omega) (by omega) _),
    Reader.bind_throwIf (by omega), Int.toNat_natCast, Reader.bind_ok hread, happly]
  rfl

end

end GeneralSearch.Durable
