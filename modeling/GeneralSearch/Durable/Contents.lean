import GeneralSearch.Durable.Acceptance
import GeneralSearch.Lib.Exec

/-! What a durable store holds: its keys with their persisted documents, in the order of the document
ids.  A mutation has a meaning on such contents alone; the engine follows that meaning when it
applies the mutation, and replay follows it when it applies the unit of the mutation. -/

namespace GeneralSearch.Durable

open GeneralSearch.Storage GeneralSearch.Engine
open GeneralSearch.Utf8 (JavaString)

variable {K T : Type} [DecidableEq K] {ops : IndexOps T} {setup : Setup K ops}

/-! ### Contents -/

/-- The keys of a store with their persisted documents, in the order of the document ids. -/
abbrev Contents (K : Type) := List (K × Option Bytes)

/-- A document under its key, as the codec writes it. -/
def entryOf (setup : Setup K ops) (document : T) : K × Option Bytes :=
  (setup.idOf document, setup.codec.encodeDocument document)

/-- What a mutation means: an added document comes behind the others, and a replaced one keeps its
place. -/
def after (setup : Setup K ops) (contents : Contents K) : SearchMutation K T → Contents K
  | .add document => contents ++ [entryOf setup document]
  | .update document => contents.map fun entry =>
      if entry.1 = setup.idOf document then entryOf setup document else entry
  | .remove id => contents.filter fun entry => entry.1 ≠ id

/-- What mutations mean one after the other. -/
def afterAll (setup : Setup K ops) (contents : Contents K) (mutations : List (SearchMutation K T)) :
    Contents K :=
  mutations.foldl (after setup) contents

theorem afterAll_append (contents : Contents K) (ms ns : List (SearchMutation K T)) :
    afterAll setup contents (ms ++ ns) = afterAll setup (afterAll setup contents ms) ns :=
  List.foldl_append

/-- The contents of document slots. -/
def contentsOf (setup : Setup K ops) (slots : List (Option T)) : Contents K :=
  slots.filterMap (Option.map (entryOf setup))

/-- The key map names the filled slots, each under the key of its document. -/
def Mapped (idOf : T → K) (slots : List (Option T)) (documentIds : K → Option ℕ) : Prop :=
  ∀ k d, documentIds k = some d ↔ ∃ t, slots[d]? = some (some t) ∧ idOf t = k

/-- Document slots with their key map that show some contents. -/
structure Shows (setup : Setup K ops) (slots : List (Option T)) (documentIds : K → Option ℕ)
    (contents : Contents K) : Prop where
  mapped : Mapped setup.idOf slots documentIds
  contents : contentsOf setup slots = contents

section

variable {slots : List (Option T)} {documentIds : K → Option ℕ} {contents : Contents K}

omit [DecidableEq K] in
theorem Mapped.lt {idOf : T → K} (h : Mapped idOf slots documentIds) {k : K} {d : ℕ}
    (hd : documentIds k = some d) : d < slots.length := by
  obtain ⟨t, ht, -⟩ := (h k d).mp hd
  exact (List.getElem?_eq_some_iff.mp ht).1

/-- Only one slot has the key: to write it is to write every slot with that key. -/
theorem Mapped.set_eq {idOf : T → K} (h : Mapped idOf slots documentIds) {k : K} {d : ℕ}
    (hd : documentIds k = some d) (slot : Option T) :
    slots.set d slot = slots.map fun old => if old.map idOf = some k then slot else old := by
  obtain ⟨t, ht, hid⟩ := (h k d).mp hd
  refine List.ext_getElem? fun i => ?_
  rw [List.getElem?_map]
  by_cases hi : d = i
  · subst hi
    rw [List.getElem?_set_self (h.lt hd), ht]
    simp [hid]
  · rw [List.getElem?_set_ne hi]
    cases hat : slots[i]? with
    | none => rfl
    | some old =>
      cases old with
      | none => simp
      | some t' =>
        have hother : idOf t' ≠ k := by
          intro hk
          have hi' := (h k i).mpr ⟨t', hat, hk⟩
          rw [hd] at hi'
          exact hi (Option.some.inj hi')
        simp [hother]

omit [DecidableEq K] in
theorem getElem?_concat_eq_some {α : Type} {xs : List α} {x y : α} {d : ℕ} :
    (xs ++ [x])[d]? = some y ↔ xs[d]? = some y ∨ d = xs.length ∧ x = y := by
  rcases Nat.lt_trichotomy d xs.length with hd | rfl | hd
  · rw [List.getElem?_append_left hd]
    simp only [Nat.ne_of_lt hd, false_and, or_false]
  · rw [List.getElem?_concat_length, List.getElem?_eq_none (Nat.le_refl _)]
    simp
  · rw [List.getElem?_eq_none (by simp; omega), List.getElem?_eq_none (by omega)]
    simp only [reduceCtorEq, Nat.ne_of_gt hd, false_and, or_false]

theorem Shows.add (h : Shows setup slots documentIds contents) {document : T}
    (hnone : documentIds (setup.idOf document) = none) :
    Shows setup (slots ++ [some document])
      (Function.update documentIds (setup.idOf document) (some slots.length))
      (after setup contents (.add document)) where
  mapped := by
    intro k d
    simp only [getElem?_concat_eq_some, Option.some.injEq]
    by_cases hk : k = setup.idOf document
    · subst hk
      rw [Function.update_self, Option.some.injEq]
      constructor
      · rintro rfl
        exact ⟨document, .inr ⟨rfl, rfl⟩, rfl⟩
      · rintro ⟨t, ht | ⟨rfl, -⟩, hid⟩
        · have hsome := (h.mapped _ d).mpr ⟨t, ht, hid⟩
          rw [hnone] at hsome
          cases hsome
        · rfl
    · rw [Function.update_of_ne hk, h.mapped]
      refine exists_congr fun t => and_congr_left fun hid => ?_
      rw [or_iff_left]
      rintro ⟨-, rfl⟩
      exact hk hid.symm
  contents := by
    rw [contentsOf, List.filterMap_append]
    simp only [after, ← h.contents]
    rfl

theorem Shows.update (h : Shows setup slots documentIds contents) {document : T} {d : ℕ}
    (hd : documentIds (setup.idOf document) = some d) :
    Shows setup (slots.set d (some document)) documentIds
      (after setup contents (.update document)) where
  mapped := by
    intro k e
    rw [h.mapped]
    by_cases he : d = e
    · subst he
      rw [List.getElem?_set_self (h.mapped.lt hd)]
      obtain ⟨old, hold, hid⟩ := (h.mapped _ d).mp hd
      constructor
      · rintro ⟨t, ht, rfl⟩
        rw [hold] at ht
        cases ht
        exact ⟨document, rfl, hid.symm⟩
      · rintro ⟨t, ht, rfl⟩
        cases ht
        exact ⟨old, hold, hid⟩
    · rw [List.getElem?_set_ne he]
  contents := by
    rw [h.mapped.set_eq hd, contentsOf, List.filterMap_map, after, ← h.contents, contentsOf,
      List.map_filterMap]
    refine List.filterMap_congr fun slot _ => ?_
    cases slot with
    | none => simp
    | some t =>
      simp only [Function.comp_apply, Option.map_some, Option.some.injEq, entryOf]
      split <;> rfl

theorem Shows.remove (h : Shows setup slots documentIds contents) {k : K} {d : ℕ}
    (hd : documentIds k = some d) :
    Shows setup (slots.set d none) (Function.update documentIds k none)
      (after (T := T) setup contents (.remove k)) where
  mapped := by
    intro k' e
    by_cases he : d = e
    · subst he
      rw [List.getElem?_set_self (h.mapped.lt hd)]
      obtain ⟨old, hold, hid⟩ := (h.mapped _ d).mp hd
      simp only [Option.some.injEq, reduceCtorEq, false_and, exists_false, iff_false]
      by_cases hk : k' = k
      · subst hk
        simp
      · rw [Function.update_of_ne hk, h.mapped]
        rintro ⟨t, ht, rfl⟩
        rw [hold] at ht
        cases ht
        exact hk hid
    · rw [List.getElem?_set_ne he]
      by_cases hk : k' = k
      · subst hk
        rw [Function.update_self]
        simp only [reduceCtorEq, false_iff]
        intro hother
        have := (h.mapped k' e).mpr hother
        rw [hd] at this
        exact he (Option.some.inj this)
      · rw [Function.update_of_ne hk, h.mapped]
  contents := by
    rw [h.mapped.set_eq hd, contentsOf, List.filterMap_map, after, ← h.contents, contentsOf,
      List.filter_filterMap]
    refine List.filterMap_congr fun slot _ => ?_
    cases slot with
    | none => simp
    | some t =>
      by_cases hid : setup.idOf t = k
      · simp [hid, entryOf, Option.filter]
      · simp [hid, entryOf, Option.filter]

/-- To remove a key that is not there changes nothing. -/
theorem Shows.absent (h : Shows setup slots documentIds contents) {k : K}
    (hnone : documentIds k = none) : after (T := T) setup contents (.remove k) = contents := by
  refine List.filter_eq_self.mpr fun entry hentry => ?_
  rw [← h.contents] at hentry
  obtain ⟨slot, hslot, heq⟩ := List.mem_filterMap.mp hentry
  cases slot with
  | none => cases heq
  | some t =>
    obtain rfl : entryOf setup t = entry := Option.some.inj heq
    simp only [ne_eq, decide_eq_true_eq]
    intro hid
    obtain ⟨d, hd⟩ := List.getElem?_of_mem hslot
    have hsome := (h.mapped k d).mpr ⟨t, hd, hid⟩
    rw [hnone] at hsome
    cases hsome

end

/-! ### The engine -/

/-- The document slots that readers see, in the order of their ids. -/
def slotsOf (get : ℕ → Option T) (nextDocId : ℕ) : List (Option T) :=
  (List.range nextDocId).map get

omit [DecidableEq K] in
@[simp] theorem length_slotsOf (get : ℕ → Option T) (n : ℕ) : (slotsOf get n).length = n := by
  simp [slotsOf]

theorem slotsOf_update (get : ℕ → Option T) (n d : ℕ) (slot : Option T) :
    slotsOf (Function.update get d slot) n = (slotsOf get n).set d slot := by
  refine List.ext_getElem? fun i => ?_
  rw [slotsOf, slotsOf, List.getElem?_set, List.getElem?_map, List.getElem?_map, List.length_map,
    List.length_range]
  by_cases hi : i < n
  · rw [List.getElem?_range hi]
    by_cases hd : d = i
    · subst hd
      simp [hi]
    · simp [hd, Ne.symm hd]
  · rw [List.getElem?_eq_none (by simp; omega)]
    split
    · simp
      omega
    · rfl

theorem slotsOf_add {get : ℕ → Option T} {n : ℕ} (document : T) :
    slotsOf (Function.update get n (some document)) (n + 1) = slotsOf get n ++ [some document] := by
  rw [slotsOf, List.range_succ, List.map_append, List.map_singleton, Function.update_self, slotsOf]
  congr 1
  refine List.map_congr_left fun d hd => Function.update_of_ne ?_ _ _
  have := List.mem_range.mp hd
  omega

section

variable {s : BatchState K T ops.Builder} {contents : Contents K}

/-- The batch state shows the contents. -/
abbrev BatchShows (setup : Setup K ops) (s : BatchState K T ops.Builder)
    (contents : Contents K) : Prop :=
  Durable.Shows setup (slotsOf s.snapshots.get s.nextDocId) s.documentIds contents

/-- A mutation that succeeds does what it means. -/
theorem applyTask_shows (hwf : s.WellFormed) (h : BatchShows setup s contents)
    {task : MutationTask K T} {change : Option (IndexChange T)}
    (hok : (applyTask ops setup.idOf s task).1 = .ok change) :
    BatchShows setup (applyTask ops setup.idOf s task).2
      (after setup contents task.mutation) := by
  have hstep := applyTask_cases setup.idOf task hwf
  rw [hok] at hstep
  generalize (applyTask ops setup.idOf s task).2 = s' at hstep
  generalize hr : (Except.ok change : Except (MutationFailure K) _) = r at hstep
  cases hstep with
  | refused => cases hr
  | absent id hm hid =>
    rw [hm, h.absent hid]
    exact h
  | added document hm hnone =>
    rw [hm]
    have hadd := h.add hnone
    rw [length_slotsOf, ← slotsOf_add] at hadd
    have hget : (s.added document .none).snapshots.get =
        Function.update s.snapshots.get s.nextDocId (some document) := by
      funext d
      by_cases hd : d = s.nextDocId
      · subst hd
        simp [BatchState.added, SearchSnapshotBuilder.get]
      · simp [BatchState.added, SearchSnapshotBuilder.get, hd]
    rw [← hget] at hadd
    exact hadd
  | updated document oldDocument docId hm hid hdoc hactive =>
    rw [hm]
    have hupdate := h.update hid
    rw [← slotsOf_update] at hupdate
    have hget : (s.updated docId oldDocument document .none).snapshots.get =
        Function.update s.snapshots.get docId (some document) := by
      funext d
      by_cases hd : d = docId
      · subst hd
        simp [BatchState.updated, SearchSnapshotBuilder.get, hactive]
      · simp [BatchState.updated, SearchSnapshotBuilder.get, hd]
    rw [← hget] at hupdate
    exact hupdate
  | removed id document docId hm hid hdoc hactive =>
    rw [hm]
    have hremove := h.remove hid
    rw [← slotsOf_update] at hremove
    have hget : Function.update s.snapshots.get docId none = fun d =>
        if d ∈ s.snapshots.activeDocuments.erase docId then
          Function.update s.snapshots.documents docId none d else none := by
      funext d
      by_cases hd : d = docId
      · subst hd
        simp
      · simp [SearchSnapshotBuilder.get, hd]
    rw [hget] at hremove
    exact hremove
  | addThrew => cases hr
  | updateThrew => cases hr
  | removeThrew => cases hr

/-- A batch in which no index builder throws does what its successful mutations mean. -/
theorem applyAll_shows (hwf : s.WellFormed) (h : BatchShows setup s contents)
    {tasks : List (MutationTask K T)}
    (hthrow : someThrow ops setup.idOf (fun _ => true) s tasks = false) :
    BatchShows setup (applyAll ops setup.idOf s tasks).2 (afterAll setup contents
      ((successful tasks (applyAll ops setup.idOf s tasks).1).map (·.mutation))) := by
  induction tasks generalizing s contents with
  | nil => exact h
  | cons task tasks ih =>
    simp only [someThrow, Bool.true_and, Bool.or_eq_false_iff] at hthrow
    simp only [applyAll]
    have hwf' : (applyTask ops setup.idOf s task).2.WellFormed := applyTask_wellFormed hwf
    cases hr : (applyTask ops setup.idOf s task).1 with
    | error e =>
      have hsame := applyTask_error hwf hthrow.1 hr
      rw [hsame] at hthrow ⊢
      exact ih hwf h hthrow.2
    | ok change => exact ih hwf' (applyTask_shows hwf h hr) hthrow.2

theorem applyBulk_shows (hwf : s.WellFormed) (h : BatchShows setup s contents)
    {tasks : List (MutationTask K T)} {changes : List (IndexChange T)}
    {s' : BatchState K T ops.Builder}
    (hbulk : applyBulk ops setup.idOf s tasks = .ok (changes, s')) :
    BatchShows setup s' (afterAll setup contents (tasks.map (·.mutation))) := by
  induction tasks generalizing s contents changes with
  | nil =>
    cases hbulk
    exact h
  | cons task tasks ih =>
    obtain ⟨change, later, hr, hlater⟩ := applyBulk_cons hbulk
    exact ih (applyTask_wellFormed hwf) (applyTask_shows hwf h hr) hlater

end

/-! ### Replay -/

/-- A recovered state that shows the contents, with no index twice. -/
structure Recalls (setup : Setup K ops) (contents : Contents K) (R : ReplayState K T) : Prop where
  shows : Shows setup R.slots R.documentIds contents
  size : R.slots.length = R.nextDocId
  unique : R.indexes.Nodup

section

variable {R R' : ReplayState K T} {contents : Contents K}

omit [DecidableEq K] in
/-- The sequence number and the number of records play no part. -/
theorem Recalls.renumber (h : Recalls setup contents R) (sequence records : ℕ) :
    Recalls setup contents { R with lastSequence := sequence, replayedRecords := records } :=
  ⟨h.shows, h.size, h.unique⟩

/-- A decoded mutation that replay applies does what the mutation means. -/
theorem applyMutation_recalls (h : Recalls setup contents R) {mutation : SearchMutation K T}
    {decoded : DecodedMutation K T} (hp : Persists setup mutation decoded) {sequence : ℕ}
    (happly : R.applyMutation setup.config decoded sequence = .ok R') :
    Recalls setup (after setup contents mutation) R' := by
  cases hp with
  | add document document' hid hencode =>
    have hentry : entryOf setup document' = entryOf setup document := by
      rw [entryOf, entryOf, hid, hencode]
    simp only [ReplayState.applyMutation] at happly
    split at happly
    · cases happly
    rename_i hnone
    split at happly
    · cases happly
    split at happly
    · cases happly
    cases happly
    have hnone' : R.documentIds (setup.idOf document') = none := by
      rw [hid]
      simpa using hnone
    have hadd := h.shows.add hnone'
    rw [hid, h.size] at hadd
    refine ⟨⟨hadd.mapped, ?_⟩, by simp [h.size], h.unique⟩
    rw [hadd.contents, after, after, hentry]
  | update document document' hid hencode =>
    have hentry : entryOf setup document' = entryOf setup document := by
      rw [entryOf, entryOf, hid, hencode]
    simp only [ReplayState.applyMutation] at happly
    split at happly
    · cases happly
    rename_i d hd
    split at happly
    · cases happly
      rw [← hid] at hd
      have hupdate := h.shows.update hd
      refine ⟨⟨hupdate.mapped, ?_⟩, by simp [h.size], h.unique⟩
      rw [hupdate.contents, after, after, hentry, hid]
    · cases happly
  | remove id =>
    simp only [ReplayState.applyMutation] at happly
    split at happly
    · rename_i hnone
      cases happly
      rw [h.shows.absent hnone]
      exact h
    · rename_i d hd
      split at happly
      · cases happly
        exact ⟨h.shows.remove hd, by simp [h.size], h.unique⟩
      · cases happly

theorem applyMutations_recalls (h : Recalls setup contents R) {tasks : List (MutationTask K T)}
    {decoded : List (DecodedMutation K T)}
    (hp : List.Forall₂ (fun task d => Persists setup task.mutation d) tasks decoded)
    {sequence : ℕ} (happly : R.applyMutations setup.config sequence decoded = .ok R') :
    Recalls setup (afterAll setup contents (tasks.map (·.mutation))) R' := by
  induction hp generalizing R contents with
  | nil =>
    cases happly
    exact h
  | cons hfirst _ ih =>
    rw [ReplayState.applyMutations] at happly
    obtain ⟨R₁, hR₁, hrest⟩ := Lib.bind_eq_ok.mp happly
    exact ih (applyMutation_recalls h hfirst hR₁) hrest

/-! ### Units -/

/-- What a unit of the log means. -/
inductive Means (setup : Setup K ops) : PreparedUnit → List (SearchMutation K T) → Prop
  | single {mutation : SearchMutation K T} {payload : Bytes} :
      prepareDurableMutation setup mutation = .ok payload →
      Means setup ⟨singleType, payload⟩ [mutation]
  | bulk {tasks : List (MutationTask K T)} {unit : PreparedUnit} :
      bulkIds setup.idOf [] (tasks.map (preparedTask setup)) = .ok () →
      bulkUnit setup.config (preparedMutations setup (tasks.map (preparedTask setup))) =
        .ok unit → Means setup unit (tasks.map (·.mutation))
  | index {unit : PreparedUnit} : unit.type = indexCreateType ∨ unit.type = indexDropType →
      Means setup unit []

theorem apply_eq_ok {frame : Frame} (h : R.apply setup frame = .ok R') :
    ∃ R₁ rest, R.applyUnit setup frame.type frame.sequence frame.payload = .ok (R₁, rest) ∧
      R' = { R₁ with
        lastSequence := frame.sequence
        replayedRecords := R₁.replayedRecords + 1 } := by
  unfold ReplayState.apply at h
  split at h
  · cases h
  obtain ⟨⟨R₁, rest⟩, hunit, h⟩ := Lib.bind_eq_ok.mp h
  obtain ⟨-, -, h⟩ := Lib.bind_eq_ok.mp h
  exact ⟨R₁, rest, hunit, (Except.ok.inj h).symm⟩

theorem Reader.bind_eq_ok {α β : Type} {x : Reader α} {f : α → Reader β} {bytes : Bytes}
    {r : β × Bytes} : (x >>= f) bytes = .ok r ↔
      ∃ a rest, x bytes = .ok (a, rest) ∧ f a rest = .ok r := by
  show Except.bind (x bytes) (fun ar => f ar.1 ar.2) = _ ↔ _
  cases x bytes with
  | error e => simp [Except.bind]
  | ok ar =>
    obtain ⟨a, rest⟩ := ar
    simp [Except.bind]

theorem Reader.lift_eq_ok {α : Type} {x : Except DurabilityException α} {bytes : Bytes}
    {r : α × Bytes} : (liftM x : Reader α) bytes = .ok r ↔ x = .ok r.1 ∧ r.2 = bytes := by
  obtain ⟨a, rest⟩ := r
  show Except.bind x (fun a => Except.ok (a, bytes)) = _ ↔ _
  cases x with
  | error e => simp [Except.bind]
  | ok a' => simp [Except.bind, eq_comm]

theorem Reader.throwIf_eq_ok {condition : Prop} [Decidable condition]
    {failure : DurabilityException} {bytes : Bytes} {r : Unit × Bytes} :
    throwIf condition failure bytes = .ok r ↔ ¬ condition ∧ r.2 = bytes := by
  unfold throwIf
  split
  · simp [*]
  · simp [*, Prod.ext_iff, eq_comm]

/-- An index unit leaves the documents as they are. -/
theorem applyUnit_index {type : UInt8} (htype : type = indexCreateType ∨ type = indexDropType)
    (h : Recalls setup contents R) {n : ℕ} {payload rest : Bytes}
    (hunit : R.applyUnit setup type n payload = .ok (R', rest)) : Recalls setup contents R' := by
  rcases htype with rfl | rfl
  · have hsingle : indexCreateType ≠ singleType := by decide
    have hbulk : indexCreateType ≠ bulkType := by decide
    rw [ReplayState.applyUnit, if_neg hsingle, if_neg hbulk, if_pos rfl] at hunit
    obtain ⟨descriptor, _, -, hunit⟩ := Reader.bind_eq_ok.mp hunit
    have hcreate := (Reader.lift_eq_ok.mp hunit).1
    unfold ReplayState.applyCreateIndex at hcreate
    split at hcreate
    · cases hcreate
    split at hcreate
    · cases hcreate
    rename_i hnew
    cases hcreate
    exact ⟨h.shows, h.size, h.unique.append (List.nodup_singleton _) (by simpa using hnew)⟩
  · have hsingle : indexDropType ≠ singleType := by decide
    have hbulk : indexDropType ≠ bulkType := by decide
    have hcreate : indexDropType ≠ indexCreateType := by decide
    rw [ReplayState.applyUnit, if_neg hsingle, if_neg hbulk, if_neg hcreate, if_pos rfl] at hunit
    obtain ⟨fieldName, _, -, hunit⟩ := Reader.bind_eq_ok.mp hunit
    have hdrop := (Reader.lift_eq_ok.mp hunit).1
    unfold ReplayState.applyDropIndex at hdrop
    split at hdrop
    · cases hdrop
    cases hdrop
    exact ⟨h.shows, h.size, h.unique.filter _⟩

/-- A unit that replay applies does what it means. -/
theorem apply_recalls (h : Recalls setup contents R) {unit : PreparedUnit}
    {mutations : List (SearchMutation K T)} (hm : Means setup unit mutations) {n : ℕ}
    (happly : R.apply setup ⟨n, unit.type, unit.payload⟩ = .ok R') :
    Recalls setup (afterAll setup contents mutations) R' := by
  obtain ⟨R₁, rest, hunit, rfl⟩ := apply_eq_ok happly
  refine Recalls.renumber ?_ _ _
  simp only at hunit
  cases hm with
  | @single mutation payload hpayload =>
    obtain ⟨decoded, hpersists, hread⟩ := decodeMutation_persists hpayload n []
    rw [List.append_nil] at hread
    rw [ReplayState.applyUnit, if_pos rfl, Reader.bind_ok hread] at hunit
    exact applyMutation_recalls h hpersists (Reader.lift_eq_ok.mp hunit).1
  | @bulk tasks _ hids hbulk =>
    obtain ⟨hcount, hbytes, rfl⟩ := bulkUnit_ok hbulk
    obtain ⟨hlen, heq, decoded, hall, hread⟩ := decodeBulk_persists hids n []
    rw [List.append_nil] at hread
    rw [heq] at hcount
    have hsingle : bulkType ≠ singleType := by decide
    rw [ReplayState.applyUnit, if_neg hsingle, if_pos rfl, ReplayState.applyBulk, heq,
      Reader.bind_ok (readInt_append _ _ (by omega) (by omega) _)] at hunit
    obtain ⟨_, bytes, hthrow, hunit⟩ := Reader.bind_eq_ok.mp hunit
    obtain ⟨-, rfl⟩ := Reader.throwIf_eq_ok.mp hthrow
    rw [Int.toNat_natCast, Reader.bind_ok hread] at hunit
    have hmutations := applyMutations_recalls h hall (Reader.lift_eq_ok.mp hunit).1
    rw [List.map_map] at hmutations
    have hsame : ((·.mutation) ∘ preparedTask setup : MutationTask K T → _) = (·.mutation) := by
      funext task
      exact preparedTask_mutation setup task
    rwa [hsame] at hmutations
  | index htype =>
    exact applyUnit_index htype h hunit

/-- The units of a group that replay applies do what they mean. -/
theorem applyFrames_recalls (h : Recalls setup contents R) {units : List PreparedUnit}
    {meanings : List (List (SearchMutation K T))}
    (hm : List.Forall₂ (Means setup) units meanings) {n : ℕ} (hn : R.lastSequence = n)
    (happly : R.applyFrames setup (sequenced (n + 1) units) = .ok R') :
    Recalls setup (afterAll setup contents meanings.flatten) R' := by
  induction hm generalizing R contents n with
  | nil =>
    cases happly
    exact h
  | @cons unit mutations _ _ hfirst _ ih =>
    rw [sequenced, ReplayState.applyFrames, if_neg (by simp only; omega)] at happly
    obtain ⟨R₁, hR₁, hrest⟩ := Lib.bind_eq_ok.mp happly
    obtain ⟨_, _, -, heq⟩ := apply_eq_ok hR₁
    rw [List.flatten_cons, afterAll_append]
    exact ih (apply_recalls h hfirst hR₁) (by rw [heq]) hrest

end

end GeneralSearch.Durable
