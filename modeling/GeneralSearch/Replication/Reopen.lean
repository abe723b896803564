import GeneralSearch.Replication.Ledger
import GeneralSearch.Replication.Symbolic

/-! Closing or crashing between two operations and opening again: what `open` rebuilds from the
ledgers is what the operations had in memory. -/

namespace GeneralSearch.Replication

open Lib

variable {D : Type} [DecidableEq D] {m : Manifest D} {sha : Sha m}

namespace Store

open Memory

/-- The store is what `open` makes of its directory. -/
structure Rebuilt (sha : Sha m) (s : Store m) : Prop where
  usable : s.failed = false
  base : s.disk.snapshot.getD (genesisSnapshot m) = s.base
  selection : s.disk.selection sha = .ok s.selected
  loads : ∃ replacements, Loads sha s.disk s.toMemory replacements
  recovery : s.checkRecovery sha = .ok ()

theorem Rebuilt.openStore {s : Store m} (h : Rebuilt sha s) (around : Surroundings) :
    openStore sha s.node s.disk around = .ok { s with around } := by
  have hload : load sha s.disk s.base s.selected = .ok s.toMemory :=
    load_eq_ok.mpr ⟨rfl, rfl, h.loads⟩
  simp only [Store.openStore, bind_eq_ok]
  refine ⟨s.selected, h.selection, s.toMemory, ?_, (), h.recovery, ?_⟩
  · rw [h.base]
    exact hload
  · rw [← h.usable]
    rfl

variable {limits : Limits m} {s s' : Store m}

theorem Rebuilt.epoch_le (h : Rebuilt sha s) {row : Accept D} (hrow : row ∈ s.disk.accepted) :
    row.ballot.epoch ≤ s.promise.epoch := by
  obtain ⟨_, hloads⟩ := h.loads
  exact hloads.epoch_le (hloads.accepted_granted hrow).1

theorem Rebuilt.selected_epoch_le (h : Rebuilt sha s) {selected : Selection m}
    (hsel : selected ∈ s.selected) : selected.record.ballot.epoch ≤ s.promise.epoch :=
  ((checkRecovery_eq_ok.mp h.recovery).2.2 selected hsel).1

theorem selection_some {disk : Disk m} {selected : Selection m}
    (h : disk.selection sha = .ok (some selected)) :
    ∃ evidence, select sha selected.record.ballot evidence = .ok selected := by
  unfold Disk.selection at h
  split at h
  · cases h
  · rename_i record evidence _
    simp only [bind_eq_ok, need_eq_ok] at h
    obtain ⟨_, -, computed, hcomputed, _, rfl, hret⟩ := h
    cases hret
    exact ⟨evidence, hcomputed⟩

/-- The retained selection is a selection of its bases. -/
theorem Rebuilt.selects (h : Rebuilt sha s) {selected : Selection m} (hsel : selected ∈ s.selected) :
    ∃ a b, ¬m.order b.node < m.order a.node ∧ Selects sha selected.record.ballot a b selected := by
  have hdisk := h.selection
  rw [Option.mem_def.mp hsel] at hdisk
  obtain ⟨evidence, hev⟩ := selection_some hdisk
  obtain ⟨a, b, -, hab, hd⟩ := select_eq_ok hev
  exact ⟨a, b, hab, hd⟩

theorem Rebuilt.prefixIndex (h : Rebuilt sha s) {selected : Selection m}
    (hsel : selected ∈ s.selected) : selected.record.prefixIndex = selected.snapshot.index := by
  obtain ⟨a, b, -, hd⟩ := h.selects hsel
  rw [hd.decides]
  rfl

/-! ### The operations of a run -/

/-- An operation, or a change of the surroundings between two of them. -/
inductive Op (m : Manifest D) where
  | surroundings (around : Surroundings)
  | promise (row : Ballot)
  | prepare (grant : Ballot) (requester : Node) (application : Bytes) (basisId : ℕ)
  | select (bases : List (Basis m))
  | installSelected
  | installProven (snapshot : Snapshot m)
  | checkpoint (application : Bytes)
  | accept (row : Accept D)
  | prove (row : Proof m)

def Op.run (sha : Sha m) (limits : Limits m) : Op m → Exec m Unit
  | .surroundings around => modify fun s => { s with around }
  | .promise row => promiseRow limits row
  | .prepare grant requester application basisId => do
    let _ ← Store.prepare sha limits grant requester application basisId
  | .select bases => do
    let _ ← selectBases sha bases
  | .installSelected => Store.installSelected sha
  | .installProven snapshot => Store.installProven sha snapshot
  | .checkpoint application => Store.checkpoint sha application
  | .accept row => do
    let _ ← acceptRow sha limits row
  | .prove row => do
    let _ ← proveRow sha limits row

/-- The stores that successful operations reach from a sealed voter, when each of them is called as
`guarantee` says. -/
inductive Run (sha : Sha m) (limits : Limits m) (guarantee : Store m → Op m → Prop) :
    Store m → Prop
  | opened {node : Node} {around : Surroundings} {s : Store m}
    (h : openStore sha node (Disk.genesis m) around = .ok s) : Run sha limits guarantee s
  | operated {s s' : Store m} (op : Op m) (run : Run sha limits guarantee s) (h : guarantee s op)
    (hop : op.run sha limits s = .ok () s') : Run sha limits guarantee s'

/-- A voter accepts at a ballot only after it has selected at that ballot. -/
def SelectsFirst (s : Store m) : Op m → Prop
  | .accept row => ∃ selected ∈ s.selected, selected.record.ballot = row.ballot
  | _ => True

/-- What `AutomaticProtocol` sees to beyond that: a voter selects among bases that include the one
it froze itself at this ballot, and installs the selected prefix before it accepts, so that what it
accepts is above it. -/
def Guided (s : Store m) : Op m → Prop
  | .select bases => ∃ requester, ∃ basis ∈ s.disk.basis requester,
      basis.ballot = s.promise ∧ basis ∈ bases
  | .accept row => ∃ selected ∈ s.selected, selected.record.ballot = row.ballot ∧
      selected.record.prefixIndex < row.entry.index
  | _ => True

/-- The second of these alone. -/
def AcceptsAbove (s : Store m) : Op m → Prop
  | .accept row => ∃ selected ∈ s.selected, selected.record.ballot = row.ballot ∧
      selected.record.prefixIndex < row.entry.index
  | _ => True

/-- The first of these, where what is accepted may be anywhere. -/
def SelectsOwn (s : Store m) : Op m → Prop
  | .select bases => ∃ requester, ∃ basis ∈ s.disk.basis requester,
      basis.ballot = s.promise ∧ basis ∈ bases
  | .accept row => ∃ selected ∈ s.selected, selected.record.ballot = row.ballot
  | _ => True

instance (s : Store m) : (op : Op m) → Decidable (SelectsFirst s op)
  | .accept row => inferInstanceAs (Decidable (∃ selected ∈ s.selected,
      selected.record.ballot = row.ballot))
  | .surroundings _ | .promise _ | .prepare _ _ _ _ | .select _ | .installSelected
  | .installProven _ | .checkpoint _ | .prove _ => inferInstanceAs (Decidable True)

instance (s : Store m) : (op : Op m) → Decidable (Guided s op)
  | .select bases => inferInstanceAs (Decidable (∃ requester, ∃ basis ∈ s.disk.basis requester,
      basis.ballot = s.promise ∧ basis ∈ bases))
  | .accept row => inferInstanceAs (Decidable (∃ selected ∈ s.selected,
      selected.record.ballot = row.ballot ∧ selected.record.prefixIndex < row.entry.index))
  | .surroundings _ | .promise _ | .prepare _ _ _ _ | .installSelected
  | .installProven _ | .checkpoint _ | .prove _ => inferInstanceAs (Decidable True)

instance (s : Store m) : (op : Op m) → Decidable (AcceptsAbove s op)
  | .accept row => inferInstanceAs (Decidable (∃ selected ∈ s.selected,
      selected.record.ballot = row.ballot ∧ selected.record.prefixIndex < row.entry.index))
  | .surroundings _ | .promise _ | .prepare _ _ _ _ | .select _ | .installSelected
  | .installProven _ | .checkpoint _ | .prove _ => inferInstanceAs (Decidable True)

instance (s : Store m) : (op : Op m) → Decidable (SelectsOwn s op)
  | .select bases => inferInstanceAs (Decidable (∃ requester, ∃ basis ∈ s.disk.basis requester,
      basis.ballot = s.promise ∧ basis ∈ bases))
  | .accept row => inferInstanceAs (Decidable (∃ selected ∈ s.selected,
      selected.record.ballot = row.ballot))
  | .surroundings _ | .promise _ | .prepare _ _ _ _ | .installSelected
  | .installProven _ | .checkpoint _ | .prove _ => inferInstanceAs (Decidable True)

/-- The store after a list of operations, if each of them is called as `guarantee` says and
succeeds. -/
def execute (sha : Sha m) (limits : Limits m) (guarantee : Store m → Op m → Prop)
    [∀ s op, Decidable (guarantee s op)] : List (Op m) → Store m → Option (Store m)
  | [], s => some s
  | op :: rest, s =>
    if guarantee s op then
      match op.run sha limits s with
      | .ok _ s' => execute sha limits guarantee rest s'
      | .error _ _ => none
    else none

theorem Run.execute {guarantee : Store m → Op m → Prop} [∀ s op, Decidable (guarantee s op)]
    (ops : List (Op m)) (run : Run sha limits guarantee s)
    (h : Store.execute sha limits guarantee ops s = some s') : Run sha limits guarantee s' := by
  induction ops generalizing s with
  | nil =>
    cases h
    exact run
  | cons op rest ih =>
    unfold Store.execute at h
    split at h
    · rename_i hg
      split at h
      · rename_i _ s1 hrun
        exact ih (.operated op run hg hrun) h
      · cases h
    · cases h

theorem Run.mono {guarantee weaker : Store m → Op m → Prop}
    (hle : ∀ s op, guarantee s op → weaker s op) (run : Run sha limits guarantee s) :
    Run sha limits weaker s := by
  induction run with
  | opened h => exact .opened h
  | operated op _ h hop ih => exact .operated op ih (hle _ _ h) hop

omit [DecidableEq D] in
theorem AcceptsAbove.first {op : Op m} (h : AcceptsAbove s op) : SelectsFirst s op := by
  cases op with
  | accept row =>
    obtain ⟨selected, hsel, hballot, -⟩ := h
    exact ⟨selected, hsel, hballot⟩
  | _ => trivial

omit [DecidableEq D] in
theorem SelectsOwn.first {op : Op m} (h : SelectsOwn s op) : SelectsFirst s op := by
  cases op with
  | accept row => exact h
  | _ => trivial

/-- What the guarantee leaves behind: acceptances at the current ballot are above the prefix of its
selection, older ones at most next to it, and before that selection the frozen basis holds the
unresolved acceptance. -/
structure Accountable (s : Store m) : Prop where
  current : ∀ r ∈ s.disk.accepted, r.ballot = s.promise →
    ∃ selected ∈ s.selected, selected.record.ballot = s.promise ∧
      selected.record.prefixIndex < r.entry.index
  older : ∀ selected ∈ s.selected, selected.record.ballot = s.promise →
    ∀ r ∈ s.disk.accepted, r.ballot ≠ s.promise → r.entry.index ≤ selected.record.prefixIndex + 1
  frozen : ∀ requester basis, s.disk.basis requester = some basis → basis.ballot = s.promise →
    (∀ selected ∈ s.selected, selected.record.ballot ≠ s.promise) →
    ∀ a ∈ s.unresolved, basis.image.accepted = some a
  basisBelow : ∀ requester basis, s.disk.basis requester = some basis →
    basis.ballot.epoch ≤ s.promise.epoch

theorem Rebuilt.promised (h : Rebuilt sha s) {row : Ballot} (hrow : s.promise.epoch < row.epoch)
    (hcount : s.grants.length < maxPromises) : Rebuilt sha (s.promised row) where
  usable := h.usable
  base := h.base
  selection := h.selection
  loads := by
    obtain ⟨replacements, hloads⟩ := h.loads
    exact ⟨replacements, hloads.promise hrow hcount, hloads.authority⟩
  recovery := by
    obtain ⟨h1, h2, h3⟩ := checkRecovery_eq_ok.mp h.recovery
    refine checkRecovery_eq_ok.mpr ⟨h1, fun p hp => ?_, fun selected hsel => ⟨?_, ?_⟩⟩
    · exact (h2 p hp).trans hrow.le
    · exact (h3 selected hsel).1.trans hrow.le
    · exact (h3 selected hsel).2

theorem Accountable.promised (h : Accountable s) (hs : Rebuilt sha s) {row : Ballot}
    (hrow : s.promise.epoch < row.epoch) : Accountable (s.promised row) where
  current := by
    intro r hr hballot
    have := hs.epoch_le hr
    rw [show r.ballot = row from hballot] at this
    omega
  older := by
    intro selected hsel hballot
    have := hs.selected_epoch_le hsel
    rw [show selected.record.ballot = row from hballot] at this
    omega
  frozen := by
    intro requester basis hbasis hballot
    have := h.basisBelow requester basis hbasis
    rw [show basis.ballot = row from hballot] at this
    omega
  basisBelow := fun requester basis hbasis => (h.basisBelow requester basis hbasis).trans hrow.le

theorem Rebuilt.frozen (h : Rebuilt sha s) (requester : Node) (basis : Basis m) :
    Rebuilt sha (s.frozen requester basis) where
  usable := h.usable
  base := h.base
  selection := h.selection
  loads := by
    obtain ⟨replacements, hloads⟩ := h.loads
    exact ⟨replacements, hloads.congr rfl rfl rfl, hloads.authority⟩
  recovery := h.recovery

omit [DecidableEq D] in
theorem Accountable.withBasis (h : Accountable s) {requester : Node} {basis : Basis m}
    {image : Snapshot m} (hbasis : Describes s image basis) :
    Accountable (s.frozen requester basis) where
  current := h.current
  older := h.older
  frozen := by
    intro r b hb hballot hsel a ha
    rw [frozen_basis, Function.update_apply] at hb
    split at hb
    · cases hb
      exact hbasis.accepted.trans ha
    · exact h.frozen r b hb hballot hsel a ha
  basisBelow := by
    intro r b hb
    rw [frozen_basis, Function.update_apply] at hb
    split at hb
    · cases hb
      exact (congrArg Ballot.epoch hbasis.ballot).le
    · exact h.basisBelow r b hb

/-- A selection at a new ballot, among bases that hold the unresolved acceptance. -/
theorem Rebuilt.selecting (h : Rebuilt sha s) (ha : Accountable s) {bases : List (Basis m)}
    {decision : Selection m} (hdec : select sha s.promise bases = .ok decision)
    (hpre : s.checkPrefix sha decision.snapshot
      (min s.provenThrough decision.snapshot.index) = .ok ())
    (hnew : ∀ o ∈ s.selected, o.record.ballot ≠ decision.record.ballot)
    (hown : Guided s (.select bases)) : Rebuilt sha (s.selecting decision) := by
  obtain ⟨a, b, hinputs, hab, hd⟩ := select_eq_ok hdec
  have hbases : decision.bases = [a, b] := by rw [hd.decides]; rfl
  have hballot : decision.record.ballot = s.promise := by rw [hd.decides]; rfl
  refine ⟨h.usable, h.base, ?_, ?_, ?_⟩
  · show (do
      need (decision.record.bases = decision.bases.map fun b => (b.node, b.basisId, sha.basis b))
        "selected basis evidence unavailable"
      let computed ← select sha decision.record.ballot decision.bases
      need (decision.record = computed.record) "selected decision mismatch"
      return some computed : Except Failure (Option (Selection m))) = .ok (some decision)
    simp only [bind_eq_ok, need_eq_ok]
    refine ⟨(), ?_, decision, hd.select_bases hab, (), rfl, rfl⟩
    rw [hbases, hd.decides]
    rfl
  · obtain ⟨replacements, hloads⟩ := h.loads
    refine ⟨replacements, hloads.selecting (some decision) _, fun r hr => ?_⟩
    rw [replacementAuthority_eq_ok]
    by_cases hproven : r.entry.index ≤ s.provenThrough
    · exact .inl hproven
    · obtain ⟨-, latest, hlatest, hunresolved⟩ := hloads.unresolved_of_replacement hr hproven
      obtain ⟨requester, basis, hbasis, hbasisBallot, hmem⟩ := hown
      have hfrozen : basis.image.accepted = some latest :=
        ha.frozen requester basis hbasis hbasisBallot
          (fun o ho => hballot ▸ hnew o ho) latest hunresolved
      refine .inr ⟨latest, hlatest, .inl ⟨decision, rfl, basis, ?_, hfrozen⟩⟩
      rw [hbases]
      rcases hinputs with rfl | rfl
      · exact hmem
      · simpa [or_comm] using hmem
  · obtain ⟨h1, h2, -⟩ := checkRecovery_eq_ok.mp h.recovery
    refine checkRecovery_eq_ok.mpr ⟨h1, h2, ?_⟩
    rintro selected ⟨⟩
    exact ⟨hballot ▸ le_refl _, hpre⟩

theorem Accountable.selecting (h : Accountable s) (hs : Rebuilt sha s) {decision : Selection m}
    (hballot : decision.record.ballot = s.promise)
    (hindexed : decision.record.prefixIndex = decision.snapshot.index)
    (hnew : ∀ o ∈ s.selected, o.record.ballot ≠ decision.record.ballot)
    (hcut : s.provenThrough ≤ decision.snapshot.index) : Accountable (s.selecting decision) where
  current := by
    intro r hr hrb
    obtain ⟨o, ho, hob, -⟩ := h.current r hr hrb
    exact absurd (hob.trans hballot.symm) (hnew o ho)
  older := by
    rintro selected ⟨⟩ - r hr -
    obtain ⟨replacements, hloads⟩ := hs.loads
    have hindex := (hloads.accepted_granted hr).2.2
    have hslots := hloads.slots
    unfold acceptedThrough at hindex
    unfold provenThrough at hcut
    omega
  frozen := by
    intro requester basis hbasis hb hsel
    exact absurd hballot (hsel decision rfl)
  basisBelow := h.basisBelow

/-- A selection that repeats the retained record is the retained one. -/
theorem Rebuilt.reselecting (h : Rebuilt sha s) {bases : List (Basis m)} {decision : Selection m}
    (hdec : select sha s.promise bases = .ok decision)
    (hold : ∃ o ∈ s.selected, o.record = decision.record) : s.selected = some decision := by
  obtain ⟨o, ho, hrecord⟩ := hold
  obtain ⟨a, b, -, -, hd⟩ := select_eq_ok hdec
  obtain ⟨a', b', -, hd'⟩ := h.selects ho
  rw [hd.unique hd' hrecord.symm]
  exact ho

/-- A generation that opens is what the voter goes on with. -/
theorem Rebuilt.installs (h : Rebuilt sha s) {image : Snapshot m} (hi : Installs sha s image s') :
    Rebuilt sha s' := by
  obtain ⟨loaded, hload, hrecovery, rfl⟩ := hi.loads
  obtain ⟨hbase, hselected, hloads⟩ := load_eq_ok.mp hload
  refine ⟨h.usable, hbase.symm, ?_, hloads, hrecovery⟩
  rw [show ({ s.installed image with toMemory := loaded } : Store m).selected = s.selected from
    hselected]
  exact h.selection

theorem Accountable.installs (h : Accountable s) (hs : Rebuilt sha s) {image : Snapshot m}
    (hi : Installs sha s image s') : Accountable s' := by
  obtain ⟨loaded, hload, hrecovery, rfl⟩ := hi.loads
  obtain ⟨hbase, hselected, replacements, hloads⟩ := load_eq_ok.mp hload
  obtain ⟨replacements', hloads'⟩ := hs.loads
  have hpromise : loaded.promise = s.promise := by
    have hgrants : loaded.grants = s.grants := hloads.grants_eq.1.trans hloads'.grants_eq.1.symm
    have := hloads.last
    rw [hgrants, hloads'.last] at this
    exact (Option.some.inj this).symm
  -- what the new journal holds is the latest acceptance of the old one
  have hkept : ∀ r ∈ (s.installed image).disk.accepted,
      s.acceptance s.acceptedThrough = some r ∧ image.index < s.acceptedThrough := by
    intro r hr
    have hr' : s.kept image = some r := Option.mem_toList.mp hr
    unfold kept at hr'
    split at hr'
    · exact ⟨hr', ‹_›⟩
    · cases hr'
  have hold : ∀ r ∈ (s.installed image).disk.accepted, r ∈ s.disk.accepted :=
    fun r hr => (hloads'.acceptance_mem (hkept r hr).1).1
  refine ⟨fun r hr hballot => ?_, fun selected hsel hballot r hr hne => ?_,
    fun requester basis hbasis hballot hsel a ha => ?_, fun requester basis hbasis => ?_⟩
  · obtain ⟨selected, hsel, hb, hlt⟩ := h.current r (hold r hr) (hballot.trans hpromise)
    exact ⟨selected, hselected ▸ hsel, hb.trans hpromise.symm, hlt⟩
  · exact h.older selected (hselected ▸ hsel) (hballot.trans hpromise) r (hold r hr)
      fun h => hne (h.trans hpromise.symm)
  · have hunresolved : a ∈ s.unresolved := by
      have ha' : loaded.acceptance loaded.acceptedThrough = some a := by
        have : loaded.unresolved = some a := ha
        unfold unresolved at this
        split at this
        · exact this
        · cases this
      obtain ⟨hlatest, hlt⟩ := hkept a (hloads.acceptance_mem ha').1
      have hcovers := hi.checked.covers
      rw [Option.mem_def, unresolved, if_pos (by omega)]
      exact hlatest
    exact h.frozen requester basis hbasis (hballot.trans hpromise)
      (fun selected hsel' => hpromise ▸ hsel selected (hselected ▸ hsel')) a hunresolved
  · rw [show ({ s.installed image with toMemory := loaded } : Store m).promise = s.promise from
      hpromise]
    exact h.basisBelow requester basis hbasis

/-- A row that replaces another is the selected value: what was there is older than the selection
of this ballot, so its slot is the one next to the selected prefix. -/
theorem Rebuilt.selectedValue_of_replaces (h : Rebuilt sha s) (ha : Accountable s) {row : Accept D}
    (hrow : Acceptable sha s row) (hguided : Guided s (.accept row)) {previous : Accept D}
    (hprevious : s.acceptance row.entry.index = some previous) : s.selectedValue row = true := by
  obtain ⟨replacements, hloads⟩ := h.loads
  obtain ⟨selected, hsel, hballot, hindexed⟩ := hguided
  obtain ⟨hmem, hindex, -⟩ := hloads.acceptance_mem hprevious
  have hlt := (hrow.replaces previous hprevious).2.2.1
  have hne : previous.ballot ≠ s.promise := by
    intro heq
    rw [heq, hrow.ballot] at hlt
    omega
  have hold := ha.older selected hsel (hballot.trans hrow.ballot) previous hmem hne
  exact hrow.selection selected hsel hballot (by omega)

theorem Rebuilt.accepting (h : Rebuilt sha s) (ha : Accountable s) {row : Accept D}
    (hrow : Acceptable sha s row) (hguided : Guided s (.accept row)) :
    Rebuilt sha (s.accepting row) := by
  obtain ⟨replacements, hloads⟩ := h.loads
  obtain ⟨hnext, hlow, hhigh⟩ := hrow.index_eq hloads.toPasses
  refine ⟨h.usable, h.base, h.selection, ⟨_, (hloads.accept hrow.ballot hnext hrow.predecessor
    (fun p hp => (hrow.replaces p hp).2.2.1) hrow.bounded).congr rfl rfl rfl, fun r hr => ?_⟩, ?_⟩
  · show (s.pushAccept row).replacementAuthority r = .ok ()
    rw [replacementAuthority_eq_ok, provenThrough_pushAccept]
    by_cases hproven : r.entry.index ≤ s.provenThrough
    · exact .inl hproven
    · -- the replacement is in the slot of the new row, which is its latest acceptance
      obtain ⟨hindex, previous, hprevious⟩ : r.entry.index = row.entry.index ∧
          ∃ previous, s.acceptance row.entry.index = some previous := by
        rcases List.mem_append.mp hr with hr | hr
        · obtain ⟨hindex, latest, hlatest, -⟩ := hloads.unresolved_of_replacement hr hproven
          have hslots := hloads.slots
          have : r.entry.index = row.entry.index := by
            unfold provenThrough at hproven hnext
            unfold acceptedThrough at hindex
            omega
          exact ⟨this, latest, this ▸ hlatest⟩
        · unfold replacement at hr
          split at hr
          · cases hr
          · rename_i previous hprevious
            split at hr
            · cases hr
            · rw [List.mem_singleton] at hr
              exact ⟨by rw [hr], previous, hprevious⟩
      refine .inr ⟨row, ?_, .inr (h.selectedValue_of_replaces ha hrow hguided hprevious)⟩
      rw [acceptance_pushAccept hlow hhigh, if_pos hindex]
  · obtain ⟨h1, h2, h3⟩ := checkRecovery_eq_ok.mp h.recovery
    refine checkRecovery_eq_ok.mpr ⟨h1, h2, fun o ho => ⟨(h3 o ho).1, ?_⟩⟩
    have hthrough : (s.accepting row).provenThrough = s.provenThrough := rfl
    exact checkPrefix_pushAccept hlow hhigh (by omega) (h3 o ho).2

theorem Accountable.accepting (h : Accountable s) {row : Accept D} (hrow : Acceptable sha s row)
    (hguided : Guided s (.accept row)) : Accountable (s.accepting row) := by
  obtain ⟨selected, hsel, hballot, hindexed⟩ := hguided
  refine ⟨fun r hr hb => ?_, fun o ho hob r hr hne => ?_,
    fun requester basis hbasis hb hno a ha => ?_, h.basisBelow⟩
  · rcases List.mem_append.mp hr with hr | hr
    · exact h.current r hr hb
    · rw [List.mem_singleton] at hr
      subst hr
      exact ⟨selected, hsel, hballot.trans hrow.ballot, hindexed⟩
  · rcases List.mem_append.mp hr with hr | hr
    · exact h.older o ho hob r hr hne
    · rw [List.mem_singleton] at hr
      exact absurd (hr ▸ hrow.ballot) hne
  · exact absurd (hballot.trans hrow.ballot) (hno selected hsel)

theorem Rebuilt.proving (h : Rebuilt sha s) (ha : Accountable s) {row : Proof m}
    (hrow : Provable sha s row) {sequence : ℕ} (hseq : s.sequenceAfter row = .ok sequence) :
    Rebuilt sha (s.proving row sequence) := by
  obtain ⟨replacements, hloads⟩ := h.loads
  refine ⟨h.usable, h.base, h.selection,
    ⟨replacements, (hloads.prove hrow.next hrow.accepted hseq).congr rfl rfl rfl,
      fun r hr => ?_⟩, ?_⟩
  · have hr' := hloads.authority r hr
    rw [replacementAuthority_eq_ok] at hr' ⊢
    refine hr'.imp_left fun hle => hle.trans ?_
    show s.baseIndex + s.proven.length ≤ s.baseIndex + (s.proven ++ [row]).length
    rw [List.length_append]
    omega
  obtain ⟨h1, h2, h3⟩ := checkRecovery_eq_ok.mp h.recovery
  refine checkRecovery_eq_ok.mpr ⟨h1, h2, fun o ho => ⟨(h3 o ho).1, ?_⟩⟩
  -- the proof is of an acceptance at this ballot, so its slot is above the selected prefix
  obtain ⟨accepted, hmem, hindex, hballot, -⟩ := hloads.matching hrow.accepted
  obtain ⟨selected, hsel, -, hindexed⟩ := ha.current accepted hmem (hballot.trans hrow.ballot)
  have ho' : o = selected := Option.some.inj ((Option.mem_def.mp ho).symm.trans hsel)
  subst ho'
  have hcut := h.prefixIndex hsel
  have hnext := hrow.next.1
  have hthrough : (s.proving row sequence).provenThrough = s.provenThrough + 1 := by
    show s.baseIndex + (s.proven ++ [row]).length = s.baseIndex + s.proven.length + 1
    rw [List.length_append]
    rfl
  obtain ⟨g1, g2, g3⟩ := checkPrefix_eq_ok.mp (h3 o ho).2
  rw [show min s.provenThrough o.snapshot.index = o.snapshot.index by omega] at g1 g2 g3
  rw [hthrough, show min (s.provenThrough + 1) o.snapshot.index = o.snapshot.index by omega]
  exact checkPrefix_eq_ok.mpr ⟨⟨by omega, le_refl _⟩, g2, g3⟩

theorem Accountable.proving (h : Accountable s) (hs : Rebuilt sha s) {row : Proof m}
    {sequence : ℕ} : Accountable (s.proving row sequence) := by
  refine ⟨h.current, h.older, fun requester basis hbasis hb hno a ha => ?_, h.basisBelow⟩
  obtain ⟨replacements, hloads⟩ := hs.loads
  have hslots := hloads.slots
  have ha' : (s.proving row sequence).unresolved = some a := ha
  rw [unresolved, if_neg] at ha'
  · cases ha'
  · show ¬s.baseIndex + (s.proven ++ [row]).length < s.baseIndex + s.accepted.length
    rw [List.length_append, List.length_singleton]
    omega

/-- One successful operation of a run. -/
theorem Rebuilt.operated (h : Rebuilt sha s) (ha : Accountable s) {op : Op m}
    (hguided : Guided s op) (hop : op.run sha limits s = .ok () s') :
    Rebuilt sha s' ∧ Accountable s' := by
  cases op with
  | surroundings around =>
    cases hop
    exact ⟨⟨h.usable, h.base, h.selection, h.loads, h.recovery⟩,
      ha.current, ha.older, ha.frozen, ha.basisBelow⟩
  | promise row =>
    obtain ⟨rfl, -⟩ | ⟨hlt, hcount, rfl⟩ := wp_promiseRow.ok hop
    · exact ⟨h, ha⟩
    · exact ⟨h.promised hlt hcount, ha.promised h hlt⟩
  | prepare grant requester application basisId =>
    obtain ⟨basis, hok⟩ := ok_of_discard hop
    obtain ⟨-, ⟨rfl, -⟩ | ⟨image, -, hlt, hcount, hbasis, rfl⟩⟩ := wp_prepare.ok hok
    · exact ⟨h, ha⟩
    · exact ⟨(h.promised hlt hcount).frozen requester basis, (ha.promised h hlt).withBasis hbasis⟩
  | select bases =>
    obtain ⟨decision, hok⟩ := ok_of_discard hop
    obtain ⟨hdec, hpre, old, hold, hcases⟩ := wp_selectBases.ok hok
    cases hold.symm.trans h.selection
    have hballot : decision.record.ballot = s.promise := by
      obtain ⟨a, b, -, -, hd⟩ := select_eq_ok hdec
      rw [hd.decides]
      rfl
    rcases hcases with ⟨hsame, rfl⟩ | ⟨hnew, hcut, rfl⟩
    · rw [← h.reselecting hdec hsame]
      exact ⟨h, ha⟩
    · have hcut' : s.provenThrough ≤ decision.snapshot.index := by
        refine hcut.resolve_left fun ⟨o, ho, hrecord⟩ => hnew o ho ?_
        rw [hrecord]
      have hindexed : decision.record.prefixIndex = decision.snapshot.index := by
        obtain ⟨a, b, -, -, hd⟩ := select_eq_ok hdec
        rw [hd.decides]
        rfl
      exact ⟨h.selecting ha hdec hpre hnew hguided, ha.selecting h hballot hindexed hnew hcut'⟩
  | installSelected =>
    obtain ⟨selected, -, -, hi⟩ := wp_installSelected.ok hop
    exact ⟨h.installs hi, ha.installs h hi⟩
  | installProven snapshot =>
    obtain rfl | ⟨-, hi⟩ := wp_installProven.ok hop
    · exact ⟨h, ha⟩
    · exact ⟨h.installs hi, ha.installs h hi⟩
  | checkpoint application =>
    obtain ⟨image, -, hi⟩ := wp_checkpoint.ok hop
    exact ⟨h.installs hi, ha.installs h hi⟩
  | accept row =>
    obtain ⟨receipt, hok⟩ := ok_of_discard hop
    obtain ⟨-, -, ⟨rfl, -⟩ | ⟨hrow, rfl⟩⟩ := wp_acceptRow.ok hok
    · exact ⟨h, ha⟩
    · exact ⟨h.accepting ha hrow hguided, ha.accepting hrow hguided⟩
  | prove row =>
    obtain ⟨receipt, hok⟩ := ok_of_discard hop
    obtain ⟨-, -, ⟨rfl, -⟩ | ⟨hrow, sequence, hseq, rfl⟩⟩ := wp_proveRow.ok hok
    · exact ⟨h, ha⟩
    · exact ⟨h.proving ha hrow hseq, ha.proving h⟩

/-- A sealed voter opens, with nothing accepted, proven, frozen or selected. -/
theorem openStore_genesis {node : Node} {around : Surroundings}
    (h : openStore sha node (Disk.genesis m) around = .ok s) : Rebuilt sha s ∧ Accountable s := by
  simp only [openStore, bind_eq_ok] at h
  obtain ⟨selected, hselected, loaded, hload, _, hrecovery, hs⟩ := h
  cases hselected
  cases hs
  obtain ⟨hbase, hsel, hloads⟩ := load_eq_ok.mp hload
  refine ⟨⟨rfl, hbase.symm, hsel ▸ rfl, hloads, hrecovery⟩, ?_, ?_, ?_, ?_⟩
  · intro r hr
    cases hr
  · intro selected _ _ r hr
    cases hr
  · intro requester basis hbasis
    cases hbasis
  · intro requester basis hbasis
    cases hbasis

/-- Closing or crashing after any sequence of successful operations and opening again rebuilds the
whole store: the promise and every grant, the base snapshot, the acceptances of each slot, the
proven prefix, the application sequence and the current selection. -/
theorem openStore_rebuilds (run : Run sha limits Guided s) (around : Surroundings) :
    openStore sha s.node s.disk around = .ok { s with around } := by
  have hrun : Rebuilt sha s ∧ Accountable s := by
    induction run with
    | opened h => exact openStore_genesis h
    | operated op _ h hop ih => exact ih.1.operated ih.2 h hop
  exact hrun.1.openStore around

/-! ### A selection that forgets -/

/-- The ballot of an epoch, with the epoch as its incarnation. -/
def liveBallot (epoch : ℕ) (h : 1 < epoch) : Ballot := ⟨epoch, epoch, .inr ⟨h, by omega⟩⟩

/-- The no-op that the owner of `epoch` proposes for the first slot, accepted at `ballot`. -/
def firstNoOp (epoch : ℕ) (h : 2 ≤ epoch) (ballot : Ballot) (hb : epoch ≤ ballot.epoch) :
    Accept Term where
  ballot := ballot
  entry := {
    originEpoch := epoch
    originIncarnation := epoch
    index := 1
    operation := 9
    previousEpoch := 1
    previousDigest := emptyManifest.digest
    payload := []
    origin := ⟨h, by omega⟩
    kind := by decide
    predecessor := ⟨le_refl 1, by omega⟩
    empty := .inr rfl }
  origin := hb

/-- The basis of a voter that has proven nothing. -/
def earlyBasis (v : Node) (ballot : Ballot) (basisId : ℕ) (accepted : Option (Accept Term))
    (h : ∀ a ∈ accepted, tail emptyManifest [] a.entry)
    (h' : ∀ a ∈ accepted, a.ballot.epoch ≤ ballot.epoch) : Basis emptyManifest :=
  ⟨v, ballot, basisId, ⟨genesisSnapshot emptyManifest, accepted, h⟩, h'⟩

/-- The store of the third voter after a list of operations. -/
def third (guarantee : Store emptyManifest → Op emptyManifest → Prop)
    [∀ s op, Decidable (guarantee s op)] (ops : List (Op emptyManifest)) :
    Option (Store emptyManifest) :=
  (openStore (symbolic _) 2 (Disk.genesis _) calm).toOption.bind
    (execute (symbolic _) (unlimited _) guarantee ops)

theorem third_run {guarantee : Store emptyManifest → Op emptyManifest → Prop}
    [∀ s op, Decidable (guarantee s op)] {ops : List (Op emptyManifest)} {s : Store emptyManifest}
    (h : third guarantee ops = some s) : Run (symbolic _) (unlimited _) guarantee s := by
  obtain ⟨start, hstart, hops⟩ := Option.bind_eq_some_iff.mp h
  cases hopen : openStore (symbolic emptyManifest) 2 (Disk.genesis _) calm with
  | error e =>
    rw [hopen] at hstart
    cases hstart
  | ok s0 =>
    rw [hopen] at hstart
    cases hstart
    exact (Run.opened hopen).execute ops hops

/-- The third voter accepts and proves the no-op of epoch 2. -/
def provingOps : List (Op emptyManifest) :=
  let b2 := liveBallot 2 (by decide)
  let row := firstNoOp 2 (by decide) b2 (by decide)
  [.prepare b2 0 [] 1,
    .select [earlyBasis 0 b2 11 none (by simp) (by simp),
      earlyBasis 2 b2 1 none (by simp) (by simp)],
    .accept row,
    .prove ⟨b2, 1, Term.entry row.entry, emptyManifest.digest, [0, 2], by decide, by decide,
      by decide, by decide⟩]

theorem openStore_rebuilds_proven :
    (third Guided provingOps).any (fun s => s.provenThrough = 1) = true ∧
      ∀ s ∈ third Guided provingOps,
        openStore (symbolic _) s.node s.disk calm = .ok { s with around := calm } :=
  ⟨by decide +kernel, fun _ hs => openStore_rebuilds (third_run hs) calm⟩

/-- The third voter accepts the no-op of epoch 2, replaces it at epoch 5 by what another voter had
accepted at epoch 3, and selects at epoch 8 among the bases of the two others. -/
def forgetfulOps : List (Op emptyManifest) :=
  let b2 := liveBallot 2 (by decide)
  let b5 := liveBallot 5 (by decide)
  let b8 := liveBallot 8 (by decide)
  let vote3 := firstNoOp 3 (by decide) (liveBallot 3 (by decide)) (by decide)
  [.prepare b2 0 [] 1,
    .select [earlyBasis 0 b2 11 none (by simp) (by simp),
      earlyBasis 2 b2 1 none (by simp) (by simp)],
    .accept (firstNoOp 2 (by decide) b2 (by decide)),
    .prepare b5 0 [] 2,
    .select [earlyBasis 0 b5 12 none (by simp) (by simp),
      earlyBasis 1 b5 13 (some vote3) (by decide) (by decide)],
    .accept (firstNoOp 3 (by decide) b5 (by decide)),
    .prepare b8 0 [] 3,
    .select [earlyBasis 0 b8 14 none (by simp) (by simp),
      earlyBasis 1 b8 15 none (by simp) (by simp)]]

/-- The prefix of a voter that has proven the no-op of epoch 2. -/
def boundedSnapshot : Snapshot emptyManifest :=
  let entry := (firstNoOp 2 (by decide) (liveBallot 2 (by decide)) (by decide)).entry
  { application := []
    applicationSequence := 0
    anchors := [anchor (symbolic emptyManifest) entry]
    terminalProof := some ⟨liveBallot 2 (by decide), 1, Term.entry entry, emptyManifest.digest,
      [0, 1], by decide, by decide, by decide, by decide⟩
    bounded := by decide
    origins := by decide
    sequence := by decide
    proof := by decide }

/-- The third voter selects the no-op of epoch 2, which the first has proven, and without installing
it accepts and proves another entry in its slot. -/
def overwritingOps : List (Op emptyManifest) :=
  let b5 := liveBallot 5 (by decide)
  let row := firstNoOp 5 (by decide) b5 (by decide)
  [.prepare b5 0 [] 1,
    .select [⟨0, b5, 11, ⟨boundedSnapshot, none, by simp⟩, by simp⟩,
      earlyBasis 2 b5 1 none (by simp) (by simp)],
    .accept row,
    .prove ⟨b5, 1, Term.entry row.entry, emptyManifest.digest, [0, 2], by decide, by decide,
      by decide, by decide⟩]

theorem third_fails (guarantee : Store emptyManifest → Op emptyManifest → Prop)
    [∀ s op, Decidable (guarantee s op)] (ops : List (Op emptyManifest))
    (h : (third guarantee ops).any (fun s =>
      !(openStore (symbolic _) s.node s.disk calm).toOption.isSome) = true) :
    ∃ s, Run (symbolic emptyManifest) (unlimited _) guarantee s ∧
      (openStore (symbolic _) s.node s.disk calm).toOption.isSome = false := by
  obtain ⟨s, hs, hopen⟩ := (Option.any_eq_true _ _).mp h
  exact ⟨s, third_run hs, by simpa using hopen⟩

/-- When a voter may select without its own basis, a directory that it wrote itself does not open
any more: the acceptance of epoch 5 replaced another value, and the selection of epoch 8 does not
know it.  Nor does it when the voter selects with its own basis and accepts in the selected prefix:
what it proves there is not what it has selected. -/
theorem openStore_forgets :
    (∃ s, Run (symbolic emptyManifest) (unlimited _) SelectsFirst s ∧
      Run (symbolic emptyManifest) (unlimited _) AcceptsAbove s ∧
      (openStore (symbolic _) s.node s.disk calm).toOption.isSome = false) ∧
    ∃ s, Run (symbolic emptyManifest) (unlimited _) SelectsFirst s ∧
      Run (symbolic emptyManifest) (unlimited _) SelectsOwn s ∧
      (openStore (symbolic _) s.node s.disk calm).toOption.isSome = false := by
  constructor
  · obtain ⟨s, run, hopen⟩ := third_fails AcceptsAbove forgetfulOps (by decide +kernel)
    exact ⟨s, run.mono fun _ _ => AcceptsAbove.first, run, hopen⟩
  · obtain ⟨s, run, hopen⟩ := third_fails SelectsOwn overwritingOps (by decide +kernel)
    exact ⟨s, run.mono fun _ _ => SelectsOwn.first, run, hopen⟩

end Store

end GeneralSearch.Replication
