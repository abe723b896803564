import GeneralSearch.Replication.Load

/-! What each operation of `AutomaticStore` can do: it refuses and leaves authority alone, repeats
what is already there, or extends the directory and the memory by one row, one basis, one selection
or one generation. -/

namespace GeneralSearch.Replication

open Lib

namespace Store

section

variable {D : Type} {m : Manifest D} {limits : Limits m} {s s' : Store m}

/-- Authority is what it was: the directory and what is rebuilt from it.  Quarantine is never
left. -/
structure Same (s s' : Store m) : Prop where
  memory : s'.toMemory = s.toMemory
  disk : s'.disk = s.disk
  node : s'.node = s.node
  failed : s'.failed = false → s.failed = false

theorem Same.refl (s : Store m) : Same s s := ⟨rfl, rfl, rfl, id⟩

theorem Same.quarantined (h : Same s s') : Same s { s' with failed := true } :=
  ⟨h.memory, h.disk, h.node, fun hfalse => by cases hfalse⟩

@[simp] theorem wp_check {α : Type} {f : Store m → Except Failure α} {Q : α → Store m → Prop}
    {E : Failure → Store m → Prop} :
    Wp (check f) s Q E ↔ (∀ a, f s = .ok a → Q a s) ∧ ∀ e, f s = .error e → E e s := by
  unfold Wp check
  cases h : f s <;> simp

@[simp] theorem wp_usable {Q : Unit → Store m → Prop} {E : Failure → Store m → Prop} :
    Wp usable s Q E ↔ (s.failed = false → Q () s) ∧ (s.failed = true →
      E ⟨.storageFailure, "automatic authority quarantined after ambiguous I/O"⟩ s) := by
  unfold usable
  cases h : s.failed <;> simp [h]

@[simp] theorem wp_active {ballot : Ballot} {Q : Unit → Store m → Prop}
    {E : Failure → Store m → Prop} :
    Wp (active ballot) s Q E ↔ (ballot = s.promise → Q () s) ∧ (ballot ≠ s.promise →
      E ⟨.staleEpoch, "record does not match the current promise"⟩ s) := by
  unfold active
  by_cases h : ballot = s.promise <;> simp [h]

@[simp] theorem wp_force {row : Row m} {Q : Unit → Store m → Prop} {E : Failure → Store m → Prop} :
    Wp (force limits row) s Q E ↔ (limits.fits s.disk row = true → Q () s) ∧
      (limits.fits s.disk row ≠ true →
        E ⟨.capacityExceeded, "retained authority capacity"⟩ s) := by
  unfold force
  simp

/-- `s` with the directory changed, after one more change was allowed to succeed. -/
def changed (s : Store m) (change : Disk m → Disk m) : Store m :=
  { s with
    disk := change s.disk
    around := { s.around with faults := s.around.faults.map Nat.pred } }

@[simp] theorem wp_write {change : Disk m → Disk m} {Q : Unit → Store m → Prop}
    {E : Failure → Store m → Prop} :
    Wp (write change) s Q E ↔ (s.around.faults ≠ some 0 → Q () (s.changed change)) ∧
      (s.around.faults = some 0 → E ⟨.storageFailure, "ambiguous I/O; voter quarantined"⟩
        { s with failed := true }) := by
  unfold write changed
  obtain ⟨mem, node, disk, ⟨a, i, r, faults⟩, failed⟩ := s
  match faults with
  | none => simp
  | some 0 => simp
  | some (n + 1) => simp

theorem wp_recoveryIo {α : Type} {x : Exec m α} {Q : α → Store m → Prop}
    {E : Failure → Store m → Prop} :
    Wp (recoveryIo x) s Q E ↔
      (s.failed = false → Wp x s Q fun e s' => E e { s' with failed := true }) ∧
      (s.failed = true →
        E ⟨.storageFailure, "automatic authority quarantined after ambiguous I/O"⟩ s) := by
  unfold recoveryIo
  simp

/-- Quarantine after an exception. -/
theorem Wp.recoveryIo {α : Type} {x : Exec m α} {Q : α → Store m → Prop}
    {E : Failure → Store m → Prop} (hx : s.failed = false → Wp x s Q E)
    (hfailed : ∀ e s', E e s' → E e { s' with failed := true }) (hs : ∀ e, E e s) :
    Wp (recoveryIo x) s Q E :=
  wp_recoveryIo.mpr ⟨fun h => (hx h).mono (fun _ _ h => h) hfailed, fun _ => hs _⟩

/-! ### Promises and bases -/

/-- The store after a new promise. -/
def promised (s : Store m) (row : Ballot) : Store m :=
  { s.changed (fun disk => { disk with promises := disk.promises ++ [row] }) with
    grants := s.grants ++ [row]
    promise := row }

/-- The store after its frozen basis for `requester`. -/
def frozen (s : Store m) (requester : Node) (basis : Basis m) : Store m :=
  s.changed fun disk => { disk with
    basis := Function.update disk.basis requester (some basis)
    frozen := disk.frozen ++ [basis] }

@[simp] theorem frozen_basis (s : Store m) (requester : Node) (basis : Basis m) :
    (s.frozen requester basis).disk.basis = Function.update s.disk.basis requester (some basis) :=
  rfl

theorem wp_promiseRow {row : Ballot} :
    Wp (promiseRow limits row) s
      (fun _ s' => s' = s ∧ row = s.promise ∨
        s.promise.epoch < row.epoch ∧ s.grants.length < maxPromises ∧ s' = s.promised row)
      (fun _ s' => Same s s') := by
  unfold promiseRow
  simp only [wp_bind, wp_usable, wp_get, wp_ite, wp_throw, wp_need, wp_capacity, wp_force,
    wp_write, wp_modify, true_and]
  refine ⟨fun _ => ⟨fun _ => .refl s, fun hlow => ⟨fun _ => ⟨.inl, fun _ => .refl s⟩, ?_⟩⟩,
    fun _ => .refl s⟩
  intro hne
  refine ⟨fun hcount => ⟨fun _ => ⟨fun _ => .inr ⟨?_, hcount, rfl⟩, ?_⟩, fun _ => .refl s⟩,
    fun _ => .refl s⟩
  · omega
  · exact fun _ => (Same.refl s).quarantined

end

section

variable {D : Type} [DecidableEq D] {m : Manifest D} {sha : Sha m} {limits : Limits m}
  {s s' : Store m}

/-- The basis describes the store that froze it. -/
structure Describes (s : Store m) (image : Snapshot m) (basis : Basis m) : Prop where
  node : basis.node = s.node
  ballot : basis.ballot = s.promise
  snapshot : basis.image.snapshot = image
  accepted : basis.image.accepted = s.unresolved

theorem wp_freeze {requester : Node} {basisId : ℕ} {image : Snapshot m} :
    Wp (freeze requester basisId image) s
      (fun basis s' => Describes s image basis ∧ s' = s.frozen requester basis)
      (fun _ s' => Same s s') := by
  unfold freeze
  simp only [wp_bind, wp_get]
  split
  · split
    · simp only [wp_bind, wp_write, wp_pure]
      exact ⟨fun _ => ⟨⟨rfl, rfl, rfl, rfl⟩, rfl⟩, fun _ => (Same.refl s).quarantined⟩
    · exact Same.refl s
  · exact Same.refl s

/-- A basis for `requester`: the one frozen at the current promise, or a new one after the promise
of a higher ballot.  The promise is forced first and stays when the basis is not. -/
theorem wp_prepare {grant : Ballot} {requester : Node} {application : Bytes} {basisId : ℕ} :
    Wp (prepare sha limits grant requester application basisId) s
      (fun basis s' => grant.proposer = some requester ∧
        (s' = s ∧ grant = s.promise ∧ s.disk.basis requester = some basis ∧
            basis.ballot = grant ∨
          ∃ image, s.snapshot sha application = .ok image ∧ s.promise.epoch < grant.epoch ∧
            s.grants.length < maxPromises ∧ Describes (s.promised grant) image basis ∧
            s' = (s.promised grant).frozen requester basis))
      (fun _ s' => Same s s' ∨ grant.proposer = some requester ∧
        s.promise.epoch < grant.epoch ∧ s.grants.length < maxPromises ∧
        Same (s.promised grant) s') := by
  unfold prepare
  simp only [wp_bind, wp_usable, wp_need, wp_get, wp_ite]
  refine ⟨fun _ => ⟨fun hreq => ⟨fun heq => ?_, fun hne => ?_⟩, fun _ => .inl (.refl s)⟩,
    fun _ => .inl (.refl s)⟩
  · refine Wp.recoveryIo (fun _ => ?_) (fun _ _ h => ?_) fun _ => .inl (.refl s)
    · simp only [wp_bind, wp_active, wp_get]
      refine ⟨fun hactive => ?_, fun _ => .inl (.refl s)⟩
      split
      · exact .inl (.refl s)
      · rename_i basis hbasis
        simp only [wp_bind, wp_get, wp_need, wp_pure]
        exact ⟨fun hballot => ⟨hreq.symm, .inl ⟨trivial, hactive, hbasis,
          hballot.trans hactive.symm⟩⟩, fun _ => .inl (.refl s)⟩
    · exact h.imp Same.quarantined fun hp => ⟨hp.1, hp.2.1, hp.2.2.1, hp.2.2.2.quarantined⟩
  · refine Wp.recoveryIo (fun _ => ?_) (fun _ _ h => ?_) fun _ => .inl (.refl s)
    · simp only [wp_bind, wp_check]
      refine ⟨fun image himage => ?_, fun _ _ => .inl (.refl s)⟩
      refine wp_promiseRow.mono (fun _ s1 h1 => ?_) fun _ _ h => .inl h
      -- the epochs differ, so the promise is new
      obtain ⟨-, rfl⟩ | ⟨hlt, hcount, rfl⟩ := h1
      · exact absurd rfl hne
      · exact wp_freeze.mono
          (fun basis _ h2 => ⟨hreq.symm, .inr ⟨image, himage, hlt, hcount, h2.1, h2.2⟩⟩)
          fun _ _ h2 => .inr ⟨hreq.symm, hlt, hcount, h2⟩
    · exact h.imp Same.quarantined fun hp => ⟨hp.1, hp.2.1, hp.2.2.1, hp.2.2.2.quarantined⟩

/-! ### Selections and generations -/

/-- The store after a new selection. -/
def selecting (s : Store m) (decision : Selection m) : Store m :=
  { s.changed (fun disk => { disk with selected := some (decision.record, decision.bases) }) with
    selected := some decision }

/-- A selection at the current promise, over the local proven prefix: the one that is retained
already, or a new one. -/
theorem wp_selectBases {bases : List (Basis m)} :
    Wp (selectBases sha bases) s
      (fun decision s' => select sha s.promise bases = .ok decision ∧
        s.checkPrefix sha decision.snapshot (min s.provenThrough decision.snapshot.index) = .ok () ∧
        ∃ old, s.disk.selection sha = .ok old ∧
        ((∃ o ∈ old, o.record = decision.record) ∧ s' = { s with selected := some decision } ∨
          (∀ o ∈ old, o.record.ballot ≠ decision.record.ballot) ∧
          ((∃ o ∈ s.selected, o.record = decision.record) ∨
            s.provenThrough ≤ decision.snapshot.index) ∧
          s' = s.selecting decision))
      (fun _ s' => Same s s') := by
  refine Wp.recoveryIo (fun _ => ?_) (fun _ _ h => h.quarantined) fun _ => .refl s
  simp only [wp_bind, wp_get, wp_check, wp_need, wp_ite, wp_write, wp_modify, wp_pure]
  refine ⟨fun decision hdec => ⟨fun hroll => ⟨fun _ hpre => ⟨fun old hold => ?_,
    fun _ _ => .refl s⟩, fun _ _ => .refl s⟩, fun _ => .refl s⟩, fun _ _ => .refl s⟩
  refine ⟨fun hsame => ⟨fun hrec => ?_, fun _ => .refl s⟩, fun hdiff => ⟨fun _ => ?_, ?_⟩⟩
  · refine ⟨hdec, hpre, old, hold, .inl ⟨?_, trivial⟩⟩
    simpa [Option.any_eq_true] using hrec
  · refine ⟨hdec, hpre, old, hold, .inr ⟨?_, ?_, rfl⟩⟩
    · intro o ho heq
      subst ho
      simp [heq] at hdiff
    · refine hroll.imp (fun h => ?_) id
      simpa [Option.any_eq_true] using h
  · exact fun _ => (Same.refl s).quarantined

/-- What `install` keeps of the ledger. -/
def kept (s : Store m) (image : Snapshot m) : Option (Accept D) :=
  if image.index < s.acceptedThrough then s.acceptance s.acceptedThrough else none

/-- The directory change of `install`. -/
def installed (s : Store m) (image : Snapshot m) : Store m :=
  s.changed fun disk => { disk with
    snapshot := some image, accepted := (s.kept image).toList, proofs := [] }

/-- What `install` has checked when it changes the directory. -/
structure Installable (sha : Sha m) (s : Store m) (image : Snapshot m) : Prop where
  covers : s.provenThrough ≤ image.index
  agrees : s.checkPrefix sha image s.provenThrough = .ok ()
  follows : ∀ a ∈ s.kept image, tail m image.anchors a.entry

/-- A generation is installed when the directory is changed; the voter goes on only when it can be
reopened. -/
theorem wp_install {image : Snapshot m} :
    Wp (install sha image) s
      (fun _ s' => Installable sha s image ∧
        ∃ loaded, Memory.load sha (s.installed image).disk image s.selected = .ok loaded ∧
          loaded.checkRecovery sha = .ok () ∧ s' = { s.installed image with toMemory := loaded })
      (fun _ s' => Same s s' ∨ Installable sha s image ∧ s'.disk = (s.installed image).disk ∧
        s'.node = s.node ∧ (s'.toMemory = s.toMemory ∨
          Memory.load sha (s.installed image).disk image s.selected = .ok s'.toMemory)) := by
  unfold install
  simp only [wp_bind, wp_get, wp_check, wp_need, wp_write, wp_modify]
  refine ⟨fun hcut => ⟨fun _ hpre => ⟨fun hfollows => ⟨fun _ => ⟨fun _ => ?_, ?_⟩, ?_⟩, ?_⟩, ?_⟩,
    ?_⟩
  · have hok : Installable sha s image := ⟨hcut, hpre, hfollows⟩
    refine ⟨fun loaded hload => ⟨fun _ hcheck => ⟨hok, loaded, hload, hcheck, rfl⟩,
      fun _ _ => .inr ⟨hok, rfl, rfl, .inr hload⟩⟩, fun _ _ => .inr ⟨hok, rfl, rfl, .inl rfl⟩⟩
  · exact fun _ => .inl (Same.refl s).quarantined
  · exact fun _ => .inl (.refl s)
  · exact fun _ => .inl (.refl s)
  · exact fun _ _ => .inl (.refl s)
  · exact fun _ => .inl (.refl s)

/-- The outcome of every operation that installs `image`. -/
structure Installs (sha : Sha m) (s : Store m) (image : Snapshot m) (s' : Store m) : Prop where
  checked : Installable sha s image
  loads : ∃ loaded, Memory.load sha (s.installed image).disk image s.selected = .ok loaded ∧
    loaded.checkRecovery sha = .ok () ∧ s' = { s.installed image with toMemory := loaded }

/-- The voter is quarantined after `image` was installed; it remembers what it had before, or what
it has loaded. -/
structure Stranded (sha : Sha m) (s : Store m) (image : Snapshot m) (s' : Store m) : Prop where
  checked : Installable sha s image
  disk : s'.disk = (s.installed image).disk
  node : s'.node = s.node
  memory : s'.toMemory = s.toMemory ∨
    Memory.load sha (s.installed image).disk image s.selected = .ok s'.toMemory
  failed : s'.failed = true

/-- The outcomes of an operation that throws while it may have installed `image`. -/
def Interrupted (sha : Sha m) (s : Store m) (image : Snapshot m) (s' : Store m) : Prop :=
  Same s s' ∨ Stranded sha s image s'

/-- `install` where an exception quarantines. -/
theorem wp_install_quarantined {image : Snapshot m} :
    Wp (install sha image) s (fun _ s' => Installs sha s image s')
      (fun _ s' => Interrupted sha s image { s' with failed := true }) :=
  wp_install.mono (fun _ _ h => ⟨h.1, h.2⟩) fun _ _ h =>
    h.imp Same.quarantined fun ⟨h1, h2, h3, h4⟩ => ⟨h1, h2, h3, h4, rfl⟩

theorem wp_installSelected :
    Wp (installSelected sha) s
      (fun _ s' => ∃ selected ∈ s.selected, selected.record.ballot = s.promise ∧
        Installs sha s selected.snapshot s')
      (fun _ s' => Same s s' ∨ ∃ selected ∈ s.selected, selected.record.ballot = s.promise ∧
        Interrupted sha s selected.snapshot s') := by
  refine wp_recoveryIo.mpr ⟨fun _ => ?_, fun _ => .inl (.refl s)⟩
  simp only [wp_bind, wp_get]
  split
  · exact .inl (Same.refl s).quarantined
  · rename_i selected hsel
    simp only [wp_bind, wp_need]
    refine ⟨fun hballot => ?_, fun _ => .inl (Same.refl s).quarantined⟩
    exact wp_install_quarantined.mono (fun _ _ h => ⟨selected, hsel, hballot, h⟩)
      fun _ _ h => .inr ⟨selected, hsel, hballot, h⟩

theorem wp_checkpoint {application : Bytes} :
    Wp (checkpoint sha application) s
      (fun _ s' => ∃ image, s.snapshot sha application = .ok image ∧ Installs sha s image s')
      (fun _ s' => Same s s' ∨
        ∃ image, s.snapshot sha application = .ok image ∧ Interrupted sha s image s') := by
  refine wp_recoveryIo.mpr ⟨fun _ => ?_, fun _ => .inl (.refl s)⟩
  simp only [wp_bind, wp_check]
  refine ⟨fun image himage => ?_, fun _ _ => .inl (Same.refl s).quarantined⟩
  exact wp_install_quarantined.mono (fun _ _ h => ⟨image, himage, h⟩)
    fun _ _ h => .inr ⟨image, himage, h⟩

theorem wp_resumeCheckpoint {application : Bytes} :
    Wp (resumeCheckpoint sha application) s
      (fun _ s' => s' = s ∨
        ∃ image, s.snapshot sha application = .ok image ∧ Installs sha s image s')
      (fun _ s' => Same s s' ∨
        ∃ image, s.snapshot sha application = .ok image ∧ Interrupted sha s image s') := by
  refine wp_recoveryIo.mpr ⟨fun _ => ?_, fun _ => .inl (.refl s)⟩
  simp only [wp_bind, wp_check, wp_get, wp_ite, wp_pure]
  refine ⟨fun image himage => ⟨fun _ => ?_, fun _ => .inl trivial⟩,
    fun _ _ => .inl (Same.refl s).quarantined⟩
  exact wp_install_quarantined.mono (fun _ _ h => .inr ⟨image, himage, h⟩)
    fun _ _ h => .inr ⟨image, himage, h⟩

/-- A passive install never rolls back and never drops an acceptance above its cut. -/
theorem wp_installProven {snapshot : Snapshot m} :
    Wp (installProven sha snapshot) s
      (fun _ s' => s' = s ∨ s.acceptedThrough ≤ snapshot.index ∧ Installs sha s snapshot s')
      (fun _ s' => Same s s' ∨
        s.acceptedThrough ≤ snapshot.index ∧ Interrupted sha s snapshot s') := by
  unfold installProven
  simp only [wp_bind, wp_usable, wp_get, wp_need, wp_capacity, wp_ite, wp_pure]
  refine ⟨fun _ => ⟨fun _ => ⟨fun hall => ⟨fun _ => ⟨fun _ => ⟨fun _ => .inl trivial, fun _ => ?_⟩,
    fun _ => .inl (.refl s)⟩, fun _ => .inl (.refl s)⟩, fun _ => .inl (.refl s)⟩,
    fun _ => .inl (.refl s)⟩, fun _ => .inl (.refl s)⟩
  refine wp_recoveryIo.mpr ⟨fun _ => ?_, fun _ => .inl (.refl s)⟩
  exact wp_install_quarantined.mono (fun _ _ h => .inr ⟨hall, h⟩) fun _ _ h => .inr ⟨hall, h⟩

/-! ### Acceptances and proofs -/

/-- The store after a new acceptance. -/
def accepting (s : Store m) (row : Accept D) : Store m :=
  { s.changed (fun disk => { disk with
      accepted := disk.accepted ++ [row]
      voted := disk.voted ++ [row] }) with
    toMemory := s.pushAccept row }

/-- What `accept` has checked when it forces a new row. -/
structure Acceptable (sha : Sha m) (s : Store m) (row : Accept D) : Prop where
  ballot : row.ballot = s.promise
  next : row.entry.index = s.provenThrough + 1 ∨
    s.baseIndex < row.entry.index ∧ row.entry.index ≤ s.provenThrough
  selection : ∀ selected ∈ s.selected, selected.record.ballot = row.ballot →
    row.entry.index = selected.record.prefixIndex + 1 → s.selectedValue row = true
  predecessor : s.predecessor sha row.entry = .ok ()
  replaces : ∀ previous ∈ s.acceptance row.entry.index,
    row.entry.index = s.provenThrough + 1 ∧ row.entry.index = s.acceptedThrough ∧
      previous.ballot.epoch < row.ballot.epoch ∧
      (row.entry = previous.entry ∨ s.selectedValue row = true)
  bounded : row.entry.index ≤ maxEntries ∧ s.acceptanceRows < maxEntries + maxPromises

/-- A new row is of the first unproven slot. -/
theorem Acceptable.index_eq {row : Accept D} (hrow : Acceptable sha s row)
    {replacements : List (Accept D)}
    (hpasses : Memory.Passes sha s.disk s.toMemory replacements) :
    row.entry.index = s.provenThrough + 1 ∧ s.baseIndex < row.entry.index ∧
      row.entry.index ≤ s.acceptedThrough + 1 := by
  have hproven := hpasses.proven_eq.2
  have hnext : row.entry.index = s.provenThrough + 1 := by
    rcases hrow.next with hnext | ⟨hlow, hhigh⟩
    · exact hnext
    · -- a proven slot has an acceptance already, so only the same row again fits
      obtain ⟨previous, hprevious⟩ :
          ∃ previous, s.acceptance row.entry.index = some previous := by
        rw [← Option.ne_none_iff_exists', Ne, Memory.acceptance_eq_none]
        unfold Memory.provenThrough at hhigh
        unfold Memory.acceptedThrough
        omega
      exact (hrow.replaces previous hprevious).1
  refine ⟨hnext, ?_, ?_⟩
  · unfold Memory.provenThrough at hnext
    omega
  · unfold Memory.provenThrough at hnext
    unfold Memory.acceptedThrough
    omega

theorem wp_acceptRow {row : Accept D} :
    Wp (acceptRow sha limits row) s
      (fun receipt s' =>
        receipt = sha.receipt .acceptAck s.node row.ballot row.entry.index (sha.entry row.entry) ∧
        row.ballot = s.promise ∧
        (s' = s ∧ s.acceptance row.entry.index = some row ∨
          Acceptable sha s row ∧ s' = s.accepting row))
      (fun _ s' => Same s s') := by
  unfold acceptRow
  simp only [wp_bind, wp_usable, wp_active, wp_get, wp_capacity, wp_need, wp_check, wp_ite, wp_pure,
    wp_force, wp_write, wp_modify]
  refine ⟨fun _ => ⟨fun hballot => ⟨fun hindex => ⟨fun hgap => ⟨fun hsel => ⟨fun _ hpre =>
    ⟨fun _ hrep => ?_, fun _ _ => .refl s⟩, fun _ _ => .refl s⟩, fun _ => .refl s⟩,
    fun _ => .refl s⟩, fun _ => .refl s⟩, fun _ => .refl s⟩, fun _ => .refl s⟩
  refine ⟨fun hretry => ⟨trivial, hballot, .inl ⟨trivial, hretry⟩⟩, fun hnew => ?_⟩
  have hreplaces : ∀ previous ∈ s.acceptance row.entry.index,
      row.entry.index = s.provenThrough + 1 ∧ row.entry.index = s.acceptedThrough ∧
        previous.ballot.epoch < row.ballot.epoch ∧
        (row.entry = previous.entry ∨ s.selectedValue row = true) := by
    intro previous hprev
    rw [Option.mem_def] at hprev
    rw [Memory.replaceable, hprev] at hrep
    refine (need_eq_ok.mp hrep).resolve_left fun h => hnew ?_
    rw [hprev, h]
  refine ⟨fun hrows => ⟨fun _ => ⟨fun _ => ⟨trivial, hballot, .inr ⟨?_, rfl⟩⟩, ?_⟩,
    fun _ => .refl s⟩, fun _ => .refl s⟩
  · exact ⟨hballot, hgap, hsel, hpre, hreplaces, hindex, hrows⟩
  · exact fun _ => (Same.refl s).quarantined

/-- The store after a new proof. -/
def proving (s : Store m) (row : Proof m) (sequence : ℕ) : Store m :=
  { s.changed (fun disk => { disk with
      proofs := disk.proofs ++ [row]
      proved := disk.proved ++ [row] }) with
    proven := s.proven ++ [row]
    applicationSequence := sequence }

/-- What `prove` has checked when it forces a new row. -/
structure Provable (sha : Sha m) (s : Store m) (row : Proof m) : Prop where
  ballot : row.ballot = s.promise
  next : row.index = s.provenThrough + 1 ∧ row.index ≤ s.acceptedThrough
  accepted : s.matchingAcceptance sha row = .ok ()

theorem wp_proveRow {row : Proof m} :
    Wp (proveRow sha limits row) s
      (fun receipt s' =>
        receipt = sha.receipt .proofAck s.node row.ballot row.index (sha.proof row) ∧
        row.ballot = s.promise ∧
        (s' = s ∧ s.baseIndex < row.index ∧ row.index ≤ s.provenThrough ∧
            s.proven[row.index - s.baseIndex - 1]? = some row ∨
          Provable sha s row ∧ ∃ sequence, s.sequenceAfter row = .ok sequence ∧
            s' = s.proving row sequence))
      (fun _ s' => Same s s') := by
  unfold proveRow
  simp only [wp_bind, wp_usable, wp_active, wp_get, wp_need, wp_check, wp_ite, wp_pure,
    wp_force, wp_write, wp_modify]
  refine ⟨fun _ => ⟨fun hballot => ⟨fun hgap => ⟨fun hold => ⟨fun hsame => ⟨fun _ _ =>
    ⟨fun _ => ⟨trivial, hballot, .inl ⟨trivial, hgap.1, hold, hsame⟩⟩, fun h => absurd hold h⟩,
    fun _ _ => .refl s⟩, fun _ => .refl s⟩, fun hnew => ?_⟩, fun _ => .refl s⟩, fun _ => .refl s⟩,
    fun _ => .refl s⟩
  refine ⟨fun _ hmatch => ⟨fun h => absurd h hnew, fun _ => ⟨fun sequence hseq => ⟨fun _ =>
    ⟨fun _ => ⟨trivial, hballot, .inr ⟨?_, sequence, hseq, rfl⟩⟩, ?_⟩, fun _ => .refl s⟩,
    fun _ _ => .refl s⟩⟩, fun _ _ => .refl s⟩
  · exact ⟨hballot, ⟨by omega, hgap.2.1⟩, hmatch⟩
  · exact fun _ => (Same.refl s).quarantined

end

end Store

end GeneralSearch.Replication
