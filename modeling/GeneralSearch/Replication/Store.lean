import GeneralSearch.Replication.Records

/-! `AutomaticStore`: one voter's durable ledgers, what `open` rebuilds from them, and the
operations that extend them.  A ledger is the list of its rows after the header; a `Ref` of the
source, which names a row by its offset, is the row itself. -/

namespace GeneralSearch.Replication

def maxPromises : ℕ := 10000

def maxEntries : ℕ := 1000000

section

variable {D : Type} (m : Manifest D)

/-- What the voter's directory holds: `promises.gsr`, the snapshot and the two journals of the
active generation (no snapshot: the root journals are active), the frozen bases by requester, and
`selected.gsr` with the bases that are its evidence.  Nothing reads the last three fields: they
record every acceptance, proof and basis that was ever forced, also those that a rotation has
dropped. -/
structure Disk where
  promises : List Ballot
  snapshot : Option (Snapshot m)
  accepted : List (Accept D)
  proofs : List (Proof m)
  basis : Node → Option (Basis m)
  selected : Option (Selected D × List (Basis m))
  voted : List (Accept D)
  proved : List (Proof m)
  frozen : List (Basis m)

/-- A row that `force` appends to a ledger. -/
inductive Row where
  | promise (row : Ballot)
  | accept (row : Accept D)
  | proof (row : Proof m)

/-- The byte budgets of `ReplicationBounds`: whether a row fits its frame and what is retained. -/
structure Limits where
  fits : Disk m → Row m → Bool

/-- What the surroundings of a voter decide.  The leftovers in the generation directories: whether
`generationAvailable` finds the other slot free, whether `install` may write it, and whether
`checkpointResumable` holds.  And the `Faults`: how many directory changes succeed before one fails,
which is also how a run stops between two of them. -/
structure Surroundings where
  available : Bool
  installable : Bool
  resumable : Bool
  faults : Option ℕ

/-- The acceptances of one slot in ballot order. -/
structure Slot (D : Type) where
  earlier : List (Accept D)
  latest : Accept D

def Slot.rows {D : Type} (s : Slot D) : List (Accept D) := s.earlier ++ [s.latest]

/-- The fields of `AutomaticStore` that `open` rebuilds from the directory. -/
structure Memory where
  base : Snapshot m
  selected : Option (Selection m)
  grants : List Ballot
  promise : Ballot
  accepted : List (Slot D)
  proven : List (Proof m)
  acceptanceRows : ℕ
  applicationSequence : ℕ

/-- `AutomaticStore`. -/
structure Store extends Memory m where
  node : Node
  disk : Disk m
  around : Surroundings
  failed : Bool

end

section

variable {D : Type} {m : Manifest D}

/-- `genesisSnapshot`. -/
def genesisSnapshot (m : Manifest D) : Snapshot m where
  application := m.application
  applicationSequence := m.baseSequence
  anchors := []
  terminalProof := none
  bounded := Nat.zero_le _
  origins := rfl
  sequence := ⟨rfl, m.counter⟩
  proof := rfl

/-- The directory that the bootstrap leaves. -/
def Disk.genesis (m : Manifest D) : Disk m where
  promises := [Ballot.genesis]
  snapshot := none
  accepted := []
  proofs := []
  basis := fun _ => none
  selected := none
  voted := []
  proved := []
  frozen := []

/-- The acceptance is the newest of its slot, or opens the next one. -/
def pushSlot (slots : List (Slot D)) (position : ℕ) (row : Accept D) : List (Slot D) :=
  if position = slots.length then slots ++ [⟨[], row⟩]
  else slots.modify position fun slot => ⟨slot.rows, row⟩

theorem getElem?_pushSlot {slots : List (Slot D)} {position : ℕ} (row : Accept D)
    (h : position ≤ slots.length) (i : ℕ) :
    (pushSlot slots position row)[i]? = if i = position then
      some ⟨slots[i]?.elim [] Slot.rows, row⟩ else slots[i]? := by
  unfold pushSlot
  by_cases hnext : position = slots.length
  · rw [if_pos hnext, List.getElem?_append]
    by_cases hi : i < slots.length
    · rw [if_pos hi, if_neg (by omega)]
    · have hnone : slots[i]? = none := List.getElem?_eq_none (by omega)
      rw [if_neg hi, hnone, hnext]
      by_cases heq : i = slots.length
      · simp [heq]
      · rw [if_neg heq]
        exact List.getElem?_eq_none (by rw [List.length_singleton]; omega)
  · rw [if_neg hnext, List.getElem?_modify]
    by_cases hi : i = position
    · subst hi
      rw [List.getElem?_eq_getElem (by omega)]
      simp
    · rw [if_neg hi]
      simp [show ¬position = i by omega]

theorem length_pushSlot {slots : List (Slot D)} {position : ℕ} (row : Accept D)
    (h : position ≤ slots.length) :
    (pushSlot slots position row).length = max slots.length (position + 1) := by
  unfold pushSlot
  split
  · rw [List.length_append, List.length_singleton]
    omega
  · rw [List.length_modify]
    omega

namespace Memory

variable (sha : Sha m) (s : Memory m)

def baseIndex : ℕ := s.base.index

def acceptedThrough : ℕ := s.baseIndex + s.accepted.length

def provenThrough : ℕ := s.baseIndex + s.proven.length

/-- The slot of an index above the base. -/
def slot? (index : ℕ) : Option (Slot D) :=
  if index ≤ s.baseIndex then none else s.accepted[index - s.baseIndex - 1]?

/-- `acceptance`: the latest acceptance of a slot. -/
def acceptance (index : ℕ) : Option (Accept D) := (s.slot? index).map (·.latest)

def digestAt (index : ℕ) : Option D :=
  if index ≤ s.baseIndex then Replication.digestAt m s.base.anchors index
  else (s.acceptance index).map fun a => sha.entry a.entry

def epochAt (index : ℕ) : Option ℕ :=
  if index ≤ s.baseIndex then Replication.epochAt s.base.anchors index
  else (s.acceptance index).map fun a => a.entry.originEpoch

/-- The unresolved acceptance above the proven prefix, if there is one. -/
def unresolved : Option (Accept D) :=
  if s.provenThrough < s.acceptedThrough then s.acceptance s.acceptedThrough else none

/-- The acceptance in the slot of its index. -/
def pushAccept (row : Accept D) : Memory m :=
  { s with
    accepted := pushSlot s.accepted (row.entry.index - s.baseIndex - 1) row
    acceptanceRows := s.acceptanceRows + 1 }

@[simp] theorem baseIndex_pushAccept (row : Accept D) : (s.pushAccept row).baseIndex = s.baseIndex :=
  rfl

@[simp] theorem provenThrough_pushAccept (row : Accept D) :
    (s.pushAccept row).provenThrough = s.provenThrough := rfl

section

variable {s}

theorem acceptance_eq_none {index : ℕ} :
    s.acceptance index = none ↔ index ≤ s.baseIndex ∨ s.acceptedThrough < index := by
  unfold acceptance slot? acceptedThrough
  split
  · simp [*]
  · rw [Option.map_eq_none_iff, List.getElem?_eq_none_iff]
    omega

/-- Only the slot of the acceptance changes, and it keeps what it held. -/
theorem slot?_pushAccept {row : Accept D} (hlow : s.baseIndex < row.entry.index)
    (hhigh : row.entry.index ≤ s.acceptedThrough + 1) (index : ℕ) :
    (s.pushAccept row).slot? index = if index = row.entry.index then
      some ⟨(s.slot? index).elim [] Slot.rows, row⟩ else s.slot? index := by
  unfold acceptedThrough at hhigh
  unfold slot?
  rw [baseIndex_pushAccept]
  by_cases hbase : index ≤ s.baseIndex
  · rw [if_pos hbase, if_pos hbase, if_neg (by omega)]
  · rw [if_neg hbase, if_neg hbase]
    show (pushSlot s.accepted (row.entry.index - s.baseIndex - 1) row)[_]? = _
    rw [getElem?_pushSlot row (by omega)]
    by_cases hindex : index = row.entry.index
    · rw [if_pos hindex, if_pos (by omega)]
    · rw [if_neg hindex, if_neg (by omega)]

theorem acceptance_pushAccept {row : Accept D} (hlow : s.baseIndex < row.entry.index)
    (hhigh : row.entry.index ≤ s.acceptedThrough + 1) (index : ℕ) :
    (s.pushAccept row).acceptance index =
      if index = row.entry.index then some row else s.acceptance index := by
  unfold acceptance
  rw [slot?_pushAccept hlow hhigh]
  split <;> rfl

/-- A row above an index leaves the prefix up to it alone. -/
theorem digestAt_pushAccept {row : Accept D} (hlow : s.baseIndex < row.entry.index)
    (hhigh : row.entry.index ≤ s.acceptedThrough + 1) {index : ℕ} (hi : index < row.entry.index) :
    (s.pushAccept row).digestAt sha index = s.digestAt sha index ∧
      (s.pushAccept row).epochAt index = s.epochAt index := by
  have hacc : (s.pushAccept row).acceptance index = s.acceptance index := by
    rw [acceptance_pushAccept hlow hhigh, if_neg (by omega)]
  unfold digestAt epochAt
  rw [hacc]
  exact ⟨rfl, rfl⟩

theorem acceptedThrough_pushAccept {row : Accept D} (hlow : s.baseIndex < row.entry.index)
    (hhigh : row.entry.index ≤ s.acceptedThrough + 1) :
    (s.pushAccept row).acceptedThrough = max s.acceptedThrough row.entry.index := by
  unfold acceptedThrough at hhigh ⊢
  show s.baseIndex + (pushSlot s.accepted (row.entry.index - s.baseIndex - 1) row).length = _
  rw [length_pushSlot row (by omega)]
  omega

end

end Memory

end

section

variable {D : Type} [DecidableEq D] {m : Manifest D}

namespace Memory

variable (sha : Sha m) (s : Memory m)

/-- `selectedValue`. -/
def selectedValue (row : Accept D) : Bool :=
  match s.selected with
  | none => false
  | some selected =>
    decide (selected.record.ballot = row.ballot ∧
      row.entry.index = selected.record.prefixIndex + 1) &&
    match selected.record.nextEntry with
    | none => decide (row.entry.originEpoch = row.ballot.epoch ∧
        row.entry.originIncarnation = row.ballot.incarnation ∧ row.entry.operation = 9)
    | some next => decide (row.entry = next)

def predecessor (entry : Entry D) : Except Failure Unit :=
  need (s.digestAt sha (entry.index - 1) = some entry.previousDigest ∧
    s.epochAt (entry.index - 1) = some entry.previousEpoch) "entry prefix mismatch"

def granted (row : Accept D) : Except Failure Unit :=
  need (s.grants.find? (fun g => g.epoch = row.ballot.epoch) = some row.ballot)
    "acceptance without matching retained promise"

def matchingAcceptance (proof : Proof m) : Except Failure Unit :=
  match s.slot? proof.index with
  | none => throw ⟨.integrityFailure, "proof lacks matching local acceptance"⟩
  | some slot =>
    match slot.rows.find? (fun r => r.ballot.epoch = proof.ballot.epoch) with
    | none => throw ⟨.integrityFailure, "proof lacks matching local acceptance"⟩
    | some row => do
      need (sha.entry row.entry = proof.entryDigest) "proof lacks matching local acceptance"
      need (row.ballot = proof.ballot) "proof ballot mismatch"
      need (sha.entry slot.latest.entry = proof.entryDigest)
        "proof conflicts with latest accepted value"
      need (row.entry.previousDigest = proof.previousDigest) "proof predecessor mismatch"

/-- The application sequence after the entry. -/
def advanceSequence (entry : Entry D) : Except Failure ℕ :=
  if entry.operation ≤ 8 then do
    capacity (s.applicationSequence < maxLong) "application sequence exhausted"
    return s.applicationSequence + 1
  else return s.applicationSequence

/-- The application sequence once the proof of `row` is there. -/
def sequenceAfter (row : Proof m) : Except Failure ℕ :=
  match s.acceptance row.index with
  | none => throw ⟨.integrityFailure, "proof lacks matching local acceptance"⟩
  | some latest => s.advanceSequence latest.entry

/-- What a slot that holds an acceptance takes: the same row again, or the next ballot's vote for
the same entry or for the selected one. -/
def replaceable (row : Accept D) : Except Failure Unit :=
  match s.acceptance row.entry.index with
  | none => return
  | some previous =>
    need (row = previous ∨ row.entry.index = s.provenThrough + 1 ∧
      row.entry.index = s.acceptedThrough ∧ previous.ballot.epoch < row.ballot.epoch ∧
      (row.entry = previous.entry ∨ s.selectedValue row = true))
      "conflicting accepted value; selection recovery required"

/-! ### Reopening -/

/-- Before the first acceptance is read. -/
def empty (base : Snapshot m) (selected : Option (Selection m)) (grants : List Ballot)
    (promise : Ballot) : Memory m where
  base := base
  selected := selected
  grants := grants
  promise := promise
  accepted := []
  proven := []
  acceptanceRows := 0
  applicationSequence := base.applicationSequence

/-- The rows of `promises.gsr`. -/
def loadPromise (grants : List Ballot) (row : Ballot) : Except Failure (List Ballot) := do
  capacity (grants.length < maxPromises) "promise count"
  need ((match grants.getLast? with
    | none => decide (row.epoch = 1)
    | some promise => decide (promise.epoch < row.epoch)) = true) "promise order/duplicate"
  return grants ++ [row]

/-- The row, if it replaces the value of its slot. -/
def replacement (row : Accept D) : List (Accept D) :=
  match s.acceptance row.entry.index with
  | none => []
  | some previous => if sha.entry previous.entry = sha.entry row.entry then [] else [row]

/-- One row of `accepted.gsr`; the second component collects the replacements. -/
def loadAccept (state : Memory m × List (Accept D)) (row : Accept D) :
    Except Failure (Memory m × List (Accept D)) := do
  let (s, replacements) := state
  s.granted row
  capacity (row.entry.index ≤ maxEntries ∧ s.acceptanceRows + 1 ≤ maxEntries + maxPromises)
    "acceptance count"
  need (s.baseIndex < row.entry.index ∧
    (row.entry.index = s.acceptedThrough ∨ row.entry.index = s.acceptedThrough + 1))
    "acceptance slot order"
  s.predecessor sha row.entry
  need (∀ previous ∈ s.acceptance row.entry.index, previous.ballot.epoch < row.ballot.epoch)
    "changed accepted ballot retry"
  return (s.pushAccept row, replacements ++ s.replacement sha row)

/-- One row of `proofs.gsr`. -/
def loadProof (s : Memory m) (row : Proof m) : Except Failure (Memory m) := do
  need (row.index = s.provenThrough + 1 ∧ row.index ≤ s.acceptedThrough) "proof prefix/order"
  s.matchingAcceptance sha row
  let sequence ← s.sequenceAfter row
  return { s with proven := s.proven ++ [row], applicationSequence := sequence }

/-- The unproven latest acceptance that a replacement leaves has to be frozen in the bases of the
selection, or to be its value. -/
def replacementAuthority (row : Accept D) : Except Failure Unit :=
  if row.entry.index ≤ s.provenThrough then pure ()
  else
    match s.acceptance row.entry.index with
    | none => throw ⟨.integrityFailure, "unproven replacement lacks selected authority"⟩
    | some latest =>
      have frozen : Bool := match s.selected with
        | none => false
        | some selected => selected.bases.any fun b => decide (b.image.accepted = some latest)
      need (frozen = true ∨ s.selectedValue latest = true)
        "unproven replacement lacks selected authority"

/-- `load`, over the ledgers of the directory. -/
def load (disk : Disk m) (base : Snapshot m) (selected : Option (Selection m)) :
    Except Failure (Memory m) := do
  let grants ← disk.promises.foldlM loadPromise []
  match grants.getLast? with
  | none => throw ⟨.integrityFailure, "missing genesis promise"⟩
  | some promise =>
    let (s, replacements) ←
      disk.accepted.foldlM (loadAccept sha) (empty base selected grants promise, [])
    let s ← disk.proofs.foldlM (loadProof sha) s
    need (s.accepted.length ≤ s.proven.length + 1) "more than one unresolved accepted slot"
    replacements.forM s.replacementAuthority
    return s

/-- `checkPrefix`. -/
def checkPrefix (snapshot : Snapshot m) (through : ℕ) : Except Failure Unit := do
  need (through ≤ s.provenThrough ∧ through ≤ snapshot.index) "prefix comparison range"
  need (∀ i < through, s.digestAt sha (i + 1) = Replication.digestAt m snapshot.anchors (i + 1) ∧
    s.epochAt (i + 1) = Replication.epochAt snapshot.anchors (i + 1))
    "recovery conflicts with local proven prefix"
  if through = s.baseIndex ∧ through = snapshot.index then agrees s.base snapshot through

/-- `checkRecovery`, without the floor. -/
def checkRecovery : Except Failure Unit := do
  (if s.baseIndex = 0 then agrees s.base (genesisSnapshot m) 0 else return)
  need (∀ p ∈ s.base.terminalProof, p.ballot.epoch ≤ s.promise.epoch)
    "snapshot exceeds retained promise"
  match s.selected with
  | none => return
  | some selected =>
    need (selected.record.ballot.epoch ≤ s.promise.epoch) "selection exceeds root promise"
    s.checkPrefix sha selected.snapshot (min s.provenThrough selected.snapshot.index)

/-- The anchor of a proven entry. -/
def anchor (entry : Entry D) : Anchor D where
  entryDigest := sha.entry entry
  operation := entry.operation
  originEpoch := entry.originEpoch
  originIncarnation := entry.originIncarnation
  payloadDigest := sha.bytes entry.payload

/-- The anchors of the whole proven prefix. -/
def anchors : List (Anchor D) :=
  s.base.anchors ++ (s.accepted.take s.proven.length).map fun slot => anchor sha slot.latest.entry

/-- `AutomaticStore.snapshot`; `encode` refuses what the SNAPSHOT record cannot hold. -/
def snapshot (application : Bytes) : Except Failure (Snapshot m) :=
  if s.provenThrough = s.baseIndex then do
    need (application = s.base.application) "changed checkpoint application at same cut"
    return s.base
  else
    if h : (s.anchors sha).length ≤ 1000000 ∧ ancestry 1 0 (s.anchors sha) = true ∧
        (s.applicationSequence = m.baseSequence + writes (s.anchors sha) ∧
          s.applicationSequence ≤ maxLong) ∧
        terminal m (s.anchors sha) s.proven.getLast? then
      return {
        application
        applicationSequence := s.applicationSequence
        anchors := s.anchors sha
        terminalProof := s.proven.getLast?
        bounded := h.1
        origins := h.2.1
        sequence := h.2.2.1
        proof := h.2.2.2 }
    else throw ⟨.integrityFailure, "snapshot semantics"⟩

end Memory

/-- `AutomaticRecoveryFiles.selection`. -/
def Disk.selection (sha : Sha m) (disk : Disk m) : Except Failure (Option (Selection m)) :=
  match disk.selected with
  | none => return none
  | some (record, evidence) => do
    need (record.bases = evidence.map fun b => (b.node, b.basisId, sha.basis b))
      "selected basis evidence unavailable"
    let computed ← select sha record.ballot evidence
    need (record = computed.record) "selected decision mismatch"
    return some computed

namespace Store

variable (sha : Sha m)

/-- `AutomaticStore.open`. -/
def openStore (node : Node) (disk : Disk m) (around : Surroundings) :
    Except Failure (Store m) := do
  let selected ← disk.selection sha
  let s ← Memory.load sha disk (disk.snapshot.getD (genesisSnapshot m)) selected
  s.checkRecovery sha
  return { s with node, disk, around, failed := false }

/-! ### The operations

An operation that throws keeps what it has changed, as the object of the source does. -/

/-- A computation on the store of a voter. -/
abbrev Exec (m : Manifest D) (α : Type) := EStateM Failure (Store m) α

/-- A check that changes nothing. -/
def check {α : Type} (f : Store m → Except Failure α) : Exec m α := fun s =>
  match f s with
  | .ok a => .ok a s
  | .error e => .error e s

def usable : Exec m Unit := do
  if (← get).failed then
    throw ⟨.storageFailure, "automatic authority quarantined after ambiguous I/O"⟩

/-- `recoveryIo`: an exception quarantines the voter. -/
def recoveryIo {α : Type} (operation : Exec m α) : Exec m α := do
  usable
  tryCatch operation fun e => do
    modify fun s => { s with failed := true }
    throw e

variable (limits : Limits m)

/-- `force` of a new row, before its bytes reach the ledger. -/
def force (row : Row m) : Exec m Unit := do
  capacity (limits.fits (← get).disk row = true) "retained authority capacity"

/-- A change of the directory. -/
def write (change : Disk m → Disk m) : Exec m Unit := do
  match (← get).around.faults with
  | some 0 =>
    modify fun s => { s with failed := true }
    throw ⟨.storageFailure, "ambiguous I/O; voter quarantined"⟩
  | some (n + 1) =>
    modify fun s => { s with disk := change s.disk, around := { s.around with faults := some n } }
  | none => modify fun s => { s with disk := change s.disk }

/-- `active`. -/
def active (ballot : Ballot) : Exec m Unit := do
  unless ballot = (← get).promise do
    throw ⟨.staleEpoch, "record does not match the current promise"⟩

/-- `AutomaticStore.promise`. -/
def promiseRow (row : Ballot) : Exec m Unit := do
  usable
  let s ← get
  if row.epoch < s.promise.epoch then throw ⟨.staleEpoch, "lower promise"⟩
  if row.epoch = s.promise.epoch then
    need (row = s.promise) "changed same-epoch promise"
  else
    capacity (s.grants.length < maxPromises) "promise count exhausted"
    force limits (.promise row)
    write fun disk => { disk with promises := disk.promises ++ [row] }
    modify fun s => { s with grants := s.grants ++ [row], promise := row }

/-- `AutomaticRecoveryFiles.freeze`: the basis of the snapshot and the unresolved acceptance. -/
def freeze (requester : Node) (basisId : ℕ) (image : Snapshot m) : Exec m (Basis m) := do
  let s ← get
  if h : ∀ a ∈ s.unresolved, tail m image.anchors a.entry then
    if h' : ∀ a ∈ s.unresolved, a.ballot.epoch ≤ s.promise.epoch then
      let basis : Basis m := ⟨s.node, s.promise, basisId, ⟨image, s.unresolved, h⟩, h'⟩
      write fun disk => { disk with
        basis := Function.update disk.basis requester basis
        frozen := disk.frozen ++ [basis] }
      return basis
    else throw ⟨.integrityFailure, "basis acceptance exceeds promise"⟩
  else throw ⟨.integrityFailure, "accepted tail does not follow proven prefix"⟩

/-- `AutomaticStore.prepare`. -/
def prepare (grant : Ballot) (requester : Node) (application : Bytes) (basisId : ℕ) :
    Exec m (Basis m) := do
  usable
  need (some requester = grant.proposer) "prepare requester"
  if grant.epoch = (← get).promise.epoch then
    recoveryIo do
      active grant
      match (← get).disk.basis requester with
      | none => throw ⟨.integrityFailure, "missing/nonregular authority file"⟩
      | some basis =>
        need (basis.ballot = (← get).promise) "frozen basis unavailable; use higher ballot"
        return basis
  else
    recoveryIo do
      let image ← check fun s => s.snapshot sha application
      promiseRow limits grant
      freeze requester basisId image

/-- `AutomaticStore.select`. -/
def selectBases (bases : List (Basis m)) : Exec m (Selection m) := recoveryIo do
  let s ← get
  let decision ← check fun s => select sha s.promise bases
  let retry := s.selected.any fun selected => decide (selected.record = decision.record)
  need (retry = true ∨ s.provenThrough ≤ decision.snapshot.index)
    "selection would roll back local proof"
  check fun s => s.checkPrefix sha decision.snapshot (min s.provenThrough decision.snapshot.index)
  let old ← check fun s => s.disk.selection sha
  if old.any fun o => decide (o.record.ballot = decision.record.ballot) then
    need (old.any fun o => decide (o.record = decision.record)) "changed same-ballot selection"
  else
    write fun disk => { disk with selected := some (decision.record, decision.bases) }
  modify fun s => { s with selected := some decision }
  return decision

/-- `AutomaticStore.install`: the journals of the new generation hold the unresolved acceptance
above the cut and nothing else. -/
def install (image : Snapshot m) : Exec m Unit := do
  let s ← get
  need (s.provenThrough ≤ image.index) "snapshot rolls back proven prefix"
  check fun s => s.checkPrefix sha image s.provenThrough
  let kept := if image.index < s.acceptedThrough then s.acceptance s.acceptedThrough else none
  need (∀ a ∈ kept, tail m image.anchors a.entry) "accepted tail does not follow proven prefix"
  need (s.around.installable = true) "inactive generation requires durable floor cleanup"
  write fun disk => { disk with snapshot := some image, accepted := kept.toList, proofs := [] }
  let loaded ← check fun s => Memory.load sha s.disk image s.selected
  modify fun s => { s with toMemory := loaded }
  check fun s => s.checkRecovery sha

/-- `AutomaticStore.installSelected`. -/
def installSelected : Exec m Unit := recoveryIo do
  let s ← get
  match s.selected with
  | none => throw ⟨.integrityFailure, "no current recovery selection"⟩
  | some selected =>
    need (selected.record.ballot = s.promise) "no current recovery selection"
    install sha selected.snapshot

/-- `AutomaticStore.checkpoint`. -/
def checkpoint (application : Bytes) : Exec m Unit := recoveryIo do
  install sha (← check fun s => s.snapshot sha application)

/-- `AutomaticStore.resumeCheckpoint`. -/
def resumeCheckpoint (application : Bytes) : Exec m Unit := recoveryIo do
  let image ← check fun s => s.snapshot sha application
  if (← get).around.resumable then install sha image

/-- `AutomaticStore.generationAvailable`. -/
def generationAvailable (s : Store m) (snapshot : Snapshot m) : Bool :=
  decide (s.base = snapshot) || s.around.available

/-- `AutomaticStore.installProven`. -/
def installProven (snapshot : Snapshot m) : Exec m Unit := do
  usable
  let s ← get
  need (s.provenThrough ≤ snapshot.index) "rejoin cannot roll back proof"
  capacity (s.acceptedThrough ≤ snapshot.index) "rejoin waits for the retained next acceptance"
  need (∀ p ∈ snapshot.terminalProof, p.ballot.epoch ≤ s.promise.epoch)
    "rejoin proof exceeds promise"
  capacity (s.generationAvailable snapshot = true) "rejoin needs two-source retirement first"
  unless s.base = snapshot do
    recoveryIo (install sha snapshot)

/-- `AutomaticStore.accept`, with the receipt it returns. -/
def acceptRow (row : Accept D) : Exec m D := do
  usable
  active row.ballot
  let s ← get
  let index := row.entry.index
  capacity (index ≤ maxEntries) "acceptance bounds"
  need (index = s.provenThrough + 1 ∨ s.baseIndex < index ∧ index ≤ s.provenThrough)
    "acceptance gap"
  need (∀ selected ∈ s.selected, selected.record.ballot = row.ballot →
    index = selected.record.prefixIndex + 1 → s.selectedValue row = true)
    "accept differs from durable selection"
  check fun s => s.predecessor sha row.entry
  check fun s => s.replaceable row
  unless s.acceptance index = some row do
    capacity (s.acceptanceRows < maxEntries + maxPromises) "acceptance rows exhausted"
    force limits (.accept row)
    write fun disk => { disk with
      accepted := disk.accepted ++ [row]
      voted := disk.voted ++ [row] }
    modify fun s => { s with toMemory := s.pushAccept row }
  return sha.receipt .acceptAck s.node row.ballot index (sha.entry row.entry)

/-- `AutomaticStore.prove`, with the receipt it returns. -/
def proveRow (row : Proof m) : Exec m D := do
  usable
  active row.ballot
  let s ← get
  need (s.baseIndex < row.index ∧ row.index ≤ s.acceptedThrough ∧ row.index ≤ s.provenThrough + 1)
    "proof gap"
  if row.index ≤ s.provenThrough then
    need (s.proven[row.index - s.baseIndex - 1]? = some row) "changed proven certificate"
  check fun s => s.matchingAcceptance sha row
  unless row.index ≤ s.provenThrough do
    let sequence ← check fun s => s.sequenceAfter row
    force limits (.proof row)
    write fun disk => { disk with
      proofs := disk.proofs ++ [row]
      proved := disk.proved ++ [row] }
    modify fun s => { s with proven := s.proven ++ [row], applicationSequence := sequence }
  return sha.receipt .proofAck s.node row.ballot row.index (sha.proof row)

end Store

end

end GeneralSearch.Replication
