import GeneralSearch.Durable.Writer
import Mathlib.Algebra.Order.BigOperators.Group.List
import Mathlib.Data.Fintype.EquivFin
import Mathlib.Logic.Relation

/-! The bytes that a storage directory retains.  Commits append on the writer thread while a
checkpoint is published on the checkpoint executor; each of them reads the size of the directory,
decides, and writes afterwards.  A listing of the directory is one step.  A crash may take files away
and cut off the ends of others. -/

namespace GeneralSearch.Durable

/-! ### The directory -/

/-- The engine-owned names of `DurableStorageOwner`; numbers stand for nonces and for the names of
derived files. -/
inductive Member where
  | metadata
  | manifest
  | manifestStaging
  | wal (generation : ℕ)
  | checkpoint (sequence nonce : ℕ)
  | checkpointStaging (sequence nonce : ℕ)
  | derived (file : ℕ)
  | derivedStaging (file : ℕ)
  deriving DecidableEq, Repr

/-- The engine-owned files with their sizes. -/
abbrev Directory := List (Member × ℕ)

/-- `DurableStorageOwner.retainedBytes`. -/
def retainedBytes (directory : Directory) : ℕ := (directory.map Prod.snd).sum

/-- The bytes of one file. -/
def Directory.bytes (directory : Directory) (name : Member) : ℕ :=
  match directory with
  | [] => 0
  | file :: rest => if file.1 = name then file.2 else Directory.bytes rest name

/-- Writes at the end of a file, which is created if it is not there. -/
def Directory.write (name : Member) (bytes : ℕ) : Directory → Directory
  | [] => [(name, bytes)]
  | file :: rest =>
    if file.1 = name then (name, file.2 + bytes) :: rest
    else file :: Directory.write name bytes rest

/-- `Files.deleteIfExists`. -/
def Directory.delete (directory : Directory) (name : Member) : Directory :=
  directory.filter fun file => file.1 ≠ name

/-- An atomic move that replaces what is there. -/
def Directory.move (directory : Directory) (source destination : Member) : Directory :=
  (directory.delete destination).map fun file =>
    if file.1 = source then (destination, file.2) else file

/-- What of the directory a crash leaves. -/
def survives : Directory → Directory → Bool
  | [], _ => true
  | _ :: _, [] => false
  | left :: lefts, file :: files =>
    (left.1 = file.1 && decide (left.2 ≤ file.2) && survives lefts files) ||
      survives (left :: lefts) files

/-- The generation of the log that is open, the last one of the directory. -/
def lastGeneration (directory : Directory) : ℕ :=
  (directory.map fun file => match file.1 with
    | .wal generation => generation
    | _ => 0).foldr max 0

/-! ### The format -/

/-- `DurableFormatContext`, of which only the profile matters for sizes. -/
structure DurableFormatContext where
  hasProfile : Bool
  deriving DecidableEq, Repr

namespace DurableFormatContext

def walHeaderBytes (format : DurableFormatContext) : ℕ := if format.hasProfile then 80 else 48

def checkpointFixedBytes (format : DurableFormatContext) : ℕ := if format.hasProfile then 88 else 56

/-- The length of `encodeManifest`: every name of a checkpoint file has 72 bytes. -/
def manifestBytes (format : DurableFormatContext) : ℕ := if format.hasProfile then 176 else 144

end DurableFormatContext

/-! ### The two threads -/

/-- A checkpoint that is to be published: its file, the bytes of its data, and the generation of
the log that was opened for what follows it. -/
structure Attempt where
  sequence : ℕ
  nonce : ℕ
  dataBytes : ℕ
  generation : ℕ
  deriving DecidableEq, Repr

namespace Attempt

def file (attempt : Attempt) : Member := .checkpoint attempt.sequence attempt.nonce

def staging (attempt : Attempt) : Member := .checkpointStaging attempt.sequence attempt.nonce

/-- The bytes that `DurableCheckpoint.write` gets out within its bound.  The bound leaves room for
the trailer of four bytes, so content that does not fit ends before it. -/
def writable (attempt : Attempt) (available : ℤ) : ℕ :=
  if available ≤ 4 then 0
  else if attempt.dataBytes ≤ available then attempt.dataBytes else (available - 4).toNat

end Attempt

/-- How far `publishCheckpoint` has got. -/
inductive Publication where
  | idle
  /-- the new generation is open -/
  | submitted (attempt : Attempt)
  /-- the budget is read -/
  | budgeted (attempt : Attempt) (available : ℤ)
  /-- the staging file is there -/
  | writing (attempt : Attempt) (available : ℤ) (written : ℕ)
  /-- the data have their name -/
  | renamed (attempt : Attempt)
  /-- the size is checked and the manifest is being written -/
  | describing (attempt : Attempt) (written : ℕ)
  /-- the manifest is replaced -/
  | replaced (attempt : Attempt)
  /-- derived files are being written -/
  | refreshing (left : ℕ)
  deriving DecidableEq, Repr

/-- A store: its files, the bytes of a commit that passed its check and still have to be appended,
and the checkpoint that its manifest names. -/
structure Store where
  members : Directory
  running : Bool
  terminal : Bool
  pending : Option ℕ
  publication : Publication
  authority : Option (ℕ × ℕ)
  deriving DecidableEq, Repr

/-- A store that was just opened. -/
def Store.opened (members : Directory) (authority : Option (ℕ × ℕ)) : Store :=
  ⟨members, true, false, none, .idle, authority⟩

/-- The steps of the writer, of the checkpoint executor and of the environment. -/
inductive Action where
  | commit (units : List PreparedUnit) (liveDocuments : ℕ)
  | append (bytes : ℕ)
  | forced
  | appendFailed
  | cut (sequence nonce dataBytes : ℕ)
  | cutFailed (bytes : ℕ)
  | readBudget
  | createStaging
  | writeData (bytes : ℕ)
  | renameData
  | checkManifest
  | writeManifest (bytes : ℕ)
  | replaceManifest
  | cleanup (name : Member)
  | finish
  | refresh (bytes : ℕ)
  | writeDerived (file bytes : ℕ)
  | renameDerived (file : ℕ)
  | discardDerived (file : ℕ)
  | fail (unexpected : Bool)
  | stop (survivors : Directory)
  | reopen (survivors : Directory)
  deriving DecidableEq, Repr

/-- What `cleanupAfterPublication` deletes unless it is pinned. -/
def obsolete (attempt : Attempt) : Member → Bool
  | .wal generation => generation < attempt.generation
  | .checkpoint sequence nonce => (sequence, nonce) ≠ (attempt.sequence, attempt.nonce)
  | .checkpointStaging .. => true
  | .manifestStaging => true
  | _ => false

/-- The check of `DurableStorageOwner.open`. -/
def openRetained (config : StorageConfig) (members : Directory) :
    Except DurabilityException Unit :=
  if retainedBytes members > config.maxRetainedBytes then
    .error ⟨.capacityExceeded, none, "initialized durable storage exceeds retained-byte limit"⟩
  else .ok ()

section

variable (config : StorageConfig) (format : DurableFormatContext)

/-- `DurableCommitCoordinator.commit` up to the append, and `DurableWal.appendAndForce`. -/
def writerStep (s : Store) : Action → Option Store
  | .commit units liveDocuments =>
    if s.running ∧ s.terminal = false ∧ s.pending = none ∧ units ≠ [] ∧
        exceedsCapacity config units liveDocuments ⟨retainedBytes s.members, false⟩ = false then
      some { s with pending := some (additionalBytes units) }
    else none
  | .append bytes =>
    match s.pending with
    | some left =>
      if s.running ∧ bytes ≤ left then
        some { s with
          members := s.members.write (.wal (lastGeneration s.members)) bytes
          pending := some (left - bytes) }
      else none
    | none => none
  | .forced => if s.running ∧ s.pending = some 0 then some { s with pending := none } else none
  | .appendFailed =>
    if s.running ∧ s.pending.isSome then some { s with pending := none, terminal := true }
    else none
  | .cut sequence nonce dataBytes =>
    if s.running ∧ s.terminal = false ∧ s.pending = none ∧ s.publication = .idle ∧
        retainedBytes s.members + format.walHeaderBytes ≤ config.maxRetainedBytes ∧
        format.checkpointFixedBytes ≤ dataBytes then
      let generation := lastGeneration s.members + 1
      some { s with
        members := s.members.write (.wal generation) format.walHeaderBytes
        publication := .submitted ⟨sequence, nonce, dataBytes, generation⟩ }
    else none
  | .cutFailed bytes =>
    if s.running ∧ s.terminal = false ∧ s.pending = none ∧ s.publication = .idle ∧
        retainedBytes s.members + format.walHeaderBytes ≤ config.maxRetainedBytes ∧
        bytes ≤ format.walHeaderBytes then
      some { s with
        members := s.members.write (.wal (lastGeneration s.members + 1)) bytes
        terminal := true }
    else none
  | _ => none

/-- `DurableStorageOwner.publishCheckpoint`, `cleanupAfterPublication` and
`DurableStructuredDerivedState.refresh`, which also runs when the store is opened. -/
def executorStep (s : Store) (action : Action) : Option Store :=
  match s.publication, action with
  | .submitted attempt, .readBudget =>
    let members := s.members.delete .manifestStaging
    some { s with
      members
      publication := .budgeted attempt
        (config.maxRetainedBytes - retainedBytes members - format.manifestBytes) }
  | .budgeted attempt available, .createStaging =>
    if 4 < available then
      some { s with
        members := s.members.write attempt.staging 0
        publication := .writing attempt available 0 }
    else none
  | .writing attempt available written, .writeData bytes =>
    if written + bytes ≤ attempt.writable available then
      some { s with
        members := s.members.write attempt.staging bytes
        publication := .writing attempt available (written + bytes) }
    else none
  | .writing attempt _ written, .renameData =>
    if written = attempt.dataBytes then
      some { s with
        members := s.members.move attempt.staging attempt.file
        publication := .renamed attempt }
    else none
  | .renamed attempt, .checkManifest =>
    if retainedBytes s.members + format.manifestBytes ≤ config.maxRetainedBytes then
      some { s with publication := .describing attempt 0 }
    else none
  | .describing attempt written, .writeManifest bytes =>
    if written + bytes ≤ format.manifestBytes then
      some { s with
        members := s.members.write .manifestStaging bytes
        publication := .describing attempt (written + bytes) }
    else none
  | .describing attempt written, .replaceManifest =>
    if written = format.manifestBytes then
      some { s with
        members := s.members.move .manifestStaging .manifest
        publication := .replaced attempt
        authority := some (attempt.sequence, attempt.nonce) }
    else none
  | .replaced attempt, .cleanup name =>
    if obsolete attempt name then some { s with members := s.members.delete name } else none
  | .replaced _, .finish => some { s with publication := .idle }
  | .idle, .refresh bytes =>
    if retainedBytes s.members + bytes ≤ config.maxRetainedBytes then
      some { s with publication := .refreshing bytes }
    else none
  | .replaced _, .refresh bytes =>
    if retainedBytes s.members + bytes ≤ config.maxRetainedBytes then
      some { s with publication := .refreshing bytes }
    else none
  | .refreshing left, .writeDerived file bytes =>
    if bytes ≤ left then
      some { s with
        members := s.members.write (.derivedStaging file) bytes
        publication := .refreshing (left - bytes) }
    else none
  | .refreshing _, .renameDerived file =>
    some { s with members := s.members.move (.derivedStaging file) (.derived file) }
  | .refreshing _, .discardDerived file =>
    some { s with members := s.members.delete (.derivedStaging file) }
  | .refreshing _, .finish => some { s with publication := .idle }
  | .idle, .fail _ => none
  | .refreshing _, .fail _ => some { s with publication := .idle }
  | .replaced _, .fail _ => some { s with publication := .idle, terminal := true }
  | _, .fail unexpected =>
    some { s with publication := .idle, terminal := s.terminal || unexpected }
  | _, _ => none

/-- One step of the store.  Closing it is stopping it with nothing lost, and opening it again may
cut off an incomplete end of the log. -/
def Store.step (s : Store) : Action → Option Store
  | .stop survivors =>
    if survives survivors s.members then
      some { s with
        members := survivors, running := false, terminal := false
        pending := none, publication := .idle }
    else none
  | .reopen survivors =>
    if s.running = false ∧ (openRetained config s.members).isOk ∧ survives survivors s.members then
      some (.opened survivors s.authority)
    else none
  | action => if s.running then (writerStep config format s action).orElse
      fun _ => executorStep config format s action else none

def Store.run (s : Store) : List Action → Option Store
  | [] => some s
  | action :: rest => (s.step config format action).bind fun next => Store.run next rest

end

/-! ### Sizes -/

theorem retainedBytes_write (name : Member) (bytes : ℕ) (directory : Directory) :
    retainedBytes (directory.write name bytes) = retainedBytes directory + bytes := by
  induction directory with
  | nil => simp [retainedBytes, Directory.write]
  | cons file rest ih =>
    unfold retainedBytes at *
    rw [Directory.write]
    split
    · simp only [List.map_cons, List.sum_cons]
      omega
    · simp only [List.map_cons, List.sum_cons, ih]
      omega

theorem retainedBytes_delete (directory : Directory) (name : Member) :
    retainedBytes (directory.delete name) ≤ retainedBytes directory :=
  (List.filter_sublist.map Prod.snd).sum_le_sum fun _ _ => Nat.zero_le _

theorem retainedBytes_move (directory : Directory) (source destination : Member) :
    retainedBytes (directory.move source destination) ≤ retainedBytes directory := by
  have hsizes : ∀ files : Directory, (files.map fun file =>
      if file.1 = source then (destination, file.2) else file).map Prod.snd =
        files.map Prod.snd := by
    intro files
    rw [List.map_map]
    refine List.map_congr_left fun file _ => ?_
    rw [Function.comp_apply]
    split <;> rfl
  unfold retainedBytes Directory.move
  rw [hsizes]
  exact retainedBytes_delete directory destination

theorem retainedBytes_survives {survivors directory : Directory}
    (h : survives survivors directory = true) :
    retainedBytes survivors ≤ retainedBytes directory := by
  induction directory generalizing survivors with
  | nil =>
    cases survivors with
    | nil => exact Nat.le_refl _
    | cons left lefts => simp [survives] at h
  | cons file files ih =>
    cases survivors with
    | nil => exact Nat.zero_le _
    | cons left lefts =>
      rw [survives, Bool.or_eq_true] at h
      unfold retainedBytes at *
      rw [List.map_cons (l := files), List.sum_cons]
      rcases h with h | h
      · simp only [Bool.and_eq_true, decide_eq_true_eq] at h
        have := ih h.2
        simp only [List.map_cons, List.sum_cons]
        omega
      · have := ih h
        omega

theorem survives_refl (directory : Directory) : survives directory directory = true := by
  induction directory with
  | nil => rfl
  | cons file rest ih => simp [survives, ih]

/-- The bytes of the files with some names. -/
def Directory.weight (names : Member → Bool) (directory : Directory) : ℕ :=
  retainedBytes (directory.filter fun file => names file.1)

section

variable {directory : Directory} {names names' : Member → Bool}

theorem weight_cons (names : Member → Bool) (file : Member × ℕ) (rest : Directory) :
    Directory.weight names (file :: rest) =
      (if names file.1 then file.2 else 0) + Directory.weight names rest := by
  unfold Directory.weight retainedBytes
  rw [List.filter_cons]
  split <;> simp

theorem weight_mono (h : ∀ file ∈ directory, names file.1 = true → names' file.1 = true) :
    directory.weight names ≤ directory.weight names' := by
  induction directory with
  | nil => exact Nat.le_refl _
  | cons file rest ih =>
    obtain ⟨hfile, hrest⟩ := List.forall_mem_cons.mp h
    have := ih hrest
    rw [weight_cons, weight_cons]
    by_cases hnames : names file.1 = true
    · rw [if_pos hnames, if_pos (hfile hnames)]
      omega
    · rw [if_neg hnames]
      omega

theorem weight_congr (h : ∀ file ∈ directory, names file.1 = names' file.1) :
    directory.weight names = directory.weight names' := by
  unfold Directory.weight
  rw [List.filter_congr h]

theorem weight_none (h : ∀ file ∈ directory, names file.1 = false) : directory.weight names = 0 := by
  rw [Directory.weight, List.filter_eq_nil_iff.mpr fun file hfile => by simp [h file hfile]]
  rfl

theorem weight_write (names : Member → Bool) (name : Member) (bytes : ℕ) (directory : Directory) :
    (directory.write name bytes).weight names =
      directory.weight names + if names name then bytes else 0 := by
  induction directory with
  | nil => exact (weight_cons names (name, bytes) []).trans (Nat.add_comm ..)
  | cons file rest ih =>
    rw [Directory.write]
    split
    · next heq =>
      rw [weight_cons, weight_cons, heq]
      split <;> omega
    · rw [weight_cons, weight_cons, ih]
      omega

theorem weight_filter (names kept : Member → Bool) (directory : Directory) :
    Directory.weight names (directory.filter fun file => kept file.1) =
      directory.weight fun name => kept name && names name := by
  rw [Directory.weight, Directory.weight, List.filter_filter]
  congr 1
  exact List.filter_congr fun file _ => Bool.and_comm ..

theorem weight_delete (names : Member → Bool) (name : Member) (directory : Directory) :
    (directory.delete name).weight names =
      directory.weight fun other => decide (other ≠ name) && names other :=
  weight_filter names (fun other => decide (other ≠ name)) directory

/-- A move takes the source's bytes to the destination and drops those that were there. -/
theorem weight_move (names : Member → Bool) (directory : Directory) (source destination : Member) :
    (directory.move source destination).weight names = directory.weight fun name =>
      decide (name ≠ destination) && if name = source then names destination else names name := by
  rw [Directory.move]
  refine Eq.trans ?_ (weight_delete _ destination directory)
  generalize directory.delete destination = files
  induction files with
  | nil => rfl
  | cons file rest ih =>
    rw [List.map_cons, weight_cons, weight_cons, ih]
    by_cases hsource : file.1 = source <;> simp [hsource]

end

/-! ### What was promised -/

section

variable (config : StorageConfig) (format : DurableFormatContext)

/-- The bytes that the executor may still write without another check. -/
def Publication.left : Publication → ℕ
  | .budgeted attempt available => attempt.writable available
  | .writing attempt available written => attempt.writable available - written
  | .describing _ written => format.manifestBytes - written
  | .refreshing left => left
  | _ => 0

/-- The checkpoint of a publication whose manifest is not replaced. -/
def Publication.attempt : Publication → Option Attempt
  | .submitted attempt => some attempt
  | .budgeted attempt _ => some attempt
  | .writing attempt _ _ => some attempt
  | .renamed attempt => some attempt
  | .describing attempt _ => some attempt
  | _ => none

/-- What the directory has and what both threads may still write. -/
def Store.promised (s : Store) : ℕ :=
  retainedBytes s.members + s.pending.getD 0 + s.publication.left format

/-- A file that a publication left without being finished. -/
def leftover (authority : Option (ℕ × ℕ)) : Member → Bool
  | .checkpoint sequence nonce => some (sequence, nonce) ≠ authority
  | .checkpointStaging .. => true
  | .manifestStaging => true
  | _ => false

/-- The bytes of the store without what publications left. -/
def Store.settled (s : Store) : ℕ :=
  retainedBytes (s.members.filter fun file => !leftover s.authority file.1)

/-- There is room for another checkpoint of the same size beside `bytes`. -/
def roomFor (s : Store) (attempt : Attempt) (bytes : ℕ) : Prop :=
  bytes + s.pending.getD 0 + format.walHeaderBytes + attempt.dataBytes + format.manifestBytes ≤
    config.maxRetainedBytes

/-- The checks look at the files only.  A step fits if what it admits also fits beside what the
other thread may still write. -/
def Store.Fits (s : Store) : Action → Prop
  | .commit units _ => s.promised format + additionalBytes units ≤ config.maxRetainedBytes
  | .readBudget => ∀ attempt, s.publication = .submitted attempt →
      let retained := retainedBytes (s.members.delete .manifestStaging)
      retained + s.pending.getD 0 + attempt.writable
        (config.maxRetainedBytes - retained - format.manifestBytes) ≤ config.maxRetainedBytes
  | .checkManifest => s.promised format + format.manifestBytes ≤ config.maxRetainedBytes
  | .refresh bytes => s.promised format + bytes ≤ config.maxRetainedBytes
  | _ => True

/-- Checkpoints that failed left nothing, or another one of the same size has room beside all that
is there. -/
def Store.Recovers (s : Store) (attempt : Attempt) : Prop :=
  retainedBytes s.members = s.settled ∨ roomFor config format s attempt (retainedBytes s.members)

/-- What it takes to get rid of what failed checkpoints left: another checkpoint, if there is
anything. -/
def Store.clearing (s : Store) (attempt : Attempt) : ℕ :=
  if retainedBytes s.members = s.settled then 0
  else format.walHeaderBytes + attempt.dataBytes + format.manifestBytes

/-- A step of the store. -/
def Steps (s s' : Store) : Prop := ∃ action, s.step config format action = some s'

/-- A step that fits. -/
def FittingSteps (s s' : Store) : Prop :=
  ∃ action, s.Fits config format action ∧ s.step config format action = some s'

/-- What holds in every state of a run whose steps fit. -/
structure Store.Within (s : Store) : Prop where
  promised : s.promised format ≤ config.maxRetainedBytes
  data : ∀ attempt, s.publication.attempt = some attempt →
    format.checkpointFixedBytes ≤ attempt.dataBytes

end

section

variable {config : StorageConfig} {format : DurableFormatContext} {s s' : Store} {action : Action}

attribute [local simp] Store.step writerStep executorStep

/-- The writer keeps the promises. -/
theorem writerStep_within (h : writerStep config format s action = some s')
    (hfits : s.Fits config format action) (hs : s.Within config format) :
    s'.Within config format := by
  obtain ⟨hpromised, hdata⟩ := hs
  unfold Store.promised at hpromised
  cases action with
  | commit units liveDocuments =>
    simp only [writerStep, Option.ite_none_right_eq_some, Option.some.injEq] at h
    obtain ⟨⟨-, -, hpending, -⟩, rfl⟩ := h
    simp only [Store.Fits, Store.promised, hpending, Option.getD_none] at hfits
    refine ⟨?_, hdata⟩
    simp only [Store.promised, Option.getD_some]
    omega
  | append bytes =>
    unfold writerStep at h
    cases hpending : s.pending with
    | none => simp [hpending] at h
    | some left =>
      simp only [hpending, Option.ite_none_right_eq_some, Option.some.injEq] at h
      obtain ⟨⟨-, hle⟩, rfl⟩ := h
      rw [hpending, Option.getD_some] at hpromised
      refine ⟨?_, hdata⟩
      simp only [Store.promised, retainedBytes_write, Option.getD_some]
      omega
  | forced =>
    simp only [writerStep, Option.ite_none_right_eq_some, Option.some.injEq] at h
    obtain ⟨⟨-, hpending⟩, rfl⟩ := h
    rw [hpending, Option.getD_some] at hpromised
    exact ⟨hpromised, hdata⟩
  | appendFailed =>
    simp only [writerStep, Option.ite_none_right_eq_some, Option.some.injEq] at h
    obtain ⟨-, rfl⟩ := h
    refine ⟨?_, hdata⟩
    simp only [Store.promised, Option.getD_none]
    omega
  | cut sequence nonce dataBytes =>
    simp only [writerStep, Option.ite_none_right_eq_some, Option.some.injEq] at h
    obtain ⟨⟨-, -, hpending, -, hroom, hfixed⟩, rfl⟩ := h
    refine ⟨?_, fun attempt hattempt => ?_⟩
    · simp only [Store.promised, retainedBytes_write, hpending, Option.getD_none,
        Publication.left]
      omega
    · simp only [Publication.attempt, Option.some.injEq] at hattempt
      subst hattempt
      exact hfixed
  | cutFailed bytes =>
    simp only [writerStep, Option.ite_none_right_eq_some, Option.some.injEq] at h
    obtain ⟨⟨-, -, hpending, hidle, hroom, hbytes⟩, rfl⟩ := h
    refine ⟨?_, hdata⟩
    simp only [Store.promised, retainedBytes_write, hpending, Option.getD_none, hidle,
      Publication.left]
    omega
  | _ => cases h

/-- The executor keeps the promises. -/
theorem executorStep_within (h : executorStep config format s action = some s')
    (hfits : s.Fits config format action) (hs : s.Within config format) :
    s'.Within config format := by
  obtain ⟨hpromised, hdata⟩ := hs
  unfold Store.promised at hpromised
  have hdelete := fun name => retainedBytes_delete s.members name
  have hmove := fun source destination => retainedBytes_move s.members source destination
  unfold executorStep at h
  split at h <;> rename_i hpublication <;>
    simp only [hpublication, Publication.left, Publication.attempt] at hpromised hdata
  · -- The budget is what is not retained, without the manifest.
    rename_i attempt
    cases h
    exact ⟨hfits attempt hpublication, hdata⟩
  · rename_i attempt available
    simp only [Option.ite_none_right_eq_some, Option.some.injEq] at h
    obtain ⟨-, rfl⟩ := h
    refine ⟨?_, hdata⟩
    simp only [Store.promised, retainedBytes_write, Publication.left]
    omega
  · rename_i attempt available written bytes
    simp only [Option.ite_none_right_eq_some, Option.some.injEq] at h
    obtain ⟨hle, rfl⟩ := h
    refine ⟨?_, hdata⟩
    simp only [Store.promised, retainedBytes_write, Publication.left]
    omega
  · rename_i attempt available written
    simp only [Option.ite_none_right_eq_some, Option.some.injEq] at h
    obtain ⟨-, rfl⟩ := h
    have := hmove attempt.staging attempt.file
    refine ⟨?_, hdata⟩
    simp only [Store.promised, Publication.left]
    omega
  · rename_i attempt
    simp only [Option.ite_none_right_eq_some, Option.some.injEq] at h
    obtain ⟨-, rfl⟩ := h
    simp only [Store.Fits, Store.promised, hpublication, Publication.left] at hfits
    refine ⟨?_, hdata⟩
    simp only [Store.promised, Publication.left]
    omega
  · rename_i attempt written bytes
    simp only [Option.ite_none_right_eq_some, Option.some.injEq] at h
    obtain ⟨hle, rfl⟩ := h
    refine ⟨?_, hdata⟩
    simp only [Store.promised, retainedBytes_write, Publication.left]
    omega
  · rename_i attempt written
    simp only [Option.ite_none_right_eq_some, Option.some.injEq] at h
    obtain ⟨-, rfl⟩ := h
    have := hmove .manifestStaging .manifest
    refine ⟨?_, nofun⟩
    simp only [Store.promised, Publication.left]
    omega
  · rename_i attempt name
    simp only [Option.ite_none_right_eq_some, Option.some.injEq] at h
    obtain ⟨-, rfl⟩ := h
    have := hdelete name
    refine ⟨?_, by rw [hpublication]; nofun⟩
    simp only [Store.promised, hpublication, Publication.left]
    omega
  · cases h
    exact ⟨hpromised, nofun⟩
  · rename_i bytes
    simp only [Option.ite_none_right_eq_some, Option.some.injEq] at h
    obtain ⟨-, rfl⟩ := h
    simp only [Store.Fits, Store.promised, hpublication, Publication.left] at hfits
    refine ⟨?_, nofun⟩
    simp only [Store.promised, Publication.left]
    omega
  · rename_i attempt bytes
    simp only [Option.ite_none_right_eq_some, Option.some.injEq] at h
    obtain ⟨-, rfl⟩ := h
    simp only [Store.Fits, Store.promised, hpublication, Publication.left] at hfits
    refine ⟨?_, nofun⟩
    simp only [Store.promised, Publication.left]
    omega
  · rename_i left file bytes
    simp only [Option.ite_none_right_eq_some, Option.some.injEq] at h
    obtain ⟨hle, rfl⟩ := h
    refine ⟨?_, nofun⟩
    simp only [Store.promised, retainedBytes_write, Publication.left]
    omega
  · rename_i left file
    cases h
    have := hmove (.derivedStaging file) (.derived file)
    refine ⟨?_, by rw [hpublication]; nofun⟩
    simp only [Store.promised, hpublication, Publication.left]
    omega
  · rename_i left file
    cases h
    have := hdelete (.derivedStaging file)
    refine ⟨?_, by rw [hpublication]; nofun⟩
    simp only [Store.promised, hpublication, Publication.left]
    omega
  · cases h
    refine ⟨?_, nofun⟩
    simp only [Store.promised, Publication.left]
    omega
  · cases h
  · cases h
    refine ⟨?_, nofun⟩
    simp only [Store.promised, Publication.left]
    omega
  · cases h
    exact ⟨hpromised, nofun⟩
  · cases h
    refine ⟨?_, nofun⟩
    simp only [Store.promised, Publication.left]
    omega
  · cases h

theorem step_within (h : s.step config format action = some s')
    (hfits : s.Fits config format action) (hs : s.Within config format) :
    s'.Within config format := by
  have hretained : retainedBytes s.members ≤ config.maxRetainedBytes := by
    have := hs.promised
    unfold Store.promised at this
    omega
  unfold Store.step at h
  split at h
  · simp only [Option.ite_none_right_eq_some, Option.some.injEq] at h
    obtain ⟨hsurvives, rfl⟩ := h
    have := retainedBytes_survives hsurvives
    refine ⟨?_, nofun⟩
    simp only [Store.promised, Publication.left, Option.getD_none]
    omega
  · simp only [Option.ite_none_right_eq_some, Option.some.injEq] at h
    obtain ⟨⟨-, -, hsurvives⟩, rfl⟩ := h
    have := retainedBytes_survives hsurvives
    refine ⟨?_, nofun⟩
    simp only [Store.promised, Store.opened, Publication.left, Option.getD_none]
    omega
  · simp only [Option.ite_none_right_eq_some] at h
    obtain ⟨-, h⟩ := h
    cases hwriter : writerStep config format s action with
    | none =>
      rw [hwriter] at h
      exact executorStep_within h hfits hs
    | some next =>
      rw [hwriter] at h
      cases h
      exact writerStep_within hwriter hfits hs

/-- A run whose steps fit stays within the budget. -/
theorem run_within (h : Relation.ReflTransGen (FittingSteps config format) s s')
    (hs : s.Within config format) : s'.Within config format := by
  induction h with
  | refl => exact hs
  | tail _ hstep ih =>
    obtain ⟨action, hfits, hstep⟩ := hstep
    exact step_within hstep hfits ih

/-! ### Another try -/

variable (config format) in
/-- The states that a store can come to. -/
abbrev Reaches : Store → Store → Prop := Relation.ReflTransGen (Steps config format)

theorem reaches_run {actions : List Action} (h : s.run config format actions = some s') :
    Reaches config format s s' := by
  induction actions generalizing s with
  | nil =>
    cases h
    exact .refl
  | cons action rest ih =>
    obtain ⟨next, hnext, h⟩ := Option.bind_eq_some_iff.mp h
    exact .head ⟨action, hnext⟩ (ih h)

/-- Stopping and opening lose nothing. -/
def Store.Keeps (s : Store) : Action → Prop
  | .stop survivors => survivors = s.members
  | .reopen survivors => survivors = s.members
  | _ => True

variable (config format) in
/-- The states that a store can come to without a loss. -/
abbrev Continues : Store → Store → Prop :=
  Relation.ReflTransGen fun s s' => ∃ action, s.Keeps action ∧ s.step config format action = some s'

theorem Continues.reaches (h : Continues config format s s') : Reaches config format s s' :=
  h.lift id fun _ _ ⟨action, _, hstep⟩ => ⟨action, hstep⟩

/-- Nothing is going on. -/
structure Store.Quiet (s : Store) : Prop where
  running : s.running = true
  terminal : s.terminal = false
  pending : s.pending = none
  idle : s.publication = .idle

/-- The names of a checkpoint are in nobody's use. -/
def Directory.Unused (directory : Directory) (sequence nonce : ℕ) : Prop :=
  ∀ file ∈ directory, file.1 ≠ .checkpoint sequence nonce ∧
    file.1 ≠ .checkpointStaging sequence nonce

/-- The files once the writer has finished its commit. -/
def Store.finished (s : Store) : Directory :=
  match s.pending with
  | none => s.members
  | some left => s.members.write (.wal (lastGeneration s.members)) left

theorem weight_finished (s : Store) (names : Member → Bool) :
    s.finished.weight names ≤ s.members.weight names + s.pending.getD 0 := by
  unfold Store.finished
  cases s.pending with
  | none => exact Nat.le_refl _
  | some left =>
    rw [weight_write, Option.getD_some]
    split <;> omega

theorem retainedBytes_finished (s : Store) :
    retainedBytes s.finished = retainedBytes s.members + s.pending.getD 0 := by
  unfold Store.finished
  cases s.pending with
  | none => rfl
  | some left => exact retainedBytes_write ..

theorem mem_write {file : Member × ℕ} {name : Member} {bytes : ℕ} {directory : Directory}
    (h : file ∈ directory.write name bytes) : file.1 = name ∨ file ∈ directory := by
  induction directory with
  | nil =>
    rw [Directory.write, List.mem_singleton] at h
    exact .inl (congrArg Prod.fst h)
  | cons other rest ih =>
    rw [Directory.write] at h
    split at h <;> rcases List.mem_cons.mp h with rfl | h
    · exact .inl rfl
    · exact .inr (List.mem_cons_of_mem _ h)
    · exact .inr List.mem_cons_self
    · exact (ih h).imp_right (List.mem_cons_of_mem _)

theorem Directory.Unused.finished {sequence nonce : ℕ} (h : s.members.Unused sequence nonce) :
    s.finished.Unused sequence nonce := by
  unfold Store.finished
  cases s.pending with
  | none => exact h
  | some left =>
    intro file hfile
    rcases mem_write hfile with hname | hfile
    · rw [hname]
      exact ⟨nofun, nofun⟩
    · exact h file hfile

variable (config format) in
/-- The writer finishes its commit. -/
theorem reaches_committed (hrunning : s.running = true) :
    Continues config format s { s with members := s.finished, pending := none } := by
  unfold Store.finished
  cases hpending : s.pending with
  | none =>
    rw [show ({ s with members := s.members, pending := none } : Store) = s by rw [← hpending]]
  | some left =>
    let members := s.members.write (.wal (lastGeneration s.members)) left
    have happend : s.step config format (.append left) =
        some { s with members, pending := some 0 } := by
      simp [hrunning, hpending, members]
    have hforced : Store.step config format { s with members, pending := some 0 } .forced =
        some { s with members, pending := none } := by
      simp [hrunning]
    exact .tail (.single ⟨.append left, trivial, happend⟩) ⟨.forced, trivial, hforced⟩

variable (config format) in
/-- A store that has failed is opened again. -/
theorem reaches_quiet (hrunning : s.running = true) (hidle : s.publication = .idle)
    (hroom : retainedBytes s.members + s.pending.getD 0 ≤ config.maxRetainedBytes) :
    ∃ s', Continues config format s s' ∧ s'.Quiet ∧ s'.authority = s.authority ∧
      s'.members = s.finished := by
  have hcommitted := reaches_committed config format hrunning
  cases hterminal : s.terminal with
  | false => exact ⟨_, hcommitted, ⟨hrunning, hterminal, rfl, hidle⟩, rfl, rfl⟩
  | true =>
    have hstop : Store.step config format { s with members := s.finished, pending := none }
        (.stop s.finished) = some ⟨s.finished, false, false, none, .idle, s.authority⟩ := by
      simp [survives_refl]
    have hopen : Store.step config format ⟨s.finished, false, false, none, .idle, s.authority⟩
        (.reopen s.finished) = some (.opened s.finished s.authority) := by
      have hle : ¬ config.maxRetainedBytes < retainedBytes s.finished := by
        rw [retainedBytes_finished]
        omega
      simp [survives_refl, openRetained, hle, Except.isOk, Except.toBool]
    exact ⟨_, (hcommitted.tail ⟨.stop s.finished, rfl, hstop⟩).tail ⟨.reopen s.finished, rfl, hopen⟩,
      ⟨rfl, rfl, rfl, rfl⟩, rfl, rfl⟩

/-- The files of a checkpoint of some size once its manifest is replaced. -/
def Attempt.publish (attempt : Attempt) (format : DurableFormatContext) (members : Directory) :
    Directory :=
  let cleared := (members.write (.wal attempt.generation) format.walHeaderBytes).delete .manifestStaging
  let staged := (cleared.write attempt.staging 0).write attempt.staging attempt.dataBytes
  let described := (staged.move attempt.staging attempt.file).write .manifestStaging
    format.manifestBytes
  described.move .manifestStaging .manifest

variable (config format) in
/-- A checkpoint that fits is published. -/
theorem reaches_replaced (hs : s.Quiet) {attempt : Attempt}
    (hgeneration : attempt.generation = lastGeneration s.members + 1)
    (hfixed : format.checkpointFixedBytes ≤ attempt.dataBytes)
    (hroom : retainedBytes s.members + format.walHeaderBytes + attempt.dataBytes +
      format.manifestBytes ≤ config.maxRetainedBytes) :
    Continues config format s ⟨attempt.publish format s.members, true, false, none,
      .replaced attempt, some (attempt.sequence, attempt.nonce)⟩ := by
  obtain ⟨hrunning, hterminal, hpending, hidle⟩ := hs
  let opened := s.members.write (.wal attempt.generation) format.walHeaderBytes
  let cleared := opened.delete .manifestStaging
  let available : ℤ := config.maxRetainedBytes - retainedBytes cleared - format.manifestBytes
  let staged := (cleared.write attempt.staging 0).write attempt.staging attempt.dataBytes
  let renamed := staged.move attempt.staging attempt.file
  let described := renamed.write .manifestStaging format.manifestBytes
  have hcleared : retainedBytes cleared ≤ retainedBytes s.members + format.walHeaderBytes :=
    (retainedBytes_delete ..).trans (retainedBytes_write ..).le
  have hrenamed : retainedBytes renamed ≤ retainedBytes cleared + attempt.dataBytes := by
    refine (retainedBytes_move ..).trans ?_
    rw [retainedBytes_write, retainedBytes_write, Nat.add_zero]
  have hlarge : 56 ≤ attempt.dataBytes := by
    refine le_trans ?_ hfixed
    unfold DurableFormatContext.checkpointFixedBytes
    split <;> omega
  have havailable : (attempt.dataBytes : ℤ) ≤ available := by
    simp only [available]
    omega
  have hwritable : attempt.writable available = attempt.dataBytes := by
    unfold Attempt.writable
    rw [if_neg (by omega), if_pos havailable]
  let at_ (members : Directory) (publication : Publication) : Store :=
    ⟨members, true, false, none, publication, s.authority⟩
  have hcut : s.step config format (.cut attempt.sequence attempt.nonce attempt.dataBytes) =
      some (at_ opened (.submitted attempt)) := by
    have hle : retainedBytes s.members + format.walHeaderBytes ≤ config.maxRetainedBytes := by omega
    simp [hrunning, hterminal, hpending, hidle, hle, hfixed, at_, opened, ← hgeneration]
  have hbudget : (at_ opened (.submitted attempt)).step config format .readBudget =
      some (at_ cleared (.budgeted attempt available)) := rfl
  have hcreate : (at_ cleared (.budgeted attempt available)).step config format .createStaging =
      some (at_ (cleared.write attempt.staging 0) (.writing attempt available 0)) := by
    have hlt : 4 < available := by omega
    simp [at_, hlt]
  have hwrite : (at_ (cleared.write attempt.staging 0) (.writing attempt available 0)).step config
      format (.writeData attempt.dataBytes) =
      some (at_ staged (.writing attempt available attempt.dataBytes)) := by
    simp [at_, hwritable, staged]
  have hrename : (at_ staged (.writing attempt available attempt.dataBytes)).step config format
      .renameData = some (at_ renamed (.renamed attempt)) := by
    simp [at_, renamed]
  have hcheck : (at_ renamed (.renamed attempt)).step config format .checkManifest =
      some (at_ renamed (.describing attempt 0)) := by
    have hle : retainedBytes renamed + format.manifestBytes ≤ config.maxRetainedBytes := by omega
    simp [at_, hle]
  have hdescribe : (at_ renamed (.describing attempt 0)).step config format
      (.writeManifest format.manifestBytes) =
      some (at_ described (.describing attempt format.manifestBytes)) := by
    simp [at_, described]
  have hreplace : (at_ described (.describing attempt format.manifestBytes)).step config format
      .replaceManifest = some ⟨described.move .manifestStaging .manifest, true, false, none,
        .replaced attempt, some (attempt.sequence, attempt.nonce)⟩ := by
    simp [at_]
  refine .head ⟨.cut attempt.sequence attempt.nonce attempt.dataBytes, trivial, hcut⟩
    (.head ⟨.readBudget, trivial, hbudget⟩ (.head ⟨.createStaging, trivial, hcreate⟩ ?_))
  refine .head ⟨.writeData attempt.dataBytes, trivial, hwrite⟩
    (.head ⟨.renameData, trivial, hrename⟩ (.head ⟨.checkManifest, trivial, hcheck⟩ ?_))
  exact .head ⟨.writeManifest format.manifestBytes, trivial, hdescribe⟩
    (.single ⟨.replaceManifest, trivial, hreplace⟩)

variable (config format) in
/-- Behind a publication everything obsolete can be deleted. -/
theorem reaches_cleaned (attempt : Attempt) (authority : Option (ℕ × ℕ)) (names : List Member)
    (members : Directory) :
    Continues config format ⟨members, true, false, none, .replaced attempt, authority⟩
      ⟨members.filter fun file => !(decide (file.1 ∈ names) && obsolete attempt file.1), true, false,
        none, .replaced attempt, authority⟩ := by
  induction names generalizing members with
  | nil =>
    simp only [List.not_mem_nil, decide_false, Bool.false_and, Bool.not_false, List.filter_true]
    exact .refl
  | cons name names ih =>
    cases hobsolete : obsolete attempt name with
    | false =>
      refine cast ?_ (ih members)
      congr 2
      refine List.filter_congr fun file _ => ?_
      by_cases hname : file.1 = name
      · simp [hname, hobsolete]
      · simp [hname]
    | true =>
      have hstep : Store.step config format
          ⟨members, true, false, none, .replaced attempt, authority⟩ (.cleanup name) =
          some ⟨members.delete name, true, false, none, .replaced attempt, authority⟩ := by
        simp [hobsolete]
      refine .head ⟨.cleanup name, trivial, hstep⟩ (cast ?_ (ih (members.delete name)))
      congr 2
      rw [Directory.delete, List.filter_filter]
      refine List.filter_congr fun file _ => ?_
      by_cases hname : file.1 = name
      · simp [hname, hobsolete]
      · simp [hname]

theorem obsolete_of_leftover {attempt : Attempt} {name : Member}
    (h : leftover (some (attempt.sequence, attempt.nonce)) name = true) :
    obsolete attempt name = true := by
  cases name <;> simp_all [leftover, obsolete]

/-- What a checkpoint adds, and what it replaces or moves away. -/
theorem weight_publish {attempt : Attempt} {members : Directory} (names : Member → Bool)
    (hunused : members.Unused attempt.sequence attempt.nonce) :
    (attempt.publish format members).weight names =
      members.weight (fun name => decide (name ≠ .manifestStaging ∧ name ≠ .manifest) && names name) +
      (if names (.wal attempt.generation) then format.walHeaderBytes else 0) +
      (if names attempt.file then attempt.dataBytes else 0) +
      if names .manifest then format.manifestBytes else 0 := by
  have hmoves : (attempt.publish format members).weight names =
      members.weight (fun name => decide (name ≠ .manifestStaging) &&
        (decide (name ≠ attempt.file) && if name = attempt.staging then names attempt.file
          else decide (name ≠ .manifest) &&
            if name = .manifestStaging then names .manifest else names name)) +
      (if names (.wal attempt.generation) then format.walHeaderBytes else 0) +
      (if names attempt.file then attempt.dataBytes else 0) +
      if names .manifest then format.manifestBytes else 0 := by
    unfold Attempt.publish Attempt.file Attempt.staging
    simp [weight_move, weight_write, weight_delete]
  rw [hmoves]
  congr 3
  refine weight_congr fun file hfile => ?_
  obtain ⟨hother, hstaging⟩ := hunused file hfile
  rw [decide_eq_true (show file.1 ≠ attempt.file from hother), Bool.true_and,
    if_neg (show ¬file.1 = attempt.staging from hstaging)]
  by_cases hmanifest : file.1 = .manifestStaging <;> simp [hmanifest]

theorem obsolete_file (attempt : Attempt) : obsolete attempt attempt.file = false := by
  simp [obsolete, Attempt.file]

/-- The files behind a publication. -/
def Attempt.cleaned (attempt : Attempt) (format : DurableFormatContext) (members : Directory) :
    Directory :=
  (attempt.publish format members).filter fun file => !obsolete attempt file.1

/-- What stays behind a publication was there and was not left over, or belongs to it. -/
theorem retainedBytes_cleaned {attempt : Attempt} {members : Directory}
    (hunused : members.Unused attempt.sequence attempt.nonce) (authority : Option (ℕ × ℕ)) :
    retainedBytes (attempt.cleaned format members) ≤
      members.weight (fun name => !leftover authority name) + format.walHeaderBytes +
        attempt.dataBytes + format.manifestBytes := by
  show (attempt.publish format members).weight (fun name => !obsolete attempt name) ≤ _
  rw [weight_publish _ hunused]
  have hkept : members.weight (fun name =>
      decide (name ≠ .manifestStaging ∧ name ≠ .manifest) && !obsolete attempt name) ≤
      members.weight fun name => !leftover authority name := by
    refine weight_mono fun file hfile hkept => ?_
    obtain ⟨hother, -⟩ := hunused file hfile
    revert hkept hother
    cases file.1 with
    | checkpoint sequence nonce =>
      intro hkept hother
      simp only [obsolete, ne_eq, Member.checkpoint.injEq, Prod.mk.injEq, Bool.and_eq_true,
        Bool.not_eq_true', decide_eq_false_iff_not, not_not] at hkept hother
      exact absurd hkept.2 hother
    | _ => simp [leftover, obsolete]
  split_ifs <;> omega

/-- Its data are there. -/
theorem weight_cleaned {attempt : Attempt} {members : Directory}
    (hunused : members.Unused attempt.sequence attempt.nonce) :
    (attempt.cleaned format members).weight (fun name => decide (name = attempt.file)) =
      attempt.dataBytes := by
  have hkept : (attempt.publish format members).weight (fun name =>
      !obsolete attempt name && decide (name = attempt.file)) =
      (attempt.publish format members).weight fun name => decide (name = attempt.file) := by
    refine weight_congr fun file _ => ?_
    by_cases hname : file.1 = attempt.file
    · rw [hname, obsolete_file, Bool.not_false, Bool.true_and]
    · rw [decide_eq_false hname, Bool.and_false]
  have hothers : members.weight (fun name =>
      decide (name ≠ .manifestStaging ∧ name ≠ .manifest) && decide (name = attempt.file)) = 0 := by
    refine weight_none fun file hfile => ?_
    rw [decide_eq_false (show ¬file.1 = attempt.file from (hunused file hfile).1), Bool.and_false]
  rw [Attempt.cleaned, weight_filter _ fun name => !obsolete attempt name, hkept, weight_publish _ hunused, hothers]
  simp [Attempt.file]

variable (config format) in
/-- Behind a publication everything obsolete is deleted. -/
theorem reaches_finished (attempt : Attempt) (authority : Option (ℕ × ℕ)) (members : Directory) :
    Continues config format
      ⟨attempt.publish format members, true, false, none, .replaced attempt, authority⟩
      ⟨attempt.cleaned format members, true, false, none, .idle, authority⟩ := by
  let published := attempt.publish format members
  have hcleaned := reaches_cleaned config format attempt authority (published.map Prod.fst) published
  have hnames : (published.filter fun file =>
      !(decide (file.1 ∈ published.map Prod.fst) && obsolete attempt file.1)) =
      attempt.cleaned format members := by
    refine List.filter_congr fun file hfile => ?_
    rw [decide_eq_true (List.mem_map_of_mem hfile), Bool.true_and]
  rw [hnames] at hcleaned
  exact hcleaned.tail ⟨.finish, trivial, rfl⟩

/-- A checkpoint of some size is published, and nothing is going on nor left over. -/
structure Store.Published (s : Store) (sequence nonce dataBytes : ℕ) : Prop where
  quiet : s.Quiet
  authority : s.authority = some (sequence, nonce)
  data : s.members.weight (fun name => decide (name = .checkpoint sequence nonce)) = dataBytes
  nothing : ∀ file ∈ s.members, leftover s.authority file.1 = false

/-- Where another checkpoint of its size has room, one is published and nothing of the ones that
failed is left. -/
theorem reaches_published (hrunning : s.running = true) (hidle : s.publication = .idle)
    {attempt : Attempt} (hfixed : format.checkpointFixedBytes ≤ attempt.dataBytes)
    (hroom : roomFor config format s attempt (retainedBytes s.members)) {sequence nonce : ℕ}
    (hunused : s.members.Unused sequence nonce) :
    ∃ s', Continues config format s s' ∧ s'.Published sequence nonce attempt.dataBytes ∧
      retainedBytes s'.members ≤ s.settled + s.pending.getD 0 +
        (format.walHeaderBytes + attempt.dataBytes + format.manifestBytes) := by
  unfold roomFor at hroom
  obtain ⟨quiet, hquiet, hs, -, hmembers⟩ :=
    reaches_quiet config format hrunning hidle (by omega)
  let next : Attempt := ⟨sequence, nonce, attempt.dataBytes, lastGeneration quiet.members + 1⟩
  have hsize := retainedBytes_finished s
  have hnext : retainedBytes quiet.members + format.walHeaderBytes + next.dataBytes +
      format.manifestBytes ≤ config.maxRetainedBytes := by
    rw [hmembers, hsize]
    show _ + _ + attempt.dataBytes + _ ≤ _
    omega
  have hreplaced : Continues config format quiet ⟨next.publish format quiet.members, true, false,
      none, .replaced next, some (sequence, nonce)⟩ :=
    reaches_replaced config format hs rfl hfixed hnext
  have hunused' : quiet.members.Unused next.sequence next.nonce := hmembers ▸ hunused.finished
  refine ⟨_, (hquiet.trans hreplaced).trans
    (reaches_finished config format next (some (sequence, nonce)) quiet.members),
    ⟨⟨rfl, rfl, rfl, rfl⟩, rfl, weight_cleaned hunused', fun file hfile => ?_⟩, ?_⟩
  · by_contra hleft
    have hkept := (List.mem_filter.mp hfile).2
    rw [obsolete_of_leftover (show leftover (some (next.sequence, next.nonce)) file.1 = true by
      simpa using hleft)] at hkept
    cases hkept
  · have hcleaned : retainedBytes (next.cleaned format quiet.members) ≤
        quiet.members.weight (fun name => !leftover s.authority name) + format.walHeaderBytes +
          attempt.dataBytes + format.manifestBytes :=
      retainedBytes_cleaned hunused' s.authority
    have hfinished : quiet.members.weight (fun name => !leftover s.authority name) ≤
        s.settled + s.pending.getD 0 := hmembers ▸ weight_finished s _
    show retainedBytes (next.cleaned format quiet.members) ≤ _
    omega

theorem exceedsCapacity_mono {units : List PreparedUnit} {liveDocuments retained retained' : ℕ}
    (hle : retained' ≤ retained)
    (h : exceedsCapacity config units liveDocuments ⟨retained, false⟩ = false) :
    exceedsCapacity config units liveDocuments ⟨retained', false⟩ = false := by
  simp only [exceedsCapacity, Bool.or_eq_false_iff, decide_eq_false_iff_not, not_lt] at h ⊢
  refine ⟨h.1, ?_⟩
  have := h.2
  omega

/-- A commit that fits is written. -/
theorem run_commit (hs : s.Quiet) {units : List PreparedUnit} {liveDocuments : ℕ}
    (hunits : units ≠ [])
    (hcapacity : exceedsCapacity config units liveDocuments ⟨retainedBytes s.members, false⟩ = false) :
    ∃ committed, s.run config format
      [.commit units liveDocuments, .append (additionalBytes units), .forced] = some committed := by
  obtain ⟨hrunning, hterminal, hpending, hidle⟩ := hs
  simp [Store.run, hrunning, hterminal, hpending, hidle, hunits, hcapacity]

/-- Some nonce is in nobody's use. -/
theorem exists_unused (directory : Directory) (sequence : ℕ) :
    ∃ nonce, directory.Unused sequence nonce := by
  let inUse : Finset ℕ := (directory.map fun file => match file.1 with
    | .checkpoint _ nonce => nonce
    | .checkpointStaging _ nonce => nonce
    | _ => 0).toFinset
  obtain ⟨nonce, hnonce⟩ := Infinite.exists_notMem_finset inUse
  refine ⟨nonce, fun file hfile => ⟨fun hname => hnonce ?_, fun hname => hnonce ?_⟩⟩ <;>
    exact List.mem_toFinset.mpr (List.mem_map.mpr ⟨file, hfile, by rw [hname]⟩)

/-! ### The budget -/

theorem fail_cases {unexpected : Bool} {attempt : Attempt}
    (hattempt : s.publication.attempt = some attempt)
    (h : s.step config format (.fail unexpected) = some s') :
    s.running = true ∧
      s' = { s with publication := .idle, terminal := s.terminal || unexpected } := by
  have hrunning : s.running = true := by
    by_contra hstopped
    simp [hstopped] at h
  refine ⟨hrunning, ?_⟩
  cases hpublication : s.publication <;> rw [hpublication] at hattempt <;>
    first
      | cases hattempt; done
      | simpa [hrunning, hpublication, eq_comm] using h

/-- In a run whose steps fit, the directory stays within the budget, and an opening is never refused
for its size.  Behind a checkpoint that failed without blocking later ones, without any loss, one of
its size is published where it has room beside what failed checkpoints did not leave, and commits are
written that have room beside that. -/
theorem run_retained (config : StorageConfig) (format : DurableFormatContext) {members : Directory}
    (hstart : retainedBytes members ≤ config.maxRetainedBytes) (authority : Option (ℕ × ℕ))
    (hrun : Relation.ReflTransGen (FittingSteps config format) (.opened members authority) s) :
    retainedBytes s.members ≤ config.maxRetainedBytes ∧
      (∀ survivors, survives survivors s.members = true →
        openRetained config survivors = .ok ()) ∧
      ∀ unexpected attempt failed, s.publication.attempt = some attempt →
        s.step config format (.fail unexpected) = some failed →
        failed.Recovers config format attempt →
        (roomFor config format failed attempt failed.settled → ∀ sequence nonce,
          failed.members.Unused sequence nonce → ∃ later, Continues config format failed later ∧
            later.Published sequence nonce attempt.dataBytes) ∧
        ∀ units liveDocuments, units ≠ [] →
          exceedsCapacity config units liveDocuments
            ⟨failed.settled + failed.pending.getD 0 + failed.clearing format attempt, false⟩ = false →
          ∃ before committed, Continues config format failed before ∧
            before.run config format
              [.commit units liveDocuments, .append (additionalBytes units), .forced] =
                some committed := by
  have hinitial : (Store.opened members authority).Within config format := by
    refine ⟨?_, nofun⟩
    simpa [Store.promised, Store.opened, Publication.left] using hstart
  have hwithin := run_within hrun hinitial
  have hpromised : retainedBytes s.members + s.pending.getD 0 ≤ config.maxRetainedBytes := by
    have := hwithin.promised
    unfold Store.promised at this
    omega
  refine ⟨by omega, fun survivors hsurvives => ?_,
    fun unexpected attempt failed hattempt hfail hrecovers => ?_⟩
  · have := retainedBytes_survives hsurvives
    rw [openRetained, if_neg (by omega)]
  · have hfixed := hwithin.data attempt hattempt
    obtain ⟨hrunning, rfl⟩ := fail_cases hattempt hfail
    generalize hfailed : ({ s with publication := .idle, terminal := s.terminal || unexpected } :
      Store) = failed at hrecovers ⊢
    have hsettled : retainedBytes failed.members + failed.pending.getD 0 ≤
        config.maxRetainedBytes := hfailed ▸ hpromised
    have hrunning' : failed.running = true := hfailed ▸ hrunning
    have hidle : failed.publication = .idle := hfailed ▸ rfl
    by_cases hnothing : retainedBytes failed.members = failed.settled
    · refine ⟨fun hroom sequence nonce hunused => ?_, fun units liveDocuments hunits hcapacity => ?_⟩
      · obtain ⟨later, hlater, hpublished, -⟩ :=
          reaches_published hrunning' hidle hfixed (hnothing ▸ hroom) hunused
        exact ⟨later, hlater, hpublished⟩
      · obtain ⟨quiet, hquiet, hs, -, hmembers⟩ :=
          reaches_quiet config format hrunning' hidle hsettled
        rw [Store.clearing, if_pos hnothing, ← hnothing, Nat.add_zero, ← retainedBytes_finished,
          ← hmembers] at hcapacity
        obtain ⟨committed, hcommitted⟩ := run_commit hs hunits hcapacity
        exact ⟨quiet, committed, hquiet, hcommitted⟩
    · have hroom := hrecovers.resolve_left hnothing
      refine ⟨fun _ sequence nonce hunused => ?_, fun units liveDocuments hunits hcapacity => ?_⟩
      · obtain ⟨later, hlater, hpublished, -⟩ :=
          reaches_published hrunning' hidle hfixed hroom hunused
        exact ⟨later, hlater, hpublished⟩
      · obtain ⟨nonce, hunused⟩ := exists_unused failed.members 0
        obtain ⟨later, hlater, hpublished, hretained⟩ :=
          reaches_published hrunning' hidle hfixed hroom hunused
        rw [Store.clearing, if_neg hnothing] at hcapacity
        obtain ⟨committed, hcommitted⟩ :=
          run_commit hpublished.quiet hunits (exceedsCapacity_mono hretained hcapacity)
        exact ⟨later, committed, hlater, hcommitted⟩

/-- A budget of 800 bytes. -/
def smallConfig : StorageConfig := ⟨16, 256, 8, 8, 800⟩

/-- The metadata and the first generation of the log. -/
def smallDirectory : Directory := [(.metadata, 200), (.wal 1, 48)]

def smallUnit (payloadBytes : ℕ) : PreparedUnit := ⟨singleType, List.replicate payloadBytes 0⟩

/-- Behind a checkpoint that fails when ten of its bytes are written, one of its size is published,
and a commit is written. -/
theorem run_retained_small : ∃ s failed later before committed : Store,
    s.publication.attempt = some ⟨0, 1, 160, 2⟩ ∧
    s.step smallConfig ⟨false⟩ (.fail false) = some failed ∧
    retainedBytes failed.members ≠ failed.settled ∧
    Continues smallConfig ⟨false⟩ failed later ∧ later.Published 0 2 160 ∧
    Continues smallConfig ⟨false⟩ failed before ∧ before.run smallConfig ⟨false⟩
      [.commit [smallUnit 20] 1, .append 52, .forced] = some committed := by
  let store (members : Directory) (publication : Publication) : Store :=
    ⟨members, true, false, none, publication, none⟩
  let attempt : Attempt := ⟨0, 1, 160, 2⟩
  let cut : Directory := [(.metadata, 200), (.wal 1, 48), (.wal 2, 48)]
  have hrun : Relation.ReflTransGen (FittingSteps smallConfig ⟨false⟩)
      (.opened smallDirectory none)
      (store (cut ++ [(.checkpointStaging 0 1, 10)]) (.writing attempt 360 10)) := by
    have hcut : FittingSteps smallConfig ⟨false⟩ (.opened smallDirectory none)
        (store cut (.submitted attempt)) := ⟨.cut 0 1 160, trivial, by decide⟩
    have hbudget : FittingSteps smallConfig ⟨false⟩ (store cut (.submitted attempt))
        (store cut (.budgeted attempt 360)) :=
      ⟨.readBudget, by rintro _ ⟨⟩; decide, by decide⟩
    have hcreate : FittingSteps smallConfig ⟨false⟩ (store cut (.budgeted attempt 360))
        (store (cut ++ [(.checkpointStaging 0 1, 0)]) (.writing attempt 360 0)) :=
      ⟨.createStaging, trivial, by decide⟩
    have hwrite : FittingSteps smallConfig ⟨false⟩
        (store (cut ++ [(.checkpointStaging 0 1, 0)]) (.writing attempt 360 0))
        (store (cut ++ [(.checkpointStaging 0 1, 10)]) (.writing attempt 360 10)) :=
      ⟨.writeData 10, trivial, by decide⟩
    exact .tail (.tail (.tail (.single hcut) hbudget) hcreate) hwrite
  have hfail : Store.step smallConfig ⟨false⟩
      (store (cut ++ [(.checkpointStaging 0 1, 10)]) (.writing attempt 360 10)) (.fail false) =
      some (store (cut ++ [(.checkpointStaging 0 1, 10)]) .idle) := by
    decide
  obtain ⟨-, -, hretry⟩ := run_retained smallConfig ⟨false⟩ (by decide) none hrun
  obtain ⟨hcheckpoint, hcommit⟩ := hretry false attempt _ rfl hfail
    (.inr (by unfold roomFor; decide))
  obtain ⟨later, hlater, hpublished⟩ := hcheckpoint (by unfold roomFor; decide) 0 2
    (by unfold Directory.Unused; decide)
  obtain ⟨before, committed, hbefore, hcommitted⟩ := hcommit [smallUnit 20] 1 (by decide) (by decide)
  exact ⟨_, _, later, before, committed, rfl, hfail, by decide, hlater, hpublished, hbefore,
    hcommitted⟩

/-- A commit is admitted between the reading of the budget and the writing of the data; both are
written, and the store cannot be opened again. -/
theorem retained_overrun : retainedBytes smallDirectory ≤ smallConfig.maxRetainedBytes ∧
    ∃ s, Reaches smallConfig ⟨false⟩ (.opened smallDirectory none) s ∧
      smallConfig.maxRetainedBytes < retainedBytes (s.members.delete .manifestStaging) ∧
      openRetained smallConfig s.members = .error ⟨.capacityExceeded, none,
        "initialized durable storage exceeds retained-byte limit"⟩ := by
  let actions : List Action := [.commit [smallUnit 100] 1, .append 132, .forced, .cut 1 0 160,
    .readBudget, .commit [smallUnit 292] 2, .append 324, .forced, .createStaging, .writeData 160]
  have hrun : (Store.opened smallDirectory none).run smallConfig ⟨false⟩ actions = some
      ⟨[(.metadata, 200), (.wal 1, 180), (.wal 2, 372), (.checkpointStaging 1 0, 160)], true, false,
        none, .writing ⟨1, 0, 160, 2⟩ 228 160, none⟩ := by
    decide +kernel
  exact ⟨by decide, _, reaches_run hrun, by decide, by decide⟩

theorem Attempt.writable_le (attempt : Attempt) {available : ℤ} (h : 0 ≤ available) :
    (attempt.writable available : ℤ) ≤ available := by
  unfold Attempt.writable
  split_ifs with hsmall hfits <;> omega

/-- A check is enough where the other thread has nothing to write. -/
theorem fits_alone (h : s.step config format action = some s') (hs : s.Within config format)
    (hwriter : s.pending.getD 0 = 0) (hexecutor : s.publication.left format = 0) :
    s.Fits config format action := by
  have hretained : retainedBytes s.members ≤ config.maxRetainedBytes := by
    have := hs.promised
    unfold Store.promised at this
    omega
  cases action with
  | commit units liveDocuments =>
    have hcapacity : exceedsCapacity config units liveDocuments
        ⟨retainedBytes s.members, false⟩ = false := by
      by_contra hexceeds
      simp [hexceeds] at h
    simp only [exceedsCapacity, Bool.or_eq_false_iff, decide_eq_false_iff_not, not_lt] at hcapacity
    have := hcapacity.2
    simp only [Store.Fits, Store.promised]
    omega
  | readBudget =>
    intro attempt _
    have := retainedBytes_delete s.members .manifestStaging
    dsimp only
    rw [hwriter]
    generalize retainedBytes (s.members.delete .manifestStaging) = retained at *
    by_cases havailable : 4 < (config.maxRetainedBytes - retained - format.manifestBytes : ℤ)
    · have := attempt.writable_le (Int.le_of_lt (Int.lt_trans (by decide) havailable))
      omega
    · rw [Attempt.writable, if_pos (by omega)]
      omega
  | checkManifest =>
    have hroom : retainedBytes s.members + format.manifestBytes ≤ config.maxRetainedBytes := by
      by_contra hfull
      cases hpublication : s.publication <;>
        simp [hpublication, hfull] at h
    simp only [Store.Fits, Store.promised]
    omega
  | refresh bytes =>
    have hroom : retainedBytes s.members + bytes ≤ config.maxRetainedBytes := by
      by_contra hfull
      cases hpublication : s.publication <;>
        simp [hpublication, hfull] at h
    simp only [Store.Fits, Store.promised]
    omega
  | _ => trivial

variable (config) in
/-- Where more is promised than there is room for, the threads can write it. -/
theorem promised_reached (hrunning : s.running = true)
    (h : config.maxRetainedBytes < s.promised format) :
    ∃ s', Reaches config format s s' ∧ config.maxRetainedBytes < retainedBytes s'.members := by
  have hcommitted := (reaches_committed config format hrunning).reaches
  rw [Store.promised, ← retainedBytes_finished] at h
  generalize s.finished = members at *
  cases hpublication : s.publication with
  | budgeted attempt available =>
    rw [hpublication, Publication.left] at h
    by_cases havailable : 4 < available
    · have hcreate : Store.step config format { s with members, pending := none } .createStaging =
          some { s with
            members := members.write attempt.staging 0, pending := none
            publication := .writing attempt available 0 } := by
        simp [hrunning, hpublication, havailable]
      have hwrite : Store.step config format { s with
            members := members.write attempt.staging 0, pending := none
            publication := .writing attempt available 0 }
          (.writeData (attempt.writable available)) = some { s with
            members := (members.write attempt.staging 0).write attempt.staging
              (attempt.writable available)
            pending := none
            publication := .writing attempt available (attempt.writable available) } := by
        simp [hrunning]
      refine ⟨_, (hcommitted.tail ⟨_, hcreate⟩).tail ⟨_, hwrite⟩, ?_⟩
      rw [retainedBytes_write, retainedBytes_write]
      exact h
    · have hnothing : attempt.writable available = 0 := by
        rw [Attempt.writable, if_pos (by omega)]
      exact ⟨_, hcommitted, by rw [hnothing] at h; exact h⟩
  | writing attempt available written =>
    rw [hpublication, Publication.left] at h
    by_cases hleft : written ≤ attempt.writable available
    · have hwrite : Store.step config format { s with members, pending := none }
          (.writeData (attempt.writable available - written)) = some { s with
            members := members.write attempt.staging (attempt.writable available - written)
            pending := none
            publication := .writing attempt available (attempt.writable available) } := by
        simp [hrunning, hpublication,
          Nat.add_sub_cancel' hleft]
      exact ⟨_, hcommitted.tail ⟨_, hwrite⟩, by rw [retainedBytes_write]; exact h⟩
    · exact ⟨_, hcommitted, by dsimp only; omega⟩
  | describing attempt written =>
    rw [hpublication, Publication.left] at h
    by_cases hleft : written ≤ format.manifestBytes
    · have hwrite : Store.step config format { s with members, pending := none }
          (.writeManifest (format.manifestBytes - written)) = some { s with
            members := members.write .manifestStaging (format.manifestBytes - written)
            pending := none
            publication := .describing attempt format.manifestBytes } := by
        simp [hrunning, hpublication,
          Nat.add_sub_cancel' hleft]
      exact ⟨_, hcommitted.tail ⟨_, hwrite⟩, by rw [retainedBytes_write]; exact h⟩
    · exact ⟨_, hcommitted, by dsimp only; omega⟩
  | refreshing left =>
    rw [hpublication, Publication.left] at h
    have hwrite : Store.step config format { s with members, pending := none }
        (.writeDerived 0 left) = some { s with
          members := members.write (.derivedStaging 0) left, pending := none
          publication := .refreshing 0 } := by
      simp [hrunning, hpublication]
    exact ⟨_, hcommitted.tail ⟨_, hwrite⟩, by rw [retainedBytes_write]; exact h⟩
  | _ =>
    rw [hpublication] at h
    exact ⟨_, hcommitted, by simpa [Publication.left] using h⟩

end

end GeneralSearch.Durable
