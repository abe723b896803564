import GeneralSearch.Replica.Image
import Mathlib.Data.List.AList

/-! `ReplicaGeneration`: the generation slots of a replica's directory, their selector and
`install`. -/

namespace GeneralSearch.Replica

open GeneralSearch.Utf8 (JavaString)
open Decoder (Reads Inverts)

/-! ### Directories -/

/-- The regular files of a directory by name. -/
abbrev Directory := AList fun _ : JavaString => Bytes

namespace Directory

/-- `directoryBytes` of a directory of files. -/
def total (directory : Directory) : ℕ := (directory.entries.map fun entry => entry.2.length).sum

end Directory

/-- The directory of a replica: its files, and the directories in it. -/
structure Root where
  files : Directory
  directories : AList fun _ : JavaString => Directory

/-- `directoryBytes` of the root. -/
def Root.total (root : Root) : ℕ :=
  root.files.total + (root.directories.entries.map fun entry => entry.2.total).sum

namespace Generation

/-! ### Names -/

def current : JavaString := Utf8.ofString "current.gsr"
def pending : JavaString := Utf8.ofString "current.pending.gsr"
def floorFile : JavaString := Utf8.ofString "recovery-floor.gsr"
def snapshotFile : JavaString := Utf8.ofString "snapshot.gsr"
def sealFile : JavaString := Utf8.ofString "generation.gsr"
def started : JavaString := Utf8.ofString "generation-started.gsr"
def entryFile : JavaString := Utf8.ofString "entries.gsr"
def proofFile : JavaString := Utf8.ofString "proofs.gsr"
def slotA : JavaString := Utf8.ofString "generation-a"
def slotB : JavaString := Utf8.ofString "generation-b"

/-- `SLOTS`. -/
def slots : List JavaString := [slotA, slotB]

/-- `MEMBERS`. -/
def members : List JavaString := [snapshotFile, entryFile, proofFile, sealFile]

/-- `ReplicaStore.files` without its journals of entries and proofs. -/
def metadataFiles (minor : Minor) : List JavaString :=
  ["replica.lock", "manifest.gsr", "node.gsr", "promises.gsr", "storage-ready.gsr"].map Utf8.ofString ++
    if minor = 0 then []
    else ["genesis.gsr", "bootstrap-prepared.gsr", "bootstrap-seal.gsr"].map Utf8.ofString

def pointerKind : UInt16 := 10
def sealKind : UInt16 := 11
def floorKind : UInt16 := 12
def startedKind : UInt16 := 15

/-! ### Reading -/

/-- `bytes`: the content of a file that must be there and within a bound. -/
def fileBytes (file : Option Bytes) (maximum : ℕ) : Except Failure Bytes :=
  match file with
  | none => throw (.replication .integrityFailure "non-regular recovery member")
  | some bytes => do
    require (0 < bytes.length ∧ bytes.length ≤ maximum) .capacityExceeded
      "recovery file exceeds bound"
    return bytes

/-- `FileChannel.open` of a file for reading. -/
def openFile (file : Option Bytes) : Except Failure Bytes :=
  match file with
  | none => throw .io
  | some bytes => return bytes

/-- `ReplicaGeneration.Selected`; the directory is a slot, or `none` for the root. -/
structure Selected where
  directory : Option JavaString
  snapshot : Option ReplicaSnapshot
  admitted : Bool
  generation : ℕ

/-- The fields of a selector. -/
structure Pointer where
  slot : JavaString
  generation : Uuid
  sealDigest : Hash
  admitted : Bool
  deriving DecidableEq

section

variable (sha256 : Bytes → Hash) (manifest : ReplicaManifest) (node : ReplicationNodeId)
  (bounds : ReplicationBounds)

/-- `read`: the body of a record that fills a file. -/
def readFile (file : Option Bytes) (kind : UInt16) : Except Failure Bytes := do
  decodeRecord sha256 (← fileBytes file maxMetadataBytes) kind maxMetadataBytes manifest.formatMinor

/-- The manifest and the node that a record starts with. -/
def readIdentity (message : String) : Decoder Failure Unit := do
  require ((← readHash) = manifest.digest) .protocolMismatch message
  require ((← readText 64) = node.value) .protocolMismatch message

def readPointer : Decoder Failure Pointer := do
  readIdentity manifest node "generation pointer identity mismatch"
  let slot ← readText 32
  let generation ← readUuid
  let sealDigest ← readHash
  let admittedFlag ← readByte
  require (admittedFlag.toNat ≤ 1) .integrityFailure "invalid generation admission flag"
  readEnd
  return ⟨slot, generation, sealDigest, admittedFlag = 1⟩

/-- `inventorySlot`. -/
def inventorySlot (directory : Option Directory) (complete : Bool) : Except Failure Directory :=
  match directory with
  | none => throw (.replication .integrityFailure "generation is not a directory")
  | some directory => do
    require (∀ name ∈ directory.keys, name ∈ members) .integrityFailure "unknown generation member"
    require (complete = true → ∀ name ∈ members, name ∈ directory.keys) .integrityFailure
      "incomplete selected generation"
    return directory

/-- The header of a journal, of which the seal holds the digest. -/
def checkHeader (file : Option Bytes) : Decoder Failure Unit := do
  let bytes ← liftM (openFile file)
  let header ← liftM (Replica.read sha256 bytes 0 journalKind maxMetadataBytes manifest.formatMinor)
  match header with
  | none =>
    throw (.replication .integrityFailure "generation journal header mismatch")
  | some header =>
    require ((← readHash) = header.digest) .integrityFailure "generation journal header mismatch"

/-- The fields of a seal against the members of its slot; the bytes of the snapshot. -/
def checkSeal (directory : Directory) (generation : Uuid) : Decoder Failure Bytes := do
  readIdentity manifest node "generation seal identity mismatch"
  require ((← readUuid) = generation) .protocolMismatch "generation seal identity mismatch"
  let snapshot ← liftM (fileBytes (directory.lookup snapshotFile) (ReplicaSnapshot.maximum bounds))
  require ((← readHash) = frameDigest snapshot) .integrityFailure
    "generation snapshot digest mismatch"
  checkHeader sha256 manifest (directory.lookup entryFile)
  checkHeader sha256 manifest (directory.lookup proofFile)
  readEnd
  return snapshot

/-- `selected` behind a selector that was read. -/
def selectedSlot (root : Root) (pointer : Pointer) : Except Failure Selected := do
  require (pointer.slot ∈ slots) .integrityFailure "unknown generation slot"
  let directory ← inventorySlot (root.directories.lookup pointer.slot) true
  let sealBytes ← fileBytes (directory.lookup sealFile) maxMetadataBytes
  require (frameDigest sealBytes = pointer.sealDigest) .integrityFailure
    "generation selector/seal mismatch"
  let body ← decodeRecord sha256 sealBytes sealKind maxMetadataBytes manifest.formatMinor
  let (snapshotBytes, _) ← checkSeal sha256 manifest node bounds directory pointer.generation body
  let snapshot ← ReplicaSnapshot.decode sha256 snapshotBytes manifest
    (ReplicaSnapshot.maximum bounds)
  return ⟨some pointer.slot, some snapshot, pointer.admitted,
    pointer.generation.toNat / 2 ^ 64 % 2 ^ 63⟩

/-- The marker that generations have been used. -/
def checkStarted (file : Option Bytes) : Except Failure Unit :=
  match file with
  | none => return
  | some _ => do
    let body ← readFile sha256 manifest file startedKind
    let _ ← (do readIdentity manifest node "generation-started identity mismatch"; readEnd :
      Decoder Failure Unit) body
    return

def selected (root : Root) : Except Failure Selected := do
  checkStarted sha256 manifest node (root.files.lookup started)
  match root.files.lookup current with
  | none =>
    require (root.files.lookup started = none ∧ root.files.lookup floorFile = none)
      .integrityFailure "installed generation selector is missing"
    return ⟨none, none, false, 0⟩
  | some _ =>
    let body ← readFile sha256 manifest (root.files.lookup current) pointerKind
    let (pointer, _) ← readPointer manifest node body
    selectedSlot sha256 manifest node bounds root pointer

/-- The voters of a floor, in the order of their names. -/
def readVoters : ℕ → JavaString → Decoder Failure Unit
  | 0, _ => readEnd
  | count + 1, previous => do
    let voter ← readText 64
    require ((∃ member ∈ manifest.members, member.value = voter) ∧
      previous.map UInt16.toNat < voter.map UInt16.toNat) .integrityFailure "invalid floor voters"
    readVoters count voter

/-- The record of a floor. -/
def readFloor : Decoder Failure ℕ := do
  readIdentity manifest node "floor identity mismatch"
  let index ← readLong
  let _ ← readHash
  let count ← readInt
  require (0 ≤ index.toInt ∧ index.toInt ≤ maxEntries ∧ 2 ≤ count.toInt ∧ count.toInt ≤ 3)
    .integrityFailure "invalid recovery floor"
  readVoters manifest count.toInt.toNat []
  return index.toInt.toNat

def floor (root : Root) : Except Failure ℕ :=
  match root.files.lookup floorFile with
  | none => return 0
  | some _ => do
    let body ← readFile sha256 manifest (root.files.lookup floorFile) floorKind
    let (index, _) ← readFloor manifest node body
    return index

/-! ### Records -/

/-- The manifest and the node, written. -/
def identityBytes : Bytes := writeHash manifest.digest ++ text node.value

def journalHeader (kind : UInt16) : Except Failure Bytes :=
  frame sha256 journalKind (identityBytes manifest node ++ writeShort kind) maxMetadataBytes
    manifest.formatMinor

def sealRecord (generation : Uuid) (snapshot entries proofs : Hash) : Except Failure Bytes :=
  frame sha256 sealKind (identityBytes manifest node ++ (writeUuid generation ++
    (writeHash snapshot ++ (writeHash entries ++ writeHash proofs)))) maxMetadataBytes
    manifest.formatMinor

def pointerRecord (pointer : Pointer) : Except Failure Bytes :=
  frame sha256 pointerKind (identityBytes manifest node ++ (text pointer.slot ++
    (writeUuid pointer.generation ++ (writeHash pointer.sealDigest ++
      writeByte (if pointer.admitted then 1 else 0))))) maxMetadataBytes manifest.formatMinor

def startedRecord : Except Failure Bytes :=
  frame sha256 startedKind (identityBytes manifest node) maxMetadataBytes manifest.formatMinor

end

/-! ### Writing -/

/-- A file that is created in a directory of the root: `CREATE_NEW`. -/
def create (root : Root) (slot name : JavaString) (bytes : Bytes) : Except Failure Root :=
  match root.directories.lookup slot with
  | none => throw .io
  | some directory => do
    if name ∈ directory then throw .io
    return { root with directories := root.directories.insert slot (directory.insert name bytes) }

/-- A file that is created in the root. -/
def createFile (root : Root) (name : JavaString) (bytes : Bytes) : Except Failure Root := do
  if name ∈ root.files then throw .io
  return { root with files := root.files.insert name bytes }

/-- `Files.createDirectory`. -/
def createDirectory (root : Root) (slot : JavaString) : Except Failure Root := do
  if slot ∈ root.directories then throw .io
  return { root with directories := root.directories.insert slot ∅ }

/-- `atomic`: the file is written under the name of a pending one, which then takes its place. -/
def atomic (root : Root) (target pending : JavaString) (bytes : Bytes) : Except Failure Root := do
  let root ← createFile { root with files := root.files.erase pending } pending bytes
  return { root with files := (root.files.erase pending).insert target bytes }

/-- `removeSlot`. -/
def removeSlot (root : Root) (slot : JavaString) : Except Failure Root := do
  let _ ← inventorySlot (root.directories.lookup slot) false
  return { root with directories := root.directories.erase slot }

/-- The rows of a journal behind what stands already. -/
def writeJournal {α : Type} (encode : α → Except Failure Bytes) (maximum : ℕ) (file : Bytes)
    (rows : List α) : Except Failure Bytes :=
  rows.foldlM (fun file row => do
    let bytes ← encode row
    require (file.length + bytes.length ≤ maximum) .capacityExceeded "recovery journal exceeds bound"
    return file ++ bytes) file

section

variable (sha256 : Bytes → Hash) (manifest : ReplicaManifest) (node : ReplicationNodeId)
  (bounds : ReplicationBounds)

def ensureStarted (root : Root) : Except Failure Root := do
  if started ∈ root.files then return root
  else createFile root started (← startedRecord sha256 manifest node)

/-- The bytes of a generation as they are computed before it is written.  No sum comes near the
end of a long: an image has at most a million entries. -/
def stagedBytes (snapshot : Bytes) (image : ReplicaRecoveryImage) : Except Failure ℕ := do
  let entries ← journalHeader sha256 manifest node entryKind
  let proofs ← journalHeader sha256 manifest node proofKind
  let fixed := snapshot.length + entries.length + proofs.length + 196 +
    (Utf8.getBytes node.value).length
  let staged := image.entries.foldl (fun staged entry => staged + entry.encodedLength) fixed
  image.proofs.foldlM (fun staged proof => do return staged + (← proof.encode sha256).length) staged

/-- The bytes of the root's own files, and of the markers and temporary files of a rename. -/
def rootMetadata (root : Root) : Except Failure ℕ :=
  (metadataFiles manifest.formatMinor).foldlM
    (fun total name => do return total + (← openFile (root.files.lookup name)).length) 4096

/-- What the first checks of `install` decide. -/
structure Reservation where
  selected : Selected
  slot : JavaString
  snapshot : Bytes
  staged : ℕ

/-- The check of the bytes of the whole directory. -/
def checkAggregate (total staged : ℕ) : Except Failure Unit :=
  require (total + staged + 4096 ≤ bounds.maxRetainedLogBytes + bounds.maxSnapshotStagingBytes)
    .capacityExceeded "generation would exceed aggregate disk bounds"

/-- The beginning of `install`: nothing is written. -/
def reserve (root : Root) (image : ReplicaRecoveryImage) : Except Failure Reservation := do
  image.validate sha256 manifest bounds
  let snapshot ← image.snapshot.encode sha256 (ReplicaSnapshot.maximum bounds)
  let staged ← stagedBytes sha256 manifest node snapshot image
  let metadata ← rootMetadata manifest root
  require (staged ≤ bounds.maxSnapshotStagingBytes ∧
    staged + metadata ≤ bounds.maxRetainedLogBytes) .capacityExceeded
    "generation exceeds retained/staging bounds before writing"
  let selected ← selected sha256 manifest node bounds root
  let slot := if selected.directory = some slotA then slotB else slotA
  let replacing := ((root.directories.lookup slot).map Directory.total).getD 0
  checkAggregate bounds (root.total - replacing) staged
  return ⟨selected, slot, snapshot, staged⟩

/-- A prior source may go: there is none, or the quorum's floor has reached it. -/
def covered (root : Root) (selected : Selected) : Except Failure Bool :=
  match selected.snapshot with
  | none => return true
  | some snapshot => do return snapshot.index ≤ (← floor sha256 manifest node root)

/-- What `install` does about an old generation in its slot. -/
def clear (root : Root) (reservation : Reservation) : Except Failure Root := do
  if reservation.slot ∈ root.directories then
    require ((← covered sha256 manifest node root reservation.selected) = true) .capacityExceeded
      "a prior recovery source is retained until its quorum floor is established"
    removeSlot root reservation.slot
  else return root

/-- The four members of the new generation, with the digest of its seal. -/
def writeMembers (root : Root) (image : ReplicaRecoveryImage) (reservation : Reservation)
    (generation : Uuid) : Except Failure (Root × Hash) := do
  let slot := reservation.slot
  let entryHeader ← journalHeader sha256 manifest node entryKind
  let proofHeader ← journalHeader sha256 manifest node proofKind
  let root ← createDirectory root slot
  let root ← create root slot snapshotFile reservation.snapshot
  let entries ← writeJournal (·.encode sha256 bounds.maxFrameBytes) bounds.maxRetainedLogBytes
    entryHeader image.entries
  let root ← create root slot entryFile entries
  let proofs ← writeJournal (·.encode sha256) bounds.maxRetainedLogBytes proofHeader image.proofs
  let root ← create root slot proofFile proofs
  let sealBytes ← sealRecord sha256 manifest node generation (frameDigest reservation.snapshot)
    (frameDigest entryHeader) (frameDigest proofHeader)
  let root ← create root slot sealFile sealBytes
  return (root, frameDigest sealBytes)

/-- The rest of `install`, which writes the generation and selects it. -/
def stage (root : Root) (image : ReplicaRecoveryImage) (reservation : Reservation)
    (generation : Uuid) (admitted : Bool) : Except Failure (Selected × Root) := do
  checkAggregate bounds root.total reservation.staged
  let (root, sealDigest) ← writeMembers sha256 manifest node bounds root image reservation generation
  let staged := ((root.directories.lookup reservation.slot).map Directory.total).getD 0
  require (staged ≤ bounds.maxSnapshotStagingBytes ∧ staged ≤ bounds.maxRetainedLogBytes)
    .capacityExceeded "staged generation exceeds byte bounds"
  let pointer ← pointerRecord sha256 manifest node
    ⟨reservation.slot, generation, sealDigest, admitted⟩
  let root ← atomic root current pending pointer
  let root ← ensureStarted sha256 manifest node root
  return (← selected sha256 manifest node bounds root, root)

/-- `install`, with the UUID that it draws. -/
def install (root : Root) (image : ReplicaRecoveryImage) (generation : Uuid) (admitted : Bool) :
    Except Failure (Selected × Root) := do
  let reservation ← reserve sha256 manifest node bounds root image
  let root ← clear sha256 manifest node root reservation
  stage sha256 manifest node bounds root image reservation generation admitted

end

end Generation

end GeneralSearch.Replica
