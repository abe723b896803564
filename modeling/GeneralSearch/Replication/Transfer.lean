import GeneralSearch.Lib.Bytes
import GeneralSearch.Lib.File
import GeneralSearch.Replication.Records

/-! `AutomaticRecoveryFiles`: an image that another voter announces is staged chunk by chunk, over
any number of stops, until it can be read. -/

namespace GeneralSearch.Replication

open Lib

/-! ### Frames -/

/-- `HEADER`. -/
def headerBytes : ℕ := 48

/-- `IMAGE`. -/
def imageMaximum : ℕ := 67108864

/-- `AutomaticRecords.digest`: where the header of a frame has it. -/
def digest (bytes : Bytes) : Except Failure Bytes := do
  need (headerBytes ≤ bytes.length) "short frame"
  return (bytes.drop 16).take 32

/-- The magic and the version of a frame. -/
def family : Bytes := bigEndian 4 0x47534552 ++ bigEndian 2 1 ++ bigEndian 2 2

/-- The kind and the flags of an IMAGE. -/
def imageKind : Bytes := bigEndian 2 9 ++ bigEndian 2 0

/-- `AutomaticRecords.decode` of an IMAGE, up to its body. -/
def imageBody (hash : Bytes → Bytes) (bytes : Bytes) : Except Failure Bytes := do
  capacity (headerBytes < bytes.length ∧ bytes.length ≤ imageMaximum) "automatic record size"
  unless bytes.take 8 = family do
    throw ⟨.protocolMismatch, "automatic storage requires GSER 1.2"⟩
  need ((bytes.drop 8).take 4 = imageKind) "record kind/flags"
  need ((bytes.drop 12).take 4 = bigEndian 4 (bytes.length - headerBytes)) "record length"
  let body := bytes.drop headerBytes
  need ((bytes.drop 16).take 32 = hash (bytes.take 16 ++ body)) "record checksum"
  return body

/-- TRANSFER. -/
structure Transfer where
  node : Node
  ballot : Ballot
  transferId : ℕ
  imageBytes : ℕ
  imageDigest : Bytes
  receivedBytes : ℕ
  size : 1 ≤ imageBytes ∧ imageBytes ≤ imageMaximum
  progress : receivedBytes ≤ imageBytes
  deriving DecidableEq

/-- The transfer as it was announced. -/
def Transfer.reset (t : Transfer) : Transfer := { t with receivedBytes := 0, progress := Nat.zero_le _ }

/-- The encoding of a transfer with another progress, which checks it. -/
def Transfer.received (t : Transfer) (receivedBytes : ℕ) : Except Failure Transfer :=
  if h : receivedBytes ≤ t.imageBytes then return { t with receivedBytes, progress := h }
  else throw ⟨.integrityFailure, "transfer progress"⟩

/-! ### The directory -/

/-- The files of `transfer` that are written in place. -/
inductive Name where
  | pending | image
  deriving DecidableEq

/-- The directory `transfer`: what `transfer.gsr` holds, what it held when the directory was last
forced, and the other two files. -/
structure Stage where
  record : Option Transfer
  durable : Option Transfer
  files : Name → Option (File UInt8)

namespace Stage

def empty : Stage := ⟨none, none, fun _ => none⟩

/-- `FileChannel.open` with `CREATE`. -/
def openFile (d : Stage) (name : Name) : Stage :=
  { d with files := Function.update d.files name (some ((d.files name).getD .created)) }

def change (d : Stage) (name : Name) (f : File UInt8 → File UInt8) : Stage :=
  { d with files := Function.update d.files name ((d.files name).map f) }

/-- The rename of the pending record. -/
def rename (d : Stage) (t : Transfer) : Stage :=
  { d with record := some t, files := Function.update d.files .pending none }

/-- `sync`. -/
def sync (d : Stage) : Stage :=
  { d with durable := d.record, files := fun name => (d.files name).map File.link }

/-- What an opening after a stop finds: a rename may be undone that was not forced. -/
structure Survives (d d' : Stage) : Prop where
  record : d'.record = d.record ∨ d'.record = d.durable
  durable : d'.durable = d'.record
  files : ∀ name, File.Survives (d.files name) (d'.files name)

end Stage

/-- What the recovery files of a voter rest on: their bounds, `inventory`, the encoding of a
TRANSFER, SHA-256, and what is decoded from the body of an IMAGE. -/
structure Recovery {D : Type} (m : Manifest D) where
  node : Node
  snapshotChunkBytes : ℕ
  maxSnapshotStagingBytes : ℕ
  maxRetainedLogBytes : ℕ
  inventory : Stage → Except Failure ℕ
  encode : Transfer → Bytes
  hash : Bytes → Bytes
  content : Bytes → Except Failure (Image m)

/-- `AutomaticRecoveryFiles` in its store.  `faults` is how many changes of the directory succeed
before one fails, which is also how a run stops between two of them. -/
structure RecoveryFiles where
  stage : Stage
  faults : Option ℕ
  failed : Bool

namespace RecoveryFiles

/-- A computation on the recovery files. -/
abbrev Exec (α : Type) := EStateM Failure RecoveryFiles α

def check {α : Type} (f : Stage → Except Failure α) : Exec α := fun s =>
  match f s.stage with
  | .ok a => .ok a s
  | .error e => .error e s

/-- A change of the directory. -/
def io (change : Stage → Stage) : Exec Unit := do
  match (← get).faults with
  | some 0 => throw ⟨.storageFailure, "ambiguous recovery I/O; voter quarantined"⟩
  | some (n + 1) => modify fun s => { s with stage := change s.stage, faults := some n }
  | none => modify fun s => { s with stage := change s.stage }

/-- The loop that writes bytes behind a file.  A write of several bytes at a time is one that no
fault stops between them. -/
def append (name : Name) (bytes : Bytes) : Exec Unit :=
  bytes.forM fun b => io (·.change name (·.append b))

/-- `reserve`. -/
def reserve (limit total old requested : ℕ) (message : String) : Exec Unit :=
  capacity (requested + total ≤ limit + old) message

/-- `Files.size`, of a file that may be missing. -/
def size (name : Name) (d : Stage) : ℕ := ((d.files name).map fun f => f.content.length).getD 0

section

variable {D : Type} {m : Manifest D} (v : Recovery m)

def write (name : Name) (value : Bytes) : Exec Unit := do
  let total ← check v.inventory
  let old := size name (← get).stage
  capacity (value.length ≤ imageMaximum) "recovery write capacity"
  reserve v.maxRetainedLogBytes total old value.length "recovery write capacity"
  reserve v.maxSnapshotStagingBytes total old value.length "recovery staging capacity"
  io (·.openFile name)
  io (·.change name (·.truncate 0))
  append name value
  io (·.change name File.force)
  io Stage.sync

def publish (t : Transfer) : Exec Unit := do
  write v .pending (v.encode t)
  io (·.rename t)
  io Stage.sync

/-- `record` of `transfer.gsr`. -/
def record (d : Stage) : Except Failure Transfer :=
  match d.record with
  | none => throw ⟨.integrityFailure, "missing/nonregular authority file"⟩
  | some t => return t

/-- `bytes` of `image.gsr`. -/
def imageFile (d : Stage) : Except Failure Bytes :=
  match d.files .image with
  | none => throw ⟨.integrityFailure, "missing/nonregular authority file"⟩
  | some f => do
    capacity (f.content.length ≤ imageMaximum) "authority file byte bound"
    return f.content

/-- The end of `beginTransfer`, for a transfer that is not there yet. -/
def start (t : Transfer) : Exec Unit := do
  publish v t
  write v .image []

def beginTransfer (t : Transfer) : Exec Unit := do
  need (t.node = v.node ∧ t.receivedBytes = 0) "transfer initialization"
  match (← get).stage.record with
  | none => start v t
  | some old =>
    if old.transferId = t.transferId then need (old.reset = t) "changed transfer identity"
    else start v t

/-- A chunk that begins before what has been received. -/
def retry (t : Transfer) (offset : ℕ) (bytes : Bytes) : Exec ℕ := do
  need (bytes.length ≤ t.receivedBytes - offset ∧ ((← get).stage.files .image).isSome = true)
    "overlapping transfer retry"
  let raw ← check imageFile
  need (t.receivedBytes ≤ raw.length ∧ bytes = (raw.drop offset).take bytes.length)
    "changed transfer retry"
  io (·.change .image File.force)
  return t.receivedBytes

/-- The chunk that comes next. -/
def extend (t : Transfer) (bytes : Bytes) : Exec ℕ := do
  io (·.openFile .image)
  need (t.receivedBytes ≤ size .image (← get).stage) "lost acknowledged transfer bytes"
  io (·.change .image (·.truncate t.receivedBytes))
  append .image bytes
  io (·.change .image File.force)
  io Stage.sync
  let t' ← check fun _ => t.received (t.receivedBytes + bytes.length)
  publish v t'
  return t.receivedBytes + bytes.length

def chunk (id : ℕ) (offset : ℤ) (bytes : Bytes) (ballot : Ballot) : Exec ℕ := do
  let t ← check record
  need (t.transferId = id ∧ t.ballot = ballot) "stale transfer identity/ballot"
  capacity (0 < bytes.length ∧ bytes.length ≤ v.snapshotChunkBytes) "transfer chunk capacity"
  need (0 ≤ offset ∧ offset ≤ t.receivedBytes ∧ bytes.length ≤ t.imageBytes - offset)
    "transfer chunk offset"
  let count ← check v.inventory
  let old := size .image (← get).stage
  reserve v.maxSnapshotStagingBytes count old t.imageBytes "transfer reservation"
  reserve v.maxRetainedLogBytes count old t.imageBytes "transfer reservation"
  if offset < t.receivedBytes then retry t offset.toNat bytes
  else extend v t bytes

/-- `AutomaticRecovery.Image.read`: the bytes of the record, and what they hold. -/
def readImage (bytes : Bytes) : Except Failure (Bytes × Image m) := do
  let body ← imageBody v.hash bytes
  return (bytes, ← v.content body)

def completeTransfer (id : ℕ) (ballot : Ballot) : Exec (Bytes × Image m) := do
  let t ← check record
  need (t.transferId = id ∧ t.ballot = ballot) "stale transfer"
  let raw ← check imageFile
  need (t.receivedBytes = t.imageBytes ∧ raw.length = t.imageBytes)
    "incomplete/changed transfer image"
  let found ← check fun _ => digest raw
  need (found = t.imageDigest) "incomplete/changed transfer image"
  check fun _ => readImage v raw

/-- `AutomaticStore.recoveryIo`: an exception quarantines the voter until it is opened again. -/
def recoveryIo {α : Type} (operation : Exec α) : Exec α := do
  if (← get).failed then
    throw ⟨.storageFailure, "automatic authority quarantined after ambiguous I/O"⟩
  tryCatch (do
    let result ← operation
    let _ ← check v.inventory
    return result) fun e => do
      modify fun s => { s with failed := true }
      throw e

end

/-! ### Runs -/

section

variable {D : Type} {m : Manifest D}

/-- What an operation came to. -/
def outcome {α : Type} : EStateM.Result Failure RecoveryFiles α → Except Failure α × RecoveryFiles
  | .ok a s => (.ok a, s)
  | .error e s => (.error e, s)

/-- A call with what it came to, or an opening after the voter stopped. -/
inductive Event (m : Manifest D) where
  | began (t : Transfer) (result : Except Failure Unit)
  | delivered (id : ℕ) (offset : ℤ) (bytes : Bytes) (ballot : Ballot) (result : Except Failure ℕ)
  | completed (id : ℕ) (ballot : Ballot) (result : Except Failure (Bytes × Image m))
  | opened

variable (v : Recovery m)

/-- A call whose changes may fail at any point, or a stop and an opening. -/
inductive Step : RecoveryFiles → Event m → RecoveryFiles → Prop where
  | began {s s' : RecoveryFiles} {t : Transfer} {result : Except Failure Unit}
      (faults : Option ℕ)
      (h : outcome (recoveryIo v (beginTransfer v t) { s with faults }) = (result, s')) :
      Step s (.began t result) s'
  | delivered {s s' : RecoveryFiles} {id : ℕ} {offset : ℤ} {bytes : Bytes} {ballot : Ballot}
      {result : Except Failure ℕ} (faults : Option ℕ)
      (h : outcome (recoveryIo v (chunk v id offset bytes ballot) { s with faults }) = (result, s')) :
      Step s (.delivered id offset bytes ballot result) s'
  | completed {s s' : RecoveryFiles} {id : ℕ} {ballot : Ballot}
      {result : Except Failure (Bytes × Image m)} (faults : Option ℕ)
      (h : outcome (recoveryIo v (completeTransfer v id ballot) { s with faults }) = (result, s')) :
      Step s (.completed id ballot result) s'
  | opened {s s' : RecoveryFiles} (h : s.stage.Survives s'.stage) (hlive : s'.failed = false) :
      Step s .opened s'

/-- A run, with its events in order. -/
inductive Run : RecoveryFiles → List (Event m) → RecoveryFiles → Prop where
  | nil {s : RecoveryFiles} : Run s [] s
  | step {s s' s'' : RecoveryFiles} {events : List (Event m)} {event : Event m}
      (run : Run s events s') (h : Step v s' event s'') : Run s (events ++ [event]) s''

end

end RecoveryFiles

end GeneralSearch.Replication
