import GeneralSearch.Durable.WalOpen
import GeneralSearch.Lib.File

/-! The generations of the log.  `DurableStorageOwner` opens them in order, the writer appends to the
last one, a checkpoint cuts to a new one and deletes those that it covers.  A stop at any point leaves
of every file what was forced and a beginning of what was written behind it. -/

namespace GeneralSearch.Durable.DurableWal

/-! ### Opening a directory -/

/-- `inspectHeader`. -/
def inspectHeader (content : Bytes) (format : WalFormat) (expectedHistoryId : HistoryId) :
    Except DurabilityException Header := do
  refuse (content.length < format.walHeaderBytes) "WAL generation header is truncated"
  decodeGenerationHeader (content.take format.walHeaderBytes) format expectedHistoryId

/-- `forEachFrame`, with the frames that the consumer accepts. -/
def forEachFrame (content : Bytes) (format : WalFormat) (historyId : HistoryId)
    (generation firstSequence records : ℕ) : Except DurabilityException (List Frame) := do
  validateGenerationHeader (content.take format.walHeaderBytes) format historyId generation
    firstSequence
  let replay ← scan content format firstSequence false
  refuse (replay.records ≠ records) "WAL record count changed during recovery"
  return replay.accepted

/-- What a `DurableCheckpoint.Manifest` says of the log. -/
structure Boundary where
  walGeneration : ℕ
  walFirstSequence : ℕ
  deriving DecidableEq

/-- `WalMember`, with the content of its file. -/
structure WalMember where
  generation : ℕ
  content : Bytes

/-- A `DurableWal` that `open` has opened. -/
structure Opened where
  generation : ℕ
  firstSequence : ℕ
  result : OpenResult

/-- `Math.addExact(lastSequence(), 1)`. -/
def nextSequence (opened : Opened) : Except DurabilityException ℕ :=
  if opened.firstSequence + opened.result.records > maxSequence then
    .error ⟨.incompatibleStorage, none, "durable storage byte count overflowed"⟩
  else .ok (opened.firstSequence + opened.result.records)

/-- The loop of `DurableStorageOwner.open` over the generations. -/
def openMembers (format : WalFormat) (historyId : HistoryId) (manifest : Option Boundary) :
    (previousGeneration expectedNextSequence : ℕ) → List WalMember →
      Except DurabilityException (List Opened)
  | _, _, [] => return []
  | previousGeneration, expectedNextSequence, member :: rest => do
    let header ← inspectHeader member.content format historyId
    refuse (header.generation ≠ member.generation ∨
        previousGeneration ≠ 0 ∧ member.generation ≠ previousGeneration + 1 ∨
        previousGeneration = 0 ∧ member.generation = 1 ∧ header.firstSequence ≠ 1 ∨
        expectedNextSequence ≠ 0 ∧ header.firstSequence ≠ expectedNextSequence)
      "retained WAL generations are not contiguous"
    refuse (manifest.any (fun m => decide (member.generation = m.walGeneration ∧
        header.firstSequence ≠ m.walFirstSequence)) = true)
      "manifest WAL boundary does not match generation"
    let result ← openLog member.content format historyId member.generation
      header.firstSequence.toNat rest.isEmpty
    let opened : Opened := ⟨member.generation, header.firstSequence.toNat, result⟩
    let next ← nextSequence opened
    return opened :: (← openMembers format historyId manifest member.generation next rest)

/-- What `DurableStorageOwner.open` does with the log files of a directory. -/
def openWals (format : WalFormat) (historyId : HistoryId) (manifest : Option Boundary)
    (members : List WalMember) : Except DurabilityException (List Opened) := do
  match members with
  | [] => throw ⟨.incompatibleStorage, none,
      "initialized durable directory has missing authoritative members"⟩
  | first :: _ =>
    let opened ← openMembers format historyId manifest 0 0 members
    refuse (manifest.any (fun m => decide ((∀ member ∈ members, member.generation ≠ m.walGeneration) ∨
        first.generation > m.walGeneration)) = true)
      "authoritative post-checkpoint WAL generation is missing"
    return opened

/-- The frames that `DurableRecovery.replay` meets. -/
def replayFrames (format : WalFormat) (historyId : HistoryId) :
    List Opened → Except DurabilityException (List Frame)
  | [] => return []
  | opened :: rest => do
    let frames ← forEachFrame opened.result.content format historyId opened.generation
      opened.firstSequence opened.result.records
    return frames ++ (← replayFrames format historyId rest)

/-! ### Runs -/

/-- A log file: what its name and its header say, and the file itself. -/
structure LogFile where
  generation : ℕ
  firstSequence : ℕ
  file : Lib.File UInt8

def LogFile.member (f : LogFile) : WalMember := ⟨f.generation, f.file.content⟩

/-- The log files, the oldest first, the boundary in the manifest, and the sequence that the writer
gives out next, unless there is none or it is terminal.  Nothing reads the last two fields: the frames
whose group was forced, and those that were handed to an append. -/
structure Logs where
  older : List LogFile
  last : LogFile
  manifest : Option Boundary
  writer : Option ℕ
  acknowledged : List Frame
  attempted : List Frame

def Logs.files (d : Logs) : List LogFile := d.older ++ [d.last]

section

variable (format : WalFormat) (historyId : HistoryId)

/-- The header of the file, as `create` writes it. -/
def LogFile.header (f : LogFile) : Bytes :=
  generationHeader format historyId f.generation f.firstSequence

/-- The file when `create` has written some bytes of its header. -/
def LogFile.begun (generation firstSequence written : ℕ) : LogFile where
  generation
  firstSequence
  file := ⟨(generationHeader format historyId generation firstSequence).take written, 0, false⟩

/-- The file when `create` has returned and the directory is forced. -/
def LogFile.created (generation firstSequence : ℕ) : LogFile where
  generation
  firstSequence
  file := ⟨generationHeader format historyId generation firstSequence,
    (generationHeader format historyId generation firstSequence).length, true⟩

/-- The file with bytes behind it. -/
def LogFile.write (f : LogFile) (bytes : Bytes) : LogFile :=
  { f with file := { f.file with content := f.file.content ++ bytes } }

def LogFile.force (f : LogFile) : LogFile := { f with file := f.file.force }

/-- The log of a fresh directory. -/
def Logs.fresh : Logs := ⟨[], .created format historyId 1 1, none, some 1, [], []⟩

/-- What a stop leaves of the files. -/
inductive Stops : List LogFile → List LogFile → Prop where
  | nil : Stops [] []
  | kept {f g : LogFile} {fs gs : List LogFile} (htorn : f.file.Torn g.file)
      (hgeneration : g.generation = f.generation) (hfirst : g.firstSequence = f.firstSequence)
      (hrest : Stops fs gs) : Stops (f :: fs) (g :: gs)
  | lost {f : LogFile} {fs gs : List LogFile} (hlinked : f.file.linked = false)
      (hrest : Stops fs gs) : Stops (f :: fs) gs

/-- The file as `open` leaves it: a tail is cut off, and the rest forced. -/
def LogFile.reopened (f : LogFile) (opened : Opened) : LogFile :=
  { f with file := ⟨opened.result.content, opened.result.content.length, true⟩ }

/-- One step of the writer, of the checkpoint executor or of a start. -/
inductive Step : Logs → Logs → Prop where
  /-- `appendAndForce` returns. -/
  | append {d : Logs} {next : ℕ} {units : List PreparedUnit} (hwriter : d.writer = some next)
      (hframed : ∀ unit ∈ units, Framed unit) (hfits : next + units.length ≤ maxSequence + 1) :
      Step d { d with
        last := (d.last.write (frames format next units)).force
        writer := some (next + units.length)
        acknowledged := d.acknowledged ++ framesFrom next units
        attempted := d.attempted ++ framesFrom next units }
  /-- `appendAndForce` throws, with some bytes written. -/
  | appendFails {d : Logs} {next : ℕ} {units : List PreparedUnit} (written : ℕ)
      (hwriter : d.writer = some next) (hframed : ∀ unit ∈ units, Framed unit)
      (hfits : next + units.length ≤ maxSequence + 1) :
      Step d { d with
        last := d.last.write ((frames format next units).take written)
        writer := none
        attempted := d.attempted ++ framesFrom next units }
  /-- `cutGeneration` returns. -/
  | cut {d : Logs} {next : ℕ} (hwriter : d.writer = some next) (hnext : next ≤ maxSequence)
      (hgeneration : d.last.generation < maxSequence) :
      Step d { d with
        older := d.older ++ [d.last.force]
        last := .created format historyId (d.last.generation + 1) next }
  /-- `cutGeneration` throws in `create`, with some bytes of the header written. -/
  | cutFails {d : Logs} {next : ℕ} (written : ℕ) (hwriter : d.writer = some next)
      (hnext : next ≤ maxSequence) (hgeneration : d.last.generation < maxSequence) :
      Step d { d with
        older := d.older ++ [d.last.force]
        last := .begun format historyId (d.last.generation + 1) next written
        writer := none }
  /-- The writer becomes terminal, or the process stops. -/
  | halt {d : Logs} : Step d { d with writer := none }
  /-- A checkpoint is published, for a cut that has returned. -/
  | publish {d : Logs} {f : LogFile} (hf : f ∈ d.files)
      (hcut : f.file.linked = true) :
      Step d { d with manifest := some ⟨f.generation, f.firstSequence⟩ }
  /-- `cleanupAfterPublication` deletes the oldest file.  Deletions reach the disk in their order. -/
  | delete {d : Logs} {f : LogFile} {rest : List LogFile} {m : Boundary}
      (holder : d.older = f :: rest) (hmanifest : d.manifest = some m)
      (hcovered : f.generation < m.walGeneration) : Step d { d with older := rest }
  /-- The directory is opened again. -/
  | reopen {d : Logs} {files : List LogFile} {opened : List Opened} {older : List LogFile}
      {last : LogFile} {o : Opened} (hstops : Stops d.files files)
      (hopen : openWals format historyId d.manifest (files.map LogFile.member) = .ok opened)
      (hfiles : List.zipWith LogFile.reopened files opened = older ++ [last])
      (hlast : o ∈ opened.getLast?) :
      Step d { d with older, last, writer := some (o.firstSequence + o.result.records) }

/-- The logs that steps lead to from a fresh directory. -/
inductive Reachable : Logs → Prop where
  | fresh : Reachable (Logs.fresh format historyId)
  | step {d d' : Logs} (h : Reachable d) (hs : Step format historyId d d') : Reachable d'

end

end GeneralSearch.Durable.DurableWal
