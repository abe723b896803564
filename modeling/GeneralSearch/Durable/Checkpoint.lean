import GeneralSearch.Derived.Format
import GeneralSearch.Durable.Generations
import GeneralSearch.Durable.Writer
import GeneralSearch.Index.Equality
import GeneralSearch.Lib.Stream

/-! `DurableCheckpoint`: the file of a checkpoint and its manifest.  A checkpoint lists its indexes
and then one slot for each document id; the manifest names the file, its size and its checksum, and
the generation of the log behind it.  Both end in a CRC-32C of what stands before. -/

namespace GeneralSearch.Durable.DurableCheckpoint

open GeneralSearch.Engine GeneralSearch.Parser GeneralSearch.Storage
open GeneralSearch.Derived (decodeUtf8 digit hexDigit reject)
open GeneralSearch.Durable.DurableWal (Boundary HistoryId MAJOR WalFormat checksum)
open GeneralSearch.Index (JMap)
open GeneralSearch.Utf8 (JavaString)

def CHECKPOINT_MAGIC : ℤ := 0x47534543484B3130

def MANIFEST_MAGIC : ℤ := 0x4753454D414E3130

def MAX_INDEXES : ℕ := 100000

def MAX_MANIFEST_BYTES : ℕ := 16 * 1024

/-- `DurableFormatContext.checkpointFixedBytes`. -/
def checkpointFixedBytes (format : WalFormat) : ℕ := if format.hasProfile then 88 else 56

/-- `DurableFormatContext.manifestMinimumBytes`. -/
def manifestMinimumBytes (format : WalFormat) : ℕ := if format.hasProfile then 104 else 72

/-- The exceptions of a checkpoint. -/
abbrev Thrown := DurabilityException

/-- `corrupt`. -/
def corrupt (message : String) : Thrown := ⟨.corruptCheckpoint, none, message⟩

/-- `capacity`. -/
def capacity (message : String) : Thrown := ⟨.capacityExceeded, none, message⟩

/-- The `EOFException` of `read`. -/
def truncated : Thrown := corrupt "checkpoint is truncated"

/-- A value, where `none` stands for an exception that another one is thrown for. -/
def required {α : Type} (failure : Thrown) : Option α → Except Thrown α
  | some a => .ok a
  | none => .error failure

theorem required_eq_ok {α : Type} {failure : Thrown} {x : Option α} {a : α} :
    required failure x = .ok a ↔ x = some a := by
  cases x <;> simp [required]

/-! ### The identity of a file -/

/-- The fields in front of both files; the digest is there where the format has a profile. -/
structure FileIdentity where
  magic : ℤ
  major : ℤ
  minor : ℤ
  mostSignificantBits : ℤ
  leastSignificantBits : ℤ
  profileDigest : Bytes
  deriving DecidableEq

namespace FileIdentity

/-- The identity that is written. -/
def own (magic : ℤ) (format : WalFormat) (historyId : HistoryId) : FileIdentity where
  magic
  major := MAJOR
  minor := format.minor
  mostSignificantBits := historyId.mostSignificantBits.toInt
  leastSignificantBits := historyId.leastSignificantBits.toInt
  profileDigest := format.profileDigest

def write (i : FileIdentity) : Bytes :=
  writeSigned 8 i.magic ++ writeSigned 2 i.major ++ writeSigned 2 i.minor ++
    writeSigned 8 i.mostSignificantBits ++ writeSigned 8 i.leastSignificantBits ++ i.profileDigest

/-- An identity of another kind of file, of another format or of another history. -/
def Foreign (i : FileIdentity) (magic : ℤ) (format : WalFormat) (expectedHistoryId : HistoryId) :
    Prop :=
  i.magic ≠ magic ∨ i.major ≠ MAJOR ∨ i.minor ≠ format.minor ∨
    i.profileDigest ≠ format.profileDigest ∨
    (i.mostSignificantBits ≠ expectedHistoryId.mostSignificantBits.toInt ∨
      i.leastSignificantBits ≠ expectedHistoryId.leastSignificantBits.toInt)

instance (i : FileIdentity) (magic : ℤ) (format : WalFormat) (expectedHistoryId : HistoryId) :
    Decidable (i.Foreign magic format expectedHistoryId) := inferInstanceAs (Decidable (_ ∨ _))

end FileIdentity

/-- Content with its checksum behind it. -/
def finish (content : Bytes) : Bytes := content ++ writeSigned 4 (checksum content)

/-! ### Reading fields -/

def readIdentity (eof : Thrown) (format : WalFormat) : Parser Bytes Thrown FileIdentity := do
  let magic ← (input eof).signed 8
  let major ← (input eof).signed 2
  let minor ← (input eof).signed 2
  let mostSignificantBits ← (input eof).signed 8
  let leastSignificantBits ← (input eof).signed 8
  let profileDigest ← (input eof).bytes (if format.hasProfile then 32 else 0)
  return ⟨magic, major, minor, mostSignificantBits, leastSignificantBits, profileDigest⟩

/-- `readBytes`. -/
def readBytes (eof : Thrown) (maximum : ℕ) (allowEmpty : Bool) (name : String) :
    Parser Bytes Thrown Bytes := do
  let length ← (input eof).signed 4
  refuse (length < 0 ∨ maximum < length ∨ (allowEmpty = false ∧ length = 0))
    (corrupt (name ++ " has an invalid length"))
  take (corrupt (name ++ " is truncated")) length.toNat

/-- `readString`. -/
def readString (eof : Thrown) (maximum : ℕ) (allowEmpty : Bool) (name : String) :
    Parser Bytes Thrown JavaString := do
  let encoded ← readBytes eof maximum allowEmpty name
  liftM (decodeUtf8 (corrupt (name ++ " is not strict UTF-8")) encoded)

/-! ### The file name -/

/-- `CHECKPOINT_FILE`, the pattern `gse-checkpoint-[0-9]{20}-[a-f0-9]{32}\.chk`. -/
def isCheckpointFile (name : JavaString) : Bool :=
  let sequence := (name.drop 15).take 20
  let nonce := (name.drop 36).take 32
  decide (name = Utf8.ofString "gse-checkpoint-" ++ sequence ++ Utf8.ofString "-" ++ nonce ++
      Utf8.ofString ".chk" ∧ sequence.length = 20 ∧ nonce.length = 32) &&
    sequence.all digit && nonce.all hexDigit

/-- `UUID.randomUUID()` without its hyphens. -/
abbrev Nonce := {nonce : JavaString // nonce.length = 32 ∧ nonce.all hexDigit = true}

/-- The decimal digits of a number, with zeros in front. -/
def decimalDigits : ℕ → ℕ → JavaString
  | 0, _ => []
  | width + 1, n => decimalDigits width (n / 10) ++ [UInt16.ofNat (0x30 + n % 10)]

/-- `newCheckpointFile`. -/
def newCheckpointFile (sequence : ℕ) (nonce : Nonce) : JavaString :=
  Utf8.ofString "gse-checkpoint-" ++ decimalDigits 20 sequence ++ Utf8.ofString "-" ++ nonce.val ++
    Utf8.ofString ".chk"

/-! ### The manifest -/

/-- The checks of the constructor of `Manifest`, and the ranges of its types. -/
def manifestValid (checkpointSequence : ℤ) (checkpointFile : JavaString)
    (checkpointBytes checkpointChecksum walGeneration walFirstSequence : ℤ) : Prop :=
  0 ≤ checkpointSequence ∧ 56 ≤ checkpointBytes ∧ isCheckpointFile checkpointFile = true ∧
    1 < walGeneration ∧ walFirstSequence = checkpointSequence + 1 ∧ Signed 8 checkpointBytes ∧
    Signed 4 checkpointChecksum ∧ Signed 8 walGeneration ∧ Signed 8 walFirstSequence

instance (checkpointSequence : ℤ) (checkpointFile : JavaString)
    (checkpointBytes checkpointChecksum walGeneration walFirstSequence : ℤ) :
    Decidable (manifestValid checkpointSequence checkpointFile checkpointBytes checkpointChecksum
      walGeneration walFirstSequence) := by
  unfold manifestValid Signed
  infer_instance

/-- `Manifest`. -/
structure Manifest where
  checkpointSequence : ℤ
  checkpointFile : JavaString
  checkpointBytes : ℤ
  checkpointChecksum : ℤ
  walGeneration : ℤ
  walFirstSequence : ℤ
  valid : manifestValid checkpointSequence checkpointFile checkpointBytes checkpointChecksum
    walGeneration walFirstSequence
  deriving DecidableEq

/-- `new Manifest`, with `none` for its exceptions. -/
def Manifest.make (checkpointSequence : ℤ) (checkpointFile : JavaString)
    (checkpointBytes checkpointChecksum walGeneration walFirstSequence : ℤ) : Option Manifest :=
  if h : manifestValid checkpointSequence checkpointFile checkpointBytes checkpointChecksum
      walGeneration walFirstSequence then
    some ⟨checkpointSequence, checkpointFile, checkpointBytes, checkpointChecksum, walGeneration,
      walFirstSequence, h⟩
  else none

/-- `encodeManifest`, without its checksum. -/
def manifestContent (format : WalFormat) (historyId : HistoryId) (manifest : Manifest) : Bytes :=
  (FileIdentity.own MANIFEST_MAGIC format historyId).write ++
    writeSigned 8 manifest.checkpointSequence ++ writeSigned 8 manifest.checkpointBytes ++
    writeSigned 4 manifest.checkpointChecksum ++ Derived.writeString manifest.checkpointFile ++
    writeSigned 8 manifest.walGeneration ++ writeSigned 8 manifest.walFirstSequence

/-- `encodeManifest`. -/
def encodeManifest (format : WalFormat) (historyId : HistoryId) (manifest : Manifest) : Bytes :=
  finish (manifestContent format historyId manifest)

/-- The `EOFException` and the `ArithmeticException` of `readManifest`. -/
def manifestStructure : Thrown := corrupt "checkpoint manifest structure is invalid"

def manifestIdentity : Thrown := corrupt "checkpoint manifest identity is invalid"

/-- The fields of a manifest. -/
structure ManifestFields where
  identity : FileIdentity
  checkpointSequence : ℤ
  checkpointBytes : ℤ
  checkpointChecksum : ℤ
  checkpointFile : JavaString
  walGeneration : ℤ
  walFirstSequence : ℤ

/-- The fields as `readManifest` reads them. -/
def readManifestFields (format : WalFormat) : Parser Bytes Thrown ManifestFields := do
  let eof := manifestStructure
  let identity ← readIdentity eof format
  let checkpointSequence ← (input eof).signed 8
  let checkpointBytes ← (input eof).signed 8
  let checkpointChecksum ← (input eof).signed 4
  let checkpointFile ← readString eof 256 false "checkpoint filename"
  let walGeneration ← (input eof).signed 8
  let walFirstSequence ← (input eof).signed 8
  return ⟨identity, checkpointSequence, checkpointBytes, checkpointChecksum, checkpointFile,
    walGeneration, walFirstSequence⟩

/-- The checks of the fields. -/
def ManifestFields.toManifest (f : ManifestFields) (format : WalFormat)
    (expectedHistoryId : HistoryId) (available : Bytes) : Except Thrown Manifest := do
  reject (available ≠ [] ∨ f.identity.Foreign MANIFEST_MAGIC format expectedHistoryId ∨
    f.checkpointSequence < 0 ∨ f.checkpointBytes < 56 ∨
    isCheckpointFile f.checkpointFile = false ∨ f.walGeneration ≤ 1 ∨ f.walFirstSequence ≤ 0)
    manifestIdentity
  -- `Math.addExact(checkpointSequence, 1)`
  reject (f.checkpointSequence = maxSequence) manifestStructure
  required manifestIdentity (Manifest.make f.checkpointSequence f.checkpointFile f.checkpointBytes
    f.checkpointChecksum f.walGeneration f.walFirstSequence)

/-- `readManifest`. -/
def readManifest (format : WalFormat) (expectedHistoryId : HistoryId) (encoded : Bytes) :
    Except Thrown Manifest := do
  reject (encoded.length < manifestMinimumBytes format ∨ MAX_MANIFEST_BYTES < encoded.length)
    (corrupt "checkpoint manifest has an invalid size")
  let content := encoded.take (encoded.length - 4)
  let (storedChecksum, _) ← (input manifestStructure).signed 4 (encoded.drop (encoded.length - 4))
  reject (checksum content ≠ storedChecksum) (corrupt "checkpoint manifest checksum mismatch")
  let (fields, available) ← readManifestFields format content
  fields.toManifest format expectedHistoryId available

/-! ### Writing a checkpoint -/

/-- `Capture`. -/
structure Capture (K T Index : Type) where
  snapshot : SearchSnapshot T Index
  documentIds : JMap K ℕ
  nextDocId : ℕ
  sequence : ℕ
  indexes : List DurableIndexDescriptor
  nextDocId_le : nextDocId ≤ maxDocId
  sequence_le : sequence ≤ maxSequence

/-- A program that writes to a `BoundedOutputStream`. -/
abbrev Writer (maximum : ℕ) := Parser (Output maximum) Thrown

/-- `DataOutputStream.write`, over the `BoundedOutputStream`. -/
def write {maximum : ℕ} (bytes : Bytes) : Writer maximum Unit :=
  put (capacity "checkpoint exceeds retained-byte budget") bytes

/-- The bytes of an index. -/
def writtenIndex (index : DurableIndexDescriptor) : Bytes :=
  [index.kind] ++ Derived.writeString index.fieldName ++ Derived.writeString index.analyzerId

section

variable {K T : Type} [DecidableEq K] {ops : IndexOps T} (setup : Setup K ops)

/-- `canonicalKey`, the checks of the coordinator under another message. -/
def canonicalKey (key : K) : Except Thrown Bytes :=
  (Durable.canonicalKey setup key).mapError fun _ =>
    ⟨.codecFailure, none, "checkpoint key encoding failed"⟩

/-- `canonicalDocument`, likewise. -/
def canonicalDocument (key : K) (document : T) : Except Thrown Bytes :=
  (Durable.canonicalDocument setup key document).mapError fun _ =>
    ⟨.codecFailure, none, "checkpoint document encoding failed"⟩

/-- The variables of the loop of `writeContent` over the slots. -/
structure WriteLoop where
  docId : ℕ
  writtenLive : ℕ

/-- One round of that loop. -/
def writeSlot {maximum : ℕ} (capture : Capture K T ops.Index) (t : WriteLoop) :
    Writer maximum WriteLoop :=
  match capture.snapshot.get t.docId with
  | none => do
    write [0]
    return { t with docId := t.docId + 1 }
  | some document => do
    write [1]
    let key := setup.idOf document
    refuse (capture.documentIds.lookup key ≠ some t.docId)
      ⟨.replayFailure, some capture.sequence, "checkpoint capture has inconsistent canonical IDs"⟩
    let keyBytes ← liftM (canonicalKey setup key)
    let documentBytes ← liftM (canonicalDocument setup key document)
    write (writeBlock keyBytes)
    write (writeBlock documentBytes)
    return ⟨t.docId + 1, t.writtenLive + 1⟩

variable (format : WalFormat) (historyId : HistoryId)

/-- `writeContent`. -/
def writeContent {maximum : ℕ} (capture : Capture K T ops.Index) : Writer maximum Unit := do
  write (FileIdentity.own CHECKPOINT_MAGIC format historyId).write
  write (writeSigned 8 capture.sequence)
  write (writeSigned 4 capture.nextDocId)
  let liveDocuments := capture.snapshot.activeDocuments.card
  write (writeSigned 4 liveDocuments)
  write (writeSigned 4 capture.indexes.length)
  capture.indexes.forM fun index => write (writtenIndex index)
  write (writeSigned 4 capture.nextDocId)
  let t ← loop (writeSlot setup capture) capture.nextDocId ⟨0, 0⟩
  refuse (t.writtenLive ≠ liveDocuments ∨ capture.documentIds.entries.length ≠ liveDocuments)
    ⟨.replayFailure, some capture.sequence, "checkpoint capture live-document count changed"⟩

/-- The bytes of the file of `DurableCheckpoint.write`. -/
def writeFile (capture : Capture K T ops.Index) (maximumBytes : ℤ) : Except Thrown Bytes := do
  reject (maximumBytes ≤ 4) (capacity "checkpoint has no retained-byte budget")
  let (_, content) ← writeContent setup format historyId capture
    (Output.empty : Output (maximumBytes - 4).toNat)
  return finish content.val

/-- `encode`. -/
def encode (capture : Capture K T ops.Index) (maximumBytes : ℤ) : Except Thrown Bytes :=
  writeFile setup format historyId capture (min maximumBytes (2147483647 - 8))

/-! ### Reading a checkpoint -/

/-- `decodeKey`. -/
def decodeKey (encoded : Bytes) (sequence : ℕ) : Except Thrown K :=
  match setup.codec.decodeKey encoded with
  | none => .error ⟨.codecFailure, some sequence, "checkpoint key decode failed"⟩
  | some key =>
    if setup.codec.encodeKey key = some encoded then .ok key
    else .error ⟨.codecFailure, some sequence, "checkpoint key decode failed"⟩

/-- `decodeDocument`. -/
def decodeDocument (key : K) (encoded : Bytes) (sequence : ℕ) : Except Thrown T :=
  match setup.codec.decodeDocument encoded with
  | none => .error ⟨.codecFailure, some sequence, "checkpoint document decode failed"⟩
  | some document =>
    if key = setup.idOf document ∧ setup.codec.encodeDocument document = some encoded then
      .ok document
    else .error ⟨.codecFailure, some sequence, "checkpoint document decode failed"⟩

/-- An index of the loop over them, with the `IllegalArgumentException` of its constructor. -/
def readIndex : Parser Bytes Thrown DurableIndexDescriptor := do
  let kind ← (input truncated).byte
  let fieldName ← readString truncated 1024 false "index field"
  let analyzerId ← readString truncated 128 true "index analyzer"
  liftM (required (corrupt "checkpoint index descriptor is invalid")
    (DurableIndexDescriptor.make kind fieldName analyzerId))

/-- One round of that loop, with the indexes so far. -/
def indexStep (indexes : List DurableIndexDescriptor) :
    Parser Bytes Thrown (List DurableIndexDescriptor) := do
  let descriptor ← readIndex
  refuse (descriptor ∈ indexes) (corrupt "checkpoint contains a duplicate index")
  return indexes ++ [descriptor]

/-- The variables of the loop of `read` over the slots. -/
structure ReadLoop (K T : Type) where
  docId : ℕ
  slots : List (Option T)
  documentIds : K → Option ℕ
  decodedLive : ℕ

def ReadLoop.start : ReadLoop K T := ⟨0, [], fun _ => none, 0⟩

/-- One round of that loop. -/
def readSlot (sequence : ℕ) (t : ReadLoop K T) : Parser Bytes Thrown (ReadLoop K T) := do
  let state ← (input truncated).byte
  if state = 0 then
    return { t with docId := t.docId + 1, slots := t.slots ++ [none] }
  else
    refuse (state ≠ 1) (corrupt "checkpoint slot state is invalid")
    let keyBytes ← readBytes truncated setup.config.maxEncodedKeyBytes true "encoded key"
    let documentBytes ← readBytes truncated setup.config.maxEncodedDocumentBytes true
      "encoded document"
    let key ← liftM (decodeKey setup keyBytes sequence)
    let document ← liftM (decodeDocument setup key documentBytes sequence)
    refuse (t.documentIds key ≠ none) (corrupt "checkpoint contains a duplicate business key")
    return {
      docId := t.docId + 1
      slots := t.slots ++ [some document]
      documentIds := Function.update t.documentIds key (some t.docId)
      decodedLive := t.decodedLive + 1 }

/-- What `read` does with the content of the file, up to the check of what remains behind it. -/
def readContent (expectedManifest : Option Manifest) (contentBytes : ℕ) :
    Parser Bytes Thrown (Loaded K T) := do
  let identity ← readIdentity truncated format
  let sequence ← (input truncated).signed 8
  let nextDocId ← (input truncated).signed 4
  let liveDocuments ← (input truncated).signed 4
  let indexCount ← (input truncated).signed 4
  refuse (identity.Foreign CHECKPOINT_MAGIC format historyId ∨ sequence < 0 ∨ nextDocId < 0 ∨
    contentBytes < nextDocId ∨ liveDocuments < 0 ∨
    min nextDocId setup.config.maxDocuments < liveDocuments ∨ indexCount < 0 ∨
    MAX_INDEXES < indexCount) (corrupt "checkpoint header is invalid")
  refuse (∃ manifest ∈ expectedManifest, sequence ≠ manifest.checkpointSequence)
    (corrupt "checkpoint sequence does not match manifest")
  let indexes ← loop indexStep indexCount.toNat []
  let slotCount ← (input truncated).signed 4
  refuse (slotCount ≠ nextDocId) (corrupt "checkpoint slot count is not canonical")
  let t ← loop (readSlot setup sequence.toNat) slotCount.toNat .start
  refuse (t.decodedLive ≠ liveDocuments) (corrupt "checkpoint live-document count is invalid")
  return {
    slots := t.slots
    documentIds := t.documentIds
    liveDocuments := t.decodedLive
    nextDocId := nextDocId.toNat
    sequence := sequence.toNat
    indexes }

/-- `read` of a file under its name. -/
def read (expectedManifest : Option Manifest) (fileName : JavaString) (file : Bytes) :
    Except Thrown (Loaded K T) := do
  reject (file.length < checkpointFixedBytes format ∨ setup.config.maxRetainedBytes < file.length)
    (corrupt "checkpoint has an invalid size")
  reject (∃ manifest ∈ expectedManifest,
      (file.length : ℤ) ≠ manifest.checkpointBytes ∨ fileName ≠ manifest.checkpointFile)
    (corrupt "checkpoint does not match its manifest")
  let contentBytes := file.length - 4
  let content := file.take contentBytes
  let (loaded, remaining) ← readContent setup format historyId expectedManifest contentBytes content
  reject (remaining ≠ []) (corrupt "checkpoint contains trailing bytes")
  let (storedChecksum, _) ← (input truncated).signed 4 (file.drop contentBytes)
  reject (checksum content ≠ storedChecksum ∨
      ∃ manifest ∈ expectedManifest, storedChecksum ≠ manifest.checkpointChecksum)
    (corrupt "checkpoint checksum mismatch")
  return loaded

end

end GeneralSearch.Durable.DurableCheckpoint
