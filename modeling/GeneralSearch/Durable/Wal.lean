import GeneralSearch.Durable.Recovery
import GeneralSearch.Lib.Crc32c

/-! `DurableWal`: the file of a log generation.  A header names the generation; behind it stand the
frames of the units, with consecutive sequences.  A file may end in a frame that was not written to
its end, which `open` cuts off. -/

namespace GeneralSearch.Durable.DurableWal

open GeneralSearch.Crc32c

/-- What the log writes of a `DurableFormatContext`. -/
structure WalFormat where
  minor : ℕ
  profileDigest : Bytes
  minor_le : minor ≤ 2
  digest_length : profileDigest.length = if minor = 0 then 0 else 32

/-- `UUID`. -/
structure HistoryId where
  mostSignificantBits : Int64
  leastSignificantBits : Int64
  deriving DecidableEq

def WAL_MAGIC : ℤ := 0x47534557414C3130

def FRAME_MAGIC : ℤ := 0x47534546

/-- `DurableFormatContext.MAJOR`. -/
def MAJOR : ℤ := 1

def WalFormat.hasProfile (format : WalFormat) : Bool := format.minor ≠ 0

def WalFormat.walHeaderBytes (format : WalFormat) : ℕ := if format.hasProfile then 80 else 48

/-- `corrupt`. -/
def corrupt (message : String) : DurabilityException := ⟨.corruptWal, none, message⟩

/-- `if (condition) throw corrupt(message, null)`. -/
def refuse (condition : Prop) [Decidable condition] (message : String) :
    Except DurabilityException Unit :=
  if condition then .error (corrupt message) else .ok ()

/-! ### Numbers of a buffer -/

/-- `ByteBuffer.put`, `putShort`, `putInt` and `putLong`. -/
def put (width : ℕ) (value : ℤ) : Bytes := twosComplement width value

def slice (position width : ℕ) (buffer : Bytes) : Bytes := (buffer.drop position).take width

/-- `ByteBuffer.get`, `getShort`, `getInt` and `getLong`, at a position. -/
def get (width position : ℕ) (buffer : Bytes) : ℤ := ofTwosComplement (slice position width buffer)

/-- `(int) checksum.getValue()`, after `checksum.update(bytes)`. -/
def checksum (bytes : Bytes) : ℤ := (crc32c bytes).toInt

/-! ### Writing -/

/-- The header of a frame, as `writeFrame` puts it. -/
def frameHeader (format : WalFormat) (frameLength sequence : ℕ) (type : UInt8)
    (payloadLength : ℕ) : Bytes :=
  put 4 FRAME_MAGIC ++ put 2 MAJOR ++ put 2 format.minor ++ put 4 frameLength ++ put 8 sequence ++
    [type] ++ [0] ++ put 2 0 ++ put 4 payloadLength

/-- The length of a frame. -/
def frameLength (payloadLength : ℕ) : ℕ := frameHeaderBytes + payloadLength + frameTrailerBytes

/-- The bytes of a frame. -/
def frameBytes (format : WalFormat) (sequence : ℕ) (unit : PreparedUnit) : Bytes :=
  let header := frameHeader format (frameLength unit.payload.length) sequence unit.type
    unit.payload.length
  header ++ unit.payload ++ put frameTrailerBytes (checksum (header ++ unit.payload))

def writeFrame (format : WalFormat) (sequence : ℕ) (unit : PreparedUnit) :
    Except DurabilityException Bytes :=
  if frameLength unit.payload.length > maxFrameBytes then
    .error ⟨.capacityExceeded, none, "encoded WAL frame exceeds the 256 MiB hard limit"⟩
  else .ok (frameBytes format sequence unit)

/-- The frames of a log, from a sequence on. -/
def frames (format : WalFormat) : ℕ → List PreparedUnit → Bytes
  | _, [] => []
  | sequence, unit :: units => frameBytes format sequence unit ++ frames format (sequence + 1) units

/-- `generationHeader`, without its checksum. -/
def generationIdentity (format : WalFormat) (historyId : HistoryId) (generation firstSequence : ℕ) :
    Bytes :=
  put 8 WAL_MAGIC ++ put 2 MAJOR ++ put 2 format.minor ++
    put 8 historyId.mostSignificantBits.toInt ++ put 8 historyId.leastSignificantBits.toInt ++
    format.profileDigest ++ put 8 generation ++ put 8 firstSequence

def generationHeader (format : WalFormat) (historyId : HistoryId) (generation firstSequence : ℕ) :
    Bytes :=
  let identity := generationIdentity format historyId generation firstSequence
  identity ++ put 4 (checksum identity)

/-! ### Reading -/

/-- `Header`. -/
structure Header where
  generation : ℤ
  firstSequence : ℤ
  deriving DecidableEq

/-- `decodeGenerationHeader`; the digest is there where the format has a profile. -/
def decodeGenerationHeader (encoded : Bytes) (format : WalFormat) (expectedHistoryId : HistoryId) :
    Except DurabilityException Header := do
  let digestBytes := if format.hasProfile then 32 else 0
  refuse (checksum (encoded.take (format.walHeaderBytes - 4)) ≠ get 4 (digestBytes + 44) encoded)
    "WAL generation header checksum mismatch"
  refuse (get 8 0 encoded ≠ WAL_MAGIC ∨ get 2 8 encoded ≠ MAJOR ∨ get 2 10 encoded ≠ format.minor ∨
      slice 28 digestBytes encoded ≠ format.profileDigest)
    "WAL generation format identity is invalid"
  refuse (get 8 12 encoded ≠ expectedHistoryId.mostSignificantBits.toInt ∨
      get 8 20 encoded ≠ expectedHistoryId.leastSignificantBits.toInt)
    "WAL generation belongs to another history"
  let generation := get 8 (digestBytes + 28) encoded
  let firstSequence := get 8 (digestBytes + 36) encoded
  refuse (generation ≤ 0 ∨ firstSequence ≤ 0) "WAL generation identity is invalid"
  return ⟨generation, firstSequence⟩

def validateGenerationHeader (encoded : Bytes) (format : WalFormat) (expectedHistoryId : HistoryId)
    (expectedGeneration expectedFirstSequence : ℕ) : Except DurabilityException Unit := do
  let decoded ← decodeGenerationHeader encoded format expectedHistoryId
  refuse (decoded.generation ≠ expectedGeneration ∨ decoded.firstSequence ≠ expectedFirstSequence)
    "WAL generation identity is invalid"

/-- `FrameHeader`, with the relation of its lengths that every decoded one meets. -/
structure FrameHeader where
  frameLength : ℕ
  type : UInt8
  payloadLength : ℕ
  relation : frameLength = DurableWal.frameLength payloadLength

/-- `decodeFrameHeader`. -/
def decodeFrameHeader (encoded : Bytes) (format : WalFormat) (expectedSequence : ℕ) :
    Except DurabilityException FrameHeader := do
  let length := get 4 8 encoded
  let type := encoded.getD 20 0
  let payloadLength := get 4 24 encoded
  refuse (get 4 0 encoded ≠ FRAME_MAGIC ∨ get 2 4 encoded ≠ MAJOR ∨ get 2 6 encoded ≠ format.minor)
    "WAL frame format identity is invalid"
  if h : frameHeaderBytes + frameTrailerBytes ≤ length ∧ length ≤ maxFrameBytes ∧
      0 ≤ payloadLength ∧ length = frameHeaderBytes + payloadLength + frameTrailerBytes then
    refuse (get 8 12 encoded ≠ expectedSequence)
      s!"WAL sequence is not contiguous: expected {expectedSequence} but was {get 8 12 encoded}"
    refuse (type < singleType ∨ type > indexDropType ∨ encoded.getD 21 0 ≠ 0 ∨ get 2 22 encoded ≠ 0)
      "WAL frame type, flags, or reserved bytes are invalid"
    return ⟨length.toNat, type, payloadLength.toNat, by unfold DurableWal.frameLength; omega⟩
  else throw (corrupt "WAL frame length relation is invalid")

/-- `validateIncompleteHeaderPrefix`: what is there of the header of a frame. -/
def validateIncompleteHeaderPrefix (available : Bytes) (format : WalFormat)
    (expectedSequence : ℕ) : Except DurabilityException Unit := do
  let stable := put 4 FRAME_MAGIC ++ put 2 MAJOR ++ put 2 format.minor
  let stablePrefix := min available.length 8
  refuse (available.take stablePrefix ≠ stable.take stablePrefix)
    "incomplete WAL header has an invalid format prefix"
  refuse (12 ≤ available.length ∧ (get 4 8 available < frameHeaderBytes + frameTrailerBytes ∨
      get 4 8 available > maxFrameBytes))
    "incomplete WAL header has an invalid frame length"
  let availableSequenceBytes := min 8 (available.length - 12)
  refuse (slice 12 availableSequenceBytes available ≠
      (put 8 expectedSequence).take availableSequenceBytes)
    "incomplete WAL header has an invalid sequence"
  refuse (21 ≤ available.length ∧
      (available.getD 20 0 < singleType ∨ available.getD 20 0 > indexDropType))
    "incomplete WAL header has an invalid type"
  refuse (22 ≤ available.length ∧ available.getD 21 0 ≠ 0)
    "incomplete WAL header has non-zero flags"
  refuse (23 ≤ available.length ∧ available.getD 22 0 ≠ 0 ∨
      24 ≤ available.length ∧ available.getD 23 0 ≠ 0)
    "incomplete WAL header has non-zero reserved bytes"

/-- A frame that was read: its header and its payload. -/
structure FrameRead where
  header : FrameHeader
  payload : Bytes

/-- A round of the loop of `scan`, at a boundary with bytes behind it: the frame there, or none
where it is incomplete. -/
def scanFrame (format : WalFormat) (allowIncompleteTail : Bool) (expectedSequence : ℕ)
    (remaining : Bytes) : Except DurabilityException (Option FrameRead) := do
  if remaining.length < frameHeaderBytes then
    validateIncompleteHeaderPrefix remaining format expectedSequence
    refuse (allowIncompleteTail = false) "WAL became truncated during recovery"
    return none
  let headerBytes := remaining.take frameHeaderBytes
  let header ← decodeFrameHeader headerBytes format expectedSequence
  if remaining.length < header.frameLength then
    refuse (allowIncompleteTail = false) "WAL became truncated during recovery"
    return none
  let payload := slice frameHeaderBytes header.payloadLength remaining
  refuse (checksum (headerBytes ++ payload) ≠
      get frameTrailerBytes (frameHeaderBytes + header.payloadLength) remaining)
    s!"WAL frame checksum mismatch at sequence {expectedSequence}"
  return some ⟨header, payload⟩

/-- `Scan`, with the frames that the consumer accepts. -/
structure Scan where
  boundary : ℕ
  records : ℕ
  incompleteTail : Bool
  accepted : List Frame
  deriving DecidableEq

/-- The counters of a round of the loop behind a frame, and the frame handed to the consumer. -/
def Scan.accept (scan : Scan) (expectedSequence : ℕ) (frame : FrameRead) : Scan where
  boundary := scan.boundary + frame.header.frameLength
  records := scan.records + 1
  incompleteTail := scan.incompleteTail
  accepted := scan.accepted ++ [⟨expectedSequence, frame.header.type, frame.payload⟩]

/-- The loop of `scan`, with what is behind the boundary.  A file has fewer than 2^63 bytes, so no
sum of the loop overflows. -/
def scanFrom (format : WalFormat) (allowIncompleteTail : Bool) (remaining : Bytes)
    (expectedSequence : ℕ) (scan : Scan) : Except DurabilityException Scan := do
  if _ : remaining = [] then return scan
  else
    match ← scanFrame format allowIncompleteTail expectedSequence remaining with
    | none => return { scan with incompleteTail := true }
    | some frame =>
      let rest := remaining.drop frame.header.frameLength
      let scan := scan.accept expectedSequence frame
      if expectedSequence = maxSequence then
        refuse (rest ≠ []) "WAL sequence space contains an overflow"
        return scan
      else scanFrom format allowIncompleteTail rest (expectedSequence + 1) scan
termination_by remaining.length
decreasing_by
  have hpos : 0 < remaining.length := List.length_pos_iff.mpr ‹_›
  have hrelation := frame.header.relation
  unfold frameLength frameHeaderBytes at hrelation
  rw [List.length_drop]
  omega

/-- `scan`. -/
def scan (content : Bytes) (format : WalFormat) (firstSequence : ℕ) (allowIncompleteTail : Bool) :
    Except DurabilityException Scan :=
  scanFrom format allowIncompleteTail (content.drop format.walHeaderBytes) firstSequence
    ⟨format.walHeaderBytes, 0, false, []⟩

/-- `OpenResult`, with the position of its log and the content of the file. -/
structure OpenResult where
  position : ℕ
  records : ℕ
  truncatedBytes : ℕ
  content : Bytes
  deriving DecidableEq

/-- `open`.  The constructor of `DurableWal` finds nothing wrong with what was validated here. -/
def openLog (content : Bytes) (format : WalFormat) (expectedHistoryId : HistoryId)
    (expectedGeneration expectedFirstSequence : ℕ) (allowIncompleteTail : Bool) :
    Except DurabilityException OpenResult := do
  refuse (content.length < format.walHeaderBytes) "WAL generation header is truncated"
  validateGenerationHeader (content.take format.walHeaderBytes) format expectedHistoryId
    expectedGeneration expectedFirstSequence
  let scan ← scan content format expectedFirstSequence allowIncompleteTail
  if scan.incompleteTail then
    return ⟨scan.boundary, scan.records, content.length - scan.boundary,
      content.take scan.boundary⟩
  return ⟨scan.boundary, scan.records, 0, content⟩

end GeneralSearch.Durable.DurableWal
