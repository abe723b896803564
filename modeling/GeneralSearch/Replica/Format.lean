import GeneralSearch.Lib.Decoder
import GeneralSearch.Lib.Utf8

/-! `ReplicaFormat`: the framing of replica metadata and journals, and the fields of a record. -/

namespace GeneralSearch.Replica

open GeneralSearch.Utf8 (JavaString)

/-! ### Failures -/

/-- `ReplicationException.Reason`. -/
inductive Reason where
  | notConfiguredLeader | quorumUnavailable | staleEpoch | conflictingHistory | capacityExceeded
  | protocolMismatch | integrityFailure | storageFailure | closed
  deriving DecidableEq, Repr

/-- What the code throws: a `ReplicationException`, an `IllegalArgumentException`, the
`IOException` of a record that ends early or of malformed text, an `ArithmeticException`. -/
inductive Failure where
  | replication (reason : Reason) (message : String)
  | illegalArgument (message : String)
  | io
  | arithmetic
  deriving DecidableEq, Repr

section

variable {M : Type → Type} [Monad M] [MonadExceptOf Failure M]

def require (condition : Prop) [Decidable condition] (reason : Reason) (message : String) : M Unit :=
  if condition then pure () else throw (.replication reason message)

/-- The checks of a constructor that throw an `IllegalArgumentException`. -/
def requireArgument (condition : Prop) [Decidable condition] (message : String) : M Unit :=
  if condition then pure () else throw (.illegalArgument message)

end

section

variable {condition : Prop} [Decidable condition] {reason : Reason} {message : String}

@[simp] theorem require_eq_ok {u : Unit} :
    (require condition reason message : Except Failure Unit) = .ok u ↔ condition := by
  unfold require
  by_cases h : condition <;> simp [h, pure, Except.pure, throw, throwThe, MonadExceptOf.throw]

@[simp] theorem requireArgument_eq_ok {u : Unit} :
    (requireArgument condition message : Except Failure Unit) = .ok u ↔ condition := by
  unfold requireArgument
  by_cases h : condition <;> simp [h, pure, Except.pure, throw, throwThe, MonadExceptOf.throw]

theorem require_run (bytes : Bytes) :
    (require condition reason message : Decoder Failure Unit) bytes =
      if condition then .ok ((), bytes) else .error (.replication reason message) := by
  unfold require
  split <;> rfl

@[simp] theorem require_run_eq_ok {bytes : Bytes} {r : Unit × Bytes} :
    (require condition reason message : Decoder Failure Unit) bytes = .ok r ↔
      condition ∧ r = ((), bytes) := by
  rw [require_run]
  by_cases h : condition
  · rw [if_pos h, Except.ok.injEq]
    exact ⟨fun heq => ⟨h, heq.symm⟩, fun heq => heq.2.symm⟩
  · rw [if_neg h]
    exact ⟨nofun, fun heq => absurd heq.1 h⟩

@[simp] theorem requireArgument_run_eq_ok {bytes : Bytes} {r : Unit × Bytes} :
    (requireArgument condition message : Decoder Failure Unit) bytes = .ok r ↔
      condition ∧ r = ((), bytes) := by
  unfold requireArgument
  by_cases h : condition
  · rw [if_pos h]
    exact Decoder.pure_eq_ok.trans ⟨fun heq => ⟨h, heq⟩, fun heq => heq.2⟩
  · rw [if_neg h]
    exact ⟨nofun, fun heq => absurd heq.1 h⟩

end

/-- The end of a `decode`: an exception of the file or of a constructor is an integrity failure. -/
def classify {α : Type} (message : String) : Except Failure α → Except Failure α
  | .error .io => .error (.replication .integrityFailure message)
  | .error (.illegalArgument _) => .error (.replication .integrityFailure message)
  | result => result

@[simp] theorem classify_eq_ok {α : Type} {message : String} {x : Except Failure α} {a : α} :
    classify message x = .ok a ↔ x = .ok a := by
  unfold classify
  split <;> simp

/-! ### Fields -/

/-- A SHA-256 digest: the hexadecimal string of the source, as its 32 bytes. -/
abbrev Hash := BitVec 256

abbrev Uuid := BitVec 128

/-- The minor version of the storage format. -/
abbrev Minor := Fin 2

instance Minor.neZero : NeZero 2 := ⟨by decide⟩

theorem Minor.eq_zero {minor : Minor} (h : minor ≠ 1) : minor = 0 := by
  revert h
  revert minor
  decide

def noIncarnation : Uuid := 0

def writeByte (v : UInt8) : Bytes := Decoder.writeBits 1 v.toBitVec

def writeShort (v : UInt16) : Bytes := Decoder.writeBits 2 v.toBitVec

def writeInt (v : Int32) : Bytes := Decoder.writeBits 4 v.toBitVec

def writeLong (v : Int64) : Bytes := Decoder.writeBits 8 v.toBitVec

/-- `uuid`, written. -/
def writeUuid (v : Uuid) : Bytes := Decoder.writeBits 16 v

/-- `hash`, written. -/
def writeHash (v : Hash) : Bytes := Decoder.writeBits 32 v

/-- A length or a count; each is below `2 ^ 31`. -/
def writeCount (n : ℕ) : Bytes := writeInt (.ofNat n)

/-- `text`, written by the strict encoder; what is written here has no surrogates. -/
def text (value : JavaString) : Bytes := writeCount (Utf8.getBytes value).length ++ Utf8.getBytes value

@[simp] theorem length_writeByte (v : UInt8) : (writeByte v).length = 1 := Decoder.length_writeBits ..

@[simp] theorem length_writeShort (v : UInt16) : (writeShort v).length = 2 :=
  Decoder.length_writeBits ..

@[simp] theorem length_writeInt (v : Int32) : (writeInt v).length = 4 := Decoder.length_writeBits ..

@[simp] theorem length_writeLong (v : Int64) : (writeLong v).length = 8 :=
  Decoder.length_writeBits ..

@[simp] theorem length_writeUuid (v : Uuid) : (writeUuid v).length = 16 :=
  Decoder.length_writeBits ..

@[simp] theorem length_writeHash (v : Hash) : (writeHash v).length = 32 :=
  Decoder.length_writeBits ..

@[simp] theorem length_writeCount (n : ℕ) : (writeCount n).length = 4 := length_writeInt _

@[simp] theorem length_text (value : JavaString) :
    (text value).length = 4 + (Utf8.getBytes value).length := by
  simp [text]

def readByte : Decoder Failure UInt8 := do
  let v ← Decoder.readBits .io 8 1
  return .ofBitVec v

def readShort : Decoder Failure UInt16 := do
  let v ← Decoder.readBits .io 16 2
  return .ofBitVec v

def readInt : Decoder Failure Int32 := do
  let v ← Decoder.readBits .io 32 4
  return .ofBitVec v

def readLong : Decoder Failure Int64 := do
  let v ← Decoder.readBits .io 64 8
  return .ofBitVec v

/-- `uuid`, read. -/
def readUuid : Decoder Failure Uuid := Decoder.readBits .io 128 16

/-- `hash`, read. -/
def readHash : Decoder Failure Hash := Decoder.readBits .io 256 32

/-- `end`. -/
def readEnd : Decoder Failure Unit := do
  require ((← Decoder.available) = 0) .integrityFailure "trailing replica record fields"

/-- `text`, read. -/
def readText (maximum : ℕ) : Decoder Failure JavaString := do
  let length ← readInt
  require (0 < length.toInt ∧ length.toInt ≤ maximum ∧ length.toInt ≤ (← Decoder.available))
    .integrityFailure "invalid replica string length"
  let bytes ← Decoder.readNBytes length.toInt.toNat
  match Utf8.decode bytes with
  | some value => return value
  | none => throw .io

open Decoder (Reads Inverts)

theorem readByte_reads (v : UInt8) : Reads readByte (writeByte v) v :=
  .map UInt8.ofBitVec (Decoder.readBits_reads 1 _ v.toBitVec rfl)

theorem readShort_reads (v : UInt16) : Reads readShort (writeShort v) v :=
  .map UInt16.ofBitVec (Decoder.readBits_reads 2 _ v.toBitVec rfl)

theorem readInt_reads (v : Int32) : Reads readInt (writeInt v) v :=
  .map Int32.ofBitVec (Decoder.readBits_reads 4 _ v.toBitVec rfl)

theorem readLong_reads (v : Int64) : Reads readLong (writeLong v) v :=
  .map Int64.ofBitVec (Decoder.readBits_reads 8 _ v.toBitVec rfl)

theorem readUuid_reads (v : Uuid) : Reads readUuid (writeUuid v) v :=
  Decoder.readBits_reads 16 _ v rfl

theorem readHash_reads (v : Hash) : Reads readHash (writeHash v) v :=
  Decoder.readBits_reads 32 _ v rfl

theorem readByte_inverts : Inverts readByte writeByte :=
  .map UInt8.ofBitVec (Decoder.readBits_inverts 1 _ rfl) fun _ => rfl

theorem readShort_inverts : Inverts readShort writeShort :=
  .map UInt16.ofBitVec (Decoder.readBits_inverts 2 _ rfl) fun _ => rfl

theorem readInt_inverts : Inverts readInt writeInt :=
  .map Int32.ofBitVec (Decoder.readBits_inverts 4 _ rfl) fun _ => rfl

theorem readLong_inverts : Inverts readLong writeLong :=
  .map Int64.ofBitVec (Decoder.readBits_inverts 8 _ rfl) fun _ => rfl

theorem readUuid_inverts : Inverts readUuid writeUuid := Decoder.readBits_inverts 16 _ rfl

theorem readHash_inverts : Inverts readHash writeHash := Decoder.readBits_inverts 32 _ rfl

section

variable {α : Type}

@[simp] theorem readByte_bind (v : UInt8) (f : UInt8 → Decoder Failure α) (rest : Bytes) :
    (readByte >>= f) (writeByte v ++ rest) = f v rest := (readByte_reads v).bind rest

@[simp] theorem readShort_bind (v : UInt16) (f : UInt16 → Decoder Failure α) (rest : Bytes) :
    (readShort >>= f) (writeShort v ++ rest) = f v rest := (readShort_reads v).bind rest

@[simp] theorem readInt_bind (v : Int32) (f : Int32 → Decoder Failure α) (rest : Bytes) :
    (readInt >>= f) (writeInt v ++ rest) = f v rest := (readInt_reads v).bind rest

@[simp] theorem readLong_bind (v : Int64) (f : Int64 → Decoder Failure α) (rest : Bytes) :
    (readLong >>= f) (writeLong v ++ rest) = f v rest := (readLong_reads v).bind rest

@[simp] theorem readUuid_bind (v : Uuid) (f : Uuid → Decoder Failure α) (rest : Bytes) :
    (readUuid >>= f) (writeUuid v ++ rest) = f v rest := (readUuid_reads v).bind rest

@[simp] theorem readHash_bind (v : Hash) (f : Hash → Decoder Failure α) (rest : Bytes) :
    (readHash >>= f) (writeHash v ++ rest) = f v rest := (readHash_reads v).bind rest

@[simp] theorem readNBytes_bind (n : ℕ) (f : Bytes → Decoder Failure α) (bytes : Bytes) :
    (Decoder.readNBytes n >>= f) bytes = f (bytes.take n) (bytes.drop n) := rfl

@[simp] theorem available_bind (f : ℕ → Decoder Failure α) (bytes : Bytes) :
    (Decoder.available >>= f) bytes = f bytes.length bytes := rfl

/-- A check that holds. -/
theorem require_bind {condition : Prop} [Decidable condition] (h : condition) {reason : Reason}
    {message : String} (f : Unit → Decoder Failure α) (bytes : Bytes) :
    ((require condition reason message : Decoder Failure Unit) >>= f) bytes = f () bytes :=
  Decoder.bind_of_ok (require_run_eq_ok.mpr ⟨h, rfl⟩)

end

@[simp] theorem readEnd_eq_ok {bytes : Bytes} {r : Unit × Bytes} :
    readEnd bytes = .ok r ↔ bytes = [] ∧ r = ((), []) := by
  unfold readEnd
  rw [Decoder.bind_of_ok (Decoder.available_eq bytes), require_run_eq_ok, List.length_eq_zero_iff]
  exact and_congr_right fun h => by rw [h]

/-- A count below `2 ^ 31` is read as it is. -/
theorem toInt_ofNat {n : ℕ} (h : n < 2 ^ 31) : (Int32.ofNat n).toInt = n :=
  Int32.toInt_ofNat_of_lt h

theorem ofNat_toNat {v : Int32} {n : ℕ} (h : v.toInt = n) : Int32.ofNat n = v := by
  have hlt : n < 2 ^ 31 := by
    have := v.toInt_lt
    omega
  exact Int32.toInt_inj.mp ((toInt_ofNat hlt).trans h.symm)

theorem readText_reads {value : JavaString} {maximum : ℕ} (hw : Utf8.WellFormed value)
    (hpos : 0 < (Utf8.getBytes value).length) (hmax : (Utf8.getBytes value).length ≤ maximum)
    (hint : maximum < 2 ^ 31) : Reads (readText maximum) (text value) value := by
  intro rest
  have hlength : (Int32.ofNat (Utf8.getBytes value).length).toInt = (Utf8.getBytes value).length :=
    toInt_ofNat (by omega)
  rw [readText, text, List.append_assoc, writeCount, readInt_bind, available_bind, hlength,
    Int.toNat_natCast, require_bind ⟨by omega, by omega, by rw [List.length_append]; omega⟩,
    (Decoder.readNBytes_reads _).bind, Utf8.decode_getBytes hw]
  rfl

theorem readText_inverts {maximum : ℕ} {bytes rest : Bytes} {value : JavaString}
    (h : readText maximum bytes = .ok (value, rest)) :
    Utf8.WellFormed value ∧ bytes = text value ++ rest := by
  unfold readText at h
  simp only [Decoder.bind_eq_ok, require_run_eq_ok, Prod.mk.injEq, Decoder.available_eq,
    Decoder.readNBytes_eq, Except.ok.injEq] at h
  obtain ⟨length, left, hlength, _, _, ⟨rfl, rfl⟩, _, mid, ⟨⟨hpos, _, hleft⟩, -, rfl⟩, taken, _,
    ⟨rfl, rfl⟩, h⟩ := h
  cases hdecode : Utf8.decode (mid.take length.toInt.toNat) with
  | none =>
    rw [hdecode] at h
    cases h
  | some value' =>
    rw [hdecode] at h
    simp only [Decoder.pure_eq_ok, Prod.mk.injEq] at h
    obtain ⟨rfl, rfl⟩ := h
    obtain ⟨hw, hbytes⟩ := Utf8.getBytes_decode hdecode
    refine ⟨hw, ?_⟩
    have htaken : (mid.take length.toInt.toNat).length = length.toInt.toNat := by
      rw [List.length_take]
      omega
    have hcount : Int32.ofNat (mid.take length.toInt.toNat).length = length := by
      apply ofNat_toNat
      rw [htaken]
      omega
    rw [text, hbytes, writeCount, hcount, List.append_assoc, List.take_append_drop,
      readInt_inverts _ _ _ hlength]

/-! ### Frames -/

/-- `MAGIC`. -/
def magic : Int32 := 0x47534552

def headerBytes : ℕ := 48

def maxMetadataBytes : ℕ := 64 * 1024

/-- `MAX_ENTRIES`. -/
def maxEntries : ℕ := 1000000

def manifestKind : UInt16 := 1
def nodeKind : UInt16 := 2
def journalKind : UInt16 := 3
def promiseKind : UInt16 := 4
def entryKind : UInt16 := 5
def proofKind : UInt16 := 6
def readyKind : UInt16 := 7

/-- The 16 bytes before the digest of a frame. -/
def frameHead (kind : UInt16) (length : ℕ) (minor : Minor) : Bytes :=
  writeInt magic ++ writeShort 1 ++ writeShort (.ofNat minor) ++ writeShort kind ++ writeShort 0 ++
    writeCount length

/-- The bytes of a frame. -/
def framed (sha256 : Bytes → Hash) (kind : UInt16) (body : Bytes) (minor : Minor) : Bytes :=
  frameHead kind body.length minor ++
    (writeHash (sha256 (frameHead kind body.length minor ++ body)) ++ body)

def frame (sha256 : Bytes → Hash) (kind : UInt16) (body : Bytes) (maximum : ℕ) (minor : Minor) :
    Except Failure Bytes := do
  require (0 < body.length ∧ body.length + headerBytes ≤ maximum) .capacityExceeded
    "replica frame exceeds bound"
  return framed sha256 kind body minor

def frameDigest (frame : Bytes) : Hash :=
  .ofNat 256 (ofBigEndian ((frame.drop 16).take 32))

/-- The reading of the first 16 bytes, up to the length that they end with. -/
def readHead (family flags : String) (kind : UInt16) (minor : Minor) : Decoder Failure Int32 := do
  require ((← readInt) = magic ∧ (← readShort) = 1 ∧ (← readShort) = .ofNat minor)
    .protocolMismatch family
  require ((← readShort) = kind ∧ (← readShort) = 0) .integrityFailure flags
  readInt

def decodeRecord (sha256 : Bytes → Hash) (encoded : Bytes) (kind : UInt16) (maximum : ℕ)
    (minor : Minor) : Except Failure Bytes := do
  require (headerBytes ≤ encoded.length ∧ encoded.length ≤ maximum) .capacityExceeded
    "record size exceeds bound"
  let (length, _) ← readHead "unsupported storage family/version" "wrong record kind/flags" kind
    minor encoded
  require (0 < length.toInt ∧ length.toInt = encoded.length - headerBytes) .integrityFailure
    "incomplete/trailing record bytes"
  let body := encoded.drop headerBytes
  let expected ← frame sha256 kind body maximum minor
  require (encoded = expected) .integrityFailure "record checksum mismatch"
  return body

/-- `ReplicaFormat.Frame`. -/
structure Frame where
  kind : UInt16
  body : Bytes
  digest : Hash
  nextOffset : ℕ
  deriving DecidableEq

/-- `read`: the frame that stands in a file at an offset. -/
def read (sha256 : Bytes → Hash) (file : Bytes) (offset : ℕ) (kind : UInt16) (maximum : ℕ)
    (minor : Minor) : Except Failure (Option Frame) := do
  let remaining := file.drop offset
  if remaining.length = 0 then
    return none
  require (headerBytes ≤ remaining.length) .integrityFailure "incomplete replica frame header"
  let (length, _) ← readHead "unsupported replicated storage family/version"
    "invalid replica record kind/flags" kind minor remaining
  require (0 < length.toInt) .integrityFailure "invalid replica body length"
  require (length.toInt + headerBytes ≤ maximum) .capacityExceeded "replica frame exceeds bound"
  require (length.toInt + headerBytes ≤ remaining.length) .integrityFailure
    "incomplete replica frame body"
  let (expected, _) ← readHash (remaining.drop 16)
  let body := (remaining.drop headerBytes).take length.toInt.toNat
  require (expected = sha256 (remaining.take 16 ++ body)) .integrityFailure
    "replica record checksum mismatch"
  return some ⟨kind, body, expected, offset + headerBytes + length.toInt.toNat⟩

section

variable {sha256 : Bytes → Hash} {kind : UInt16} {body encoded : Bytes} {maximum : ℕ}
  {minor : Minor}

@[simp] theorem length_frameHead (length : ℕ) : (frameHead kind length minor).length = 16 := by
  simp [frameHead]

@[simp] theorem length_framed : (framed sha256 kind body minor).length = headerBytes + body.length := by
  simp [framed, headerBytes]
  omega

variable (kind minor) in
theorem readHead_reads (family flags : String) (length : ℕ) :
    Reads (readHead family flags kind minor) (frameHead kind length minor) (.ofNat length) := by
  intro rest
  simp only [readHead, frameHead, List.append_assoc, readInt_bind, readShort_bind]
  rw [require_bind (by simp), readShort_bind, readShort_bind, require_bind ⟨rfl, rfl⟩]
  exact readInt_reads _ rest

theorem drop_framed : (framed sha256 kind body minor).drop headerBytes = body := by
  rw [framed, ← List.append_assoc]
  exact List.drop_left' (by simp [headerBytes])

theorem frameDigest_framed :
    frameDigest (framed sha256 kind body minor) =
      sha256 (frameHead kind body.length minor ++ body) := by
  rw [frameDigest, framed, List.drop_left' (by simp), List.take_left' (by simp)]
  exact Decoder.ofNat_writeBits _ rfl

theorem frame_eq_ok : frame sha256 kind body maximum minor = .ok encoded ↔
    (0 < body.length ∧ body.length + headerBytes ≤ maximum) ∧
      encoded = framed sha256 kind body minor := by
  unfold frame
  simp only [Lib.bind_eq_ok, require_eq_ok, exists_and_left, pure, Except.pure, Except.ok.injEq,
    exists_const]
  exact and_congr_right fun _ => eq_comm

/-- A record is decoded where its frame stands, and nowhere else. -/
theorem decodeRecord_eq_ok (hint : maximum < 2 ^ 31) :
    decodeRecord sha256 encoded kind maximum minor = .ok body ↔
      frame sha256 kind body maximum minor = .ok encoded := by
  constructor
  · intro h
    simp only [decodeRecord, Lib.bind_eq_ok, require_eq_ok, pure, Except.pure, Except.ok.injEq] at h
    obtain ⟨_, _, ⟨length, rest⟩, _, _, _, expected, hframe, _, rfl, rfl⟩ := h
    exact hframe
  · intro h
    obtain ⟨⟨hpos, hmax⟩, rfl⟩ := frame_eq_ok.mp h
    have hhead := readHead_reads kind minor "unsupported storage family/version"
      "wrong record kind/flags" body.length
      (writeHash (sha256 (frameHead kind body.length minor ++ body)) ++ body)
    have hlength : (Int32.ofNat body.length).toInt = body.length := toInt_ofNat (by omega)
    simp only [decodeRecord, Lib.bind_eq_ok, require_eq_ok, length_framed, drop_framed, pure,
      Except.pure]
    refine ⟨(), ⟨by omega, by omega⟩, (.ofNat body.length, _), hhead, (), ⟨?_, ?_⟩, _, h, (), rfl,
      trivial⟩
    · show 0 < (Int32.ofNat body.length).toInt
      omega
    · show (Int32.ofNat body.length).toInt = _
      omega

/-- A frame that stands in a file is read with its body and its digest. -/
theorem read_framed (hint : maximum < 2 ^ 31) (hpos : 0 < body.length)
    (hmax : body.length + headerBytes ≤ maximum) (before after : Bytes) :
    read sha256 (before ++ (framed sha256 kind body minor ++ after)) before.length kind maximum
      minor = .ok (some ⟨kind, body, frameDigest (framed sha256 kind body minor),
        before.length + headerBytes + body.length⟩) := by
  have hlength : (Int32.ofNat body.length).toInt = body.length := toInt_ofNat (by omega)
  have hhead := readHead_reads kind minor "unsupported replicated storage family/version"
    "invalid replica record kind/flags" body.length
    (writeHash (sha256 (frameHead kind body.length minor ++ body)) ++ body ++ after)
  have hhash := readHash_reads (sha256 (frameHead kind body.length minor ++ body)) (body ++ after)
  have hsplit : framed sha256 kind body minor ++ after = frameHead kind body.length minor ++
      (writeHash (sha256 (frameHead kind body.length minor ++ body)) ++ body ++ after) := by
    simp [framed]
  have hdrop : (framed sha256 kind body minor ++ after).drop headerBytes = body ++ after := by
    rw [List.drop_append_of_le_length (by simp), drop_framed]
  have hdrop' : (framed sha256 kind body minor ++ after).drop 16 =
      writeHash (sha256 (frameHead kind body.length minor ++ body)) ++ (body ++ after) := by
    rw [hsplit, List.drop_left' (by simp), List.append_assoc]
  have htake : (framed sha256 kind body minor ++ after).take 16 =
      frameHead kind body.length minor := by
    rw [hsplit, List.take_left' (by simp)]
  rw [← hsplit] at hhead
  simp only [read, List.drop_left]
  rw [if_neg (by simp [headerBytes])]
  simp only [hdrop', htake, hdrop, List.length_append, length_framed, pure, Except.pure]
  refine Lib.bind_eq_ok.mpr ⟨(), require_eq_ok.mpr (by omega), Lib.bind_eq_ok.mpr ⟨_, hhead, ?_⟩⟩
  simp only [hlength, Int.toNat_natCast, List.take_left, Lib.bind_eq_ok, require_eq_ok]
  refine ⟨(), by omega, (), by omega, (), by omega, _, hhash, (), rfl, ?_⟩
  rw [frameDigest_framed]

end

end GeneralSearch.Replica
