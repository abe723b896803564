import GeneralSearch.Replica.JsonRoundTrip
import GeneralSearch.Replica.Records

/-! `ReplicaWire`: the envelope of a message between voters and its frame. -/

namespace GeneralSearch.Replica

open GeneralSearch.Utf8 (JavaString)
open Decoder (Reads Inverts)

/-- A `Map<String, Object>` of the wire. -/
abbrev WireMap := List (JavaString × Json)

namespace Wire

/-! ### UUIDs as strings -/

/-- `Long.parseLong(text, 16)` of a part that no minus is in. -/
def parseHex (text : JavaString) : Option ℕ :=
  let body := if text.head? = some 0x2B then text.tail else text
  let value := body.foldlM (fun n c => (Json.hexValue c).map (n * 16 + ·)) 0
  if body = [] then none else value.filter (· < 2 ^ 63)

/-- `UUID.fromString`.  A digit beyond ASCII is refused here; where the library takes one, its
`toString` gives an ASCII digit instead and the comparison refuses it. -/
def fromString (text : JavaString) : Option Uuid :=
  if 36 < text.length then none
  else match text.splitOn Json.minus with
    | [a, b, c, d, e] => do
      let a ← parseHex a
      let b ← parseHex b
      let c ← parseHex c
      let d ← parseHex d
      let e ← parseHex e
      return BitVec.ofNat 32 a ++ BitVec.ofNat 16 b ++ BitVec.ofNat 16 c ++ BitVec.ofNat 16 d ++
        BitVec.ofNat 48 e
    | _ => none

/-- The last hexadecimal digits of a number. -/
def hexText (width n : ℕ) : JavaString :=
  (List.range width).map fun i => Json.hexDigit (n / 16 ^ (width - 1 - i) % 16)

/-- `UUID.toString`. -/
def uuidText (uuid : Uuid) : JavaString :=
  let n := uuid.toNat
  hexText 8 (n / 2 ^ 96) ++ Json.minus :: hexText 4 (n / 2 ^ 80) ++ Json.minus ::
    hexText 4 (n / 2 ^ 64) ++ Json.minus :: hexText 4 (n / 2 ^ 48) ++ Json.minus :: hexText 12 n

/-! ### The fields of a message -/

/-- `gse-replication/1.0`. -/
def protocol : JavaString := Utf8.ofString "gse-replication/1.0"

def admittedProtocol : JavaString := Utf8.ofString "gse-replication/1.1"

def types : List JavaString :=
  ["HANDSHAKE", "ACTIVATION_PROMISE", "APPEND", "DURABLE_ACK", "COMMIT_PROOF", "COMMIT_PROOF_ACK",
    "COMMIT_ADVANCE", "CONFLICT", "AUTHORITY_STATUS_PROBE", "SNAPSHOT_OFFER", "SNAPSHOT_CHUNK",
    "SNAPSHOT_INSTALL", "ACTIVATE_EPOCH", "AUTHORITY_STATUS", "SNAPSHOT_ABORT", "REJECT"].map
    Utf8.ofString

/-- `FIELDS`. -/
def envelopeFields : List JavaString :=
  ["protocol", "groupId", "configurationId", "sender", "recipient", "epoch", "incarnationId",
    "traceId", "eventSequence", "type", "payload"].map Utf8.ofString

def manifestDigestField : JavaString := Utf8.ofString "manifestDigest"

/-- `Map.get`. -/
def get (value : WireMap) (key : JavaString) : Option Json :=
  (value.find? fun entry => entry.1 = key).map Prod.snd

def string (value : WireMap) (key : String) : Except Failure JavaString :=
  match get value (Utf8.ofString key) with
  | some (.string text) => return text
  | _ => throw (.replication .protocolMismatch ("missing string: " ++ key))

def number (value : WireMap) (key : String) : Except Failure Int64 :=
  match get value (Utf8.ofString key) with
  | some (.long v) => return v
  | some (.integer v) => return v.toInt64
  | _ => throw (.replication .protocolMismatch ("missing integer: " ++ key))

def object : Option Json → Except Failure WireMap
  | some (.map entries) => return entries
  | _ => throw (.replication .protocolMismatch "expected wire object")

/-- `&&`, where the second condition may fail. -/
def andAlso (a b : Except Failure Bool) : Except Failure Bool := do
  if ← a then b else return false

def minor (message : WireMap) : Except Failure Minor := do
  let name ← string message "protocol"
  require (name = protocol ∨ name = admittedProtocol) .protocolMismatch "unsupported wire protocol"
  return if name = protocol then 0 else 1

/-- `validHash`. -/
def validHash (text : JavaString) : Except Failure Unit :=
  requireArgument (text.length = 64 ∧ ∀ c ∈ text, (0x30 ≤ c ∧ c ≤ 0x39) ∨ (0x61 ≤ c ∧ c ≤ 0x66))
    "digest must be lowercase SHA-256"

/-- The check of a field that is a UUID. -/
def checkUuid (text : JavaString) : Except Failure Unit :=
  match fromString text with
  | some uuid => require (uuidText uuid = text) .protocolMismatch "noncanonical UUID"
  | none => throw (.replication .protocolMismatch "invalid wire UUID")

/-- `value.keySet().equals(expected)`. -/
def sameKeys (value : WireMap) (expected : List JavaString) : Bool :=
  (value.map Prod.fst).all (· ∈ expected) && expected.all (· ∈ value.map Prod.fst)

/-- The checks of the identity of the admitted format. -/
def checkAdmitted (value payload : WireMap) : Except Failure Unit := do
  validHash (← string value "manifestDigest")
  require (manifestDigestField ∉ payload.map Prod.fst) .protocolMismatch
    "duplicate payload identity"

def validate (value : WireMap) : Except Failure Unit := do
  let version ← minor value
  let expected := envelopeFields ++ if version = 1 then [manifestDigestField] else []
  require ((← andAlso (return sameKeys value expected)
    (do return types.contains (← string value "type"))) = true) .protocolMismatch
    "invalid wire envelope"
  ["groupId", "incarnationId", "traceId"].forM fun field => do
    checkUuid (← string value field)
  ["configurationId", "sender", "recipient"].forM fun field => do
    require (identity 127 (← string value field) = true) .protocolMismatch "invalid wire identity"
  require ((← andAlso (do return 0 ≤ (← number value "epoch"))
    (do return 0 ≤ (← number value "eventSequence"))) = true) .protocolMismatch
    "negative wire counter"
  let started : Bool := 0 < (← number value "epoch")
  require (started = true ∨ (← string value "type") ∈ [Utf8.ofString "HANDSHAKE",
    Utf8.ofString "REJECT"]) .protocolMismatch "invalid zero epoch"
  let payload ← object (get value (Utf8.ofString "payload"))
  if version = 1 then checkAdmitted value payload else return

/-! ### Frames -/

/-- `GSRP`. -/
def wireMagic : Int32 := 0x47535250

/-- The 16 bytes before the digest of a frame. -/
def wireHead (version : Minor) (type length : ℕ) : Bytes :=
  writeInt wireMagic ++ writeShort 1 ++ writeShort (.ofNat version) ++ writeShort (.ofNat type) ++
    writeShort 0 ++ writeCount length

/-- The number of a type: its place in `TYPES`, from 1. -/
def typeNumber (message : WireMap) : Except Failure ℕ := do
  return types.idxOf (← string message "type") + 1

def encode (sha256 : Bytes → Hash) (message : WireMap) (maximum : ℕ) : Except Failure Bytes := do
  validate message
  let body ← Json.encode (.map message) (maximum - headerBytes)
  let head := wireHead (← minor message) (← typeNumber message) body.length
  return head ++ (writeHash (sha256 (head ++ body)) ++ body)

/-- The reading of a header, up to the length of the body. -/
def readWireHead (maximum : ℕ) : Decoder Failure Int32 := do
  require ((← readInt) = wireMagic ∧ (← readShort) = 1) .protocolMismatch
    "unsupported wire family/version"
  require ((← readShort).toNat ≤ 1) .protocolMismatch "unsupported wire minor version"
  let type ← readShort
  require (1 ≤ type.toNat ∧ type.toNat ≤ types.length ∧ (← readShort) = 0) .protocolMismatch
    "unknown wire type/flags"
  let length ← readInt
  require (0 < length.toInt ∧ length.toInt + headerBytes ≤ maximum) .capacityExceeded
    "wire frame exceeds bound"
  return length

def bodyLength (header : Bytes) (maximum : ℕ) : Except Failure Int32 := do
  require (header.length = headerBytes) .integrityFailure "incomplete wire header"
  let (length, _) ← readWireHead maximum header
  return length

def decode (sha256 : Bytes → Hash) (frame : Bytes) (maximum : ℕ) : Except Failure WireMap := do
  require (headerBytes ≤ frame.length ∧ frame.length ≤ maximum) .capacityExceeded
    "wire frame exceeds bound"
  let length ← bodyLength (frame.take headerBytes) maximum
  require (length.toInt = frame.length - headerBytes) .integrityFailure
    "incomplete/trailing wire bytes"
  let body := frame.drop headerBytes
  let (digest, _) ← readHash (frame.drop 16)
  require (digest = sha256 (frame.take 16 ++ body)) .integrityFailure "wire checksum mismatch"
  let value ← Json.decode body (maximum - headerBytes)
  let message ← object (some value)
  validate message
  let (version, _) ← readShort (frame.drop 6)
  require (version = .ofNat (← minor message)) .protocolMismatch "wire header/protocol mismatch"
  let (type, _) ← readShort (frame.drop 8)
  require ((← typeNumber message) = type.toNat) .protocolMismatch "wire type mismatch"
  return message

/-! ### A message as it is read -/

/-- The message that is read back: a `TreeMap` whose numbers are `Long`s. -/
def canonical (message : WireMap) : WireMap := Json.sorted (Json.canonicalMembers message)

theorem canonical_map (message : WireMap) :
    Json.canonical (.map message) = .map (canonical message) := by
  rw [Json.canonical, canonical]

theorem canonical_perm (message : WireMap) :
    (canonical message).Perm (message.map fun entry => (entry.1, Json.canonical entry.2)) := by
  rw [canonical, Json.canonicalMembers_eq]
  exact Json.sorted_perm _

theorem keys_canonical (message : WireMap) :
    ((canonical message).map Prod.fst).Perm (message.map Prod.fst) := by
  have h := (canonical_perm message).map Prod.fst
  rwa [List.map_map] at h

/-- Where no key stands twice, an entry is what its key is bound to. -/
theorem get_eq_some {value : WireMap} (hdistinct : (value.map Prod.fst).Nodup) {key : JavaString}
    {v : Json} : get value key = some v ↔ (key, v) ∈ value := by
  induction value with
  | nil => simp [get]
  | cons entry rest ih =>
    obtain ⟨hnew, hrest⟩ := List.nodup_cons.mp hdistinct
    by_cases hkey : entry.1 = key
    · have hget : get (entry :: rest) key = some entry.2 := by simp [get, hkey]
      rw [hget, List.mem_cons, Option.some.injEq]
      constructor
      · rintro rfl
        exact .inl (Prod.ext hkey.symm rfl)
      · rintro (heq | hmem)
        · exact (congrArg Prod.snd heq).symm
        · exact absurd (List.mem_map_of_mem hmem) (hkey ▸ hnew)
    · have hget : get (entry :: rest) key = get rest key := by simp [get, hkey]
      rw [hget, ih hrest, List.mem_cons]
      exact ⟨.inr, fun h => h.resolve_left fun heq => hkey (congrArg Prod.fst heq).symm⟩

section

variable {message : WireMap} (hdistinct : (message.map Prod.fst).Nodup)

include hdistinct

theorem get_canonical (key : JavaString) :
    get (canonical message) key = (get message key).map Json.canonical := by
  have hkeys := (keys_canonical message).nodup_iff.mpr hdistinct
  ext v
  rw [get_eq_some hkeys, (canonical_perm message).mem_iff, List.mem_map, Option.map_eq_some_iff]
  constructor
  · rintro ⟨⟨_, v'⟩, hmem, heq⟩
    obtain ⟨rfl, rfl⟩ := Prod.mk.inj heq
    exact ⟨v', (get_eq_some hdistinct).mpr hmem, rfl⟩
  · rintro ⟨v', hget, rfl⟩
    exact ⟨(key, v'), (get_eq_some hdistinct).mp hget, rfl⟩

theorem string_canonical (key : String) : string (canonical message) key = string message key := by
  rw [string, string, get_canonical hdistinct]
  rcases get message (Utf8.ofString key) with _ | v
  · rfl
  · cases v <;> simp [Json.canonical]

theorem number_canonical (key : String) : number (canonical message) key = number message key := by
  rw [number, number, get_canonical hdistinct]
  rcases get message (Utf8.ofString key) with _ | v
  · rfl
  · cases v <;> simp [Json.canonical]

theorem object_canonical (key : JavaString) : object (get (canonical message) key) =
    (object (get message key)).map canonical := by
  rw [get_canonical hdistinct]
  rcases get message key with _ | v
  · rfl
  · cases v <;> (simp only [Option.map_some, Json.canonical]; rfl)

theorem minor_canonical : minor (canonical message) = minor message := by
  rw [minor, string_canonical hdistinct, minor]

theorem typeNumber_canonical : typeNumber (canonical message) = typeNumber message := by
  rw [typeNumber, string_canonical hdistinct, typeNumber]

omit hdistinct in
theorem sameKeys_canonical (expected : List JavaString) :
    sameKeys (canonical message) expected = sameKeys message expected := by
  have hmem := fun key => (keys_canonical message).mem_iff (a := key)
  rw [Bool.eq_iff_iff]
  simp only [sameKeys, Bool.and_eq_true, List.all_eq_true, decide_eq_true_eq, hmem]

theorem checkAdmitted_canonical (payload : WireMap) :
    checkAdmitted (canonical message) (canonical payload) = checkAdmitted message payload := by
  rw [checkAdmitted, string_canonical hdistinct, checkAdmitted]
  simp only [(keys_canonical payload).mem_iff]

/-- The checks of a message do not tell it from what is read back. -/
theorem validate_canonical : validate (canonical message) = validate message := by
  have hbind : ∀ (x : Except Failure WireMap) (f : WireMap → Except Failure Unit),
      (x.map canonical >>= f) = x >>= fun payload => f (canonical payload) := by
    intro x f
    cases x <;> rfl
  unfold validate
  simp only [minor_canonical hdistinct, string_canonical hdistinct, number_canonical hdistinct,
    sameKeys_canonical, object_canonical hdistinct, hbind, checkAdmitted_canonical hdistinct]

end

/-! ### Round trips -/

section

variable {sha256 : Bytes → Hash} {message : WireMap} {maximum : ℕ} {frame : Bytes}

@[simp] theorem length_wireHead (version : Minor) (type length : ℕ) :
    (wireHead version type length).length = 16 := by
  simp [wireHead]

theorem types_length : types.length = 16 := rfl

/-- The fields behind the family: the version, the type, the flags and the length. -/
def wireFields (version : Minor) (type length : ℕ) : Bytes :=
  writeShort (.ofNat version) ++ (writeShort (.ofNat type) ++ (writeShort 0 ++ writeCount length))

theorem drop_wireHead (version : Minor) (type length : ℕ) (rest : Bytes) :
    (wireHead version type length ++ rest).drop 6 = wireFields version type length ++ rest := by
  have hsplit : wireHead version type length =
      (writeInt wireMagic ++ writeShort 1) ++ wireFields version type length := by
    simp [wireHead, wireFields]
  rw [hsplit, List.append_assoc]
  exact List.drop_left' (by simp)

/-- The version and the type are read where they stand. -/
theorem readShort_wireHead (version : Minor) (type length : ℕ) (rest : Bytes) :
    ∃ after after', readShort ((wireHead version type length ++ rest).drop 6) =
        .ok (.ofNat version, after) ∧
      readShort ((wireHead version type length ++ rest).drop 8) = .ok (.ofNat type, after') := by
  have hdrop : (wireHead version type length ++ rest).drop 8 =
      ((wireHead version type length ++ rest).drop 6).drop 2 := by
    rw [List.drop_drop]
  rw [hdrop, drop_wireHead, wireFields, List.append_assoc, List.drop_left' (by simp),
    List.append_assoc]
  exact ⟨_, _, readShort_reads _ _, readShort_reads _ _⟩

/-- A header that is written is read as the length of its body. -/
theorem readWireHead_reads (maximum : ℕ) {type length : ℕ} (version : Minor) (htype : 1 ≤ type)
    (htypes : type ≤ types.length) (hpos : 0 < length) (hmax : length + headerBytes ≤ maximum)
    (hint : maximum < 2 ^ 31) :
    Reads (readWireHead maximum) (wireHead version type length) (.ofNat length) := by
  intro rest
  have hlength : (Int32.ofNat length).toInt = length := toInt_ofNat (by omega)
  have hshort : (UInt16.ofNat type).toNat = type := by
    rw [types_length] at htypes
    exact UInt16.toNat_ofNat_of_lt' (by rw [UInt16.size]; omega)
  have hversion : (UInt16.ofNat version).toNat ≤ 1 := by
    revert version
    decide
  simp only [readWireHead, wireHead, List.append_assoc, readInt_bind, readShort_bind]
  rw [require_bind (by simp), readShort_bind, require_bind hversion, readShort_bind, readShort_bind,
    require_bind ⟨by omega, by omega, rfl⟩, writeCount, readInt_bind,
    require_bind ⟨by omega, by omega⟩]
  rfl

theorem encode_eq_ok : encode sha256 message maximum = .ok frame ↔
    validate message = .ok () ∧ ∃ body version type,
      Json.encode (.map message) (maximum - headerBytes) = .ok body ∧
      minor message = .ok version ∧ typeNumber message = .ok type ∧
      frame = wireHead version type body.length ++
        (writeHash (sha256 (wireHead version type body.length ++ body)) ++ body) := by
  simp only [encode, Lib.bind_eq_ok, pure, Except.pure, Except.ok.injEq]
  constructor
  · rintro ⟨_, hvalid, body, hbody, version, hversion, type, htype, rfl⟩
    exact ⟨hvalid, body, version, type, hbody, hversion, htype, rfl⟩
  · rintro ⟨hvalid, body, version, type, hbody, hversion, htype, rfl⟩
    exact ⟨(), hvalid, body, hbody, version, hversion, type, htype, rfl⟩

theorem andAlso_eq_true {a b : Except Failure Bool} :
    andAlso a b = .ok true ↔ a = .ok true ∧ b = .ok true := by
  rw [andAlso, Lib.bind_eq_ok]
  constructor
  · rintro ⟨first, ha, hb⟩
    cases first with
    | true => exact ⟨ha, hb⟩
    | false => exact absurd hb (by simp [pure, Except.pure])
  · rintro ⟨ha, hb⟩
    exact ⟨true, ha, hb⟩

/-- A valid message is of one of the types. -/
theorem typeNumber_of_validate {type : ℕ} (h : validate message = .ok ())
    (htype : typeNumber message = .ok type) : 1 ≤ type ∧ type ≤ types.length := by
  simp only [validate, Lib.bind_eq_ok, require_eq_ok] at h
  obtain ⟨_, -, envelope, henvelope, _, rfl, -⟩ := h
  obtain ⟨-, hknown⟩ := andAlso_eq_true.mp henvelope
  simp only [typeNumber, Lib.bind_eq_ok, pure, Except.pure, Except.ok.injEq] at htype hknown
  obtain ⟨name, hname, rfl⟩ := htype
  obtain ⟨name', hname', hcontains⟩ := hknown
  cases hname.symm.trans hname'
  have hlt := List.idxOf_lt_length_iff.mpr (List.contains_iff_mem.mp hcontains)
  omega

/-- A message that is written is read back, its maps sorted and its numbers wide. -/
theorem decode_of_encode (hint : maximum < 2 ^ 31) (hdistinct : Json.Distinct (.map message))
    (h : encode sha256 message maximum = .ok frame) :
    decode sha256 frame maximum = .ok (canonical message) := by
  obtain ⟨hvalid, body, version, type, hbody, hversion, htype, rfl⟩ := encode_eq_ok.mp h
  have hkeys : (message.map Prod.fst).Nodup := by
    rw [Json.Distinct] at hdistinct
    exact hdistinct.1
  obtain ⟨-, hmax, -, hbytes⟩ := Json.encode_eq_ok.mp hbody
  have hlength : body.length = (Json.render (.map message)).length := by
    rw [hbytes, Json.asciiBytes, List.length_map]
  have hpos : 0 < body.length := by
    rw [hlength, Json.render]
    simp
  obtain ⟨hone, htypes⟩ := typeNumber_of_validate hvalid htype
  set digest := sha256 (wireHead version type body.length ++ body)
  have htake : (wireHead version type body.length ++ (writeHash digest ++ body)).take headerBytes =
      wireHead version type body.length ++ writeHash digest := by
    rw [← List.append_assoc]
    exact List.take_left' (by simp [headerBytes])
  have hdrop : (wireHead version type body.length ++ (writeHash digest ++ body)).drop headerBytes =
      body := by
    rw [← List.append_assoc]
    exact List.drop_left' (by simp [headerBytes])
  have hhead := readWireHead_reads maximum version hone htypes hpos (by omega) hint
    (writeHash digest)
  have hread := Json.decode_of_encode hdistinct hbody
  rw [canonical_map] at hread
  have hbodyLength : bodyLength (wireHead version type body.length ++ writeHash digest) maximum =
      .ok (.ofNat body.length) := by
    rw [bodyLength, Lib.bind_eq_ok]
    exact ⟨(), require_eq_ok.mpr (by simp [headerBytes]), Lib.bind_eq_ok.mpr ⟨_, hhead, rfl⟩⟩
  obtain ⟨after, after', hversionRead, htypeRead⟩ :=
    readShort_wireHead version type body.length (writeHash digest ++ body)
  have hheader : headerBytes = 48 := rfl
  have hhash := readHash_reads digest body
  have hint' : (Int32.ofNat body.length).toInt = body.length := toInt_ofNat (by omega)
  simp only [decode, Lib.bind_eq_ok, require_eq_ok, htake, hdrop, hread]
  refine ⟨(), ⟨?_, ?_⟩, _, hbodyLength, (), ?_, (digest, body), ?_, (), ?_, _, rfl, _, rfl, (),
    (validate_canonical hkeys).trans hvalid, _, hversionRead, version,
    (minor_canonical hkeys).trans hversion, (), rfl, _, htypeRead, type,
    (typeNumber_canonical hkeys).trans htype, (), ?_, rfl⟩
  · simp only [List.length_append, length_wireHead, length_writeHash]
    omega
  · simp only [List.length_append, length_wireHead, length_writeHash]
    omega
  · simp only [hint', List.length_append, length_wireHead, length_writeHash]
    omega
  · rw [List.drop_left' (length_wireHead ..)]
    exact hhash
  · rw [List.take_left' (length_wireHead ..)]
  · rw [types_length] at htypes
    exact (UInt16.toNat_ofNat_of_lt' (by rw [UInt16.size]; omega)).symm

/-- A header that is read was written. -/
theorem readWireHead_inverts {header rest : Bytes} {length : Int32}
    (h : readWireHead maximum header = .ok (length, rest)) : ∃ version type : UInt16,
      (version.toNat ≤ 1 ∧ 0 < length.toInt) ∧
      header = writeInt wireMagic ++ (writeShort 1 ++ (writeShort version ++ (writeShort type ++
        (writeShort 0 ++ (writeInt length ++ rest))))) := by
  simp only [readWireHead, Decoder.bind_eq_ok, require_run_eq_ok, Prod.mk.injEq,
    Decoder.pure_eq_ok] at h
  obtain ⟨m, r₁, hmagic, one, r₂, hone, _, _, ⟨⟨rfl, rfl⟩, -, rfl⟩, version, r₃, hversion, _, _,
    ⟨hle, -, rfl⟩, type, r₄, htype, flags, r₅, hflags, _, _, ⟨⟨-, -, rfl⟩, -, rfl⟩, l, r₆, hlength,
    _, _, ⟨⟨hpos, -⟩, -, rfl⟩, rfl, rfl⟩ := h
  refine ⟨version, type, ⟨hle, hpos⟩, ?_⟩
  rw [readInt_inverts _ _ _ hmagic, readShort_inverts _ _ _ hone, readShort_inverts _ _ _ hversion,
    readShort_inverts _ _ _ htype, readShort_inverts _ _ _ hflags, readInt_inverts _ _ _ hlength]

/-- A frame that is read is what its message is written as. -/
theorem encode_of_decode (h : decode sha256 frame maximum = .ok message) :
    encode sha256 message maximum = .ok frame := by
  simp only [decode, bodyLength, Lib.bind_eq_ok, require_eq_ok, pure, Except.pure,
    Except.ok.injEq] at h
  obtain ⟨_, ⟨hheader, hmax⟩, _, ⟨_, -, ⟨length, tail⟩, hhead, rfl⟩, _, hlength, ⟨digest, after⟩,
    hhash, _, rfl, value, hvalue, message, hobject, _, hvalid, ⟨_, after'⟩, hversion, minor,
    hminor, _, rfl, ⟨type', after''⟩, htype, _, hnumber, _, rfl, rfl⟩ := h
  have hvalue' : value = .map message := by
    cases value <;> cases hobject
    rfl
  have hjson := Json.encode_of_decode (hvalue' ▸ hvalue)
  obtain ⟨version, type, -, hfields⟩ := readWireHead_inverts hhead
  -- What is read at an offset is what the header holds there.
  generalize hbody : frame.drop headerBytes = body at *
  have hcount : writeInt length = writeCount body.length := by
    rw [writeCount, ofNat_toNat (v := length)]
    rw [← hbody, List.length_drop]
    simp only at hlength
    omega
  have hsplit : frame = (writeInt wireMagic ++ writeShort 1) ++ (writeShort version ++
      (writeShort type ++ (writeShort 0 ++ (writeCount body.length ++ (tail ++ body))))) := by
    rw [← hcount, ← List.take_append_drop headerBytes frame, hfields, hbody]
    simp only [List.append_assoc]
  have hdrop : frame.drop 6 = writeShort version ++
      (writeShort type ++ (writeShort 0 ++ (writeCount body.length ++ (tail ++ body)))) := by
    rw [hsplit]
    exact List.drop_left' (by simp)
  have hdrop' : frame.drop 8 =
      writeShort type ++ (writeShort 0 ++ (writeCount body.length ++ (tail ++ body))) := by
    rw [show 8 = 6 + 2 from rfl, ← List.drop_drop, hdrop]
    exact List.drop_left' (by simp)
  have hversion' : version = .ofNat minor := by
    rw [hdrop, readShort_reads, Except.ok.injEq, Prod.mk.injEq] at hversion
    exact hversion.1
  have htype' : type = type' := by
    rw [hdrop', readShort_reads, Except.ok.injEq, Prod.mk.injEq] at htype
    exact htype.1
  subst hversion' htype'
  have hhead' : frame = wireHead minor type.toNat body.length ++ (tail ++ body) := by
    rw [hsplit, wireHead, UInt16.ofNat_toNat]
    simp only [List.append_assoc]
  have htake : frame.take 16 = wireHead minor type.toNat body.length := by
    rw [hhead']
    exact List.take_left' (length_wireHead ..)
  have htail : tail = writeHash (sha256 (wireHead minor type.toNat body.length ++ body)) := by
    rw [htake, hhead', List.drop_left' (length_wireHead ..)] at hhash
    have hlen : tail.length = 32 := by
      have := congrArg List.length hfields
      simp only [List.length_take, List.length_append, length_writeInt, length_writeShort] at this
      unfold headerBytes at this hheader
      omega
    exact (List.append_inj (readHash_inverts _ _ _ hhash) (by simp [hlen])).1
  rw [encode_eq_ok]
  exact ⟨hvalid, body, minor, type.toNat, hjson, hminor, hnumber, htail ▸ hhead'⟩

end

end Wire

end GeneralSearch.Replica
