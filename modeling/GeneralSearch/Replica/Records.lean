import GeneralSearch.Replica.Format

/-! The journal records of a replica: `ReplicaEntry` and `ReplicaProof`, and of the manifest what
the checks of recovery read. -/

namespace GeneralSearch.Replica

open GeneralSearch.Utf8 (JavaString)
open Decoder (Reads Inverts)

/-! ### Identities -/

/-- `[a-z0-9]`. -/
def lowerOrDigit (c : UInt16) : Bool :=
  (0x61 ≤ c && c ≤ 0x7A) || (0x30 ≤ c && c ≤ 0x39)

/-- `[a-z0-9._-]`. -/
def identityPart (c : UInt16) : Bool :=
  lowerOrDigit c || c = 0x2E || c = 0x5F || c = 0x2D

/-- The pattern `[a-z0-9][a-z0-9._-]{0,tail}`. -/
def identity (tail : ℕ) : JavaString → Bool
  | [] => false
  | c :: cs => lowerOrDigit c && cs.all identityPart && cs.length ≤ tail

/-- `ReplicationNodeId`. -/
structure ReplicationNodeId where
  value : JavaString
  valid : identity 63 value = true
  deriving DecidableEq

/-- `new ReplicationNodeId`. -/
def ReplicationNodeId.make (value : JavaString) : Decoder Failure ReplicationNodeId :=
  if h : identity 63 value = true then return ⟨value, h⟩
  else throw (.illegalArgument "invalid replication node identity")

theorem identityPart_ascii {c : UInt16} (h : identityPart c = true) : c.toNat < 0x80 := by
  simp only [identityPart, lowerOrDigit, Bool.or_eq_true, Bool.and_eq_true, decide_eq_true_eq,
    UInt16.le_iff_toNat_le] at h
  rcases h with (((⟨_, h⟩ | ⟨_, h⟩) | rfl) | rfl) | rfl
  · exact Nat.lt_of_le_of_lt h (by decide)
  · exact Nat.lt_of_le_of_lt h (by decide)
  · decide
  · decide
  · decide

theorem identity_ascii {tail : ℕ} {value : JavaString} (h : identity tail value = true) :
    Utf8.Ascii value ∧ 0 < value.length ∧ value.length ≤ tail + 1 := by
  cases value with
  | nil => cases h
  | cons c cs =>
    simp only [identity, Bool.and_eq_true, List.all_eq_true, decide_eq_true_eq] at h
    obtain ⟨⟨hc, hcs⟩, hlength⟩ := h
    refine ⟨fun u hu => ?_, by simp, by simpa using hlength⟩
    rcases List.mem_cons.mp hu with rfl | hu
    · exact identityPart_ascii (by simp [identityPart, hc])
    · exact identityPart_ascii (hcs u hu)

theorem ReplicationNodeId.length_getBytes (node : ReplicationNodeId) :
    (Utf8.getBytes node.value).length = node.value.length :=
  Utf8.length_getBytes_ascii (identity_ascii node.valid).1

theorem ReplicationNodeId.length_le (node : ReplicationNodeId) : node.value.length ≤ 64 :=
  (identity_ascii node.valid).2.2

/-- The identity of a voter as it is read from a record. -/
def readNode : Decoder Failure ReplicationNodeId := do
  ReplicationNodeId.make (← readText 64)

theorem readNode_reads (node : ReplicationNodeId) : Reads readNode (text node.value) node := by
  intro rest
  obtain ⟨hascii, hpos, hle⟩ := identity_ascii node.valid
  have hlength := node.length_getBytes
  have htext : Reads (readText 64) (text node.value) node.value :=
    readText_reads (Utf8.wellFormed_ascii hascii) (by omega) (by omega) (by decide)
  rw [readNode, htext.bind, ReplicationNodeId.make, dif_pos node.valid]
  rfl

theorem readNode_inverts : Inverts readNode fun node => text node.value := by
  intro bytes node rest h
  simp only [readNode, Decoder.bind_eq_ok] at h
  obtain ⟨value, mid, hvalue, hmake⟩ := h
  unfold ReplicationNodeId.make at hmake
  split at hmake
  · simp only [Decoder.pure_eq_ok, Prod.mk.injEq] at hmake
    obtain ⟨rfl, rfl⟩ := hmake
    exact (readText_inverts hvalue).2
  · cases hmake

/-! ### The manifest -/

/-- `ReplicaManifest`, what the recovery of a voter reads of it: the voters, the genesis of an
admitted group, the base sequence, and the digest of the encoded manifest. -/
structure ReplicaManifest where
  members : List ReplicationNodeId
  genesisDigest : Option Hash
  baseSequence : Int64
  digest : Hash
  three : members.length = 3
  distinct : members.Nodup

def ReplicaManifest.formatMinor (manifest : ReplicaManifest) : Minor :=
  if manifest.genesisDigest.isNone then 0 else 1

def ReplicaManifest.contains (manifest : ReplicaManifest) (node : ReplicationNodeId) : Bool :=
  manifest.members.contains node

/-- The protocol of a format: `gse-replication/1.0` or `gse-replication/1.1`. -/
def protocolOf (minor : Minor) : JavaString :=
  if minor = 0 then Utf8.ofString "gse-replication/1.0" else Utf8.ofString "gse-replication/1.1"

def ReplicaManifest.protocol (manifest : ReplicaManifest) : JavaString :=
  protocolOf manifest.formatMinor

/-! ### Entries -/

/-- `ReplicaEntry.OPERATIONS`. -/
inductive Operation where
  | add | update | remove | addAll | updateAll | removeAll | indexCreate | indexDrop | noOp
  | snapshotMarker
  deriving DecidableEq, Repr

def operations : List Operation :=
  [.add, .update, .remove, .addAll, .updateAll, .removeAll, .indexCreate, .indexDrop, .noOp,
    .snapshotMarker]

/-- `OPERATIONS.indexOf(operation) + 1`. -/
def Operation.code (operation : Operation) : UInt8 := .ofNat (operations.idxOf operation + 1)

/-- The operation of a code from 1 to the number of operations. -/
def readOperation (message : String) : Decoder Failure Operation := do
  let type ← readByte
  match if type = 0 then none else operations[type.toNat - 1]? with
  | some operation => return operation
  | none => throw (.replication .integrityFailure message)

theorem readOperation_reads (message : String) (operation : Operation) :
    Reads (readOperation message) (writeByte operation.code) operation := by
  intro rest
  rw [readOperation, readByte_bind]
  cases operation <;> rfl

theorem readOperation_inverts (message : String) :
    Inverts (readOperation message) fun operation => writeByte operation.code := by
  intro bytes operation rest h
  simp only [readOperation, Decoder.bind_eq_ok] at h
  obtain ⟨type, mid, htype, h⟩ := h
  by_cases hzero : type = 0
  · rw [if_pos hzero] at h
    cases h
  rw [if_neg hzero] at h
  have hcode : ∀ op : Operation, operations[type.toNat - 1]? = some op → op.code = type := by
    intro op hop
    have hpos : type.toNat ≠ 0 := fun h0 => hzero (UInt8.toNat_inj.mp h0)
    obtain ⟨hlt, rfl⟩ := List.getElem?_eq_some_iff.mp hop
    have hnodup : operations.Nodup := by decide
    rw [Operation.code, hnodup.idxOf_getElem _ hlt, Nat.sub_add_cancel (by omega),
      UInt8.ofNat_toNat]
  cases hop : operations[type.toNat - 1]? with
  | none =>
    rw [hop] at h
    cases h
  | some op =>
    rw [hop] at h
    simp only [Decoder.pure_eq_ok, Prod.mk.injEq] at h
    obtain ⟨rfl, rfl⟩ := h
    show bytes = writeByte operation.code ++ rest
    rw [hcode _ hop]
    exact readByte_inverts _ _ _ htype

/-- `ReplicationBounds.HARD_MAX_FRAME_BYTES`. -/
def hardMaxFrameBytes : ℕ := 64 * 1024 * 1024

/-- The identity checks of the constructor of `ReplicaEntry`. -/
def entryIdentity (epoch : Int64) (incarnation : Uuid) (index previousEpoch previousIndex : Int64) :
    Prop :=
  2 ≤ epoch ∧ incarnation ≠ noIncarnation ∧ 1 ≤ index ∧ 1 ≤ previousEpoch ∧
    previousEpoch ≤ epoch ∧ previousIndex = index - 1

instance (epoch : Int64) (incarnation : Uuid) (index previousEpoch previousIndex : Int64) :
    Decidable (entryIdentity epoch incarnation index previousEpoch previousIndex) :=
  inferInstanceAs (Decidable (_ ∧ _ ∧ _ ∧ _ ∧ _ ∧ _))

/-- `ReplicaEntry`. -/
structure ReplicaEntry where
  manifestDigest : Hash
  epoch : Int64
  incarnation : Uuid
  index : Int64
  operation : Operation
  previousEpoch : Int64
  previousIndex : Int64
  previousDigest : Hash
  payload : Bytes
  formatMinor : Minor
  identified : entryIdentity epoch incarnation index previousEpoch previousIndex
  bounded : payload.length ≤ hardMaxFrameBytes - 197
  deriving DecidableEq

namespace ReplicaEntry

/-- `new ReplicaEntry`. -/
def make (manifestDigest : Hash) (epoch : Int64) (incarnation : Uuid) (index : Int64)
    (operation : Operation) (previousEpoch previousIndex : Int64) (previousDigest : Hash)
    (payload : Bytes) (formatMinor : Minor) : Decoder Failure ReplicaEntry :=
  if h : entryIdentity epoch incarnation index previousEpoch previousIndex then
    if hp : payload.length ≤ hardMaxFrameBytes - 197 then
      return ⟨manifestDigest, epoch, incarnation, index, operation, previousEpoch, previousIndex,
        previousDigest, payload, formatMinor, h, hp⟩
    else throw (.illegalArgument "entry payload exceeds absolute frame bound")
  else throw (.illegalArgument "invalid replicated entry identity/type/predecessor")

def encodedLength (entry : ReplicaEntry) : ℕ := entry.payload.length + 197

/-- The body of an entry's frame. -/
def body (sha256 : Bytes → Hash) (entry : ReplicaEntry) : Bytes :=
  writeHash entry.manifestDigest ++ (writeLong entry.epoch ++ (writeUuid entry.incarnation ++
    (writeLong entry.index ++ (writeByte entry.operation.code ++ (writeLong entry.previousEpoch ++
      (writeLong entry.previousIndex ++ (writeHash entry.previousDigest ++
        (writeCount entry.payload.length ++ (writeHash (sha256 entry.payload) ++
          entry.payload)))))))))

def encode (sha256 : Bytes → Hash) (entry : ReplicaEntry) (maximum : ℕ) : Except Failure Bytes := do
  require (entry.payload.length + 197 ≤ maximum) .capacityExceeded
    "entry payload exceeds frame bound"
  frame sha256 entryKind (entry.body sha256) maximum entry.formatMinor

/-- The fields of an entry, in the order of the frame. -/
def fields (sha256 : Bytes → Hash) (minor : Minor) : Decoder Failure ReplicaEntry := do
  let manifest ← readHash
  let epoch ← readLong
  let incarnation ← readUuid
  let index ← readLong
  let operation ← readOperation "unknown/reserved entry type"
  let previousEpoch ← readLong
  let previousIndex ← readLong
  let previousDigest ← readHash
  let length ← readInt
  let payloadDigest ← readHash
  require (0 ≤ length.toInt ∧ length.toInt = (← Decoder.available)) .integrityFailure
    "invalid entry payload length"
  let payload ← Decoder.readNBytes length.toInt.toNat
  require (sha256 payload = payloadDigest) .integrityFailure "entry payload checksum mismatch"
  make manifest epoch incarnation index operation previousEpoch previousIndex previousDigest payload
    minor

def decode (sha256 : Bytes → Hash) (body : Bytes) (minor : Minor) : Except Failure ReplicaEntry := do
  let (entry, _) ← fields sha256 minor body
  return entry

section

variable {sha256 : Bytes → Hash} {entry : ReplicaEntry} {maximum : ℕ}

@[simp] theorem length_body : (entry.body sha256).length = entry.payload.length + 149 := by
  simp [body]
  omega

theorem encode_eq_ok {bytes : Bytes} : entry.encode sha256 maximum = .ok bytes ↔
    entry.encodedLength ≤ maximum ∧
      bytes = framed sha256 entryKind (entry.body sha256) entry.formatMinor := by
  unfold encode encodedLength
  simp only [Lib.bind_eq_ok, require_eq_ok, frame_eq_ok, length_body, headerBytes, exists_and_left,
    exists_const]
  constructor
  · rintro ⟨hle, -, rfl⟩
    exact ⟨hle, rfl⟩
  · rintro ⟨hle, rfl⟩
    exact ⟨hle, ⟨by omega, by omega⟩, rfl⟩

/-- The fixed fields of an encoded entry take 197 bytes. -/
theorem length_encode {bytes : Bytes} (h : entry.encode sha256 maximum = .ok bytes) :
    bytes.length = entry.encodedLength := by
  rw [(encode_eq_ok.mp h).2, length_framed, length_body, headerBytes, encodedLength]
  omega

theorem length_lt (entry : ReplicaEntry) : entry.encodedLength < 2 ^ 31 := by
  have h := entry.bounded
  unfold hardMaxFrameBytes at h
  unfold encodedLength
  omega

theorem make_self : make entry.manifestDigest entry.epoch entry.incarnation entry.index
    entry.operation entry.previousEpoch entry.previousIndex entry.previousDigest entry.payload
    entry.formatMinor = pure entry := by
  rw [make, dif_pos entry.identified, dif_pos entry.bounded]

theorem fields_body : fields sha256 entry.formatMinor (entry.body sha256) = .ok (entry, []) := by
  have hlt := entry.length_lt
  have hlength : (Int32.ofNat entry.payload.length).toInt = entry.payload.length :=
    toInt_ofNat (by unfold encodedLength at hlt; omega)
  simp only [fields, body, writeCount, readHash_bind, readLong_bind, readUuid_bind]
  rw [(readOperation_reads _ _).bind]
  simp only [readHash_bind, readLong_bind, readInt_bind, available_bind]
  rw [require_bind ⟨by omega, hlength⟩, hlength, Int.toNat_natCast, readNBytes_bind,
    List.take_length, List.drop_length, require_bind rfl, make_self]
  rfl

theorem fields_inverts {minor : Minor} {bytes rest : Bytes}
    (h : fields sha256 minor bytes = .ok (entry, rest)) :
    entry.formatMinor = minor ∧ bytes = entry.body sha256 := by
  simp only [fields, Decoder.bind_eq_ok, require_run_eq_ok, Decoder.available_eq,
    Decoder.readNBytes_eq, Except.ok.injEq, Prod.mk.injEq] at h
  obtain ⟨manifest, _, hmanifest, epoch, _, hepoch, incarnation, _, hincarnation, index, _, hindex,
    operation, _, hoperation, previousEpoch, _, hpreviousEpoch, previousIndex, _, hpreviousIndex,
    previousDigest, _, hpreviousDigest, length, _, hlength, payloadDigest, _, hpayloadDigest,
    _, _, ⟨rfl, rfl⟩, _, left, ⟨⟨hpos, hleft⟩, -, rfl⟩, payload, _, ⟨rfl, rfl⟩, _, _,
    ⟨hsha, -, rfl⟩, h⟩ := h
  unfold make at h
  split at h
  · split at h
    · rename_i hid hbound
      simp only [Decoder.pure_eq_ok, Prod.mk.injEq] at h
      obtain ⟨rfl, rfl⟩ := h
      refine ⟨rfl, ?_⟩
      have htake : left.take length.toInt.toNat = left := by
        rw [List.take_of_length_le]
        omega
      have hcount : Int32.ofNat left.length = length := ofNat_toNat hleft
      rw [readHash_inverts _ _ _ hmanifest, readLong_inverts _ _ _ hepoch,
        readUuid_inverts _ _ _ hincarnation, readLong_inverts _ _ _ hindex,
        readOperation_inverts _ _ _ _ hoperation, readLong_inverts _ _ _ hpreviousEpoch,
        readLong_inverts _ _ _ hpreviousIndex, readHash_inverts _ _ _ hpreviousDigest,
        readInt_inverts _ _ _ hlength, readHash_inverts _ _ _ hpayloadDigest, ← hsha]
      simp only [body, writeCount, htake, hcount]
    · cases h
  · cases h

end

/-- `ReplicaEntry.decode(decodeRecord(bytes, ENTRY, maximum, minor), minor)`. -/
def read (sha256 : Bytes → Hash) (bytes : Bytes) (maximum : ℕ) (minor : Minor) :
    Except Failure ReplicaEntry := do
  decode sha256 (← decodeRecord sha256 bytes entryKind maximum minor) minor

/-- Decoding inverts encoding, for entries of the format that is read. -/
theorem read_eq_ok {sha256 : Bytes → Hash} {bytes : Bytes} {maximum : ℕ} {minor : Minor}
    {entry : ReplicaEntry} (hint : maximum < 2 ^ 31) :
    read sha256 bytes maximum minor = .ok entry ↔
      entry.encode sha256 maximum = .ok bytes ∧ entry.formatMinor = minor := by
  simp only [read, decode, Lib.bind_eq_ok, decodeRecord_eq_ok hint, pure, Except.pure,
    Except.ok.injEq]
  constructor
  · rintro ⟨body, hframe, ⟨entry, rest⟩, hfields, rfl⟩
    obtain ⟨rfl, hbody⟩ := fields_inverts hfields
    rw [hbody] at hframe
    obtain ⟨⟨-, hmax⟩, hbytes⟩ := frame_eq_ok.mp hframe
    refine ⟨encode_eq_ok.mpr ⟨?_, hbytes⟩, rfl⟩
    rw [length_body, headerBytes] at hmax
    exact hmax
  · rintro ⟨hencode, rfl⟩
    unfold encode at hencode
    obtain ⟨_, _, hframe⟩ := Lib.bind_eq_ok.mp hencode
    exact ⟨_, hframe, (entry, []), fields_body, rfl⟩

end ReplicaEntry

/-! ### Proofs -/

/-- `ReplicaProof.Receipt`. -/
structure Receipt where
  voter : ReplicationNodeId
  digest : Hash
  deriving DecidableEq

/-- The identity and quorum checks of the constructor of `ReplicaProof`. -/
def proofIdentity (epoch : Int64) (index : Int64) (incarnation : Uuid) (receipts : List Receipt) :
    Prop :=
  2 ≤ epoch ∧ 1 ≤ index ∧ incarnation ≠ noIncarnation ∧ 2 ≤ receipts.length ∧ receipts.length ≤ 3

instance (epoch index : Int64) (incarnation : Uuid) (receipts : List Receipt) :
    Decidable (proofIdentity epoch index incarnation receipts) :=
  inferInstanceAs (Decidable (_ ∧ _ ∧ _ ∧ _ ∧ _))

/-- The voters are distinct and sorted: each compares below the next one. -/
def sortedVoters : List Receipt → Bool
  | first :: second :: rest => first.voter.value < second.voter.value && sortedVoters (second :: rest)
  | _ => true

/-- `ReplicaProof`. -/
structure ReplicaProof where
  manifestDigest : Hash
  epoch : Int64
  incarnation : Uuid
  index : Int64
  entryDigest : Hash
  previousDigest : Hash
  receipts : List Receipt
  formatMinor : Minor
  identified : proofIdentity epoch index incarnation receipts
  sorted : sortedVoters receipts = true
  deriving DecidableEq

namespace ReplicaProof

/-- `new ReplicaProof`. -/
def make (manifestDigest : Hash) (epoch : Int64) (incarnation : Uuid) (index : Int64)
    (entryDigest previousDigest : Hash) (receipts : List Receipt) (formatMinor : Minor) :
    Decoder Failure ReplicaProof :=
  if h : proofIdentity epoch index incarnation receipts then
    if hs : sortedVoters receipts = true then
      return ⟨manifestDigest, epoch, incarnation, index, entryDigest, previousDigest, receipts,
        formatMinor, h, hs⟩
    else throw (.illegalArgument "receipt voters must be distinct and sorted")
  else throw (.illegalArgument "invalid commit proof identity/quorum")

/-- One receipt in the body of a proof. -/
def receiptBytes (receipt : Receipt) : Bytes := text receipt.voter.value ++ writeHash receipt.digest

/-- The body of a proof's frame. -/
def body (proof : ReplicaProof) : Bytes :=
  writeHash proof.manifestDigest ++ (writeLong proof.epoch ++ (writeUuid proof.incarnation ++
    (writeLong proof.index ++ (writeHash proof.entryDigest ++ (writeHash proof.previousDigest ++
      (writeCount proof.receipts.length ++ proof.receipts.flatMap receiptBytes))))))

def encode (sha256 : Bytes → Hash) (proof : ReplicaProof) : Except Failure Bytes :=
  frame sha256 proofKind proof.body maxMetadataBytes proof.formatMinor

def readReceipt : Decoder Failure Receipt := do
  let voter ← readNode
  let digest ← readHash
  return ⟨voter, digest⟩

/-- The fields of a proof, in the order of the frame. -/
def fields (minor : Minor) : Decoder Failure ReplicaProof := do
  let manifest ← readHash
  let epoch ← readLong
  let incarnation ← readUuid
  let index ← readLong
  let entry ← readHash
  let previous ← readHash
  let count ← readInt
  require (2 ≤ count.toInt ∧ count.toInt ≤ 3) .integrityFailure "invalid commit-proof voter count"
  let receipts ← Decoder.times readReceipt count.toInt.toNat
  readEnd
  make manifest epoch incarnation index entry previous receipts minor

def decode (body : Bytes) (minor : Minor) : Except Failure ReplicaProof := do
  let (proof, _) ← fields minor body
  return proof

section

variable {sha256 : Bytes → Hash} {proof : ReplicaProof}

theorem length_receiptBytes_le (receipt : Receipt) : (receiptBytes receipt).length ≤ 100 := by
  have hle := receipt.voter.length_le
  rw [receiptBytes, List.length_append, length_text, receipt.voter.length_getBytes,
    length_writeHash]
  omega

/-- A proof is far below the bound of metadata. -/
theorem length_body_le : proof.body.length ≤ 432 := by
  have hreceipts : ∀ receipts : List Receipt,
      (receipts.flatMap receiptBytes).length ≤ receipts.length * 100 := by
    intro receipts
    induction receipts with
    | nil => simp
    | cons receipt receipts ih =>
      have := length_receiptBytes_le receipt
      rw [List.flatMap_cons, List.length_append, List.length_cons, Nat.succ_mul]
      omega
  have h := hreceipts proof.receipts
  have hcount := proof.identified.2.2.2.2
  simp only [body, List.length_append, length_writeHash, length_writeLong, length_writeUuid,
    length_writeCount]
  omega

/-- Every proof is encoded. -/
theorem encode_eq :
    proof.encode sha256 = .ok (framed sha256 proofKind proof.body proof.formatMinor) := by
  have hle := @length_body_le proof
  have hpos : 0 < proof.body.length := by
    simp [body]
  exact frame_eq_ok.mpr ⟨⟨hpos, by unfold headerBytes maxMetadataBytes; omega⟩, rfl⟩

theorem readReceipt_reads (receipt : Receipt) :
    Reads readReceipt (receiptBytes receipt) receipt := by
  intro rest
  rw [readReceipt, receiptBytes, List.append_assoc, (readNode_reads _).bind, readHash_bind]
  rfl

theorem readReceipt_inverts : Inverts readReceipt receiptBytes := by
  intro bytes receipt rest h
  simp only [readReceipt, Decoder.bind_eq_ok, Decoder.pure_eq_ok, Prod.mk.injEq] at h
  obtain ⟨voter, _, hvoter, digest, _, hdigest, rfl, rfl⟩ := h
  rw [readNode_inverts _ _ _ hvoter, readHash_inverts _ _ _ hdigest, receiptBytes,
    List.append_assoc]

theorem make_self : make proof.manifestDigest proof.epoch proof.incarnation proof.index
    proof.entryDigest proof.previousDigest proof.receipts proof.formatMinor = pure proof := by
  rw [make, dif_pos proof.identified, dif_pos proof.sorted]

theorem fields_body : fields proof.formatMinor proof.body = .ok (proof, []) := by
  obtain ⟨-, -, -, hlow, hhigh⟩ := proof.identified
  have hcount : (Int32.ofNat proof.receipts.length).toInt = proof.receipts.length :=
    toInt_ofNat (by omega)
  have hreceipts : Reads (Decoder.times readReceipt proof.receipts.length)
      (proof.receipts.flatMap receiptBytes) proof.receipts :=
    Decoder.times_reads fun receipt _ => readReceipt_reads receipt
  simp only [fields, body, writeCount, readHash_bind, readLong_bind, readUuid_bind, readInt_bind]
  rw [require_bind ⟨by omega, by omega⟩, hcount, Int.toNat_natCast,
    Decoder.bind_of_ok hreceipts.all, Decoder.bind_of_ok (readEnd_eq_ok.mpr ⟨rfl, rfl⟩), make_self]
  rfl

theorem fields_inverts {minor : Minor} {bytes rest : Bytes}
    (h : fields minor bytes = .ok (proof, rest)) :
    proof.formatMinor = minor ∧ bytes = proof.body := by
  simp only [fields, Decoder.bind_eq_ok, require_run_eq_ok, readEnd_eq_ok, Prod.mk.injEq] at h
  obtain ⟨manifest, _, hmanifest, epoch, _, hepoch, incarnation, _, hincarnation, index, _, hindex,
    entry, _, hentry, previous, _, hprevious, count, _, hcount, _, _, ⟨_, -, rfl⟩, receipts, _,
    hreceipts, _, _, ⟨rfl, -, rfl⟩, h⟩ := h
  obtain ⟨hlength, rfl⟩ := Decoder.times_inverts readReceipt_inverts hreceipts
  unfold make at h
  split at h
  · split at h
    · simp only [Decoder.pure_eq_ok, Prod.mk.injEq] at h
      obtain ⟨rfl, rfl⟩ := h
      refine ⟨rfl, ?_⟩
      have hofNat : Int32.ofNat receipts.length = count := ofNat_toNat (by omega)
      rw [readHash_inverts _ _ _ hmanifest, readLong_inverts _ _ _ hepoch,
        readUuid_inverts _ _ _ hincarnation, readLong_inverts _ _ _ hindex,
        readHash_inverts _ _ _ hentry, readHash_inverts _ _ _ hprevious,
        readInt_inverts _ _ _ hcount]
      simp only [body, writeCount, hofNat, List.append_nil]
    · cases h
  · cases h

end

/-- `ReplicaProof.decode(decodeRecord(bytes, PROOF, MAX_METADATA_BYTES, minor), minor)`. -/
def read (sha256 : Bytes → Hash) (bytes : Bytes) (minor : Minor) : Except Failure ReplicaProof := do
  decode (← decodeRecord sha256 bytes proofKind maxMetadataBytes minor) minor

/-- Decoding inverts encoding, for proofs of the format that is read. -/
theorem read_eq_ok {sha256 : Bytes → Hash} {bytes : Bytes} {minor : Minor} {proof : ReplicaProof} :
    read sha256 bytes minor = .ok proof ↔
      proof.encode sha256 = .ok bytes ∧ proof.formatMinor = minor := by
  simp only [read, decode, Lib.bind_eq_ok, decodeRecord_eq_ok (show maxMetadataBytes < 2 ^ 31 by
    decide), pure, Except.pure, Except.ok.injEq]
  constructor
  · rintro ⟨body, hframe, ⟨proof, rest⟩, hfields, rfl⟩
    obtain ⟨rfl, hbody⟩ := fields_inverts hfields
    rw [hbody] at hframe
    exact ⟨hframe, rfl⟩
  · rintro ⟨hframe, rfl⟩
    exact ⟨_, hframe, (proof, []), fields_body, rfl⟩

end ReplicaProof

end GeneralSearch.Replica
