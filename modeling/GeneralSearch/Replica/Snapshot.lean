import GeneralSearch.Replica.Records

/-! `ReplicaSnapshot`: an application cut with its bounded ancestry and terminal proof. -/

namespace GeneralSearch.Replica

open GeneralSearch.Utf8 (JavaString)
open Decoder (Reads Inverts)

/-- `ReplicationBounds`, the limits on bytes. -/
structure ReplicationBounds where
  maxFrameBytes : ℕ
  maxRetainedLogBytes : ℕ
  maxSnapshotStagingBytes : ℕ
  frame : 1 ≤ maxFrameBytes ∧ maxFrameBytes ≤ hardMaxFrameBytes
  retained : 1 ≤ maxRetainedLogBytes ∧ maxRetainedLogBytes ≤ 1024 * 1024 * 1024 * 1024
  staging : 1 ≤ maxSnapshotStagingBytes ∧ maxSnapshotStagingBytes ≤ 1024 * 1024 * 1024 * 1024

theorem ReplicationBounds.frame_lt (bounds : ReplicationBounds) : bounds.maxFrameBytes < 2 ^ 31 := by
  have h := bounds.frame.2
  unfold hardMaxFrameBytes at h
  omega

/-! ### Blobs -/

/-- A blob that `blob` has appended: its length and its bytes. -/
def blobBytes (bytes : Bytes) : Bytes := writeCount bytes.length ++ bytes

/-- `blob`, written behind what stands already. -/
def blob (out bytes : Bytes) (maximum : ℕ) : Except Failure Bytes := do
  require (out.length + 4 + bytes.length + headerBytes ≤ maximum) .capacityExceeded
    "recovery image exceeds bound"
  return out ++ blobBytes bytes

/-- `blob`, read. -/
def readBlob (maximum : ℕ) : Decoder Failure Bytes := do
  let length ← readInt
  require (0 ≤ length.toInt ∧ length.toInt ≤ maximum ∧ length.toInt ≤ (← Decoder.available))
    .integrityFailure "invalid recovery blob length"
  Decoder.readNBytes length.toInt.toNat

@[simp] theorem length_blobBytes (bytes : Bytes) : (blobBytes bytes).length = 4 + bytes.length := by
  simp [blobBytes]

theorem blob_eq_ok {out bytes out' : Bytes} {maximum : ℕ} : blob out bytes maximum = .ok out' ↔
    out.length + 4 + bytes.length + headerBytes ≤ maximum ∧ out' = out ++ blobBytes bytes := by
  simp only [blob, Lib.bind_eq_ok, require_eq_ok, exists_and_left, exists_const, pure, Except.pure,
    Except.ok.injEq]
  exact and_congr_right fun _ => eq_comm

theorem readBlob_reads {bytes : Bytes} {maximum : ℕ} (hmax : bytes.length ≤ maximum)
    (hint : maximum < 2 ^ 31) : Reads (readBlob maximum) (blobBytes bytes) bytes := by
  intro rest
  have hlength : (Int32.ofNat bytes.length).toInt = bytes.length := toInt_ofNat (by omega)
  rw [readBlob, blobBytes, List.append_assoc, writeCount, readInt_bind, available_bind, hlength,
    Int.toNat_natCast, require_bind ⟨by omega, by omega, by rw [List.length_append]; omega⟩]
  exact Decoder.readNBytes_reads _ rest

theorem readBlob_inverts {maximum : ℕ} : Inverts (readBlob maximum) blobBytes := by
  intro bytes blob rest h
  simp only [readBlob, Decoder.bind_eq_ok, require_run_eq_ok, Decoder.available_eq,
    Decoder.readNBytes_eq, Except.ok.injEq, Prod.mk.injEq] at h
  obtain ⟨length, _, hlength, _, _, ⟨rfl, rfl⟩, _, left, ⟨⟨hpos, _, hleft⟩, -, rfl⟩, rfl, rfl⟩ := h
  have htaken : (left.take length.toInt.toNat).length = length.toInt.toNat := by
    rw [List.length_take]
    omega
  have hcount : Int32.ofNat (left.take length.toInt.toNat).length = length := by
    apply ofNat_toNat
    rw [htaken]
    omega
  rw [blobBytes, writeCount, hcount, List.append_assoc, List.take_append_drop,
    readInt_inverts _ _ _ hlength]

/-! ### Ancestry -/

/-- The checks of the constructor of `Anchor`. -/
def anchorIdentity (epoch : Int64) (incarnation : Uuid) : Prop :=
  2 ≤ epoch ∧ incarnation ≠ noIncarnation

instance (epoch : Int64) (incarnation : Uuid) : Decidable (anchorIdentity epoch incarnation) :=
  inferInstanceAs (Decidable (_ ∧ _))

/-- `ReplicaSnapshot.Anchor`. -/
structure Anchor where
  epoch : Int64
  incarnation : Uuid
  operation : Operation
  digest : Hash
  payloadDigest : Hash
  identified : anchorIdentity epoch incarnation
  deriving DecidableEq

/-- `new Anchor`. -/
def Anchor.make (epoch : Int64) (incarnation : Uuid) (operation : Operation)
    (digest payloadDigest : Hash) : Decoder Failure Anchor :=
  if h : anchorIdentity epoch incarnation then
    return ⟨epoch, incarnation, operation, digest, payloadDigest, h⟩
  else throw (.replication .integrityFailure "invalid snapshot ancestor")

/-- `Anchor.of`. -/
def Anchor.of (sha256 : Bytes → Hash) (entry : ReplicaEntry) (maximum : ℕ) :
    Except Failure Anchor := do
  let encoded ← entry.encode sha256 maximum
  return ⟨entry.epoch, entry.incarnation, entry.operation, frameDigest encoded,
    sha256 entry.payload, entry.identified.1, entry.identified.2.1⟩

/-- An ancestor in the body of a snapshot. -/
def anchorBytes (anchor : Anchor) : Bytes :=
  writeLong anchor.epoch ++ (writeUuid anchor.incarnation ++ (writeByte anchor.operation.code ++
    (writeHash anchor.digest ++ writeHash anchor.payloadDigest)))

def readAnchor : Decoder Failure Anchor := do
  let epoch ← readLong
  let incarnation ← readUuid
  let operation ← readOperation "unknown snapshot operation"
  let digest ← readHash
  let payloadDigest ← readHash
  Anchor.make epoch incarnation operation digest payloadDigest

@[simp] theorem length_anchorBytes (anchor : Anchor) : (anchorBytes anchor).length = 89 := by
  simp [anchorBytes]

@[simp] theorem length_flatMap_anchorBytes (anchors : List Anchor) :
    (anchors.flatMap anchorBytes).length = anchors.length * 89 := by
  induction anchors with
  | nil => rfl
  | cons anchor anchors ih =>
    rw [List.flatMap_cons, List.length_append, length_anchorBytes, ih, List.length_cons]
    omega

theorem readAnchor_reads (anchor : Anchor) : Reads readAnchor (anchorBytes anchor) anchor := by
  intro rest
  simp only [readAnchor, anchorBytes, List.append_assoc, readLong_bind, readUuid_bind]
  rw [(readOperation_reads _ _).bind, readHash_bind, readHash_bind, Anchor.make,
    dif_pos anchor.identified]
  rfl

theorem readAnchor_inverts : Inverts readAnchor anchorBytes := by
  intro bytes anchor rest h
  simp only [readAnchor, Decoder.bind_eq_ok] at h
  obtain ⟨epoch, _, hepoch, incarnation, _, hincarnation, operation, _, hoperation, digest, _,
    hdigest, payloadDigest, _, hpayload, h⟩ := h
  unfold Anchor.make at h
  split at h
  · simp only [Decoder.pure_eq_ok, Prod.mk.injEq] at h
    obtain ⟨rfl, rfl⟩ := h
    rw [readLong_inverts _ _ _ hepoch, readUuid_inverts _ _ _ hincarnation,
      readOperation_inverts _ _ _ _ hoperation, readHash_inverts _ _ _ hdigest,
      readHash_inverts _ _ _ hpayload]
    simp only [anchorBytes, List.append_assoc]
  · cases h

/-- The epochs of the ancestors do not fall, and an epoch has one incarnation. -/
def ancestry (epoch : Int64) (incarnation : Uuid) : List Anchor → Bool
  | [] => true
  | anchor :: anchors =>
    epoch ≤ anchor.epoch && (epoch < anchor.epoch || anchor.incarnation = incarnation) &&
      ancestry anchor.epoch anchor.incarnation anchors

/-! ### The snapshot -/

/-- `ReplicaSnapshot.MAX_BYTES`. -/
def maxSnapshotBytes : ℕ := 64 * 1024 * 1024

def snapshotKind : UInt16 := 8

/-- `Long.MAX_VALUE`. -/
def maxLong : Int64 := 0x7FFFFFFFFFFFFFFF

/-- The first check of the constructor of `ReplicaSnapshot`. -/
def snapshotBase (formatMinor : Minor) (baseSequence : Int64) : Prop :=
  0 ≤ baseSequence ∧ baseSequence < maxLong ∧ (formatMinor ≠ 0 ∨ baseSequence = 0)

instance (formatMinor : Minor) (baseSequence : Int64) :
    Decidable (snapshotBase formatMinor baseSequence) :=
  inferInstanceAs (Decidable (_ ∧ _ ∧ _))

/-- `ReplicaSnapshot`. -/
structure ReplicaSnapshot where
  manifestDigest : Hash
  anchors : List Anchor
  proof : Option ReplicaProof
  application : Bytes
  baseSequence : Int64
  formatMinor : Minor
  based : snapshotBase formatMinor baseSequence
  bounded : anchors.length ≤ maxEntries ∧ application.length ≤ maxSnapshotBytes
  proved : anchors.isEmpty = proof.isNone
  ancestral : ancestry 1 noIncarnation anchors = true
  deriving DecidableEq

namespace ReplicaSnapshot

/-- `new ReplicaSnapshot`. -/
def make (manifestDigest : Hash) (anchors : List Anchor) (proof : Option ReplicaProof)
    (application : Bytes) (baseSequence : Int64) (formatMinor : Minor) :
    Except Failure ReplicaSnapshot :=
  if hbase : snapshotBase formatMinor baseSequence then
    if hbound : anchors.length ≤ maxEntries ∧ application.length ≤ maxSnapshotBytes then
      if hproof : anchors.isEmpty = proof.isNone then
        if hancestry : ancestry 1 noIncarnation anchors = true then
          return ⟨manifestDigest, anchors, proof, application, baseSequence, formatMinor, hbase,
            hbound, hproof, hancestry⟩
        else throw (.replication .conflictingHistory "snapshot ancestry epoch/incarnation conflicts")
      else throw (.replication .integrityFailure "snapshot requires its terminal proof")
    else throw (.replication .capacityExceeded "snapshot capacity exceeded")
  else throw (.replication .integrityFailure "invalid snapshot base/version")

def index (snapshot : ReplicaSnapshot) : ℕ := snapshot.anchors.length

/-- The number of ancestors that take a sequence number. -/
def operations (snapshot : ReplicaSnapshot) : ℕ :=
  snapshot.anchors.countP fun anchor =>
    anchor.operation ≠ .noOp ∧ anchor.operation ≠ .snapshotMarker

/-- `sequence`: `Math.addExact` of the base and the operations. -/
def sequence (snapshot : ReplicaSnapshot) : Except Failure Int64 :=
  if snapshot.baseSequence.toInt + snapshot.operations < 2 ^ 63 then
    .ok (snapshot.baseSequence + .ofNat snapshot.operations)
  else .error .arithmetic

/-- `digestAt`; there is none past the last ancestor. -/
def digestAt (snapshot : ReplicaSnapshot) (index : ℕ) : Option Hash :=
  if index = 0 then some snapshot.manifestDigest
  else (snapshot.anchors[index - 1]?).map Anchor.digest

/-- `epochAt`; there is none past the last ancestor. -/
def epochAt (snapshot : ReplicaSnapshot) (index : ℕ) : Option Int64 :=
  if index = 0 then some 1 else (snapshot.anchors[index - 1]?).map Anchor.epoch

end ReplicaSnapshot

/-! ### Validation -/

/-- What the digest of a receipt is taken of. -/
def acknowledgement (protocol : JavaString) (manifestDigest : Hash) (voter : ReplicationNodeId)
    (epoch : Int64) (incarnation : Uuid) (index : Int64) (entryDigest : Hash) : Bytes :=
  text (protocol ++ Utf8.ofString "/DURABLE_ACK") ++ writeHash manifestDigest ++ text voter.value ++
    writeLong epoch ++ writeUuid incarnation ++ writeLong index ++ writeHash entryDigest

/-- `ReplicaSnapshot.validateProof`. -/
def validateProof (sha256 : Bytes → Hash) (manifest : ReplicaManifest) (proof : ReplicaProof)
    (index : Int64) (anchor : Anchor) (previous : Hash) : Except Failure Unit := do
  require (proof.manifestDigest = manifest.digest ∧ proof.formatMinor = manifest.formatMinor ∧
    proof.index = index ∧ proof.epoch = anchor.epoch ∧ proof.incarnation = anchor.incarnation ∧
    proof.entryDigest = anchor.digest ∧ proof.previousDigest = previous) .conflictingHistory
    "proof disagrees with recovery ancestry"
  proof.receipts.forM fun receipt => do
    require (manifest.contains receipt.voter = true) .protocolMismatch "unknown proof voter"
    require (receipt.digest = sha256 (acknowledgement manifest.protocol manifest.digest
      receipt.voter anchor.epoch anchor.incarnation index anchor.digest)) .integrityFailure
      "invalid recovery receipt"

namespace ReplicaSnapshot

/-- `validate`. -/
def validate (sha256 : Bytes → Hash) (snapshot : ReplicaSnapshot) (manifest : ReplicaManifest) :
    Except Failure Unit := do
  require (manifest.digest = snapshot.manifestDigest ∧
    manifest.formatMinor = snapshot.formatMinor ∧
    manifest.baseSequence = snapshot.baseSequence) .protocolMismatch
    "snapshot manifest/base mismatch"
  match snapshot.proof, snapshot.anchors.getLast?, snapshot.digestAt (snapshot.index - 1) with
  | some proof, some last, some previous =>
    validateProof sha256 manifest proof (.ofNat snapshot.index) last previous
  -- A snapshot has a proof exactly when it has an ancestor.
  | _, _, _ => return

/-! ### Encoding -/

/-- The ancestors behind what stands already. -/
def appendAnchors (maximum : ℕ) (out : Bytes) (anchors : List Anchor) : Except Failure Bytes :=
  anchors.foldlM (fun out anchor => do
    let out := out ++ anchorBytes anchor
    require (out.length + headerBytes ≤ maximum) .capacityExceeded "snapshot ancestry exceeds bound"
    return out) out

/-- What `encode` writes of a proof: nothing where there is none. -/
def encodeProof (sha256 : Bytes → Hash) : Option ReplicaProof → Except Failure Bytes
  | none => .ok []
  | some proof => proof.encode sha256

/-- The base and the sequence, which only the admitted format has. -/
def encodeBase (snapshot : ReplicaSnapshot) : Except Failure Bytes :=
  if snapshot.formatMinor = 1 then do
    return writeLong snapshot.baseSequence ++ writeLong (← snapshot.sequence)
  else return []

/-- The body of a snapshot's frame. -/
def body (sha256 : Bytes → Hash) (snapshot : ReplicaSnapshot) (maximum : ℕ) :
    Except Failure Bytes := do
  let mut out := writeHash snapshot.manifestDigest ++ (← snapshot.encodeBase)
  out := out ++ writeCount snapshot.anchors.length
  out ← appendAnchors maximum out snapshot.anchors
  out ← blob out (← encodeProof sha256 snapshot.proof) maximum
  blob out snapshot.application maximum

def encode (sha256 : Bytes → Hash) (snapshot : ReplicaSnapshot) (maximum : ℕ) :
    Except Failure Bytes := do
  frame sha256 snapshotKind (← snapshot.body sha256 maximum) maximum snapshot.formatMinor

/-! ### Decoding -/

/-- The fields of a snapshot as they are read, before its proof is decoded. -/
structure Fields where
  digest : Hash
  base : Int64
  claimed : Int64
  anchors : List Anchor
  proof : Bytes
  application : Bytes

/-- A long that only the admitted format has. -/
def readAdmitted (minor : Minor) : Decoder Failure Int64 :=
  if minor = 1 then readLong else return 0

/-- The fields of a snapshot, in the order of the frame. -/
def fields (minor : Minor) (maximum : ℕ) : Decoder Failure Fields := do
  let digest ← readHash
  let base ← readAdmitted minor
  let claimed ← readAdmitted minor
  let count ← readInt
  require (0 ≤ count.toInt ∧ count.toInt ≤ maxEntries ∧
    count.toInt ≤ ((← Decoder.available) / 89 : ℕ)) .capacityExceeded
    "snapshot ancestry count exceeds bound"
  let anchors ← Decoder.times readAnchor count.toInt.toNat
  let proof ← readBlob maxMetadataBytes
  let application ← readBlob maximum
  readEnd
  return ⟨digest, base, claimed, anchors, proof, application⟩

/-- The proof of its blob, which is empty where there is none. -/
def decodeProof (sha256 : Bytes → Hash) (proof : Bytes) (minor : Minor) :
    Except Failure (Option ReplicaProof) :=
  if proof = [] then return none
  else return some (← ReplicaProof.read sha256 proof minor)

/-- The sequence that an admitted snapshot claims is that of its ancestors. -/
def checkSequence (snapshot : ReplicaSnapshot) (minor : Minor) (claimed : Int64) :
    Except Failure Unit :=
  if minor = 0 then return
  else do
    require ((← snapshot.sequence) = claimed) .integrityFailure
      "snapshot application sequence mismatch"

def decode (sha256 : Bytes → Hash) (encoded : Bytes) (manifest : ReplicaManifest) (maximum : ℕ) :
    Except Failure ReplicaSnapshot := classify "invalid snapshot" do
  let minor := manifest.formatMinor
  let body ← decodeRecord sha256 encoded snapshotKind maximum minor
  let (read, _) ← fields minor maximum body
  let result ← make read.digest read.anchors (← decodeProof sha256 read.proof minor)
    read.application read.base minor
  result.checkSequence minor read.claimed
  result.validate sha256 manifest
  return result

/-! ### The round trip -/

section

variable {sha256 : Bytes → Hash} {snapshot : ReplicaSnapshot} {maximum : ℕ}

/-- The bytes of the proof's blob. -/
def proofBytes (sha256 : Bytes → Hash) : Option ReplicaProof → Bytes
  | none => []
  | some proof => framed sha256 proofKind proof.body proof.formatMinor

/-- The base and the sequence, which only the admitted format has. -/
def sequenceBytes (snapshot : ReplicaSnapshot) : Bytes :=
  if snapshot.formatMinor = 1 then
    writeLong snapshot.baseSequence ++ writeLong (snapshot.baseSequence + .ofNat snapshot.operations)
  else []

/-- The bytes that `body` returns. -/
def bytes (sha256 : Bytes → Hash) (snapshot : ReplicaSnapshot) : Bytes :=
  writeHash snapshot.manifestDigest ++ (snapshot.sequenceBytes ++
    (writeCount snapshot.anchors.length ++ (snapshot.anchors.flatMap anchorBytes ++
      (blobBytes (proofBytes sha256 snapshot.proof) ++ blobBytes snapshot.application))))

/-- The sequence of the snapshot fits a long, where it is written. -/
def Sequenced (snapshot : ReplicaSnapshot) : Prop :=
  snapshot.formatMinor = 1 → snapshot.baseSequence.toInt + snapshot.operations < 2 ^ 63

theorem sequence_eq_ok {v : Int64} : snapshot.sequence = .ok v ↔
    snapshot.baseSequence.toInt + snapshot.operations < 2 ^ 63 ∧
      v = snapshot.baseSequence + .ofNat snapshot.operations := by
  unfold sequence
  split
  · rename_i h
    rw [Except.ok.injEq]
    exact ⟨fun heq => ⟨h, heq.symm⟩, fun heq => heq.2.symm⟩
  · rename_i h
    exact ⟨nofun, fun heq => absurd heq.1 h⟩

theorem encodeProof_eq (proof : Option ReplicaProof) :
    encodeProof sha256 proof = .ok (proofBytes sha256 proof) := by
  cases proof with
  | none => rfl
  | some proof => exact ReplicaProof.encode_eq

/-- A check after every ancestor is a check after the last one. -/
theorem appendAnchors_eq_ok {out out' : Bytes} {anchors : List Anchor} :
    appendAnchors maximum out anchors = .ok out' ↔
      (anchors = [] ∨ out.length + anchors.length * 89 + headerBytes ≤ maximum) ∧
        out' = out ++ anchors.flatMap anchorBytes := by
  unfold appendAnchors
  induction anchors generalizing out with
  | nil =>
    simp only [List.foldlM_nil, pure, Except.pure, Except.ok.injEq, true_or, true_and,
      List.flatMap_nil, List.append_nil]
    exact eq_comm
  | cons anchor anchors ih =>
    rw [List.foldlM_cons, Lib.bind_eq_ok]
    simp only [Lib.bind_eq_ok, require_eq_ok, pure, Except.pure, Except.ok.injEq,
      exists_and_left, exists_const]
    constructor
    · rintro ⟨_, ⟨hfirst, rfl⟩, hrest⟩
      obtain ⟨hbound, rfl⟩ := ih.mp hrest
      rw [List.length_append, length_anchorBytes] at hfirst hbound
      refine ⟨.inr ?_, by simp⟩
      rcases hbound with rfl | hbound
      · rw [List.length_singleton]
        omega
      · rw [List.length_cons]
        omega
    · rintro ⟨hbound, rfl⟩
      have hbound := hbound.resolve_left (by simp)
      rw [List.length_cons] at hbound
      refine ⟨_, ⟨?_, rfl⟩, ih.mpr ⟨?_, by simp⟩⟩
      · rw [List.length_append, length_anchorBytes]
        omega
      · rw [List.length_append, length_anchorBytes]
        exact .inr (by omega)

theorem length_bytes : (snapshot.bytes sha256).length = 44 + snapshot.sequenceBytes.length +
    snapshot.anchors.length * 89 + (proofBytes sha256 snapshot.proof).length +
      snapshot.application.length := by
  simp only [bytes, List.length_append, length_flatMap_anchorBytes, length_blobBytes,
    length_writeHash, length_writeCount]
  omega

theorem encodeBase_eq_ok {out : Bytes} : snapshot.encodeBase = .ok out ↔
    snapshot.Sequenced ∧ out = snapshot.sequenceBytes := by
  unfold encodeBase Sequenced sequenceBytes
  by_cases hminor : snapshot.formatMinor = 1
  · simp only [hminor, if_true, Lib.bind_eq_ok, sequence_eq_ok, pure, Except.pure, Except.ok.injEq,
      forall_const]
    constructor
    · rintro ⟨_, ⟨hsum, rfl⟩, rfl⟩
      exact ⟨hsum, rfl⟩
    · rintro ⟨hsum, rfl⟩
      exact ⟨_, ⟨hsum, rfl⟩, rfl⟩
  · simp only [hminor, if_false, pure, Except.pure, Except.ok.injEq]
    exact ⟨fun h => ⟨nofun, h.symm⟩, fun h => h.2.symm⟩

/-- The body within its bound: what is checked while it is written is that the whole fits. -/
theorem body_eq_ok {out : Bytes} : snapshot.body sha256 maximum = .ok out ↔
    snapshot.Sequenced ∧ (snapshot.bytes sha256).length + headerBytes ≤ maximum ∧
      out = snapshot.bytes sha256 := by
  have hlength := @length_bytes sha256 snapshot
  have hbytes : writeHash snapshot.manifestDigest ++ snapshot.sequenceBytes ++
      writeCount snapshot.anchors.length ++ snapshot.anchors.flatMap anchorBytes ++
      blobBytes (proofBytes sha256 snapshot.proof) ++ blobBytes snapshot.application =
      snapshot.bytes sha256 := by
    simp [bytes]
  simp only [body, Lib.bind_eq_ok, encodeBase_eq_ok, appendAnchors_eq_ok, encodeProof_eq,
    blob_eq_ok, Except.ok.injEq]
  constructor
  · rintro ⟨_, ⟨hseq, rfl⟩, _, ⟨-, rfl⟩, _, rfl, _, ⟨-, rfl⟩, hlast, rfl⟩
    simp only [List.length_append, length_flatMap_anchorBytes, length_blobBytes, length_writeHash,
      length_writeCount] at hlast
    exact ⟨hseq, by omega, hbytes⟩
  · rintro ⟨hseq, hbound, rfl⟩
    refine ⟨_, ⟨hseq, rfl⟩, _, ⟨.inr ?_, rfl⟩, _, rfl, _, ⟨?_, rfl⟩, ?_, hbytes.symm⟩
    all_goals
      simp only [List.length_append, length_flatMap_anchorBytes, length_blobBytes, length_writeHash,
        length_writeCount]
      omega

theorem encode_eq_ok {encoded : Bytes} : snapshot.encode sha256 maximum = .ok encoded ↔
    snapshot.Sequenced ∧ (snapshot.bytes sha256).length + headerBytes ≤ maximum ∧
      encoded = framed sha256 snapshotKind (snapshot.bytes sha256) snapshot.formatMinor := by
  have hpos : 0 < (snapshot.bytes sha256).length := by
    rw [length_bytes]
    omega
  simp only [encode, Lib.bind_eq_ok, body_eq_ok, frame_eq_ok]
  constructor
  · rintro ⟨_, ⟨hseq, hmax, rfl⟩, -, rfl⟩
    exact ⟨hseq, hmax, rfl⟩
  · rintro ⟨hseq, hmax, rfl⟩
    exact ⟨_, ⟨hseq, hmax, rfl⟩, ⟨hpos, hmax⟩, rfl⟩

/-- The fields that are read back. -/
def written (sha256 : Bytes → Hash) (snapshot : ReplicaSnapshot) : Fields where
  digest := snapshot.manifestDigest
  base := snapshot.baseSequence
  claimed := if snapshot.formatMinor = 1 then
    snapshot.baseSequence + .ofNat snapshot.operations else 0
  anchors := snapshot.anchors
  proof := proofBytes sha256 snapshot.proof
  application := snapshot.application

theorem length_proofBytes_le (proof : Option ReplicaProof) :
    (proofBytes sha256 proof).length ≤ 480 := by
  cases proof with
  | none => exact Nat.zero_le _
  | some proof =>
    have := @ReplicaProof.length_body_le proof
    rw [proofBytes, length_framed, headerBytes]
    omega

variable (sha256) in
/-- The base and the sequence are read as they were written, or as zeros. -/
theorem readAdmitted_sequence {α : Type} (f : Int64 → Int64 → Decoder Failure α) (rest : Bytes) :
    (do
      let base ← readAdmitted snapshot.formatMinor
      let claimed ← readAdmitted snapshot.formatMinor
      f base claimed) (snapshot.sequenceBytes ++ rest) =
    f (snapshot.written sha256).base (snapshot.written sha256).claimed rest := by
  by_cases hminor : snapshot.formatMinor = 1
  · simp only [readAdmitted, sequenceBytes, written, hminor, if_true, List.append_assoc,
      readLong_bind]
  · have hbase := snapshot.based.2.2.resolve_left (not_not.mpr (Minor.eq_zero hminor))
    simp only [readAdmitted, sequenceBytes, written, hminor, if_false, List.nil_append, hbase]
    rfl

theorem fields_bytes (hmax : (snapshot.bytes sha256).length + headerBytes ≤ maximum)
    (hint : maximum < 2 ^ 31) :
    fields snapshot.formatMinor maximum (snapshot.bytes sha256) =
      .ok (snapshot.written sha256, []) := by
  have hlength := @length_bytes sha256 snapshot
  have hcount : (Int32.ofNat snapshot.anchors.length).toInt = snapshot.anchors.length :=
    toInt_ofNat (by omega)
  have hbounded := snapshot.bounded.1
  have hproof := @length_proofBytes_le sha256 snapshot.proof
  have hanchors : Reads (Decoder.times readAnchor snapshot.anchors.length)
      (snapshot.anchors.flatMap anchorBytes) snapshot.anchors :=
    Decoder.times_reads fun anchor _ => readAnchor_reads anchor
  have hproofBlob : Reads (readBlob maxMetadataBytes) (blobBytes (proofBytes sha256 snapshot.proof))
      (proofBytes sha256 snapshot.proof) :=
    readBlob_reads (by unfold maxMetadataBytes; omega) (by decide)
  have happlication : Reads (readBlob maximum) (blobBytes snapshot.application)
      snapshot.application := readBlob_reads (by omega) hint
  have hroom : ∀ rest : Bytes, (snapshot.anchors.length : ℤ) ≤
      ((snapshot.anchors.flatMap anchorBytes ++ rest).length / 89 : ℕ) := by
    intro rest
    rw [List.length_append, length_flatMap_anchorBytes]
    omega
  simp only [fields, bytes, readHash_bind]
  rw [readAdmitted_sequence sha256, writeCount, readInt_bind, available_bind, hcount,
    require_bind ⟨by omega, by omega, hroom _⟩, Int.toNat_natCast, hanchors.bind, hproofBlob.bind,
    Decoder.bind_of_ok happlication.all, Decoder.bind_of_ok (readEnd_eq_ok.mpr ⟨rfl, rfl⟩)]
  rfl

/-- Fields that were read are those of the bytes. -/
theorem fields_inverts {minor : Minor} {bytes rest : Bytes} {read : Fields}
    (h : fields minor maximum bytes = .ok (read, rest)) :
    bytes = writeHash read.digest ++ ((if minor = 1 then
        writeLong read.base ++ writeLong read.claimed else []) ++
      (writeCount read.anchors.length ++ (read.anchors.flatMap anchorBytes ++
        (blobBytes read.proof ++ blobBytes read.application)))) := by
  simp only [fields, Decoder.bind_eq_ok, require_run_eq_ok, readEnd_eq_ok, Decoder.pure_eq_ok,
    Decoder.available_eq, Except.ok.injEq, Prod.mk.injEq] at h
  obtain ⟨digest, _, hdigest, base, _, hbase, claimed, _, hclaimed, count, left, hcount, _, _,
    ⟨rfl, rfl⟩, _, _, ⟨⟨hpos, _⟩, -, rfl⟩, anchors, _, hanchors, proof, _, hproof, application, _,
    happlication, _, _, ⟨rfl, -, rfl⟩, rfl, rfl⟩ := h
  obtain ⟨hlength, hanchors⟩ := Decoder.times_inverts readAnchor_inverts hanchors
  have hofNat : Int32.ofNat anchors.length = count := ofNat_toNat (by omega)
  have htail := readInt_inverts _ _ _ hcount
  rw [hanchors, readBlob_inverts _ _ _ hproof, readBlob_inverts _ _ _ happlication,
    ← hofNat, List.append_nil] at htail
  rw [readHash_inverts _ _ _ hdigest]
  unfold readAdmitted at hbase hclaimed
  by_cases hminor : minor = 1
  · rw [if_pos hminor] at hbase hclaimed ⊢
    rw [readLong_inverts _ _ _ hbase, readLong_inverts _ _ _ hclaimed, htail]
    simp [writeCount]
  · rw [if_neg hminor] at hbase hclaimed ⊢
    simp only [Decoder.pure_eq_ok, Prod.mk.injEq] at hbase hclaimed
    obtain ⟨rfl, rfl⟩ := hbase
    obtain ⟨rfl, rfl⟩ := hclaimed
    rw [htail]
    simp [writeCount]

theorem make_self : make snapshot.manifestDigest snapshot.anchors snapshot.proof
    snapshot.application snapshot.baseSequence snapshot.formatMinor = .ok snapshot := by
  rw [make, dif_pos snapshot.based, dif_pos snapshot.bounded, dif_pos snapshot.proved,
    dif_pos snapshot.ancestral]
  rfl

theorem make_eq_ok {manifestDigest : Hash} {anchors : List Anchor} {proof : Option ReplicaProof}
    {application : Bytes} {base : Int64} {minor : Minor}
    (h : make manifestDigest anchors proof application base minor = .ok snapshot) :
    snapshot.manifestDigest = manifestDigest ∧ snapshot.anchors = anchors ∧
      snapshot.proof = proof ∧ snapshot.application = application ∧
      snapshot.baseSequence = base ∧ snapshot.formatMinor = minor := by
  unfold make at h
  split at h
  · split at h
    · split at h
      · split at h
        · cases h
          exact ⟨rfl, rfl, rfl, rfl, rfl, rfl⟩
        · cases h
      · cases h
    · cases h
  · cases h

theorem decodeProof_eq_ok {bytes : Bytes} {proof : Option ReplicaProof} {minor : Minor} :
    decodeProof sha256 bytes minor = .ok proof ↔
      bytes = proofBytes sha256 proof ∧ ∀ p ∈ proof, p.formatMinor = minor := by
  have hne : ∀ p : ReplicaProof,
      framed sha256 proofKind p.body p.formatMinor ≠ [] := by
    intro p h
    have := congrArg List.length h
    rw [length_framed, headerBytes, List.length_nil] at this
    omega
  unfold decodeProof
  by_cases hempty : bytes = []
  · rw [if_pos hempty]
    simp only [pure, Except.pure, Except.ok.injEq]
    cases proof with
    | none => simp [hempty, proofBytes]
    | some p => simp [hempty, proofBytes, (hne p).symm]
  · rw [if_neg hempty]
    simp only [Lib.bind_eq_ok, ReplicaProof.read_eq_ok, ReplicaProof.encode_eq, pure, Except.pure,
      Except.ok.injEq]
    cases proof with
    | none => simp [hempty, proofBytes]
    | some p =>
      simp only [Option.some.injEq, proofBytes, Option.mem_def, forall_eq']
      constructor
      · rintro ⟨_, ⟨h, hm⟩, heq⟩
        exact heq ▸ ⟨h.symm, hm⟩
      · rintro ⟨h, hm⟩
        exact ⟨p, ⟨h.symm, hm⟩, rfl⟩

theorem validate_minor {manifest : ReplicaManifest}
    (h : snapshot.validate sha256 manifest = .ok ()) :
    manifest.formatMinor = snapshot.formatMinor ∧ ∀ p ∈ snapshot.proof, p.formatMinor =
      manifest.formatMinor := by
  have hproved := snapshot.proved
  unfold validate at h
  simp only [Lib.bind_eq_ok, require_eq_ok] at h
  obtain ⟨_, ⟨_, hminor, _⟩, h⟩ := h
  refine ⟨hminor, fun p hp => ?_⟩
  rw [Option.mem_def] at hp
  -- A snapshot with a proof has a last ancestor, and that one a predecessor.
  have hne : snapshot.anchors ≠ [] := by
    rintro hnil
    rw [hnil, hp] at hproved
    cases hproved
  obtain ⟨last, hlast⟩ := Option.isSome_iff_exists.mp (List.getLast?_isSome.mpr hne)
  have hprevious : (snapshot.digestAt (snapshot.index - 1)).isSome := by
    unfold digestAt
    split
    · rfl
    · have hlength := List.length_pos_iff.mpr hne
      unfold index
      rw [Option.isSome_map, isSome_getElem?]
      show snapshot.anchors.length - 1 - 1 < snapshot.anchors.length
      omega
  obtain ⟨previous, hprevious⟩ := Option.isSome_iff_exists.mp hprevious
  rw [hp, hlast, hprevious] at h
  simp only [validateProof, Lib.bind_eq_ok, require_eq_ok] at h
  obtain ⟨_, ⟨_, hp, _⟩, _⟩ := h
  exact hp

theorem checkSequence_eq_ok {minor : Minor} {claimed : Int64} :
    snapshot.checkSequence minor claimed = .ok () ↔ (minor = 1 →
      snapshot.baseSequence.toInt + snapshot.operations < 2 ^ 63 ∧
        claimed = snapshot.baseSequence + .ofNat snapshot.operations) := by
  unfold checkSequence
  by_cases hminor : minor = 1
  · rw [if_neg (by rw [hminor]; decide)]
    simp only [Lib.bind_eq_ok, sequence_eq_ok, require_eq_ok, hminor, forall_const]
    constructor
    · rintro ⟨_, ⟨hsum, rfl⟩, rfl⟩
      exact ⟨hsum, rfl⟩
    · rintro ⟨hsum, rfl⟩
      exact ⟨_, ⟨hsum, rfl⟩, rfl⟩
  · rw [if_pos (Minor.eq_zero hminor)]
    exact iff_of_true rfl fun h => absurd h hminor

/-- Decoding inverts encoding, for the snapshots that are valid for the manifest. -/
theorem decode_eq_ok {manifest : ReplicaManifest} {encoded : Bytes} (hint : maximum < 2 ^ 31) :
    decode sha256 encoded manifest maximum = .ok snapshot ↔
      snapshot.encode sha256 maximum = .ok encoded ∧ snapshot.validate sha256 manifest = .ok () := by
  simp only [decode, classify_eq_ok, Lib.bind_eq_ok, decodeRecord_eq_ok hint, decodeProof_eq_ok,
    pure, Except.pure, Except.ok.injEq]
  constructor
  · rintro ⟨body, hframe, ⟨read, rest⟩, hfields, proof, ⟨hproof, -⟩, result, hmake, _, hclaimed, _,
      hvalid, rfl⟩
    have hbody := fields_inverts hfields
    have hclaimed := checkSequence_eq_ok.mp hclaimed
    obtain ⟨hdigest, hanchors, hsome, happlication, hbase, hminor⟩ := make_eq_ok hmake
    have hbytes : body = result.bytes sha256 := by
      rw [hbody, bytes, sequenceBytes, hdigest, hanchors, hsome, happlication, hminor, hproof]
      by_cases hone : manifest.formatMinor = 1
      · rw [if_pos hone, if_pos hone, (hclaimed hone).2, hbase]
      · rw [if_neg hone, if_neg hone]
    rw [hbytes, ← hminor] at hframe
    obtain ⟨⟨-, hmax⟩, hencoded⟩ := frame_eq_ok.mp hframe
    refine ⟨encode_eq_ok.mpr ⟨fun hone => ?_, hmax, hencoded⟩, hvalid⟩
    exact (hclaimed (hminor.symm.trans hone)).1
  · rintro ⟨hencode, hvalid⟩
    obtain ⟨hseq, hmax, hencoded⟩ := encode_eq_ok.mp hencode
    obtain ⟨hminor, hproofMinor⟩ := validate_minor hvalid
    have hpos : 0 < (snapshot.bytes sha256).length := by
      rw [length_bytes]
      omega
    rw [hminor]
    refine ⟨snapshot.bytes sha256, frame_eq_ok.mpr ⟨⟨hpos, hmax⟩, hencoded⟩,
      (snapshot.written sha256, []), fields_bytes hmax hint, snapshot.proof,
      ⟨rfl, fun p hp => (hproofMinor p hp).trans hminor⟩, snapshot, make_self, (),
      checkSequence_eq_ok.mpr fun hone => ⟨hseq hone, if_pos hone⟩, (), hvalid, rfl⟩

end

/-- `maximum`. -/
def maximum (bounds : ReplicationBounds) : ℕ := min maxSnapshotBytes bounds.maxSnapshotStagingBytes

theorem maximum_lt (bounds : ReplicationBounds) : maximum bounds < 2 ^ 31 :=
  Nat.lt_of_le_of_lt (Nat.min_le_left _ _) (by decide)

end ReplicaSnapshot

end GeneralSearch.Replica
