import GeneralSearch.Replica.Snapshot

/-! `ReplicaRecoveryImage`: a snapshot and the committed entries behind it. -/

namespace GeneralSearch.Replica

open Decoder (Reads Inverts)

def imageKind : UInt16 := 9

/-- `ReplicaRecoveryImage`. -/
structure ReplicaRecoveryImage where
  snapshot : ReplicaSnapshot
  entries : List ReplicaEntry
  proofs : List ReplicaProof
  deriving DecidableEq

/-- The end of a history: its index, the epoch, incarnation and digest there. -/
structure Position where
  index : Int64
  epoch : Int64
  incarnation : Uuid
  digest : Hash
  deriving DecidableEq

/-- The position of a snapshot's last ancestor, or of the genesis. -/
def ReplicaSnapshot.position (snapshot : ReplicaSnapshot) : Position :=
  match snapshot.anchors.getLast? with
  | none => ⟨.ofNat snapshot.index, 1, noIncarnation, snapshot.manifestDigest⟩
  | some last => ⟨.ofNat snapshot.index, last.epoch, last.incarnation, last.digest⟩

section

variable (sha256 : Bytes → Hash) (manifest : ReplicaManifest) (bounds : ReplicationBounds)

/-- One entry of the tail behind a position. -/
def extend (position : Position) (entry : ReplicaEntry) : Except Failure Position := do
  require (entry.manifestDigest = manifest.digest ∧ entry.formatMinor = manifest.formatMinor ∧
    entry.index = position.index + 1 ∧ entry.previousIndex = position.index ∧
    entry.previousEpoch = position.epoch ∧ entry.previousDigest = position.digest ∧
    position.epoch ≤ entry.epoch ∧
    (position.epoch < entry.epoch ∨ entry.incarnation = position.incarnation)) .conflictingHistory
    "recovery tail is not contiguous"
  let encoded ← entry.encode sha256 bounds.maxFrameBytes
  return ⟨position.index + 1, entry.epoch, entry.incarnation, frameDigest encoded⟩

/-- One proof of the tail: the entries through its index are committed. -/
def advance (entries : List ReplicaEntry) (first last committed : Int64) (proof : ReplicaProof) :
    Except Failure Int64 := do
  require (committed < proof.index ∧ proof.index ≤ last) .conflictingHistory
    "recovery proof order mismatch"
  match entries[(proof.index.toInt - first.toInt - 1).toNat]? with
  | some entry =>
    validateProof sha256 manifest proof entry.index
      (← Anchor.of sha256 entry bounds.maxFrameBytes) entry.previousDigest
    return proof.index
  -- Not reached: the index is one of the tail's.
  | none => throw .arithmetic

namespace ReplicaRecoveryImage

def index (image : ReplicaRecoveryImage) : ℕ := image.snapshot.index + image.entries.length

/-- `validate`. -/
def validate (image : ReplicaRecoveryImage) : Except Failure Unit := do
  image.snapshot.validate sha256 manifest
  require (image.index ≤ maxEntries) .capacityExceeded "recovery ancestry capacity exceeded"
  let first := image.snapshot.position
  let last ← image.entries.foldlM (extend sha256 manifest bounds) first
  let committed ← image.proofs.foldlM
    (advance sha256 manifest bounds image.entries first.index last.index) first.index
  require (committed = last.index) .conflictingHistory "recovery image contains uncommitted suffix"

/-- The blobs of a list behind what stands already. -/
def appendBlobs {α : Type} (encode : α → Except Failure Bytes) (maximum : ℕ) (out : Bytes)
    (values : List α) : Except Failure Bytes :=
  values.foldlM (fun out value => do blob out (← encode value) maximum) out

def encode (image : ReplicaRecoveryImage) : Except Failure Bytes := do
  let maximum := ReplicaSnapshot.maximum bounds
  let mut out ← blob [] (← image.snapshot.encode sha256 maximum) maximum
  out := out ++ writeCount image.entries.length
  out ← appendBlobs (·.encode sha256 bounds.maxFrameBytes) maximum out image.entries
  out := out ++ writeCount image.proofs.length
  out ← appendBlobs (·.encode sha256) maximum out image.proofs
  frame sha256 imageKind out maximum image.snapshot.formatMinor

def readEntry (minor : Minor) : Decoder Failure ReplicaEntry := do
  ReplicaEntry.read sha256 (← readBlob bounds.maxFrameBytes) bounds.maxFrameBytes minor

def readProof (minor : Minor) : Decoder Failure ReplicaProof := do
  ReplicaProof.read sha256 (← readBlob maxMetadataBytes) minor

/-- The parts of an image, in the order of the frame. -/
def fields : Decoder Failure ReplicaRecoveryImage := do
  let minor := manifest.formatMinor
  let maximum := ReplicaSnapshot.maximum bounds
  let snapshot ← ReplicaSnapshot.decode sha256 (← readBlob maximum) manifest maximum
  let count ← readInt
  require (0 ≤ count.toInt ∧ count.toInt ≤ maxEntries ∧
    count.toInt ≤ ((← Decoder.available) / 4 : ℕ)) .capacityExceeded
    "recovery entry count exceeds bound"
  let entries ← Decoder.times (readEntry sha256 bounds minor) count.toInt.toNat
  let count ← readInt
  require (0 ≤ count.toInt ∧ count.toInt ≤ entries.length ∧
    count.toInt ≤ ((← Decoder.available) / 4 : ℕ)) .capacityExceeded
    "recovery proof count exceeds bound"
  let proofs ← Decoder.times (readProof sha256 minor) count.toInt.toNat
  readEnd
  return ⟨snapshot, entries, proofs⟩

def decode (bytes : Bytes) : Except Failure ReplicaRecoveryImage :=
  classify "invalid recovery image" do
    let body ← decodeRecord sha256 bytes imageKind (ReplicaSnapshot.maximum bounds)
      manifest.formatMinor
    let (result, _) ← fields sha256 manifest bounds body
    result.validate sha256 manifest bounds
    return result

end ReplicaRecoveryImage

end

/-! ### What validity gives -/

section

variable {sha256 : Bytes → Hash} {manifest : ReplicaManifest} {bounds : ReplicationBounds}

theorem extend_eq_ok {position position' : Position} {entry : ReplicaEntry}
    (h : extend sha256 manifest bounds position entry = .ok position') :
    entry.formatMinor = manifest.formatMinor ∧ entry.encodedLength ≤ bounds.maxFrameBytes ∧
      position'.index = position.index + 1 := by
  simp only [extend, Lib.bind_eq_ok, require_eq_ok, ReplicaEntry.encode_eq_ok, pure, Except.pure,
    Except.ok.injEq] at h
  obtain ⟨_, ⟨_, hminor, _⟩, _, ⟨hle, _⟩, rfl⟩ := h
  exact ⟨hminor, hle, rfl⟩

/-- A valid tail: every entry is of the format and fits its frame, and the index counts them. -/
theorem foldlM_extend {position last : Position} {entries : List ReplicaEntry}
    (h : entries.foldlM (extend sha256 manifest bounds) position = .ok last) :
    (∀ entry ∈ entries, entry.formatMinor = manifest.formatMinor ∧
      entry.encodedLength ≤ bounds.maxFrameBytes) ∧
      last.index = position.index + .ofNat entries.length := by
  induction entries generalizing position with
  | nil =>
    cases h
    simp
  | cons entry entries ih =>
    rw [List.foldlM_cons, Lib.bind_eq_ok] at h
    obtain ⟨next, hnext, hrest⟩ := h
    obtain ⟨hminor, hle, hindex⟩ := extend_eq_ok hnext
    obtain ⟨hall, hlast⟩ := ih hrest
    refine ⟨fun e he => ?_, ?_⟩
    · rcases List.mem_cons.mp he with rfl | he
      · exact ⟨hminor, hle⟩
      · exact hall e he
    · rw [hlast, hindex, List.length_cons, Int64.add_assoc, Nat.add_comm]
      congr 1
      exact (Int64.ofNat_add 1 entries.length).symm

theorem advance_eq_ok {entries : List ReplicaEntry} {first last committed committed' : Int64}
    {proof : ReplicaProof}
    (h : advance sha256 manifest bounds entries first last committed proof = .ok committed') :
    proof.formatMinor = manifest.formatMinor ∧ committed < committed' ∧ committed' ≤ last := by
  simp only [advance, Lib.bind_eq_ok, require_eq_ok] at h
  obtain ⟨_, ⟨hlow, hhigh⟩, h⟩ := h
  split at h
  · simp only [Lib.bind_eq_ok, validateProof, require_eq_ok, pure, Except.pure, Except.ok.injEq] at h
    obtain ⟨_, _, _, ⟨_, ⟨_, hminor, _⟩, _⟩, rfl⟩ := h
    exact ⟨hminor, hlow, hhigh⟩
  · cases h

/-- Valid proofs: each is of the format, and their number is bounded by the tail. -/
theorem foldlM_advance {entries : List ReplicaEntry} {first last committed committed' : Int64}
    {proofs : List ReplicaProof}
    (h : proofs.foldlM (advance sha256 manifest bounds entries first last) committed =
      .ok committed') :
    (∀ proof ∈ proofs, proof.formatMinor = manifest.formatMinor) ∧
      committed.toInt + proofs.length ≤ committed'.toInt := by
  induction proofs generalizing committed with
  | nil =>
    cases h
    simp
  | cons proof proofs ih =>
    rw [List.foldlM_cons, Lib.bind_eq_ok] at h
    obtain ⟨next, hnext, hrest⟩ := h
    obtain ⟨hminor, hlt, -⟩ := advance_eq_ok hnext
    obtain ⟨hall, hle⟩ := ih hrest
    refine ⟨fun p hp => ?_, ?_⟩
    · rcases List.mem_cons.mp hp with rfl | hp
      · exact hminor
      · exact hall p hp
    · rw [Int64.lt_iff_toInt_lt] at hlt
      rw [List.length_cons]
      omega

namespace ReplicaRecoveryImage

/-- What the validity of an image says about its parts. -/
structure Valid (manifest : ReplicaManifest) (bounds : ReplicationBounds)
    (image : ReplicaRecoveryImage) : Prop where
  minor : manifest.formatMinor = image.snapshot.formatMinor
  entries : ∀ entry ∈ image.entries, entry.formatMinor = manifest.formatMinor ∧
    entry.encodedLength ≤ bounds.maxFrameBytes
  proofs : ∀ proof ∈ image.proofs, proof.formatMinor = manifest.formatMinor
  bounded : image.index ≤ maxEntries
  counted : image.proofs.length ≤ image.entries.length

theorem validate_eq_ok {image : ReplicaRecoveryImage}
    (h : image.validate sha256 manifest bounds = .ok ()) :
    image.snapshot.validate sha256 manifest = .ok () ∧ image.Valid manifest bounds := by
  simp only [validate, Lib.bind_eq_ok, require_eq_ok] at h
  obtain ⟨_, hsnapshot, _, hbound, last, hlast, committed, hcommitted, hend⟩ := h
  obtain ⟨hentries, hindex⟩ := foldlM_extend hlast
  obtain ⟨hproofs, hcount⟩ := foldlM_advance hcommitted
  refine ⟨hsnapshot, (ReplicaSnapshot.validate_minor hsnapshot).1, hentries, hproofs, hbound, ?_⟩
  -- The indices are far from the end of a long, so the last one counts the entries.
  have hfirst : image.snapshot.position.index = .ofNat image.snapshot.index := by
    unfold ReplicaSnapshot.position
    split <;> rfl
  unfold index maxEntries at hbound
  have hsum : last.index.toInt = image.snapshot.index + image.entries.length := by
    rw [hindex, hfirst, ← Int64.ofNat_add]
    exact_mod_cast Int64.toInt_ofNat_of_lt (by omega)
  have hbase : image.snapshot.position.index.toInt = image.snapshot.index := by
    rw [hfirst]
    exact Int64.toInt_ofNat_of_lt (by omega)
  rw [hend] at hcount
  omega

/-! ### The round trip -/

/-- A check before every blob is a check before the last one. -/
theorem appendBlobs_eq_ok {α : Type} {encode : α → Except Failure Bytes} {write : α → Bytes}
    {fits : α → Prop} (hencode : ∀ a bytes, encode a = .ok bytes ↔ fits a ∧ bytes = write a)
    {maximum : ℕ} {out out' : Bytes} {values : List α} :
    appendBlobs encode maximum out values = .ok out' ↔
      (values = [] ∨ (out ++ values.flatMap (blobBytes ∘ write)).length + headerBytes ≤ maximum) ∧
        (∀ a ∈ values, fits a) ∧ out' = out ++ values.flatMap (blobBytes ∘ write) := by
  unfold appendBlobs
  induction values generalizing out with
  | nil =>
    simp only [List.foldlM_nil, pure, Except.pure, Except.ok.injEq, true_or, List.flatMap_nil,
      List.append_nil, List.not_mem_nil, false_implies, implies_true, true_and]
    exact eq_comm
  | cons a values ih =>
    have hcat : ∀ b : Bytes, b ++ (a :: values).flatMap (blobBytes ∘ write) =
        b ++ blobBytes (write a) ++ values.flatMap (blobBytes ∘ write) := by
      intro b
      rw [List.flatMap_cons, List.append_assoc]
      rfl
    rw [List.foldlM_cons, Lib.bind_eq_ok, hcat]
    simp only [Lib.bind_eq_ok, hencode, blob_eq_ok]
    constructor
    · rintro ⟨_, ⟨_, ⟨hfits, rfl⟩, hfirst, rfl⟩, hrest⟩
      obtain ⟨hbound, hall, rfl⟩ := ih.mp hrest
      refine ⟨.inr ?_, by simpa using ⟨hfits, hall⟩, rfl⟩
      rcases hbound with rfl | hbound
      · rw [List.flatMap_nil, List.append_nil, List.length_append, length_blobBytes]
        omega
      · exact hbound
    · rintro ⟨hbound, hall, rfl⟩
      have hbound := hbound.resolve_left (by simp)
      refine ⟨_, ⟨_, ⟨hall a (by simp), rfl⟩, ?_, rfl⟩,
        ih.mpr ⟨.inr hbound, fun b hb => hall b (by simp [hb]), rfl⟩⟩
      rw [List.length_append, List.length_append, length_blobBytes] at hbound
      omega

/-- The bytes of an entry's frame. -/
def entryBytes (sha256 : Bytes → Hash) (entry : ReplicaEntry) : Bytes :=
  framed sha256 entryKind (entry.body sha256) entry.formatMinor

/-- The bytes of a proof's frame. -/
def proofBytes (sha256 : Bytes → Hash) (proof : ReplicaProof) : Bytes :=
  framed sha256 proofKind proof.body proof.formatMinor

/-- The bytes of a snapshot's frame. -/
def snapshotBytes (sha256 : Bytes → Hash) (snapshot : ReplicaSnapshot) : Bytes :=
  framed sha256 snapshotKind (snapshot.bytes sha256) snapshot.formatMinor

/-- The bytes of the body of an image's frame. -/
def bytes (sha256 : Bytes → Hash) (image : ReplicaRecoveryImage) : Bytes :=
  blobBytes (snapshotBytes sha256 image.snapshot) ++ (writeCount image.entries.length ++
    (image.entries.flatMap (blobBytes ∘ entryBytes sha256) ++ (writeCount image.proofs.length ++
      image.proofs.flatMap (blobBytes ∘ proofBytes sha256))))

theorem encode_eq_ok {image : ReplicaRecoveryImage} {encoded : Bytes} :
    image.encode sha256 bounds = .ok encoded ↔
      (image.snapshot.Sequenced ∧
        (∀ entry ∈ image.entries, entry.encodedLength ≤ bounds.maxFrameBytes)) ∧
      (image.bytes sha256).length + headerBytes ≤ ReplicaSnapshot.maximum bounds ∧
      encoded = framed sha256 imageKind (image.bytes sha256) image.snapshot.formatMinor := by
  have hentries : ∀ (entry : ReplicaEntry) bytes,
      entry.encode sha256 bounds.maxFrameBytes = .ok bytes ↔
        entry.encodedLength ≤ bounds.maxFrameBytes ∧ bytes = entryBytes sha256 entry :=
    fun _ _ => ReplicaEntry.encode_eq_ok
  have hproofs : ∀ (proof : ReplicaProof) bytes,
      proof.encode sha256 = .ok bytes ↔ True ∧ bytes = proofBytes sha256 proof := by
    intro proof bytes
    rw [ReplicaProof.encode_eq, Except.ok.injEq, true_and]
    exact eq_comm
  have hbytes : [] ++ blobBytes (snapshotBytes sha256 image.snapshot) ++
      writeCount image.entries.length ++ image.entries.flatMap (blobBytes ∘ entryBytes sha256) ++
      writeCount image.proofs.length ++ image.proofs.flatMap (blobBytes ∘ proofBytes sha256) =
      image.bytes sha256 := by
    simp [bytes]
  simp only [encode, Lib.bind_eq_ok, ReplicaSnapshot.encode_eq_ok, blob_eq_ok,
    appendBlobs_eq_ok hentries, appendBlobs_eq_ok hproofs, frame_eq_ok]
  constructor
  · rintro ⟨_, ⟨hseq, _, rfl⟩, _, ⟨_, rfl⟩, _, ⟨_, hall, rfl⟩, _, ⟨_, _, rfl⟩, ⟨_, hmax⟩, rfl⟩
    exact ⟨⟨hseq, hall⟩, hbytes ▸ hmax, hbytes ▸ rfl⟩
  · rintro ⟨⟨hseq, hall⟩, hmax, rfl⟩
    have hlength := congrArg List.length hbytes
    simp only [List.nil_append, List.length_append, length_blobBytes, length_writeCount,
      snapshotBytes, length_framed] at hlength
    refine ⟨_, ⟨hseq, by omega, rfl⟩, _, ⟨?_, rfl⟩, _, ⟨.inr ?_, hall, rfl⟩, _,
      ⟨.inr ?_, fun _ _ => trivial, rfl⟩, ⟨?_, ?_⟩, ?_⟩
    · simp only [List.length_nil, length_framed]
      omega
    · simp only [List.nil_append, List.length_append, length_blobBytes, length_writeCount,
        length_framed]
      omega
    · simp only [List.nil_append, List.length_append, length_blobBytes, length_writeCount,
        length_framed]
      omega
    · simp only [List.nil_append, List.length_append, length_blobBytes, length_writeCount,
        length_framed]
      omega
    · exact hbytes ▸ hmax
    · exact hbytes ▸ rfl

theorem readEntry_reads {entry : ReplicaEntry}
    (hle : entry.encodedLength ≤ bounds.maxFrameBytes) :
    Reads (readEntry sha256 bounds entry.formatMinor) (blobBytes (entryBytes sha256 entry))
      entry := by
  intro rest
  have hencode : entry.encode sha256 bounds.maxFrameBytes = .ok (entryBytes sha256 entry) :=
    ReplicaEntry.encode_eq_ok.mpr ⟨hle, rfl⟩
  have hblob : Reads (readBlob bounds.maxFrameBytes) (blobBytes (entryBytes sha256 entry))
      (entryBytes sha256 entry) :=
    readBlob_reads (ReplicaEntry.length_encode hencode ▸ hle) bounds.frame_lt
  rw [readEntry, hblob.bind, Decoder.lift_eq_ok]
  exact ⟨entry, (ReplicaEntry.read_eq_ok bounds.frame_lt).mpr ⟨hencode, rfl⟩, rfl⟩

theorem readEntry_inverts {minor : Minor} :
    Inverts (readEntry sha256 bounds minor) (blobBytes ∘ entryBytes sha256) := by
  intro bytes entry rest h
  simp only [readEntry, Decoder.bind_eq_ok, Decoder.lift_eq_ok, Prod.mk.injEq] at h
  obtain ⟨encoded, _, hblob, _, hread, rfl, rfl⟩ := h
  obtain ⟨hencode, -⟩ := (ReplicaEntry.read_eq_ok bounds.frame_lt).mp hread
  rw [readBlob_inverts _ _ _ hblob, (ReplicaEntry.encode_eq_ok.mp hencode).2]
  rfl

theorem readProof_reads (proof : ReplicaProof) :
    Reads (readProof sha256 proof.formatMinor) (blobBytes (proofBytes sha256 proof)) proof := by
  intro rest
  have hle := @ReplicaProof.length_body_le proof
  have hblob : Reads (readBlob maxMetadataBytes) (blobBytes (proofBytes sha256 proof))
      (proofBytes sha256 proof) := by
    refine readBlob_reads ?_ (by decide)
    rw [proofBytes, length_framed, headerBytes, maxMetadataBytes]
    omega
  rw [readProof, hblob.bind, Decoder.lift_eq_ok]
  exact ⟨proof, ReplicaProof.read_eq_ok.mpr ⟨ReplicaProof.encode_eq, rfl⟩, rfl⟩

theorem readProof_inverts {minor : Minor} :
    Inverts (readProof sha256 minor) (blobBytes ∘ proofBytes sha256) := by
  intro bytes proof rest h
  simp only [readProof, Decoder.bind_eq_ok, Decoder.lift_eq_ok, Prod.mk.injEq] at h
  obtain ⟨encoded, _, hblob, _, hread, rfl, rfl⟩ := h
  obtain ⟨hencode, -⟩ := ReplicaProof.read_eq_ok.mp hread
  rw [ReplicaProof.encode_eq, Except.ok.injEq] at hencode
  rw [readBlob_inverts _ _ _ hblob, ← hencode]
  rfl

theorem length_flatMap_blobBytes {α : Type} (write : α → Bytes) (values : List α) :
    values.length * 4 ≤ (values.flatMap (blobBytes ∘ write)).length := by
  induction values with
  | nil => exact Nat.le_refl _
  | cons a values ih =>
    rw [List.flatMap_cons, List.length_append, List.length_cons, Function.comp_apply,
      length_blobBytes]
    omega

theorem fields_bytes {image : ReplicaRecoveryImage} {encoded : Bytes}
    (hencode : image.encode sha256 bounds = .ok encoded)
    (hsnapshot : image.snapshot.validate sha256 manifest = .ok ())
    (hvalid : image.Valid manifest bounds) :
    fields sha256 manifest bounds (image.bytes sha256) = .ok (image, []) := by
  obtain ⟨⟨hseq, -⟩, hmax, -⟩ := encode_eq_ok.mp hencode
  have hint := ReplicaSnapshot.maximum_lt bounds
  have hbounded := hvalid.bounded
  have hcounted := hvalid.counted
  unfold index at hbounded
  have hlength : (image.bytes sha256).length = 4 + (snapshotBytes sha256 image.snapshot).length + 4 +
      (image.entries.flatMap (blobBytes ∘ entryBytes sha256)).length + 4 +
      (image.proofs.flatMap (blobBytes ∘ proofBytes sha256)).length := by
    simp only [bytes, List.length_append, length_blobBytes, length_writeCount]
    omega
  have hsnapshotEncode : image.snapshot.encode sha256 (ReplicaSnapshot.maximum bounds) =
      .ok (snapshotBytes sha256 image.snapshot) := by
    refine ReplicaSnapshot.encode_eq_ok.mpr ⟨hseq, ?_, rfl⟩
    rw [snapshotBytes, length_framed] at hlength
    omega
  have hblob : Reads (readBlob (ReplicaSnapshot.maximum bounds))
      (blobBytes (snapshotBytes sha256 image.snapshot)) (snapshotBytes sha256 image.snapshot) :=
    readBlob_reads (by omega) hint
  have hdecode := (ReplicaSnapshot.decode_eq_ok hint).mpr ⟨hsnapshotEncode, hsnapshot⟩
  have hentries : Reads
      (Decoder.times (readEntry sha256 bounds manifest.formatMinor) image.entries.length)
      (image.entries.flatMap (blobBytes ∘ entryBytes sha256)) image.entries :=
    Decoder.times_reads fun entry hentry => by
      obtain ⟨hminor, hle⟩ := hvalid.entries entry hentry
      exact hminor ▸ readEntry_reads hle
  have hproofs : Reads (Decoder.times (readProof sha256 manifest.formatMinor) image.proofs.length)
      (image.proofs.flatMap (blobBytes ∘ proofBytes sha256)) image.proofs :=
    Decoder.times_reads fun proof hproof => hvalid.proofs proof hproof ▸ readProof_reads proof
  have hentryCount : (Int32.ofNat image.entries.length).toInt = image.entries.length :=
    toInt_ofNat (by unfold maxEntries at hbounded; omega)
  have hproofCount : (Int32.ofNat image.proofs.length).toInt = image.proofs.length :=
    toInt_ofNat (by unfold maxEntries at hbounded; omega)
  have hentryRoom : ∀ rest : Bytes, (image.entries.length : ℤ) ≤
      ((image.entries.flatMap (blobBytes ∘ entryBytes sha256) ++ rest).length / 4 : ℕ) := by
    intro rest
    have := length_flatMap_blobBytes (entryBytes sha256) image.entries
    rw [List.length_append]
    omega
  have hproofRoom : (image.proofs.length : ℤ) ≤
      ((image.proofs.flatMap (blobBytes ∘ proofBytes sha256)).length / 4 : ℕ) := by
    have := length_flatMap_blobBytes (proofBytes sha256) image.proofs
    omega
  unfold fields bytes
  rw [hblob.bind, Decoder.bind_of_ok (Decoder.lift_eq_ok.mpr ⟨_, hdecode, rfl⟩), writeCount,
    readInt_bind, available_bind, hentryCount, require_bind ⟨by omega, by omega, hentryRoom _⟩,
    Int.toNat_natCast, hentries.bind, writeCount, readInt_bind, available_bind, hproofCount,
    require_bind ⟨by omega, by omega, hproofRoom⟩, Int.toNat_natCast,
    Decoder.bind_of_ok hproofs.all, Decoder.bind_of_ok (readEnd_eq_ok.mpr ⟨rfl, rfl⟩)]
  rfl

theorem fields_inverts {image : ReplicaRecoveryImage} {body rest : Bytes}
    (h : fields sha256 manifest bounds body = .ok (image, rest)) :
    body = image.bytes sha256 ∧ image.snapshot.Sequenced := by
  have hint := ReplicaSnapshot.maximum_lt bounds
  simp only [fields, Decoder.bind_eq_ok, require_run_eq_ok, readEnd_eq_ok, Decoder.pure_eq_ok,
    Decoder.available_eq, Decoder.lift_eq_ok, Except.ok.injEq, Prod.mk.injEq] at h
  obtain ⟨encoded, _, hblob, snapshot, _, ⟨_, hsnapshot, rfl, rfl⟩, count, _, hcount, _, _,
    ⟨rfl, rfl⟩, _, _, ⟨⟨hpos, _⟩, -, rfl⟩, entries, _, hentries, count', _, hcount', _, _,
    ⟨rfl, rfl⟩, _, _, ⟨⟨hpos', _⟩, -, rfl⟩, proofs, _, hproofs, _, _, ⟨rfl, -, rfl⟩, rfl, rfl⟩ := h
  obtain ⟨hencode, -⟩ := (ReplicaSnapshot.decode_eq_ok hint).mp hsnapshot
  obtain ⟨hseq, -, hencoded⟩ := ReplicaSnapshot.encode_eq_ok.mp hencode
  obtain ⟨hlength, hentries⟩ := Decoder.times_inverts readEntry_inverts hentries
  obtain ⟨hlength', hproofs⟩ := Decoder.times_inverts readProof_inverts hproofs
  have hofNat : Int32.ofNat entries.length = count := ofNat_toNat (by omega)
  have hofNat' : Int32.ofNat proofs.length = count' := ofNat_toNat (by omega)
  refine ⟨?_, hseq⟩
  rw [readBlob_inverts _ _ _ hblob, hencoded, readInt_inverts _ _ _ hcount, hentries,
    readInt_inverts _ _ _ hcount', hproofs, ← hofNat, ← hofNat', List.append_nil]
  rfl

/-- Decoding inverts encoding, for the images that are valid for the manifest and the bounds. -/
theorem decode_eq_ok {image : ReplicaRecoveryImage} {encoded : Bytes} :
    decode sha256 manifest bounds encoded = .ok image ↔
      image.encode sha256 bounds = .ok encoded ∧
        image.validate sha256 manifest bounds = .ok () := by
  have hint := ReplicaSnapshot.maximum_lt bounds
  simp only [decode, classify_eq_ok, Lib.bind_eq_ok, decodeRecord_eq_ok hint, pure, Except.pure,
    Except.ok.injEq]
  constructor
  · rintro ⟨body, hframe, ⟨result, rest⟩, hfields, _, hvalidate, rfl⟩
    obtain ⟨hbody, hseq⟩ := fields_inverts hfields
    obtain ⟨-, hvalid⟩ := validate_eq_ok hvalidate
    rw [hbody, hvalid.minor] at hframe
    obtain ⟨⟨-, hmax⟩, hencoded⟩ := frame_eq_ok.mp hframe
    exact ⟨encode_eq_ok.mpr ⟨⟨hseq, fun entry hentry => (hvalid.entries entry hentry).2⟩, hmax,
      hencoded⟩, hvalidate⟩
  · rintro ⟨hencode, hvalidate⟩
    obtain ⟨hsnapshot, hvalid⟩ := validate_eq_ok hvalidate
    obtain ⟨-, hmax, hencoded⟩ := encode_eq_ok.mp hencode
    have hpos : 0 < (image.bytes sha256).length := by
      simp only [bytes, List.length_append, length_writeCount]
      omega
    refine ⟨image.bytes sha256, frame_eq_ok.mpr ⟨⟨hpos, hmax⟩, ?_⟩, (image, []),
      fields_bytes hencode hsnapshot hvalid, (), hvalidate, rfl⟩
    rw [hencoded, hvalid.minor]

end ReplicaRecoveryImage

end

end GeneralSearch.Replica
