import GeneralSearch.Replica.Install
import GeneralSearch.Replica.Wire

/-! The records of a replica and the frames between replicas have one form: what is written is read
back, and what is read is written the same. -/

namespace GeneralSearch.Replica

open GeneralSearch.Utf8 (JavaString)

/-- A message: a `Map` has no two entries of one key. -/
structure WireMessage where
  entries : WireMap
  distinct : Json.Distinct (.map entries)

/-- Records and frames are canonical, and `install` writes what it has computed. -/
theorem records_and_frames_canonical (sha256 : Bytes → Hash) (bounds : ReplicationBounds) :
    (∀ (entry : ReplicaEntry) (bytes : Bytes) (minor : Minor),
      (ReplicaEntry.read sha256 bytes bounds.maxFrameBytes minor = .ok entry ↔
        entry.encode sha256 bounds.maxFrameBytes = .ok bytes ∧ entry.formatMinor = minor) ∧
      (entry.encode sha256 bounds.maxFrameBytes = .ok bytes →
        bytes.length = entry.payload.length + 197)) ∧
    (∀ (proof : ReplicaProof) (bytes : Bytes) (minor : Minor),
      ReplicaProof.read sha256 bytes minor = .ok proof ↔
        proof.encode sha256 = .ok bytes ∧ proof.formatMinor = minor) ∧
    (∀ (manifest : ReplicaManifest) (snapshot : ReplicaSnapshot) (bytes : Bytes),
      ReplicaSnapshot.decode sha256 bytes manifest (ReplicaSnapshot.maximum bounds) =
          .ok snapshot ↔
        snapshot.encode sha256 (ReplicaSnapshot.maximum bounds) = .ok bytes ∧
          snapshot.validate sha256 manifest = .ok ()) ∧
    (∀ (manifest : ReplicaManifest) (image : ReplicaRecoveryImage) (bytes : Bytes),
      ReplicaRecoveryImage.decode sha256 manifest bounds bytes = .ok image ↔
        image.encode sha256 bounds = .ok bytes ∧
          image.validate sha256 manifest bounds = .ok ()) ∧
    (∀ (message : WireMessage) (frame : Bytes),
      Wire.encode sha256 message.entries bounds.maxFrameBytes = .ok frame →
        Wire.decode sha256 frame bounds.maxFrameBytes = .ok (Wire.canonical message.entries)) ∧
    (∀ (message : WireMap) (frame : Bytes),
      Wire.decode sha256 frame bounds.maxFrameBytes = .ok message →
        Wire.encode sha256 message bounds.maxFrameBytes = .ok frame) ∧
    (∀ (manifest : ReplicaManifest) (node : ReplicationNodeId) (root root' : Root)
      (image : ReplicaRecoveryImage) (reservation : Generation.Reservation) (generation : Uuid)
      (admitted : Bool),
      Generation.reserve sha256 manifest node bounds root image = .ok reservation →
      Generation.clear sha256 manifest node root reservation = .ok root' →
      ∃ root'' directory, Generation.stage sha256 manifest node bounds root' image reservation
          generation admitted = .ok (⟨some reservation.slot, some image.snapshot, admitted,
            generation.toNat / 2 ^ 64 % 2 ^ 63⟩, root'') ∧
        root''.directories.lookup reservation.slot = some directory ∧
        directory.total = reservation.staged) := by
  have hframe := bounds.frame_lt
  refine ⟨fun entry bytes minor => ⟨ReplicaEntry.read_eq_ok hframe, fun h => ?_⟩,
    fun proof bytes minor => ReplicaProof.read_eq_ok,
    fun manifest snapshot bytes => ReplicaSnapshot.decode_eq_ok (ReplicaSnapshot.maximum_lt bounds),
    fun manifest image bytes => ReplicaRecoveryImage.decode_eq_ok,
    fun message frame h => Wire.decode_of_encode hframe message.distinct h,
    fun message frame h => Wire.encode_of_decode h, ?_⟩
  · rw [ReplicaEntry.length_encode h]
    rfl
  · intro manifest node root root' image reservation generation admitted hreserve hclear
    exact Generation.stage_of_reserve generation admitted hreserve hclear

/-! ### A group of three -/

/-- `ReplicationBounds.defaults`. -/
def ReplicationBounds.defaults : ReplicationBounds where
  maxFrameBytes := 8 * 1024 * 1024
  maxRetainedLogBytes := 8 * 1024 * 1024 * 1024
  maxSnapshotStagingBytes := 16 * 1024 * 1024 * 1024
  frame := by decide
  retained := by decide
  staging := by decide

def nodeA : ReplicationNodeId := ⟨Utf8.ofString "a", by decide⟩
def nodeB : ReplicationNodeId := ⟨Utf8.ofString "b", by decide⟩
def nodeC : ReplicationNodeId := ⟨Utf8.ofString "c", by decide⟩

def group : ReplicaManifest where
  members := [nodeA, nodeB, nodeC]
  genesisDigest := none
  baseSequence := 0
  digest := 0
  three := rfl
  distinct := by decide

/-- The genesis of the group, as a recovery image. -/
def genesisImage : ReplicaRecoveryImage where
  snapshot := ⟨0, [], none, [], 0, 0, by decide, by decide, rfl, rfl⟩
  entries := []
  proofs := []

/-- The directory of a voter that has not installed a generation. -/
def emptyRoot : Root where
  files := (Generation.metadataFiles 0).foldl (fun files name => files.insert name []) ∅
  directories := ∅

/-- A handshake, with its epoch as an `Integer`. -/
def handshake : WireMessage where
  entries :=
    let uuid := Json.string (Utf8.ofString "00000000-0000-0000-0000-000000000000")
    [(Utf8.ofString "protocol", .string Wire.protocol), (Utf8.ofString "groupId", uuid),
      (Utf8.ofString "configurationId", .string (Utf8.ofString "c")),
      (Utf8.ofString "sender", .string nodeA.value),
      (Utf8.ofString "recipient", .string nodeB.value), (Utf8.ofString "epoch", .integer 0),
      (Utf8.ofString "incarnationId", uuid), (Utf8.ofString "traceId", uuid),
      (Utf8.ofString "eventSequence", .long 0),
      (Utf8.ofString "type", .string (Utf8.ofString "HANDSHAKE")),
      (Utf8.ofString "payload", .map [])]
  distinct := by
    simp only [Json.Distinct, Json.DistinctMembers]
    decide

theorem exists_of_isOk {α : Type} {x : Except Failure α} (h : x.isOk = true) : ∃ a, x = .ok a := by
  cases x with
  | ok a => exact ⟨a, rfl⟩
  | error e => cases h

/-- The handshake passes, and the genesis is installed. -/
theorem records_and_frames_canonical_group :
    (∃ frame, Wire.encode (fun _ => 0) handshake.entries ReplicationBounds.defaults.maxFrameBytes =
        .ok frame ∧
      Wire.decode (fun _ => 0) frame ReplicationBounds.defaults.maxFrameBytes =
        .ok (Wire.canonical handshake.entries)) ∧
    ∃ selected root, Generation.install (fun _ => 0) group nodeA ReplicationBounds.defaults emptyRoot
        genesisImage 0 true = .ok (selected, root) ∧
      selected.snapshot = some genesisImage.snapshot := by
  obtain ⟨-, -, -, -, hwire, -, hinstall⟩ :=
    records_and_frames_canonical (fun _ => 0) ReplicationBounds.defaults
  constructor
  · obtain ⟨frame, hframe⟩ := exists_of_isOk (x := Wire.encode (fun _ => 0) handshake.entries
      ReplicationBounds.defaults.maxFrameBytes) (by decide +kernel)
    exact ⟨frame, hframe, hwire handshake frame hframe⟩
  · obtain ⟨reservation, hreserve⟩ := exists_of_isOk (x := Generation.reserve (fun _ => 0) group nodeA
      ReplicationBounds.defaults emptyRoot genesisImage) (by decide +kernel)
    have hclear : Generation.clear (fun _ => 0) group nodeA emptyRoot reservation =
        .ok emptyRoot := by
      have hfree : reservation.slot ∉ emptyRoot.directories := AList.notMem_empty _
      rw [Generation.clear, if_neg hfree]
      rfl
    obtain ⟨root, _, hstage, -⟩ :=
      hinstall group nodeA emptyRoot emptyRoot genesisImage reservation 0 true hreserve hclear
    exact ⟨_, root, Lib.bind_eq_ok.mpr ⟨_, hreserve, Lib.bind_eq_ok.mpr ⟨_, hclear, hstage⟩⟩, rfl⟩

/-! ### What is written but not read -/

/-- A proof of the second entry. -/
def secondProof : ReplicaProof :=
  ⟨0, 2, 1, 2, 0, 0, [⟨nodeA, 0⟩, ⟨nodeB, 0⟩], 0, by decide, by decide⟩

/-- A snapshot of one entry whose proof is of the second. -/
def misplacedProof : ReplicaSnapshot where
  manifestDigest := 0
  anchors := [⟨2, 1, .noOp, 0, 0, by decide⟩]
  proof := some secondProof
  application := []
  baseSequence := 0
  formatMinor := 0
  based := by decide
  bounded := by decide
  proved := rfl
  ancestral := by decide

/-- `encode` takes a snapshot that `decode` gives back under no manifest; and an `Integer` of a
message comes back as a `Long`. -/
theorem records_and_frames_not_canonical :
    (∀ sha256 : Bytes → Hash, ∃ bytes,
      misplacedProof.encode sha256 (ReplicaSnapshot.maximum ReplicationBounds.defaults) =
        .ok bytes ∧
      ∀ manifest, ReplicaSnapshot.decode sha256 bytes manifest
        (ReplicaSnapshot.maximum ReplicationBounds.defaults) ≠ .ok misplacedProof) ∧
    ∃ frame message, Wire.encode (fun _ => 0) handshake.entries
        ReplicationBounds.defaults.maxFrameBytes = .ok frame ∧
      Wire.decode (fun _ => 0) frame ReplicationBounds.defaults.maxFrameBytes = .ok message ∧
      Wire.get message (Utf8.ofString "epoch") = some (.long 0) ∧
      Wire.get handshake.entries (Utf8.ofString "epoch") = some (.integer 0) := by
  constructor
  · intro sha256
    refine ⟨_, ReplicaSnapshot.encode_eq_ok.mpr ⟨fun h => ?_, ?_, rfl⟩, ?_⟩
    · cases h
    · have hproof := secondProof.length_body_le
      have hframe : (ReplicaSnapshot.proofBytes sha256 misplacedProof.proof).length =
          48 + secondProof.body.length := length_framed
      have hanchors : misplacedProof.anchors.length = 1 := rfl
      have hsequence : misplacedProof.sequenceBytes.length = 0 := rfl
      have happlication : misplacedProof.application.length = 0 := rfl
      have hmaximum : ReplicaSnapshot.maximum ReplicationBounds.defaults = 64 * 1024 * 1024 := rfl
      rw [ReplicaSnapshot.length_bytes, hanchors, hframe, hsequence, happlication, hmaximum]
      unfold headerBytes
      omega
    · intro manifest h
      obtain ⟨-, hvalid⟩ :=
        (ReplicaSnapshot.decode_eq_ok (ReplicaSnapshot.maximum_lt _)).mp h
      have hindex : secondProof.index = .ofNat misplacedProof.index := by
        simp only [ReplicaSnapshot.validate, Lib.bind_eq_ok, require_eq_ok] at hvalid
        obtain ⟨_, -, hproof⟩ := hvalid
        obtain ⟨_, hsame, -⟩ := Lib.bind_eq_ok.mp hproof
        exact (require_eq_ok.mp hsame).2.2.1
      exact absurd hindex (by decide)
  · obtain ⟨frame, hframe⟩ := exists_of_isOk (x := Wire.encode (fun _ => 0) handshake.entries
      ReplicationBounds.defaults.maxFrameBytes) (by decide +kernel)
    have hkeys : (handshake.entries.map Prod.fst).Nodup := by decide
    have hepoch : Wire.get handshake.entries (Utf8.ofString "epoch") = some (.integer 0) := rfl
    refine ⟨frame, _, hframe, Wire.decode_of_encode (by decide) handshake.distinct hframe, ?_,
      hepoch⟩
    rw [Wire.get_canonical hkeys, hepoch, Option.map_some, Json.canonical]
    rfl

end GeneralSearch.Replica
