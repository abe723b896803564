import GeneralSearch.Replica.Generation

/-! The sizes of `install`: what it computes before it writes is what it writes, so once its first
checks have passed, the rest of it succeeds. -/

namespace GeneralSearch.Replica

open GeneralSearch.Utf8 (JavaString)
open Decoder (Reads Inverts)

/-! ### Bytes of directories -/

section

variable {β : Type} (size : β → ℕ)

theorem sum_insert {directory : AList fun _ : JavaString => β} {name : JavaString} {b : β}
    (h : name ∉ directory) : ((directory.insert name b).entries.map fun entry => size entry.2).sum =
      size b + (directory.entries.map fun entry => size entry.2).sum := by
  rw [AList.entries_insert_of_notMem h, List.map_cons, List.sum_cons]

theorem sum_erase (directory : AList fun _ : JavaString => β) (name : JavaString) :
    ((directory.erase name).entries.map fun entry => size entry.2).sum +
      ((directory.lookup name).map size).getD 0 =
        (directory.entries.map fun entry => size entry.2).sum := by
  obtain ⟨entries, hdistinct⟩ := directory
  show ((entries.kerase name).map fun entry => size entry.2).sum +
    ((entries.dlookup name).map size).getD 0 = (entries.map fun entry => size entry.2).sum
  clear hdistinct
  induction entries with
  | nil => rfl
  | cons entry entries ih =>
    by_cases hname : name = entry.1
    · subst hname
      rw [List.kerase_cons_eq rfl, List.dlookup_cons_eq, List.map_cons, List.sum_cons]
      exact Nat.add_comm _ _
    · rw [List.kerase_cons_ne hname, List.dlookup_cons_ne _ _ hname, List.map_cons, List.map_cons,
        List.sum_cons, List.sum_cons, Nat.add_assoc, ih]

end

namespace Generation

section

variable {sha256 : Bytes → Hash} {manifest : ReplicaManifest} {node : ReplicationNodeId}
  {bounds : ReplicationBounds}

/-! ### Records -/

theorem length_identityBytes : (identityBytes manifest node).length = 36 + node.value.length := by
  rw [identityBytes, List.length_append, length_writeHash, length_text, node.length_getBytes]
  omega

/-- A record that is shorter than metadata may be. -/
theorem frame_metadata {kind : UInt16} {body : Bytes} {minor : Minor}
    (h : 0 < body.length ∧ body.length ≤ 400) :
    frame sha256 kind body maxMetadataBytes minor = .ok (framed sha256 kind body minor) :=
  frame_eq_ok.mpr ⟨⟨h.1, by unfold headerBytes maxMetadataBytes; omega⟩, rfl⟩

/-- The bytes of a journal's header. -/
def headerOf (sha256 : Bytes → Hash) (manifest : ReplicaManifest) (node : ReplicationNodeId)
    (kind : UInt16) : Bytes :=
  framed sha256 journalKind (identityBytes manifest node ++ writeShort kind) manifest.formatMinor

theorem journalHeader_eq (kind : UInt16) :
    journalHeader sha256 manifest node kind = .ok (headerOf sha256 manifest node kind) := by
  have hnode := node.length_le
  refine frame_metadata ?_
  rw [List.length_append, length_identityBytes, length_writeShort]
  omega

variable (manifest node) in
theorem readIdentity_reads (message : String) :
    Reads (readIdentity manifest node message) (identityBytes manifest node) () := by
  intro rest
  obtain ⟨hascii, hpos, hle⟩ := identity_ascii node.valid
  have hlength := node.length_getBytes
  have htext : Reads (readText 64) (text node.value) node.value :=
    readText_reads (Utf8.wellFormed_ascii hascii) (by omega) (by omega) (by decide)
  rw [readIdentity, identityBytes, List.append_assoc, readHash_bind, require_bind rfl, htext.bind]
  exact require_run_eq_ok.mpr ⟨rfl, rfl⟩

/-! ### Journals -/

/-- A journal whose rows fit is written as they stand. -/
theorem writeJournal_eq {α : Type} {encode : α → Except Failure Bytes} {write : α → Bytes}
    {maximum : ℕ} {rows : List α} : ∀ {file : Bytes},
    (∀ row ∈ rows, encode row = .ok (write row)) →
    file.length + (rows.map fun row => (write row).length).sum ≤ maximum →
    writeJournal encode maximum file rows = .ok (file ++ rows.flatMap write) := by
  induction rows with
  | nil =>
    intro file _ _
    rw [List.flatMap_nil, List.append_nil]
    rfl
  | cons row rows ih =>
    intro file hencode hmax
    obtain ⟨hrow, hrest⟩ := List.forall_mem_cons.mp hencode
    rw [List.map_cons, List.sum_cons] at hmax
    rw [writeJournal, List.foldlM_cons, hrow, List.flatMap_cons, ← List.append_assoc]
    refine Lib.bind_eq_ok.mpr ⟨file ++ write row, ?_, ih hrest ?_⟩
    · exact Lib.bind_eq_ok.mpr ⟨_, rfl, Lib.bind_eq_ok.mpr ⟨(), require_eq_ok.mpr (by omega), rfl⟩⟩
    · rw [List.length_append]
      omega

/-- The bytes of the rows of the image's journals. -/
def rowBytes (sha256 : Bytes → Hash) (image : ReplicaRecoveryImage) : ℕ :=
  (image.entries.map fun entry => entry.encodedLength).sum +
    (image.proofs.map fun proof => (ReplicaRecoveryImage.proofBytes sha256 proof).length).sum

/-- What `install` computes before it writes. -/
theorem stagedBytes_eq (snapshot : Bytes) (image : ReplicaRecoveryImage) :
    stagedBytes sha256 manifest node snapshot image =
      .ok (snapshot.length + (headerOf sha256 manifest node entryKind).length +
        (headerOf sha256 manifest node proofKind).length + 196 + node.value.length +
          rowBytes sha256 image) := by
  have hentries : ∀ (entries : List ReplicaEntry) (n : ℕ),
      entries.foldl (fun staged entry => staged + entry.encodedLength) n =
        n + (entries.map fun entry => entry.encodedLength).sum := by
    intro entries
    induction entries with
    | nil => exact fun _ => rfl
    | cons entry entries ih =>
      intro n
      rw [List.foldl_cons, ih, List.map_cons, List.sum_cons, Nat.add_assoc]
  have hproofs : ∀ (proofs : List ReplicaProof) (n : ℕ),
      proofs.foldlM (fun staged proof => do return staged + (← proof.encode sha256).length) n =
        Except.ok (n + (proofs.map fun proof =>
          (ReplicaRecoveryImage.proofBytes sha256 proof).length).sum) := by
    intro proofs
    induction proofs with
    | nil => exact fun _ => rfl
    | cons proof proofs ih =>
      intro n
      rw [List.foldlM_cons, List.map_cons, List.sum_cons, ← Nat.add_assoc]
      exact Lib.bind_eq_ok.mpr ⟨_, Lib.bind_eq_ok.mpr ⟨_, ReplicaProof.encode_eq, rfl⟩, ih _⟩
  refine Lib.bind_eq_ok.mpr ⟨_, journalHeader_eq _, Lib.bind_eq_ok.mpr ⟨_, journalHeader_eq _, ?_⟩⟩
  refine (hproofs image.proofs _).trans ?_
  rw [hentries, node.length_getBytes, rowBytes, Nat.add_assoc _ (List.sum _)]

/-! ### The new generation -/

/-- A generation's four members. -/
def generationDirectory (snapshot entries proofs sealBytes : Bytes) : Directory :=
  (((AList.insert snapshotFile snapshot ∅).insert entryFile entries).insert proofFile
    proofs).insert sealFile sealBytes

section

variable {snapshot entries proofs sealBytes : Bytes}

theorem total_generationDirectory : (generationDirectory snapshot entries proofs sealBytes).total =
    sealBytes.length + (proofs.length + (entries.length + snapshot.length)) := by
  have hentry : entryFile ∉ AList.insert snapshotFile snapshot (∅ : Directory) := by
    rw [AList.mem_insert]
    exact not_or_intro (by decide) (AList.notMem_empty _)
  have hproof : proofFile ∉ (AList.insert snapshotFile snapshot (∅ : Directory)).insert entryFile
      entries := by
    rw [AList.mem_insert, AList.mem_insert]
    exact not_or_intro (by decide) (not_or_intro (by decide) (AList.notMem_empty _))
  have hseal : sealFile ∉ ((AList.insert snapshotFile snapshot (∅ : Directory)).insert entryFile
      entries).insert proofFile proofs := by
    rw [AList.mem_insert, AList.mem_insert, AList.mem_insert]
    exact not_or_intro (by decide) (not_or_intro (by decide) (not_or_intro (by decide)
      (AList.notMem_empty _)))
  rw [Directory.total, generationDirectory, sum_insert _ hseal, sum_insert _ hproof,
    sum_insert _ hentry, sum_insert _ (AList.notMem_empty _)]
  rfl

theorem lookup_generationDirectory :
    (generationDirectory snapshot entries proofs sealBytes).lookup snapshotFile = some snapshot ∧
    (generationDirectory snapshot entries proofs sealBytes).lookup entryFile = some entries ∧
    (generationDirectory snapshot entries proofs sealBytes).lookup proofFile = some proofs ∧
    (generationDirectory snapshot entries proofs sealBytes).lookup sealFile = some sealBytes := by
  unfold generationDirectory
  refine ⟨?_, ?_, ?_, AList.lookup_insert _⟩
  · rw [AList.lookup_insert_ne (by decide), AList.lookup_insert_ne (by decide),
      AList.lookup_insert_ne (by decide), AList.lookup_insert]
  · rw [AList.lookup_insert_ne (by decide), AList.lookup_insert_ne (by decide),
      AList.lookup_insert]
  · rw [AList.lookup_insert_ne (by decide), AList.lookup_insert]

theorem inventorySlot_generationDirectory (complete : Bool) :
    inventorySlot (some (generationDirectory snapshot entries proofs sealBytes)) complete =
      .ok (generationDirectory snapshot entries proofs sealBytes) := by
  have hkeys : ∀ name, name ∈ (generationDirectory snapshot entries proofs sealBytes).keys ↔
      name ∈ members := by
    intro name
    rw [← AList.mem_keys]
    simp only [generationDirectory, AList.mem_insert, members, List.mem_cons, List.not_mem_nil]
    have := AList.notMem_empty (β := fun _ : JavaString => Bytes) name
    tauto
  refine Lib.bind_eq_ok.mpr ⟨(), require_eq_ok.mpr fun name hname => (hkeys name).mp hname,
    Lib.bind_eq_ok.mpr ⟨(), require_eq_ok.mpr fun _ name hname => (hkeys name).mpr hname, rfl⟩⟩

end

/-- A file that is created in a slot. -/
theorem create_insert {files : Directory} {directories : AList fun _ : JavaString => Directory}
    {directory : Directory} {slot name : JavaString} {bytes : Bytes} (h : name ∉ directory) :
    create ⟨files, directories.insert slot directory⟩ slot name bytes =
      .ok ⟨files, directories.insert slot (directory.insert name bytes)⟩ := by
  have hlookup := AList.lookup_insert (b := directory) directories (a := slot)
  simp only [create, hlookup, if_neg h, AList.insert_insert]
  rfl

/-- The fields of a generation's seal. -/
def sealFields (sha256 : Bytes → Hash) (manifest : ReplicaManifest) (node : ReplicationNodeId)
    (generation : Uuid) (snapshot : Bytes) : Bytes :=
  identityBytes manifest node ++ (writeUuid generation ++ (writeHash (frameDigest snapshot) ++
    (writeHash (frameDigest (headerOf sha256 manifest node entryKind)) ++
      writeHash (frameDigest (headerOf sha256 manifest node proofKind)))))

/-- The seal of a generation. -/
def sealOf (sha256 : Bytes → Hash) (manifest : ReplicaManifest) (node : ReplicationNodeId)
    (generation : Uuid) (snapshot : Bytes) : Bytes :=
  framed sha256 sealKind (sealFields sha256 manifest node generation snapshot)
    manifest.formatMinor

theorem length_sealFields (generation : Uuid) (snapshot : Bytes) :
    (sealFields sha256 manifest node generation snapshot).length = 148 + node.value.length := by
  simp only [sealFields, List.length_append, length_identityBytes, length_writeUuid,
    length_writeHash]
  omega

theorem length_sealOf (generation : Uuid) (snapshot : Bytes) :
    (sealOf sha256 manifest node generation snapshot).length = 196 + node.value.length := by
  rw [sealOf, length_framed, length_sealFields, headerBytes]
  omega

/-- The generation that `install` writes of an image. -/
def written (sha256 : Bytes → Hash) (manifest : ReplicaManifest) (node : ReplicationNodeId)
    (image : ReplicaRecoveryImage) (snapshot : Bytes) (generation : Uuid) : Directory :=
  generationDirectory snapshot
    (headerOf sha256 manifest node entryKind ++
      image.entries.flatMap (ReplicaRecoveryImage.entryBytes sha256))
    (headerOf sha256 manifest node proofKind ++
      image.proofs.flatMap (ReplicaRecoveryImage.proofBytes sha256))
    (sealOf sha256 manifest node generation snapshot)

theorem length_entryBytes (entry : ReplicaEntry) :
    (ReplicaRecoveryImage.entryBytes sha256 entry).length = entry.encodedLength := by
  have hmax : entry.encode sha256 entry.encodedLength =
      .ok (ReplicaRecoveryImage.entryBytes sha256 entry) :=
    ReplicaEntry.encode_eq_ok.mpr ⟨le_refl _, rfl⟩
  exact ReplicaEntry.length_encode hmax

variable (sha256 manifest node) in
/-- The bytes of the generation are the bytes that were computed for it. -/
theorem total_written (image : ReplicaRecoveryImage) (snapshot : Bytes) (generation : Uuid) :
    stagedBytes sha256 manifest node snapshot image =
      .ok (written sha256 manifest node image snapshot generation).total := by
  rw [stagedBytes_eq, written, total_generationDirectory, List.length_append, List.length_append,
    length_sealOf, List.length_flatMap, List.length_flatMap, rowBytes]
  simp only [length_entryBytes, Except.ok.injEq]
  omega

/-- The four members are written where their bytes fit. -/
theorem writeMembers_eq {root : Root} {image : ReplicaRecoveryImage} {reservation : Reservation}
    (generation : Uuid) (hslot : reservation.slot ∉ root.directories)
    (hentries : ∀ entry ∈ image.entries, entry.encodedLength ≤ bounds.maxFrameBytes)
    (hmax : (written sha256 manifest node image reservation.snapshot generation).total ≤
      bounds.maxRetainedLogBytes) :
    writeMembers sha256 manifest node bounds root image reservation generation =
      .ok (⟨root.files, root.directories.insert reservation.slot
        (written sha256 manifest node image reservation.snapshot generation)⟩,
        frameDigest (sealOf sha256 manifest node generation reservation.snapshot)) := by
  have hnode := node.length_le
  rw [written, total_generationDirectory, List.length_append, List.length_append,
    List.length_flatMap, List.length_flatMap] at hmax
  have hdirectory : createDirectory root reservation.slot =
      .ok ⟨root.files, root.directories.insert reservation.slot ∅⟩ := by
    rw [createDirectory, if_neg hslot]
    rfl
  have hjournal : writeJournal (·.encode sha256 bounds.maxFrameBytes) bounds.maxRetainedLogBytes
      (headerOf sha256 manifest node entryKind) image.entries =
        .ok (headerOf sha256 manifest node entryKind ++
          image.entries.flatMap (ReplicaRecoveryImage.entryBytes sha256)) :=
    writeJournal_eq (fun entry he => ReplicaEntry.encode_eq_ok.mpr ⟨hentries entry he, rfl⟩)
      (by omega)
  have hledger : writeJournal (·.encode sha256) bounds.maxRetainedLogBytes
      (headerOf sha256 manifest node proofKind) image.proofs =
        .ok (headerOf sha256 manifest node proofKind ++
          image.proofs.flatMap (ReplicaRecoveryImage.proofBytes sha256)) :=
    writeJournal_eq (fun proof _ => ReplicaProof.encode_eq) (by omega)
  have hseal : sealRecord sha256 manifest node generation (frameDigest reservation.snapshot)
      (frameDigest (headerOf sha256 manifest node entryKind))
      (frameDigest (headerOf sha256 manifest node proofKind)) =
        .ok (sealOf sha256 manifest node generation reservation.snapshot) := by
    have hshort : 0 < (sealFields sha256 manifest node generation reservation.snapshot).length ∧
        (sealFields sha256 manifest node generation reservation.snapshot).length ≤ 400 := by
      rw [length_sealFields]
      omega
    exact frame_metadata hshort
  rw [writeMembers]
  refine Lib.bind_eq_ok.mpr ⟨_, journalHeader_eq _, Lib.bind_eq_ok.mpr ⟨_, journalHeader_eq _,
    Lib.bind_eq_ok.mpr ⟨_, hdirectory, Lib.bind_eq_ok.mpr ⟨_, create_insert ?_,
    Lib.bind_eq_ok.mpr ⟨_, hjournal, Lib.bind_eq_ok.mpr ⟨_, create_insert ?_,
    Lib.bind_eq_ok.mpr ⟨_, hledger, Lib.bind_eq_ok.mpr ⟨_, create_insert ?_,
    Lib.bind_eq_ok.mpr ⟨_, hseal, Lib.bind_eq_ok.mpr ⟨_, create_insert ?_, rfl⟩⟩⟩⟩⟩⟩⟩⟩⟩⟩
  · exact AList.notMem_empty _
  · rw [AList.mem_insert]
    exact not_or_intro (by decide) (AList.notMem_empty _)
  · rw [AList.mem_insert, AList.mem_insert]
    exact not_or_intro (by decide) (not_or_intro (by decide) (AList.notMem_empty _))
  · rw [AList.mem_insert, AList.mem_insert, AList.mem_insert]
    exact not_or_intro (by decide) (not_or_intro (by decide) (not_or_intro (by decide)
      (AList.notMem_empty _)))

/-! ### Selection -/

/-- A file within its bound. -/
theorem fileBytes_some {bytes : Bytes} {maximum : ℕ} (h : 0 < bytes.length ∧ bytes.length ≤ maximum) :
    fileBytes (some bytes) maximum = .ok bytes :=
  Lib.bind_eq_ok.mpr ⟨(), require_eq_ok.mpr h, rfl⟩

/-- A record that is shorter than metadata may be is decoded. -/
theorem decodeRecord_framed {kind : UInt16} {body : Bytes} {minor : Minor}
    (h : 0 < body.length ∧ body.length ≤ 400) :
    decodeRecord sha256 (framed sha256 kind body minor) kind maxMetadataBytes minor = .ok body :=
  (decodeRecord_eq_ok (by decide)).mpr (frame_metadata h)

/-- A record that stands in a file is read. -/
theorem readFile_framed {kind : UInt16} {body : Bytes} (h : 0 < body.length ∧ body.length ≤ 400) :
    readFile sha256 manifest (some (framed sha256 kind body manifest.formatMinor)) kind =
      .ok body := by
  have hbytes : fileBytes (some (framed sha256 kind body manifest.formatMinor)) maxMetadataBytes =
      .ok (framed sha256 kind body manifest.formatMinor) := by
    apply fileBytes_some
    rw [length_framed]
    unfold headerBytes maxMetadataBytes
    omega
  exact Lib.bind_eq_ok.mpr ⟨_, hbytes, decodeRecord_framed h⟩

/-- The fields of a selector, written. -/
def pointerBytes (manifest : ReplicaManifest) (node : ReplicationNodeId) (pointer : Pointer) :
    Bytes :=
  identityBytes manifest node ++ (text pointer.slot ++ (writeUuid pointer.generation ++
    (writeHash pointer.sealDigest ++ writeByte (if pointer.admitted then 1 else 0))))

theorem slot_text {slot : JavaString} (hslot : slot ∈ slots) :
    Utf8.Ascii slot ∧ (Utf8.getBytes slot).length = 12 := by
  have hall : ∀ slot ∈ slots, slot.all (·.toNat < 0x80) = true ∧ slot.length = 12 := by
    decide
  obtain ⟨hbelow, hlength⟩ := hall slot hslot
  have hascii : Utf8.Ascii slot := fun u hu => by simpa using List.all_eq_true.mp hbelow u hu
  exact ⟨hascii, (Utf8.length_getBytes_ascii hascii).trans hlength⟩

theorem readPointer_pointerBytes {pointer : Pointer} (hslot : pointer.slot ∈ slots) :
    readPointer manifest node (pointerBytes manifest node pointer) = .ok (pointer, []) := by
  obtain ⟨hascii, hlength⟩ := slot_text hslot
  have htext : Reads (readText 32) (text pointer.slot) pointer.slot :=
    readText_reads (Utf8.wellFormed_ascii hascii) (by omega) (by omega) (by decide)
  rw [readPointer, pointerBytes, (readIdentity_reads _ _ _).bind, htext.bind, readUuid_bind,
    readHash_bind, Decoder.bind_of_ok (readByte_reads _).all]
  obtain ⟨slot, generation, sealDigest, admitted⟩ := pointer
  cases admitted with
  | true =>
    rw [if_pos rfl, require_bind (by decide), Decoder.bind_of_ok (readEnd_eq_ok.mpr ⟨rfl, rfl⟩)]
    rfl
  | false =>
    rw [if_neg Bool.false_ne_true, require_bind (by decide),
      Decoder.bind_of_ok (readEnd_eq_ok.mpr ⟨rfl, rfl⟩)]
    rfl

variable (sha256 manifest node) in
/-- A journal that starts with its header passes the check against the header's digest. -/
theorem checkHeader_headerOf (kind : UInt16) (rows rest : Bytes) :
    checkHeader sha256 manifest (some (headerOf sha256 manifest node kind ++ rows))
      (writeHash (frameDigest (headerOf sha256 manifest node kind)) ++ rest) = .ok ((), rest) := by
  have hnode := node.length_le
  have hlength : (identityBytes manifest node ++ writeShort kind).length =
      38 + node.value.length := by
    rw [List.length_append, length_identityBytes, length_writeShort]
    omega
  have hread : Replica.read sha256 (headerOf sha256 manifest node kind ++ rows) 0 journalKind
      maxMetadataBytes manifest.formatMinor = .ok (some ⟨journalKind,
        identityBytes manifest node ++ writeShort kind,
        frameDigest (headerOf sha256 manifest node kind),
        0 + headerBytes + (identityBytes manifest node ++ writeShort kind).length⟩) :=
    read_framed (by decide) (by omega) (by unfold headerBytes maxMetadataBytes; omega) [] rows
  have hopen : openFile (some (headerOf sha256 manifest node kind ++ rows)) =
      .ok (headerOf sha256 manifest node kind ++ rows) := rfl
  rw [checkHeader, Decoder.lift_bind hopen, Decoder.lift_bind hread]
  show (readHash >>= fun digest => _) _ = _
  rw [readHash_bind]
  exact require_run_eq_ok.mpr ⟨rfl, rfl⟩

variable (sha256 manifest node) in
theorem lookup_written (image : ReplicaRecoveryImage) (snapshot : Bytes) (generation : Uuid) :
    (written sha256 manifest node image snapshot generation).lookup snapshotFile = some snapshot ∧
    (written sha256 manifest node image snapshot generation).lookup entryFile =
      some (headerOf sha256 manifest node entryKind ++
        image.entries.flatMap (ReplicaRecoveryImage.entryBytes sha256)) ∧
    (written sha256 manifest node image snapshot generation).lookup proofFile =
      some (headerOf sha256 manifest node proofKind ++
        image.proofs.flatMap (ReplicaRecoveryImage.proofBytes sha256)) ∧
    (written sha256 manifest node image snapshot generation).lookup sealFile =
      some (sealOf sha256 manifest node generation snapshot) := lookup_generationDirectory

/-- The seal of a generation stands by its members. -/
theorem checkSeal_written {image : ReplicaRecoveryImage} {snapshot : Bytes} {generation : Uuid}
    (h : fileBytes (some snapshot) (ReplicaSnapshot.maximum bounds) = .ok snapshot) :
    checkSeal sha256 manifest node bounds (written sha256 manifest node image snapshot generation)
      generation (sealFields sha256 manifest node generation snapshot) = .ok (snapshot, []) := by
  obtain ⟨hsnapshot, hentries, hproofs, -⟩ :=
    lookup_written sha256 manifest node image snapshot generation
  have hproof := checkHeader_headerOf sha256 manifest node proofKind
    (image.proofs.flatMap (ReplicaRecoveryImage.proofBytes sha256)) []
  rw [List.append_nil] at hproof
  rw [checkSeal, sealFields, (readIdentity_reads _ _ _).bind, readUuid_bind, require_bind rfl, hsnapshot,
    Decoder.lift_bind h, readHash_bind, require_bind rfl, hentries,
    Decoder.bind_of_ok (checkHeader_headerOf _ _ _ _ _ _), hproofs, Decoder.bind_of_ok hproof,
    Decoder.bind_of_ok (readEnd_eq_ok.mpr ⟨rfl, rfl⟩)]
  rfl

/-- The generation that was written is selected by its selector. -/
theorem selectedSlot_written {root : Root} {image : ReplicaRecoveryImage} {pointer : Pointer}
    {snapshot : Bytes} (hslot : pointer.slot ∈ slots)
    (hroot : root.directories.lookup pointer.slot =
      some (written sha256 manifest node image snapshot pointer.generation))
    (hseal : pointer.sealDigest =
      frameDigest (sealOf sha256 manifest node pointer.generation snapshot))
    (hencode : image.snapshot.encode sha256 (ReplicaSnapshot.maximum bounds) = .ok snapshot)
    (hvalid : image.snapshot.validate sha256 manifest = .ok ()) :
    selectedSlot sha256 manifest node bounds root pointer =
      .ok ⟨some pointer.slot, some image.snapshot, pointer.admitted,
        pointer.generation.toNat / 2 ^ 64 % 2 ^ 63⟩ := by
  have hnode := node.length_le
  have hinventory : inventorySlot (root.directories.lookup pointer.slot) true =
      .ok (written sha256 manifest node image snapshot pointer.generation) := by
    rw [hroot]
    exact inventorySlot_generationDirectory true
  obtain ⟨-, -, -, hsealFile⟩ :=
    lookup_written sha256 manifest node image snapshot pointer.generation
  have hsnapshot : fileBytes (some snapshot) (ReplicaSnapshot.maximum bounds) = .ok snapshot := by
    obtain ⟨-, hmax, rfl⟩ := ReplicaSnapshot.encode_eq_ok.mp hencode
    apply fileBytes_some
    rw [length_framed]
    unfold headerBytes at hmax ⊢
    omega
  have hsealBytes : fileBytes (some (sealOf sha256 manifest node pointer.generation snapshot))
      maxMetadataBytes = .ok (sealOf sha256 manifest node pointer.generation snapshot) := by
    apply fileBytes_some
    rw [length_sealOf]
    unfold maxMetadataBytes
    omega
  have hfields : decodeRecord sha256 (sealOf sha256 manifest node pointer.generation snapshot)
      sealKind maxMetadataBytes manifest.formatMinor =
        .ok (sealFields sha256 manifest node pointer.generation snapshot) :=
    decodeRecord_framed (by rw [length_sealFields]; omega)
  have hsnapshotRead : ReplicaSnapshot.decode sha256 snapshot manifest
      (ReplicaSnapshot.maximum bounds) = .ok image.snapshot :=
    (ReplicaSnapshot.decode_eq_ok (ReplicaSnapshot.maximum_lt bounds)).mpr ⟨hencode, hvalid⟩
  rw [selectedSlot]
  exact Lib.bind_eq_ok.mpr ⟨(), require_eq_ok.mpr hslot, Lib.bind_eq_ok.mpr ⟨_, hinventory,
    Lib.bind_eq_ok.mpr ⟨_, hsealFile ▸ hsealBytes, Lib.bind_eq_ok.mpr ⟨(),
      require_eq_ok.mpr hseal.symm, Lib.bind_eq_ok.mpr ⟨_, hfields, Lib.bind_eq_ok.mpr ⟨_,
        checkSeal_written hsnapshot, Lib.bind_eq_ok.mpr ⟨_, hsnapshotRead, rfl⟩⟩⟩⟩⟩⟩⟩

/-- The marker that generations have been used, as it is written. -/
def startedOf (sha256 : Bytes → Hash) (manifest : ReplicaManifest) (node : ReplicationNodeId) :
    Bytes :=
  framed sha256 startedKind (identityBytes manifest node) manifest.formatMinor

theorem checkStarted_startedOf :
    checkStarted sha256 manifest node (some (startedOf sha256 manifest node)) = .ok () := by
  have hnode := node.length_le
  have hread : readFile sha256 manifest (some (startedOf sha256 manifest node)) startedKind =
      .ok (identityBytes manifest node) :=
    readFile_framed (by rw [length_identityBytes]; omega)
  have hidentity := readIdentity_reads manifest node "generation-started identity mismatch"
  rw [checkStarted]
  refine Lib.bind_eq_ok.mpr ⟨_, hread, Lib.bind_eq_ok.mpr ⟨((), []), ?_, rfl⟩⟩
  exact (Decoder.bind_of_ok hidentity.all).trans (readEnd_eq_ok.mpr ⟨rfl, rfl⟩)

/-- The marker is there behind `ensureStarted`, as it was or new. -/
theorem ensureStarted_eq {root : Root}
    (h : checkStarted sha256 manifest node (root.files.lookup started) = .ok ()) :
    ∃ root', ensureStarted sha256 manifest node root = .ok root' ∧
      root'.directories = root.directories ∧
      (∀ name, name ≠ started → root'.files.lookup name = root.files.lookup name) ∧
      checkStarted sha256 manifest node (root'.files.lookup started) = .ok () := by
  have hnode := node.length_le
  by_cases hmem : started ∈ root.files
  · refine ⟨root, ?_, rfl, fun _ _ => rfl, h⟩
    rw [ensureStarted, if_pos hmem]
    rfl
  · have hrecord : startedRecord sha256 manifest node = .ok (startedOf sha256 manifest node) :=
      frame_metadata (by rw [length_identityBytes]; omega)
    refine ⟨⟨root.files.insert started (startedOf sha256 manifest node), root.directories⟩, ?_, rfl,
      fun name hname => AList.lookup_insert_ne hname, ?_⟩
    · rw [ensureStarted, if_neg hmem]
      refine Lib.bind_eq_ok.mpr ⟨_, hrecord, ?_⟩
      rw [createFile, if_neg hmem]
      rfl
    · rw [AList.lookup_insert]
      exact checkStarted_startedOf

/-- A file takes the place of another by its pending name. -/
theorem atomic_eq {root : Root} {target pending : JavaString} {bytes : Bytes} :
    atomic root target pending bytes =
      .ok ⟨(((root.files.erase pending).insert pending bytes).erase pending).insert target bytes,
        root.directories⟩ := by
  have hmem : pending ∉ root.files.erase pending := fun h => (AList.mem_erase.mp h).1 rfl
  rw [atomic, createFile, if_neg hmem]
  rfl

/-- The rest of `install` succeeds where the bytes of the generation fit. -/
theorem stage_eq {root : Root} {image : ReplicaRecoveryImage} {reservation : Reservation}
    {generation : Uuid} (admitted : Bool) (hslot : reservation.slot ∈ slots)
    (hfree : reservation.slot ∉ root.directories)
    (hstarted : checkStarted sha256 manifest node (root.files.lookup started) = .ok ())
    (hencode : image.snapshot.encode sha256 (ReplicaSnapshot.maximum bounds) =
      .ok reservation.snapshot)
    (hvalid : image.validate sha256 manifest bounds = .ok ())
    (htotal : reservation.staged =
      (written sha256 manifest node image reservation.snapshot generation).total)
    (hstaging : reservation.staged ≤ bounds.maxSnapshotStagingBytes)
    (hretained : reservation.staged ≤ bounds.maxRetainedLogBytes)
    (haggregate : root.total + reservation.staged + 4096 ≤
      bounds.maxRetainedLogBytes + bounds.maxSnapshotStagingBytes) :
    ∃ root', stage sha256 manifest node bounds root image reservation generation admitted =
        .ok (⟨some reservation.slot, some image.snapshot, admitted,
          generation.toNat / 2 ^ 64 % 2 ^ 63⟩, root') ∧
      root'.directories = root.directories.insert reservation.slot
        (written sha256 manifest node image reservation.snapshot generation) := by
  have hnode := node.length_le
  obtain ⟨hsnapshot, hparts⟩ := ReplicaRecoveryImage.validate_eq_ok hvalid
  have hmembers := writeMembers_eq generation hfree (fun entry he => (hparts.entries entry he).2)
    (htotal ▸ hretained)
  set generationFiles := written sha256 manifest node image reservation.snapshot generation
  set pointer : Pointer := ⟨reservation.slot, generation,
    frameDigest (sealOf sha256 manifest node generation reservation.snapshot), admitted⟩
  have hpointerLength : 0 < (pointerBytes manifest node pointer).length ∧
      (pointerBytes manifest node pointer).length ≤ 400 := by
    have htext := (slot_text hslot).2
    simp only [pointerBytes, List.length_append, length_identityBytes, length_text, htext,
      length_writeUuid, length_writeHash, length_writeByte, pointer]
    omega
  have hpointer : pointerRecord sha256 manifest node pointer =
      .ok (framed sha256 pointerKind (pointerBytes manifest node pointer) manifest.formatMinor) :=
    frame_metadata hpointerLength
  set pointerFile := framed sha256 pointerKind (pointerBytes manifest node pointer)
    manifest.formatMinor
  set root₁ : Root := ⟨(((root.files.erase pending).insert pending pointerFile).erase
    pending).insert current pointerFile, root.directories.insert reservation.slot generationFiles⟩
  have hstarted₁ : checkStarted sha256 manifest node (root₁.files.lookup started) = .ok () := by
    have hlookup : root₁.files.lookup started = root.files.lookup started := by
      rw [AList.lookup_insert_ne (by decide), AList.lookup_erase_ne (by decide),
        AList.lookup_insert_ne (by decide), AList.lookup_erase_ne (by decide)]
    rwa [hlookup]
  obtain ⟨root₂, hensure, hdirectories, hfiles, hstarted₂⟩ := ensureStarted_eq hstarted₁
  have hcurrent : root₂.files.lookup current = some pointerFile := by
    rw [hfiles current (by decide), AList.lookup_insert]
  have hstaged : (((root.directories.insert reservation.slot generationFiles).lookup
      reservation.slot).map Directory.total).getD 0 = reservation.staged := by
    rw [AList.lookup_insert, htotal]
    rfl
  have hselected : selected sha256 manifest node bounds root₂ =
      .ok ⟨some reservation.slot, some image.snapshot, admitted,
        generation.toNat / 2 ^ 64 % 2 ^ 63⟩ := by
    have hslotFiles : root₂.directories.lookup pointer.slot = some generationFiles := by
      rw [hdirectories]
      exact AList.lookup_insert _
    rw [selected, hcurrent]
    exact Lib.bind_eq_ok.mpr ⟨(), hstarted₂, Lib.bind_eq_ok.mpr ⟨_, readFile_framed hpointerLength,
      Lib.bind_eq_ok.mpr ⟨_, readPointer_pointerBytes hslot,
        selectedSlot_written hslot hslotFiles rfl hencode hsnapshot⟩⟩⟩
  refine ⟨root₂, ?_, hdirectories⟩
  rw [stage]
  refine Lib.bind_eq_ok.mpr ⟨(), require_eq_ok.mpr haggregate, Lib.bind_eq_ok.mpr ⟨_, hmembers,
    Lib.bind_eq_ok.mpr ⟨(), require_eq_ok.mpr ?_, Lib.bind_eq_ok.mpr ⟨_, hpointer,
      Lib.bind_eq_ok.mpr ⟨root₁, atomic_eq, Lib.bind_eq_ok.mpr ⟨root₂, hensure,
        Lib.bind_eq_ok.mpr ⟨_, hselected, rfl⟩⟩⟩⟩⟩⟩⟩
  show _ ≤ _ ∧ _ ≤ _
  rw [hstaged]
  exact ⟨hstaging, hretained⟩

/-- What the first checks of `install` have found when they have passed. -/
theorem reserve_eq_ok {root : Root} {image : ReplicaRecoveryImage} {reservation : Reservation}
    (h : reserve sha256 manifest node bounds root image = .ok reservation) :
    image.validate sha256 manifest bounds = .ok () ∧
    image.snapshot.encode sha256 (ReplicaSnapshot.maximum bounds) = .ok reservation.snapshot ∧
    stagedBytes sha256 manifest node reservation.snapshot image = .ok reservation.staged ∧
    reservation.staged ≤ bounds.maxSnapshotStagingBytes ∧
    reservation.staged ≤ bounds.maxRetainedLogBytes ∧
    checkStarted sha256 manifest node (root.files.lookup started) = .ok () ∧
    reservation.slot ∈ slots ∧
    root.total - ((root.directories.lookup reservation.slot).map Directory.total).getD 0 +
      reservation.staged + 4096 ≤ bounds.maxRetainedLogBytes + bounds.maxSnapshotStagingBytes := by
  simp only [reserve, checkAggregate, Lib.bind_eq_ok, require_eq_ok, pure, Except.pure,
    Except.ok.injEq] at h
  obtain ⟨_, hvalid, snapshot, hencode, staged, hstaged, metadata, -, _, ⟨hstaging, hretained⟩,
    result, hselected, _, haggregate, rfl⟩ := h
  refine ⟨hvalid, hencode, hstaged, hstaging, (Nat.le_add_right _ _).trans hretained, ?_, ?_,
    haggregate⟩
  · rw [selected, Lib.bind_eq_ok] at hselected
    obtain ⟨_, hstarted, -⟩ := hselected
    exact hstarted
  · show (if _ then _ else _) ∈ slots
    split <;> decide

/-- What is left of the directory once the slot is free. -/
theorem clear_eq_ok {root root' : Root} {reservation : Reservation}
    (h : clear sha256 manifest node root reservation = .ok root') :
    root'.files = root.files ∧ reservation.slot ∉ root'.directories ∧
      root'.total + ((root.directories.lookup reservation.slot).map Directory.total).getD 0 =
        root.total := by
  by_cases hmem : reservation.slot ∈ root.directories
  · rw [clear, if_pos hmem] at h
    simp only [removeSlot, Lib.bind_eq_ok, require_eq_ok, pure, Except.pure, Except.ok.injEq] at h
    obtain ⟨_, -, _, -, _, -, rfl⟩ := h
    refine ⟨rfl, fun hslot => (AList.mem_erase.mp hslot).1 rfl, ?_⟩
    have hsum := sum_erase Directory.total root.directories reservation.slot
    simp only [Root.total]
    omega
  · rw [clear, if_neg hmem] at h
    cases h
    refine ⟨rfl, hmem, ?_⟩
    rw [AList.lookup_eq_none.mpr hmem]
    rfl

/-- Once the first checks of `install` have passed and its slot is free, the rest of it succeeds: the
bytes of the new generation are those that were computed before, so no later bound fails. -/
theorem stage_of_reserve {root root' : Root} {image : ReplicaRecoveryImage}
    {reservation : Reservation} (generation : Uuid) (admitted : Bool)
    (hreserve : reserve sha256 manifest node bounds root image = .ok reservation)
    (hclear : clear sha256 manifest node root reservation = .ok root') :
    ∃ root'' directory, stage sha256 manifest node bounds root' image reservation generation
        admitted = .ok (⟨some reservation.slot, some image.snapshot, admitted,
          generation.toNat / 2 ^ 64 % 2 ^ 63⟩, root'') ∧
      root''.directories.lookup reservation.slot = some directory ∧
      directory.total = reservation.staged := by
  obtain ⟨hvalid, hencode, hstaged, hstaging, hretained, hstarted, hslot, haggregate⟩ :=
    reserve_eq_ok hreserve
  obtain ⟨hfiles, hfree, htotal⟩ := clear_eq_ok hclear
  have hwritten := total_written sha256 manifest node image reservation.snapshot generation
  rw [hstaged, Except.ok.injEq] at hwritten
  obtain ⟨root'', hstage, hdirectories⟩ := stage_eq admitted hslot hfree
    (hfiles ▸ hstarted) hencode hvalid hwritten hstaging hretained (by omega)
  refine ⟨root'', _, hstage, ?_, hwritten.symm⟩
  rw [hdirectories, AList.lookup_insert]

end

end Generation

end GeneralSearch.Replica
