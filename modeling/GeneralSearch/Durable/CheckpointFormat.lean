import GeneralSearch.Durable.Checkpoint

/-! The fields of the files of `DurableCheckpoint`, and the manifest: its reader accepts the bytes of
manifests and no others. -/

namespace GeneralSearch.Durable.DurableCheckpoint

open GeneralSearch.Engine GeneralSearch.Parser GeneralSearch.Storage
open GeneralSearch.Derived (Spelled decodeUtf8_eq_ok digit hexDigit reject_eq_ok)
open GeneralSearch.Durable.DurableWal (HistoryId MAJOR WalFormat checksum)
open GeneralSearch.Index (JMap)
open GeneralSearch.Utf8 (Ascii JavaString WellFormed)

/-! ### Fields -/

theorem signed_eight_nat {n : ℕ} (h : n ≤ maxSequence) : Signed 8 n := by
  unfold maxSequence at h
  exact signed_eight.mpr (by omega)

theorem signed_four_nat {n : ℕ} (h : n ≤ maxDocId) : Signed 4 n := by
  unfold maxDocId at h
  exact signed_four.mpr (by omega)

theorem signed_checksum (bytes : Bytes) : Signed 4 (checksum bytes) := by
  show (BitVec.ofInt 32 (checksum bytes)).toInt = checksum bytes
  rw [checksum, BitVec.ofInt_toInt]

namespace FileIdentity

structure Valid (format : WalFormat) (i : FileIdentity) : Prop where
  magic : Signed 8 i.magic
  major : Signed 2 i.major
  minor : Signed 2 i.minor
  mostSignificantBits : Signed 8 i.mostSignificantBits
  leastSignificantBits : Signed 8 i.leastSignificantBits
  profileDigest : i.profileDigest.length = if format.hasProfile then 32 else 0

theorem not_foreign {i : FileIdentity} {magic : ℤ} {format : WalFormat} {historyId : HistoryId} :
    ¬i.Foreign magic format historyId ↔ i = own magic format historyId := by
  cases i
  simp only [Foreign, own, not_or, not_not, mk.injEq]
  tauto

theorem valid_own {magic : ℤ} (hmagic : Signed 8 magic) (format : WalFormat)
    (historyId : HistoryId) : (own magic format historyId).Valid format where
  magic := hmagic
  major := signed_two.mpr (by simp [own, MAJOR])
  minor := by
    have hle := format.minor_le
    exact signed_two.mpr (by simp only [own]; omega)
  mostSignificantBits := by
    show (BitVec.ofInt 64 historyId.mostSignificantBits.toBitVec.toInt).toInt = _
    rw [BitVec.ofInt_toInt]
    rfl
  leastSignificantBits := by
    show (BitVec.ofInt 64 historyId.leastSignificantBits.toBitVec.toInt).toInt = _
    rw [BitVec.ofInt_toInt]
    rfl
  profileDigest := by
    show format.profileDigest.length = _
    rw [format.digest_length, WalFormat.hasProfile]
    split <;> simp_all

end FileIdentity

theorem length_own (magic : ℤ) (format : WalFormat) (historyId : HistoryId) :
    (FileIdentity.own magic format historyId).write.length =
      28 + if format.hasProfile then 32 else 0 := by
  have hdigest : format.profileDigest.length = if format.hasProfile then 32 else 0 := by
    rw [format.digest_length, WalFormat.hasProfile]
    split <;> simp_all
  simp [FileIdentity.write, FileIdentity.own, hdigest]
  omega

theorem exact_readIdentity (eof : Thrown) (format : WalFormat) :
    Exact (readIdentity eof format) fun i w => i.Valid format ∧ w = i.write := by
  refine ((exact_signed (input eof) 8).field fun _ _ => (exact_signed (input eof) 2).field fun _ _
    => (exact_signed (input eof) 2).field fun _ _ => (exact_signed (input eof) 8).field fun _ _ =>
    (exact_signed (input eof) 8).field fun _ _ => ((input eof).exact_bytes _).field fun _ _ =>
    exact_pure _).congr fun i w => ?_
  constructor
  · rintro ⟨_, h1, _, ⟨_, h2, _, ⟨_, h3, _, ⟨_, h4, _, ⟨_, h5, _, ⟨_, h6, _, ⟨rfl, rfl⟩, rfl⟩, rfl⟩,
      rfl⟩, rfl⟩, rfl⟩, rfl⟩
    exact ⟨⟨h1, h2, h3, h4, h5, h6⟩, by simp [FileIdentity.write]⟩
  · rintro ⟨h, rfl⟩
    exact ⟨_, h.magic, _, ⟨_, h.major, _, ⟨_, h.minor, _, ⟨_, h.mostSignificantBits, _, ⟨_,
      h.leastSignificantBits, _, ⟨_, h.profileDigest, _, ⟨rfl, rfl⟩, rfl⟩, rfl⟩, rfl⟩, rfl⟩, rfl⟩,
      by simp [FileIdentity.write]⟩

theorem exact_readBytes (eof : Thrown) {maximum : ℕ} (hmaximum : maximum < 2147483648)
    (allowEmpty : Bool) (name : String) : Exact (readBytes eof maximum allowEmpty name) fun b w =>
      Bounded maximum allowEmpty b ∧ w = writeBlock b := by
  refine ((exact_signed (input eof) 4).field fun n _ => .check fun _ => exact_take _ _).congr
    fun b w => ?_
  constructor
  · rintro ⟨n, -, bytes, ⟨hbound, hlength, rfl⟩, rfl⟩
    obtain rfl : n = (bytes.length : ℕ) := by omega
    refine ⟨⟨by omega, ?_⟩, rfl⟩
    rintro hempty rfl
    exact hbound (.inr (.inr ⟨hempty, rfl⟩))
  · rintro ⟨⟨hlength, hempty⟩, rfl⟩
    refine ⟨(b.length : ℕ), signed_four.mpr (by omega), b, ⟨?_, by omega, rfl⟩, rfl⟩
    rintro (h | h | ⟨h, hzero⟩)
    · omega
    · omega
    · exact hempty h (List.length_eq_zero_iff.mp (by omega))

theorem exact_readString (eof : Thrown) {maximum : ℕ} (hmaximum : maximum < 2147483648)
    (allowEmpty : Bool) (name : String) :
    Exact (readString eof maximum allowEmpty name) fun value w =>
      Spelled maximum allowEmpty value ∧ w = Derived.writeString value := by
  refine ((exact_readBytes eof hmaximum allowEmpty name).field fun b _ => exact_lift _).congr
    fun value w => ?_
  constructor
  · rintro ⟨_, hbounded, _, ⟨hvalue, rfl⟩, rfl⟩
    obtain ⟨hwf, rfl⟩ := decodeUtf8_eq_ok.mp hvalue
    exact ⟨⟨hwf, hbounded⟩, List.append_nil _⟩
  · rintro ⟨⟨hwf, hbounded⟩, rfl⟩
    exact ⟨_, hbounded, [], ⟨decodeUtf8_eq_ok.mpr ⟨hwf, rfl⟩, rfl⟩, (List.append_nil _).symm⟩

/-- The last four bytes of a file. -/
theorem readTrailer_eq_ok {eof : Thrown} {file rest : Bytes} (hfile : 4 ≤ file.length) {v : ℤ} :
    (input eof).signed 4 (file.drop (file.length - 4)) = .ok (v, rest) ↔
      (Signed 4 v ∧ file = file.take (file.length - 4) ++ writeSigned 4 v) ∧ rest = [] := by
  rw [exact_signed (input eof) 4]
  constructor
  · rintro ⟨_, ⟨hsigned, rfl⟩, hdrop⟩
    have hdrop : file.drop (file.length - 4) = writeSigned 4 v ++ rest := hdrop
    have hlength := congrArg List.length hdrop
    rw [List.length_drop, List.length_append, length_writeSigned] at hlength
    obtain rfl : rest = [] := List.length_eq_zero_iff.mp (by omega)
    rw [List.append_nil] at hdrop
    exact ⟨⟨hsigned, by rw [← hdrop, List.take_append_drop]⟩, rfl⟩
  · rintro ⟨⟨hsigned, hfile⟩, rfl⟩
    refine ⟨_, ⟨hsigned, rfl⟩, ?_⟩
    show file.drop (file.length - 4) = writeSigned 4 v ++ []
    rw [List.append_nil]
    have hboth := List.take_append_drop (file.length - 4) file
    exact List.append_cancel_left (hboth.trans hfile)

@[simp] theorem length_finish (content : Bytes) : (finish content).length = content.length + 4 := by
  simp [finish]

/-- A file is finished where its last four bytes are the checksum of those before. -/
theorem take_finish (content : Bytes) :
    (finish content).take ((finish content).length - 4) = content := by
  rw [length_finish, Nat.add_sub_cancel]
  exact List.take_left

/-! ### The manifest -/

theorem ascii_append {s t : JavaString} (hs : Ascii s) (ht : Ascii t) : Ascii (s ++ t) := by
  intro u hu
  rcases List.mem_append.mp hu with h | h
  · exact hs u h
  · exact ht u h

theorem ascii_of_hexDigit {s : JavaString} (h : s.all hexDigit = true) : Ascii s := by
  intro u hu
  have hdigit := List.all_eq_true.mp h u hu
  simp only [hexDigit, digit, Bool.or_eq_true, Bool.and_eq_true, decide_eq_true_eq,
    UInt16.le_iff_toNat_le, UInt16.reduceToNat] at hdigit
  omega

theorem ascii_of_digit {s : JavaString} (h : s.all digit = true) : Ascii s := by
  apply ascii_of_hexDigit
  rw [List.all_eq_true] at h ⊢
  intro u hu
  rw [hexDigit, h u hu, Bool.true_or]

/-- The name of a checkpoint file has 72 bytes. -/
theorem isCheckpointFile_spelled {name : JavaString} (h : isCheckpointFile name = true) :
    Spelled 256 false name ∧ (Utf8.getBytes name).length = 72 := by
  simp only [isCheckpointFile, Bool.and_eq_true, decide_eq_true_eq] at h
  obtain ⟨⟨⟨hname, hsequence, hnonce⟩, hdigits⟩, hhex⟩ := h
  have hascii : Ascii name := by
    rw [hname]
    exact ascii_append (ascii_append (ascii_append (ascii_append (by unfold Ascii; decide)
      (ascii_of_digit hdigits)) (by unfold Ascii; decide)) (ascii_of_hexDigit hhex))
      (by unfold Ascii; decide)
  have hlength : (Utf8.getBytes name).length = 72 := by
    rw [Utf8.length_getBytes_ascii hascii, hname]
    simp only [List.length_append, hsequence, hnonce]
    decide
  refine ⟨⟨Utf8.wellFormed_ascii hascii, by omega, fun _ hnil => ?_⟩, hlength⟩
  rw [hnil] at hlength
  cases hlength

structure ManifestFields.Valid (format : WalFormat) (f : ManifestFields) : Prop where
  identity : f.identity.Valid format
  checkpointSequence : Signed 8 f.checkpointSequence
  checkpointBytes : Signed 8 f.checkpointBytes
  checkpointChecksum : Signed 4 f.checkpointChecksum
  checkpointFile : Spelled 256 false f.checkpointFile
  walGeneration : Signed 8 f.walGeneration
  walFirstSequence : Signed 8 f.walFirstSequence

def ManifestFields.write (f : ManifestFields) : Bytes :=
  f.identity.write ++ writeSigned 8 f.checkpointSequence ++ writeSigned 8 f.checkpointBytes ++
    writeSigned 4 f.checkpointChecksum ++ Derived.writeString f.checkpointFile ++
    writeSigned 8 f.walGeneration ++ writeSigned 8 f.walFirstSequence

theorem exact_readManifestFields (format : WalFormat) :
    Exact (readManifestFields format) fun f w => f.Valid format ∧ w = f.write := by
  refine ((exact_readIdentity _ format).field fun _ _ => (exact_signed (input _) 8).field fun _ _ =>
    (exact_signed (input _) 8).field fun _ _ => (exact_signed (input _) 4).field fun _ _ =>
    (exact_readString _ (by decide) false _).field fun _ _ => (exact_signed (input _) 8).field
    fun _ _ => (exact_signed (input _) 8).field fun _ _ => exact_pure _).congr fun f w => ?_
  constructor
  · rintro ⟨_, h1, _, ⟨_, h2, _, ⟨_, h3, _, ⟨_, h4, _, ⟨_, h5, _, ⟨_, h6, _, ⟨_, h7, _, ⟨rfl, rfl⟩,
      rfl⟩, rfl⟩, rfl⟩, rfl⟩, rfl⟩, rfl⟩, rfl⟩
    exact ⟨⟨h1, h2, h3, h4, h5, h6, h7⟩, by simp [ManifestFields.write]⟩
  · rintro ⟨h, rfl⟩
    exact ⟨_, h.identity, _, ⟨_, h.checkpointSequence, _, ⟨_, h.checkpointBytes, _, ⟨_,
      h.checkpointChecksum, _, ⟨_, h.checkpointFile, _, ⟨_, h.walGeneration, _, ⟨_,
      h.walFirstSequence, _, ⟨rfl, rfl⟩, rfl⟩, rfl⟩, rfl⟩, rfl⟩, rfl⟩, rfl⟩,
      by simp [ManifestFields.write]⟩

/-- The fields of a manifest. -/
def Manifest.fields (format : WalFormat) (historyId : HistoryId) (m : Manifest) :
    ManifestFields where
  identity := .own MANIFEST_MAGIC format historyId
  checkpointSequence := m.checkpointSequence
  checkpointBytes := m.checkpointBytes
  checkpointChecksum := m.checkpointChecksum
  checkpointFile := m.checkpointFile
  walGeneration := m.walGeneration
  walFirstSequence := m.walFirstSequence

theorem Manifest.valid_fields (format : WalFormat) (historyId : HistoryId) (m : Manifest) :
    (m.fields format historyId).Valid format := by
  obtain ⟨hsequence, -, hfile, -, hnext, hbytes, hchecksum, hgeneration, hfirst⟩ := m.valid
  refine ⟨FileIdentity.valid_own (signed_eight.mpr (by simp [MANIFEST_MAGIC])) format
    historyId, ?_, hbytes, hchecksum,
    (isCheckpointFile_spelled hfile).1, hgeneration, hfirst⟩
  rw [signed_eight] at hfirst ⊢
  show -9223372036854775808 ≤ m.checkpointSequence ∧ m.checkpointSequence < 9223372036854775808
  omega

theorem Manifest.make_eq_some {sequence bytes checksum generation first : ℤ} {file : JavaString}
    {m : Manifest} : Manifest.make sequence file bytes checksum generation first = some m ↔
      sequence = m.checkpointSequence ∧ file = m.checkpointFile ∧ bytes = m.checkpointBytes ∧
        checksum = m.checkpointChecksum ∧ generation = m.walGeneration ∧
        first = m.walFirstSequence := by
  unfold Manifest.make
  constructor
  · intro h
    split at h
    · cases h
      exact ⟨rfl, rfl, rfl, rfl, rfl, rfl⟩
    · cases h
  · rintro ⟨rfl, rfl, rfl, rfl, rfl, rfl⟩
    rw [dif_pos m.valid]

theorem ManifestFields.toManifest_eq_ok {f : ManifestFields} {format : WalFormat}
    {historyId : HistoryId} {available : Bytes} {m : Manifest} :
    f.toManifest format historyId available = .ok m ↔
      available = [] ∧ f = m.fields format historyId := by
  obtain ⟨hsequence, hbytes, hfile, hgeneration, hfirst, -, -, -, hlong⟩ := m.valid
  rw [signed_eight] at hlong
  simp only [toManifest, Lib.bind_eq_ok, reject_eq_ok, required_eq_ok, Manifest.make_eq_some,
    exists_const, not_or, not_not, FileIdentity.not_foreign]
  constructor
  · rintro ⟨⟨havailable, hidentity, -⟩, -, h1, h2, h3, h4, h5, h6⟩
    refine ⟨havailable, ?_⟩
    cases f
    simp_all [Manifest.fields]
  · rintro ⟨rfl, rfl⟩
    refine ⟨⟨rfl, rfl, ?_⟩, ?_, rfl, rfl, rfl, rfl, rfl, rfl⟩
    · simp only [Manifest.fields, hfile, Bool.true_eq_false, not_false_eq_true, true_and]
      omega
    · simp only [Manifest.fields, maxSequence]
      omega

theorem Manifest.write_fields (format : WalFormat) (historyId : HistoryId) (m : Manifest) :
    (m.fields format historyId).write = manifestContent format historyId m := rfl

theorem length_manifestContent (format : WalFormat) (historyId : HistoryId) (m : Manifest) :
    (manifestContent format historyId m).length =
      140 + if format.hasProfile then 32 else 0 := by
  obtain ⟨-, -, hfile, -⟩ := m.valid
  have hname := (isCheckpointFile_spelled hfile).2
  simp only [manifestContent, List.length_append, length_own, length_writeSigned,
    Derived.writeString, writeBlock, hname]
  omega

/-- `readManifest` accepts the bytes that `encodeManifest` has for a manifest, and no others. -/
theorem readManifest_eq_ok {format : WalFormat} {historyId : HistoryId} {encoded : Bytes}
    {manifest : Manifest} : readManifest format historyId encoded = .ok manifest ↔
      encoded = encodeManifest format historyId manifest := by
  simp only [readManifest, Lib.bind_eq_ok, reject_eq_ok, exists_const, Prod.exists,
    ManifestFields.toManifest_eq_ok]
  constructor
  · rintro ⟨hsize, v, rest, htrailer, hchecksum, fields, available, hfields, rfl, rfl⟩
    have hlong : 4 ≤ encoded.length := by
      have hminimum : 72 ≤ manifestMinimumBytes format := by
        unfold manifestMinimumBytes
        split <;> omega
      omega
    obtain ⟨⟨-, hfile⟩, -⟩ := (readTrailer_eq_ok hlong).mp htrailer
    obtain ⟨-, hcontent⟩ := (exact_readManifestFields format).whole.mp hfields
    rw [Manifest.write_fields] at hcontent
    rw [not_not] at hchecksum
    rw [← hchecksum, hcontent] at hfile
    exact hfile
  · rintro rfl
    have hlength := length_manifestContent format historyId manifest
    have hsize : (encodeManifest format historyId manifest).length =
        144 + if format.hasProfile then 32 else 0 := by
      rw [encodeManifest, length_finish, hlength]
      omega
    have htake : (encodeManifest format historyId manifest).take
        ((encodeManifest format historyId manifest).length - 4) =
          manifestContent format historyId manifest := take_finish _
    refine ⟨?_, checksum (manifestContent format historyId manifest), [], ?_, ?_,
      manifest.fields format historyId, [], ?_, rfl, rfl⟩
    · unfold manifestMinimumBytes MAX_MANIFEST_BYTES
      split at hsize <;> simp_all
    · rw [readTrailer_eq_ok (by omega), htake]
      exact ⟨⟨signed_checksum _, rfl⟩, rfl⟩
    · rw [htake, not_not]
    · rw [htake]
      exact (exact_readManifestFields format).whole.mpr
        ⟨manifest.valid_fields format historyId, rfl⟩

end GeneralSearch.Durable.DurableCheckpoint
