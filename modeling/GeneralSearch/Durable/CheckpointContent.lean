import GeneralSearch.Durable.Acceptance
import GeneralSearch.Durable.CheckpointFormat

/-! What the file of a checkpoint lists.  The reader accepts the bytes of valid content and no others,
the writer writes what its capture has, and a file that was written and can be read back is the
checkpoint of the published state. -/

namespace GeneralSearch.Durable.DurableCheckpoint

open GeneralSearch.Engine GeneralSearch.Parser GeneralSearch.Storage
open GeneralSearch.Derived (Spelled reject_eq_ok)
open GeneralSearch.Durable.DurableWal (HistoryId WalFormat checksum)
open GeneralSearch.Utf8 (JavaString)

/-- A live slot: the bytes of its key and of its document, and what they decode to. -/
structure Slot (K T : Type) where
  keyBytes : Bytes
  documentBytes : Bytes
  key : K
  document : T

/-- The bytes of a slot. -/
def writtenSlot {K T : Type} : Option (Slot K T) → Bytes
  | none => [0]
  | some slot => [1] ++ (writeBlock slot.keyBytes ++ writeBlock slot.documentBytes)

/-- What a checkpoint lists. -/
structure Content (K T : Type) where
  sequence : ℕ
  indexes : List DurableIndexDescriptor
  slots : List (Option (Slot K T))

variable {K T : Type} [DecidableEq K] {ops : IndexOps T}

/-- The loop of `read` behind some slots. -/
def ReadLoop.of (slots : List (Option (Slot K T))) : ReadLoop K T where
  docId := slots.length
  slots := slots.map (Option.map Slot.document)
  documentIds key := slots.findIdx? fun slot => decide (slot.map Slot.key = some key)
  decodedLive := slots.countP Option.isSome

namespace Content

/-- What `read` returns. -/
def loaded (c : Content K T) : Loaded K T where
  slots := (ReadLoop.of c.slots).slots
  documentIds := (ReadLoop.of c.slots).documentIds
  liveDocuments := (ReadLoop.of c.slots).decodedLive
  nextDocId := c.slots.length
  sequence := c.sequence
  indexes := c.indexes

/-- The bytes in front of the checksum. -/
def write (format : WalFormat) (historyId : HistoryId) (c : Content K T) : Bytes :=
  (FileIdentity.own CHECKPOINT_MAGIC format historyId).write ++ (writeSigned 8 c.sequence ++
    (writeSigned 4 c.slots.length ++ (writeSigned 4 (c.slots.countP Option.isSome) ++
      (writeSigned 4 c.indexes.length ++ (c.indexes.flatMap writtenIndex ++
        (writeSigned 4 c.slots.length ++ c.slots.flatMap writtenSlot))))))

end Content

section

variable (setup : Setup K ops)

/-- The bytes of a slot are those that the codec has for its key and its document. -/
structure Slot.Decodes (slot : Slot K T) : Prop where
  keyLength : slot.keyBytes.length ≤ setup.config.maxEncodedKeyBytes
  documentLength : slot.documentBytes.length ≤ setup.config.maxEncodedDocumentBytes
  key : setup.codec.decodeKey slot.keyBytes = some slot.key
  document : setup.codec.decodeDocument slot.documentBytes = some slot.document
  keyAgain : setup.codec.encodeKey slot.key = some slot.keyBytes
  documentAgain : setup.codec.encodeDocument slot.document = some slot.documentBytes
  named : slot.key = setup.idOf slot.document

/-- An index whose texts can be read back. -/
def Readable (index : DurableIndexDescriptor) : Prop :=
  Spelled 1024 false index.fieldName ∧ Spelled 128 true index.analyzerId

/-- Two slots do not have the same key. -/
def Apart (slot slot' : Option (Slot K T)) : Prop :=
  ∀ live ∈ slot, ∀ live' ∈ slot', live.key ≠ live'.key

/-- The content that `read` accepts in a file. -/
structure Content.Valid (contentBytes : ℕ) (c : Content K T) : Prop where
  sequence : c.sequence ≤ maxSequence
  nextDocId : c.slots.length ≤ maxDocId ∧ c.slots.length ≤ contentBytes
  liveDocuments : c.slots.countP Option.isSome ≤ min c.slots.length setup.config.maxDocuments
  indexCount : c.indexes.length ≤ MAX_INDEXES
  readable : ∀ index ∈ c.indexes, Readable index
  distinct : c.indexes.Nodup
  decodes : ∀ slot ∈ c.slots, ∀ live ∈ slot, live.Decodes setup
  apart : c.slots.Pairwise Apart

end

/-- The bounds that the configuration has on the bytes of keys and documents. -/
structure Bounds (config : StorageConfig) : Prop where
  key : config.maxEncodedKeyBytes ≤ 64 * 1024 * 1024
  document : config.maxEncodedDocumentBytes ≤ 256 * 1024 * 1024

/-! ### Reading -/

section

variable {setup : Setup K ops}

omit [DecidableEq K] in
theorem decodeKey_eq_ok {encoded : Bytes} {sequence : ℕ} {key : K} :
    decodeKey setup encoded sequence = .ok key ↔
      setup.codec.decodeKey encoded = some key ∧ setup.codec.encodeKey key = some encoded := by
  unfold decodeKey
  cases hdecode : setup.codec.decodeKey encoded with
  | none => simp
  | some decoded =>
    dsimp only
    constructor
    · intro h
      split at h
      · cases h
        exact ⟨rfl, by assumption⟩
      · cases h
    · rintro ⟨⟨⟩, hencode⟩
      rw [if_pos hencode]

theorem decodeDocument_eq_ok {key : K} {encoded : Bytes} {sequence : ℕ} {document : T} :
    decodeDocument setup key encoded sequence = .ok document ↔
      setup.codec.decodeDocument encoded = some document ∧ key = setup.idOf document ∧
        setup.codec.encodeDocument document = some encoded := by
  unfold decodeDocument
  cases hdecode : setup.codec.decodeDocument encoded with
  | none => simp
  | some decoded =>
    dsimp only
    constructor
    · intro h
      split at h
      · cases h
        exact ⟨rfl, by assumption⟩
      · cases h
    · rintro ⟨⟨⟩, hsame⟩
      rw [if_pos hsame]

theorem exact_readIndex : Exact readIndex fun index w => Readable index ∧ w = writtenIndex index := by
  refine ((exact_byte (input truncated)).bind_of fun kind _ _ =>
    (exact_readString truncated (by decide) false _).field fun fieldName _ =>
      (exact_readString truncated (by decide) true _).field fun analyzerId _ =>
        exact_lift _).congr fun index w => ?_
  constructor
  · rintro ⟨kind, _, _, ⟨-, rfl⟩, ⟨fieldName, hfield, _, ⟨analyzerId, hanalyzer, _, ⟨hmake, rfl⟩,
      rfl⟩, rfl⟩, rfl⟩
    obtain ⟨rfl, rfl, rfl⟩ := DurableIndexDescriptor.make_eq_some (required_eq_ok.mp hmake)
    exact ⟨⟨hfield, hanalyzer⟩, by simp [writtenIndex]⟩
  · rintro ⟨⟨hfield, hanalyzer⟩, rfl⟩
    exact ⟨index.kind, _, _, ⟨trivial, rfl⟩, ⟨_, hfield, _, ⟨_, hanalyzer, _,
      ⟨required_eq_ok.mpr index.make_self, rfl⟩, rfl⟩, rfl⟩, by simp [writtenIndex]⟩

theorem exact_indexStep (indexes : List DurableIndexDescriptor) :
    Exact (indexStep indexes) fun indexes' w => ∃ index, (Readable index ∧ index ∉ indexes) ∧
      indexes' = indexes ++ [index] ∧ w = writtenIndex index := by
  refine Exact.congr (exact_readIndex.field fun index _ => .check fun _ => exact_pure _)
    fun indexes' w => ?_
  constructor
  · rintro ⟨index, hreadable, _, ⟨hnew, rfl, rfl⟩, rfl⟩
    exact ⟨index, ⟨hreadable, hnew⟩, rfl, List.append_nil _⟩
  · rintro ⟨index, ⟨hreadable, hnew⟩, rfl, rfl⟩
    exact ⟨index, hreadable, [], ⟨hnew, rfl, rfl⟩, (List.append_nil _).symm⟩

/-- The indexes that the loop over them takes. -/
theorem takes_indexes {indexes : List DurableIndexDescriptor} :
    Takes (fun t index => Readable index ∧ index ∉ t) (fun t index => t ++ [index]) [] indexes ↔
      (∀ index ∈ indexes, Readable index) ∧ indexes.Nodup := by
  rw [takes_iff_pairwise (R := fun i j => i ≠ j)]
  · simp [List.Nodup]
  · intro t i _ j
    simp only [List.mem_append, List.mem_singleton, not_or]
    tauto

theorem foldl_indexes (t indexes : List DurableIndexDescriptor) :
    indexes.foldl (fun t index => t ++ [index]) t = t ++ indexes := by
  induction indexes generalizing t with
  | nil => exact (List.append_nil t).symm
  | cons index indexes ih => rw [List.foldl_cons, ih, List.append_assoc, List.singleton_append]

/-- The variables of the loop behind one more slot. -/
def ReadLoop.next (t : ReadLoop K T) : Option (Slot K T) → ReadLoop K T
  | none => { t with docId := t.docId + 1, slots := t.slots ++ [none] }
  | some live => {
      docId := t.docId + 1
      slots := t.slots ++ [some live.document]
      documentIds := Function.update t.documentIds live.key (some t.docId)
      decodedLive := t.decodedLive + 1 }

/-- A slot that the loop takes. -/
def ReadLoop.Fine (setup : Setup K ops) (t : ReadLoop K T) (slot : Option (Slot K T)) : Prop :=
  ∀ live ∈ slot, live.Decodes setup ∧ t.documentIds live.key = none

theorem exact_readSlot (bounds : Bounds setup.config) (sequence : ℕ) (t : ReadLoop K T) :
    Exact (readSlot setup sequence t) fun t' w => ∃ slot, t.Fine setup slot ∧ t' = t.next slot ∧
      w = writtenSlot slot := by
  have hkey : setup.config.maxEncodedKeyBytes < 2147483648 := by have := bounds.key; omega
  have hdocument : setup.config.maxEncodedDocumentBytes < 2147483648 := by
    have := bounds.document
    omega
  refine Exact.congr ((exact_byte (input truncated)).bind (S := fun state t' w =>
    ∃ slot, t.Fine setup slot ∧ t' = t.next slot ∧ [state] ++ w = writtenSlot slot)
      fun state => ?_) fun t' w => ?_
  · split
    · next hzero =>
      subst hzero
      refine (exact_pure _).congr fun t' w => ?_
      constructor
      · rintro ⟨rfl, rfl⟩
        exact ⟨none, nofun, rfl, rfl⟩
      · rintro ⟨slot, -, rfl, hw⟩
        cases slot with
        | none => exact ⟨rfl, List.append_cancel_left hw⟩
        | some live => cases hw
    · refine Exact.congr (.check fun _ => (exact_readBytes _ hkey _ _).field fun _ _ =>
        (exact_readBytes _ hdocument _ _).field fun _ _ => .lift fun _ _ => .lift fun _ _ =>
          .check fun _ => exact_pure _) fun t' w => ?_
      constructor
      · rintro ⟨hone, keyBytes, hkeyBytes, _, ⟨documentBytes, hdocumentBytes, _, ⟨key, hkey,
          document, hdocument, hnew, rfl, rfl⟩, rfl⟩, rfl⟩
        obtain ⟨hdecodeKey, hencodeKey⟩ := decodeKey_eq_ok.mp hkey
        obtain ⟨hdecode, hnamed, hencode⟩ := decodeDocument_eq_ok.mp hdocument
        refine ⟨some ⟨keyBytes, documentBytes, key, document⟩, ?_, rfl, ?_⟩
        · rintro _ ⟨⟩
          exact ⟨⟨hkeyBytes.1, hdocumentBytes.1, hdecodeKey, hdecode, hencodeKey, hencode, hnamed⟩,
            not_not.mp hnew⟩
        · rw [not_not.mp hone, List.append_nil]
          rfl
      · rintro ⟨slot, hfine, rfl, hw⟩
        cases slot with
        | none =>
          obtain ⟨rfl, -⟩ := List.cons.inj hw
          exact absurd rfl ‹¬_›
        | some live =>
          obtain ⟨rfl, rfl⟩ := List.cons.inj hw
          obtain ⟨hdecodes, hnew⟩ := hfine live rfl
          exact ⟨fun h => h rfl, _, ⟨hdecodes.keyLength, nofun⟩, _, ⟨_, ⟨hdecodes.documentLength,
            nofun⟩, [], ⟨_, decodeKey_eq_ok.mpr ⟨hdecodes.key, hdecodes.keyAgain⟩, _,
            decodeDocument_eq_ok.mpr ⟨hdecodes.document, hdecodes.named, hdecodes.documentAgain⟩,
            fun h => h hnew, rfl, rfl⟩, (List.append_nil _).symm⟩, rfl⟩
  · constructor
    · rintro ⟨state, _, w, ⟨-, rfl⟩, ⟨slot, hfine, rfl, hw⟩, rfl⟩
      exact ⟨slot, hfine, rfl, hw⟩
    · rintro ⟨slot, hfine, rfl, rfl⟩
      cases slot with
      | none => exact ⟨0, _, [], ⟨trivial, rfl⟩, ⟨none, hfine, rfl, rfl⟩, rfl⟩
      | some live => exact ⟨1, _, _, ⟨trivial, rfl⟩, ⟨some live, hfine, rfl, rfl⟩, rfl⟩

/-- A key is at one place at most, so that the last place is the first one. -/
theorem ReadLoop.next_of {slots : List (Option (Slot K T))} {slot : Option (Slot K T)}
    (hfine : (ReadLoop.of slots).Fine setup slot) :
    (ReadLoop.of slots).next slot = ReadLoop.of (slots ++ [slot]) := by
  cases slot with
  | none => simp [ReadLoop.next, ReadLoop.of, List.findIdx?_append]
  | some live =>
    obtain ⟨-, hnew⟩ := hfine live rfl
    simp only [ReadLoop.next, ReadLoop.of, ReadLoop.mk.injEq, List.length_append, List.length_cons,
      List.length_nil, List.map_append, List.map_cons, List.map_nil, Option.map_some,
      List.countP_append, List.countP_cons, List.countP_nil, Option.isSome_some, if_true, true_and,
      Nat.zero_add, and_true]
    funext key
    rw [List.findIdx?_append]
    by_cases hkey : key = live.key
    · subst hkey
      have hnew : slots.findIdx? (fun slot => decide (slot.map Slot.key = some live.key)) = none :=
        hnew
      rw [Function.update_self, hnew]
      simp
    · rw [Function.update_of_ne hkey]
      simp [Ne.symm hkey]

/-- The slots that the loop over them takes. -/
theorem takes_slots {slots : List (Option (Slot K T))} :
    Takes (ReadLoop.Fine setup) ReadLoop.next .start slots ↔
      (∀ slot ∈ slots, ∀ live ∈ slot, live.Decodes setup) ∧ slots.Pairwise Apart := by
  rw [takes_iff_pairwise (R := Apart)]
  · simp [ReadLoop.Fine, ReadLoop.start]
  · intro t slot _ slot'
    cases slot with
    | none => simp [ReadLoop.Fine, ReadLoop.next, Apart]
    | some live =>
      simp only [ReadLoop.Fine, ReadLoop.next, Apart, Option.mem_some_iff, forall_eq',
        Function.update_apply]
      constructor
      · intro h
        refine ⟨fun live' hlive' => ⟨(h live' hlive').1, ?_⟩, fun live' hlive' hsame => ?_⟩
        · have hnone := (h live' hlive').2
          split at hnone
          · cases hnone
          · exact hnone
        · have hnone := (h live' hlive').2
          rw [if_pos hsame.symm] at hnone
          cases hnone
      · rintro ⟨h, hapart⟩ live' hlive'
        rw [if_neg (hapart live' hlive').symm]
        exact h live' hlive'

theorem foldl_slots {slots taken : List (Option (Slot K T))}
    (h : Takes (ReadLoop.Fine setup) ReadLoop.next (ReadLoop.of taken) slots) :
    slots.foldl ReadLoop.next (ReadLoop.of taken) = ReadLoop.of (taken ++ slots) := by
  induction slots generalizing taken with
  | nil => rw [List.append_nil, List.foldl_nil]
  | cons slot slots ih =>
    obtain ⟨hfine, hrest⟩ := h
    rw [ReadLoop.next_of hfine] at hrest
    rw [List.foldl_cons, ReadLoop.next_of hfine, ih hrest, List.append_assoc, List.singleton_append]

variable {format : WalFormat} {historyId : HistoryId}

theorem foldl_slots_start {slots : List (Option (Slot K T))}
    (h : Takes (ReadLoop.Fine setup) ReadLoop.next .start slots) :
    slots.foldl ReadLoop.next .start = ReadLoop.of slots := by
  show slots.foldl ReadLoop.next (ReadLoop.of []) = ReadLoop.of ([] ++ slots)
  exact foldl_slots h

/-- `readContent` accepts the bytes of valid content with the sequence of the manifest. -/
theorem exact_readContent (bounds : Bounds setup.config) (expectedManifest : Option Manifest)
    (contentBytes : ℕ) :
    Exact (readContent setup format historyId expectedManifest contentBytes) fun loaded w =>
      ∃ c : Content K T, (c.Valid setup contentBytes ∧
        ∀ manifest ∈ expectedManifest, manifest.checkpointSequence = c.sequence) ∧
        loaded = c.loaded ∧ w = c.write format historyId := by
  refine Exact.congr ((exact_readIdentity truncated format).field fun identity _ =>
    (exact_signed (input truncated) 8).field fun sequence _ =>
    (exact_signed (input truncated) 4).field fun nextDocId _ =>
    (exact_signed (input truncated) 4).field fun liveDocuments _ =>
    (exact_signed (input truncated) 4).field fun indexCount _ => .check fun _ => .check fun _ =>
    .loop exact_indexStep (by omega) fun indexes _ _ =>
    (exact_signed (input truncated) 4).field fun slotCount _ => .check fun _ =>
    .loop (exact_readSlot bounds _) (by omega) fun slots _ _ => .check fun _ => exact_pure _)
    fun loaded w => ?_
  constructor
  · rintro ⟨identity, -, _, ⟨sequence, hsequence, _, ⟨nextDocId, hnextDocId, _, ⟨liveDocuments, -, _,
      ⟨indexCount, -, _, ⟨hheader, hmanifest, indexes, rfl, hindexes, _, ⟨slotCount, -, _,
      ⟨hslotCount, slots, rfl, hslots, _, ⟨hlive, rfl, rfl⟩, rfl⟩, rfl⟩, rfl⟩, rfl⟩, rfl⟩, rfl⟩,
      rfl⟩, rfl⟩
    obtain ⟨hreadable, hdistinct⟩ := takes_indexes.mp hindexes
    obtain ⟨hdecodes, hapart⟩ := takes_slots.mp hslots
    rw [foldl_slots_start hslots] at hlive
    simp only [not_or, not_lt] at hheader
    obtain ⟨hidentity, hpositive, -, hcontent, -, hlimit, -, hcount⟩ := hheader
    rw [FileIdentity.not_foreign] at hidentity
    rw [signed_eight] at hsequence
    rw [signed_four] at hnextDocId
    obtain rfl := not_not.mp hslotCount
    obtain rfl := not_not.mp hlive
    obtain ⟨sequence, rfl⟩ := Int.eq_ofNat_of_zero_le hpositive
    have hlimit' : slots.countP Option.isSome ≤ min slots.length setup.config.maxDocuments := by
      have hlive : (slots.countP Option.isSome : ℤ) ≤ min (slots.length : ℤ) setup.config.maxDocuments :=
        hlimit
      omega
    refine ⟨⟨sequence, indexes, slots⟩, ⟨⟨?_, ⟨?_, by exact_mod_cast hcontent⟩, hlimit', by exact_mod_cast hcount, hreadable, hdistinct, hdecodes, hapart⟩,
      fun manifest hmember => ?_⟩, ?_, ?_⟩
    · unfold maxSequence
      dsimp only
      omega
    · unfold maxDocId
      dsimp only
      omega
    · by_contra hother
      exact hmanifest ⟨manifest, hmember, fun heq => hother heq.symm⟩
    · rw [foldl_slots_start hslots, foldl_indexes]
      rfl
    · subst hidentity
      rw [List.append_nil]
      rfl
  · rintro ⟨c, ⟨h, hmanifest⟩, rfl, rfl⟩
    have hindexes := takes_indexes.mpr ⟨h.readable, h.distinct⟩
    have hslots := takes_slots.mpr ⟨h.decodes, h.apart⟩
    have hlive : (c.slots.countP Option.isSome : ℤ) ≤ maxDocId := by
      have := (List.countP_le_length (p := Option.isSome) (l := c.slots)).trans h.nextDocId.1
      exact_mod_cast this
    have hcount : (c.indexes.length : ℤ) ≤ MAX_INDEXES := by exact_mod_cast h.indexCount
    have hmagic : Signed 8 CHECKPOINT_MAGIC := signed_eight.mpr (by simp [CHECKPOINT_MAGIC])
    refine ⟨_, FileIdentity.valid_own hmagic format historyId, _,
      ⟨(c.sequence : ℕ), signed_eight_nat h.sequence, _, ⟨(c.slots.length : ℕ),
      signed_four_nat h.nextDocId.1, _, ⟨(c.slots.countP Option.isSome : ℕ), ?_, _,
      ⟨(c.indexes.length : ℕ), ?_, _, ⟨?_, ?_, c.indexes, rfl, hindexes, _,
      ⟨(c.slots.length : ℕ), signed_four_nat h.nextDocId.1, _, ⟨fun hne => hne rfl, c.slots, rfl,
      hslots, [], ⟨?_, ?_, rfl⟩, rfl⟩, rfl⟩, rfl⟩, rfl⟩, rfl⟩, rfl⟩, rfl⟩, ?_⟩
    · unfold maxDocId at hlive
      exact signed_four.mpr (by omega)
    · unfold MAX_INDEXES at hcount
      exact signed_four.mpr (by omega)
    · have hlimits := h.liveDocuments
      have hcontent := h.nextDocId.2
      rw [not_or]
      exact ⟨FileIdentity.not_foreign.mpr rfl, by omega⟩
    · rintro ⟨manifest, hmember, hother⟩
      exact hother (hmanifest manifest hmember).symm
    · rw [foldl_slots_start hslots]
      exact fun hne => hne rfl
    · rw [foldl_slots_start hslots, foldl_indexes]
      rfl
    · rw [List.append_nil]
      rfl

/-- A manifest names a file with its size, its sequence and its checksum. -/
structure Manifest.Describes (manifest : Manifest) (fileName : JavaString) (sequence : ℕ)
    (file : Bytes) : Prop where
  fileName : fileName = manifest.checkpointFile
  bytes : (file.length : ℤ) = manifest.checkpointBytes
  sequence : manifest.checkpointSequence = sequence
  checksum : DurableWal.checksum (file.take (file.length - 4)) = manifest.checkpointChecksum

/-- `read` accepts the files of valid content that the manifest describes, and no others. -/
theorem read_eq_ok (bounds : Bounds setup.config) {expectedManifest : Option Manifest}
    {fileName : JavaString} {file : Bytes} {loaded : Loaded K T} :
    read setup format historyId expectedManifest fileName file = .ok loaded ↔
      (checkpointFixedBytes format ≤ file.length ∧ file.length ≤ setup.config.maxRetainedBytes) ∧
        ∃ c : Content K T, c.Valid setup (file.length - 4) ∧
          (∀ manifest ∈ expectedManifest, manifest.Describes fileName c.sequence file) ∧
          loaded = c.loaded ∧ file = finish (c.write format historyId) := by
  simp only [read, Lib.bind_eq_ok, reject_eq_ok, exists_const, Prod.exists]
  have hlong : checkpointFixedBytes format ≤ file.length → 4 ≤ file.length := by
    unfold checkpointFixedBytes
    split <;> omega
  constructor
  · rintro ⟨hsize, hmanifest, a, remaining, hcontent, hend, stored, rest, htrailer, hchecksum, hloaded⟩
    obtain rfl := Except.ok.inj hloaded
    rw [not_or, not_lt, not_lt] at hsize
    obtain rfl := not_not.mp hend
    obtain ⟨c, ⟨hvalid, hsequence⟩, rfl, hwritten⟩ :=
      (exact_readContent bounds expectedManifest _).whole.mp hcontent
    obtain ⟨⟨-, hfile⟩, -⟩ := (readTrailer_eq_ok (hlong hsize.1)).mp htrailer
    rw [not_or, not_not] at hchecksum
    obtain ⟨rfl, hstored⟩ := hchecksum
    refine ⟨hsize, c, hvalid, fun manifest hmember => ⟨?_, ?_, hsequence manifest hmember, ?_⟩, rfl,
      ?_⟩
    · by_contra hother
      exact hmanifest ⟨manifest, hmember, .inr hother⟩
    · by_contra hother
      exact hmanifest ⟨manifest, hmember, .inl hother⟩
    · by_contra hother
      exact hstored ⟨manifest, hmember, hother⟩
    · rw [hwritten] at hfile
      exact hfile
  · rintro ⟨hsize, c, hvalid, hdescribes, rfl, hfile⟩
    have htake : file.take (file.length - 4) = c.write format historyId := by
      rw [hfile]
      exact take_finish _
    refine ⟨by omega, ?_, c.loaded, [], ?_, fun hne => hne rfl, checksum (c.write format historyId),
      [], ?_, ?_, rfl⟩
    · rintro ⟨manifest, hmember, hother⟩
      have h := hdescribes manifest hmember
      exact hother.elim (fun hne => hne h.bytes) fun hne => hne h.fileName
    · rw [htake]
      exact (exact_readContent bounds expectedManifest _).whole.mpr
        ⟨c, ⟨hvalid, fun manifest hmember => (hdescribes manifest hmember).sequence⟩, rfl, rfl⟩
    · rw [readTrailer_eq_ok (hlong hsize.1), htake]
      exact ⟨⟨signed_checksum _, hfile⟩, rfl⟩
    · rw [htake, not_or]
      refine ⟨fun hne => hne rfl, ?_⟩
      rintro ⟨manifest, hmember, hother⟩
      rw [← (hdescribes manifest hmember).checksum, htake] at hother
      exact hother rfl

/-- What can be read back is read again with a manifest that describes it. -/
theorem read_described (bounds : Bounds setup.config) {manifest : Manifest} {fileName : JavaString}
    {file : Bytes} {loaded : Loaded K T}
    (h : read setup format historyId none fileName file = .ok loaded)
    (hmanifest : manifest.Describes fileName loaded.sequence file) :
    read setup format historyId (some manifest) fileName file = .ok loaded := by
  obtain ⟨hsize, c, hvalid, -, rfl, hfile⟩ := (read_eq_ok bounds).mp h
  refine (read_eq_ok bounds).mpr ⟨hsize, c, hvalid, fun m hm => ?_, rfl, hfile⟩
  obtain rfl := Option.some.inj hm
  exact hmanifest

/-! ### Writing -/

variable (setup) in
/-- The slot that `writeContent` writes for a document id. -/
inductive Captures (capture : Capture K T ops.Index) (docId : ℕ) : Option (Slot K T) → Prop where
  | none (hget : capture.snapshot.get docId = none) : Captures capture docId none
  | live {document decoded : T} {keyBytes documentBytes : Bytes}
      (hget : capture.snapshot.get docId = some document)
      (hid : capture.documentIds.lookup (setup.idOf document) = some docId)
      (hkey : Durable.canonicalKey setup (setup.idOf document) = .ok keyBytes)
      (hdocument : Durable.canonicalDocument setup (setup.idOf document) document =
        .ok documentBytes)
      (hdecoded : setup.codec.decodeDocument documentBytes = some decoded) :
      Captures capture docId (some ⟨keyBytes, documentBytes, setup.idOf document, decoded⟩)

variable (setup) in
/-- The content that `writeContent` writes for a capture. -/
structure Capture.Lists (capture : Capture K T ops.Index) (c : Content K T) : Prop where
  sequence : c.sequence = capture.sequence
  indexes : c.indexes = capture.indexes
  nextDocId : c.slots.length = capture.nextDocId
  slots : ∀ (docId : ℕ) (slot : Option (Slot K T)), c.slots[docId]? = some slot →
    Captures setup capture docId slot
  liveDocuments : c.slots.countP Option.isSome = capture.snapshot.activeDocuments.card
  keys : capture.documentIds.entries.length = capture.snapshot.activeDocuments.card

def WriteLoop.next (t : WriteLoop) (slot : Option (Slot K T)) : WriteLoop :=
  ⟨t.docId + 1, t.writtenLive + if slot.isSome then 1 else 0⟩

theorem canonicalKey_eq_ok {key : K} {bytes : Bytes} :
    canonicalKey setup key = .ok bytes ↔ Durable.canonicalKey setup key = .ok bytes := by
  unfold canonicalKey
  cases Durable.canonicalKey setup key <;> simp [Except.mapError]

theorem canonicalDocument_eq_ok {key : K} {document : T} {bytes : Bytes} :
    canonicalDocument setup key document = .ok bytes ↔
      Durable.canonicalDocument setup key document = .ok bytes := by
  unfold canonicalDocument
  cases Durable.canonicalDocument setup key document <;> simp [Except.mapError]

theorem exact_write {maximum : ℕ} (bytes : Bytes) :
    Exact (write bytes : Writer maximum Unit) fun _ w => True ∧ w = bytes :=
  exact_put _ bytes

theorem exact_writeSlot {maximum : ℕ} (capture : Capture K T ops.Index) (t : WriteLoop) :
    Exact (writeSlot setup capture t : Writer maximum WriteLoop) fun t' w =>
      ∃ slot, Captures setup capture t.docId slot ∧ t' = t.next slot ∧ w = writtenSlot slot := by
  unfold writeSlot
  split
  · next hget =>
    refine ((exact_write [0]).bind fun _ => exact_pure _).congr fun t' w => ?_
    constructor
    · rintro ⟨_, _, _, ⟨-, rfl⟩, ⟨rfl, rfl⟩, rfl⟩
      exact ⟨none, .none hget, rfl, rfl⟩
    · rintro ⟨slot, hslot, rfl, rfl⟩
      cases hslot with
      | none => exact ⟨(), [0], [], ⟨trivial, rfl⟩, ⟨rfl, rfl⟩, rfl⟩
      | live hlive =>
        rw [hget] at hlive
        cases hlive
  · next document hget =>
    refine ((exact_write [1]).bind fun _ => .check fun _ => .lift fun keyBytes _ =>
      .lift fun documentBytes _ => (exact_write (writeBlock keyBytes)).bind fun _ =>
        (exact_write (writeBlock documentBytes)).bind fun _ => exact_pure _).congr fun t' w => ?_
    constructor
    · rintro ⟨_, _, _, ⟨-, rfl⟩, ⟨hid, keyBytes, hkey, documentBytes, hdocument, _, _, _, ⟨-, rfl⟩,
        ⟨_, _, _, ⟨-, rfl⟩, ⟨rfl, rfl⟩, rfl⟩, rfl⟩, rfl⟩
      have hcanonical := canonicalDocument_eq_ok.mp hdocument
      obtain ⟨-, decoded, hdecoded, -⟩ := canonicalDocument_ok hcanonical
      exact ⟨_, .live hget (not_not.mp hid) (canonicalKey_eq_ok.mp hkey) hcanonical hdecoded, rfl,
        by simp [writtenSlot]⟩
    · rintro ⟨slot, hslot, rfl, rfl⟩
      cases hslot with
      | none hnone =>
        rw [hget] at hnone
        cases hnone
      | live hlive hid hkey hdocument hdecoded =>
        obtain rfl := Option.some.inj (hget.symm.trans hlive)
        exact ⟨(), _, _, ⟨trivial, rfl⟩, ⟨fun hne => hne hid, _, canonicalKey_eq_ok.mpr hkey, _,
          canonicalDocument_eq_ok.mpr hdocument, (), _, _, ⟨trivial, rfl⟩, ⟨(), _, [], ⟨trivial, rfl⟩,
          ⟨rfl, rfl⟩, rfl⟩, rfl⟩, by simp [writtenSlot]⟩

/-- The slots that the loop over the document ids writes. -/
theorem takes_captures {capture : Capture K T ops.Index} {t : WriteLoop}
    {slots : List (Option (Slot K T))} :
    Takes (fun (t : WriteLoop) slot => Captures setup capture t.docId slot) WriteLoop.next t slots ↔
      ∀ (i : ℕ) (slot : Option (Slot K T)), slots[i]? = some slot →
        Captures setup capture (t.docId + i) slot := by
  induction slots generalizing t with
  | nil => simp [Takes]
  | cons slot slots ih =>
    rw [Takes, ih]
    constructor
    · rintro ⟨hfirst, hrest⟩ i other hat
      cases i with
      | zero =>
        obtain rfl := Option.some.inj hat
        exact hfirst
      | succ i =>
        have := hrest i other hat
        rwa [WriteLoop.next, Nat.add_right_comm] at this
    · intro h
      refine ⟨h 0 slot rfl, fun i other hat => ?_⟩
      have := h (i + 1) other hat
      rwa [WriteLoop.next, Nat.add_right_comm]

omit [DecidableEq K] in
theorem foldl_writes (t : WriteLoop) (slots : List (Option (Slot K T))) :
    slots.foldl WriteLoop.next t =
      ⟨t.docId + slots.length, t.writtenLive + slots.countP Option.isSome⟩ := by
  induction slots generalizing t with
  | nil => rfl
  | cons slot slots ih =>
    rw [List.foldl_cons, ih, List.length_cons, List.countP_cons]
    simp only [WriteLoop.next, WriteLoop.mk.injEq]
    omega

/-- `writeContent` writes the bytes of the content that its capture lists. -/
theorem exact_writeContent {maximum : ℕ} (capture : Capture K T ops.Index) :
    Exact (writeContent setup format historyId capture : Writer maximum Unit) fun _ w =>
      ∃ c : Content K T, capture.Lists setup c ∧ w = c.write format historyId := by
  refine Exact.congr ((exact_write _).bind fun _ => (exact_write _).bind fun _ =>
    (exact_write _).bind fun _ => (exact_write _).bind fun _ => (exact_write _).bind fun _ =>
    (exact_forM (fun index => exact_write (writtenIndex index)) _).bind fun _ =>
    (exact_write _).bind fun _ => (exact_loop (exact_writeSlot capture) _ _).bind fun _ =>
    exact_refuse) fun _ w => ?_
  constructor
  · rintro ⟨_, _, _, ⟨-, rfl⟩, ⟨_, _, _, ⟨-, rfl⟩, ⟨_, _, _, ⟨-, rfl⟩, ⟨_, _, _, ⟨-, rfl⟩, ⟨_, _, _,
      ⟨-, rfl⟩, ⟨_, _, _, ⟨-, rfl⟩, ⟨_, _, _, ⟨-, rfl⟩, ⟨_, _, _, ⟨slots, hlength, htakes, rfl, rfl⟩,
      ⟨hcounts, rfl⟩, rfl⟩, rfl⟩, rfl⟩, rfl⟩, rfl⟩, rfl⟩, rfl⟩, rfl⟩
    rw [foldl_writes, not_or, not_not, not_not] at hcounts
    obtain ⟨hlive, hkeys⟩ := hcounts
    dsimp only at hlive
    rw [Nat.zero_add] at hlive
    refine ⟨⟨capture.sequence, capture.indexes, slots⟩, ⟨rfl, rfl, hlength, fun docId slot hat => ?_,
      hlive, hkeys⟩, ?_⟩
    · have := takes_captures.mp htakes docId slot hat
      rwa [Nat.zero_add] at this
    · unfold Content.write
      rw [hlive, hlength, List.append_nil]
  · rintro ⟨c, hc, rfl⟩
    have htakes : Takes (fun (t : WriteLoop) slot => Captures setup capture t.docId slot)
        WriteLoop.next ⟨0, 0⟩ c.slots :=
      takes_captures.mpr fun i slot hat => by rw [Nat.zero_add]; exact hc.slots i slot hat
    refine ⟨(), _, _, ⟨trivial, rfl⟩, ⟨(), _, _, ⟨trivial, rfl⟩, ⟨(), _, _, ⟨trivial, rfl⟩, ⟨(), _, _,
      ⟨trivial, rfl⟩, ⟨(), _, _, ⟨trivial, rfl⟩, ⟨⟨⟩, _, _, ⟨trivial, rfl⟩, ⟨(), _, _, ⟨trivial, rfl⟩,
      ⟨_, _, [], ⟨c.slots, hc.nextDocId, htakes, rfl, rfl⟩, ⟨?_, rfl⟩, rfl⟩, rfl⟩, rfl⟩, rfl⟩, rfl⟩,
      rfl⟩, rfl⟩, ?_⟩
    · rw [foldl_writes, not_or, not_not, not_not]
      refine ⟨?_, hc.keys⟩
      dsimp only
      rw [Nat.zero_add, hc.liveDocuments]
    · unfold Content.write
      rw [hc.sequence, hc.indexes, hc.nextDocId, hc.liveDocuments, List.append_nil]

/-- `write` writes the content of its capture with a checksum behind it, where its bound has room. -/
theorem writeFile_eq_ok {capture : Capture K T ops.Index} {maximumBytes : ℤ} {file : Bytes} :
    writeFile setup format historyId capture maximumBytes = .ok file ↔
      4 < maximumBytes ∧ ∃ c : Content K T, capture.Lists setup c ∧
        file = finish (c.write format historyId) ∧ file.length ≤ maximumBytes := by
  simp only [writeFile, Lib.bind_eq_ok, reject_eq_ok, exists_const, Prod.exists, not_le]
  refine and_congr_right fun hmaximum => ?_
  constructor
  · rintro ⟨u, content, hcontent, hfile⟩
    obtain rfl := Except.ok.inj hfile
    obtain ⟨c, hc, hwritten⟩ := (exact_writeContent capture).output.mp hcontent
    have hlength := content.property
    refine ⟨c, hc, by rw [hwritten], ?_⟩
    rw [length_finish]
    omega
  · rintro ⟨c, hc, rfl, hlength⟩
    rw [length_finish] at hlength
    have hroom : (c.write format historyId).length ≤ (maximumBytes - 4).toNat := by omega
    exact ⟨(), ⟨c.write format historyId, hroom⟩, (exact_writeContent capture).output.mpr
      ⟨c, hc, rfl⟩, rfl⟩

/-! ### Written and read back -/

theorem Captures.decodes {capture : Capture K T ops.Index} {docId : ℕ}
    {slot : Option (Slot K T)} (h : Captures setup capture docId slot) :
    ∀ live ∈ slot, live.Decodes setup := by
  cases h with
  | none => nofun
  | live hget hid hkey hdocument hdecoded =>
    rintro _ ⟨⟩
    obtain ⟨hkeyLength, hencodeKey, hdecodeKey⟩ := canonicalKey_ok hkey
    obtain ⟨hlength, decoded, hdecode, hnamed, hencode⟩ := canonicalDocument_ok hdocument
    obtain rfl := Option.some.inj (hdecode.symm.trans hdecoded)
    exact ⟨hkeyLength, hlength, hdecodeKey, hdecode, hencodeKey, hencode, hnamed.symm⟩

omit [DecidableEq K] in
/-- A live slot is determined by its document. -/
theorem Slot.Decodes.eq_of_document {live live' : Slot K T} (h : live.Decodes setup)
    (h' : live'.Decodes setup) (hdocument : live.document = live'.document) : live = live' := by
  have hkey : live.key = live'.key := by rw [h.named, h'.named, hdocument]
  have hkeyBytes := h.keyAgain
  rw [hkey, h'.keyAgain] at hkeyBytes
  have hdocumentBytes := h.documentAgain
  rw [hdocument, h'.documentAgain] at hdocumentBytes
  cases live
  cases live'
  simp_all

/-- The bytes of a slot in front of others have one reading. -/
theorem writtenSlot_unique (bounds : Bounds setup.config) {slot slot' : Option (Slot K T)}
    (h : ∀ live ∈ slot, live.Decodes setup) (h' : ∀ live ∈ slot', live.Decodes setup)
    {rest rest' : Bytes} (heq : writtenSlot slot ++ rest = writtenSlot slot' ++ rest') :
    slot = slot' ∧ rest = rest' := by
  obtain ⟨hnext, hrest⟩ := (exact_readSlot bounds 0 .start).unique
    ⟨slot, fun live hlive => ⟨h live hlive, rfl⟩, rfl, rfl⟩
    ⟨slot', fun live hlive => ⟨h' live hlive, rfl⟩, rfl, rfl⟩ heq
  refine ⟨?_, hrest⟩
  cases slot with
  | none =>
    cases slot' with
    | none => rfl
    | some live' => cases congrArg ReadLoop.decodedLive hnext
  | some live =>
    cases slot' with
    | none => cases congrArg ReadLoop.decodedLive hnext
    | some live' =>
      have hslots : [some live.document] = [some live'.document] := congrArg ReadLoop.slots hnext
      have hdocument : live.document = live'.document := by simpa using hslots
      rw [(h live rfl).eq_of_document (h' live' rfl) hdocument]

theorem writtenSlots_unique (bounds : Bounds setup.config) {slots slots' : List (Option (Slot K T))}
    (h : ∀ slot ∈ slots, ∀ live ∈ slot, live.Decodes setup)
    (h' : ∀ slot ∈ slots', ∀ live ∈ slot, live.Decodes setup)
    (hlength : slots.length = slots'.length)
    (heq : slots.flatMap writtenSlot = slots'.flatMap writtenSlot) : slots = slots' := by
  induction slots generalizing slots' with
  | nil => exact (List.length_eq_zero_iff.mp hlength.symm).symm
  | cons slot slots ih =>
    cases slots' with
    | nil => cases hlength
    | cons slot' slots' =>
      rw [List.flatMap_cons, List.flatMap_cons] at heq
      rw [List.forall_mem_cons] at h h'
      obtain ⟨rfl, hrest⟩ := writtenSlot_unique bounds h.1 h'.1 heq
      rw [ih h.2 h'.2 (Nat.succ.inj hlength) hrest]

theorem finish_injective {content content' : Bytes} (h : finish content = finish content') :
    content = content' := by
  rw [← take_finish content, ← take_finish content', h]

/-- A file has the content that its writer listed. -/
theorem Content.Valid.unique (bounds : Bounds setup.config) {contentBytes : ℕ} {c c' : Content K T}
    (h : c.Valid setup contentBytes) {capture : Capture K T ops.Index} (h' : capture.Lists setup c')
    (hsequence : c.sequence = capture.sequence) (hnextDocId : c.slots.length = capture.nextDocId)
    (hindexes : c.indexes = capture.indexes)
    (heq : finish (c.write format historyId) = finish (c'.write format historyId)) : c = c' := by
  have hwritten := finish_injective heq
  have hlength : c.slots.length = c'.slots.length := hnextDocId.trans h'.nextDocId.symm
  unfold Content.write at hwritten
  rw [hsequence, ← h'.sequence, hindexes, ← h'.indexes, hlength] at hwritten
  have htail := List.append_cancel_left (List.append_cancel_left (List.append_cancel_left hwritten))
  have hslots := (List.append_inj htail (by simp)).2
  have hslots' := List.append_cancel_left (List.append_cancel_left (List.append_cancel_left hslots))
  have hdecodes : ∀ slot ∈ c'.slots, ∀ live ∈ slot, live.Decodes setup := by
    intro slot hslot
    obtain ⟨docId, hat⟩ := List.getElem?_of_mem hslot
    exact (h'.slots docId slot hat).decodes
  have hsame := writtenSlots_unique bounds h.decodes hdecodes hlength hslots'
  cases c
  cases c'
  simp only at hsame hsequence hindexes
  rw [hsame, hsequence, hindexes]
  exact congrArg₂ (fun sequence indexes => Content.mk sequence indexes _) h'.sequence.symm
    h'.indexes.symm

/-! ### The checkpoint of a published state -/

variable (setup) in
/-- What the writer captures of a published state. -/
structure Capture.Of (current : PublishedState K T ops.Index) (sequence : ℕ)
    (capture : Capture K T ops.Index) : Prop where
  snapshot : capture.snapshot = current.snapshot
  documentIds : ∀ key, capture.documentIds.lookup key = current.documentIds key
  nextDocId : capture.nextDocId = current.nextDocId
  sequence : capture.sequence = sequence
  indexes : current.snapshot.indexes.map (fun index =>
    descriptorOf setup (ops.field index) (ops.kind index)) = capture.indexes.map some

/-- The comparison of `publishCheckpoint` of what it has written with the capture. -/
structure Validates (capture : Capture K T ops.Index) (loaded : Loaded K T) : Prop where
  sequence : loaded.sequence = capture.sequence
  nextDocId : loaded.nextDocId = capture.nextDocId
  documentIds : ∀ key, loaded.documentIds key = capture.documentIds.lookup key
  indexes : loaded.indexes = capture.indexes

theorem mapM_of_map {α β : Type} {f : α → Option β} {as : List α} {bs : List β}
    (h : as.map f = bs.map some) : as.mapM f = some bs := by
  induction as generalizing bs with
  | nil =>
    obtain rfl := List.map_eq_nil_iff.mp h.symm
    rfl
  | cons a as ih =>
    cases bs with
    | nil => cases h
    | cons b bs =>
      obtain ⟨hfirst, hrest⟩ := List.cons.inj h
      rw [List.mapM_cons, hfirst, ih hrest]
      rfl

theorem checkpointSlot_of_captures {current : PublishedState K T ops.Index} {sequence : ℕ}
    {capture : Capture K T ops.Index} (hof : capture.Of setup current sequence) {docId : ℕ}
    {slot : Option (Slot K T)} (h : Captures setup capture docId slot) :
    checkpointSlot setup current docId =
      some (slot.map fun live => (live.key, live.document)) := by
  unfold checkpointSlot
  cases h with
  | none hget =>
    rw [hof.snapshot] at hget
    rw [hget]
    rfl
  | live hget hid hkey hdocument hdecoded =>
    rw [hof.snapshot] at hget
    rw [hof.documentIds] at hid
    simp only [hget, hid, if_true, hkey, hdocument, hdecoded]
    rfl

omit [DecidableEq K] in
theorem checkpointIndex_of_readable {index : ops.Index} {descriptor : DurableIndexDescriptor}
    (h : descriptorOf setup (ops.field index) (ops.kind index) = some descriptor)
    (hreadable : Readable descriptor) : checkpointIndex setup index = some descriptor := by
  unfold checkpointIndex
  rw [h]
  simp only [bind, Option.bind_some, Utf8.decode_getBytes hreadable.1.1,
    Utf8.decode_getBytes hreadable.2.1]
  exact descriptor.make_self

/-- A checkpoint that was written, read back and compared is the one of the published state. -/
theorem checkpointOf_of_read (bounds : Bounds setup.config)
    {current : PublishedState K T ops.Index} {sequence : ℕ} {capture : Capture K T ops.Index}
    (hof : capture.Of setup current sequence) {maximumBytes : ℤ} {fileName : JavaString} {file : Bytes}
    {loaded : Loaded K T}
    (hwrite : writeFile setup format historyId capture maximumBytes = .ok file)
    (hread : read setup format historyId none fileName file = .ok loaded)
    (hvalidates : Validates capture loaded) : checkpointOf setup current sequence = some loaded := by
  obtain ⟨-, c, hvalid, -, rfl, hfile⟩ := (read_eq_ok bounds).mp hread
  obtain ⟨-, c', hlists, hfile', -⟩ := writeFile_eq_ok.mp hwrite
  obtain rfl := hvalid.unique bounds hlists hvalidates.sequence hvalidates.nextDocId
    hvalidates.indexes (hfile.symm.trans hfile')
  have hindexes : current.snapshot.indexes.mapM (checkpointIndex setup) = some c.indexes := by
    refine mapM_of_map (Eq.trans (List.map_congr_left fun index hindex => ?_)
      (hof.indexes.trans (by rw [hlists.indexes])))
    have hmem : descriptorOf setup (ops.field index) (ops.kind index) ∈
        capture.indexes.map some := hof.indexes ▸ List.mem_map_of_mem hindex
    obtain ⟨descriptor, hdescriptor, heq⟩ := List.mem_map.mp hmem
    rw [checkpointIndex_of_readable heq.symm
      (hvalid.readable descriptor (hlists.indexes ▸ hdescriptor)), heq]
  have hslots : (List.range current.nextDocId).mapM (checkpointSlot setup current) =
      some (c.slots.map (Option.map fun live => (live.key, live.document))) := by
    refine mapM_of_map (List.ext_getElem? fun docId => ?_)
    rw [← hof.nextDocId, ← hlists.nextDocId, List.getElem?_map, List.getElem?_map,
      List.getElem?_map]
    rcases Nat.lt_or_ge docId c.slots.length with hlt | hge
    · have hat := List.getElem?_eq_getElem hlt
      rw [List.getElem?_range hlt, hat, Option.map_some, Option.map_some, Option.map_some,
        checkpointSlot_of_captures hof (hlists.slots docId _ hat)]
    · rw [List.getElem?_eq_none hge, List.getElem?_eq_none (by rwa [List.length_range])]
      rfl
  unfold checkpointOf
  simp only [hindexes, hslots, bind, Option.bind_some, if_pos hvalid.distinct]
  rw [Content.loaded, ← hof.nextDocId, ← hlists.nextDocId, ← hof.sequence, ← hlists.sequence]
  simp [ReadLoop.of, List.map_map, List.findIdx?_map, List.countP_map, Function.comp_def]

end

end GeneralSearch.Durable.DurableCheckpoint
