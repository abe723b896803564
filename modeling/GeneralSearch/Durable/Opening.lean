import GeneralSearch.Durable.CheckpointContent
import GeneralSearch.Durable.GenerationRuns

/-! Opening a directory.  `DurableStorageOwner.open` checks its size, reads the manifest and opens the
logs; `DurableCommitCoordinator.open` reads the checkpoint of the manifest and replays the logs over
it. -/

namespace GeneralSearch.Durable

open GeneralSearch.Derived (reject reject_eq_ok)
open GeneralSearch.Durable.DurableCheckpoint (Manifest corrupt encodeManifest read readManifest
  readManifest_eq_ok required required_eq_ok)
open GeneralSearch.Durable.DurableWal (Boundary HistoryId LogFile Logs Opened Reachable Stops WalFormat
  WalMember openWals openWals_after_stop replayFrames)
open GeneralSearch.Engine GeneralSearch.Storage
open GeneralSearch.Utf8 (JavaString)

/-- What a manifest says of the log. -/
def DurableCheckpoint.Manifest.boundary (manifest : Manifest) : Boundary :=
  ⟨manifest.walGeneration.toNat, manifest.walFirstSequence.toNat⟩

/-- The files of a directory beside its logs: the manifest, the data of checkpoints under their names,
and the bytes of the metadata, of staging files and of derived files. -/
structure StorageFiles where
  manifest : Option Bytes
  checkpoints : List (JavaString × Bytes)
  otherBytes : ℕ

/-- `retainedBytes`. -/
def StorageFiles.retainedBytes (storage : StorageFiles) (members : List WalMember) : ℕ :=
  storage.otherBytes + storage.manifest.elim 0 List.length +
    (storage.checkpoints.map fun file => file.2.length).sum +
    (members.map fun member => member.content.length).sum

/-- `DurableStorageOwner.open` of an initialized directory whose metadata is that of the
configuration. -/
def openStorage (maxRetainedBytes : ℕ) (format : WalFormat) (historyId : HistoryId)
    (storage : StorageFiles) (members : List WalMember) :
    Except DurabilityException (Option Manifest × List Opened) := do
  reject (maxRetainedBytes < storage.retainedBytes members)
    ⟨.capacityExceeded, none, "initialized durable storage exceeds retained-byte limit"⟩
  let manifest ← storage.manifest.mapM (readManifest format historyId)
  reject (∃ m ∈ manifest, m.checkpointFile ∉ storage.checkpoints.map Prod.fst)
    (corrupt "authoritative checkpoint data file is missing")
  let opened ← openWals format historyId (manifest.map Manifest.boundary) members
  return (manifest, opened)

section

variable {K T : Type} [DecidableEq K] {ops : IndexOps T} (setup : Setup K ops) (format : WalFormat)
  (historyId : HistoryId)

/-- The checkpoint that a manifest names. -/
def loadCheckpoint (checkpoints : List (JavaString × Bytes)) (m : Manifest) :
    Except DurabilityException (Loaded K T) := do
  let file ← required (corrupt "authoritative checkpoint data file is missing")
    (checkpoints.lookup m.checkpointFile)
  read setup format historyId (some m) m.checkpointFile file

/-- `DurableCommitCoordinator.open`: the logs that are opened, and the state that they are replayed
to. -/
def openCoordinator (startupIndexes : List DurableIndexDescriptor) (storage : StorageFiles)
    (members : List WalMember) : Except DurabilityException (List Opened × ReplayState K T) := do
  let (manifest, opened) ← openStorage setup.config.maxRetainedBytes format historyId storage members
  let checkpoint ← manifest.mapM (loadCheckpoint setup format historyId storage.checkpoints)
  let frames ← replayFrames format historyId opened
  let state ← replay setup startupIndexes checkpoint frames
  return (opened, state)

end

section

variable {maxRetainedBytes : ℕ} {format : WalFormat} {historyId : HistoryId} {storage : StorageFiles}
  {members : List WalMember}

/-- The bytes of a manifest that is there are read. -/
theorem readManifests_eq_ok {encoded : Option Bytes} {manifest : Option Manifest} :
    encoded.mapM (readManifest format historyId) = .ok manifest ↔
      encoded = manifest.map (encodeManifest format historyId) := by
  cases encoded with
  | none =>
    show Except.ok none = Except.ok manifest ↔ _
    cases manifest <;> simp
  | some bytes =>
    show (readManifest format historyId bytes).map some = .ok manifest ↔ _
    cases manifest with
    | none => cases readManifest format historyId bytes <;> simp [Except.map]
    | some m =>
      rw [Option.map_some, Option.some.injEq, ← readManifest_eq_ok]
      cases readManifest format historyId bytes <;> simp [Except.map]

/-- The directories that are opened: those within the budget that have the data of their manifest and
whose logs are opened. -/
theorem openStorage_eq_ok {manifest : Option Manifest} {opened : List Opened} :
    openStorage maxRetainedBytes format historyId storage members = .ok (manifest, opened) ↔
      storage.retainedBytes members ≤ maxRetainedBytes ∧
        storage.manifest = manifest.map (encodeManifest format historyId) ∧
        (∀ m ∈ manifest, m.checkpointFile ∈ storage.checkpoints.map Prod.fst) ∧
        openWals format historyId (manifest.map Manifest.boundary) members = .ok opened := by
  simp only [openStorage, Lib.bind_eq_ok, reject_eq_ok, exists_const, readManifests_eq_ok]
  constructor
  · rintro ⟨hretained, _, hmanifest, hdata, opened', hopen, h⟩
    obtain ⟨rfl, rfl⟩ := Prod.mk.inj (Except.ok.inj h)
    refine ⟨not_lt.mp hretained, hmanifest, ?_, hopen⟩
    intro m hm
    by_contra hmissing
    exact hdata ⟨m, hm, hmissing⟩
  · rintro ⟨hretained, hmanifest, hdata, hopen⟩
    refine ⟨not_lt.mpr hretained, manifest, hmanifest, ?_, opened, hopen, rfl⟩
    rintro ⟨m, hm, hmissing⟩
    exact hmissing (hdata m hm)

theorem openStorage_of_error {manifest : Option Manifest} {e : DurabilityException}
    (hretained : storage.retainedBytes members ≤ maxRetainedBytes)
    (hmanifest : storage.manifest = manifest.map (encodeManifest format historyId))
    (hdata : ∀ m ∈ manifest, m.checkpointFile ∈ storage.checkpoints.map Prod.fst)
    (h : openWals format historyId (manifest.map Manifest.boundary) members = .error e) :
    openStorage maxRetainedBytes format historyId storage members = .error e := by
  have hmissing : ¬∃ m ∈ manifest, m.checkpointFile ∉ storage.checkpoints.map Prod.fst := by
    rintro ⟨m, hm, hmissing⟩
    exact hmissing (hdata m hm)
  simp only [openStorage, reject, not_lt.mpr hretained, if_false, readManifests_eq_ok.mpr hmanifest,
    bind, Except.bind, hmissing, h]

theorem openStorage_of_full (h : maxRetainedBytes < storage.retainedBytes members) :
    openStorage maxRetainedBytes format historyId storage members = .error
      ⟨.capacityExceeded, none, "initialized durable storage exceeds retained-byte limit"⟩ := by
  simp only [openStorage, reject, h, if_true, bind, Except.bind]

theorem loadCheckpoint_eq_ok {K T : Type} [DecidableEq K] {ops : IndexOps T} {setup : Setup K ops}
    {checkpoints : List (JavaString × Bytes)} {m : Manifest} {loaded : Loaded K T} :
    loadCheckpoint setup format historyId checkpoints m = .ok loaded ↔
      ∃ file, checkpoints.lookup m.checkpointFile = some file ∧
        read setup format historyId (some m) m.checkpointFile file = .ok loaded := by
  simp only [loadCheckpoint, Lib.bind_eq_ok, required_eq_ok]

/-- What an opening reads: a directory that is opened, the checkpoint of its manifest, and the frames
of its logs. -/
theorem openCoordinator_eq_ok {K T : Type} [DecidableEq K] {ops : IndexOps T} {setup : Setup K ops}
    {startupIndexes : List DurableIndexDescriptor} {opened : List Opened} {state : ReplayState K T} :
    openCoordinator setup format historyId startupIndexes storage members = .ok (opened, state) ↔
      ∃ manifest checkpoint frames,
        openStorage setup.config.maxRetainedBytes format historyId storage members =
          .ok (manifest, opened) ∧
        manifest.mapM (loadCheckpoint setup format historyId storage.checkpoints) = .ok checkpoint ∧
        replayFrames format historyId opened = .ok frames ∧
        replay setup startupIndexes checkpoint frames = .ok state := by
  simp only [openCoordinator, Lib.bind_eq_ok, Prod.exists]
  constructor
  · rintro ⟨manifest, opened', hopen, checkpoint, hload, frames, hframes, state', hreplay, h⟩
    obtain ⟨rfl, rfl⟩ := Prod.mk.inj (Except.ok.inj h)
    exact ⟨manifest, checkpoint, frames, hopen, hload, hframes, hreplay⟩
  · rintro ⟨manifest, checkpoint, frames, hopen, hload, hframes, hreplay⟩
    exact ⟨manifest, opened, hopen, checkpoint, hload, frames, hframes, state, hreplay, rfl⟩

/-- After a stop at any point of a run a directory beyond its budget is refused.  Within it the
directory is opened unless the header of its last log file was cut off.  What the log then replays has
consecutive sequences, was attempted, and has every frame that was acknowledged and is not behind the
boundary of the manifest. -/
theorem open_after_stop {d : Logs} {files : List LogFile} (hreachable : Reachable format historyId d)
    (hstops : Stops d.files files) (hspace : ∀ frame ∈ d.attempted, frame.sequence < maxSequence)
    {manifest : Option Manifest}
    (hmanifest : storage.manifest = manifest.map (encodeManifest format historyId))
    (hboundary : manifest.map Manifest.boundary = d.manifest)
    (hdata : ∀ m ∈ manifest, m.checkpointFile ∈ storage.checkpoints.map Prod.fst)
    (maxRetainedBytes : ℕ) :
    (maxRetainedBytes < storage.retainedBytes (files.map LogFile.member) →
      openStorage maxRetainedBytes format historyId storage (files.map LogFile.member) = .error
        ⟨.capacityExceeded, none, "initialized durable storage exceeds retained-byte limit"⟩) ∧
    (storage.retainedBytes (files.map LogFile.member) ≤ maxRetainedBytes →
      ((∃ f ∈ files.getLast?, f.file.content.length < format.walHeaderBytes) →
        ∃ e, openStorage maxRetainedBytes format historyId storage (files.map LogFile.member) =
          .error e ∧ e.reason = .corruptWal) ∧
      ((∀ f ∈ files.getLast?, format.walHeaderBytes ≤ f.file.content.length) →
        ∃ opened accepted first,
          openStorage maxRetainedBytes format historyId storage (files.map LogFile.member) =
            .ok (manifest, opened) ∧
          replayFrames format historyId opened = .ok accepted ∧
          accepted.map (·.sequence) = List.range' first accepted.length ∧
          (∀ frame ∈ accepted, frame ∈ d.attempted) ∧
          match d.manifest with
          | none => first = 1 ∧ ∀ frame ∈ d.acknowledged, frame ∈ accepted
          | some m => first ≤ m.walFirstSequence ∧
            ∀ frame ∈ d.acknowledged, m.walFirstSequence ≤ frame.sequence → frame ∈ accepted)) := by
  obtain ⟨hshort, hwhole⟩ := openWals_after_stop hreachable hstops hspace
  refine ⟨openStorage_of_full, fun hretained => ⟨fun hheader => ?_, fun hheader => ?_⟩⟩
  · obtain ⟨e, he, hreason⟩ := hshort hheader
    exact ⟨e, openStorage_of_error hretained hmanifest hdata (hboundary ▸ he), hreason⟩
  · obtain ⟨opened, accepted, first, hopen, hrest⟩ := hwhole hheader
    exact ⟨opened, accepted, first,
      openStorage_eq_ok.mpr ⟨hretained, hmanifest, hdata, hboundary ▸ hopen⟩, hrest⟩

end

section

open DurableWal (framesFrom frames Framed plainFormat)

def plainUnit : PreparedUnit := ⟨singleType, []⟩

/-- The manifest of a checkpoint at the sequence 1 with 60 bytes of data. -/
def plainManifest : Manifest :=
  ⟨1, Utf8.ofString "gse-checkpoint-00000000000000000001-0123456789abcdef0123456789abcdef.chk", 60, 7,
    2, 2, by decide +kernel⟩

/-- A log whose first frame is behind a checkpoint, with one more that was acknowledged and three
bytes of a third. -/
def publishedLogs : Logs where
  older := []
  last := ((LogFile.created plainFormat ⟨1, 2⟩ 2 2).write (frames plainFormat 2 [plainUnit])).force.write
    ((frames plainFormat 3 [plainUnit]).take 3)
  manifest := some ⟨2, 2⟩
  writer := none
  acknowledged := framesFrom 1 [plainUnit] ++ framesFrom 2 [plainUnit]
  attempted := framesFrom 1 [plainUnit] ++ framesFrom 2 [plainUnit] ++ framesFrom 3 [plainUnit]

/-- The file that a stop leaves when nothing of it is lost. -/
def publishedFound : LogFile :=
  ⟨2, 2, ⟨publishedLogs.last.file.content, publishedLogs.last.file.content.length, true⟩⟩

def publishedStorage : StorageFiles where
  manifest := some (encodeManifest plainFormat ⟨1, 2⟩ plainManifest)
  checkpoints := [(plainManifest.checkpointFile, List.replicate 60 0)]
  otherBytes := 200

theorem open_after_stop_published : ∃ opened accepted first,
    openStorage 1000 plainFormat ⟨1, 2⟩ publishedStorage [publishedFound.member] =
      .ok (some plainManifest, opened) ∧
    replayFrames plainFormat ⟨1, 2⟩ opened = .ok accepted ∧
    accepted.map (·.sequence) = List.range' first accepted.length ∧
    (∀ frame ∈ accepted, frame ∈ publishedLogs.attempted) ∧
    first ≤ 2 ∧ ∀ frame ∈ publishedLogs.acknowledged, 2 ≤ frame.sequence → frame ∈ accepted := by
  have hframed : ∀ unit ∈ [plainUnit], Framed unit := by
    intro unit hunit
    rw [List.mem_singleton.mp hunit]
    exact ⟨by decide, by decide⟩
  have hreachable : Reachable plainFormat ⟨1, 2⟩ publishedLogs := by
    have happended : Reachable plainFormat ⟨1, 2⟩ _ := .step .fresh (.append rfl hframed (by decide))
    have hcut := happended.step (.cut rfl (by decide) (by decide))
    have hpublished := hcut.step (.publish (List.mem_append_right _ List.mem_cons_self) rfl)
    have hdeleted := hpublished.step (.delete rfl rfl (by decide))
    have hagain := hdeleted.step (.append rfl hframed (by decide))
    exact hagain.step (.appendFails 3 rfl hframed (by decide))
  have hstops : Stops publishedLogs.files [publishedFound] :=
    .kept ⟨List.take_prefix _ _, List.prefix_rfl, rfl⟩ rfl rfl .nil
  have hspace : ∀ frame ∈ publishedLogs.attempted, frame.sequence < maxSequence := by decide
  have hretained : publishedStorage.retainedBytes [publishedFound.member] ≤ 1000 := by
    decide +kernel
  have hheader : ∀ f ∈ [publishedFound].getLast?,
      plainFormat.walHeaderBytes ≤ f.file.content.length := by
    intro f hf
    obtain rfl := Option.some.inj hf
    decide +kernel
  have hmanifest : publishedStorage.manifest =
      (some plainManifest).map (encodeManifest plainFormat ⟨1, 2⟩) := rfl
  exact ((open_after_stop hreachable hstops hspace hmanifest rfl (by decide) 1000).2
    hretained).2 hheader

end

end GeneralSearch.Durable
