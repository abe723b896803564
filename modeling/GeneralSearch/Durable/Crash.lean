import GeneralSearch.Durable.Groups
import GeneralSearch.Durable.History
import GeneralSearch.Durable.Opening

/-! The engine over its files.  The writer appends the groups of its tasks to the log, captures a
checkpoint and cuts the log; the executor writes the capture, reads it back and replaces the manifest;
covered generations are deleted, and a stop tears what was not forced.  A start reads the manifest, the
checkpoint that it names and the logs, and runs the engine over what it has recovered. -/

namespace GeneralSearch.Durable

open GeneralSearch.Storage GeneralSearch.Engine
open GeneralSearch.Utf8 (JavaString)
open DurableCheckpoint (Bounds Capture Content Manifest Validates checkpointOf_of_read encodeManifest
  finish read readManifest_eq_ok read_described read_eq_ok writeFile writeFile_eq_ok)
open DurableWal (WalFormat HistoryId Logs LogFile Opened Boundary Stops Held Found openWals
  replayFrames framesFrom)

/-- The engine, the captures that it has handed to the executor, the log files, the manifest, and the
data of checkpoints under their names.  Nothing reads the last three fields: what the data of the
manifest say, the mutations that stand, in order, and those of a group whose append was interrupted,
unit by unit. -/
structure DurableStore (K : Type) {T : Type} (ops : IndexOps T) where
  engine : DurableEngine K ops
  captures : List (Capture K T ops.Index)
  logs : Logs
  manifest : Option Bytes
  checkpoints : List (JavaString × Bytes)
  base : Option (Loaded K T)
  stands : List (SearchMutation K T)
  interrupted : List (List (SearchMutation K T))

variable {K T : Type} [DecidableEq K] {ops : IndexOps T}

section

variable (format : WalFormat) (historyId : HistoryId) (setup : Setup K ops)
  (startupIndexes : List DurableIndexDescriptor)

/-- The store over a fresh directory. -/
def DurableStore.fresh : Option (DurableStore K ops) :=
  (DurableEngine.fresh setup startupIndexes).map fun engine =>
    ⟨engine, [], .fresh format historyId, none, [], none, [], []⟩

/-- The engine whose coordinator has become terminal. -/
def DurableEngine.halted (s : DurableEngine K ops) : DurableEngine K ops :=
  { s with coordinator := { s.coordinator with terminal := true } }

/-- One step of the writer, of the checkpoint executor or of a start. -/
inductive DurableStore.Step : DurableStore K ops → DurableStore K ops → Prop where
  /-- A task of the writer: its group is appended and forced, and its futures complete. -/
  | task {s : DurableStore K ops} {task : Task setup} {next : ℕ} {units : List PreparedUnit}
      (hwriter : s.logs.writer = some next) (hwrites : task.writes)
      (hundisturbed : Undisturbed setup s.engine task)
      (hrunning : (s.engine.handle setup startupIndexes task).coordinator.terminal = false)
      (hunits : (s.engine.handle setup startupIndexes task).coordinator.frames =
        s.engine.coordinator.frames ++ sequenced next units) :
      Step s { s with
        engine := s.engine.handle setup startupIndexes task
        logs := { s.logs with
          last := (s.logs.last.write (DurableWal.frames format next units)).force
          writer := some (next + units.length)
          acknowledged := s.logs.acknowledged ++ framesFrom next units
          attempted := s.logs.attempted ++ framesFrom next units }
        stands := s.stands ++ s.engine.acknowledged setup task }
  /-- The append of such a group throws, or the process stops in it, with some bytes written. -/
  | interrupted {s : DurableStore K ops} {task : Task setup} {next : ℕ} {units : List PreparedUnit}
      (written : ℕ) (hwriter : s.logs.writer = some next) (hwrites : task.writes)
      (hundisturbed : Undisturbed setup s.engine task)
      (hunits : (s.engine.handle setup startupIndexes task).coordinator.frames =
        s.engine.coordinator.frames ++ sequenced next units) :
      Step s { s with
        engine := s.engine.halted
        logs := { s.logs with
          last := s.logs.last.write ((DurableWal.frames format next units).take written)
          writer := none
          attempted := s.logs.attempted ++ framesFrom next units }
        interrupted := s.engine.meanings setup task }
  /-- The writer becomes terminal without a write. -/
  | halt {s : DurableStore K ops} :
      Step s { s with engine := s.engine.halted, logs := { s.logs with writer := none } }
  /-- The writer captures a checkpoint and cuts the log. -/
  | checkpoint {s : DurableStore K ops} {next : ℕ} {capture : Capture K T ops.Index}
      (hwriter : s.logs.writer = some next) (hnext : next ≤ maxSequence)
      (hgeneration : s.logs.last.generation < maxSequence)
      (hundisturbed : Undisturbed setup s.engine (.checkpoint : Task setup))
      (hcapture : capture.Of setup s.engine.engine.current s.engine.coordinator.publishedSequence) :
      Step s { s with
        engine := s.engine.handle setup startupIndexes .checkpoint
        captures := capture :: s.captures
        logs := { s.logs with
          older := s.logs.older ++ [s.logs.last.force]
          last := .created format historyId (s.logs.last.generation + 1) next } }
  /-- The cut throws in `create`, with some bytes of the header written. -/
  | cutFails {s : DurableStore K ops} {next : ℕ} (written : ℕ) (hwriter : s.logs.writer = some next)
      (hnext : next ≤ maxSequence) (hgeneration : s.logs.last.generation < maxSequence) :
      Step s { s with
        engine := s.engine.halted
        logs := { s.logs with
          older := s.logs.older ++ [s.logs.last.force]
          last := .begun format historyId (s.logs.last.generation + 1) next written
          writer := none } }
  /-- The executor writes a capture under a new name, reads it back, and replaces the manifest by one
  with the generation that was cut for it.  The data and their name are forced before that, so that
  the manifest is replaced with them or not at all. -/
  | publish {s : DurableStore K ops} {capture : Capture K T ops.Index} {f : LogFile}
      {maximumBytes : ℤ} {fileName : JavaString} {file : Bytes} {loaded : Loaded K T} {m : Manifest}
      (hcapture : capture ∈ s.captures) (hf : f ∈ s.logs.files) (hcut : f.file.linked = true)
      (hnew : fileName ∉ s.checkpoints.map Prod.fst)
      (hwrite : writeFile setup format historyId capture maximumBytes = .ok file)
      (hread : read setup format historyId none fileName file = .ok loaded)
      (hvalidates : Validates capture loaded)
      (hdescribes : m.Describes fileName capture.sequence file)
      (hgeneration : m.walGeneration = f.generation) (hfirst : m.walFirstSequence = f.firstSequence) :
      Step s { s with
        logs := { s.logs with manifest := some ⟨f.generation, f.firstSequence⟩ }
        manifest := some (encodeManifest format historyId m)
        checkpoints := s.checkpoints ++ [(fileName, file)]
        base := some loaded }
  /-- The executor fails before it replaces the manifest, and leaves data under a new name. -/
  | publishFails {s : DurableStore K ops} {fileName : JavaString} {file : Bytes}
      (hnew : fileName ∉ s.checkpoints.map Prod.fst) :
      Step s { s with checkpoints := s.checkpoints ++ [(fileName, file)] }
  /-- Data that the manifest does not name are deleted. -/
  | discard {s : DurableStore K ops} {fileName : JavaString} {m : Manifest}
      (hmanifest : s.manifest = some (encodeManifest format historyId m))
      (hother : fileName ≠ m.checkpointFile) :
      Step s { s with checkpoints := s.checkpoints.filter fun file => file.1 ≠ fileName }
  /-- The oldest generation is deleted when the manifest covers it. -/
  | delete {s : DurableStore K ops} {f : LogFile} {rest : List LogFile} {m : Boundary}
      (holder : s.logs.older = f :: rest) (hmanifest : s.logs.manifest = some m)
      (hcovered : f.generation < m.walGeneration) :
      Step s { s with logs := { s.logs with older := rest } }
  /-- The process stops, and the store is opened again, with other files of some size beside it.  Of an
  interrupted group there stands what the log turns out to have. -/
  | restart {s : DurableStore K ops} {files older : List LogFile} {opened : List Opened}
      {last : LogFile} {o : Opened} {accepted : List Frame} {R : ReplayState K T}
      {current : PublishedState K T ops.Index} {otherBytes : ℕ} (hstops : Stops s.logs.files files)
      (hopen : openCoordinator setup format historyId startupIndexes
        ⟨s.manifest, s.checkpoints, otherBytes⟩ (files.map LogFile.member) = .ok (opened, R))
      (hfiles : List.zipWith LogFile.reopened files opened = older ++ [last])
      (hlast : o ∈ opened.getLast?) (hframes : replayFrames format historyId opened = .ok accepted)
      (hcurrent : recoveredState setup R = some current) :
      Step s {
        engine := {
          engine := .start current
          coordinator := {
            allocatedSequence := R.lastSequence
            publishedSequence := R.lastSequence
            terminal := false
            frames := s.engine.coordinator.frames ++ accepted.filter fun frame =>
              s.engine.coordinator.publishedSequence < frame.sequence }
          checkpoints := s.base.toList }
        captures := []
        logs := { s.logs with older, last, writer := some (o.firstSequence + o.result.records) }
        manifest := s.manifest
        checkpoints := s.checkpoints
        base := s.base
        stands := s.stands ++ (s.interrupted.take
          (R.lastSequence - s.engine.coordinator.publishedSequence)).flatten
        interrupted := [] }

/-- The stores that steps lead to from a fresh directory. -/
inductive DurableStore.Reachable : DurableStore K ops → Prop where
  | fresh {s : DurableStore K ops} (h : DurableStore.fresh format historyId setup startupIndexes = some s) :
      Reachable s
  | step {s s' : DurableStore K ops} (h : Reachable s)
      (hs : s.Step format historyId setup startupIndexes s') : Reachable s'

end

/-! ### The invariant -/

/-- The manifest names data that are read as a checkpoint, and the generation behind it. -/
def DurableStore.Describes (format : WalFormat) (historyId : HistoryId) (setup : Setup K ops)
    (s : DurableStore K ops) (c : Loaded K T) : Prop :=
  ∃ m : Manifest, s.manifest = some (encodeManifest format historyId m) ∧
    s.logs.manifest = some m.boundary ∧ m.boundary.walFirstSequence = c.sequence + 1 ∧
    loadCheckpoint setup format historyId s.checkpoints m = .ok c

/-- What holds of the checkpoints of a store: a capture has the one that was taken of its state, and
the manifest describes one that was taken. -/
structure DurableStore.Named (format : WalFormat) (historyId : HistoryId) (setup : Setup K ops)
    (s : DurableStore K ops) : Prop where
  captured : ∀ capture ∈ s.captures, ∃ (current : PublishedState K T ops.Index) (sequence : ℕ),
    capture.Of setup current sequence ∧
      ∀ c, checkpointOf setup current sequence = some c → c ∈ s.engine.checkpoints
  based : ∀ c ∈ s.base, c ∈ s.engine.checkpoints ∧ s.Describes format historyId setup c
  unbased : s.base = none → s.manifest = none ∧ s.logs.manifest = none

/-- What holds of a store: its files hold the frames that its engine has committed, and behind them
perhaps a beginning of an interrupted group; the engine could be opened behind any number of the units
of that group. -/
structure DurableStore.Consistent (format : WalFormat) (historyId : HistoryId) (setup : Setup K ops)
    (startupIndexes : List DurableIndexDescriptor) (s : DurableStore K ops)
    (units : List PreparedUnit) : Prop where
  held : Held format historyId s.logs s.engine.coordinator.frames units
  counted : s.engine.coordinator.frames.length = s.engine.coordinator.publishedSequence
  matched : units.length ≤ s.interrupted.length
  resumes : ∀ k ≤ units.length, Resumes setup startupIndexes s.engine.checkpoints
    (s.engine.coordinator.frames ++
      sequenced (s.engine.coordinator.publishedSequence + 1) (units.take k))
    (s.engine.coordinator.publishedSequence + k)
    (afterAll setup [] (s.stands ++ (s.interrupted.take k).flatten))
  running : ∀ next ∈ s.logs.writer, s.interrupted = [] ∧ s.engine.coordinator.terminal = false ∧
    Sound setup startupIndexes s.engine ∧
    Faithful setup startupIndexes s.engine (afterAll setup [] s.stands)
  named : s.Named format historyId setup

section

variable {format : WalFormat} {historyId : HistoryId} {setup : Setup K ops}
  {startupIndexes : List DurableIndexDescriptor} {s s' : DurableStore K ops}
  {units : List PreparedUnit} {next : ℕ}

theorem sequenced_injective {n : ℕ} {units units' : List PreparedUnit}
    (h : sequenced n units = sequenced n units') : units = units' := by
  induction units generalizing n units' with
  | nil =>
    cases units' with
    | nil => rfl
    | cons unit' units' => cases h
  | cons unit units ih =>
    cases units' with
    | nil => cases h
    | cons unit' units' =>
      obtain ⟨hframe, hrest⟩ := List.cons.inj h
      obtain ⟨-, htype, hpayload⟩ := Frame.mk.inj hframe
      cases unit
      cases unit'
      simp only at htype hpayload
      rw [ih hrest, htype, hpayload]

theorem DurableStore.Consistent.writes (identity : IndexIdentity ops)
    (h : s.Consistent format historyId setup startupIndexes units)
    (hwriter : s.logs.writer = some next) {task : Task setup} (hwrites : task.writes)
    (hundisturbed : Undisturbed setup s.engine task) {written : List PreparedUnit}
    (hunits : (s.engine.handle setup startupIndexes task).coordinator.frames =
      s.engine.coordinator.frames ++ sequenced next written) :
    next = s.engine.coordinator.publishedSequence + 1 ∧
      Writes setup startupIndexes s.engine (s.engine.handle setup startupIndexes task)
        (s.engine.meanings setup task) (afterAll setup [] s.stands) written := by
  obtain ⟨-, hterminal, hsound, hfaithful⟩ := h.running next hwriter
  obtain ⟨-, hnext⟩ := h.held.follows hwriter
  rw [h.counted] at hnext
  have hfits := h.held.fits
  rw [h.counted] at hfits
  obtain ⟨units', hwrites'⟩ := exists_writes identity hsound hfaithful hterminal hwrites
    hundisturbed (Nat.le_of_add_right_le hfits)
  have hframes := hwrites'.frames
  rw [hunits, hnext] at hframes
  obtain rfl := sequenced_injective (List.append_cancel_left hframes)
  exact ⟨hnext, hwrites'⟩

/-! ### The checkpoint of the manifest -/

/-- What an opening reads of the manifest and its data. -/
theorem DurableStore.Named.manifest (h : s.Named format historyId setup) :
    ∃ manifest : Option Manifest, s.manifest = manifest.map (encodeManifest format historyId) ∧
      manifest.map Manifest.boundary = s.logs.manifest ∧
      (∀ m ∈ manifest, m.checkpointFile ∈ s.checkpoints.map Prod.fst) ∧
      manifest.mapM (loadCheckpoint setup format historyId s.checkpoints) = .ok s.base := by
  cases hbase : s.base with
  | none =>
    obtain ⟨hmanifest, hlogs⟩ := h.unbased hbase
    exact ⟨none, hmanifest, hlogs.symm, fun m hm => (by cases hm), rfl⟩
  | some c =>
    obtain ⟨-, m, hmanifest, hlogs, -, hload⟩ := h.based c hbase
    refine ⟨some m, hmanifest, hlogs.symm, ?_, ?_⟩
    · rintro _ ⟨⟩
      obtain ⟨file, hfile, -⟩ := loadCheckpoint_eq_ok.mp hload
      by_contra hmissing
      have hnone : s.checkpoints.lookup m.checkpointFile = none :=
        List.lookup_eq_none_iff.mpr fun entry hentry =>
          bne_iff_ne.mpr fun heq => hmissing (heq ▸ List.mem_map_of_mem hentry)
      rw [hfile] at hnone
      cases hnone
    · show (loadCheckpoint setup format historyId s.checkpoints m).map some = _
      rw [hload]
      rfl

/-- A store is opened where its directory is within the budget, its logs are opened, and they are
replayed over the checkpoint that the manifest describes. -/
theorem DurableStore.Named.openCoordinator_eq_ok (h : s.Named format historyId setup)
    {otherBytes : ℕ} {members : List DurableWal.WalMember} {opened : List Opened}
    {R : ReplayState K T} :
    openCoordinator setup format historyId startupIndexes ⟨s.manifest, s.checkpoints, otherBytes⟩
      members = .ok (opened, R) ↔
        StorageFiles.retainedBytes ⟨s.manifest, s.checkpoints, otherBytes⟩ members ≤
          setup.config.maxRetainedBytes ∧
        openWals format historyId s.logs.manifest members = .ok opened ∧
        ∃ frames, replayFrames format historyId opened = .ok frames ∧
          replay setup startupIndexes s.base frames = .ok R := by
  obtain ⟨manifest, hmanifest, hboundary, hdata, hload⟩ := h.manifest
  rw [Durable.openCoordinator_eq_ok]
  constructor
  · rintro ⟨manifest', checkpoint, frames, hopen, hload', hframes, hreplay⟩
    obtain ⟨hretained, hmanifest', -, hwals⟩ := openStorage_eq_ok.mp hopen
    have hread := readManifests_eq_ok.mpr hmanifest'
    rw [readManifests_eq_ok.mpr hmanifest] at hread
    obtain rfl := Except.ok.inj hread
    rw [hload] at hload'
    obtain rfl := Except.ok.inj hload'
    exact ⟨hretained, hboundary ▸ hwals, frames, hframes, hreplay⟩
  · rintro ⟨hretained, hwals, frames, hframes, hreplay⟩
    exact ⟨manifest, s.base, frames,
      openStorage_eq_ok.mpr ⟨hretained, hmanifest, hdata, hboundary.symm ▸ hwals⟩, hload, hframes,
      hreplay⟩

/-- The data that the manifest names are still there. -/
def DurableStore.KeepsData (format : WalFormat) (historyId : HistoryId) (s s' : DurableStore K ops) :
    Prop :=
  ∀ m : Manifest, s.manifest = some (encodeManifest format historyId m) → ∀ file,
    s.checkpoints.lookup m.checkpointFile = some file →
      s'.checkpoints.lookup m.checkpointFile = some file

theorem DurableStore.Describes.keep {c : Loaded K T} (h : s.Describes format historyId setup c)
    (hmanifest : s'.manifest = s.manifest) (hlogs : s'.logs.manifest = s.logs.manifest)
    (hdata : s.KeepsData format historyId s') : s'.Describes format historyId setup c := by
  obtain ⟨m, hm, hboundary, hsequence, hload⟩ := h
  obtain ⟨file, hfile, hread⟩ := loadCheckpoint_eq_ok.mp hload
  exact ⟨m, hmanifest ▸ hm, hlogs ▸ hboundary, hsequence,
    loadCheckpoint_eq_ok.mpr ⟨file, hdata m hm file hfile, hread⟩⟩

theorem DurableStore.Named.keep (h : s.Named format historyId setup)
    (hcaptures : s'.captures = s.captures) (hmanifest : s'.manifest = s.manifest)
    (hlogs : s'.logs.manifest = s.logs.manifest) (hbase : s'.base = s.base)
    (hkept : ∀ c ∈ s.engine.checkpoints, c ∈ s'.engine.checkpoints)
    (hdata : s.KeepsData format historyId s') : s'.Named format historyId setup where
  captured capture hcapture := by
    obtain ⟨current, sequence, hof, htaken⟩ := h.captured capture (hcaptures ▸ hcapture)
    exact ⟨current, sequence, hof, fun c hc => hkept c (htaken c hc)⟩
  based c hc := by
    obtain ⟨hmem, hdescribes⟩ := h.based c (hbase ▸ hc)
    exact ⟨hkept c hmem, hdescribes.keep hmanifest hlogs hdata⟩
  unbased hnone := by
    rw [hmanifest, hlogs]
    exact h.unbased (hbase ▸ hnone)

/-- A capture whose checkpoint is taken. -/
theorem DurableStore.Named.capture (h : s.Named format historyId setup)
    {capture : Capture K T ops.Index}
    (hof : capture.Of setup s.engine.engine.current s.engine.coordinator.publishedSequence)
    {logs : Logs} (hlogs : logs.manifest = s.logs.manifest) {engine : DurableEngine K ops}
    (hkept : ∀ c ∈ s.engine.checkpoints, c ∈ engine.checkpoints)
    (htaken : ∀ c, checkpointOf setup s.engine.engine.current s.engine.coordinator.publishedSequence =
      some c → c ∈ engine.checkpoints) :
    DurableStore.Named format historyId setup
      { s with engine, captures := capture :: s.captures, logs } where
  captured other hother := by
    rcases List.mem_cons.mp hother with rfl | hother
    · exact ⟨_, _, hof, htaken⟩
    · obtain ⟨current, sequence, hof', htaken'⟩ := h.captured other hother
      exact ⟨current, sequence, hof', fun c hc => hkept c (htaken' c hc)⟩
  based c hc := by
    obtain ⟨hmem, hdescribes⟩ := h.based c hc
    exact ⟨hkept c hmem, hdescribes.keep rfl hlogs fun _ _ _ hfile => hfile⟩
  unbased hnone := by
    rw [hlogs]
    exact h.unbased hnone

/-- What was written, read back and compared is what the manifest names then. -/
theorem DurableStore.Named.publish (bounds : Bounds setup.config)
    (h : s.Named format historyId setup) {capture : Capture K T ops.Index} {maximumBytes : ℤ}
    {fileName : JavaString} {file : Bytes} {loaded : Loaded K T} {m : Manifest} {f : LogFile}
    (hcapture : capture ∈ s.captures) (hnew : fileName ∉ s.checkpoints.map Prod.fst)
    (hwrite : writeFile setup format historyId capture maximumBytes = .ok file)
    (hread : read setup format historyId none fileName file = .ok loaded)
    (hvalidates : Validates capture loaded) (hdescribes : m.Describes fileName capture.sequence file)
    (hgeneration : m.walGeneration = f.generation) (hfirst : m.walFirstSequence = f.firstSequence) :
    DurableStore.Named format historyId setup { s with
      logs := { s.logs with manifest := some ⟨f.generation, f.firstSequence⟩ }
      manifest := some (encodeManifest format historyId m)
      checkpoints := s.checkpoints ++ [(fileName, file)]
      base := some loaded } where
  captured := h.captured
  based c hc := by
    obtain rfl := Option.some.inj hc
    obtain ⟨current, sequence, hof, htaken⟩ := h.captured capture hcapture
    refine ⟨htaken _ (checkpointOf_of_read bounds hof hwrite hread hvalidates), m, rfl, ?_, ?_, ?_⟩
    · rw [Manifest.boundary, hgeneration, hfirst, Int.toNat_natCast, Int.toNat_natCast]
    · have hnext := m.valid.2.2.2.2.1
      rw [hdescribes.sequence, ← hvalidates.sequence] at hnext
      show m.walFirstSequence.toNat = _
      omega
    · have hlookup : s.checkpoints.lookup m.checkpointFile = none :=
        List.lookup_eq_none_iff.mpr fun entry hentry => bne_iff_ne.mpr fun heq =>
          hnew (hdescribes.fileName.trans heq ▸ List.mem_map_of_mem hentry)
      refine loadCheckpoint_eq_ok.mpr ⟨file, ?_, ?_⟩
      · rw [List.lookup_append, hlookup, hdescribes.fileName]
        simp
      · rw [← hdescribes.fileName]
        exact read_described bounds hread (hvalidates.sequence ▸ hdescribes)
  unbased hnone := by cases hnone

theorem lookup_filter_ne {fileName other : JavaString} (checkpoints : List (JavaString × Bytes))
    (h : other ≠ fileName) :
    (checkpoints.filter fun file => file.1 ≠ fileName).lookup other = checkpoints.lookup other := by
  induction checkpoints with
  | nil => rfl
  | cons file rest ih =>
    by_cases hname : file.1 = fileName
    · rw [List.filter_cons_of_neg (by simp [hname]), ih, List.lookup_cons]
      rw [beq_eq_false_iff_ne.mpr (hname ▸ h)]
    · rw [List.filter_cons_of_pos (by simp [hname]), List.lookup_cons, List.lookup_cons, ih]

/-! ### Opening -/

/-- A store of fewer checkpoints. -/
theorem Sound.restrict {e : DurableEngine K ops} (h : Sound setup startupIndexes e)
    {checkpoints : List (Loaded K T)} (hsub : checkpoints.Sublist e.checkpoints) :
    Sound setup startupIndexes { e with checkpoints } := by
  have hstarts : (checkpoints.map some ++ [none]).Sublist e.starts :=
    (hsub.map some).append_right [none]
  exact ⟨h.wellFormed, h.keyed, h.usable, h.builds, h.covered, h.settled,
    fun c hc => h.accepted c (hstarts.subset hc), h.ordered.sublist hstarts⟩

theorem Faithful.restrict {e : DurableEngine K ops} {contents : Contents K}
    (h : Faithful setup startupIndexes e contents) {checkpoints : List (Loaded K T)}
    (hsub : checkpoints.Sublist e.checkpoints) :
    Faithful setup startupIndexes { e with checkpoints } contents where
  shows := h.shows
  recalls c hc := h.recalls c (((hsub.map some).append_right [none]).subset hc)

/-- Replay skips what the checkpoint covers. -/
theorem replay_drop {base : Option (Loaded K T)} {history later : List Frame} {skipped : ℕ}
    (hnumbered : DurableWal.Numbered 1 history) (hskipped : ∀ c ∈ base, skipped ≤ c.sequence)
    (hnone : base = none → skipped = 0) :
    replay setup startupIndexes base (history.drop skipped ++ later) =
      replay setup startupIndexes base (history ++ later) := by
  have hcovered : ∀ frame ∈ history.take skipped,
      frame.sequence ≤ (ReplayState.start startupIndexes base).lastSequence := by
    intro frame hframe
    obtain ⟨i, hi, rfl⟩ := List.mem_iff_getElem.mp hframe
    rw [List.length_take] at hi
    rw [List.getElem_take, hnumbered.getElem (by omega)]
    cases base with
    | none =>
      have := hnone rfl
      omega
    | some c =>
      have hlow : skipped ≤ c.sequence := hskipped c rfl
      exact show 1 + i ≤ c.sequence by omega
  conv_rhs => rw [← List.take_append_drop skipped history, List.append_assoc]
  unfold replay
  rw [applyFrames_append _ (history.take skipped), applyFrames_covered hcovered]
  rfl

/-- What a start recovers of the files that it finds. -/
theorem DurableStore.Consistent.recovers (identity : IndexIdentity ops)
    (h : s.Consistent format historyId setup startupIndexes units) {files : List LogFile}
    {opened : List Opened} {k skipped : ℕ}
    (hfound : Found format historyId s.logs s.engine.coordinator.frames units files opened k skipped) :
    ∃ (e : DurableEngine K ops) (R : ReplayState K T) (current : PublishedState K T ops.Index),
      e.checkpoints = s.engine.checkpoints ∧ e.coordinator.frames = s.engine.coordinator.frames ++
        framesFrom (s.engine.coordinator.frames.length + 1) (units.take k) ∧
      Sound setup startupIndexes e ∧ Faithful setup startupIndexes e
        (afterAll setup [] (s.stands ++ (s.interrupted.take k).flatten)) ∧
      replay setup startupIndexes s.base (s.engine.coordinator.frames.drop skipped ++
        framesFrom (s.engine.coordinator.frames.length + 1) (units.take k)) = .ok R ∧
      replay setup startupIndexes s.base e.coordinator.frames = .ok R ∧
      R.lastSequence = s.engine.coordinator.publishedSequence + k ∧
      recoveredState setup R = some current ∧
      PublishedShows setup current
        (afterAll setup [] (s.stands ++ (s.interrupted.take k).flatten)) := by
  obtain ⟨e, hcheckpoints, hframes, hpublished, hsound, hfaithful⟩ := h.resumes k hfound.counted
  rw [← h.counted, ← DurableWal.framesFrom_eq_sequenced] at hframes
  have hbase : s.base ∈ e.starts := by
    unfold DurableEngine.starts
    rw [hcheckpoints]
    cases hbase : s.base with
    | none => exact List.mem_append_right _ List.mem_cons_self
    | some c => exact List.mem_append_left _ (List.mem_map_of_mem (h.named.based c hbase).1)
  obtain ⟨R, hR, hmatches⟩ := hsound.accepted _ hbase
  have hrecalls := hfaithful.recalls _ hbase R hR
  obtain ⟨current, hcurrent, -⟩ :=
    exists_recoveredState identity hmatches hrecalls.unique hsound.usable
  refine ⟨e, R, current, hcheckpoints, hframes, hsound, hfaithful, ?_, hR,
    hmatches.sequence.trans hpublished, hcurrent, recoveredState_shows hcurrent hrecalls⟩
  rw [replay_drop h.held.numbered (fun c hc => ?_)
    (fun hnone => hfound.unpublished (h.named.unbased hnone).2), ← hframes, hR]
  obtain ⟨-, m, -, hlogs, hboundary, -⟩ := h.named.based c hc
  have := hfound.published _ hlogs
  omega

/-! ### Steps -/

theorem DurableStore.Consistent.halted
    (h : s.Consistent format historyId setup startupIndexes units) {logs : Logs}
    (hheld : Held format historyId logs s.engine.coordinator.frames units)
    (hwriter : logs.writer = none) (hmanifest : logs.manifest = s.logs.manifest) :
    DurableStore.Consistent format historyId setup startupIndexes
      { s with engine := s.engine.halted, logs } units where
  held := hheld
  counted := h.counted
  matched := h.matched
  resumes := h.resumes
  running := by
    intro next hnext
    rw [show logs.writer = none from hwriter] at hnext
    cases hnext
  named := h.named.keep rfl rfl hmanifest rfl (fun _ hc => hc) fun _ _ _ hfile => hfile

/-- A running store whose files hold what its engine has committed. -/
theorem DurableStore.consistent_running {s : DurableStore K ops}
    (hheld : Held format historyId s.logs s.engine.coordinator.frames [])
    (hcounted : s.engine.coordinator.frames.length = s.engine.coordinator.publishedSequence)
    (hinterrupted : s.interrupted = []) (hterminal : s.engine.coordinator.terminal = false)
    (hsound : Sound setup startupIndexes s.engine)
    (hfaithful : Faithful setup startupIndexes s.engine (afterAll setup [] s.stands))
    (hnamed : s.Named format historyId setup) :
    s.Consistent format historyId setup startupIndexes [] := by
  refine ⟨hheld, hcounted, Nat.zero_le _, fun k hk => ?_,
    fun _ _ => ⟨hinterrupted, hterminal, hsound, hfaithful⟩, hnamed⟩
  obtain rfl := Nat.le_zero.mp hk
  have hresumes := resumes_of hsound hfaithful
  rwa [← List.append_nil s.engine.coordinator.frames, ← List.append_nil s.stands] at hresumes

theorem handle_checkpoint (setup : Setup K ops)
    (startupIndexes : List DurableIndexDescriptor) (e : DurableEngine K ops) :
    (e.handle setup startupIndexes .checkpoint).coordinator = e.coordinator ∧
      (∀ c ∈ e.checkpoints, c ∈ (e.handle setup startupIndexes .checkpoint).checkpoints) ∧
      (e.coordinator.terminal = false → ∀ c,
        checkpointOf setup e.engine.current e.coordinator.publishedSequence = some c →
          c ∈ (e.handle setup startupIndexes .checkpoint).checkpoints) := by
  rw [DurableEngine.handle]
  split
  · next hterminal => exact ⟨rfl, fun _ hc => hc, fun hrunning => by simp [hterminal] at hrunning⟩
  split
  · next loaded htaken =>
    refine ⟨rfl, fun _ hc => List.mem_cons_of_mem _ hc, fun _ c hc => ?_⟩
    obtain rfl := Option.some.inj (htaken.symm.trans hc)
    exact List.mem_cons_self
  · next hnone =>
    refine ⟨rfl, fun _ hc => hc, fun _ c hc => ?_⟩
    rw [hnone] at hc
    cases hc

theorem DurableStore.Consistent.restart (identity : IndexIdentity ops)
    (h : s.Consistent format historyId setup startupIndexes units) {files older : List LogFile}
    {opened : List Opened} {last : LogFile} {o : Opened} {accepted : List Frame}
    {R : ReplayState K T} {current : PublishedState K T ops.Index}
    {otherBytes : ℕ} (hstops : Stops s.logs.files files)
    (hopen : openCoordinator setup format historyId startupIndexes
      ⟨s.manifest, s.checkpoints, otherBytes⟩ (files.map LogFile.member) = .ok (opened, R))
    (hfiles : List.zipWith LogFile.reopened files opened = older ++ [last])
    (hlast : o ∈ opened.getLast?) (hframes : replayFrames format historyId opened = .ok accepted)
    (hcurrent : recoveredState setup R = some current) :
    DurableStore.Consistent format historyId setup startupIndexes
      { engine := {
          engine := .start current
          coordinator := {
            allocatedSequence := R.lastSequence
            publishedSequence := R.lastSequence
            terminal := false
            frames := s.engine.coordinator.frames ++ accepted.filter fun frame =>
              s.engine.coordinator.publishedSequence < frame.sequence }
          checkpoints := s.base.toList }
        captures := []
        logs := { s.logs with older, last, writer := some (o.firstSequence + o.result.records) }
        manifest := s.manifest
        checkpoints := s.checkpoints
        base := s.base
        stands := s.stands ++ (s.interrupted.take
          (R.lastSequence - s.engine.coordinator.publishedSequence)).flatten
        interrupted := [] } [] := by
  obtain ⟨-, hopen, frames, hframes', hreplay⟩ := h.named.openCoordinator_eq_ok.mp hopen
  rw [hframes] at hframes'
  obtain rfl := Except.ok.inj hframes'
  rcases h.held.opening hstops with ⟨_, -, -, e, herror⟩ | ⟨found, k, skipped, hfound⟩
  · rw [hopen] at herror
    cases herror
  rcases hfound.opens with hopens | ⟨-, e, herror⟩
  rotate_left
  · rw [hopen] at herror
    cases herror
  rw [hopen] at hopens
  obtain rfl := Except.ok.inj hopens
  have haccepted := hfound.replayed
  rw [hframes] at haccepted
  obtain rfl := Except.ok.inj haccepted
  obtain ⟨e, R', -, hcheckpoints, hcommitted, hsound, hfaithful, hR, hR', hsequence, -⟩ :=
    h.recovers identity hfound
  rw [hreplay] at hR
  obtain rfl := Except.ok.inj hR
  -- What the log has behind the published sequence are the units of the interrupted group.
  have hlater := h.held.numbered.filter_framesFrom skipped (units.take k)
  simp only [h.counted] at hlater
  have hcommitted' := hcommitted
  rw [h.counted] at hcommitted'
  have hrestrict : s.base.toList.Sublist e.checkpoints := by
    cases hbase : s.base with
    | none => exact List.nil_sublist _
    | some c =>
      rw [hcheckpoints]
      exact List.singleton_sublist.mpr (h.named.based c hbase).1
  have hhead : s.base.toList.head? = s.base := by cases s.base <;> rfl
  rw [h.counted, hlater, ← hcommitted', hsequence, Nat.add_sub_cancel_left]
  have hsound' := (hsound.restrict hrestrict).reopen identity
    (by rw [hhead]; exact hR') hcurrent
  have hfaithful' := (hfaithful.restrict hrestrict).reopen (by rw [hhead]; exact hR') hcurrent
    { e.coordinator with
      allocatedSequence := R.lastSequence
      publishedSequence := R.lastSequence
      terminal := false } rfl
  rw [hsequence] at hsound' hfaithful'
  refine DurableStore.consistent_running ?_ ?_ rfl rfl hsound' hfaithful'
    ⟨nofun, fun c hc => ?_, h.named.unbased⟩
  · rw [hcommitted]
    exact hfound.reopened older last o hfiles hlast hopen
  · show e.coordinator.frames.length = _
    rw [hcommitted, List.length_append, DurableWal.length_framesFrom,
      List.length_take_of_le hfound.counted, h.counted]
  · have hc : c ∈ s.base := hc
    exact ⟨Option.mem_toList.mpr hc, (h.named.based c hc).2⟩

theorem DurableStore.Consistent.step (identity : IndexIdentity ops) (bounds : Bounds setup.config)
    (h : s.Consistent format historyId setup startupIndexes units)
    (hs : s.Step format historyId setup startupIndexes s') :
    ∃ units', s'.Consistent format historyId setup startupIndexes units' := by
  cases hs with
  | @task task next written hwriter hwrites hundisturbed hrunning hunits =>
    obtain ⟨hnext, hw⟩ := h.writes identity hwriter hwrites hundisturbed hunits
    obtain ⟨hinterrupted, -, hsound, hfaithful⟩ := h.running next hwriter
    have hheld := h.held.append hwriter hw.framed (by have := hw.fits; omega)
    have hframes := hunits
    rw [← DurableWal.framesFrom_eq_sequenced] at hframes
    rw [← hframes] at hheld
    refine ⟨[], DurableStore.consistent_running hheld ?_ hinterrupted hrunning
      (hsound.handle identity hundisturbed.1) ?_
      (h.named.keep rfl rfl rfl rfl (fun c hc => ?_) fun _ _ _ hfile => hfile)⟩
    · show (s.engine.handle setup startupIndexes task).coordinator.frames.length = _
      rw [hw.frames, hw.published, List.length_append, h.counted,
        ← DurableWal.framesFrom_eq_sequenced, DurableWal.length_framesFrom]
    · rw [afterAll_append]
      exact hfaithful.handle hsound hundisturbed
    · show c ∈ (s.engine.handle setup startupIndexes task).checkpoints
      rwa [hw.checkpoints]
  | @interrupted task next written count hwriter hwrites hundisturbed hunits =>
    obtain ⟨hnext, hw⟩ := h.writes identity hwriter hwrites hundisturbed hunits
    refine ⟨written, h.held.appendFails hwriter hw.framed (by have := hw.fits; omega), h.counted,
      hw.counted, fun k hk => ?_, fun _ hnone => (by cases hnone),
      h.named.keep rfl rfl rfl rfl (fun _ hc => hc) fun _ _ _ hfile => hfile⟩
    rw [afterAll_append]
    exact hw.resumes k hk
  | halt => exact ⟨units, h.halted h.held.halt rfl rfl⟩
  | @checkpoint next capture hwriter hnext hgeneration hundisturbed hcapture =>
    obtain ⟨hinterrupted, hterminal, hsound, hfaithful⟩ := h.running next hwriter
    obtain ⟨hcoordinator, hkept, htaken⟩ := handle_checkpoint setup startupIndexes s.engine
    have hcut := h.held.afterCut fun hlayout => hlayout.afterCut
      (.created format historyId (s.logs.last.generation + 1) next) s.logs.writer hwriter hnext
      hgeneration rfl rfl (fun _ => ⟨rfl, rfl, .inr hwriter⟩) (fun hlost => by cases hlost)
    refine ⟨[], DurableStore.consistent_running ?_ ?_ hinterrupted ?_ (hsound.handle identity hundisturbed.1)
      (hfaithful.handle hsound hundisturbed) (h.named.capture hcapture (by rfl) hkept (htaken hterminal))⟩
    · rw [hcoordinator]
      exact hcut
    · rw [hcoordinator]
      exact h.counted
    · rw [hcoordinator]
      exact hterminal
  | @cutFails next count hwriter hnext hgeneration =>
    obtain ⟨hpending, -⟩ := h.held.follows hwriter
    have hcut := h.held.afterCut fun hlayout => hlayout.afterCut
      (.begun format historyId (s.logs.last.generation + 1) next count) none hwriter hnext hgeneration
      rfl rfl (fun hcreated => by cases hcreated) (fun _ => ⟨List.take_prefix _ _, rfl⟩)
    subst hpending
    exact ⟨[], h.halted hcut rfl rfl⟩
  | publish hcapture hf hcut hnew hwrite hread hvalidates hdescribes hgeneration hfirst =>
    exact ⟨units, h.held.publish hf hcut, h.counted, h.matched, h.resumes, h.running,
      h.named.publish bounds hcapture hnew hwrite hread hvalidates hdescribes hgeneration hfirst⟩
  | publishFails hnew =>
    refine ⟨units, h.held, h.counted, h.matched, h.resumes, h.running,
      h.named.keep rfl rfl rfl rfl (fun _ hc => hc) fun m _ found hfound => ?_⟩
    rw [List.lookup_append, hfound]
    rfl
  | discard hmanifest hother =>
    refine ⟨units, h.held, h.counted, h.matched, h.resumes, h.running,
      h.named.keep rfl rfl rfl rfl (fun _ hc => hc) fun m hm found hfound => ?_⟩
    rw [hmanifest] at hm
    have hsame := readManifest_eq_ok.mpr (Option.some.inj hm)
    rw [readManifest_eq_ok.mpr rfl] at hsame
    obtain rfl := Except.ok.inj hsame
    exact (lookup_filter_ne s.checkpoints hother.symm).trans hfound
  | delete holder hmanifest hcovered =>
    exact ⟨units, h.held.delete holder hmanifest hcovered, h.counted, h.matched, h.resumes,
      h.running, h.named.keep rfl rfl rfl rfl (fun _ hc => hc) fun _ _ _ hfile => hfile⟩
  | restart hstops hopen hfiles hlast hframes hcurrent =>
    exact ⟨[], h.restart identity hstops hopen hfiles hlast hframes hcurrent⟩

theorem DurableStore.Reachable.consistent (identity : IndexIdentity ops)
    (bounds : Bounds setup.config) (h : s.Reachable format historyId setup startupIndexes) :
    ∃ units, s.Consistent format historyId setup startupIndexes units := by
  induction h with
  | @fresh s hfresh =>
    obtain ⟨e, he, rfl⟩ := Option.map_eq_some_iff.mp hfresh
    have hsound := Sound.fresh identity he
    have hfaithful := Faithful.fresh he
    obtain ⟨current, -, rfl⟩ := Option.map_eq_some_iff.mp he
    exact ⟨[], DurableStore.consistent_running DurableWal.held_fresh rfl rfl rfl hsound hfaithful
      ⟨nofun, fun c hc => (by cases hc), fun _ => ⟨rfl, rfl⟩⟩⟩
  | step _ hs ih =>
    obtain ⟨units, hconsistent⟩ := ih
    exact hconsistent.step identity bounds hs

/-- A stop at any point of a run loses no mutation that stands.  Within the budget, and unless the
header of the last log file was cut off, the store can be opened again; what it then holds is what the
mutations that stand mean, and behind them those of the first units of a group whose append was
interrupted. -/
theorem restart_recovers (identity : IndexIdentity ops) (bounds : Bounds setup.config)
    (hreachable : s.Reachable format historyId setup startupIndexes) {files : List LogFile}
    (hstops : Stops s.logs.files files) {otherBytes : ℕ}
    (hretained : StorageFiles.retainedBytes ⟨s.manifest, s.checkpoints, otherBytes⟩
      (files.map LogFile.member) ≤ setup.config.maxRetainedBytes)
    (hheader : ∀ f ∈ files.getLast?, format.walHeaderBytes ≤ f.file.content.length)
    (hspace : s.engine.coordinator.publishedSequence + s.interrupted.length < maxSequence) :
    ∃ opened R current k,
      openCoordinator setup format historyId startupIndexes
        ⟨s.manifest, s.checkpoints, otherBytes⟩ (files.map LogFile.member) = .ok (opened, R) ∧
      recoveredState setup R = some current ∧ k ≤ s.interrupted.length ∧
      PublishedShows setup current
        (afterAll setup [] (s.stands ++ (s.interrupted.take k).flatten)) := by
  obtain ⟨units, h⟩ := hreachable.consistent identity bounds
  rcases h.held.opening hstops with ⟨f, hf, hshort, -⟩ | ⟨opened, k, skipped, hfound⟩
  · have := hheader f hf
    omega
  have hcounted := hfound.counted.trans h.matched
  have hopens := hfound.opens.resolve_right fun hfull => by
    have := hfull.1
    rw [h.counted] at this
    omega
  obtain ⟨-, R, current, -, -, -, -, hR, -, -, hcurrent, hshows⟩ := h.recovers identity hfound
  exact ⟨opened, R, current, k,
    h.named.openCoordinator_eq_ok.mpr ⟨hretained, hopens, _, hfound.replayed, hR⟩, hcurrent,
    hcounted, hshows⟩

end

/-- Document 7 is added, and then removed. -/
def addingTask : Task byteSetup := .batch [⟨.add 7, .none⟩] ⟨48, false⟩

def removingTask : Task byteSetup := .batch [⟨.remove 7, .none⟩] ⟨91, false⟩

def addingUnit : PreparedUnit := ⟨singleType, [1, 0, 0, 0, 1, 7, 0, 0, 0, 1, 7]⟩

def removingUnit : PreparedUnit := ⟨singleType, [3, 0, 0, 0, 1, 7, 255, 255, 255, 255]⟩

/-- The store of bytes over a fresh directory. -/
def emptyStore : DurableStore ℕ listOps :=
  ⟨freshStore, [], .fresh DurableWal.plainFormat ⟨1, 2⟩, none, [], none, [], []⟩

/-- The store when the addition has been forced. -/
def addedStore : DurableStore ℕ listOps := { emptyStore with
  engine := freshStore.handle byteSetup [] addingTask
  logs := { emptyStore.logs with
    last := (emptyStore.logs.last.write
      (DurableWal.frames DurableWal.plainFormat 1 [addingUnit])).force
    writer := some 2
    acknowledged := framesFrom 1 [addingUnit]
    attempted := framesFrom 1 [addingUnit] }
  stands := freshStore.acknowledged byteSetup addingTask }

/-- What the writer captures then. -/
def addedCapture : Capture ℕ ℕ listOps.Index where
  snapshot := addedStore.engine.engine.current.snapshot
  documentIds := AList.insert 7 0 ∅
  nextDocId := 1
  sequence := 1
  indexes := []
  nextDocId_le := by decide
  sequence_le := by decide

/-- What its file lists. -/
def addedContent : Content ℕ ℕ := ⟨1, [], [some ⟨[7], [7], 7, 7⟩]⟩

def addedFile : Bytes := finish (addedContent.write DurableWal.plainFormat ⟨1, 2⟩)

def addedManifest : Manifest where
  checkpointSequence := 1
  checkpointFile :=
    Utf8.ofString "gse-checkpoint-00000000000000000001-0123456789abcdef0123456789abcdef.chk"
  checkpointBytes := addedFile.length
  checkpointChecksum := DurableWal.checksum (addedFile.take (addedFile.length - 4))
  walGeneration := 2
  walFirstSequence := 2
  valid := by decide +kernel

/-- The store when the log is cut. -/
def cutStore : DurableStore ℕ listOps := { addedStore with
  engine := addedStore.engine.handle byteSetup [] .checkpoint
  captures := [addedCapture]
  logs := { addedStore.logs with
    older := addedStore.logs.older ++ [addedStore.logs.last.force]
    last := .created DurableWal.plainFormat ⟨1, 2⟩ 2 2 } }

/-- The store when the checkpoint is published. -/
def publishedStore : DurableStore ℕ listOps := { cutStore with
  logs := { cutStore.logs with manifest := some ⟨2, 2⟩ }
  manifest := some (encodeManifest DurableWal.plainFormat ⟨1, 2⟩ addedManifest)
  checkpoints := [(addedManifest.checkpointFile, addedFile)]
  base := some addedContent.loaded }

/-- The first generation is deleted, and three bytes of the frame of the removal are written. -/
def tornStore : DurableStore ℕ listOps := { publishedStore with
  engine := publishedStore.engine.halted
  logs := { publishedStore.logs with
    older := []
    last := publishedStore.logs.last.write
      ((DurableWal.frames DurableWal.plainFormat 2 [removingUnit]).take 3)
    writer := none
    attempted := publishedStore.logs.attempted ++ framesFrom 2 [removingUnit] }
  interrupted := publishedStore.engine.meanings byteSetup removingTask }

theorem byteSetup_bounds : Bounds byteSetup.config := ⟨by decide, by decide⟩

theorem lookup_insert_empty (key : ℕ) :
    (AList.insert 7 0 ∅ : Index.JMap ℕ ℕ).lookup key = if key = 7 then some 0 else none := by
  split
  · next h => rw [h, AList.lookup_insert]
  · next h => rw [AList.lookup_insert_ne h, AList.lookup_empty]

/-- The file of the capture, as it is written and read back. -/
theorem addedFile_published :
    writeFile byteSetup DurableWal.plainFormat ⟨1, 2⟩ addedCapture 200 = .ok addedFile ∧
    read byteSetup DurableWal.plainFormat ⟨1, 2⟩ none addedManifest.checkpointFile addedFile =
      .ok addedContent.loaded ∧ Validates addedCapture addedContent.loaded := by
  have hdecodes : ∀ slot ∈ addedContent.slots, ∀ live ∈ slot, live.Decodes byteSetup := by
    simp only [addedContent, List.forall_mem_singleton, Option.mem_some_iff, forall_eq']
    exact ⟨by decide, by decide, rfl, rfl, rfl, rfl, rfl⟩
  have hlists : addedCapture.Lists byteSetup addedContent := by
    refine ⟨rfl, rfl, rfl, fun docId slot hat => ?_, by decide +kernel, by decide +kernel⟩
    cases docId with
    | zero =>
      obtain rfl := Option.some.inj hat
      exact .live (by decide +kernel) (by decide +kernel) (by decide +kernel) (by decide +kernel) rfl
    | succ docId => cases hat
  have hvalid : addedContent.Valid byteSetup (addedFile.length - 4) :=
    ⟨by decide, ⟨by decide, by decide +kernel⟩, by decide, by decide, nofun, List.nodup_nil, hdecodes,
      List.pairwise_singleton _ _⟩
  refine ⟨writeFile_eq_ok.mpr ⟨by decide, addedContent, hlists, rfl, by decide +kernel⟩,
    (read_eq_ok byteSetup_bounds).mpr ⟨⟨by decide +kernel, by decide +kernel⟩, addedContent, hvalid,
      fun m hm => (by cases hm), rfl, rfl⟩, rfl, rfl, fun key => ?_, rfl⟩
  rw [addedCapture, lookup_insert_empty]
  by_cases hkey : key = 7
  · subst hkey
    rfl
  · simp [addedContent, DurableCheckpoint.Content.loaded, DurableCheckpoint.ReadLoop.of, hkey,
      Ne.symm hkey]

theorem restart_recovers_bytes : ∃ opened R current,
    openCoordinator byteSetup DurableWal.plainFormat ⟨1, 2⟩ []
      ⟨tornStore.manifest, tornStore.checkpoints, 200⟩ [tornStore.logs.last.member] =
        .ok (opened, R) ∧ recoveredState byteSetup R = some current ∧
    (PublishedShows byteSetup current [(7, some [7])] ∨ PublishedShows byteSetup current []) := by
  have hempty : emptyStore.Reachable DurableWal.plainFormat ⟨1, 2⟩ byteSetup [] := .fresh rfl
  have hadded : addedStore.Reachable DurableWal.plainFormat ⟨1, 2⟩ byteSetup [] := by
    refine hempty.step (.task rfl trivial ⟨fun _ => ⟨?_, ?_⟩, fun _ => ?_⟩ ?_ ?_)
    all_goals decide +kernel
  have hcut : cutStore.Reachable DurableWal.plainFormat ⟨1, 2⟩ byteSetup [] := by
    refine hadded.step (.checkpoint rfl (by decide) (by decide) ⟨fun _ => ?_, trivial⟩
      ⟨rfl, fun key => ?_, rfl, rfl, rfl⟩)
    · rw [show addedStore.engine.engine.current.snapshot.indexes = [] by decide +kernel]
      exact nofun
    · have hids : addedStore.engine.engine.current.documentIds =
          Function.update (fun _ => none) 7 (some 0) := rfl
      rw [addedCapture, lookup_insert_empty, hids, Function.update_apply]
  have hpublished : publishedStore.Reachable DurableWal.plainFormat ⟨1, 2⟩ byteSetup [] := by
    obtain ⟨hwrite, hread, hvalidates⟩ := addedFile_published
    exact hcut.step (.publish List.mem_cons_self (List.mem_append_right _ List.mem_cons_self) rfl
      List.not_mem_nil hwrite hread hvalidates ⟨rfl, rfl, rfl, rfl⟩ rfl rfl)
  have htorn : tornStore.Reachable DurableWal.plainFormat ⟨1, 2⟩ byteSetup [] := by
    have hdeleted := hpublished.step (.delete rfl rfl (by decide))
    refine hdeleted.step (.interrupted 3 rfl trivial ⟨fun _ => ⟨?_, ?_⟩, fun _ => ?_⟩ ?_)
    all_goals decide +kernel
  have hstops : Stops tornStore.logs.files [⟨2, 2, ⟨tornStore.logs.last.file.content,
      tornStore.logs.last.file.content.length, true⟩⟩] :=
    .kept ⟨List.take_prefix _ _, List.prefix_rfl, rfl⟩ rfl rfl .nil
  have hretained : StorageFiles.retainedBytes ⟨tornStore.manifest, tornStore.checkpoints, 200⟩
      [tornStore.logs.last.member] ≤ byteSetup.config.maxRetainedBytes := by decide +kernel
  have hheader : DurableWal.plainFormat.walHeaderBytes ≤
      tornStore.logs.last.file.content.length := by decide +kernel
  have hspace : tornStore.engine.coordinator.publishedSequence + tornStore.interrupted.length <
      maxSequence := by decide +kernel
  obtain ⟨opened, R, current, k, hopen, hcurrent, -, hshows⟩ :=
    restart_recovers listOps_identity byteSetup_bounds htorn hstops hretained
      (fun f hf => by obtain rfl := Option.some.inj hf; exact hheader) hspace
  refine ⟨opened, R, current, hopen, hcurrent, ?_⟩
  have hstands : tornStore.stands = [.add 7] := by decide +kernel
  have hinterrupted : tornStore.interrupted = [[.remove 7]] := by decide +kernel
  rw [hstands, hinterrupted] at hshows
  rcases Nat.eq_zero_or_pos k with rfl | hpos
  · exact .inl hshows
  · rw [List.take_of_length_le hpos] at hshows
    exact .inr hshows

end GeneralSearch.Durable
