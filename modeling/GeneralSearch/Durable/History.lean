import GeneralSearch.Durable.GenerationRuns
import GeneralSearch.Durable.Writer

/-! A history of frames in the log files: the retained generations hold the end of it, and an opening
after a stop finds that end with some of the frames that were not forced. -/

namespace GeneralSearch.Durable

namespace DurableWal

variable {format : WalFormat} {historyId : HistoryId} {d : Logs} {g s : ℕ} {accepted : List Frame}
  {units pending : List PreparedUnit} {files : List LogFile}

/-! ### The frames that an opening finds -/

theorem framesFrom_eq_sequenced (n : ℕ) (units : List PreparedUnit) :
    framesFrom n units = sequenced n units := by
  induction units generalizing n with
  | nil => rfl
  | cons unit units ih => rw [framesFrom, sequenced, ih]

@[simp] theorem length_framesFrom (n : ℕ) (units : List PreparedUnit) :
    (framesFrom n units).length = units.length := by
  rw [← List.length_map (·.sequence), map_sequence_framesFrom, List.length_range']

theorem take_framesFrom (n k : ℕ) (units : List PreparedUnit) :
    (framesFrom n units).take k = framesFrom n (units.take k) := by
  induction units generalizing n k with
  | nil => rw [List.take_nil, framesFrom, List.take_nil]
  | cons unit units ih =>
    cases k with
    | zero => rfl
    | succ k => rw [framesFrom, List.take_succ_cons, List.take_succ_cons, framesFrom, ih]

/-- Frames with consecutive sequences. -/
def Numbered (first : ℕ) (frames : List Frame) : Prop :=
  frames.map (·.sequence) = List.range' first frames.length

theorem Numbered.getElem {first i : ℕ} {frames : List Frame} (h : Numbered first frames)
    (hi : i < frames.length) : frames[i].sequence = first + i := by
  have hat := congrArg (·[i]?) h
  simp only [List.getElem?_map, List.getElem?_eq_getElem hi, Option.map_some,
    List.getElem?_range', hi, Nat.one_mul, Option.some.injEq] at hat
  exact hat

theorem Numbered.framesFrom_append {first : ℕ} {frames : List Frame} (h : Numbered first frames)
    (units : List PreparedUnit) :
    Numbered first (frames ++ framesFrom (first + frames.length) units) := by
  unfold Numbered at h ⊢
  rw [List.map_append, h, map_sequence_framesFrom, List.length_append, length_framesFrom,
    List.range'_append_1]

/-- Consecutive frames that are all among others with the same first sequence begin them. -/
theorem Numbered.begins {first : ℕ} {xs ys : List Frame} (hx : Numbered first xs)
    (hy : Numbered first ys) (h : ∀ frame ∈ xs, frame ∈ ys) : xs <+: ys := by
  rw [List.prefix_iff_getElem?]
  intro i hi
  obtain ⟨j, hj, hat⟩ := List.mem_iff_getElem.mp (h _ (List.getElem_mem hi))
  have hsame := congrArg (·.sequence) hat
  simp only [hy.getElem hj, hx.getElem hi] at hsame
  obtain rfl : j = i := by omega
  rw [List.getElem?_eq_getElem hj, hat]

/-- The frames behind a history, told by their sequences. -/
theorem Numbered.filter_framesFrom {history : List Frame} (h : Numbered 1 history) (skipped : ℕ)
    (units : List PreparedUnit) :
    (history.drop skipped ++ framesFrom (history.length + 1) units).filter
      (fun frame => history.length < frame.sequence) = framesFrom (history.length + 1) units := by
  have hcovered : (history.drop skipped).filter (fun frame => history.length < frame.sequence) = [] := by
    refine List.filter_eq_nil_iff.mpr fun frame hframe => ?_
    obtain ⟨i, hi, rfl⟩ := List.mem_iff_getElem.mp (List.mem_of_mem_drop hframe)
    rw [h.getElem hi, decide_eq_true_eq]
    omega
  have hbehind : (framesFrom (history.length + 1) units).filter
      (fun frame => history.length < frame.sequence) = framesFrom (history.length + 1) units := by
    refine List.filter_eq_self.mpr fun frame hframe => ?_
    have hmem := List.mem_map_of_mem (f := (·.sequence)) hframe
    rw [map_sequence_framesFrom, List.mem_range'_1] at hmem
    rw [decide_eq_true_eq]
    omega
  rw [List.filter_append, hcovered, hbehind, List.nil_append]

theorem Layout.numbered (h : Layout format historyId d g s accepted units pending)
    (units' : List PreparedUnit) :
    d.last.firstSequence = s + accepted.length ∧
      Numbered s (accepted ++ framesFrom d.last.firstSequence units') := by
  obtain ⟨hconsecutive, hfirst⟩ := h.chain.consecutive
  refine ⟨hfirst, ?_⟩
  rw [hfirst]
  exact Numbered.framesFrom_append hconsecutive units'

/-- An opening finds the whole frames, and behind them a beginning of those that were not forced. -/
theorem Layout.opening_prefix (h : Layout format historyId d g s accepted units pending)
    (hstops : Stops d.files files) :
    (∃ f ∈ files.getLast?, f.file.content.length < format.walHeaderBytes ∧
      ∃ e, openWals format historyId d.manifest (files.map LogFile.member) = .error e) ∨
    ∃ opened k, k ≤ pending.length ∧ Reopens format historyId d g s files opened
      (accepted ++ framesFrom d.last.firstSequence (units ++ pending.take k)) := by
  -- Nothing reads what was acknowledged and attempted: it may as well be what the files hold.
  have hghost : Layout format historyId { d with
      acknowledged := accepted ++ framesFrom d.last.firstSequence units
      attempted := accepted ++ framesFrom d.last.firstSequence (units ++ pending) } g s accepted
      units pending :=
    ⟨h.chain, h.start, h.named, h.framed, h.fits, h.whole, h.begun, h.writer,
      fun _ hframe => .inr hframe, fun _ hframe => hframe, h.manifest, h.unpublished⟩
  obtain ⟨f, hf, hshort, herror⟩ | ⟨opened, found, hreopens⟩ := hghost.opening hstops
  · exact .inl ⟨f, hf, hshort, _, herror⟩
  obtain ⟨g', s', hchain, hopens⟩ := hreopens.chain
  have hfound : Numbered s found := hchain.consecutive.1
  have hsettled : accepted ++ framesFrom d.last.firstSequence units <+: found := by
    refine (h.numbered units).2.begins hfound fun frame hframe => ?_
    refine (hreopens.kept frame hframe).resolve_left fun hlow => ?_
    obtain ⟨i, hi, rfl⟩ := List.mem_iff_getElem.mp hframe
    rw [(h.numbered units).2.getElem hi] at hlow
    omega
  have hknown : found <+: accepted ++ framesFrom d.last.firstSequence (units ++ pending) :=
    hfound.begins (h.numbered _).2 hreopens.known
  obtain ⟨later, rfl⟩ := hsettled
  rw [framesFrom_append, ← List.append_assoc, List.prefix_append_right_inj] at hknown
  have hlater := List.prefix_iff_eq_take.mp hknown
  rw [take_framesFrom] at hlater
  have hcount : later.length ≤ pending.length := by
    have := hknown.length_le
    rwa [length_framesFrom] at this
  refine .inr ⟨opened, later.length, hcount, ?_⟩
  rw [framesFrom_append, ← List.append_assoc, ← hlater]
  refine ⟨⟨g', s', hchain, hopens⟩, hreopens.replayed, fun frame hframe => ?_,
    fun frame hframe => ?_, hreopens.manifest, hreopens.whole⟩
  · exact (h.acknowledged frame hframe).imp_right fun hmem => List.mem_append_left _ hmem
  · exact h.attempted frame (hreopens.known frame hframe)

/-! ### A history in the files -/

/-- The files hold the end of a history, and behind it a beginning of the frames of `pending`. -/
structure Held (format : WalFormat) (historyId : HistoryId) (d : Logs) (history : List Frame)
    (pending : List PreparedUnit) : Prop where
  numbered : Numbered 1 history
  layout : ∃ g s accepted units, Layout format historyId d g s accepted units pending ∧ 1 ≤ s ∧
    s ≤ history.length + 1 ∧
    accepted ++ framesFrom d.last.firstSequence units = history.drop (s - 1)

section

variable {history : List Frame} {next : ℕ}

theorem held_fresh : Held format historyId (Logs.fresh format historyId) [] [] :=
  ⟨rfl, 1, 1, [], [], layout_fresh, le_rfl, le_rfl, rfl⟩

theorem Layout.ends (h : Layout format historyId d g s accepted units pending) (hs : 1 ≤ s)
    (hreaches : s ≤ history.length + 1)
    (heq : accepted ++ framesFrom d.last.firstSequence units = history.drop (s - 1)) :
    d.last.firstSequence + units.length = history.length + 1 := by
  have hlength := congrArg List.length heq
  rw [List.length_append, length_framesFrom, List.length_drop] at hlength
  have := (h.numbered units).1
  omega

theorem Held.follows (h : Held format historyId d history pending) (hwriter : d.writer = some next) :
    pending = [] ∧ next = history.length + 1 := by
  obtain ⟨g, s, accepted, units, hlayout, hs, hreaches, heq⟩ := h.layout
  obtain ⟨hpending, hnext, -⟩ := hlayout.clean hwriter
  exact ⟨hpending, hnext.trans (hlayout.ends hs hreaches heq)⟩

theorem Held.fits (h : Held format historyId d history pending) :
    history.length + pending.length ≤ maxSequence := by
  obtain ⟨g, s, accepted, units, hlayout, hs, hreaches, heq⟩ := h.layout
  have hend := hlayout.ends hs hreaches heq
  have hfits := hlayout.fits
  rw [List.length_append] at hfits
  omega

theorem Held.append {units' : List PreparedUnit} (h : Held format historyId d history pending)
    (hwriter : d.writer = some next) (hframed : ∀ unit ∈ units', Framed unit)
    (hfits : next + units'.length ≤ maxSequence + 1) :
    Held format historyId { d with
      last := (d.last.write (frames format next units')).force
      writer := some (next + units'.length)
      acknowledged := d.acknowledged ++ framesFrom next units'
      attempted := d.attempted ++ framesFrom next units' } (history ++ framesFrom next units') [] := by
  obtain ⟨rfl, hnext⟩ := h.follows hwriter
  obtain ⟨g, s, accepted, units, hlayout, hs, hreaches, heq⟩ := h.layout
  have hend := hlayout.ends hs hreaches heq
  refine ⟨?_, g, s, accepted, units ++ units', hlayout.append hwriter hframed hfits, hs, ?_, ?_⟩
  · rw [hnext, Nat.add_comm]
    exact h.numbered.framesFrom_append units'
  · rw [List.length_append]
    omega
  · show accepted ++ framesFrom d.last.firstSequence _ = _
    rw [framesFrom_append, ← List.append_assoc, heq, hend, ← hnext,
      List.drop_append_of_le_length (by omega)]

theorem Held.appendFails {units' : List PreparedUnit} {written : ℕ}
    (h : Held format historyId d history pending) (hwriter : d.writer = some next)
    (hframed : ∀ unit ∈ units', Framed unit) (hfits : next + units'.length ≤ maxSequence + 1) :
    Held format historyId { d with
      last := d.last.write ((frames format next units').take written)
      writer := none
      attempted := d.attempted ++ framesFrom next units' } history units' := by
  obtain ⟨g, s, accepted, units, hlayout, hs, hreaches, heq⟩ := h.layout
  exact ⟨h.numbered, g, s, accepted, units, hlayout.appendFails hwriter hframed hfits, hs, hreaches,
    heq⟩

/-- Behind a cut the history ends where the new file begins. -/
theorem Held.afterCut (h : Held format historyId d history pending) {d' : Logs}
    (hcut : ∀ {g s accepted units}, Layout format historyId d g s accepted units pending →
      Layout format historyId d' g s (accepted ++ framesFrom d.last.firstSequence units) [] []) :
    Held format historyId d' history [] := by
  obtain ⟨g, s, accepted, units, hlayout, hs, hreaches, heq⟩ := h.layout
  refine ⟨h.numbered, g, s, _, [], hcut hlayout, hs, hreaches, ?_⟩
  rw [framesFrom, List.append_nil, heq]

theorem Held.halt (h : Held format historyId d history pending) :
    Held format historyId { d with writer := none } history pending := by
  obtain ⟨g, s, accepted, units, hlayout, hends⟩ := h.layout
  exact ⟨h.numbered, g, s, accepted, units, hlayout.halt, hends⟩

theorem Held.publish {f : LogFile} (h : Held format historyId d history pending)
    (hf : f ∈ d.files) (hcut : f.file.linked = true) :
    Held format historyId { d with manifest := some ⟨f.generation, f.firstSequence⟩ } history
      pending := by
  obtain ⟨g, s, accepted, units, hlayout, hends⟩ := h.layout
  exact ⟨h.numbered, g, s, accepted, units, hlayout.publish hf hcut, hends⟩

theorem Held.delete {f : LogFile} {rest : List LogFile} {m : Boundary}
    (h : Held format historyId d history pending) (holder : d.older = f :: rest)
    (hmanifest : d.manifest = some m) (hcovered : f.generation < m.walGeneration) :
    Held format historyId { d with older := rest } history pending := by
  obtain ⟨g, s, accepted, units, hlayout, hs, hreaches, heq⟩ := h.layout
  obtain ⟨held, later, rfl, hlayout'⟩ := hlayout.delete holder hmanifest hcovered
  have hlength := congrArg List.length heq
  rw [List.length_append, List.length_append, length_framesFrom, List.length_drop] at hlength
  refine ⟨h.numbered, g + 1, s + held.length, later, units, hlayout', by omega, by omega, ?_⟩
  have hdrop := congrArg (List.drop held.length) heq
  rw [List.append_assoc, List.drop_left' (length_framesFrom _ _), List.drop_drop] at hdrop
  rw [show s + held.length - 1 = s - 1 + held.length by omega]
  exact hdrop

/-- What an opening finds of a history: all but what the manifest covers, and some of the frames that
were not forced. -/
structure Found (format : WalFormat) (historyId : HistoryId) (d : Logs) (history : List Frame)
    (pending : List PreparedUnit) (files : List LogFile) (opened : List Opened) (k skipped : ℕ) :
    Prop where
  counted : k ≤ pending.length
  opens : openWals format historyId d.manifest (files.map LogFile.member) = .ok opened ∨
    maxSequence ≤ history.length + k ∧
      ∃ e, openWals format historyId d.manifest (files.map LogFile.member) = .error e
  replayed : replayFrames format historyId opened =
    .ok (history.drop skipped ++ framesFrom (history.length + 1) (pending.take k))
  reaches : skipped ≤ history.length
  unpublished : d.manifest = none → skipped = 0
  published : ∀ m ∈ d.manifest, skipped < m.walFirstSequence
  reopened : ∀ older last o, List.zipWith LogFile.reopened files opened = older ++ [last] →
    o ∈ opened.getLast? →
    openWals format historyId d.manifest (files.map LogFile.member) = .ok opened →
    Held format historyId { d with older, last, writer := some (o.firstSequence + o.result.records) }
      (history ++ framesFrom (history.length + 1) (pending.take k)) []

theorem Held.opening (h : Held format historyId d history pending) (hstops : Stops d.files files) :
    (∃ f ∈ files.getLast?, f.file.content.length < format.walHeaderBytes ∧
      ∃ e, openWals format historyId d.manifest (files.map LogFile.member) = .error e) ∨
    ∃ opened k skipped, Found format historyId d history pending files opened k skipped := by
  obtain ⟨g, s, accepted, units, hlayout, hs, hreaches, heq⟩ := h.layout
  have hend := hlayout.ends hs hreaches heq
  refine (hlayout.opening_prefix hstops).imp_right ?_
  rintro ⟨opened, k, hk, hreopens⟩
  have hfound : accepted ++ framesFrom d.last.firstSequence (units ++ pending.take k) =
      history.drop (s - 1) ++ framesFrom (history.length + 1) (pending.take k) := by
    rw [framesFrom_append, ← List.append_assoc, heq, hend]
  have hlength : (pending.take k).length = k := List.length_take_of_le hk
  rw [hfound] at hreopens
  refine ⟨opened, k, s - 1, hk, ?_, hreopens.replayed, by omega, fun hnone => ?_, fun m hm => ?_,
    fun older last o hfiles hlast hopen => ?_⟩
  · obtain ⟨g', s', hchain, -, hopen⟩ := hreopens.chain
    refine hopen.imp And.right ?_
    rintro ⟨hfull, e, he⟩
    have := hchain.consecutive.2
    rw [List.length_append, List.length_drop, length_framesFrom, hlength] at this
    exact ⟨by omega, e, he⟩
  · have := hlayout.start (hlayout.unpublished hnone)
    omega
  · obtain ⟨f, hf, -, -, hfirst⟩ := hlayout.manifest m hm
    have hbounds := hlayout.chain.bounds
    rcases List.mem_append.mp hf with hf | hf
    · have := (hbounds.2.2 f hf).2.2
      omega
    · rw [List.mem_singleton.mp hf] at hfirst
      omega
  · obtain ⟨before, kept, hreplay, hlayout'⟩ := hlayout.reopen hstops hopen hfiles hlast
    rw [hreopens.replayed] at hreplay
    refine ⟨?_, g, s, before, kept, hlayout', hs, ?_, ?_⟩
    · rw [Nat.add_comm]
      exact h.numbered.framesFrom_append _
    · rw [List.length_append]
      omega
    · rw [List.drop_append_of_le_length (by omega)]
      exact (Except.ok.inj hreplay).symm

end

end DurableWal

end GeneralSearch.Durable
