import GeneralSearch.Durable.Generations

/-! What the log files hold in every run, and what an opening finds of them after a stop. -/

namespace GeneralSearch.Durable.DurableWal

variable {format : WalFormat} {historyId : HistoryId} {manifest : Option Boundary}
  {generation firstSequence : ℕ} {body : Bytes} {units : List PreparedUnit}

/-! ### A torn log -/

theorem frames_append {units' : List PreparedUnit} {sequence : ℕ} :
    frames format sequence (units ++ units') =
      frames format sequence units ++ frames format (sequence + units.length) units' := by
  induction units generalizing sequence with
  | nil => rfl
  | cons unit units ih =>
    rw [List.cons_append, frames, frames, ih, List.append_assoc, List.length_cons, Nat.add_right_comm,
      Nat.add_assoc]

theorem framesFrom_append {units' : List PreparedUnit} {sequence : ℕ} :
    framesFrom sequence (units ++ units') =
      framesFrom sequence units ++ framesFrom (sequence + units.length) units' := by
  induction units generalizing sequence with
  | nil => rfl
  | cons unit units ih =>
    rw [List.cons_append, framesFrom, framesFrom, ih, List.length_cons, Nat.add_right_comm,
      Nat.add_assoc, List.cons_append]

theorem map_sequence_framesFrom {sequence : ℕ} :
    (framesFrom sequence units).map (·.sequence) = List.range' sequence units.length := by
  induction units generalizing sequence with
  | nil => rfl
  | cons unit units ih =>
    rw [framesFrom, List.map_cons, ih, List.length_cons, List.range'_succ]

/-- A proper beginning of a frame is the start of one. -/
theorem startsFrame_of_prefix {sequence : ℕ} {unit : PreparedUnit} {tail : Bytes}
    (hframed : Framed unit) (h : tail <+: frameBytes format sequence unit)
    (hshort : tail.length < (frameBytes format sequence unit).length) :
    StartsFrame format sequence tail := by
  refine ⟨unit, hframed, hshort, fun i hi => ?_⟩
  rw [List.prefix_iff_getElem?.mp h i hi.1, List.getElem?_eq_getElem hi.1]

/-- A beginning of some frames can be recovered, up to the last whole frame of it. -/
theorem exists_recoverable {sequence : ℕ} (hframed : ∀ unit ∈ units, Framed unit)
    (hfits : sequence + units.length ≤ maxSequence + 1) (h : body <+: frames format sequence units) :
    ∃ kept tail, Recoverable format sequence body kept tail ∧ kept <+: units ∧
      ∀ settled, settled <+: units → frames format sequence settled <+: body → settled <+: kept := by
  induction units generalizing sequence body with
  | nil =>
    rw [frames, List.prefix_nil] at h
    subst h
    refine ⟨[], [], ⟨rfl, by simp, ?_, .inl rfl⟩, List.prefix_rfl, fun settled hs _ => hs⟩
    exact hfits
  | cons unit units ih =>
    rw [List.length_cons] at hfits
    have hunit := hframed unit List.mem_cons_self
    rw [frames] at h
    rcases lt_or_ge body.length (frameBytes format sequence unit).length with hshort | hlong
    · have hprefix := List.prefix_of_prefix_length_le h (List.prefix_append _ _) hshort.le
      refine ⟨[], body, ⟨rfl, by simp, ?_, .inr ⟨?_, startsFrame_of_prefix hunit hprefix hshort⟩⟩,
        List.nil_prefix, fun settled hs hbody => ?_⟩
      · rw [List.length_nil]
        omega
      · rw [List.length_nil]
        omega
      · cases settled with
        | nil => exact List.prefix_rfl
        | cons first settled =>
          obtain ⟨rfl, -⟩ := List.cons_prefix_cons.mp hs
          have hle := hbody.length_le
          rw [frames, List.length_append] at hle
          omega
    · obtain ⟨rest, rfl⟩ := List.prefix_of_prefix_length_le (List.prefix_append _ _) h hlong
      obtain ⟨kept, tail, hrest, hkept, hmost⟩ := ih
        (fun other hother => hframed other (List.mem_cons_of_mem _ hother)) (by omega)
        ((List.prefix_append_right_inj _).mp h)
      refine ⟨unit :: kept, tail, hrest.cons hunit, List.cons_prefix_cons.mpr ⟨rfl, hkept⟩,
        fun settled hs hbody => ?_⟩
      cases settled with
      | nil => exact List.nil_prefix
      | cons first settled =>
        obtain ⟨rfl, htail⟩ := List.cons_prefix_cons.mp hs
        rw [frames, List.prefix_append_right_inj] at hbody
        exact List.cons_prefix_cons.mpr ⟨rfl, hmost settled htail hbody⟩

/-! ### One file -/

/-- The identity of a generation. -/
def Named (generation firstSequence : ℕ) : Prop :=
  0 < generation ∧ generation ≤ maxSequence ∧ 0 < firstSequence ∧ firstSequence ≤ maxSequence

theorem inspectHeader_whole (h : Named generation firstSequence) :
    inspectHeader (generationHeader format historyId generation firstSequence ++ body) format
      historyId = .ok ⟨generation, firstSequence⟩ := by
  obtain ⟨hlength, hvalid⟩ := @validateGenerationHeader_generationHeader format historyId _ _ h.1
    h.2.1 h.2.2.1 h.2.2.2
  have hlong : ¬(generationHeader format historyId generation firstSequence ++ body).length <
      format.walHeaderBytes := by
    rw [List.length_append]
    omega
  unfold inspectHeader refuse
  rw [if_neg hlong, List.take_left' hlength]
  unfold validateGenerationHeader at hvalid
  obtain ⟨⟨decodedGeneration, decodedFirst⟩, hdecoded, hsame⟩ := Lib.bind_eq_ok.mp hvalid
  rw [refuse_eq_ok, not_or, not_not, not_not] at hsame
  obtain ⟨rfl, rfl⟩ := hsame
  exact hdecoded

theorem inspectHeader_short {content : Bytes} (h : content.length < format.walHeaderBytes) :
    inspectHeader content format historyId =
      .error (corrupt "WAL generation header is truncated") := by
  unfold inspectHeader refuse
  rw [if_pos h]
  rfl

/-- What was recovered is read again, frame by frame. -/
theorem forEachFrame_recovered (h : Named generation firstSequence)
    (hframed : ∀ unit ∈ units, Framed unit) (hfits : firstSequence + units.length ≤ maxSequence + 1) :
    forEachFrame (generationHeader format historyId generation firstSequence ++
      frames format firstSequence units) format historyId generation firstSequence units.length =
        .ok (framesFrom firstSequence units) := by
  obtain ⟨hlength, hvalid⟩ := @validateGenerationHeader_generationHeader format historyId _ _ h.1
    h.2.1 h.2.2.1 h.2.2.2
  have hwhole : Recoverable format firstSequence (frames format firstSequence units) units [] :=
    ⟨(List.append_nil _).symm, hframed, hfits, .inl rfl⟩
  unfold forEachFrame scan
  rw [List.take_left' hlength, hvalid, List.drop_left' hlength, hwhole.scanFrom_eq (.inl rfl)]
  simp [Scan.after, refuse, bind, Except.bind, pure, Except.pure]

/-! ### The loop over the generations -/

/-- What the loop has met before a generation: nothing, or the generation before it. -/
def Entered (previousGeneration expectedNextSequence generation firstSequence : ℕ) : Prop :=
  (previousGeneration = 0 ∧ expectedNextSequence = 0 ∧ (generation = 1 → firstSequence = 1)) ∨
    0 < previousGeneration ∧ generation = previousGeneration + 1 ∧
      firstSequence = expectedNextSequence

/-- A generation as it is opened. -/
def openedAs (format : WalFormat) (historyId : HistoryId) (generation firstSequence : ℕ)
    (units : List PreparedUnit) (tail : Bytes) : Opened where
  generation
  firstSequence
  result := recovered format (generationHeader format historyId generation firstSequence)
    firstSequence units tail

theorem openMembers_cons {previousGeneration expectedNextSequence : ℕ} {tail : Bytes}
    {rest : List WalMember} (hnamed : Named generation firstSequence)
    (hentered : Entered previousGeneration expectedNextSequence generation firstSequence)
    (hmanifest : ∀ m ∈ manifest, generation = m.walGeneration → firstSequence = m.walFirstSequence)
    (hbody : Recoverable format firstSequence body units tail) (hallow : tail = [] ∨ rest = []) :
    openMembers format historyId manifest previousGeneration expectedNextSequence
      (⟨generation, generationHeader format historyId generation firstSequence ++ body⟩ :: rest) =
        (do
          let next ← nextSequence (openedAs format historyId generation firstSequence units tail)
          return openedAs format historyId generation firstSequence units tail ::
            (← openMembers format historyId manifest generation next rest)) := by
  obtain ⟨hlength, hvalid⟩ := @validateGenerationHeader_generationHeader format historyId _ _
    hnamed.1 hnamed.2.1 hnamed.2.2.1 hnamed.2.2.2
  have hcontiguous : ¬((generation : ℤ) ≠ generation ∨
      previousGeneration ≠ 0 ∧ generation ≠ previousGeneration + 1 ∨
      previousGeneration = 0 ∧ generation = 1 ∧ (firstSequence : ℤ) ≠ 1 ∨
      expectedNextSequence ≠ 0 ∧ (firstSequence : ℤ) ≠ expectedNextSequence) := by
    unfold Entered at hentered
    omega
  have hboundary : ¬(manifest.any (fun m => decide (generation = m.walGeneration ∧
      (firstSequence : ℤ) ≠ m.walFirstSequence)) = true) := by
    rw [Option.any_eq_true]
    rintro ⟨m, hm, h⟩
    rw [decide_eq_true_eq] at h
    exact h.2 (by exact_mod_cast hmanifest m hm h.1)
  have hallow' : tail = [] ∨ rest.isEmpty = true := hallow.imp_right List.isEmpty_iff.mpr
  rw [openMembers, inspectHeader_whole hnamed]
  show (do refuse _ _; refuse _ _; _) = _
  unfold refuse
  rw [if_neg hcontiguous, if_neg hboundary]
  show (do let result ← openLog _ _ _ _ (firstSequence : ℤ).toNat _; _) = _
  rw [Int.toNat_natCast, hbody.openLog_eq hlength hvalid hallow']
  rfl

theorem openMembers_truncated {previousGeneration expectedNextSequence : ℕ} {content : Bytes}
    {rest : List WalMember} (h : content.length < format.walHeaderBytes) :
    openMembers format historyId manifest previousGeneration expectedNextSequence
      (⟨generation, content⟩ :: rest) = .error (corrupt "WAL generation header is truncated") := by
  rw [openMembers, inspectHeader_short h]
  rfl

/-! ### The files -/

/-- A file with whole frames, all on the disk. -/
structure Holds (format : WalFormat) (historyId : HistoryId) (f : LogFile)
    (units : List PreparedUnit) : Prop where
  named : Named f.generation f.firstSequence
  framed : ∀ unit ∈ units, Framed unit
  fits : f.firstSequence + units.length ≤ maxSequence + 1
  content : f.file.content = f.header format historyId ++ frames format f.firstSequence units
  settled : f.file.settled = f.file.content.length
  linked : f.file.linked = true

/-- Files that hold the frames of one history, from a generation and a sequence to others. -/
inductive Chain (format : WalFormat) (historyId : HistoryId) :
    (generation sequence : ℕ) → List LogFile → List Frame → (generation' sequence' : ℕ) → Prop where
  | nil {generation sequence : ℕ} :
      Chain format historyId generation sequence [] [] generation sequence
  | cons {f : LogFile} {units : List PreparedUnit} {files : List LogFile} {accepted : List Frame}
      {generation sequence generation' sequence' : ℕ} (hgeneration : f.generation = generation)
      (hsequence : f.firstSequence = sequence) (hf : Holds format historyId f units)
      (hrest : Chain format historyId (generation + 1) (sequence + units.length) files accepted
        generation' sequence') :
      Chain format historyId generation sequence (f :: files) (framesFrom sequence units ++ accepted)
        generation' sequence'

section

variable {g s g' s' : ℕ} {files files' : List LogFile} {accepted : List Frame} {f : LogFile}

theorem Chain.snoc (h : Chain format historyId g s files accepted f.generation f.firstSequence)
    (hf : Holds format historyId f units) :
    Chain format historyId g s (files ++ [f]) (accepted ++ framesFrom f.firstSequence units)
      (f.generation + 1) (f.firstSequence + units.length) := by
  generalize hgeneration : f.generation = generation' at h
  generalize hsequence : f.firstSequence = sequence' at h
  induction h with
  | nil =>
    subst hgeneration hsequence
    rw [List.nil_append, List.nil_append, ← List.append_nil (framesFrom _ _)]
    exact .cons rfl rfl hf .nil
  | cons hfirst hseq hheld hrest ih =>
    rw [List.cons_append, List.append_assoc]
    exact .cons hfirst hseq hheld (ih hgeneration hsequence)

theorem Chain.unsnoc (h : Chain format historyId g s (files ++ [f]) accepted g' s') :
    ∃ older units, Chain format historyId g s files older f.generation f.firstSequence ∧
      Holds format historyId f units ∧ accepted = older ++ framesFrom f.firstSequence units ∧
      g' = f.generation + 1 ∧ s' = f.firstSequence + units.length := by
  induction files generalizing g s accepted with
  | nil =>
    cases h with
    | cons hgeneration hsequence hf hrest =>
      cases hrest
      subst hgeneration hsequence
      exact ⟨[], _, .nil, hf, List.append_nil _, rfl, rfl⟩
  | cons first files ih =>
    cases h with
    | cons hfirst hseq hheld hrest =>
      obtain ⟨older, units, hchain, hf, rfl, hgeneration, hsequence⟩ := ih hrest
      exact ⟨_, units, .cons hfirst hseq hheld hchain, hf, (List.append_assoc _ _ _).symm,
        hgeneration, hsequence⟩

theorem Chain.consecutive (h : Chain format historyId g s files accepted g' s') :
    accepted.map (·.sequence) = List.range' s accepted.length ∧ s' = s + accepted.length := by
  induction h with
  | nil => exact ⟨rfl, rfl⟩
  | @cons f units _ _ _ sequence _ _ _ _ _ _ ih =>
    have hlength : (framesFrom sequence units).length = units.length := by
      rw [← List.length_map (·.sequence), map_sequence_framesFrom, List.length_range']
    rw [List.map_append, map_sequence_framesFrom, ih.1, List.length_append, hlength,
      List.range'_append_1]
    exact ⟨rfl, by omega⟩

/-- The generations of the files lie between the ends. -/
theorem Chain.bounds (h : Chain format historyId g s files accepted g' s') :
    g' = g + files.length ∧ s ≤ s' ∧
      ∀ f ∈ files, g ≤ f.generation ∧ f.generation < g' ∧ s ≤ f.firstSequence := by
  induction h with
  | nil => exact ⟨rfl, le_rfl, fun f hf => by cases hf⟩
  | cons hfirst hseq hheld hrest ih =>
    obtain ⟨hgeneration, hsequence, hall⟩ := ih
    refine ⟨by rw [hgeneration, List.length_cons]; omega, by omega, fun f hf => ?_⟩
    rcases List.mem_cons.mp hf with rfl | hf
    · exact ⟨by omega, by omega, by omega⟩
    · obtain ⟨hlow, hhigh, hseq⟩ := hall f hf
      exact ⟨by omega, hhigh, by omega⟩

theorem Chain.linked (h : Chain format historyId g s files accepted g' s') :
    ∀ f ∈ files, f.file.linked = true := by
  induction h with
  | nil => exact fun f hf => by cases hf
  | cons _ _ hheld _ ih =>
    intro f hf
    rcases List.mem_cons.mp hf with rfl | hf
    · exact hheld.linked
    · exact ih f hf

/-- Every file of a chain is as it was after a stop. -/
theorem Holds.torn {g : LogFile} (h : Holds format historyId f units) (htorn : f.file.Torn g.file)
    (hgeneration : g.generation = f.generation) (hfirst : g.firstSequence = f.firstSequence) :
    g = f := by
  have hcontent : g.file.content = f.file.content := by
    have hforced := htorn.forced
    rw [h.settled, List.take_length] at hforced
    exact htorn.written.eq_of_length_le hforced.length_le
  have hfile : g.file = f.file := by
    rw [htorn.found, hcontent, ← h.settled, ← h.linked]
  cases g
  cases f
  simp only at hfile hgeneration hfirst
  subst hfile hgeneration hfirst
  rfl

theorem Chain.stops {last : LogFile} (h : Chain format historyId g s files accepted g' s')
    (hstops : Stops (files ++ [last]) files') :
    ∃ rest, files' = files ++ rest ∧ Stops [last] rest := by
  induction h generalizing files' with
  | nil => exact ⟨files', rfl, hstops⟩
  | cons _ _ hf hrest ih =>
    cases hstops with
    | kept htorn hgeneration hfirst hstops =>
      obtain ⟨rest, rfl, hlast⟩ := ih hstops
      exact ⟨rest, by rw [hf.torn htorn hgeneration hfirst, List.cons_append], hlast⟩
    | lost hlinked _ =>
      rw [hf.linked] at hlinked
      cases hlinked

end

/-! ### Opening a chain -/

section

variable {g s g' s' : ℕ} {files : List LogFile} {accepted : List Frame}
  {previousGeneration expectedNextSequence : ℕ}

/-- The boundary of a manifest does not contradict a file. -/
def Agrees (manifest : Option Boundary) (f : LogFile) : Prop :=
  ∀ m ∈ manifest, f.generation = m.walGeneration → f.firstSequence = m.walFirstSequence

theorem Holds.reopened {f : LogFile} (h : Holds format historyId f units) :
    f.reopened (openedAs format historyId f.generation f.firstSequence units []) = f := by
  have hcontent : (openedAs format historyId f.generation f.firstSequence units []).result.content =
      f.file.content := h.content.symm
  unfold LogFile.reopened
  rw [hcontent, ← h.settled, ← h.linked]

theorem replayFrames_append {opened opened' : List Opened} {accepted' : List Frame}
    (h : replayFrames format historyId opened = .ok accepted)
    (h' : replayFrames format historyId opened' = .ok accepted') :
    replayFrames format historyId (opened ++ opened') = .ok (accepted ++ accepted') := by
  induction opened generalizing accepted with
  | nil =>
    obtain rfl := Except.ok.inj h
    exact h'
  | cons first opened ih =>
    rw [replayFrames] at h
    obtain ⟨frames, hframes, h⟩ := Lib.bind_eq_ok.mp h
    obtain ⟨later, hlater, h⟩ := Lib.bind_eq_ok.mp h
    obtain rfl := Except.ok.inj h
    rw [List.cons_append, replayFrames, hframes, ih hlater, List.append_assoc]
    rfl

/-- The files that `openMembers` has gone through, and what it meets behind them. -/
theorem Chain.openMembers_append (h : Chain format historyId g s files accepted g' s')
    (hentered : Entered previousGeneration expectedNextSequence g s)
    (hmanifest : ∀ f ∈ files, Agrees manifest f) (hspace : s' ≤ maxSequence) :
    ∃ opened previous expected, Entered previous expected g' s' ∧
      List.zipWith LogFile.reopened files opened = files ∧ opened.length = files.length ∧
      replayFrames format historyId opened = .ok accepted ∧
      (∀ o ∈ opened.getLast?, o.firstSequence + o.result.records = s') ∧
      ∀ rest, openMembers format historyId manifest previousGeneration expectedNextSequence
        (files.map LogFile.member ++ rest) =
          (openMembers format historyId manifest previous expected rest).map (opened ++ ·) := by
  induction h generalizing previousGeneration expectedNextSequence with
  | nil =>
    refine ⟨[], _, _, hentered, rfl, rfl, rfl, ?_, fun rest => ?_⟩
    · simp
    · rw [List.map_nil, List.nil_append]
      cases openMembers format historyId manifest previousGeneration expectedNextSequence rest <;> rfl
  | @cons f units files accepted _ _ g' s' hgeneration hsequence hf hrest ih =>
    subst hgeneration hsequence
    have hbounds := hrest.bounds.2.1
    have hpositive := hf.named.1
    have hbody : Recoverable format f.firstSequence (frames format f.firstSequence units) units [] :=
      ⟨(List.append_nil _).symm, hf.framed, hf.fits, .inl rfl⟩
    have hnext : nextSequence (openedAs format historyId f.generation f.firstSequence units []) =
        .ok (f.firstSequence + units.length) := if_neg (by simp only [openedAs, recovered]; omega)
    obtain ⟨opened, previous, expected, hlast, hfiles, hlength, hreplay, hend, hopen⟩ := ih
      (.inr ⟨hpositive, rfl, rfl⟩ : Entered f.generation (f.firstSequence + units.length) _ _)
      (fun other hother => hmanifest other (List.mem_cons_of_mem _ hother)) hspace
    refine ⟨openedAs format historyId f.generation f.firstSequence units [] :: opened, previous,
      expected, hlast, ?_, ?_, ?_, fun o ho => ?_, fun rest => ?_⟩
    · rw [List.zipWith_cons_cons, hf.reopened, hfiles]
    · rw [List.length_cons, List.length_cons, hlength]
    · unfold replayFrames openedAs recovered
      rw [forEachFrame_recovered hf.named hf.framed hf.fits, hreplay]
      rfl
    · cases opened with
      | nil =>
        cases List.length_eq_zero_iff.mp hlength.symm
        cases hrest
        obtain rfl := Option.some.inj ho
        rfl
      | cons first opened => exact hend o (by rwa [List.getLast?_cons_cons] at ho)
    · show openMembers _ _ _ _ _ (⟨f.generation, f.file.content⟩ ::
        (files.map LogFile.member ++ rest)) = _
      rw [hf.content]
      unfold LogFile.header
      rw [openMembers_cons hf.named hentered (hmanifest f List.mem_cons_self) hbody (.inl rfl), hnext]
      show (do return _ :: (← openMembers _ _ _ _ _ _)) = _
      rw [hopen]
      cases openMembers format historyId manifest previous expected rest <;> rfl

theorem Chain.firstSequence_inj (h : Chain format historyId g s files accepted g' s') :
    ∀ f ∈ files, ∀ f' ∈ files, f.generation = f'.generation → f.firstSequence = f'.firstSequence := by
  induction h with
  | nil => exact fun f hf => by cases hf
  | cons hfirst hseq _ hrest ih =>
    have hlater := hrest.bounds.2.2
    intro f hf f' hf' heq
    rcases List.mem_cons.mp hf with hf | hf <;> rcases List.mem_cons.mp hf' with hf' | hf'
    · rw [hf, hf']
    · have := (hlater _ hf').1
      rw [hf] at heq
      omega
    · have := (hlater _ hf).1
      rw [hf'] at heq
      omega
    · exact ih f hf f' hf' heq

/-- The first generation of the files, with one more behind them. -/
theorem Chain.members (h : Chain format historyId g s files accepted g' s') (f : LogFile)
    (hf : f.generation = g') :
    ∃ first rest, first.generation = g ∧ (files ++ [f]).map LogFile.member = first :: rest := by
  cases h with
  | nil => exact ⟨f.member, [], hf, rfl⟩
  | cons hgeneration _ _ _ => exact ⟨_, _, hgeneration, rfl⟩

/-- The file that the boundary of a manifest names is there. -/
def Boundary.Within (m : Boundary) (files : List LogFile) : Prop :=
  ∃ f ∈ files, f.generation = m.walGeneration ∧ f.firstSequence = m.walFirstSequence

theorem Chain.agrees {f : LogFile}
    (h : Chain format historyId g s files accepted f.generation f.firstSequence)
    (hmanifest : ∀ m ∈ manifest, m.Within (files ++ [f])) :
    ∀ other ∈ files ++ [f], Agrees manifest other := by
  have hbounds := h.bounds
  have hinj := h.firstSequence_inj
  intro other hother m hm hgeneration
  obtain ⟨named, hmember, hnamed, hfirst⟩ := hmanifest m hm
  rw [← hfirst]
  rw [← hnamed] at hgeneration
  rcases List.mem_append.mp hother with hother | hother <;>
    rcases List.mem_append.mp hmember with hmember | hmember
  · exact hinj _ hother _ hmember hgeneration
  · have := (hbounds.2.2 _ hother).2.1
    rw [List.mem_singleton.mp hmember] at hgeneration
    omega
  · have := (hbounds.2.2 _ hmember).2.1
    rw [List.mem_singleton.mp hother] at hgeneration
    omega
  · rw [List.mem_singleton.mp hother, List.mem_singleton.mp hmember]

theorem openWals_of_error {first : WalMember} {rest : List WalMember} {e : DurabilityException}
    (h : openMembers format historyId manifest 0 0 (first :: rest) = .error e) :
    openWals format historyId manifest (first :: rest) = .error e := by
  unfold openWals
  rw [h]
  rfl

theorem openWals_of_ok {first : WalMember} {rest : List WalMember} {opened : List Opened}
    (h : openMembers format historyId manifest 0 0 (first :: rest) = .ok opened)
    (hmanifest : ∀ m ∈ manifest, (∃ member ∈ first :: rest, member.generation = m.walGeneration) ∧
      first.generation ≤ m.walGeneration) :
    openWals format historyId manifest (first :: rest) = .ok opened := by
  have hpresent : ¬(manifest.any (fun m => decide
      ((∀ member ∈ first :: rest, member.generation ≠ m.walGeneration) ∨
        first.generation > m.walGeneration)) = true) := by
    rw [Option.any_eq_true]
    rintro ⟨m, hm, hmissing⟩
    obtain ⟨⟨member, hmember, hgeneration⟩, hfirst⟩ := hmanifest m hm
    rcases decide_eq_true_eq.mp hmissing with hnone | hlow
    · exact hnone member hmember hgeneration
    · omega
  unfold openWals
  rw [h]
  show (do refuse _ _; return opened) = _
  unfold refuse
  rw [if_neg hpresent]
  rfl

/-- Files are opened when the last one has its header and, behind it, what can be recovered. -/
theorem Chain.openWals {f : LogFile} {kept : List PreparedUnit} {tail : Bytes}
    (h : Chain format historyId g s files accepted f.generation f.firstSequence)
    (hnamed : Named f.generation f.firstSequence) (hstart : g = 1 → s = 1)
    (hmanifest : ∀ m ∈ manifest, m.Within (files ++ [f]))
    (hcontent : f.file.content = f.header format historyId ++ body)
    (hbody : Recoverable format f.firstSequence body kept tail) :
    ∃ opened f', List.zipWith LogFile.reopened (files ++ [f]) opened = files ++ [f'] ∧
      f'.generation = f.generation ∧ f'.firstSequence = f.firstSequence ∧
      Holds format historyId f' kept ∧
      replayFrames format historyId opened =
        .ok (accepted ++ framesFrom f.firstSequence kept) ∧
      (∀ o ∈ opened.getLast?, o.firstSequence + o.result.records = f.firstSequence + kept.length) ∧
      ((f.firstSequence + kept.length ≤ maxSequence ∧
        openWals format historyId manifest ((files ++ [f]).map LogFile.member) = .ok opened) ∨
      (maxSequence < f.firstSequence + kept.length ∧
        ∃ e, openWals format historyId manifest ((files ++ [f]).map LogFile.member) = .error e)) := by
  have hbounds := h.bounds
  have hagrees := h.agrees hmanifest
  obtain ⟨opened, previous, expected, hentered, hfiles, hlength, hreplay, -, hopen⟩ :=
    h.openMembers_append (.inl ⟨rfl, rfl, hstart⟩)
      (fun other hother => hagrees other (List.mem_append_left _ hother)) hnamed.2.2.2
  have hlast := @openMembers_cons format historyId _ _ _ _ _ _ _ _ _ hnamed hentered
    (hagrees f (List.mem_append_right _ List.mem_cons_self)) hbody (.inr rfl)
  generalize ho : openedAs format historyId f.generation f.firstSequence kept tail = o at hlast
  have hrecovered : o.result.content =
      f.header format historyId ++ frames format f.firstSequence kept := by
    rw [← ho]
    rfl
  have hnext : o.firstSequence + o.result.records = f.firstSequence + kept.length := by
    rw [← ho]
    rfl
  refine ⟨opened ++ [o], f.reopened o, ?_, rfl, rfl, ?_, ?_, ?_, ?_⟩
  · rw [List.zipWith_append hlength.symm, hfiles]
    rfl
  · exact ⟨hnamed, hbody.framed, hbody.fits, hrecovered, rfl, rfl⟩
  · refine replayFrames_append hreplay ?_
    rw [← ho]
    unfold replayFrames openedAs recovered
    rw [forEachFrame_recovered hnamed hbody.framed hbody.fits]
    exact congrArg Except.ok (List.append_nil _)
  · intro o' ho'
    rw [List.getLast?_concat] at ho'
    obtain rfl := Option.some.inj ho'
    exact hnext
  · have hmember : f.member =
        ⟨f.generation, generationHeader format historyId f.generation f.firstSequence ++ body⟩ := by
      rw [LogFile.member, hcontent]
      rfl
    have hwhole := hopen [f.member]
    rw [hmember, hlast, ← hmember, ← List.map_singleton, ← List.map_append] at hwhole
    obtain ⟨first, rest, hfirst, hmembers⟩ := h.members f rfl
    rw [hmembers] at hwhole ⊢
    rcases Nat.lt_or_ge maxSequence (f.firstSequence + kept.length) with hfull | hspace
    · rw [nextSequence, hnext, if_pos hfull] at hwhole
      exact .inr ⟨hfull, _, openWals_of_error hwhole⟩
    · rw [nextSequence, hnext, if_neg (by omega)] at hwhole
      refine .inl ⟨hspace, openWals_of_ok hwhole fun m hm => ?_⟩
      obtain ⟨named, hnamed, hgeneration, -⟩ := hmanifest m hm
      rw [← hmembers, ← hgeneration]
      refine ⟨⟨_, List.mem_map_of_mem hnamed, rfl⟩, ?_⟩
      rcases List.mem_append.mp hnamed with hnamed | hnamed
      · exact hfirst.trans_le (hbounds.2.2 _ hnamed).1
      · rw [List.mem_singleton.mp hnamed]
        omega

end

/-! ### Runs -/

/-- What is on the disk in a run: whole frames in the older files, and in the last one whole frames
that are forced with a beginning of others behind them, or a beginning of a header. -/
structure Layout (format : WalFormat) (historyId : HistoryId) (d : Logs) (g s : ℕ)
    (accepted : List Frame) (units pending : List PreparedUnit) : Prop where
  chain : Chain format historyId g s d.older accepted d.last.generation d.last.firstSequence
  start : g = 1 → s = 1
  named : Named d.last.generation d.last.firstSequence
  framed : ∀ unit ∈ units ++ pending, Framed unit
  fits : d.last.firstSequence + (units ++ pending).length ≤ maxSequence + 1
  whole : d.last.file.linked = true → ∃ body,
    d.last.file.content = d.last.header format historyId ++ body ∧
    body <+: frames format d.last.firstSequence (units ++ pending) ∧
    d.last.header format historyId ++ frames format d.last.firstSequence units <+:
      d.last.file.content.take d.last.file.settled
  begun : d.last.file.linked = false → d.last.file.content <+: d.last.header format historyId ∧
    units = [] ∧ pending = [] ∧ d.writer = none ∧ d.older ≠ []
  writer : ∀ next ∈ d.writer, pending = [] ∧ next = d.last.firstSequence + units.length
  acknowledged : ∀ frame ∈ d.acknowledged,
    0 < frame.sequence ∧ frame.sequence < s ∨ frame ∈ accepted ++ framesFrom d.last.firstSequence units
  attempted : ∀ frame ∈ accepted ++ framesFrom d.last.firstSequence (units ++ pending),
    frame ∈ d.attempted
  manifest : ∀ m ∈ d.manifest, ∃ f ∈ d.files, f.file.linked = true ∧
    f.generation = m.walGeneration ∧ f.firstSequence = m.walFirstSequence
  unpublished : d.manifest = none → g = 1

/-- What an opening makes of the files that a stop leaves. -/
structure Reopens (format : WalFormat) (historyId : HistoryId) (d : Logs) (g s : ℕ)
    (files : List LogFile) (opened : List Opened) (accepted : List Frame) : Prop where
  chain : ∃ g' s', Chain format historyId g s (List.zipWith LogFile.reopened files opened) accepted g'
    s' ∧ (∀ o ∈ opened.getLast?, o.firstSequence + o.result.records = s') ∧
    ((s' ≤ maxSequence ∧
      openWals format historyId d.manifest (files.map LogFile.member) = .ok opened) ∨
    (maxSequence < s' ∧
      ∃ e, openWals format historyId d.manifest (files.map LogFile.member) = .error e))
  replayed : replayFrames format historyId opened = .ok accepted
  kept : ∀ frame ∈ d.acknowledged, 0 < frame.sequence ∧ frame.sequence < s ∨ frame ∈ accepted
  known : ∀ frame ∈ accepted, frame ∈ d.attempted
  manifest : ∀ m ∈ d.manifest, m.Within (List.zipWith LogFile.reopened files opened)
  whole : ∀ f ∈ files.getLast?, format.walHeaderBytes ≤ f.file.content.length

section

variable {d d' : Logs} {g s : ℕ} {accepted : List Frame} {pending : List PreparedUnit}
  {files : List LogFile}

theorem length_header {f : LogFile} (h : Named f.generation f.firstSequence) :
    (f.header format historyId).length = format.walHeaderBytes :=
  (@validateGenerationHeader_generationHeader format historyId _ _ h.1 h.2.1 h.2.2.1 h.2.2.2).1

/-- What was forced of the frames is recovered, with what was attempted at most. -/
theorem Chain.reopens {f : LogFile} {kept : List PreparedUnit} {tail : Bytes}
    (h : Chain format historyId g s files accepted f.generation f.firstSequence)
    (hnamed : Named f.generation f.firstSequence) (hstart : g = 1 → s = 1)
    (hmanifest : ∀ m ∈ d.manifest, m.Within (files ++ [f]))
    (hcontent : f.file.content = f.header format historyId ++ body)
    (hbody : Recoverable format f.firstSequence body kept tail)
    (hkept : ∀ frame ∈ d.acknowledged,
      0 < frame.sequence ∧ frame.sequence < s ∨ frame ∈ accepted ++ framesFrom f.firstSequence kept)
    (hknown : ∀ frame ∈ accepted ++ framesFrom f.firstSequence kept, frame ∈ d.attempted) :
    ∃ opened accepted, Reopens format historyId d g s (files ++ [f]) opened accepted := by
  obtain ⟨opened, f', hfiles, hgeneration, hfirst, hholds, hreplay, hlast, hopen⟩ :=
    h.openWals hnamed hstart hmanifest hcontent hbody
  rw [← hgeneration, ← hfirst] at h
  refine ⟨opened, _, ⟨⟨f'.generation + 1, _, ?_, hlast, hopen⟩, hreplay, hkept, hknown, ?_, ?_⟩⟩
  · rw [hfiles, ← hfirst]
    exact h.snoc hholds
  · intro m hm
    obtain ⟨named, hmember, hnamed⟩ := hmanifest m hm
    rw [hfiles]
    rcases List.mem_append.mp hmember with hmember | hmember
    · exact ⟨named, List.mem_append_left _ hmember, hnamed⟩
    · refine ⟨f', List.mem_append_right _ List.mem_cons_self, ?_⟩
      rw [hgeneration, hfirst, ← List.mem_singleton.mp hmember]
      exact hnamed
  · intro other hother
    rw [List.getLast?_concat] at hother
    obtain rfl := Option.some.inj hother
    rw [hcontent, List.length_append, length_header hnamed]
    omega

theorem Layout.within (h : Layout format historyId d g s accepted units pending) {m : Boundary}
    (hm : m ∈ d.manifest) : m.Within (d.older ++ [d.last]) := by
  obtain ⟨f, hf, -, hnamed⟩ := h.manifest m hm
  exact ⟨f, hf, hnamed⟩

/-- The older files are opened, when nothing is left of the last one. -/
theorem Layout.reopens_lost (h : Layout format historyId d g s accepted units pending)
    (hlost : d.last.file.linked = false) :
    ∃ opened accepted, Reopens format historyId d g s d.older opened accepted := by
  obtain ⟨-, rfl, rfl, -, holder⟩ := h.begun hlost
  obtain ⟨older, f, hfiles⟩ := (List.eq_nil_or_concat' d.older).resolve_left holder
  have hchain := h.chain
  rw [hfiles] at hchain ⊢
  obtain ⟨before, held, hbefore, hf, haccepted, -, -⟩ := hchain.unsnoc
  have hframes : accepted ++ framesFrom d.last.firstSequence [] =
      before ++ framesFrom f.firstSequence held := by rw [framesFrom, List.append_nil, haccepted]
  refine hbefore.reopens hf.named h.start (fun m hm => ?_) hf.content
    ⟨(List.append_nil _).symm, hf.framed, hf.fits, .inl rfl⟩ ?_ ?_
  · obtain ⟨named, hnamed, hlinked, hboundary⟩ := h.manifest m hm
    unfold Logs.files at hnamed
    rw [hfiles] at hnamed
    rcases List.mem_append.mp hnamed with hnamed | hnamed
    · exact ⟨named, hnamed, hboundary⟩
    · rw [List.mem_singleton.mp hnamed, hlost] at hlinked
      cases hlinked
  · rw [← hframes]
    exact h.acknowledged
  · rw [← hframes]
    exact h.attempted

/-- The last file is opened when its header is there. -/
theorem Layout.reopens_kept {f : LogFile}
    (h : Layout format historyId d g s accepted units pending) (htorn : d.last.file.Torn f.file)
    (hgeneration : f.generation = d.last.generation) (hfirst : f.firstSequence = d.last.firstSequence)
    (hwhole : format.walHeaderBytes ≤ f.file.content.length) :
    ∃ opened accepted, Reopens format historyId d g s (d.older ++ [f]) opened accepted := by
  have hheader : f.header format historyId = d.last.header format historyId := by
    unfold LogFile.header
    rw [hgeneration, hfirst]
  obtain ⟨body, kept, tail, hcontent, hbody, hunits, hpending⟩ : ∃ body kept tail,
      f.file.content = d.last.header format historyId ++ body ∧
      Recoverable format d.last.firstSequence body kept tail ∧ units <+: kept ∧
      kept <+: units ++ pending := by
    by_cases hlinked : d.last.file.linked = true
    · obtain ⟨body, hcontent, hframes, hsettled⟩ := h.whole hlinked
      have hforced := hsettled.trans htorn.forced
      obtain ⟨found, hfound⟩ := (List.prefix_append _ _).trans hforced
      have hwritten := htorn.written
      rw [← hfound, hcontent, List.prefix_append_right_inj] at hwritten
      rw [← hfound, List.prefix_append_right_inj] at hforced
      obtain ⟨kept, tail, hrecoverable, hkept, hmost⟩ := exists_recoverable h.framed h.fits
        (hwritten.trans hframes)
      exact ⟨found, kept, tail, hfound.symm, hrecoverable,
        hmost units (List.prefix_append _ _) hforced, hkept⟩
    · obtain ⟨hbegun, rfl, rfl, -⟩ := h.begun (Bool.eq_false_of_not_eq_true hlinked)
      have hsame := (htorn.written.trans hbegun).eq_of_length_le
        (by rw [length_header h.named]; exact hwhole)
      refine ⟨[], [], [], by rw [hsame, List.append_nil], ⟨rfl, by simp, ?_, .inl rfl⟩,
        List.prefix_rfl, List.nil_prefix⟩
      exact h.fits
  have hchain := h.chain
  have hnamed := h.named
  rw [← hfirst] at hbody
  rw [← hheader] at hcontent
  rw [← hgeneration, ← hfirst] at hchain hnamed
  have hacknowledged := h.acknowledged
  have hattempted := h.attempted
  rw [← hfirst] at hacknowledged hattempted
  obtain ⟨more, rfl⟩ := hunits
  obtain ⟨others, hothers⟩ := hpending
  refine hchain.reopens hnamed h.start (fun m hm => ?_) hcontent hbody (fun frame hframe => ?_)
    fun frame hframe => hattempted frame ?_
  · obtain ⟨named, hmember, hboundary⟩ := h.within hm
    rcases List.mem_append.mp hmember with hmember | hmember
    · exact ⟨named, List.mem_append_left _ hmember, hboundary⟩
    · refine ⟨f, List.mem_append_right _ List.mem_cons_self, ?_⟩
      rw [hgeneration, hfirst, ← List.mem_singleton.mp hmember]
      exact hboundary
  · refine (hacknowledged frame hframe).imp_right fun hmem => ?_
    rw [framesFrom_append, ← List.append_assoc]
    exact List.mem_append_left _ hmem
  · rw [← hothers, framesFrom_append, ← List.append_assoc]
    exact List.mem_append_left _ hframe

/-- An opening is refused when the header of the last file was cut off, and only then. -/
theorem Layout.opening (h : Layout format historyId d g s accepted units pending)
    (hstops : Stops d.files files) :
    (∃ f ∈ files.getLast?, f.file.content.length < format.walHeaderBytes ∧
      openWals format historyId d.manifest (files.map LogFile.member) =
        .error (corrupt "WAL generation header is truncated")) ∨
    ∃ opened accepted, Reopens format historyId d g s files opened accepted := by
  obtain ⟨rest, rfl, hrest⟩ := h.chain.stops hstops
  cases hrest with
  | lost hlost hnone =>
    cases hnone
    rw [List.append_nil]
    exact .inr (h.reopens_lost hlost)
  | @kept _ f _ _ htorn hgeneration hfirst hnone =>
    cases hnone
    rcases Nat.lt_or_ge f.file.content.length format.walHeaderBytes with hshort | hwhole
    · refine .inl ⟨f, by rw [List.getLast?_concat]; rfl, hshort, ?_⟩
      have hagrees := h.chain.agrees fun m hm => h.within hm
      obtain ⟨opened, previous, expected, -, -, -, -, -, hopen⟩ :=
        h.chain.openMembers_append (.inl ⟨rfl, rfl, h.start⟩)
          (fun other hother => hagrees other (List.mem_append_left _ hother)) h.named.2.2.2
      have hlast := hopen [f.member]
      rw [LogFile.member, openMembers_truncated hshort, ← LogFile.member, ← List.map_singleton,
        ← List.map_append] at hlast
      obtain ⟨first, members, -, hmembers⟩ := h.chain.members f hgeneration
      rw [hmembers] at hlast ⊢
      exact openWals_of_error hlast
    · exact .inr (h.reopens_kept htorn hgeneration hfirst hwhole)

end

/-! ### Steps -/

section

variable {d d' : Logs} {g s next : ℕ} {accepted : List Frame} {pending : List PreparedUnit}

/-- A writer stands behind whole frames. -/
theorem Layout.clean (h : Layout format historyId d g s accepted units pending)
    (hwriter : d.writer = some next) :
    pending = [] ∧ next = d.last.firstSequence + units.length ∧ d.last.file.linked = true ∧
      d.last.file.content =
        d.last.header format historyId ++ frames format d.last.firstSequence units := by
  obtain ⟨rfl, hnext⟩ := h.writer next hwriter
  have hlinked : d.last.file.linked = true := by
    by_contra hnot
    obtain ⟨-, -, -, hnone, -⟩ := h.begun (Bool.eq_false_of_not_eq_true hnot)
    rw [hwriter] at hnone
    cases hnone
  obtain ⟨body, hcontent, hbody, hsettled⟩ := h.whole hlinked
  have hframes := hsettled.trans (List.take_prefix _ _)
  rw [hcontent, List.prefix_append_right_inj] at hframes
  rw [List.append_nil] at hbody
  rw [hbody.eq_of_length_le hframes.length_le] at hcontent
  exact ⟨rfl, hnext, hlinked, hcontent⟩

/-- The file that a cut leaves behind is one of the older ones. -/
theorem Layout.cut (h : Layout format historyId d g s accepted units pending)
    (hwriter : d.writer = some next) (hnext : next ≤ maxSequence)
    (hgeneration : d.last.generation < maxSequence) :
    Chain format historyId g s (d.older ++ [d.last.force])
      (accepted ++ framesFrom d.last.firstSequence units) (d.last.generation + 1) next ∧
    Named (d.last.generation + 1) next := by
  obtain ⟨rfl, rfl, hlinked, hcontent⟩ := h.clean hwriter
  have hnamed := h.named
  refine ⟨?_, by omega, hgeneration, by unfold Named at hnamed; omega, hnext⟩
  have hholds : Holds format historyId d.last.force units := by
    refine ⟨h.named, fun unit hunit => h.framed unit (List.mem_append_left _ hunit), ?_, hcontent, rfl,
      hlinked⟩
    have hfits := h.fits
    rw [List.append_nil] at hfits
    exact hfits
  exact Chain.snoc (f := d.last.force) h.chain hholds

/-- Some generations and frames for which the layout is as it should be. -/
def Sound (format : WalFormat) (historyId : HistoryId) (d : Logs) : Prop :=
  ∃ g s accepted units pending, Layout format historyId d g s accepted units pending

theorem layout_fresh :
    Layout format historyId (Logs.fresh format historyId) 1 1 [] [] [] := by
  have hnamed : Named 1 1 := ⟨by decide, by decide, by decide, by decide⟩
  refine ⟨.nil, fun _ => rfl, hnamed, by simp, ?_, fun _ => ?_, ?_, fun next hnext => ?_, ?_, ?_, ?_,
    fun _ => rfl⟩
  · show 1 + 0 ≤ maxSequence + 1
    omega
  · refine ⟨[], (List.append_nil _).symm, List.nil_prefix, ?_⟩
    show generationHeader format historyId 1 1 ++ [] <+:
      (generationHeader format historyId 1 1).take (generationHeader format historyId 1 1).length
    rw [List.take_length, List.append_nil]
  · rintro ⟨⟩
  · exact ⟨rfl, (Option.some.inj hnext).symm⟩
  · rintro frame ⟨⟩
  · rintro frame ⟨⟩
  · rintro m ⟨⟩

theorem sound_fresh : Sound format historyId (Logs.fresh format historyId) :=
  ⟨1, 1, [], [], [], layout_fresh⟩

/-- The last file still answers to the boundary when it is written. -/
theorem Layout.manifest_last (h : Layout format historyId d g s accepted units pending)
    (last : LogFile)
    (hgeneration : last.generation = d.last.generation)
    (hfirst : last.firstSequence = d.last.firstSequence)
    (hlinked : last.file.linked = d.last.file.linked) {m : Boundary} (hm : m ∈ d.manifest) :
    ∃ f ∈ d.older ++ [last], f.file.linked = true ∧ f.generation = m.walGeneration ∧
      f.firstSequence = m.walFirstSequence := by
  obtain ⟨f, hf, hnamed⟩ := h.manifest m hm
  rcases List.mem_append.mp hf with hf | hf
  · exact ⟨f, List.mem_append_left _ hf, hnamed⟩
  · rw [List.mem_singleton.mp hf, ← hgeneration, ← hfirst, ← hlinked] at hnamed
    exact ⟨_, List.mem_append_right _ List.mem_cons_self, hnamed⟩

theorem Layout.append {units' : List PreparedUnit}
    (h : Layout format historyId d g s accepted units pending) (hwriter : d.writer = some next)
    (hframed : ∀ unit ∈ units', Framed unit) (hfits : next + units'.length ≤ maxSequence + 1) :
    Layout format historyId { d with
      last := (d.last.write (frames format next units')).force
      writer := some (next + units'.length)
      acknowledged := d.acknowledged ++ framesFrom next units'
      attempted := d.attempted ++ framesFrom next units' } g s accepted (units ++ units') [] := by
  obtain ⟨rfl, rfl, hlinked, hcontent⟩ := h.clean hwriter
  have hframes := @frames_append format units units' d.last.firstSequence
  have hnew := @framesFrom_append units units' d.last.firstSequence
  refine ⟨h.chain, h.start, h.named, fun unit hunit => ?_, ?_, fun _ => ?_, fun hlost => ?_,
    fun other hother => ?_, fun frame hframe => ?_, fun frame hframe => ?_,
    fun m hm => ?_, h.unpublished⟩
  · rw [List.append_nil] at hunit
    rcases List.mem_append.mp hunit with hunit | hunit
    · exact h.framed unit (List.mem_append_left _ hunit)
    · exact hframed unit hunit
  · show d.last.firstSequence + _ ≤ _
    rw [List.append_nil, List.length_append]
    omega
  · have hall : d.last.file.content ++
          frames format (d.last.firstSequence + units.length) units' =
        d.last.header format historyId ++ frames format d.last.firstSequence (units ++ units') := by
      rw [hcontent, hframes, List.append_assoc]
    refine ⟨_, hall, by rw [List.append_nil]; exact List.prefix_rfl, ?_⟩
    show _ <+: List.take (List.length (_ ++ _)) (_ ++ _)
    rw [List.take_length, hall]
    exact List.prefix_rfl
  · have hlinked' : d.last.file.linked = false := hlost
    rw [hlinked] at hlinked'
    cases hlinked'
  · obtain rfl := Option.some.inj hother
    refine ⟨rfl, ?_⟩
    show _ = d.last.firstSequence + _
    rw [List.length_append, Nat.add_assoc]
  · show _ ∨ frame ∈ accepted ++ framesFrom d.last.firstSequence _
    rw [hnew, ← List.append_assoc, List.mem_append]
    rcases List.mem_append.mp hframe with hframe | hframe
    · exact (h.acknowledged frame hframe).imp_right .inl
    · exact .inr (.inr hframe)
  · have hframe : frame ∈ accepted ++ framesFrom d.last.firstSequence (units ++ units' ++ []) := hframe
    rw [List.append_nil, hnew, ← List.append_assoc] at hframe
    rcases List.mem_append.mp hframe with hframe | hframe
    · exact List.mem_append_left _ (h.attempted frame (by rwa [List.append_nil]))
    · exact List.mem_append_right _ hframe
  · exact h.manifest_last (d.last.write _).force rfl rfl rfl hm

theorem Layout.appendFails {units' : List PreparedUnit} {written : ℕ}
    (h : Layout format historyId d g s accepted units pending) (hwriter : d.writer = some next)
    (hframed : ∀ unit ∈ units', Framed unit) (hfits : next + units'.length ≤ maxSequence + 1) :
    Layout format historyId { d with
      last := d.last.write ((frames format next units').take written)
      writer := none
      attempted := d.attempted ++ framesFrom next units' } g s accepted units units' := by
  obtain ⟨rfl, rfl, hlinked, hcontent⟩ := h.clean hwriter
  have hframes := @frames_append format units units' d.last.firstSequence
  have hnew := @framesFrom_append units units' d.last.firstSequence
  refine ⟨h.chain, h.start, h.named, fun unit hunit => ?_, ?_, fun _ => ?_, fun hlost => ?_,
    fun other hother => (by cases hother), h.acknowledged, fun frame hframe => ?_,
    fun m hm => ?_, h.unpublished⟩
  · rcases List.mem_append.mp hunit with hunit | hunit
    · exact h.framed unit (List.mem_append_left _ hunit)
    · exact hframed unit hunit
  · show d.last.firstSequence + _ ≤ _
    rw [List.length_append]
    omega
  · obtain ⟨-, -, -, hsettled⟩ := h.whole hlinked
    refine ⟨frames format d.last.firstSequence units ++
      (frames format (d.last.firstSequence + units.length) units').take written, ?_, ?_, ?_⟩
    · show d.last.file.content ++ _ = d.last.header format historyId ++ _
      rw [hcontent, List.append_assoc]
    · show _ <+: frames format d.last.firstSequence (units ++ units')
      rw [hframes, List.prefix_append_right_inj]
      exact List.take_prefix _ _
    · show _ <+: (d.last.file.content ++ _).take d.last.file.settled
      rw [List.prefix_take_iff] at hsettled ⊢
      exact ⟨hsettled.1.trans (List.prefix_append _ _), hsettled.2⟩
  · have hlinked' : d.last.file.linked = false := hlost
    rw [hlinked] at hlinked'
    cases hlinked'
  · have hframe : frame ∈ accepted ++ framesFrom d.last.firstSequence (units ++ units') := hframe
    rw [hnew, ← List.append_assoc] at hframe
    rcases List.mem_append.mp hframe with hframe | hframe
    · exact List.mem_append_left _ (h.attempted frame (by rwa [List.append_nil]))
    · exact List.mem_append_right _ hframe
  · exact h.manifest_last (d.last.write _) rfl rfl rfl hm

/-- A cut, whether it returns or not: the new file has its header, or a beginning of it. -/
theorem Layout.afterCut (h : Layout format historyId d g s accepted units pending) (last : LogFile)
    (writer : Option ℕ) (hwriter : d.writer = some next)
    (hnext : next ≤ maxSequence) (hgeneration : d.last.generation < maxSequence)
    (hlast : last.generation = d.last.generation + 1) (hfirst : last.firstSequence = next)
    (hcreated : last.file.linked = true → last.file.content = last.header format historyId ∧
      last.file.settled = last.file.content.length ∧ (writer = none ∨ writer = some next))
    (hbegun : last.file.linked = false →
      last.file.content <+: last.header format historyId ∧ writer = none) :
    Layout format historyId { d with older := d.older ++ [d.last.force], last, writer } g s
      (accepted ++ framesFrom d.last.firstSequence units) [] [] := by
  obtain ⟨hchain, hnamed⟩ := h.cut hwriter hnext hgeneration
  obtain ⟨rfl, -, -, -⟩ := h.clean hwriter
  rw [← hlast, ← hfirst] at hchain hnamed
  refine ⟨hchain, h.start, hnamed, by simp, hnamed.2.2.2.trans (Nat.le_succ _), fun hlinked => ?_,
    fun hlost => ?_, fun other hother => ?_, fun frame hframe => ?_, fun frame hframe => ?_,
    fun m hm => ?_, h.unpublished⟩
  · obtain ⟨hcontent, hsettled, -⟩ := hcreated hlinked
    refine ⟨[], by rw [hcontent, List.append_nil], List.nil_prefix, ?_⟩
    show _ <+: last.file.content.take last.file.settled
    rw [hsettled, List.take_length, hcontent, frames, List.append_nil]
  · obtain ⟨hcontent, hnone⟩ := hbegun hlost
    exact ⟨hcontent, rfl, rfl, hnone, by simp⟩
  · refine ⟨rfl, ?_⟩
    have hother : writer = some other := hother
    have hlinked : last.file.linked = true := by
      by_contra hnot
      rw [(hbegun (Bool.eq_false_of_not_eq_true hnot)).2] at hother
      cases hother
    rcases (hcreated hlinked).2.2 with hnone | hsome
    · rw [hnone] at hother
      cases hother
    · rw [hsome] at hother
      rw [← Option.some.inj hother]
      exact hfirst.symm
  · show _ ∨ frame ∈ _ ++ []
    rw [List.append_nil]
    exact h.acknowledged frame hframe
  · have hframe : frame ∈ accepted ++ framesFrom d.last.firstSequence units ++ [] := hframe
    rw [List.append_nil] at hframe
    exact h.attempted frame (by rwa [List.append_nil])
  · obtain ⟨f, hf, hboundary⟩ := h.manifest m hm
    rcases List.mem_append.mp hf with hf | hf
    · exact ⟨f, List.mem_append_left _ (List.mem_append_left _ hf), hboundary⟩
    · rw [List.mem_singleton.mp hf] at hboundary
      exact ⟨_, List.mem_append_left _ (List.mem_append_right _ List.mem_cons_self), hboundary⟩

theorem Layout.delete {f : LogFile} {rest : List LogFile} {m : Boundary}
    (h : Layout format historyId d g s accepted units pending) (holder : d.older = f :: rest)
    (hmanifest : d.manifest = some m) (hcovered : f.generation < m.walGeneration) :
    ∃ held later, accepted = framesFrom s held ++ later ∧
      Layout format historyId { d with older := rest } (g + 1) (s + held.length) later units
        pending := by
  have hchain := h.chain
  rw [holder] at hchain
  cases hchain with
  | @cons _ held _ later _ _ _ _ hgeneration hsequence hf hrest =>
    have hpositive := hf.named.1
    have hremains : ∀ named ∈ d.files, named.generation = m.walGeneration →
        named ∈ rest ++ [d.last] := by
      intro named hnamed hboundary
      unfold Logs.files at hnamed
      rw [holder, List.cons_append] at hnamed
      rcases List.mem_cons.mp hnamed with rfl | hnamed
      · omega
      · exact hnamed
    have hboundary : ∀ m' ∈ d.manifest, ∃ f ∈ rest ++ [d.last], f.file.linked = true ∧
        f.generation = m'.walGeneration ∧ f.firstSequence = m'.walFirstSequence := by
      intro m' hm'
      rw [hmanifest] at hm'
      obtain rfl := Option.some.inj hm'
      obtain ⟨named, hnamed, hlinked, hsame, hfirst⟩ := h.manifest m hmanifest
      exact ⟨named, hremains named hnamed hsame, hlinked, hsame, hfirst⟩
    refine ⟨held, later, rfl, hrest, by omega, h.named, h.framed, h.fits,
      h.whole, fun hlost => ?_, h.writer, fun frame hframe => ?_, fun frame hframe => ?_, hboundary,
      fun hnone => ?_⟩
    · obtain ⟨hcontent, hunits, hpending, hwriter, -⟩ := h.begun hlost
      refine ⟨hcontent, hunits, hpending, hwriter, fun hempty => ?_⟩
      obtain ⟨named, hnamed, hlinked, -⟩ := hboundary m hmanifest
      rw [show rest = [] from hempty, List.nil_append, List.mem_singleton] at hnamed
      have hlost : d.last.file.linked = false := hlost
      rw [hnamed, hlost] at hlinked
      cases hlinked
    · rcases h.acknowledged frame hframe with hlow | hmem
      · exact .inl ⟨hlow.1, by omega⟩
      · rw [List.append_assoc] at hmem
        rcases List.mem_append.mp hmem with hmem | hmem
        · have hseq := List.mem_map_of_mem (f := (·.sequence)) hmem
          rw [map_sequence_framesFrom, List.mem_range'_1] at hseq
          have hfirst := hf.named.2.2.1
          exact .inl ⟨by omega, hseq.2⟩
        · exact .inr hmem
    · refine h.attempted frame ?_
      rw [List.append_assoc]
      exact List.mem_append_right _ hframe
    · rw [show d.manifest = none from hnone] at hmanifest
      cases hmanifest

theorem Layout.reopen {files older : List LogFile} {opened : List Opened} {last : LogFile} {o : Opened}
    (h : Layout format historyId d g s accepted units pending) (hstops : Stops d.files files)
    (hopen : openWals format historyId d.manifest (files.map LogFile.member) = .ok opened)
    (hfiles : List.zipWith LogFile.reopened files opened = older ++ [last])
    (hlast : o ∈ opened.getLast?) :
    ∃ before kept, replayFrames format historyId opened =
        .ok (before ++ framesFrom last.firstSequence kept) ∧
      Layout format historyId
        { d with older, last, writer := some (o.firstSequence + o.result.records) } g s before kept
          [] := by
  rcases h.opening hstops with ⟨_, -, -, herror⟩ | ⟨found, accepted', hreopens⟩
  · rw [hopen] at herror
    cases herror
  obtain ⟨g', s', hchain, hnext, ⟨-, hfound⟩ | ⟨-, e, herror⟩⟩ := hreopens.chain
  rotate_left
  · rw [hopen] at herror
    cases herror
  rw [hopen] at hfound
  obtain rfl := Except.ok.inj hfound
  have hmanifest := hreopens.manifest
  rw [hfiles] at hchain hmanifest
  have hlinked := hchain.linked
  obtain ⟨before, kept, hbefore, hf, rfl, -, rfl⟩ := hchain.unsnoc
  have hframed : ∀ unit ∈ kept ++ [], Framed unit := by
    rw [List.append_nil]
    exact hf.framed
  refine ⟨before, kept, hreopens.replayed, hbefore, h.start, hf.named, hframed, ?_, fun _ => ?_,
    fun hlost => ?_, fun next hnext' => ?_, hreopens.kept, fun frame hframe => ?_, fun m hm => ?_,
    h.unpublished⟩
  · rw [List.append_nil]
    exact hf.fits
  · refine ⟨_, hf.content, by rw [List.append_nil], ?_⟩
    show _ <+: last.file.content.take last.file.settled
    rw [hf.settled, List.take_length, hf.content]
  · have hlost : last.file.linked = false := hlost
    rw [hf.linked] at hlost
    cases hlost
  · refine ⟨rfl, ?_⟩
    rw [← Option.some.inj hnext']
    exact hnext o hlast
  · have hframe : frame ∈ before ++ framesFrom last.firstSequence (kept ++ []) := hframe
    rw [List.append_nil] at hframe
    exact hreopens.known frame hframe
  · obtain ⟨f, hmember, hboundary⟩ := hmanifest m hm
    exact ⟨f, hmember, hlinked f hmember, hboundary⟩

/-- Without a writer the files are as they were. -/
theorem Layout.halt (h : Layout format historyId d g s accepted units pending) :
    Layout format historyId { d with writer := none } g s accepted units pending := by
  refine ⟨h.chain, h.start, h.named, h.framed, h.fits, h.whole, fun hlost => ?_,
    fun next hnext => (by cases hnext), h.acknowledged, h.attempted, h.manifest, h.unpublished⟩
  obtain ⟨hcontent, hunits, hpending, -, holder⟩ := h.begun hlost
  exact ⟨hcontent, hunits, hpending, rfl, holder⟩

theorem Layout.publish {f : LogFile} (h : Layout format historyId d g s accepted units pending)
    (hf : f ∈ d.files) (hcut : f.file.linked = true) :
    Layout format historyId { d with manifest := some ⟨f.generation, f.firstSequence⟩ } g s accepted
      units pending := by
  refine ⟨h.chain, h.start, h.named, h.framed, h.fits, h.whole, h.begun, h.writer, h.acknowledged,
    h.attempted, fun m hm => ?_, fun hnone => by cases hnone⟩
  obtain rfl := Option.some.inj hm
  exact ⟨f, hf, hcut, rfl, rfl⟩

theorem Sound.step (h : Sound format historyId d) (hs : Step format historyId d d') :
    Sound format historyId d' := by
  obtain ⟨g, s, accepted, units, pending, h⟩ := h
  cases hs with
  | append hwriter hframed hfits => exact ⟨g, s, _, _, _, h.append hwriter hframed hfits⟩
  | appendFails written hwriter hframed hfits =>
    exact ⟨g, s, _, _, _, h.appendFails hwriter hframed hfits⟩
  | @cut next hwriter hnext hgeneration =>
    have hcut := h.afterCut (.created format historyId (d.last.generation + 1) next) d.writer hwriter
      hnext hgeneration rfl rfl (fun _ => ⟨rfl, rfl, .inr hwriter⟩) (fun hlost => by cases hlost)
    exact ⟨g, s, _, _, _, hcut⟩
  | @cutFails next written hwriter hnext hgeneration =>
    have hcut := h.afterCut (.begun format historyId (d.last.generation + 1) next written) none hwriter
      hnext hgeneration rfl rfl (fun hcreated => by cases hcreated) (fun _ => ⟨List.take_prefix _ _, rfl⟩)
    exact ⟨g, s, _, _, _, hcut⟩
  | halt => exact ⟨g, s, _, _, _, h.halt⟩
  | publish hf hcut => exact ⟨g, s, _, _, _, h.publish hf hcut⟩
  | delete holder hmanifest hcovered =>
    obtain ⟨held, later, -, hlayout⟩ := h.delete holder hmanifest hcovered
    exact ⟨_, _, _, _, _, hlayout⟩
  | reopen hstops hopen hfiles hlast =>
    obtain ⟨before, kept, -, hlayout⟩ := h.reopen hstops hopen hfiles hlast
    exact ⟨_, _, _, _, _, hlayout⟩

theorem Reachable.sound (h : Reachable format historyId d) : Sound format historyId d := by
  induction h with
  | fresh => exact sound_fresh
  | step _ hs ih => exact ih.step hs

end

/-! ### A stop -/

/-- After a stop at any point of a run the log is opened unless the header of its last file was cut
off.  What it then replays has consecutive sequences, was attempted, and has every frame that was
acknowledged and is not behind the boundary of the published checkpoint. -/
theorem openWals_after_stop {d : Logs} {files : List LogFile} (hreachable : Reachable format historyId d)
    (hstops : Stops d.files files) (hspace : ∀ frame ∈ d.attempted, frame.sequence < maxSequence) :
    ((∃ f ∈ files.getLast?, f.file.content.length < format.walHeaderBytes) →
      ∃ e, openWals format historyId d.manifest (files.map LogFile.member) = .error e ∧
        e.reason = .corruptWal) ∧
    ((∀ f ∈ files.getLast?, format.walHeaderBytes ≤ f.file.content.length) →
      ∃ opened accepted first,
        openWals format historyId d.manifest (files.map LogFile.member) = .ok opened ∧
        replayFrames format historyId opened = .ok accepted ∧
        accepted.map (·.sequence) = List.range' first accepted.length ∧
        (∀ frame ∈ accepted, frame ∈ d.attempted) ∧
        match d.manifest with
        | none => first = 1 ∧ ∀ frame ∈ d.acknowledged, frame ∈ accepted
        | some m => first ≤ m.walFirstSequence ∧
          ∀ frame ∈ d.acknowledged, m.walFirstSequence ≤ frame.sequence → frame ∈ accepted) := by
  obtain ⟨g, s, before, units, pending, h⟩ := hreachable.sound
  rcases h.opening hstops with ⟨f, hf, hshort, herror⟩ | ⟨opened, accepted, hreopens⟩
  · refine ⟨fun _ => ⟨_, herror, rfl⟩, fun hwhole => ?_⟩
    have := hwhole f hf
    omega
  · refine ⟨fun ⟨f, hf, hshort⟩ => ?_, fun _ => ?_⟩
    · have := hreopens.whole f hf
      omega
    obtain ⟨g', s', hchain, -, hopen⟩ := hreopens.chain
    obtain ⟨hconsecutive, hend⟩ := hchain.consecutive
    have hlow := h.chain.bounds.2.1
    have hlast := h.named.2.2.2
    have hfits : s' ≤ maxSequence := by
      cases hlength : accepted.length with
      | zero => omega
      | succ n =>
        have hmem : s + n ∈ accepted.map (·.sequence) := by
          rw [hconsecutive, List.mem_range'_1]
          omega
        obtain ⟨frame, hframe, hsequence⟩ := List.mem_map.mp hmem
        have := hspace frame (hreopens.known frame hframe)
        omega
    obtain ⟨-, hopened⟩ | ⟨hfull, -⟩ := hopen
    rotate_left
    · omega
    refine ⟨opened, accepted, s, hopened, hreopens.replayed, hconsecutive, hreopens.known, ?_⟩
    cases hmanifest : d.manifest with
    | none =>
      have hfirst := h.start (h.unpublished hmanifest)
      refine ⟨hfirst, fun frame hframe => ?_⟩
      exact (hreopens.kept frame hframe).resolve_left (by omega)
    | some m =>
      obtain ⟨f, hf, -, hboundary⟩ := hreopens.manifest m hmanifest
      have hcovers := (hchain.bounds.2.2 f hf).2.2
      refine ⟨by omega, fun frame hframe hlate => ?_⟩
      exact (hreopens.kept frame hframe).resolve_left (by omega)

end GeneralSearch.Durable.DurableWal
