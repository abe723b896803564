import GeneralSearch.Durable.WalTail

/-! The scan of a log: it reads the frames that were written and stops at the tail. -/

namespace GeneralSearch.Durable.DurableWal

variable {format : WalFormat} {sequence : ℕ} {allow : Bool} {remaining tail : Bytes}
  {units : List PreparedUnit} {scan : Scan}

/-- What the consumer of a scan accepts. -/
def framesFrom : ℕ → List PreparedUnit → List Frame
  | _, [] => []
  | sequence, unit :: units => ⟨sequence, unit.type, unit.payload⟩ :: framesFrom (sequence + 1) units

/-- Whole frames with consecutive sequences, and behind them nothing or what the reader takes for the
start of the next frame. -/
structure Recoverable (format : WalFormat) (sequence : ℕ) (content : Bytes)
    (units : List PreparedUnit) (tail : Bytes) : Prop where
  content : content = frames format sequence units ++ tail
  framed : ∀ unit ∈ units, Framed unit
  fits : sequence + units.length ≤ maxSequence + 1
  tail : tail = [] ∨
    sequence + units.length ≤ maxSequence ∧ StartsFrame format (sequence + units.length) tail

/-- The scan behind some frames and a tail. -/
def Scan.after (scan : Scan) (format : WalFormat) (sequence : ℕ) (units : List PreparedUnit)
    (tail : Bytes) : Scan where
  boundary := scan.boundary + (frames format sequence units).length
  records := scan.records + units.length
  incompleteTail := scan.incompleteTail || !tail.isEmpty
  accepted := scan.accepted ++ framesFrom sequence units

theorem frames_cons {unit : PreparedUnit} : frames format sequence (unit :: units) ++ tail =
    frameBytes format sequence unit ++ (frames format (sequence + 1) units ++ tail) :=
  List.append_assoc ..

theorem frameBytes_append_ne_nil {unit : PreparedUnit} :
    frameBytes format sequence unit ++ remaining ≠ [] := by
  refine List.ne_nil_of_length_pos ?_
  rw [List.length_append, length_frameBytes]
  unfold frameLength frameHeaderBytes
  omega

theorem drop_frameBytes {unit : PreparedUnit} : (frameBytes format sequence unit ++ remaining).drop
    (readOf unit).header.frameLength = remaining :=
  List.drop_left' length_frameBytes

theorem Scan.after_cons {unit : PreparedUnit} : scan.after format sequence (unit :: units) tail =
    (scan.accept sequence (readOf unit)).after format (sequence + 1) units tail := by
  unfold Scan.after Scan.accept
  rw [Scan.mk.injEq]
  refine ⟨?_, ?_, rfl, ?_⟩
  · show scan.boundary + (frameBytes format sequence unit ++ _).length =
      scan.boundary + frameLength unit.payload.length + _
    rw [List.length_append, length_frameBytes, Nat.add_assoc]
  · show scan.records + (unit :: units).length = scan.records + 1 + units.length
    rw [List.length_cons]
    omega
  · show scan.accepted ++ ([_] ++ framesFrom (sequence + 1) units) = _
    rw [← List.append_assoc]
    rfl

theorem Recoverable.of_cons {unit : PreparedUnit} {content : Bytes}
    (h : Recoverable format sequence content (unit :: units) tail) :
    Recoverable format (sequence + 1) (frames format (sequence + 1) units ++ tail) units tail := by
  have hcount : sequence + 1 + units.length = sequence + (unit :: units).length := by
    rw [List.length_cons]
    omega
  exact ⟨rfl, fun other hmem => h.framed other (List.mem_cons_of_mem _ hmem), hcount ▸ h.fits,
    hcount ▸ h.tail⟩

/-- A round of the loop over a whole frame. -/
theorem scanFrom_frameBytes {unit : PreparedUnit} (hframed : Framed unit)
    (hsequence : sequence ≤ maxSequence) :
    scanFrom format allow (frameBytes format sequence unit ++ remaining) sequence scan =
      if sequence = maxSequence then do
        refuse (remaining ≠ []) "WAL sequence space contains an overflow"
        return scan.accept sequence (readOf unit)
      else
        scanFrom format allow remaining (sequence + 1) (scan.accept sequence (readOf unit)) := by
  rw [scanFrom, dif_neg frameBytes_append_ne_nil, scanFrame_frameBytes hframed hsequence]
  show (if _ then _ else _) = _
  rw [drop_frameBytes]

/-- The end of the loop, at the last boundary. -/
theorem scanFrom_tail (hallow : tail = [] ∨ allow = true)
    (htail : tail = [] ∨ sequence ≤ maxSequence ∧ StartsFrame format sequence tail) :
    scanFrom format allow tail sequence scan = .ok (scan.after format sequence [] tail) := by
  unfold Scan.after
  rw [scanFrom]
  by_cases hempty : tail = []
  · subst hempty
    simp [frames, framesFrom, pure, Except.pure]
  · obtain ⟨hsequence, hstarts⟩ := htail.resolve_left hempty
    rw [dif_neg hempty, (scanFrame_eq_none hsequence).mpr ⟨hallow.resolve_left hempty, hstarts⟩]
    simp [frames, framesFrom, bind, Except.bind, pure, Except.pure, hempty]

/-- The scan of a log that can be recovered. -/
theorem Recoverable.scanFrom_eq {content : Bytes} (h : Recoverable format sequence content units tail)
    (hallow : tail = [] ∨ allow = true) :
    scanFrom format allow content sequence scan = .ok (scan.after format sequence units tail) := by
  induction units generalizing sequence content scan with
  | nil =>
    rw [h.content]
    exact scanFrom_tail hallow h.tail
  | cons unit units ih =>
    have hfits := h.fits
    rw [List.length_cons] at hfits
    rw [h.content, frames_cons, scanFrom_frameBytes (h.framed _ List.mem_cons_self) (by omega),
      Scan.after_cons]
    split
    · -- No sequence is left for another frame.
      have hunits : units = [] := List.length_eq_zero_iff.mp (by omega)
      subst hunits
      have htail : tail = [] := h.tail.resolve_right (by rw [List.length_singleton]; omega)
      subst htail
      simp [Scan.after, frames, framesFrom, refuse, bind, Except.bind, pure, Except.pure]
    · exact ih h.of_cons

theorem Recoverable.cons {unit : PreparedUnit} {rest : Bytes}
    (h : Recoverable format (sequence + 1) rest units tail) (hframed : Framed unit) :
    Recoverable format sequence (frameBytes format sequence unit ++ rest) (unit :: units) tail := by
  have hcount : sequence + (unit :: units).length = sequence + 1 + units.length := by
    rw [List.length_cons]
    omega
  refine ⟨?_, ?_, hcount ▸ h.fits, hcount ▸ h.tail⟩
  · rw [h.content, frames_cons]
  · intro other hmem
    cases List.mem_cons.mp hmem with
    | inl heq => exact heq ▸ hframed
    | inr hmem => exact h.framed other hmem

/-- A scan that succeeds is that of a log that can be recovered. -/
theorem recoverable_of_scanFrom {content : Bytes} {result : Scan} (hsequence : sequence ≤ maxSequence)
    (h : scanFrom format allow content sequence scan = .ok result) :
    ∃ units tail, Recoverable format sequence content units tail ∧ (tail = [] ∨ allow = true) := by
  induction hn : content.length using Nat.strong_induction_on generalizing content sequence scan with
  | _ n ih =>
    by_cases hempty : content = []
    · exact ⟨[], [], ⟨hempty, by simp, by simp; omega, .inl rfl⟩, .inl rfl⟩
    have hround := h
    rw [scanFrom, dif_neg hempty] at hround
    obtain ⟨frame, hframe, -⟩ := Lib.bind_eq_ok.mp hround
    cases frame with
    | none =>
      obtain ⟨hallow, hstarts⟩ := (scanFrame_eq_none hsequence).mp hframe
      exact ⟨[], content, ⟨rfl, by simp, by simp; omega, .inr ⟨hsequence, hstarts⟩⟩, .inr hallow⟩
    | some frame =>
      obtain ⟨unit, rest, hframed, rfl, rfl⟩ := scanFrame_eq_some hsequence hframe
      rw [scanFrom_frameBytes hframed hsequence] at h
      split at h
      · obtain ⟨_, hrest, -⟩ := Lib.bind_eq_ok.mp h
        rw [refuse_eq_ok, not_not] at hrest
        subst hrest
        refine ⟨[unit], [], Recoverable.cons ⟨rfl, by simp, ?_, .inl rfl⟩ hframed, .inl rfl⟩
        simp only [List.length_nil]
        omega
      · have hlt : rest.length < n := by
          rw [← hn, List.length_append, length_frameBytes]
          unfold frameLength frameHeaderBytes
          omega
        obtain ⟨units, tail, hrest, hallow⟩ := ih _ hlt (by omega) h rfl
        exact ⟨unit :: units, tail, hrest.cons hframed, hallow⟩

/-! ### Refusals -/

/-- The only reason to throw is `CORRUPT_WAL`. -/
def OrCorrupt {α : Type} (x : Except DurabilityException α) : Prop :=
  Lib.Yields x (fun _ => True) (·.reason = .corruptWal)

namespace OrCorrupt

variable {α β : Type} {x : Except DurabilityException α}

theorem refuse {condition : Prop} [Decidable condition] {message : String} :
    OrCorrupt (DurableWal.refuse condition message) := by
  unfold DurableWal.refuse
  split
  · exact rfl
  · trivial

theorem bind {f : α → Except DurabilityException β} (h : OrCorrupt x) (hf : ∀ a, OrCorrupt (f a)) :
    OrCorrupt (x >>= f) := Lib.Yields.bind h fun a _ => hf a

theorem error (h : OrCorrupt x) (hx : ∀ a, x ≠ .ok a) :
    ∃ e, x = .error e ∧ e.reason = .corruptWal := by
  cases x with
  | ok a => exact absurd rfl (hx a)
  | error e => exact ⟨e, rfl, h⟩

end OrCorrupt

variable {encoded : Bytes}

theorem orCorrupt_decodeFrameHeader : OrCorrupt (decodeFrameHeader encoded format sequence) := by
  unfold decodeFrameHeader
  refine OrCorrupt.refuse.bind fun _ => ?_
  split
  · exact OrCorrupt.refuse.bind fun _ => OrCorrupt.refuse.bind fun _ => trivial
  · exact rfl

theorem orCorrupt_validateIncompleteHeaderPrefix :
    OrCorrupt (validateIncompleteHeaderPrefix encoded format sequence) := by
  unfold validateIncompleteHeaderPrefix
  repeat refine OrCorrupt.refuse.bind fun _ => ?_
  exact OrCorrupt.refuse

theorem orCorrupt_scanFrame : OrCorrupt (scanFrame format allow sequence remaining) := by
  unfold scanFrame
  split
  · exact orCorrupt_validateIncompleteHeaderPrefix.bind fun _ =>
      OrCorrupt.refuse.bind fun _ => trivial
  · refine orCorrupt_decodeFrameHeader.bind fun header => ?_
    split
    · exact OrCorrupt.refuse.bind fun _ => trivial
    · exact OrCorrupt.refuse.bind fun _ => trivial

theorem orCorrupt_scanFrom : OrCorrupt (scanFrom format allow remaining sequence scan) := by
  induction hn : remaining.length using Nat.strong_induction_on
    generalizing remaining sequence scan with
  | _ n ih =>
    rw [scanFrom]
    split
    · trivial
    rename_i hempty
    refine orCorrupt_scanFrame.bind fun frame => ?_
    cases frame with
    | none => trivial
    | some frame =>
      show OrCorrupt (if _ then _ else _)
      split
      · exact OrCorrupt.refuse.bind fun _ => trivial
      · have hpos := List.length_pos_iff.mpr hempty
        have hrelation := frame.header.relation
        unfold frameLength frameHeaderBytes at hrelation
        refine ih _ ?_ rfl
        rw [List.length_drop]
        omega

end GeneralSearch.Durable.DurableWal
