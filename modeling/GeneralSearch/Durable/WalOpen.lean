import GeneralSearch.Durable.WalDamage

/-! `DurableWal.open`: a log is recovered up to its last whole frame, and a damaged frame is not taken
for an incomplete one. -/

namespace GeneralSearch.Durable.DurableWal

variable {format : WalFormat} {historyId : HistoryId} {generation firstSequence : ℕ} {allow : Bool}
  {header body tail rest : Bytes} {units : List PreparedUnit}

/-! ### The header of a generation -/

theorem get_le {position : ℕ} {buffer : Bytes} (h : position + 8 ≤ buffer.length) :
    get 8 position buffer ≤ maxSequence := by
  have hlength := length_slice h
  have hbounds := ofTwosComplement_bounds (slice position 8 buffer)
    (List.ne_nil_of_length_pos (by omega))
  rw [hlength] at hbounds
  unfold get maxSequence
  omega

theorem walHeaderBytes_eq :
    format.walHeaderBytes = (if format.hasProfile then 32 else 0) + 48 := by
  unfold WalFormat.walHeaderBytes
  split <;> rfl

/-- The first sequence of a log whose header is valid is a `long`. -/
theorem firstSequence_le (hlength : header.length = format.walHeaderBytes)
    (hvalid : validateGenerationHeader header format historyId generation firstSequence = .ok ()) :
    firstSequence ≤ maxSequence := by
  unfold validateGenerationHeader at hvalid
  obtain ⟨decoded, hdecoded, hexpected⟩ := Lib.bind_eq_ok.mp hvalid
  rw [refuse_eq_ok, not_or, not_not, not_not] at hexpected
  unfold decodeGenerationHeader at hdecoded
  simp only [Lib.bind_eq_ok] at hdecoded
  obtain ⟨_, -, _, -, _, -, _, -, hdecoded⟩ := hdecoded
  have hfirst : decoded.firstSequence ≤ maxSequence := by
    rw [← Except.ok.inj hdecoded]
    refine get_le ?_
    rw [hlength, walHeaderBytes_eq]
    omega
  omega

theorem slice_end {position width : ℕ} {a b : Bytes} (hposition : a.length = position)
    (hwidth : b.length = width) : slice position width (a ++ b) = b := by
  unfold slice
  rw [List.drop_left' hposition, List.take_of_length_le hwidth.le]

/-- The fields of a written header, where a reader looks for them. -/
theorem slices_generationHeader {digestBytes : ℕ}
    (hdigest : format.profileDigest.length = digestBytes) :
    (generationHeader format historyId generation firstSequence).take (digestBytes + 44) =
      generationIdentity format historyId generation firstSequence ∧
    slice 0 8 (generationHeader format historyId generation firstSequence) = put 8 WAL_MAGIC ∧
    slice 8 2 (generationHeader format historyId generation firstSequence) = put 2 MAJOR ∧
    slice 10 2 (generationHeader format historyId generation firstSequence) =
      put 2 format.minor ∧
    slice 12 8 (generationHeader format historyId generation firstSequence) =
      put 8 historyId.mostSignificantBits.toInt ∧
    slice 20 8 (generationHeader format historyId generation firstSequence) =
      put 8 historyId.leastSignificantBits.toInt ∧
    slice 28 digestBytes (generationHeader format historyId generation firstSequence) =
      format.profileDigest ∧
    slice (digestBytes + 28) 8 (generationHeader format historyId generation firstSequence) =
      put 8 generation ∧
    slice (digestBytes + 36) 8 (generationHeader format historyId generation firstSequence) =
      put 8 firstSequence ∧
    slice (digestBytes + 44) 4 (generationHeader format historyId generation firstSequence) =
      put 4 (checksum (generationIdentity format historyId generation firstSequence)) := by
  have hidentity : (generationIdentity format historyId generation firstSequence).length =
      digestBytes + 44 := by
    unfold generationIdentity
    simp only [List.length_append, length_put]
    omega
  refine ⟨List.take_left' hidentity, ?_, ?_, ?_, ?_, ?_, ?_, ?_, ?_, slice_end hidentity length_put⟩
  all_goals
    unfold generationHeader
    rw [slice_append (by omega)]
    unfold generationIdentity
    repeat rw [slice_append (by simp only [List.length_append, length_put]; omega)]
  · exact List.take_of_length_le length_put.le
  all_goals
    refine slice_end ?_ (by first | exact length_put | exact hdigest)
    simp only [List.length_append, length_put]
    try omega

theorem long_range (v : Int64) : -(256 ^ 8 : ℕ) ≤ 2 * v.toInt ∧ 2 * v.toInt < (256 ^ 8 : ℕ) := by
  have hlow := v.le_toInt
  have hhigh := v.toInt_lt
  omega

theorem length_profileDigest :
    format.profileDigest.length = if format.hasProfile then 32 else 0 := by
  rw [format.digest_length]
  unfold WalFormat.hasProfile
  by_cases h : format.minor = 0 <;> simp [h]

/-- The header that a generation starts with is valid. -/
theorem validateGenerationHeader_generationHeader (hgeneration : 0 < generation)
    (hgeneration' : generation ≤ maxSequence) (hfirst : 0 < firstSequence)
    (hfirst' : firstSequence ≤ maxSequence) :
    (generationHeader format historyId generation firstSequence).length = format.walHeaderBytes ∧
    validateGenerationHeader (generationHeader format historyId generation firstSequence) format
      historyId generation firstSequence = .ok () := by
  have hheader := @walHeaderBytes_eq format
  have hlength : (generationHeader format historyId generation firstSequence).length =
      format.walHeaderBytes := by
    rw [hheader, ← length_profileDigest]
    unfold generationHeader generationIdentity
    simp only [List.length_append, length_put]
    omega
  obtain ⟨hidentity, hmagic, hmajor, hminor, hmost, hleast, hdigest, hgen, hseq, hchecksum⟩ :=
    @slices_generationHeader format historyId generation firstSequence _ length_profileDigest
  refine ⟨hlength, ?_⟩
  rw [hheader] at hlength
  have hmagic := (get_eq_iff (by omega) (by decide)).mpr hmagic
  have hmajor := (get_eq_iff (by omega) (by decide)).mpr hmajor
  have hminor := (get_eq_iff (by omega) minor_range).mpr hminor
  have hmost := (get_eq_iff (by omega) (long_range _)).mpr hmost
  have hleast := (get_eq_iff (by omega) (long_range _)).mpr hleast
  have hgen := (get_eq_iff (by omega) (sequence_range hgeneration')).mpr hgen
  have hseq := (get_eq_iff (by omega) (sequence_range hfirst')).mpr hseq
  have hchecksum := (@get_eq_iff 4 _ _ _ (by omega) checksum_range).mpr hchecksum
  have hcovered : (if format.hasProfile then 32 else 0) + 48 - 4 =
      (if format.hasProfile then 32 else 0) + 44 := by omega
  unfold validateGenerationHeader decodeGenerationHeader
  simp only [hheader, hcovered, hidentity, hmagic, hmajor, hminor, hmost, hleast, hgen,
    hseq, hchecksum, hdigest]
  have hpositive : ¬((generation : ℤ) ≤ 0 ∨ (firstSequence : ℤ) ≤ 0) := by omega
  simp only [refuse, ne_eq, not_true_eq_false, or_self, if_false, hpositive, bind, Except.bind,
    pure, Except.pure]

/-! ### Opening -/

/-- What `open` leaves of a log: its header and its whole frames. -/
def recovered (format : WalFormat) (header : Bytes) (firstSequence : ℕ) (units : List PreparedUnit)
    (tail : Bytes) : OpenResult where
  position := header.length + (frames format firstSequence units).length
  records := units.length
  truncatedBytes := tail.length
  content := header ++ frames format firstSequence units

section

variable (hlength : header.length = format.walHeaderBytes)
  (hvalid : validateGenerationHeader header format historyId generation firstSequence = .ok ())
include hlength hvalid

/-- Behind a valid header `open` scans the frames. -/
theorem openLog_eq : openLog (header ++ body) format historyId generation firstSequence allow =
    (do
      let scan ← scanFrom format allow body firstSequence ⟨header.length, 0, false, []⟩
      if scan.incompleteTail then
        return ⟨scan.boundary, scan.records, (header ++ body).length - scan.boundary,
          (header ++ body).take scan.boundary⟩
      return ⟨scan.boundary, scan.records, 0, header ++ body⟩) := by
  have hnotShort : ¬(header ++ body).length < format.walHeaderBytes := by
    rw [List.length_append]
    omega
  unfold openLog scan
  rw [List.take_left' hlength, List.drop_left' hlength, hvalid, ← hlength]
  rw [← hlength] at hnotShort
  unfold refuse
  rw [if_neg hnotShort]
  rfl

theorem Recoverable.openLog_eq (h : Recoverable format firstSequence body units tail)
    (hallow : tail = [] ∨ allow = true) :
    openLog (header ++ body) format historyId generation firstSequence allow =
      .ok (recovered format header firstSequence units tail) := by
  rw [DurableWal.openLog_eq hlength hvalid, h.scanFrom_eq hallow, h.content]
  unfold Scan.after recovered
  cases tail with
  | nil => simp [bind, Except.bind, pure, Except.pure]
  | cons b tail =>
    have hboundary : (header ++ frames format firstSequence units).length =
        header.length + (frames format firstSequence units).length := List.length_append
    have hcut : (header ++ (frames format firstSequence units ++ b :: tail)).length -
        (header.length + (frames format firstSequence units).length) = (b :: tail).length := by
      rw [← List.append_assoc, List.length_append, hboundary, Nat.add_sub_cancel_left]
    have hkept : (header ++ (frames format firstSequence units ++ b :: tail)).take
        (header.length + (frames format firstSequence units).length) =
          header ++ frames format firstSequence units := by
      rw [← List.append_assoc]
      exact List.take_left' hboundary
    simp only [List.isEmpty_cons, Bool.not_false, Bool.or_true, bind, Except.bind, if_true, pure,
      Except.pure, Nat.zero_add, hcut, hkept]

theorem orCorrupt_openLog :
    OrCorrupt (openLog (header ++ body) format historyId generation firstSequence allow) := by
  rw [openLog_eq hlength hvalid]
  refine orCorrupt_scanFrom.bind fun scan => ?_
  split <;> trivial

/-- `open` succeeds on recoverable logs only. -/
theorem openLog_eq_ok {result : OpenResult} :
    openLog (header ++ body) format historyId generation firstSequence allow = .ok result ↔
      ∃ units tail, Recoverable format firstSequence body units tail ∧ (tail = [] ∨ allow = true) ∧
        result = recovered format header firstSequence units tail := by
  constructor
  · intro h
    have hopened := h
    rw [openLog_eq hlength hvalid] at h
    obtain ⟨scan, hscan, -⟩ := Lib.bind_eq_ok.mp h
    obtain ⟨units, tail, hrecoverable, hallow⟩ :=
      recoverable_of_scanFrom (firstSequence_le hlength hvalid) hscan
    rw [hrecoverable.openLog_eq hlength hvalid hallow] at hopened
    exact ⟨units, tail, hrecoverable, hallow, (Except.ok.inj hopened).symm⟩
  · rintro ⟨units, tail, hrecoverable, hallow, rfl⟩
    exact hrecoverable.openLog_eq hlength hvalid hallow

theorem openLog_damaged {i : ℕ} {b : UInt8} (hframed : ∀ unit ∈ units, Framed unit)
    (hfits : firstSequence + units.length ≤ maxSequence + 1)
    (hi : i < (frames format firstSequence units).length)
    (hb : (frames format firstSequence units)[i]? ≠ some b) :
    ∃ e, openLog (header ++ ((frames format firstSequence units).set i b ++ rest)) format historyId
      generation firstSequence allow = .error e ∧ e.reason = .corruptWal := by
  refine (orCorrupt_openLog hlength hvalid).error fun result h => ?_
  rw [openLog_eq hlength hvalid] at h
  obtain ⟨scan, hscan, -⟩ := Lib.bind_eq_ok.mp h
  exact scanFrom_damaged hframed hfits hi hb scan hscan

/-- `open` recovers a log up to its last whole frame, refuses everything else as corrupt, and takes no
damaged frame for an incomplete one. -/
theorem openLog_recovers :
    (∀ body allow result,
      openLog (header ++ body) format historyId generation firstSequence allow = .ok result ↔
        ∃ units tail, Recoverable format firstSequence body units tail ∧
          (tail = [] ∨ allow = true) ∧
          result = recovered format header firstSequence units tail) ∧
    (∀ body allow e,
      openLog (header ++ body) format historyId generation firstSequence allow = .error e →
        e.reason = .corruptWal) ∧
    ∀ units rest allow i b, (∀ unit ∈ units, Framed unit) →
      firstSequence + units.length ≤ maxSequence + 1 →
      i < (frames format firstSequence units).length →
      (frames format firstSequence units)[i]? ≠ some b →
      ∃ e, openLog (header ++ ((frames format firstSequence units).set i b ++ rest)) format historyId
        generation firstSequence allow = .error e ∧ e.reason = .corruptWal := by
  refine ⟨fun body allow result => openLog_eq_ok hlength hvalid, fun body allow e h => ?_,
    fun units rest allow i b hframed hfits hi hb => openLog_damaged hlength hvalid hframed hfits hi hb⟩
  have hcorrupt : OrCorrupt (openLog (header ++ body) format historyId generation firstSequence allow) :=
    orCorrupt_openLog hlength hvalid
  rw [h] at hcorrupt
  exact hcorrupt

/-- Where an incomplete tail is allowed, `open` counts the whole frames and truncates the file behind
the last of them; a file of whole frames is refused when one of its bytes was changed. -/
theorem openLog_counts :
    (∀ body n, (∃ result, openLog (header ++ body) format historyId generation firstSequence true =
        .ok result ∧ result.records = n) ↔
      ∃ units tail, units.length = n ∧ Recoverable format firstSequence body units tail) ∧
    (∀ body units tail, Recoverable format firstSequence body units tail →
      openLog (header ++ body) format historyId generation firstSequence true =
        .ok ⟨(header ++ frames format firstSequence units).length, units.length, tail.length,
          header ++ frames format firstSequence units⟩) ∧
    ∀ units i b, Recoverable format firstSequence (frames format firstSequence units) units [] →
      i < (frames format firstSequence units).length →
      (frames format firstSequence units)[i]? ≠ some b →
      ∃ e, openLog (header ++ (frames format firstSequence units).set i b) format historyId generation
        firstSequence true = .error e ∧ e.reason = .corruptWal := by
  refine ⟨fun body n => ⟨?_, ?_⟩, fun body units tail h => ?_, fun units i b h hi hb => ?_⟩
  · rintro ⟨result, hopened, rfl⟩
    obtain ⟨units, tail, hrecoverable, -, rfl⟩ := (openLog_eq_ok hlength hvalid).mp hopened
    exact ⟨units, tail, rfl, hrecoverable⟩
  · rintro ⟨units, tail, rfl, hrecoverable⟩
    exact ⟨_, hrecoverable.openLog_eq hlength hvalid (.inr rfl), rfl⟩
  · rw [h.openLog_eq hlength hvalid (.inr rfl), recovered, List.length_append]
  · have hdamaged := @openLog_damaged _ _ _ _ true _ [] _ hlength hvalid i b h.framed h.fits hi hb
    rwa [List.append_nil] at hdamaged

end

/-- The first generation of a format without a profile. -/
def plainFormat : WalFormat := ⟨0, [], by decide, rfl⟩

def plainHeader : Bytes := generationHeader plainFormat ⟨1, 2⟩ 1 1

theorem openLog_recovers_plain :
    (∀ body allow result, openLog (plainHeader ++ body) plainFormat ⟨1, 2⟩ 1 1 allow = .ok result ↔
        ∃ units tail, Recoverable plainFormat 1 body units tail ∧ (tail = [] ∨ allow = true) ∧
          result = recovered plainFormat plainHeader 1 units tail) ∧
    (∀ body allow e, openLog (plainHeader ++ body) plainFormat ⟨1, 2⟩ 1 1 allow = .error e →
        e.reason = .corruptWal) ∧
    ∀ units rest allow i b, (∀ unit ∈ units, Framed unit) → 1 + units.length ≤ maxSequence + 1 →
      i < (frames plainFormat 1 units).length → (frames plainFormat 1 units)[i]? ≠ some b →
      ∃ e, openLog (plainHeader ++ ((frames plainFormat 1 units).set i b ++ rest)) plainFormat ⟨1, 2⟩
        1 1 allow = .error e ∧ e.reason = .corruptWal := by
  obtain ⟨hlength, hvalid⟩ := @validateGenerationHeader_generationHeader plainFormat ⟨1, 2⟩ 1 1
    (by decide) (by decide) (by decide) (by decide)
  exact openLog_recovers hlength hvalid

/-- Two additions. -/
def twoUnits : List PreparedUnit := [⟨1, [7, 8]⟩, ⟨1, [9]⟩]

/-- A log of two frames and the first bytes of a third. -/
def tornLog : Bytes := frames plainFormat 1 twoUnits ++ (frameBytes plainFormat 3 ⟨1, [5]⟩).take 30

theorem framed_twoUnits : ∀ unit ∈ twoUnits, Framed unit := by
  simp only [twoUnits, List.mem_cons, List.not_mem_nil, or_false, forall_eq_or_imp, forall_eq]
  exact ⟨⟨by decide, by decide⟩, by decide, by decide⟩

theorem recoverable_tornLog : Recoverable plainFormat 1 tornLog twoUnits
    ((frameBytes plainFormat 3 ⟨1, [5]⟩).take 30) where
  content := rfl
  framed := framed_twoUnits
  fits := by decide
  tail := by
    have hlength : ((frameBytes plainFormat 3 ⟨1, [5]⟩).take 30).length = 30 := by
      rw [List.length_take, length_frameBytes]
      rfl
    refine .inr ⟨by decide, ⟨1, [5]⟩, ⟨by decide, by decide⟩, ?_, fun i hi => ?_⟩
    · rw [length_frameBytes, hlength]
      decide
    · rw [Compared, hlength] at hi
      exact List.getElem?_take_of_lt hi.1

theorem openLog_counts_torn :
    openLog (plainHeader ++ tornLog) plainFormat ⟨1, 2⟩ 1 1 true =
      .ok ⟨(plainHeader ++ frames plainFormat 1 twoUnits).length, 2, 30,
        plainHeader ++ frames plainFormat 1 twoUnits⟩ ∧
    ∃ e, openLog (plainHeader ++ (frames plainFormat 1 twoUnits).set 8 1) plainFormat ⟨1, 2⟩ 1 1
      true = .error e ∧ e.reason = .corruptWal := by
  obtain ⟨hlength, hvalid⟩ := @validateGenerationHeader_generationHeader plainFormat ⟨1, 2⟩ 1 1
    (by decide) (by decide) (by decide) (by decide)
  obtain ⟨-, htruncates, hdamaged⟩ := openLog_counts hlength hvalid
  refine ⟨?_, hdamaged twoUnits 8 1 ⟨(List.append_nil _).symm, framed_twoUnits, by decide, .inl rfl⟩
    ?_ ?_⟩
  · have hcut : ((frameBytes plainFormat 3 ⟨1, [5]⟩).take 30).length = 30 := by
      rw [List.length_take, length_frameBytes]
      rfl
    have hopened := htruncates _ _ _ recoverable_tornLog
    rw [hcut] at hopened
    exact hopened
  · rw [twoUnits, frames, List.length_append, length_frameBytes]
    exact Nat.lt_add_right _ (by decide)
  · rw [twoUnits, frames, List.getElem?_append_left (by rw [length_frameBytes]; decide)]
    obtain ⟨-, hslice, -⟩ := @slices_frameBytes plainFormat 1 ⟨1, [7, 8]⟩
    rw [show (8 : ℕ) = 8 + 0 from rfl, getElem?_of_slice hslice (by decide)]
    decide

end GeneralSearch.Durable.DurableWal
