import GeneralSearch.Durable.WalScan

/-! A byte of a whole frame that changes is found by the scan: it does not turn the frame into an
incomplete one, for its two lengths must agree, and its checksum covers everything else. -/

namespace GeneralSearch.Durable.DurableWal

open GeneralSearch.Crc32c

variable {format : WalFormat} {sequence : ℕ} {allow : Bool} {rest : Bytes} {unit : PreparedUnit}
  {units : List PreparedUnit} {scan : Scan} {i : ℕ} {b : UInt8}

theorem put_inj {width : ℕ} {v v' : ℤ} (hv : -(256 ^ width : ℕ) ≤ 2 * v ∧ 2 * v < (256 ^ width : ℕ))
    (hv' : -(256 ^ width : ℕ) ≤ 2 * v' ∧ 2 * v' < (256 ^ width : ℕ))
    (h : put width v = put width v') : v = v' := by
  rw [← ofTwosComplement_twosComplement hv.1 hv.2, ← ofTwosComplement_twosComplement hv'.1 hv'.2]
  exact congrArg ofTwosComplement h

theorem slice_set {position width : ℕ} {bytes : Bytes} (h : i < position ∨ position + width ≤ i) :
    slice position width (bytes.set i b) = slice position width bytes := by
  refine slice_eq_iff.mpr fun j hj => List.getElem?_set_ne ?_
  omega

/-! ### Checksums -/

/-- Bytes with their checksum behind them. -/
def withChecksum (bytes : Bytes) : Bytes := bytes ++ put frameTrailerBytes (checksum bytes)

theorem checksum_set {bytes : Bytes} (hi : i < bytes.length)
    (h : checksum (bytes.set i b) = checksum bytes) : bytes[i]? = some b := by
  have hcrc := BitVec.eq_of_toInt_eq h
  have hbytes : bytes = bytes.take i ++ bytes[i] :: bytes.drop (i + 1) := by
    rw [List.getElem_cons_drop, List.take_append_drop]
  rw [List.set_eq_take_append_cons_drop, if_pos hi] at hcrc
  have hold := hcrc.trans (congrArg crc32c hbytes)
  rw [List.getElem?_eq_getElem hi, crc32c_eq_iff.mp hold]

/-- A change of one byte breaks the checksum, or it is in the checksum. -/
theorem withChecksum_set {bytes other : Bytes} (hi : i < (withChecksum bytes).length)
    (h : (withChecksum bytes).set i b = withChecksum other) : (withChecksum bytes)[i]? = some b := by
  unfold withChecksum at h hi ⊢
  have hlength := congrArg List.length h
  simp only [List.length_set, List.length_append, length_put] at hlength hi
  by_cases hcovered : i < bytes.length
  · rw [List.set_append_left _ _ hcovered] at h
    obtain ⟨rfl, htrailer⟩ := List.append_inj h (by rw [List.length_set]; omega)
    have heq := put_inj checksum_range checksum_range htrailer
    rw [List.getElem?_append_left hcovered]
    exact checksum_set hcovered heq.symm
  · rw [List.set_append_right _ _ (not_lt.mp hcovered)] at h
    obtain ⟨rfl, htrailer⟩ := List.append_inj h (by omega)
    rw [List.getElem?_append_right (not_lt.mp hcovered), ← htrailer]
    rw [List.getElem?_set_self (by rw [length_put]; omega)]

/-! ### Frames -/

theorem slice_take {position width n : ℕ} {bytes : Bytes} (h : position + width ≤ n) :
    slice position width (bytes.take n) = slice position width bytes := by
  refine slice_eq_iff.mpr fun j hj => ?_
  rw [List.getElem?_take_of_lt (by omega)]

theorem slice_append {position width : ℕ} {bytes : Bytes} (h : position + width ≤ bytes.length) :
    slice position width (bytes ++ rest) = slice position width bytes := by
  refine slice_eq_iff.mpr fun j hj => ?_
  rw [List.getElem?_append_left (by omega)]

/-- The lengths of a frame are still those of the frame where one byte changed and they agree. -/
theorem payloadLength_eq {type : UInt8} {payloadLength : ℕ} (hframed : Framed unit)
    (hbound : frameLength payloadLength ≤ maxFrameBytes)
    (h : ((frameBytes format sequence unit).set i b ++ rest).take frameHeaderBytes =
      frameHeader format (frameLength payloadLength) sequence type payloadLength) :
    payloadLength = unit.payload.length := by
  have hlong : frameHeaderBytes ≤ ((frameBytes format sequence unit).set i b).length := by
    rw [List.length_set, length_frameBytes]
    unfold frameLength
    omega
  have hfield : ∀ position, position + 4 ≤ frameHeaderBytes → (i < position ∨ position + 4 ≤ i) →
      slice position 4 (frameHeader format (frameLength unit.payload.length) sequence unit.type
        unit.payload.length) =
      slice position 4 (frameHeader format (frameLength payloadLength) sequence type
        payloadLength) := by
    intro position hposition hi
    rw [← h, slice_take hposition, slice_append (hposition.trans hlong), slice_set hi,
      ← take_frameBytes, slice_take hposition]
  obtain ⟨-, -, -, hlength, -, -, -, -, hpayload⟩ :=
    @slices_frameHeader format sequence (frameLength payloadLength) payloadLength type []
  obtain ⟨-, -, -, hlength', -, -, -, -, hpayload'⟩ :=
    @slices_frameHeader format sequence (frameLength unit.payload.length) unit.payload.length
      unit.type []
  rw [List.append_nil] at hlength hpayload hlength' hpayload'
  by_cases hi : i < 8 ∨ 12 ≤ i
  · -- The length of the frame stands as it was.
    have heq := hfield 8 (by decide) hi
    rw [hlength, hlength'] at heq
    have := put_inj (length_range hframed.bound) (length_range hbound) heq
    unfold frameLength at this
    omega
  · have heq := hfield 24 (by decide) (by omega)
    have hpayloadBound : ∀ {n : ℕ}, frameLength n ≤ maxFrameBytes → n ≤ maxFrameBytes := by
      intro n hn
      unfold frameLength at hn
      omega
    rw [hpayload, hpayload'] at heq
    have := put_inj (length_range (hpayloadBound hframed.bound))
      (length_range (hpayloadBound hbound)) heq
    omega

/-- No damaged frame is read, and none is left out. -/
theorem scanFrame_damaged (hframed : Framed unit) (hsequence : sequence ≤ maxSequence)
    (hi : i < (frameBytes format sequence unit).length)
    (hb : (frameBytes format sequence unit)[i]? ≠ some b) (read : Option FrameRead) :
    scanFrame format allow sequence ((frameBytes format sequence unit).set i b ++ rest) ≠
      .ok read := by
  intro h
  have hlength : ((frameBytes format sequence unit).set i b).length =
      frameLength unit.payload.length := by
    rw [List.length_set, length_frameBytes]
  cases read with
  | none =>
    obtain ⟨-, hstarts⟩ := (scanFrame_eq_none hsequence).mp h
    have hlong : frameHeaderBytes ≤ ((frameBytes format sequence unit).set i b ++ rest).length := by
      rw [List.length_append, hlength]
      unfold frameLength
      omega
    obtain ⟨other, hother, hlt, hheader⟩ := (startsFrame_iff hlong).mp hstarts
    rw [List.length_append, hlength, payloadLength_eq hframed hother.bound hheader] at hlt
    omega
  | some frame =>
    obtain ⟨other, rest', hother, -, hbytes⟩ := scanFrame_eq_some hsequence h
    have hlong : frameHeaderBytes ≤ (frameBytes format sequence other).length := by
      rw [length_frameBytes]
      unfold frameLength
      omega
    have hheader := congrArg (List.take frameHeaderBytes) hbytes
    rw [List.take_append_of_le_length hlong, take_frameBytes] at hheader
    have hsame := payloadLength_eq hframed hother.bound hheader
    obtain ⟨hframe, -⟩ := List.append_inj hbytes (by rw [hlength, length_frameBytes, hsame])
    exact hb (withChecksum_set hi hframe)

/-- No scan succeeds on a damaged frame. -/
theorem scanFrom_damaged (hframed : ∀ unit ∈ units, Framed unit)
    (hfits : sequence + units.length ≤ maxSequence + 1)
    (hi : i < (frames format sequence units).length)
    (hb : (frames format sequence units)[i]? ≠ some b) (result : Scan) :
    scanFrom format allow ((frames format sequence units).set i b ++ rest) sequence scan ≠
      .ok result := by
  induction units generalizing sequence scan i with
  | nil => exact absurd hi (Nat.not_lt_zero i)
  | cons unit units ih =>
    rw [List.length_cons] at hfits
    have hunit := hframed _ List.mem_cons_self
    unfold frames at hi hb ⊢
    by_cases hfirst : i < (frameBytes format sequence unit).length
    · rw [List.set_append_left _ _ hfirst, List.append_assoc]
      rw [List.getElem?_append_left hfirst] at hb
      intro h
      have hempty : (frameBytes format sequence unit).set i b ++
          (frames format (sequence + 1) units ++ rest) ≠ [] := by
        refine List.ne_nil_of_length_pos ?_
        rw [List.length_append, List.length_set]
        omega
      rw [scanFrom, dif_neg hempty] at h
      obtain ⟨read, hread, -⟩ := Lib.bind_eq_ok.mp h
      exact scanFrame_damaged hunit (by omega) hfirst hb read hread
    · rw [List.set_append_right _ _ (not_lt.mp hfirst), List.append_assoc,
        scanFrom_frameBytes hunit (by omega)]
      rw [List.getElem?_append_right (not_lt.mp hfirst)] at hb
      rw [List.length_append] at hi
      rw [if_neg]
      · exact ih (fun other hmem => hframed other (List.mem_cons_of_mem _ hmem)) (by omega)
          (by omega) hb
      · rintro rfl
        have hnil : units = [] := List.length_eq_zero_iff.mp (by omega)
        subst hnil
        rw [frames, List.length_nil] at hi
        omega

end GeneralSearch.Durable.DurableWal
