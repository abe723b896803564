import GeneralSearch.Durable.Wal
import GeneralSearch.Lib.Exec

/-! The frames of a log as bytes: what the reader of a frame accepts is what the writer of one writes,
and a frame that was cut off is told from a damaged one by the fields that are there in full. -/

namespace GeneralSearch.Durable.DurableWal

open GeneralSearch.Crc32c

variable {format : WalFormat} {sequence : ℕ}

/-! ### Fields -/

section

variable {width position n : ℕ} {v : ℤ} {buffer pre post : Bytes} {type : UInt8}

@[simp] theorem length_put : (put width v).length = width := length_twosComplement ..

@[simp] theorem drop_put (h : width ≤ n) : (put width v).drop n = [] :=
  List.drop_of_length_le (length_put.trans_le h)

theorem length_slice (h : position + width ≤ buffer.length) :
    (slice position width buffer).length = width := by
  unfold slice
  rw [List.length_take, List.length_drop]
  omega

theorem slice_append_slice :
    slice position width buffer ++ slice (position + width) n buffer =
      slice position (width + n) buffer := by
  unfold slice
  rw [List.take_add, List.drop_drop]

theorem slice_one (h : position < buffer.length) :
    slice position 1 buffer = [buffer.getD position 0] := by
  unfold slice
  rw [List.drop_eq_getElem_cons h, List.take_succ_cons, List.take_zero, List.getD_eq_getElem?_getD,
    List.getElem?_eq_getElem h, Option.getD_some]

/-- A number that fits its field is read where its bytes stand. -/
theorem get_eq_iff (hlength : position + width ≤ buffer.length)
    (hv : -(256 ^ width : ℕ) ≤ 2 * v ∧ 2 * v < (256 ^ width : ℕ)) :
    get width position buffer = v ↔ slice position width buffer = put width v := by
  unfold get put
  constructor
  · rintro rfl
    have hback := twosComplement_ofTwosComplement (slice position width buffer)
    rw [length_slice hlength] at hback
    exact hback.symm
  · intro h
    rw [h, ofTwosComplement_twosComplement hv.1 hv.2]

/-- The bytes of any number that was read. -/
theorem slice_eq_put (hlength : position + width ≤ buffer.length) :
    slice position width buffer = put width (get width position buffer) := by
  have hback := twosComplement_ofTwosComplement (slice position width buffer)
  rw [length_slice hlength] at hback
  exact hback.symm

theorem refuse_eq_ok {condition : Prop} [Decidable condition] {message : String} {u : Unit} :
    refuse condition message = .ok u ↔ ¬condition := by
  unfold refuse
  by_cases h : condition <;> simp [h]

end

/-! ### The header of a frame -/

/-- A unit that has a frame. -/
structure Framed (unit : PreparedUnit) : Prop where
  type : singleType ≤ unit.type ∧ unit.type ≤ indexDropType
  bound : frameLength unit.payload.length ≤ maxFrameBytes

section

variable {length payloadLength : ℕ} {type : UInt8} {encoded rest : Bytes}

@[simp] theorem length_frameHeader :
    (frameHeader format length sequence type payloadLength).length = frameHeaderBytes := by
  simp [frameHeader, frameHeaderBytes]

theorem slices_frameHeader :
    slice 0 4 (frameHeader format length sequence type payloadLength ++ rest) = put 4 FRAME_MAGIC ∧
    slice 4 2 (frameHeader format length sequence type payloadLength ++ rest) = put 2 MAJOR ∧
    slice 6 2 (frameHeader format length sequence type payloadLength ++ rest) = put 2 format.minor ∧
    slice 8 4 (frameHeader format length sequence type payloadLength ++ rest) = put 4 length ∧
    slice 12 8 (frameHeader format length sequence type payloadLength ++ rest) = put 8 sequence ∧
    slice 20 1 (frameHeader format length sequence type payloadLength ++ rest) = [type] ∧
    slice 21 1 (frameHeader format length sequence type payloadLength ++ rest) = [0] ∧
    slice 22 2 (frameHeader format length sequence type payloadLength ++ rest) = put 2 0 ∧
    slice 24 4 (frameHeader format length sequence type payloadLength ++ rest) =
      put 4 payloadLength := by
  refine ⟨?_, ?_, ?_, ?_, ?_, ?_, ?_, ?_, ?_⟩ <;>
    simp [slice, frameHeader, List.drop_append, List.take_append]

/-- The bytes of a header are its fields. -/
theorem eq_slices (h : encoded.length = frameHeaderBytes) :
    encoded = slice 0 4 encoded ++ slice 4 2 encoded ++ slice 6 2 encoded ++ slice 8 4 encoded ++
      slice 12 8 encoded ++ slice 20 1 encoded ++ slice 21 1 encoded ++ slice 22 2 encoded ++
      slice 24 4 encoded := by
  show _ = slice 0 4 encoded ++ slice (0 + 4) 2 encoded ++ slice (0 + (4 + 2)) 2 encoded ++
    slice (0 + (4 + 2 + 2)) 4 encoded ++ slice (0 + (4 + 2 + 2 + 4)) 8 encoded ++
    slice (0 + (4 + 2 + 2 + 4 + 8)) 1 encoded ++ slice (0 + (4 + 2 + 2 + 4 + 8 + 1)) 1 encoded ++
    slice (0 + (4 + 2 + 2 + 4 + 8 + 1 + 1)) 2 encoded ++
    slice (0 + (4 + 2 + 2 + 4 + 8 + 1 + 1 + 2)) 4 encoded
  simp only [slice_append_slice]
  exact (List.take_of_length_le h.le).symm

theorem minor_range : -(256 ^ 2 : ℕ) ≤ 2 * (format.minor : ℤ) ∧
    2 * (format.minor : ℤ) < (256 ^ 2 : ℕ) := by
  have := format.minor_le
  omega

theorem sequence_range (h : sequence ≤ maxSequence) :
    -(256 ^ 8 : ℕ) ≤ 2 * (sequence : ℤ) ∧ 2 * (sequence : ℤ) < (256 ^ 8 : ℕ) := by
  unfold maxSequence at h
  omega

theorem length_range (h : length ≤ maxFrameBytes) :
    -(256 ^ 4 : ℕ) ≤ 2 * (length : ℤ) ∧ 2 * (length : ℤ) < (256 ^ 4 : ℕ) := by
  unfold maxFrameBytes at h
  omega

/-- The fields of a written header are read back. -/
theorem get_frameHeader (hlength : length ≤ maxFrameBytes) (hpayload : payloadLength ≤ maxFrameBytes)
    (hsequence : sequence ≤ maxSequence) :
    get 4 0 (frameHeader format length sequence type payloadLength) = FRAME_MAGIC ∧
    get 2 4 (frameHeader format length sequence type payloadLength) = MAJOR ∧
    get 2 6 (frameHeader format length sequence type payloadLength) = format.minor ∧
    get 4 8 (frameHeader format length sequence type payloadLength) = length ∧
    get 8 12 (frameHeader format length sequence type payloadLength) = sequence ∧
    (frameHeader format length sequence type payloadLength).getD 20 0 = type ∧
    (frameHeader format length sequence type payloadLength).getD 21 0 = 0 ∧
    get 2 22 (frameHeader format length sequence type payloadLength) = 0 ∧
    get 4 24 (frameHeader format length sequence type payloadLength) = payloadLength := by
  obtain ⟨hmagic, hmajor, hminor, hlen, hseq, -, -, hreserved, hpay⟩ :=
    @slices_frameHeader format sequence length payloadLength type []
  rw [List.append_nil] at *
  have hbytes : (frameHeader format length sequence type payloadLength).length = 28 :=
    length_frameHeader
  refine ⟨(get_eq_iff ?_ (by decide)).mpr hmagic, (get_eq_iff ?_ (by decide)).mpr hmajor,
    (get_eq_iff ?_ minor_range).mpr hminor, (get_eq_iff ?_ (length_range hlength)).mpr hlen,
    (get_eq_iff ?_ (sequence_range hsequence)).mpr hseq, ?_, ?_,
    (get_eq_iff ?_ (by decide)).mpr hreserved, (get_eq_iff ?_ (length_range hpayload)).mpr hpay⟩
  case refine_6 => simp [frameHeader]
  case refine_7 => simp [frameHeader]
  all_goals simp [hbytes]

/-- A decoded header is one that was written. -/
theorem decodeFrameHeader_eq_ok (hlength : encoded.length = frameHeaderBytes)
    (hsequence : sequence ≤ maxSequence) {header : FrameHeader} :
    decodeFrameHeader encoded format sequence = .ok header ↔
      (singleType ≤ header.type ∧ header.type ≤ indexDropType) ∧
        header.frameLength ≤ maxFrameBytes ∧
        encoded = frameHeader format header.frameLength sequence header.type
          header.payloadLength := by
  have hlong : 28 ≤ encoded.length := hlength.ge
  constructor
  · intro h
    unfold decodeFrameHeader at h
    obtain ⟨_, hformat, h⟩ := Lib.bind_eq_ok.mp h
    rw [refuse_eq_ok] at hformat
    push Not at hformat
    split at h
    · rename_i hlengths
      obtain ⟨_, hseq, h⟩ := Lib.bind_eq_ok.mp h
      obtain ⟨_, htype, h⟩ := Lib.bind_eq_ok.mp h
      rw [refuse_eq_ok] at hseq htype
      push Not at hseq htype
      obtain rfl := Except.ok.inj h
      obtain ⟨hlow, hhigh, hpositive, -⟩ := hlengths
      refine ⟨⟨UInt8.not_lt.mp htype.1, UInt8.not_lt.mp htype.2.1⟩, ?_, ?_⟩
      · show (get 4 8 encoded).toNat ≤ maxFrameBytes
        omega
      · have hmagic : slice 0 4 encoded = put 4 FRAME_MAGIC := by
          rw [slice_eq_put (by omega), hformat.1]
        have hmajor : slice 4 2 encoded = put 2 MAJOR := by
          rw [slice_eq_put (by omega), hformat.2.1]
        have hminor : slice 6 2 encoded = put 2 format.minor := by
          rw [slice_eq_put (by omega), hformat.2.2]
        have hlen : slice 8 4 encoded = put 4 ((get 4 8 encoded).toNat : ℤ) := by
          rw [slice_eq_put (by omega), Int.toNat_of_nonneg (by omega)]
        have hsequence : slice 12 8 encoded = put 8 sequence := by
          rw [slice_eq_put (by omega), hseq]
        have hflags : slice 21 1 encoded = [0] := by
          rw [slice_one (by omega), htype.2.2.1]
        have hreserved : slice 22 2 encoded = put 2 0 := by
          rw [slice_eq_put (by omega), htype.2.2.2]
        have hpay : slice 24 4 encoded = put 4 ((get 4 24 encoded).toNat : ℤ) := by
          rw [slice_eq_put (by omega), Int.toNat_of_nonneg hpositive]
        refine (eq_slices hlength).trans ?_
        rw [hmagic, hmajor, hminor, hlen, hsequence, slice_one (by omega), hflags, hreserved, hpay]
        rfl
    · cases h
  · rintro ⟨htype, hbound, rfl⟩
    have hrelation := header.relation
    have hpayload : header.payloadLength ≤ maxFrameBytes := by
      unfold frameLength at hrelation
      omega
    obtain ⟨hmagic, hmajor, hminor, hlen, hseq, htypeByte, hflags, hreserved, hpay⟩ :=
      @get_frameHeader format sequence header.frameLength header.payloadLength header.type hbound
        hpayload hsequence
    have hlengths : frameHeaderBytes + frameTrailerBytes ≤ (header.frameLength : ℤ) ∧
        (header.frameLength : ℤ) ≤ maxFrameBytes ∧ (0 : ℤ) ≤ header.payloadLength ∧
          (header.frameLength : ℤ) =
            frameHeaderBytes + header.payloadLength + frameTrailerBytes := by
      unfold frameLength at hrelation
      omega
    unfold decodeFrameHeader
    simp only [hmagic, hmajor, hminor, hlen, hseq, htypeByte, hflags, hreserved, hpay]
    rw [dif_pos hlengths]
    simp only [refuse, ne_eq, not_true_eq_false, or_self, if_false, UInt8.not_lt.mpr htype.1,
      UInt8.not_lt.mpr htype.2]
    obtain ⟨L, type, P, relation⟩ := header
    rfl

end

/-! ### Whole frames -/

section

variable {unit : PreparedUnit} {allow : Bool} {bytes remaining rest : Bytes}

theorem checksum_range : -(256 ^ frameTrailerBytes : ℕ) ≤ 2 * checksum bytes ∧
    2 * checksum bytes < (256 ^ frameTrailerBytes : ℕ) := by
  have hlow := BitVec.le_two_mul_toInt (x := crc32c bytes)
  have hhigh := BitVec.two_mul_toInt_lt (x := crc32c bytes)
  unfold checksum frameTrailerBytes
  omega

theorem length_frameBytes :
    (frameBytes format sequence unit).length = frameLength unit.payload.length := by
  unfold frameBytes frameLength
  rw [List.length_append, List.length_append, length_frameHeader, length_put]

/-- What is read of the frame of a unit. -/
def readOf (unit : PreparedUnit) : FrameRead :=
  ⟨⟨frameLength unit.payload.length, unit.type, unit.payload.length, rfl⟩, unit.payload⟩

theorem scanFrame_frameBytes (hframed : Framed unit) (hsequence : sequence ≤ maxSequence) :
    scanFrame format allow sequence (frameBytes format sequence unit ++ rest) =
      .ok (some (readOf unit)) := by
  have hlong : ¬(frameBytes format sequence unit ++ rest).length < frameHeaderBytes := by
    rw [List.length_append, length_frameBytes]
    unfold frameLength
    omega
  have hwhole : ¬(frameBytes format sequence unit ++ rest).length <
      (readOf unit).header.frameLength := by
    show ¬_ < frameLength unit.payload.length
    rw [List.length_append, length_frameBytes]
    omega
  have hheader : (frameBytes format sequence unit ++ rest).take frameHeaderBytes =
      frameHeader format (frameLength unit.payload.length) sequence unit.type
        unit.payload.length := by
    unfold frameBytes
    rw [List.append_assoc, List.append_assoc]
    exact List.take_left' length_frameHeader
  have hpayload : slice frameHeaderBytes (readOf unit).header.payloadLength
      (frameBytes format sequence unit ++ rest) = unit.payload := by
    show slice frameHeaderBytes unit.payload.length _ = _
    unfold frameBytes slice
    rw [List.append_assoc, List.append_assoc, List.drop_left' length_frameHeader, List.take_left' rfl]
  have htrailer : get frameTrailerBytes (frameHeaderBytes + (readOf unit).header.payloadLength)
      (frameBytes format sequence unit ++ rest) =
        checksum (frameHeader format (frameLength unit.payload.length) sequence unit.type
          unit.payload.length ++ unit.payload) := by
    show get frameTrailerBytes (frameHeaderBytes + unit.payload.length) _ = _
    rw [get_eq_iff _ checksum_range]
    · unfold frameBytes slice
      rw [List.append_assoc, List.drop_left' (by rw [List.length_append, length_frameHeader]),
        List.take_left' length_put]
    · rw [List.length_append, length_frameBytes]
      unfold frameLength
      omega
  have hdecode : decodeFrameHeader (frameHeader format (frameLength unit.payload.length) sequence
      unit.type unit.payload.length) format sequence = .ok (readOf unit).header :=
    (decodeFrameHeader_eq_ok length_frameHeader hsequence).mpr
      ⟨hframed.type, hframed.bound, rfl⟩
  unfold scanFrame
  rw [if_neg hlong]
  simp only [hheader, hdecode]
  show (if _ then _ else _) = _
  rw [if_neg hwhole, hpayload, htrailer, refuse, if_neg (not_not.mpr rfl)]
  rfl

/-- A whole frame that is accepted is that of a unit. -/
theorem scanFrame_eq_some (hsequence : sequence ≤ maxSequence) {frame : FrameRead}
    (h : scanFrame format allow sequence remaining = .ok (some frame)) :
    ∃ unit rest, Framed unit ∧ frame = readOf unit ∧
      remaining = frameBytes format sequence unit ++ rest := by
  unfold scanFrame at h
  split at h
  · obtain ⟨_, -, h⟩ := Lib.bind_eq_ok.mp h
    obtain ⟨_, -, h⟩ := Lib.bind_eq_ok.mp h
    cases h
  rename_i hlong
  obtain ⟨header, hdecode, h⟩ := Lib.bind_eq_ok.mp h
  split at h
  · obtain ⟨_, -, h⟩ := Lib.bind_eq_ok.mp h
    cases h
  rename_i hwhole
  obtain ⟨_, hchecksum, h⟩ := Lib.bind_eq_ok.mp h
  rw [refuse_eq_ok, not_not] at hchecksum
  obtain rfl := Option.some.inj (Except.ok.inj h)
  have hheader : (remaining.take frameHeaderBytes).length = frameHeaderBytes := by
    rw [List.length_take]
    omega
  obtain ⟨htype, hbound, hbytes⟩ := (decodeFrameHeader_eq_ok hheader hsequence).mp hdecode
  obtain ⟨length, type, payloadLength, hrelation⟩ := header
  simp only at htype hbound hbytes hwhole hchecksum ⊢
  subst hrelation
  have hpayload : (slice frameHeaderBytes payloadLength remaining).length = payloadLength := by
    refine length_slice ?_
    unfold frameLength at hwhole
    omega
  refine ⟨⟨type, slice frameHeaderBytes payloadLength remaining⟩,
    remaining.drop (frameLength payloadLength), ⟨htype, ?_⟩, ?_, ?_⟩
  · exact hpayload.symm ▸ hbound
  · unfold readOf
    simp only [hpayload]
  · unfold frameBytes
    simp only [hpayload]
    have htrailer := @slice_eq_put frameTrailerBytes (frameHeaderBytes + payloadLength) remaining
      (by unfold frameLength at hwhole; omega)
    rw [← hbytes, hchecksum, ← htrailer]
    have hcut : remaining.take frameHeaderBytes = slice 0 frameHeaderBytes remaining := rfl
    rw [hcut]
    have h1 := @slice_append_slice frameHeaderBytes 0 payloadLength remaining
    have h2 := @slice_append_slice (frameHeaderBytes + payloadLength) 0 frameTrailerBytes remaining
    rw [Nat.zero_add] at h1 h2
    rw [h1, h2]
    exact (List.take_append_drop _ _).symm

end

end GeneralSearch.Durable.DurableWal
