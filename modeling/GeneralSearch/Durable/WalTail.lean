import GeneralSearch.Durable.WalFrames

/-! The end of a log: bytes that start a frame and do not complete it.  The reader tells them from a
damaged frame by the bytes of the header that it can compare. -/

namespace GeneralSearch.Durable.DurableWal

variable {format : WalFormat} {sequence : ℕ}

/-- The positions that the reader compares where a frame is incomplete: those of the header, but the
lengths only where they are there in full. -/
def Compared (available position : ℕ) : Prop :=
  position < available ∧ position < frameHeaderBytes ∧
    (8 ≤ position → position < 12 → 12 ≤ available) ∧ (24 ≤ position → frameHeaderBytes ≤ available)

/-- Fewer bytes than a frame with the sequence has, which agree with the frame where they are
compared. -/
def StartsFrame (format : WalFormat) (sequence : ℕ) (tail : Bytes) : Prop :=
  ∃ unit, Framed unit ∧ tail.length < (frameBytes format sequence unit).length ∧
    ∀ i, Compared tail.length i → tail[i]? = (frameBytes format sequence unit)[i]?

section

variable {width position i : ℕ} {a b : Bytes}

theorem getElem?_slice (h : i < width) : (slice position width a)[i]? = a[position + i]? := by
  unfold slice
  rw [List.getElem?_take_of_lt h, List.getElem?_drop]

/-- Fields are equal where their bytes are. -/
theorem slice_eq_iff :
    slice position width a = slice position width b ↔
      ∀ i < width, a[position + i]? = b[position + i]? := by
  constructor
  · intro h i hi
    rw [← getElem?_slice hi, h, getElem?_slice hi]
  · intro h
    refine List.ext_getElem? fun i => ?_
    by_cases hi : i < width
    · rw [getElem?_slice hi, getElem?_slice hi, h i hi]
    · have hlength : ∀ c : Bytes, (slice position width c).length ≤ width := fun c =>
        List.length_take_le ..
      rw [List.getElem?_eq_none ((hlength a).trans (by omega)),
        List.getElem?_eq_none ((hlength b).trans (by omega))]

theorem take_slice (h : i ≤ width) : (slice position width a).take i = slice position i a := by
  unfold slice
  rw [List.take_take, Nat.min_eq_left h]

theorem getElem?_of_slice (h : slice position width a = b) (hi : i < width) :
    a[position + i]? = b[i]? := by
  rw [← getElem?_slice hi, h]

end

section

variable {unit : PreparedUnit} {tail : Bytes}

/-- The fields of a frame where they stand. -/
theorem slices_frameBytes :
    slice 0 8 (frameBytes format sequence unit) =
      put 4 FRAME_MAGIC ++ put 2 MAJOR ++ put 2 format.minor ∧
    slice 8 4 (frameBytes format sequence unit) = put 4 (frameLength unit.payload.length) ∧
    slice 12 8 (frameBytes format sequence unit) = put 8 sequence ∧
    (frameBytes format sequence unit)[20]? = some unit.type ∧
    (frameBytes format sequence unit)[21]? = some 0 ∧
    (frameBytes format sequence unit)[22]? = some 0 ∧
    (frameBytes format sequence unit)[23]? = some 0 := by
  unfold frameBytes
  rw [List.append_assoc]
  obtain ⟨hmagic, hmajor, hminor, hlength, hseq, htype, hflags, hreserved, -⟩ :=
    @slices_frameHeader format sequence (frameLength unit.payload.length) unit.payload.length
      unit.type (unit.payload ++ put frameTrailerBytes (checksum (frameHeader format
        (frameLength unit.payload.length) sequence unit.type unit.payload.length ++ unit.payload)))
  have hzero : put 2 0 = [0, 0] := by decide
  rw [hzero] at hreserved
  have hbyte := @getElem?_of_slice 1 20 0 _ _ htype Nat.one_pos
  have hflag := @getElem?_of_slice 1 21 0 _ _ hflags Nat.one_pos
  have hfirst := @getElem?_of_slice 2 22 0 _ _ hreserved Nat.two_pos
  have hsecond := @getElem?_of_slice 2 22 1 _ _ hreserved Nat.one_lt_two
  refine ⟨?_, hlength, hseq, hbyte, hflag, hfirst, hsecond⟩
  rw [← hmagic, ← hmajor, ← hminor]
  rw [show slice 4 2 = slice (0 + 4) 2 from rfl, show slice 6 2 = slice (0 + (4 + 2)) 2 from rfl,
    slice_append_slice, slice_append_slice]

/-- What `validateIncompleteHeaderPrefix` asks for. -/
theorem validateIncompleteHeaderPrefix_eq_ok :
    validateIncompleteHeaderPrefix tail format sequence = .ok () ↔
      tail.take (min tail.length 8) =
        (put 4 FRAME_MAGIC ++ put 2 MAJOR ++ put 2 format.minor).take (min tail.length 8) ∧
      (12 ≤ tail.length → (frameHeaderBytes + frameTrailerBytes : ℕ) ≤ get 4 8 tail ∧
        get 4 8 tail ≤ maxFrameBytes) ∧
      slice 12 (min 8 (tail.length - 12)) tail =
        (put 8 sequence).take (min 8 (tail.length - 12)) ∧
      (21 ≤ tail.length → singleType ≤ tail.getD 20 0 ∧ tail.getD 20 0 ≤ indexDropType) ∧
      (22 ≤ tail.length → tail.getD 21 0 = 0) ∧
      (23 ≤ tail.length → tail.getD 22 0 = 0) ∧
      (24 ≤ tail.length → tail.getD 23 0 = 0) := by
  unfold validateIncompleteHeaderPrefix
  simp only [Lib.bind_eq_ok, refuse_eq_ok, exists_const]
  constructor
  · rintro ⟨hstable, hlength, hseq, htype, hflags, hreserved⟩
    rw [not_or] at hreserved
    refine ⟨not_not.mp hstable, fun h => ?_, not_not.mp hseq, fun h => ?_, fun h => ?_, fun h => ?_,
      fun h => ?_⟩
    · have hrange := not_or.mp fun hbad => hlength ⟨h, hbad⟩
      omega
    · have hrange := not_or.mp fun hbad => htype ⟨h, hbad⟩
      exact ⟨UInt8.not_lt.mp hrange.1, UInt8.not_lt.mp hrange.2⟩
    · exact not_not.mp fun hbad => hflags ⟨h, hbad⟩
    · exact not_not.mp fun hbad => hreserved.1 ⟨h, hbad⟩
    · exact not_not.mp fun hbad => hreserved.2 ⟨h, hbad⟩
  · rintro ⟨hstable, hlength, hseq, htype, hflags, hfirst, hsecond⟩
    refine ⟨not_not.mpr hstable, ?_, not_not.mpr hseq, ?_, ?_, ?_⟩
    · rintro ⟨h, hbad⟩
      have := hlength h
      omega
    · rintro ⟨h, hbad | hbad⟩
      · exact UInt8.not_lt.mpr (htype h).1 hbad
      · exact UInt8.not_lt.mpr (htype h).2 hbad
    · rintro ⟨h, hbad⟩
      exact hbad (hflags h)
    · rintro (⟨h, hbad⟩ | ⟨h, hbad⟩)
      · exact hbad (hfirst h)
      · exact hbad (hsecond h)

theorem getD_eq_iff {position : ℕ} {x : UInt8} (h : position < tail.length) :
    tail.getD position 0 = x ↔ tail[position]? = some x := by
  rw [List.getD_eq_getElem?_getD, List.getElem?_eq_getElem h, Option.getD_some, Option.some_inj]

/-- A unit that goes with the type and the length of a frame as far as they are there. -/
def startedUnit (tail : Bytes) : PreparedUnit where
  type := if 21 ≤ tail.length then tail.getD 20 0 else singleType
  payload := List.replicate
    (if 12 ≤ tail.length then (get 4 8 tail).toNat - frameLength 0 else 0) 0

/-- An incomplete header is accepted where it starts that of a frame. -/
theorem validateIncompleteHeaderPrefix_iff (hshort : tail.length < frameHeaderBytes) :
    validateIncompleteHeaderPrefix tail format sequence = .ok () ↔
      StartsFrame format sequence tail := by
  have hbytes : frameHeaderBytes = 28 := rfl
  rw [validateIncompleteHeaderPrefix_eq_ok]
  constructor
  · rintro ⟨hstable, hlength, hseq, htype, hflags, hfirst, hsecond⟩
    have hpayload : frameLength (startedUnit tail).payload.length =
        if 12 ≤ tail.length then (get 4 8 tail).toNat else frameLength 0 := by
      unfold startedUnit
      rw [List.length_replicate]
      split
      · have := hlength ‹_›
        unfold frameLength
        omega
      · rfl
    have hframed : Framed (startedUnit tail) := by
      constructor
      · unfold startedUnit
        split
        · exact htype ‹_›
        · show singleType ≤ singleType ∧ singleType ≤ indexDropType
          decide
      · rw [hpayload]
        split
        · have := hlength ‹_›
          omega
        · decide
    obtain ⟨hidentity, hlengths, hsequence, htypes, hzero, hzero', hzero''⟩ :=
      @slices_frameBytes format sequence (startedUnit tail)
    refine ⟨startedUnit tail, hframed, ?_, ?_⟩
    · rw [length_frameBytes]
      unfold frameLength
      omega
    · rintro i ⟨hi, hheader, hinside, hpay⟩
      rw [← hidentity, take_slice (Nat.min_le_right ..)] at hstable
      rw [← hsequence, take_slice (Nat.min_le_left ..)] at hseq
      by_cases h8 : i < 8
      · have := (@slice_eq_iff _ 0 tail _).mp hstable i (by omega)
        rwa [Nat.zero_add] at this
      by_cases h12 : i < 12
      · have hwhole := hinside (by omega) h12
        have heq : slice 8 4 tail = slice 8 4 (frameBytes format sequence (startedUnit tail)) := by
          rw [hlengths, hpayload, if_pos hwhole, slice_eq_put (by omega),
            Int.toNat_of_nonneg (by have := hlength hwhole; omega)]
        have := slice_eq_iff.mp heq (i - 8) (by omega)
        rwa [Nat.add_sub_cancel' (by omega)] at this
      by_cases h20 : i < 20
      · have := slice_eq_iff.mp hseq (i - 12) (by omega)
        rwa [Nat.add_sub_cancel' (by omega)] at this
      obtain rfl | rfl | rfl | rfl : i = 20 ∨ i = 21 ∨ i = 22 ∨ i = 23 := by omega
      · rw [htypes, ← getD_eq_iff hi]
        exact (if_pos hi).symm
      · rw [hzero, ← getD_eq_iff hi]
        exact hflags hi
      · rw [hzero', ← getD_eq_iff hi]
        exact hfirst hi
      · rw [hzero'', ← getD_eq_iff hi]
        exact hsecond hi
  · rintro ⟨unit, hframed, -, hagree⟩
    obtain ⟨hidentity, hlength, hseq, htype, hflags, hfirst, hsecond⟩ :=
      @slices_frameBytes format sequence unit
    refine ⟨?_, fun h => ?_, ?_, fun h => ?_, fun h => ?_, fun h => ?_, fun h => ?_⟩
    · rw [← hidentity, take_slice (Nat.min_le_right ..)]
      refine (@slice_eq_iff _ 0 tail _).mpr fun i hi => hagree _ ⟨?_, ?_, ?_, ?_⟩ <;> omega
    · have heq : slice 8 4 tail = put 4 (frameLength unit.payload.length) := by
        rw [← hlength]
        refine slice_eq_iff.mpr fun i hi => hagree _ ⟨?_, ?_, ?_, ?_⟩ <;> omega
      rw [(get_eq_iff (by omega) (length_range hframed.bound)).mpr heq]
      have := hframed.bound
      unfold frameLength at this ⊢
      omega
    · rw [← hseq, take_slice (Nat.min_le_left ..)]
      refine slice_eq_iff.mpr fun i hi => hagree _ ⟨?_, ?_, ?_, ?_⟩ <;> omega
    · rw [(getD_eq_iff (by omega)).mpr ((hagree 20 ⟨?_, ?_, ?_, ?_⟩).trans htype)]
      · exact hframed.type
      all_goals omega
    · rw [getD_eq_iff (by omega), ← hflags]
      refine hagree _ ⟨?_, ?_, ?_, ?_⟩ <;> omega
    · rw [getD_eq_iff (by omega), ← hfirst]
      refine hagree _ ⟨?_, ?_, ?_, ?_⟩ <;> omega
    · rw [getD_eq_iff (by omega), ← hsecond]
      refine hagree _ ⟨?_, ?_, ?_, ?_⟩ <;> omega

theorem take_frameBytes : (frameBytes format sequence unit).take frameHeaderBytes =
    frameHeader format (frameLength unit.payload.length) sequence unit.type unit.payload.length := by
  unfold frameBytes
  rw [List.append_assoc]
  exact List.take_left' length_frameHeader

/-- Behind a whole header every byte of it is compared, and none of what follows. -/
theorem startsFrame_iff (hlong : frameHeaderBytes ≤ tail.length) :
    StartsFrame format sequence tail ↔
      ∃ unit, Framed unit ∧ tail.length < frameLength unit.payload.length ∧
        tail.take frameHeaderBytes = frameHeader format (frameLength unit.payload.length) sequence
          unit.type unit.payload.length := by
  have hbytes : frameHeaderBytes = 28 := rfl
  unfold StartsFrame
  refine exists_congr fun unit => and_congr_right fun _ => ?_
  rw [length_frameBytes, ← take_frameBytes]
  refine and_congr_right fun _ => ?_
  show _ ↔ slice 0 frameHeaderBytes tail = slice 0 frameHeaderBytes _
  rw [slice_eq_iff]
  constructor
  · intro h i hi
    rw [Nat.zero_add]
    exact h i ⟨by omega, hi, fun _ _ => by omega, fun _ => hlong⟩
  · intro h i hi
    have := h i hi.2.1
    rwa [Nat.zero_add] at this

/-- A frame is left out where the rest starts it. -/
theorem scanFrame_eq_none {allow : Bool} (hsequence : sequence ≤ maxSequence) :
    scanFrame format allow sequence tail = .ok none ↔
      allow = true ∧ StartsFrame format sequence tail := by
  unfold scanFrame
  by_cases hshort : tail.length < frameHeaderBytes
  · rw [if_pos hshort, ← validateIncompleteHeaderPrefix_iff hshort]
    simp only [Lib.bind_eq_ok, refuse_eq_ok, Bool.not_eq_false]
    constructor
    · rintro ⟨_, hprefix, _, hallow, -⟩
      exact ⟨hallow, hprefix⟩
    · rintro ⟨hallow, hprefix⟩
      exact ⟨_, hprefix, (), hallow, rfl⟩
  rw [if_neg hshort, startsFrame_iff (not_lt.mp hshort)]
  have hheader : (tail.take frameHeaderBytes).length = frameHeaderBytes :=
    List.length_take_of_le (not_lt.mp hshort)
  constructor
  · intro h
    obtain ⟨header, hdecode, h⟩ := Lib.bind_eq_ok.mp h
    obtain ⟨htype, hbound, hfields⟩ := (decodeFrameHeader_eq_ok hheader hsequence).mp hdecode
    split at h
    · obtain ⟨_, hallow, -⟩ := Lib.bind_eq_ok.mp h
      rw [refuse_eq_ok, Bool.not_eq_false] at hallow
      rw [header.relation] at *
      refine ⟨hallow, ⟨header.type, List.replicate header.payloadLength 0⟩, ⟨htype, ?_⟩, ?_, ?_⟩
      all_goals rwa [List.length_replicate]
    · obtain ⟨_, -, h⟩ := Lib.bind_eq_ok.mp h
      cases h
  · rintro ⟨rfl, unit, hframed, hlt, hfields⟩
    have hdecode : decodeFrameHeader (tail.take frameHeaderBytes) format sequence =
        .ok (readOf unit).header :=
      (decodeFrameHeader_eq_ok hheader hsequence).mpr ⟨hframed.type, hframed.bound, hfields⟩
    refine Lib.bind_eq_ok.mpr ⟨_, hdecode, ?_⟩
    rw [if_pos (show tail.length < (readOf unit).header.frameLength from hlt)]
    exact Lib.bind_eq_ok.mpr ⟨(), refuse_eq_ok.mpr (by decide), rfl⟩

end

end GeneralSearch.Durable.DurableWal
