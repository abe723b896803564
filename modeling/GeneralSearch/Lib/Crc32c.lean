import GeneralSearch.Lib.Bytes
import Mathlib.Logic.Function.Iterate
import Mathlib.Algebra.Ring.Nat
import Mathlib.Algebra.Ring.Int.Defs

/-! The CRC-32C of `java.util.zip.CRC32C`: the reflected Castagnoli polynomial, all ones to start
with, and the complement at the end.  The register never forgets a byte, so two inputs of one length
that differ in one byte have different checksums. -/

namespace GeneralSearch.Crc32c

/-- One bit of the register. -/
def shift (c : BitVec 32) : BitVec 32 :=
  if c.getLsbD 0 then (c >>> 1) ^^^ 0x82F63B78#32 else c >>> 1

/-- One byte of `update`. -/
def update (c : BitVec 32) (b : UInt8) : BitVec 32 := shift^[8] (c ^^^ b.toBitVec.setWidth 32)

def crc32c (bytes : Bytes) : BitVec 32 := ~~~(bytes.foldl update 0xFFFFFFFF#32)

example : crc32c [0x31, 0x32, 0x33, 0x34, 0x35, 0x36, 0x37, 0x38, 0x39] = 0xE3069283#32 := by
  decide +kernel

section

variable {c d : BitVec 32} {x y : UInt8} {a t : Bytes}

/-- The bit that is shifted out comes back as the highest one. -/
theorem getLsbD_shift_last : (shift c).getLsbD 31 = c.getLsbD 0 := by
  unfold shift
  cases h : c.getLsbD 0 with
  | false => simp
  | true => simp

theorem shift_injective : Function.Injective shift := by
  intro c d h
  have hlast : c.getLsbD 0 = d.getLsbD 0 := by
    rw [← getLsbD_shift_last, ← getLsbD_shift_last, h]
  have hrest : c >>> 1 = d >>> 1 := by
    unfold shift at h
    rw [hlast] at h
    split at h
    · exact (BitVec.xor_left_inj _).mp h
    · exact h
  refine BitVec.eq_of_getLsbD_eq fun i _ => ?_
  cases i with
  | zero => exact hlast
  | succ i =>
    have hbit := congrArg (BitVec.getLsbD · i) hrest
    simpa [BitVec.getLsbD_ushiftRight, Nat.add_comm] using hbit

theorem update_left_injective : Function.Injective (update · x) := by
  intro c d h
  exact (BitVec.xor_left_inj _).mp (shift_injective.iterate 8 h)

theorem update_right_injective : Function.Injective (update c) := by
  intro x y h
  have hwide := (BitVec.xor_right_inj _).mp (shift_injective.iterate 8 h)
  have hnarrow := congrArg (BitVec.setWidth 8) hwide
  simpa [UInt8.toBitVec_inj] using hnarrow

theorem foldl_update_injective : Function.Injective fun c => t.foldl update c := by
  induction t with
  | nil => exact fun _ _ h => h
  | cons b t ih => exact fun _ _ h => update_left_injective (ih h)

/-- One byte that differs changes the checksum. -/
theorem crc32c_eq_iff : crc32c (a ++ x :: t) = crc32c (a ++ y :: t) ↔ x = y := by
  constructor
  · intro h
    unfold crc32c at h
    rw [BitVec.not_inj, List.foldl_append, List.foldl_append] at h
    exact update_right_injective (foldl_update_injective h)
  · rintro rfl
    rfl

end

end GeneralSearch.Crc32c
