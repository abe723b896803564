import Mathlib.Data.List.Induction
import Mathlib.Tactic.Ring

/-! Byte strings: fixed-width big-endian numbers, two's complement, and the reading of a prefix of
known length. -/

namespace GeneralSearch

abbrev Bytes := List UInt8

instance Bytes.decidableForall (bytes : Bytes) (p : UInt8 → Prop) [DecidablePred p] :
    Decidable (∀ b ∈ bytes, p b) := List.decidableBAll p bytes

/-- The `width` big-endian bytes of a number; what does not fit is dropped. -/
def bigEndian : ℕ → ℕ → Bytes
  | 0, _ => []
  | width + 1, n => bigEndian width (n / 256) ++ [UInt8.ofNat (n % 256)]

/-- The number that big-endian bytes stand for. -/
def ofBigEndian (bytes : Bytes) : ℕ :=
  bytes.foldl (fun n b => n * 256 + b.toNat) 0

@[simp] theorem length_bigEndian (width n : ℕ) : (bigEndian width n).length = width := by
  induction width generalizing n with
  | zero => rfl
  | succ width ih => simp [bigEndian, ih]

theorem ofBigEndian_append_single (bytes : Bytes) (b : UInt8) :
    ofBigEndian (bytes ++ [b]) = ofBigEndian bytes * 256 + b.toNat := by
  simp [ofBigEndian]

/-- A number that fits its width is read back. -/
theorem ofBigEndian_bigEndian {width n : ℕ} (h : n < 256 ^ width) :
    ofBigEndian (bigEndian width n) = n := by
  induction width generalizing n with
  | zero =>
    have : n = 0 := by simpa using h
    subst this
    rfl
  | succ width ih =>
    have hdiv : n / 256 < 256 ^ width := by
      rw [pow_succ] at h
      exact Nat.div_lt_of_lt_mul (by rwa [Nat.mul_comm])
    have hbyte : (UInt8.ofNat (n % 256)).toNat = n % 256 := by
      rw [UInt8.toNat_ofNat']
      exact Nat.mod_eq_of_lt (Nat.mod_lt n (by decide))
    rw [bigEndian, ofBigEndian_append_single, ih hdiv, hbyte]
    omega

theorem ofBigEndian_lt (bytes : Bytes) : ofBigEndian bytes < 256 ^ bytes.length := by
  induction bytes using List.reverseRecOn with
  | nil => simp [ofBigEndian]
  | append_singleton bytes b ih =>
    have hb : b.toNat < 256 := b.toNat_lt
    rw [ofBigEndian_append_single, List.length_append, List.length_singleton, pow_succ]
    omega

/-- Bytes of any value are the encoding of their number. -/
theorem bigEndian_ofBigEndian (bytes : Bytes) :
    bigEndian bytes.length (ofBigEndian bytes) = bytes := by
  induction bytes using List.reverseRecOn with
  | nil => rfl
  | append_singleton bytes b ih =>
    have hb : b.toNat < 256 := b.toNat_lt
    have hdiv : (ofBigEndian bytes * 256 + b.toNat) / 256 = ofBigEndian bytes := by omega
    have hmod : (ofBigEndian bytes * 256 + b.toNat) % 256 = b.toNat := by omega
    rw [ofBigEndian_append_single, List.length_append, List.length_singleton, bigEndian, hdiv,
      hmod, ih, UInt8.ofNat_toNat]

/-! ### Two's complement -/

/-- The big-endian two's complement bytes of an integer. -/
def twosComplement (width : ℕ) (v : ℤ) : Bytes :=
  bigEndian width (v % (256 ^ width : ℕ)).toNat

/-- The integer that two's complement bytes stand for. -/
def ofTwosComplement (bytes : Bytes) : ℤ :=
  if 2 * ofBigEndian bytes < 256 ^ bytes.length then ofBigEndian bytes
  else (ofBigEndian bytes : ℤ) - (256 ^ bytes.length : ℕ)

@[simp] theorem length_twosComplement (width : ℕ) (v : ℤ) :
    (twosComplement width v).length = width := length_bigEndian ..

theorem ofTwosComplement_twosComplement {width : ℕ} {v : ℤ}
    (hlow : -(256 ^ width : ℕ) ≤ 2 * v) (hhigh : 2 * v < (256 ^ width : ℕ)) :
    ofTwosComplement (twosComplement width v) = v := by
  have hpos : 0 < 256 ^ width := Nat.pow_pos (by decide)
  generalize hm : 256 ^ width = m at hlow hhigh hpos
  have hlt : (v % (m : ℤ)).toNat < 256 ^ width := by
    have := Int.emod_lt_of_pos v (show (0 : ℤ) < m by exact_mod_cast hpos)
    omega
  have hnonneg : 0 ≤ v % (m : ℤ) := Int.emod_nonneg v (by omega)
  unfold ofTwosComplement
  rw [length_twosComplement, twosComplement, hm, ofBigEndian_bigEndian hlt]
  by_cases hv : 0 ≤ v
  · have : v % (m : ℤ) = v := Int.emod_eq_of_lt hv (by omega)
    rw [if_pos (by omega)]
    omega
  · have : v % (m : ℤ) = v + m := by
      rw [← Int.add_emod_right]
      exact Int.emod_eq_of_lt (by omega) (by omega)
    rw [if_neg (by omega)]
    omega

theorem twosComplement_ofTwosComplement (bytes : Bytes) :
    twosComplement bytes.length (ofTwosComplement bytes) = bytes := by
  have hlt := ofBigEndian_lt bytes
  have hback := bigEndian_ofBigEndian bytes
  unfold twosComplement ofTwosComplement
  generalize ofBigEndian bytes = n at hlt hback
  generalize 256 ^ bytes.length = m at hlt
  have hmod : ((if 2 * n < m then (n : ℤ) else n - m) % m).toNat = n := by
    split
    · rw [Int.emod_eq_of_lt (by omega) (by omega)]
      rfl
    · rw [← Int.add_emod_right, Int.emod_eq_of_lt (by omega) (by omega)]
      omega
  rw [hmod, hback]

theorem ofTwosComplement_bounds (bytes : Bytes) (h : bytes ≠ []) :
    -(256 ^ bytes.length : ℕ) ≤ 2 * ofTwosComplement bytes ∧
      2 * ofTwosComplement bytes < (256 ^ bytes.length : ℕ) := by
  have hlt := ofBigEndian_lt bytes
  have heven : 256 ^ bytes.length % 2 = 0 := by
    obtain ⟨k, hk⟩ : ∃ k, bytes.length = k + 1 :=
      ⟨bytes.length - 1, by have := List.length_pos_iff.mpr h; omega⟩
    rw [hk, pow_succ]
    omega
  unfold ofTwosComplement
  generalize 256 ^ bytes.length = m at hlt heven
  split <;> omega

end GeneralSearch
