import GeneralSearch.Lib.Parser

/-! Byte streams: an input that fails behind its end, and an output that takes no more bytes than
its bound.  A program that writes is exact for the bytes that it puts out, by the rules for a program
that reads. -/

namespace GeneralSearch

namespace Parser

open Tape (Reads)

/-! ### Input -/

section

variable {ε α : Type}

/-- Some bytes from the front of an input. -/
def take (failure : ε) (n : ℕ) : Parser Bytes ε Bytes := fun s =>
  if n ≤ s.length then .ok (s.take n, s.drop n) else .error failure

theorem exact_take (failure : ε) (n : ℕ) :
    Exact (take failure n) fun b w => b.length = n ∧ w = b := by
  intro s b s'
  unfold take
  by_cases hle : n ≤ s.length
  · rw [if_pos hle]
    constructor
    · rintro ⟨⟩
      exact ⟨_, ⟨List.length_take_of_le hle, rfl⟩, (List.take_append_drop n s).symm⟩
    · rintro ⟨_, ⟨rfl, rfl⟩, hs⟩
      simp [show s = _ ++ s' from hs]
  · rw [if_neg hle]
    refine iff_of_false nofun ?_
    rintro ⟨_, ⟨rfl, rfl⟩, hs⟩
    exact hle (by simp [show s = _ ++ s' from hs])

/-- An input that fails in one way behind its end. -/
def input (failure : ε) : Cursor Bytes ε where
  bytes := take failure
  exact_bytes := exact_take failure

/-- The rest of an input that a parser has to read to its end. -/
theorem Exact.whole {p : Parser Bytes ε α} {R : α → Bytes → Prop} (h : Exact p R) {s : Bytes}
    {a : α} : p s = .ok (a, []) ↔ R a s := by
  refine (h s a []).trans ⟨?_, fun hR => ⟨s, hR, (List.append_nil s).symm⟩⟩
  rintro ⟨w, hR, hs⟩
  rwa [show s = w ++ [] from hs, List.append_nil]

end

section

variable {σ ε : Type} [Tape σ] (c : Cursor σ ε)

/-- One byte. -/
def Cursor.byte : Parser σ ε UInt8 := do
  let bytes ← c.bytes 1
  return bytes.headD 0

theorem exact_byte : Exact c.byte fun b w => True ∧ w = [b] := by
  refine ((c.exact_bytes 1).bind fun _ => exact_pure _).congr fun b w => ?_
  constructor
  · rintro ⟨_, bytes, _, ⟨hlength, rfl⟩, ⟨rfl, rfl⟩, rfl⟩
    obtain ⟨b, rfl⟩ := List.length_eq_one_iff.mp hlength
    exact ⟨trivial, rfl⟩
  · rintro ⟨-, rfl⟩
    exact ⟨[b], [b], [], ⟨rfl, rfl⟩, ⟨rfl, rfl⟩, rfl⟩

end

theorem signed_two {n : ℤ} : Signed 2 n ↔ -32768 ≤ n ∧ n < 32768 := by
  rw [Signed, BitVec.toInt_ofInt, Int.bmod_def]
  norm_num
  omega

/-! ### Output -/

/-- What was put out within a bound. -/
def Output (maximum : ℕ) : Type := {out : Bytes // out.length ≤ maximum}

/-- The output grows by what is put out. -/
instance (maximum : ℕ) : Tape (Output maximum) where
  Reads s w s' := s'.val = s.val ++ w
  reads_nil {s s'} := by
    rw [List.append_nil]
    exact Subtype.ext_iff.symm
  reads_append {s s' v w} := by
    constructor
    · intro h
      have hmid : (s.val ++ v).length ≤ maximum := by
        have hlength := s'.property
        rw [h] at hlength
        simp only [List.length_append] at hlength ⊢
        omega
      exact ⟨⟨s.val ++ v, hmid⟩, rfl, by rw [h, List.append_assoc]⟩
    · rintro ⟨mid, hfirst, hsecond⟩
      rw [hsecond, hfirst, List.append_assoc]

section

variable {maximum : ℕ} {ε α ι : Type}

/-- Nothing was put out yet. -/
def Output.empty : Output maximum := ⟨[], Nat.zero_le maximum⟩

/-- Some bytes, all of them or none. -/
def put (failure : ε) (bytes : Bytes) : Parser (Output maximum) ε Unit := fun s =>
  if h : (s.val ++ bytes).length ≤ maximum then .ok ((), ⟨s.val ++ bytes, h⟩) else .error failure

theorem exact_put (failure : ε) (bytes : Bytes) :
    Exact (put failure bytes : Parser (Output maximum) ε Unit) fun _ w => True ∧ w = bytes := by
  intro s u s'
  unfold put
  by_cases h : (s.val ++ bytes).length ≤ maximum
  · rw [dif_pos h]
    constructor
    · rintro ⟨⟩
      exact ⟨bytes, ⟨trivial, rfl⟩, rfl⟩
    · rintro ⟨_, ⟨-, rfl⟩, hs⟩
      rw [show s' = ⟨s.val ++ _, h⟩ from Subtype.ext hs]
  · rw [dif_neg h]
    refine iff_of_false nofun ?_
    rintro ⟨_, ⟨-, rfl⟩, hs⟩
    have hlength := s'.property
    rw [show s'.val = s.val ++ _ from hs] at hlength
    exact h hlength

/-- The outputs of a program that starts with nothing. -/
theorem Exact.output {p : Parser (Output maximum) ε α} {R : α → Bytes → Prop} (h : Exact p R)
    {a : α} {s' : Output maximum} : p .empty = .ok (a, s') ↔ R a s'.val := by
  refine (h _ a s').trans ⟨?_, fun hR => ⟨s'.val, hR, rfl⟩⟩
  rintro ⟨w, hR, hs⟩
  rwa [show s'.val = w from hs]

end

/-- One program for each item, in order. -/
theorem exact_forM {σ ε ι : Type} [Tape σ] {f : ι → Parser σ ε PUnit} {write : ι → Bytes}
    (h : ∀ i, Exact (f i) fun _ w => True ∧ w = write i) (items : List ι) :
    Exact (items.forM f) fun _ w => True ∧ w = items.flatMap write := by
  induction items with
  | nil =>
    refine (exact_pure PUnit.unit).congr fun u w => ?_
    simp
  | cons i items ih =>
    refine ((h i).bind fun _ => ih).congr fun u w => ?_
    constructor
    · rintro ⟨_, _, _, ⟨-, rfl⟩, ⟨-, rfl⟩, rfl⟩
      exact ⟨trivial, rfl⟩
    · rintro ⟨-, rfl⟩
      exact ⟨PUnit.unit, _, _, ⟨trivial, rfl⟩, ⟨trivial, rfl⟩, rfl⟩

end Parser

end GeneralSearch
