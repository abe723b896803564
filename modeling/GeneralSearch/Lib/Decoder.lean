import GeneralSearch.Lib.Bytes
import GeneralSearch.Lib.Exec

/-! Decoders: what reads a value off the front of a byte string or fails, and the two laws that tie
a decoder to a writer. -/

namespace GeneralSearch

/-- Reads a value off the front of a byte string and leaves the rest, or fails. -/
abbrev Decoder (ε α : Type) := StateT Bytes (Except ε) α

namespace Decoder

variable {ε α β : Type}

/-- `d` reads `a` where `written` stands, whatever follows. -/
def Reads (d : Decoder ε α) (written : Bytes) (a : α) : Prop :=
  ∀ rest, d (written ++ rest) = .ok (a, rest)

/-- `d` reads nothing but what `write` writes. -/
def Inverts (d : Decoder ε α) (write : α → Bytes) : Prop :=
  ∀ bytes a rest, d bytes = .ok (a, rest) → bytes = write a ++ rest

theorem bind_eq_ok {d : Decoder ε α} {f : α → Decoder ε β} {bytes : Bytes} {r : β × Bytes} :
    (d >>= f) bytes = .ok r ↔ ∃ a mid, d bytes = .ok (a, mid) ∧ f a mid = .ok r := by
  show (d bytes >>= fun p => f p.1 p.2) = .ok r ↔ _
  rw [Lib.bind_eq_ok]
  exact ⟨fun ⟨p, hd, hf⟩ => ⟨p.1, p.2, hd, hf⟩, fun ⟨a, mid, hd, hf⟩ => ⟨(a, mid), hd, hf⟩⟩

theorem bind_of_ok {d : Decoder ε α} {f : α → Decoder ε β} {bytes mid : Bytes} {a : α}
    (h : d bytes = .ok (a, mid)) : (d >>= f) bytes = f a mid := by
  show (d bytes >>= fun p => f p.1 p.2) = _
  rw [h]
  rfl

@[simp] theorem pure_eq_ok {a : α} {bytes : Bytes} {r : α × Bytes} :
    (pure a : Decoder ε α) bytes = .ok r ↔ r = (a, bytes) := by
  show Except.ok (a, bytes) = .ok r ↔ _
  rw [Except.ok.injEq]
  exact eq_comm

/-- One decoder after the other. -/
theorem Reads.bind {d : Decoder ε α} {f : α → Decoder ε β} {written : Bytes} {a : α}
    (h : Reads d written a) (rest : Bytes) : (d >>= f) (written ++ rest) = f a rest :=
  bind_of_ok (h rest)

/-- The value of a byte string that a decoder fills. -/
theorem Reads.all {d : Decoder ε α} {written : Bytes} {a : α} (h : Reads d written a) :
    d written = .ok (a, []) := by
  have hd := h []
  rwa [List.append_nil] at hd

@[simp] theorem lift_eq_ok {x : Except ε α} {bytes : Bytes} {r : α × Bytes} :
    (liftM x : Decoder ε α) bytes = .ok r ↔ ∃ a, x = .ok a ∧ r = (a, bytes) := by
  show (x >>= fun a => Except.ok (a, bytes)) = .ok r ↔ _
  rw [Lib.bind_eq_ok]
  simp only [Except.ok.injEq, eq_comm]

/-- A computation that reads nothing. -/
theorem lift_bind {x : Except ε α} {a : α} (h : x = .ok a) (f : α → Decoder ε β) (bytes : Bytes) :
    ((liftM x : Decoder ε α) >>= f) bytes = f a bytes :=
  bind_of_ok (lift_eq_ok.mpr ⟨a, h, rfl⟩)

/-- The value under another type. -/
theorem Reads.map {d : Decoder ε α} {written : Bytes} {a : α} (g : α → β) (h : Reads d written a) :
    Reads (do let v ← d; return g v) written (g a) := by
  intro rest
  rw [h.bind]
  rfl

theorem Inverts.map {d : Decoder ε α} {write : α → Bytes} {write' : β → Bytes} (g : α → β)
    (h : Inverts d write) (hg : ∀ a, write' (g a) = write a) :
    Inverts (do let v ← d; return g v) write' := by
  intro bytes b rest hd
  simp only [bind_eq_ok, pure_eq_ok, Prod.mk.injEq] at hd
  obtain ⟨a, mid, ha, rfl, rfl⟩ := hd
  rw [hg]
  exact h _ _ _ ha

/-! ### What is left -/

/-- The number of bytes that are left. -/
def available : Decoder ε ℕ := fun bytes => .ok (bytes.length, bytes)

@[simp] theorem available_eq (bytes : Bytes) :
    (available : Decoder ε ℕ) bytes = .ok (bytes.length, bytes) := rfl

/-- The next bytes: as many as asked for, or all. -/
def readNBytes (n : ℕ) : Decoder ε Bytes := fun bytes => .ok (bytes.take n, bytes.drop n)

@[simp] theorem readNBytes_eq (n : ℕ) (bytes : Bytes) :
    (readNBytes n : Decoder ε Bytes) bytes = .ok (bytes.take n, bytes.drop n) := rfl

theorem readNBytes_reads (bytes : Bytes) :
    Reads (readNBytes bytes.length : Decoder ε Bytes) bytes bytes := by
  intro rest
  simp

/-! ### Fields of fixed width -/

section

variable {w width : ℕ}

/-- The big-endian bytes of a bit vector. -/
@[irreducible] def writeBits (width : ℕ) (v : BitVec w) : Bytes := bigEndian width v.toNat

@[simp] theorem length_writeBits (v : BitVec w) : (writeBits width v).length = width := by
  rw [writeBits, length_bigEndian]

/-- A bit vector from its big-endian bytes; `eof` is thrown where they end early. -/
def readBits (eof : ε) (w width : ℕ) : Decoder ε (BitVec w) := fun bytes =>
  if width ≤ bytes.length then
    .ok (BitVec.ofNat w (ofBigEndian (bytes.take width)), bytes.drop width)
  else .error eof

theorem ofNat_writeBits (v : BitVec w) (hw : w = 8 * width) :
    BitVec.ofNat w (ofBigEndian (writeBits width v)) = v := by
  have hlt : v.toNat < 256 ^ width := by
    calc
      v.toNat < 2 ^ w := v.isLt
      _ = 256 ^ width := by rw [hw, Nat.pow_mul]
  rw [writeBits, ofBigEndian_bigEndian hlt]
  simp

variable (width) in
theorem readBits_reads (eof : ε) (v : BitVec w) (hw : w = 8 * width) :
    Reads (readBits eof w width) (writeBits width v) v := by
  intro rest
  rw [readBits, if_pos (by simp), List.take_left' (by simp), List.drop_left' (by simp),
    ofNat_writeBits v hw]

variable (width) in
theorem readBits_inverts (eof : ε) (hw : w = 8 * width) :
    Inverts (readBits eof w width) (writeBits width) := by
  intro bytes v rest h
  unfold readBits at h
  split at h
  · rename_i hlen
    simp only [Except.ok.injEq, Prod.mk.injEq] at h
    obtain ⟨rfl, rfl⟩ := h
    have hlength : (bytes.take width).length = width := by simp [hlen]
    have hlt := ofBigEndian_lt (bytes.take width)
    rw [hlength] at hlt
    have hback := bigEndian_ofBigEndian (bytes.take width)
    rw [hlength] at hback
    have hmod : 2 ^ w = 256 ^ width := by
      rw [hw, Nat.pow_mul]
    rw [writeBits, BitVec.toNat_ofNat, hmod, Nat.mod_eq_of_lt hlt, hback, List.take_append_drop]
  · cases h

end

/-! ### Repetition -/

/-- A value as often as its count says. -/
def times (d : Decoder ε α) : ℕ → Decoder ε (List α)
  | 0 => pure []
  | n + 1 => do
    let a ← d
    let values ← times d n
    return a :: values

theorem times_reads {d : Decoder ε α} {write : α → Bytes} {values : List α}
    (h : ∀ a ∈ values, Reads d (write a) a) :
    Reads (times d values.length) (values.flatMap write) values := by
  induction values with
  | nil => exact fun rest => rfl
  | cons a values ih =>
    intro rest
    rw [List.flatMap_cons, List.append_assoc, List.length_cons, times, (h a (by simp)).bind,
      (ih fun a ha => h a (by simp [ha])).bind]
    rfl

theorem times_inverts {d : Decoder ε α} {write : α → Bytes} (h : Inverts d write) {n : ℕ}
    {bytes rest : Bytes} {values : List α} (ht : times d n bytes = .ok (values, rest)) :
    values.length = n ∧ bytes = values.flatMap write ++ rest := by
  induction n generalizing bytes values with
  | zero =>
    cases ht
    simp
  | succ n ih =>
    simp only [times, bind_eq_ok, pure_eq_ok, Prod.mk.injEq] at ht
    obtain ⟨a, mid, ha, values, mid', hvalues, rfl, rfl⟩ := ht
    obtain ⟨hlength, rfl⟩ := ih hvalues
    rw [h _ _ _ ha]
    exact ⟨by simp [hlength], by simp⟩

end Decoder

end GeneralSearch
