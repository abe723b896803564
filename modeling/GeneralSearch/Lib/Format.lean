import GeneralSearch.Lib.Bytes

/-! Binary formats.  A format writes a value and reads one off the front of a byte string; its laws
say that a written value is read back whatever follows, and that only written values are read.  So
there is one byte form for each value. -/

namespace GeneralSearch

/-- A format for the values that satisfy `Valid`. -/
structure Format (α : Type) where
  Valid : α → Prop
  write : α → Bytes
  read : Bytes → Option (α × Bytes)
  read_write : ∀ {a}, Valid a → ∀ rest, read (write a ++ rest) = some (a, rest)
  write_read : ∀ {bytes a rest}, read bytes = some (a, rest) → Valid a ∧ bytes = write a ++ rest

namespace Format

variable {α β : Type}

/-- One after the other. -/
def pair (f : Format α) (g : Format β) : Format (α × β) where
  Valid p := f.Valid p.1 ∧ g.Valid p.2
  write p := f.write p.1 ++ g.write p.2
  read bytes := do
    let (a, rest) ← f.read bytes
    let (b, rest) ← g.read rest
    return ((a, b), rest)
  read_write h rest := by simp [List.append_assoc, f.read_write h.1, g.read_write h.2]
  write_read h := by
    simp only [bind, Option.bind_eq_some_iff, pure, Option.some.injEq, Prod.mk.injEq,
      Prod.exists] at h
    obtain ⟨a, rest, ha, b, rest', hb, rfl, rfl⟩ := h
    obtain ⟨hav, rfl⟩ := f.write_read ha
    obtain ⟨hbv, rfl⟩ := g.write_read hb
    exact ⟨⟨hav, hbv⟩, by simp⟩

/-- The values under another name, those that pass a check. -/
def convert (f : Format α) (make : α → Option β) (back : β → α)
    (h : ∀ a b, make a = some b → back b = a) : Format β where
  Valid b := f.Valid (back b) ∧ make (back b) = some b
  write b := f.write (back b)
  read bytes := do
    let (a, rest) ← f.read bytes
    let b ← make a
    return (b, rest)
  read_write hb rest := by simp [f.read_write hb.1, hb.2]
  write_read hr := by
    simp only [bind, Option.bind_eq_some_iff, pure, Option.some.injEq, Prod.mk.injEq,
      Prod.exists] at hr
    obtain ⟨a, rest, ha, b, hb, rfl, rfl⟩ := hr
    obtain ⟨hav, rfl⟩ := f.write_read ha
    rw [h a b hb]
    exact ⟨⟨hav, hb⟩, rfl⟩

/-! ### Repetition to the end -/

/-- The values that fill a byte string, with as many steps as `fuel`. -/
def readMany (f : Format α) : ℕ → Bytes → Option (List α)
  | _, [] => some []
  | 0, _ :: _ => none
  | fuel + 1, bytes => do
    let (a, rest) ← f.read bytes
    let values ← readMany f fuel rest
    return a :: values

/-- The values that fill a byte string. -/
def parseMany (f : Format α) (bytes : Bytes) : Option (List α) :=
  f.readMany bytes.length bytes

theorem readMany_write (f : Format α) (hne : ∀ a, f.Valid a → f.write a ≠ []) {values : List α}
    (h : ∀ a ∈ values, f.Valid a) {fuel : ℕ} (hfuel : (values.flatMap f.write).length ≤ fuel) :
    f.readMany fuel (values.flatMap f.write) = some values := by
  induction values generalizing fuel with
  | nil => cases fuel <;> rfl
  | cons a values ih =>
    have ha := h a (by simp)
    obtain ⟨b, bytes, hwrite⟩ := List.exists_cons_of_ne_nil (hne a ha)
    rw [List.flatMap_cons, List.length_append] at hfuel
    cases fuel with
    | zero =>
      rw [hwrite, List.length_cons] at hfuel
      omega
    | succ fuel =>
      have hrest : (values.flatMap f.write).length ≤ fuel := by
        rw [hwrite, List.length_cons] at hfuel
        omega
      have hread := f.read_write ha (values.flatMap f.write)
      rw [List.flatMap_cons]
      rw [hwrite] at hread ⊢
      simp only [List.cons_append] at hread ⊢
      simp [readMany, hread, ih (fun a ha => h a (by simp [ha])) hrest]

theorem parseMany_write (f : Format α) (hne : ∀ a, f.Valid a → f.write a ≠ []) {values : List α}
    (h : ∀ a ∈ values, f.Valid a) : f.parseMany (values.flatMap f.write) = some values :=
  f.readMany_write hne h (Nat.le_refl _)

theorem write_readMany (f : Format α) {fuel : ℕ} {bytes : Bytes} {values : List α}
    (h : f.readMany fuel bytes = some values) :
    (∀ a ∈ values, f.Valid a) ∧ bytes = values.flatMap f.write := by
  induction fuel generalizing bytes values with
  | zero =>
    cases bytes with
    | nil => cases h; simp
    | cons b bytes => cases h
  | succ fuel ih =>
    cases bytes with
    | nil => cases h; simp
    | cons b bytes =>
      simp only [readMany, bind, Option.bind_eq_some_iff, pure, Option.some.injEq,
        Prod.exists] at h
      obtain ⟨a, rest, hread, values, hvalues, rfl⟩ := h
      obtain ⟨ha, hbytes⟩ := f.write_read hread
      obtain ⟨hall, rfl⟩ := ih hvalues
      exact ⟨by simpa [ha] using hall, by simpa using hbytes⟩

theorem write_parseMany (f : Format α) {bytes : Bytes} {values : List α}
    (h : f.parseMany bytes = some values) :
    (∀ a ∈ values, f.Valid a) ∧ bytes = values.flatMap f.write :=
  f.write_readMany h

end Format

end GeneralSearch
