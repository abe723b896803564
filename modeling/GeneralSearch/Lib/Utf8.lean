import GeneralSearch.Lib.Format

/-! Strings of UTF-16 units and their UTF-8 bytes, as the Java platform converts them: `getBytes`
replaces a surrogate without a partner by a question mark, and the strict decoder reports every
malformed sequence. -/

namespace GeneralSearch.Utf8

/-- `String`: its UTF-16 units. -/
abbrev JavaString := List UInt16

instance JavaString.lawfulBEq : LawfulBEq JavaString := inferInstance

instance JavaString.decidableForall (text : JavaString) (p : UInt16 → Prop) [DecidablePred p] :
    Decidable (∀ c ∈ text, p c) := List.decidableBAll p text

/-- The units that a character has in the Latin alphabet. -/
def ofString (s : String) : JavaString := s.toList.map fun c => UInt16.ofNat c.toNat

/-! ### One scalar value -/

/-- A Unicode scalar value: a code point that is not a surrogate. -/
def IsScalar (c : ℕ) : Prop := c < 0xD800 ∨ (0xE000 ≤ c ∧ c < 0x110000)

instance (c : ℕ) : Decidable (IsScalar c) := inferInstanceAs (Decidable (_ ∨ _))

/-- The UTF-8 bytes of a scalar value. -/
def encodeScalar (c : ℕ) : Bytes :=
  if c < 0x80 then [.ofNat c]
  else if c < 0x800 then [.ofNat (0xC0 + c / 64), .ofNat (0x80 + c % 64)]
  else if c < 0x10000 then
    [.ofNat (0xE0 + c / 4096), .ofNat (0x80 + c / 64 % 64), .ofNat (0x80 + c % 64)]
  else
    [.ofNat (0xF0 + c / 262144), .ofNat (0x80 + c / 4096 % 64), .ofNat (0x80 + c / 64 % 64),
      .ofNat (0x80 + c % 64)]

/-- A continuation byte. -/
def IsTail (b : UInt8) : Prop := 0x80 ≤ b.toNat ∧ b.toNat < 0xC0

instance (b : UInt8) : Decidable (IsTail b) := inferInstanceAs (Decidable (_ ∧ _))

/-- The scalar value at the front of the bytes; an overlong form, a surrogate and a value past the
last code point are malformed. -/
def decodeScalar : Bytes → Option (ℕ × Bytes)
  | [] => none
  | a :: rest =>
    if a.toNat < 0x80 then some (a.toNat, rest)
    else if 0xC2 ≤ a.toNat ∧ a.toNat < 0xE0 then
      match rest with
      | b :: rest =>
        if IsTail b then some ((a.toNat - 0xC0) * 64 + (b.toNat - 0x80), rest) else none
      | [] => none
    else if 0xE0 ≤ a.toNat ∧ a.toNat < 0xF0 then
      match rest with
      | b :: c :: rest =>
        let v := (a.toNat - 0xE0) * 4096 + (b.toNat - 0x80) * 64 + (c.toNat - 0x80)
        if IsTail b ∧ IsTail c ∧ 0x800 ≤ v ∧ IsScalar v then some (v, rest) else none
      | _ => none
    else if 0xF0 ≤ a.toNat ∧ a.toNat < 0xF5 then
      match rest with
      | b :: c :: d :: rest =>
        let v := (a.toNat - 0xF0) * 262144 + (b.toNat - 0x80) * 4096 + (c.toNat - 0x80) * 64 +
          (d.toNat - 0x80)
        if IsTail b ∧ IsTail c ∧ IsTail d ∧ 0x10000 ≤ v ∧ IsScalar v then some (v, rest)
        else none
      | _ => none
    else none

theorem toNat_ofNat {n : ℕ} (h : n < 256) : (UInt8.ofNat n).toNat = n := by
  rw [UInt8.toNat_ofNat']
  exact Nat.mod_eq_of_lt h

theorem decodeScalar_encodeScalar {c : ℕ} (h : IsScalar c) (rest : Bytes) :
    decodeScalar (encodeScalar c ++ rest) = some (c, rest) := by
  have hmax : c < 0x110000 := by
    rcases h with h | h <;> omega
  unfold encodeScalar
  by_cases h1 : c < 0x80
  · rw [if_pos h1]
    simp [decodeScalar, toNat_ofNat (show c < 256 by omega), h1]
  rw [if_neg h1]
  have htail : ∀ n, n < 64 → (UInt8.ofNat (0x80 + n)).toNat = 0x80 + n := fun n hn =>
    toNat_ofNat (by omega)
  by_cases h2 : c < 0x800
  · have ha : (UInt8.ofNat (0xC0 + c / 64)).toNat = 0xC0 + c / 64 := toNat_ofNat (by omega)
    have hb := htail (c % 64) (Nat.mod_lt _ (by decide))
    rw [if_pos h2]
    simp only [decodeScalar, List.cons_append, List.nil_append, ha, IsTail, hb]
    rw [if_neg (by omega), if_pos (by omega), if_pos (by omega)]
    simp only [Option.some.injEq, Prod.mk.injEq, and_true]
    omega
  rw [if_neg h2]
  by_cases h3 : c < 0x10000
  · have ha : (UInt8.ofNat (0xE0 + c / 4096)).toNat = 0xE0 + c / 4096 := toNat_ofNat (by omega)
    have hb := htail (c / 64 % 64) (Nat.mod_lt _ (by decide))
    have hc := htail (c % 64) (Nat.mod_lt _ (by decide))
    have hv : (0xE0 + c / 4096 - 0xE0) * 4096 + (0x80 + c / 64 % 64 - 0x80) * 64 +
        (0x80 + c % 64 - 0x80) = c := by omega
    rw [if_pos h3]
    simp only [decodeScalar, List.cons_append, List.nil_append, ha, IsTail, hb, hc, hv]
    rw [if_neg (by omega), if_neg (by omega), if_pos (by omega),
      if_pos ⟨by omega, by omega, by omega, h⟩]
  · have ha : (UInt8.ofNat (0xF0 + c / 262144)).toNat = 0xF0 + c / 262144 :=
      toNat_ofNat (by omega)
    have hb := htail (c / 4096 % 64) (Nat.mod_lt _ (by decide))
    have hc := htail (c / 64 % 64) (Nat.mod_lt _ (by decide))
    have hd := htail (c % 64) (Nat.mod_lt _ (by decide))
    have hv : (0xF0 + c / 262144 - 0xF0) * 262144 + (0x80 + c / 4096 % 64 - 0x80) * 4096 +
        (0x80 + c / 64 % 64 - 0x80) * 64 + (0x80 + c % 64 - 0x80) = c := by omega
    rw [if_neg h3]
    simp only [decodeScalar, List.cons_append, List.nil_append, ha, IsTail, hb, hc, hd, hv]
    rw [if_neg (by omega), if_neg (by omega), if_neg (by omega), if_pos (by omega),
      if_pos ⟨by omega, by omega, by omega, by omega, h⟩]

theorem encodeScalar_decodeScalar {bytes : Bytes} {c : ℕ} {rest : Bytes}
    (h : decodeScalar bytes = some (c, rest)) :
    IsScalar c ∧ bytes = encodeScalar c ++ rest := by
  have hbyte : ∀ {b : UInt8} {n : ℕ}, n = b.toNat → UInt8.ofNat n = b := by
    rintro b _ rfl
    exact UInt8.ofNat_toNat
  cases bytes with
  | nil => cases h
  | cons a bytes =>
    simp only [decodeScalar] at h
    split at h
    · rename_i ha
      cases h
      exact ⟨.inl (by omega), by simp [encodeScalar, ha]⟩
    split at h
    · rename_i ha ha'
      split at h
      · rename_i b rest'
        split at h
        · rename_i hb
          simp only [Option.some.injEq, Prod.mk.injEq] at h
          obtain ⟨rfl, rfl⟩ := h
          obtain ⟨hb, hb'⟩ := hb
          refine ⟨.inl (by omega), ?_⟩
          rw [encodeScalar, if_neg (by omega), if_pos (by omega)]
          simp only [List.cons_append, List.nil_append, List.cons.injEq, and_true]
          exact ⟨(hbyte (by omega)).symm, (hbyte (by omega)).symm⟩
        · cases h
      · cases h
    split at h
    · rename_i ha ha' ha''
      split at h
      · rename_i b c' rest'
        split at h
        · rename_i hv
          simp only [Option.some.injEq, Prod.mk.injEq] at h
          obtain ⟨rfl, rfl⟩ := h
          obtain ⟨⟨hb, hb'⟩, ⟨hc, hc'⟩, hlow, hs⟩ := hv
          refine ⟨hs, ?_⟩
          rw [encodeScalar, if_neg (by omega), if_neg (by omega), if_pos (by omega)]
          simp only [List.cons_append, List.nil_append, List.cons.injEq, and_true]
          exact ⟨(hbyte (by omega)).symm, (hbyte (by omega)).symm, (hbyte (by omega)).symm⟩
        · cases h
      · cases h
    split at h
    · split at h
      · rename_i b c' d rest'
        split at h
        · rename_i hv
          simp only [Option.some.injEq, Prod.mk.injEq] at h
          obtain ⟨rfl, rfl⟩ := h
          obtain ⟨⟨hb, hb'⟩, ⟨hc, hc'⟩, ⟨hd, hd'⟩, hlow, hs⟩ := hv
          refine ⟨hs, ?_⟩
          rw [encodeScalar, if_neg (by omega), if_neg (by omega), if_neg (by omega)]
          simp only [List.cons_append, List.nil_append, List.cons.injEq, and_true]
          exact ⟨(hbyte (by omega)).symm, (hbyte (by omega)).symm, (hbyte (by omega)).symm,
            (hbyte (by omega)).symm⟩
        · cases h
      · cases h
    · cases h

/-- UTF-8, one scalar value at a time. -/
def scalar : Format ℕ where
  Valid := IsScalar
  write := encodeScalar
  read := decodeScalar
  read_write := decodeScalar_encodeScalar
  write_read := encodeScalar_decodeScalar

theorem encodeScalar_ne_nil (c : ℕ) : encodeScalar c ≠ [] := by
  unfold encodeScalar
  split
  · simp
  split
  · simp
  split <;> simp

/-! ### Units and scalar values -/

/-- The first unit of a surrogate pair. -/
def IsHigh (u : UInt16) : Prop := 0xD800 ≤ u.toNat ∧ u.toNat < 0xDC00

/-- The second unit of a surrogate pair. -/
def IsLow (u : UInt16) : Prop := 0xDC00 ≤ u.toNat ∧ u.toNat < 0xE000

instance (u : UInt16) : Decidable (IsHigh u) := inferInstanceAs (Decidable (_ ∧ _))

instance (u : UInt16) : Decidable (IsLow u) := inferInstanceAs (Decidable (_ ∧ _))

/-- The scalar values of a string; `none` stands for a surrogate without a partner. -/
def scalars : JavaString → List (Option ℕ)
  | [] => []
  | [u] => [if IsHigh u ∨ IsLow u then none else some u.toNat]
  | u :: v :: rest =>
    if IsHigh u then
      if IsLow v then
        some (0x10000 + (u.toNat - 0xD800) * 1024 + (v.toNat - 0xDC00)) :: scalars rest
      else none :: scalars (v :: rest)
    else if IsLow u then none :: scalars (v :: rest)
    else some u.toNat :: scalars (v :: rest)

/-- The units of a scalar value. -/
def units (c : ℕ) : JavaString :=
  if c < 0x10000 then [.ofNat c]
  else [.ofNat (0xD800 + (c - 0x10000) / 1024), .ofNat (0xDC00 + (c - 0x10000) % 1024)]

/-- Every surrogate of the string has its partner. -/
def WellFormed (s : JavaString) : Prop := none ∉ scalars s

instance (s : JavaString) : Decidable (WellFormed s) := inferInstanceAs (Decidable (¬ _))

/-- `String.getBytes(UTF_8)`. -/
def getBytes (s : JavaString) : Bytes :=
  (scalars s).flatMap fun
    | some c => encodeScalar c
    | none => [0x3F]

/-- The strict decoder: `REPORT` on malformed and on unmappable input. -/
def decode (bytes : Bytes) : Option JavaString :=
  (scalar.parseMany bytes).map (·.flatMap units)

theorem toNat_ofNat16 {n : ℕ} (h : n < 65536) : (UInt16.ofNat n).toNat = n := by
  rw [UInt16.toNat_ofNat']
  exact Nat.mod_eq_of_lt h

theorem scalars_isScalar {s : JavaString} {c : ℕ} (h : some c ∈ scalars s) : IsScalar c := by
  induction s using scalars.induct with
  | case1 => simp [scalars] at h
  | case2 u =>
    have hu := u.toNat_lt
    simp only [scalars, List.mem_singleton] at h
    split at h
    · cases h
    · rename_i hs
      cases h
      unfold IsHigh IsLow at hs
      unfold IsScalar
      omega
  | case3 u v rest hu hv ih =>
    simp only [scalars, if_pos hu, if_pos hv, List.mem_cons] at h
    rcases h with h | h
    · rw [Option.some.inj h]
      obtain ⟨hu, hu'⟩ := hu
      obtain ⟨hv, hv'⟩ := hv
      exact .inr ⟨by omega, by omega⟩
    · exact ih h
  | case4 u v rest hu hv ih =>
    simp only [scalars, if_pos hu, if_neg hv, List.mem_cons] at h
    exact ih (h.resolve_left (by simp))
  | case5 u v rest hu hv ih =>
    simp only [scalars, if_neg hu, if_pos hv, List.mem_cons] at h
    exact ih (h.resolve_left (by simp))
  | case6 u v rest hu hv ih =>
    have hlt := u.toNat_lt
    simp only [scalars, if_neg hu, if_neg hv, List.mem_cons] at h
    rcases h with h | h
    · cases h
      unfold IsHigh at hu
      unfold IsLow at hv
      unfold IsScalar
      omega
    · exact ih h

/-- The units of a well-formed string are those of its scalar values. -/
theorem flatMap_units {s : JavaString} (h : WellFormed s) :
    ((scalars s).filterMap id).flatMap units = s := by
  have hunit : ∀ {n : ℕ} {u : UInt16}, n = u.toNat → UInt16.ofNat n = u := by
    rintro n u rfl
    exact UInt16.ofNat_toNat
  unfold WellFormed at h
  induction s using scalars.induct with
  | case1 => rfl
  | case2 u =>
    have hu := u.toNat_lt
    simp only [scalars] at h ⊢
    split at h
    · simp at h
    · rename_i hs
      rw [if_neg hs]
      simp only [List.filterMap_cons, id_eq, List.filterMap_nil, List.flatMap_cons, List.flatMap_nil,
        List.append_nil, units, if_pos hu]
      rw [hunit rfl]
  | case3 u v rest hu hv ih =>
    simp only [scalars, if_pos hu, if_pos hv, List.mem_cons, reduceCtorEq, false_or] at h
    simp only [scalars, if_pos hu, if_pos hv, List.filterMap_cons_some (f := id) rfl,
      List.flatMap_cons, ih h, units]
    obtain ⟨hu, hu'⟩ := hu
    obtain ⟨hv, hv'⟩ := hv
    rw [if_neg (by omega), hunit (u := u) (by omega), hunit (u := v) (by omega)]
    rfl
  | case4 u v rest hu hv ih => simp [scalars, hu, hv] at h
  | case5 u v rest hu hv ih => simp [scalars, hu, hv] at h
  | case6 u v rest hu hv ih =>
    have hlt := u.toNat_lt
    simp only [scalars, if_neg hu, if_neg hv, List.mem_cons, reduceCtorEq, false_or] at h
    simp only [scalars, if_neg hu, if_neg hv, List.filterMap_cons_some (f := id) rfl,
      List.flatMap_cons, ih h, units, if_pos hlt]
    rw [hunit rfl]
    rfl

/-- The units of scalar values are read as these scalar values. -/
theorem scalars_units_append {c : ℕ} (h : IsScalar c) (s : JavaString) :
    scalars (units c ++ s) = some c :: scalars s := by
  unfold units
  by_cases hc : c < 0x10000
  · have hto := toNat_ofNat16 hc
    have hhigh : ¬ IsHigh (.ofNat c) := by
      unfold IsHigh
      rw [hto]
      rcases h with h | h <;> omega
    have hlow : ¬ IsLow (.ofNat c) := by
      unfold IsLow
      rw [hto]
      rcases h with h | h <;> omega
    rw [if_pos hc]
    cases s with
    | nil => simp [scalars, hhigh, hlow, hto]
    | cons v s => simp [scalars, hhigh, hlow, hto]
  · have hmax : c < 0x110000 := by rcases h with h | h <;> omega
    have hu : (UInt16.ofNat (0xD800 + (c - 0x10000) / 1024)).toNat =
        0xD800 + (c - 0x10000) / 1024 := toNat_ofNat16 (by omega)
    have hv : (UInt16.ofNat (0xDC00 + (c - 0x10000) % 1024)).toNat =
        0xDC00 + (c - 0x10000) % 1024 := toNat_ofNat16 (by omega)
    have hhigh : IsHigh (.ofNat (0xD800 + (c - 0x10000) / 1024)) := by
      unfold IsHigh
      rw [hu]
      omega
    have hlow : IsLow (.ofNat (0xDC00 + (c - 0x10000) % 1024)) := by
      unfold IsLow
      rw [hv]
      omega
    rw [if_neg hc]
    simp only [List.cons_append, List.nil_append, scalars, if_pos hhigh, if_pos hlow, hu, hv]
    rw [show 0x10000 + (0xD800 + (c - 0x10000) / 1024 - 0xD800) * 1024 +
      (0xDC00 + (c - 0x10000) % 1024 - 0xDC00) = c by omega]

theorem scalars_flatMap_units {cs : List ℕ} (h : ∀ c ∈ cs, IsScalar c) :
    scalars (cs.flatMap units) = cs.map some := by
  induction cs with
  | nil => rfl
  | cons c cs ih =>
    rw [List.flatMap_cons, scalars_units_append (h c (by simp)),
      ih fun c hc => h c (by simp [hc])]
    rfl

/-- The bytes of a well-formed string are those of its scalar values. -/
theorem getBytes_eq {s : JavaString} (h : WellFormed s) :
    getBytes s = ((scalars s).filterMap id).flatMap encodeScalar := by
  unfold getBytes
  unfold WellFormed at h
  revert h
  generalize scalars s = cs
  intro h
  induction cs with
  | nil => rfl
  | cons c cs ih =>
    cases c with
    | none => simp at h
    | some c => simpa using ih (by simpa using h)

/-- A well-formed string survives its conversion to bytes. -/
theorem decode_getBytes {s : JavaString} (h : WellFormed s) : decode (getBytes s) = some s := by
  have hparse : scalar.parseMany (getBytes s) = some ((scalars s).filterMap id) := by
    rw [getBytes_eq h]
    refine scalar.parseMany_write (fun c _ => encodeScalar_ne_nil c) fun c hc => ?_
    obtain ⟨c', hc', rfl⟩ := List.mem_filterMap.mp hc
    exact scalars_isScalar hc'
  rw [decode, hparse, Option.map_some, flatMap_units h]

/-- What the strict decoder accepts is the conversion of a well-formed string. -/
theorem getBytes_decode {bytes : Bytes} {s : JavaString} (h : decode bytes = some s) :
    WellFormed s ∧ getBytes s = bytes := by
  obtain ⟨cs, hparse, rfl⟩ := Option.map_eq_some_iff.mp h
  obtain ⟨hall, rfl⟩ := scalar.write_parseMany hparse
  have hscalars := scalars_flatMap_units hall
  have hwf : WellFormed (cs.flatMap units) := by simp [WellFormed, hscalars]
  refine ⟨hwf, ?_⟩
  rw [getBytes_eq hwf, hscalars, List.filterMap_map]
  simp [scalar]

/-! ### ASCII -/

/-- Every unit of the string is an ASCII character. -/
def Ascii (s : JavaString) : Prop := ∀ u ∈ s, u.toNat < 0x80

theorem scalars_ascii {s : JavaString} (h : Ascii s) : scalars s = s.map fun u => some u.toNat := by
  have hsingle : ∀ u : UInt16, u.toNat < 0x80 → ¬IsHigh u ∧ ¬IsLow u := by
    intro u hu
    unfold IsHigh IsLow
    omega
  induction s using scalars.induct with
  | case1 => rfl
  | case2 u =>
    obtain ⟨hhigh, hlow⟩ := hsingle u (h u (by simp))
    simp [scalars, hhigh, hlow]
  | case3 u v rest hu => exact absurd hu (hsingle u (h u (by simp))).1
  | case4 u v rest hu => exact absurd hu (hsingle u (h u (by simp))).1
  | case5 u v rest hu hv => exact absurd hv (hsingle u (h u (by simp))).2
  | case6 u v rest hu hv ih =>
    rw [scalars, if_neg hu, if_neg hv, ih fun w hw => h w (by simp [hw])]
    rfl

theorem wellFormed_ascii {s : JavaString} (h : Ascii s) : WellFormed s := by
  rw [WellFormed, scalars_ascii h]
  simp

/-- The bytes of an ASCII string are its characters. -/
theorem getBytes_ascii {s : JavaString} (h : Ascii s) :
    getBytes s = s.map fun u => UInt8.ofNat u.toNat := by
  rw [getBytes, scalars_ascii h]
  induction s with
  | nil => rfl
  | cons u s ih =>
    have hlt := h u (by simp)
    rw [List.map_cons, List.flatMap_cons, ih fun v hv => h v (by simp [hv]), List.map_cons]
    show encodeScalar u.toNat ++ _ = _
    rw [encodeScalar, if_pos hlt]
    rfl

theorem length_getBytes_ascii {s : JavaString} (h : Ascii s) : (getBytes s).length = s.length := by
  rw [getBytes_ascii h, List.length_map]

end GeneralSearch.Utf8
