import GeneralSearch.Lib.Decoder
import GeneralSearch.Lib.Utf8

/-! Parsers over any state that bytes are read from.  A parser is exact for a relation when it
succeeds on just the byte strings that the relation has, with the related values; the rules give the
relation of a program from those of its parts. -/

namespace GeneralSearch

open GeneralSearch.Utf8 (JavaString)

/-- States that bytes are read from: `Reads s w s'` when `w` is read from `s` and leaves `s'`. -/
class Tape (σ : Type) where
  Reads : σ → Bytes → σ → Prop
  reads_nil : ∀ {s s' : σ}, Reads s [] s' ↔ s' = s
  reads_append : ∀ {s s' : σ} {v w : Bytes},
    Reads s (v ++ w) s' ↔ ∃ mid, Reads s v mid ∧ Reads mid w s'

/-- What is left of a byte string. -/
instance : Tape Bytes where
  Reads s w s' := s = w ++ s'
  reads_nil := eq_comm
  reads_append {s s' v w} := by
    constructor
    · rintro rfl
      exact ⟨w ++ s', List.append_assoc v w s', rfl⟩
    · rintro ⟨_, rfl, rfl⟩
      exact (List.append_assoc v w s').symm

abbrev Parser (σ ε α : Type) := StateT σ (Except ε) α

namespace Parser

section

variable {σ ε α β : Type}

theorem bind_eq_ok {p : Parser σ ε α} {f : α → Parser σ ε β} {s : σ} {r : β × σ} :
    (p >>= f) s = .ok r ↔ ∃ a mid, p s = .ok (a, mid) ∧ f a mid = .ok r := by
  show (p s >>= fun r => f r.1 r.2) = .ok r ↔ _
  rw [Lib.bind_eq_ok, Prod.exists]

theorem pure_eq_ok {a : α} {s : σ} {r : α × σ} :
    (pure a : Parser σ ε α) s = .ok r ↔ r = (a, s) := by
  show Except.ok (a, s) = .ok r ↔ _
  rw [Except.ok.injEq, eq_comm]

theorem get_eq_ok {s : σ} {r : σ × σ} : (get : Parser σ ε σ) s = .ok r ↔ r = (s, s) := by
  show Except.ok (s, s) = .ok r ↔ _
  rw [Except.ok.injEq, eq_comm]

/-- `if (condition) throw failure`. -/
def refuse (condition : Prop) [Decidable condition] (failure : ε) : Parser σ ε Unit :=
  if condition then throw failure else pure ()

theorem refuse_eq_ok {condition : Prop} [Decidable condition] {failure : ε} {s : σ}
    {r : Unit × σ} : refuse condition failure s = .ok r ↔ ¬condition ∧ r = ((), s) := by
  unfold refuse
  by_cases h : condition
  · rw [if_pos h]
    exact iff_of_false nofun fun h' => h'.1 h
  · rw [if_neg h, pure_eq_ok, and_iff_right h]

end

open Tape (Reads)

variable {σ ε α β τ ι : Type} [Tape σ]

/-- The parser succeeds on the byte strings of the relation. -/
def Exact (p : Parser σ ε α) (R : α → Bytes → Prop) : Prop :=
  ∀ s a s', p s = .ok (a, s') ↔ ∃ w, R a w ∧ Reads s w s'

theorem Exact.congr {p : Parser σ ε α} {R R' : α → Bytes → Prop} (h : Exact p R)
    (hiff : ∀ a w, R a w ↔ R' a w) : Exact p R' := by
  intro s a s'
  rw [h]
  exact exists_congr fun w => and_congr_left' (hiff a w)

theorem exact_pure (a : α) : Exact (pure a : Parser σ ε α) fun b w => b = a ∧ w = [] := by
  intro s b s'
  rw [pure_eq_ok, Prod.mk.injEq]
  constructor
  · rintro ⟨rfl, rfl⟩
    exact ⟨[], ⟨rfl, rfl⟩, Tape.reads_nil.mpr rfl⟩
  · rintro ⟨_, ⟨rfl, rfl⟩, hreads⟩
    exact ⟨rfl, Tape.reads_nil.mp hreads⟩

theorem exact_throw (e : ε) : Exact (throw e : Parser σ ε α) fun _ _ => False := by
  intro s a s'
  refine iff_of_false nofun ?_
  rintro ⟨_, h, -⟩
  exact h

/-- One parser after the other, which has to be exact for the values of the first one. -/
theorem Exact.bind_of {p : Parser σ ε α} {f : α → Parser σ ε β} {R : α → Bytes → Prop}
    {S : α → β → Bytes → Prop} (h : Exact p R) (hf : ∀ a w, R a w → Exact (f a) (S a)) :
    Exact (p >>= f) fun b w => ∃ a v u, R a v ∧ S a b u ∧ w = v ++ u := by
  intro s b s'
  rw [bind_eq_ok]
  constructor
  · rintro ⟨a, mid, hp, hrest⟩
    obtain ⟨v, hv, hreads⟩ := (h s a mid).mp hp
    obtain ⟨u, hu, hreads'⟩ := (hf a v hv mid b s').mp hrest
    exact ⟨v ++ u, ⟨a, v, u, hv, hu, rfl⟩, Tape.reads_append.mpr ⟨mid, hreads, hreads'⟩⟩
  · rintro ⟨_, ⟨a, v, u, hv, hu, rfl⟩, hreads⟩
    obtain ⟨mid, hfirst, hsecond⟩ := Tape.reads_append.mp hreads
    exact ⟨a, mid, (h s a mid).mpr ⟨v, hv, hfirst⟩, (hf a v hv mid b s').mpr ⟨u, hu, hsecond⟩⟩

theorem Exact.bind {p : Parser σ ε α} {f : α → Parser σ ε β} {R : α → Bytes → Prop}
    {S : α → β → Bytes → Prop} (h : Exact p R) (hf : ∀ a, Exact (f a) (S a)) :
    Exact (p >>= f) fun b w => ∃ a v u, R a v ∧ S a b u ∧ w = v ++ u :=
  h.bind_of fun a _ _ => hf a

/-- A field in front: its values with their bytes, then the rest. -/
theorem Exact.field {p : Parser σ ε α} {f : α → Parser σ ε β} {Valid : α → Prop} {write : α → Bytes}
    {S : α → β → Bytes → Prop} (h : Exact p fun a w => Valid a ∧ w = write a)
    (hf : ∀ a, Valid a → Exact (f a) (S a)) :
    Exact (p >>= f) fun b w => ∃ a, Valid a ∧ ∃ u, S a b u ∧ w = write a ++ u := by
  refine (h.bind_of fun a w ha => hf a ha.1).congr fun b w => ?_
  constructor
  · rintro ⟨a, _, u, ⟨hvalid, rfl⟩, hu, rfl⟩
    exact ⟨a, hvalid, u, hu, rfl⟩
  · rintro ⟨a, hvalid, u, hu, rfl⟩
    exact ⟨a, _, u, ⟨hvalid, rfl⟩, hu, rfl⟩

/-- A check in front. -/
theorem Exact.check {condition : Prop} [Decidable condition] {failure : ε}
    {f : Unit → Parser σ ε β} {S : β → Bytes → Prop} (hf : ¬ condition → Exact (f ()) S) :
    Exact (refuse condition failure >>= f) fun b w => ¬ condition ∧ S b w := by
  unfold refuse
  by_cases hcondition : condition
  · rw [if_pos hcondition]
    have hnone : Exact (throw failure >>= f) fun b w => ∃ a v u, False ∧ S b u ∧ w = v ++ u :=
      (exact_throw failure).bind_of fun _ _ h => h.elim
    refine hnone.congr fun b w => ?_
    simp [hcondition]
  · rw [if_neg hcondition]
    refine ((exact_pure ()).bind_of fun _ _ _ => hf hcondition).congr fun b w => ?_
    simp [hcondition]

theorem exact_refuse {condition : Prop} [Decidable condition] {failure : ε} :
    Exact (refuse condition failure : Parser σ ε Unit) fun _ w => ¬ condition ∧ w = [] := by
  unfold refuse
  by_cases hcondition : condition
  · rw [if_pos hcondition]
    refine (exact_throw failure).congr fun u w => ?_
    simp [hcondition]
  · rw [if_neg hcondition]
    refine (exact_pure ()).congr fun u w => ?_
    simp [hcondition]

/-- A computation that reads nothing. -/
theorem Exact.lift {x : Except ε α} {f : α → Parser σ ε β} {S : α → β → Bytes → Prop}
    (hf : ∀ a, x = .ok a → Exact (f a) (S a)) :
    Exact (liftM x >>= f) fun b w => ∃ a, x = .ok a ∧ S a b w := by
  cases x with
  | error e =>
    intro s b s'
    refine iff_of_false nofun ?_
    rintro ⟨_, ⟨_, h, -⟩, -⟩
    cases h
  | ok a =>
    intro s b s'
    refine (hf a rfl s b s').trans (exists_congr fun w => and_congr_left' ?_)
    constructor
    · exact fun h => ⟨a, rfl, h⟩
    · rintro ⟨_, ⟨⟩, h⟩
      exact h

theorem exact_lift (x : Except ε α) :
    Exact (liftM x : Parser σ ε α) fun a w => x = .ok a ∧ w = [] := by
  cases x with
  | error e =>
    intro s a s'
    refine iff_of_false nofun ?_
    rintro ⟨_, ⟨h, -⟩, -⟩
    cases h
  | ok a =>
    refine (exact_pure a).congr fun b w => and_congr_left' ?_
    rw [Except.ok.injEq, eq_comm]

/-- What stands in front of a byte string and can be read has one reading. -/
theorem Exact.unique {p : Parser Bytes ε α} {R : α → Bytes → Prop} (h : Exact p R) {a a' : α}
    {w w' rest rest' : Bytes} (ha : R a w) (ha' : R a' w') (heq : w ++ rest = w' ++ rest') :
    a = a' ∧ rest = rest' := by
  have hread : p (w ++ rest) = .ok (a, rest) := (h _ a rest).mpr ⟨w, ha, rfl⟩
  have hread' : p (w ++ rest) = .ok (a', rest') := (h _ a' rest').mpr ⟨w', ha', heq⟩
  rw [hread] at hread'
  exact Prod.mk.inj (Except.ok.inj hread')

/-! ### Loops -/

/-- A step as often as its count says. -/
def loop (step : τ → Parser σ ε τ) : ℕ → τ → Parser σ ε τ
  | 0, t => pure t
  | n + 1, t => do
    let t ← step t
    loop step n t

/-- A loop can take some items: each of them is fine for the variables that the ones before left. -/
def Takes (Fine : τ → ι → Prop) (next : τ → ι → τ) : τ → List ι → Prop
  | _, [] => True
  | t, i :: items => Fine t i ∧ Takes Fine next (next t i) items

/-- A loop reads one item after the other. -/
theorem exact_loop {step : τ → Parser σ ε τ} {Fine : τ → ι → Prop} {next : τ → ι → τ}
    {write : ι → Bytes}
    (h : ∀ t, Exact (step t) fun t' w => ∃ i, Fine t i ∧ t' = next t i ∧ w = write i) (n : ℕ) (t : τ) :
    Exact (loop step n t) fun t' w => ∃ items, items.length = n ∧ Takes Fine next t items ∧
      t' = items.foldl next t ∧ w = items.flatMap write := by
  induction n generalizing t with
  | zero =>
    refine (exact_pure t).congr fun t' w => ?_
    constructor
    · rintro ⟨rfl, rfl⟩
      exact ⟨[], rfl, trivial, rfl, rfl⟩
    · rintro ⟨items, hlength, -, rfl, rfl⟩
      rw [List.length_eq_zero_iff.mp hlength]
      exact ⟨rfl, rfl⟩
  | succ n ih =>
    refine ((h t).bind ih).congr fun t' w => ?_
    constructor
    · rintro ⟨_, _, _, ⟨i, hfine, rfl, rfl⟩, ⟨items, rfl, htakes, rfl, rfl⟩, rfl⟩
      exact ⟨i :: items, rfl, ⟨hfine, htakes⟩, rfl, rfl⟩
    · rintro ⟨items, hlength, htakes, rfl, rfl⟩
      cases items with
      | nil => cases hlength
      | cons i items =>
        exact ⟨_, _, _, ⟨i, htakes.1, rfl, rfl⟩, ⟨items, Nat.succ.inj hlength, htakes.2, rfl, rfl⟩,
          rfl⟩

section

variable {Fine Fine' : τ → ι → Prop} {next next' : τ → ι → τ}

/-- What a loop takes another loop takes whose variables keep a relation to those of the first. -/
theorem Takes.simulate {τ' : Type} {Fine' : τ' → ι → Prop} {next' : τ' → ι → τ'}
    {R : τ → τ' → Prop} (hstep : ∀ t t' i, R t t' → Fine t i →
      Fine' t' i ∧ R (next t i) (next' t' i)) {items : List ι} {t : τ} {t' : τ'}
    (hrel : R t t') (h : Takes Fine next t items) : Takes Fine' next' t' items := by
  induction items generalizing t t' with
  | nil => trivial
  | cons i items ih =>
    obtain ⟨hfine, hnext⟩ := hstep t t' i hrel h.1
    exact ⟨hfine, ih hnext h.2⟩

/-- A loop whose check of an item remembers, of the items before, a relation to each. -/
theorem takes_iff_pairwise {R : ι → ι → Prop}
    (hnext : ∀ t i, Fine t i → ∀ j, (Fine (next t i) j ↔ Fine t j ∧ R i j)) {items : List ι}
    {t : τ} : Takes Fine next t items ↔ (∀ i ∈ items, Fine t i) ∧ items.Pairwise R := by
  induction items generalizing t with
  | nil => simp [Takes]
  | cons i items ih =>
    rw [Takes, ih, List.forall_mem_cons, List.pairwise_cons]
    constructor
    · rintro ⟨hfine, hrest, hpair⟩
      have hboth := fun j hj => (hnext t i hfine j).mp (hrest j hj)
      exact ⟨⟨hfine, fun j hj => (hboth j hj).1⟩, fun j hj => (hboth j hj).2, hpair⟩
    · rintro ⟨⟨hfine, hrest⟩, hrel, hpair⟩
      exact ⟨hfine, fun j hj => (hnext t i hfine j).mpr ⟨hrest j hj, hrel j hj⟩, hpair⟩

/-- A loop that checks each item by itself and that it comes after the item before. -/
theorem takes_iff_ordered {Own : ι → Prop} {After : τ → ι → Prop} {R : ι → ι → Prop}
    (hnext : ∀ t i j, After (next t i) j ↔ R i j)
    (htrans : ∀ t i j, After t i → R i j → After t j) {items : List ι} {t : τ} :
    Takes (fun t i => Own i ∧ After t i) next t items ↔
      (∀ i ∈ items, Own i ∧ After t i) ∧ items.Pairwise R := by
  apply takes_iff_pairwise
  intro t i hfine j
  rw [hnext]
  constructor
  · rintro ⟨hown, hrel⟩
    exact ⟨⟨hown, htrans t i j hfine.2 hrel⟩, hrel⟩
  · rintro ⟨⟨hown, -⟩, hrel⟩
    exact ⟨hown, hrel⟩

end

/-! ### Values -/

/-- How the bytes of a parser's state are taken, all of them or none. -/
structure Cursor (σ ε : Type) [Tape σ] where
  bytes : ℕ → Parser σ ε Bytes
  exact_bytes : ∀ n, Exact (bytes n) fun b w => b.length = n ∧ w = b

namespace Cursor

variable (c : Cursor σ ε)

/-- A bit vector from its big-endian bytes. -/
def bits (width : ℕ) : Parser σ ε (BitVec (8 * width)) := do
  let bytes ← c.bytes width
  return BitVec.ofNat (8 * width) (ofBigEndian bytes)

/-- A signed number from its big-endian bytes. -/
def signed (width : ℕ) : Parser σ ε ℤ := do
  let value ← c.bits width
  return value.toInt

end Cursor

/-- The numbers of a signed type. -/
def Signed (width : ℕ) (n : ℤ) : Prop := (BitVec.ofInt (8 * width) n).toInt = n

/-- The big-endian bytes of a signed number. -/
def writeSigned (width : ℕ) (n : ℤ) : Bytes := Decoder.writeBits width (BitVec.ofInt (8 * width) n)

@[simp] theorem length_writeSigned (width : ℕ) (n : ℤ) : (writeSigned width n).length = width :=
  Decoder.length_writeBits _

/-- The bytes of a bit vector are those that it is read from. -/
theorem ofNat_eq_iff {width : ℕ} {bytes : Bytes} (hlength : bytes.length = width)
    {v : BitVec (8 * width)} :
    BitVec.ofNat (8 * width) (ofBigEndian bytes) = v ↔ bytes = Decoder.writeBits width v := by
  constructor
  · rintro rfl
    have hread := Decoder.readBits_inverts width () rfl bytes
      (BitVec.ofNat (8 * width) (ofBigEndian bytes)) [] (by
        rw [Decoder.readBits, if_pos hlength.ge, List.take_of_length_le hlength.le,
          List.drop_of_length_le hlength.le])
    rwa [List.append_nil] at hread
  · rintro rfl
    exact Decoder.ofNat_writeBits v rfl

section

variable (c : Cursor σ ε) (width : ℕ)

theorem exact_bits : Exact (c.bits width) fun v w => True ∧ w = Decoder.writeBits width v := by
  refine ((c.exact_bytes width).bind fun bytes => exact_pure _).congr fun v w => ?_
  constructor
  · rintro ⟨_, bytes, _, ⟨hlength, rfl⟩, ⟨rfl, rfl⟩, rfl⟩
    rw [List.append_nil]
    exact ⟨trivial, ((ofNat_eq_iff hlength).mp rfl)⟩
  · rintro ⟨-, rfl⟩
    exact ⟨_, _, [], ⟨Decoder.length_writeBits v, rfl⟩, ⟨(Decoder.ofNat_writeBits v rfl).symm, rfl⟩,
      (List.append_nil _).symm⟩

theorem exact_signed : Exact (c.signed width) fun n w => Signed width n ∧ w = writeSigned width n := by
  refine ((exact_bits c width).field fun v _ => exact_pure _).congr fun n w => ?_
  constructor
  · rintro ⟨v, -, _, ⟨rfl, rfl⟩, rfl⟩
    rw [Signed, writeSigned, BitVec.ofInt_toInt, List.append_nil]
    exact ⟨rfl, rfl⟩
  · rintro ⟨hsigned, rfl⟩
    exact ⟨_, trivial, [], ⟨hsigned.symm, rfl⟩, (List.append_nil _).symm⟩

end

theorem signed_four {n : ℤ} : Signed 4 n ↔ -2147483648 ≤ n ∧ n < 2147483648 := by
  rw [Signed, BitVec.toInt_ofInt, Int.bmod_def]
  norm_num
  omega

theorem signed_eight {n : ℤ} :
    Signed 8 n ↔ -9223372036854775808 ≤ n ∧ n < 9223372036854775808 := by
  rw [Signed, BitVec.toInt_ofInt, Int.bmod_def]
  norm_num
  omega

namespace Cursor

variable (c : Cursor σ ε)

/-- The number of the items that follow. -/
def count (maximum : ℕ) (failure : ε) : Parser σ ε ℤ := do
  let value ← c.signed 4
  refuse (value < 0 ∨ maximum < value) failure
  return value

end Cursor

theorem exact_count (c : Cursor σ ε) {maximum : ℕ} (hmaximum : maximum < 2147483648)
    (failure : ε) : Exact (c.count maximum failure) fun n w =>
      (0 ≤ n ∧ n ≤ maximum) ∧ w = writeSigned 4 n := by
  refine ((exact_signed c 4).field fun n _ => .check fun _ => exact_pure n).congr fun n w => ?_
  constructor
  · rintro ⟨_, -, _, ⟨hbound, rfl, rfl⟩, rfl⟩
    exact ⟨by omega, List.append_nil _⟩
  · rintro ⟨hbound, rfl⟩
    exact ⟨n, signed_four.mpr (by omega), [], ⟨by omega, rfl, rfl⟩, (List.append_nil _).symm⟩

/-- The number of some items and the items one after the other. -/
def writeMany (write : ι → Bytes) (items : List ι) : Bytes :=
  writeSigned 4 items.length ++ items.flatMap write

theorem writeMany_map {κ : Type} (write : ι → Bytes) (f : κ → ι) (items : List κ) :
    writeMany write (items.map f) = writeMany (fun k => write (f k)) items := by
  rw [writeMany, writeMany, List.length_map, List.flatMap_map]

/-- As many items in front as were counted. -/
theorem Exact.loop {step : τ → Parser σ ε τ} {Fine : τ → ι → Prop} {next : τ → ι → τ}
    {write : ι → Bytes} {t : τ} {f : τ → Parser σ ε β} {S : List ι → β → Bytes → Prop}
    (h : ∀ t, Exact (step t) fun t' w => ∃ i, Fine t i ∧ t' = next t i ∧ w = write i) {n : ℤ}
    (hn : 0 ≤ n)
    (hf : ∀ items, n = (items.length : ℕ) → Takes Fine next t items →
      Exact (f (items.foldl next t)) (S items)) :
    Exact (Parser.loop step n.toNat t >>= f) fun b w =>
      ∃ items, n = (items.length : ℕ) ∧ Takes Fine next t items ∧
        ∃ u, S items b u ∧ w = items.flatMap write ++ u := by
  intro s b s'
  have hitems := exact_loop h n.toNat t
  rw [bind_eq_ok]
  constructor
  · rintro ⟨t', mid, hrun, hrest⟩
    obtain ⟨_, ⟨items, hlength, htakes, rfl, rfl⟩, hreads⟩ := (hitems s t' mid).mp hrun
    have hcount : n = (items.length : ℕ) := by omega
    obtain ⟨u, hu, hreads'⟩ := (hf items hcount htakes mid b s').mp hrest
    exact ⟨_, ⟨items, hcount, htakes, u, hu, rfl⟩, Tape.reads_append.mpr ⟨mid, hreads, hreads'⟩⟩
  · rintro ⟨_, ⟨items, hcount, htakes, u, hu, rfl⟩, hreads⟩
    obtain ⟨mid, hfirst, hsecond⟩ := Tape.reads_append.mp hreads
    exact ⟨items.foldl next t, mid,
      (hitems s _ mid).mpr ⟨_, ⟨items, by omega, htakes, rfl, rfl⟩, hfirst⟩,
      (hf items hcount htakes mid b s').mpr ⟨u, hu, hsecond⟩⟩

/-- A bounded number of items in front, read one after the other. -/
theorem Exact.counted {c : Cursor σ ε} {maximum : ℕ} {failure : ε} {step : τ → Parser σ ε τ}
    {Fine : τ → ι → Prop} {next : τ → ι → τ} {write : ι → Bytes} {t : τ}
    {f : ℤ → τ → Parser σ ε β} {S : List ι → β → Bytes → Prop} (hmaximum : maximum < 2147483648)
    (h : ∀ t, Exact (step t) fun t' w => ∃ i, Fine t i ∧ t' = next t i ∧ w = write i)
    (hf : ∀ items, items.length ≤ maximum → Takes Fine next t items →
      Exact (f (items.length : ℕ) (items.foldl next t)) (S items)) :
    Exact (c.count maximum failure >>= fun n => Parser.loop step n.toNat t >>= f n) fun b w =>
      ∃ items, items.length ≤ maximum ∧ Takes Fine next t items ∧
        ∃ u, S items b u ∧ w = writeMany write items ++ u := by
  have hloop := fun (n : ℤ) (hn : 0 ≤ n ∧ n ≤ maximum) =>
    Exact.loop (f := f n) (S := S) h hn.1 fun items hcount htakes => by
      subst hcount
      exact hf items (by omega) htakes
  refine ((exact_count c hmaximum failure).field hloop).congr fun b w => ?_
  constructor
  · rintro ⟨_, hn, _, ⟨items, rfl, htakes, u, hu, rfl⟩, rfl⟩
    exact ⟨items, by omega, htakes, u, hu, (List.append_assoc _ _ u).symm⟩
  · rintro ⟨items, hlength, htakes, u, hu, rfl⟩
    exact ⟨_, ⟨by omega, by omega⟩, _, ⟨items, rfl, htakes, u, hu, rfl⟩, List.append_assoc _ _ u⟩

/-! ### Blocks -/

namespace Cursor

variable (c : Cursor σ ε)

/-- Some bytes after their number. -/
def block (maximum : ℕ) (allowEmpty : Bool) (failure : ε) : Parser σ ε Bytes := do
  let length ← c.signed 4
  refuse (length < 0 ∨ maximum < length ∨ (allowEmpty = false ∧ length = 0)) failure
  c.bytes length.toNat

end Cursor

/-- The blocks that a bound admits. -/
def Bounded (maximum : ℕ) (allowEmpty : Bool) (bytes : Bytes) : Prop :=
  bytes.length ≤ maximum ∧ (allowEmpty = false → bytes ≠ [])

def writeBlock (bytes : Bytes) : Bytes := writeSigned 4 bytes.length ++ bytes

theorem exact_block (c : Cursor σ ε) {maximum : ℕ} (hmaximum : maximum < 2147483648)
    (allowEmpty : Bool) (failure : ε) : Exact (c.block maximum allowEmpty failure) fun b w =>
      Bounded maximum allowEmpty b ∧ w = writeBlock b := by
  refine ((exact_signed c 4).field fun n _ => .check fun _ => c.exact_bytes _).congr fun b w => ?_
  constructor
  · rintro ⟨n, -, bytes, ⟨hbound, hlength, rfl⟩, rfl⟩
    obtain rfl : n = (bytes.length : ℕ) := by omega
    refine ⟨⟨by omega, ?_⟩, rfl⟩
    rintro hempty rfl
    exact hbound (.inr (.inr ⟨hempty, rfl⟩))
  · rintro ⟨⟨hlength, hempty⟩, rfl⟩
    refine ⟨(b.length : ℕ), signed_four.mpr (by omega), b, ⟨?_, by omega, rfl⟩, rfl⟩
    rintro (h | h | ⟨h, hzero⟩)
    · omega
    · omega
    · exact hempty h (List.length_eq_zero_iff.mp (by omega))

end Parser

end GeneralSearch
