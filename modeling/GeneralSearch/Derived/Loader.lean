import GeneralSearch.Derived.Payload
import Mathlib.Data.Finset.Card

/-! `DurableStructuredDerivedState`: its parser checks the checksum and the identity of a member
first and then reads the content, with the documents of the checkpoint at hand. -/

namespace GeneralSearch.Derived.Loader

open GeneralSearch.Parser
open GeneralSearch.Utf8 (JavaString WellFormed)
open GeneralSearch.Index (JMap)

/-- What the loader throws: a `DerivedFailure` or another exception. -/
inductive Thrown where
  | failure (status : DurableDerivedStateStatus) (code : String)
  | runtime

def stale : String → Thrown := .failure .stale

def incompatible : String → Thrown := .failure .incompatible

def incomplete : String → Thrown := .failure .incomplete

def corrupt : String → Thrown := .failure .corrupt

/-! ### Documents and their fields -/

/-- `DurableCheckpoint.Loaded`: the slots, one for each id below `nextDocId`. -/
structure Loaded (T : Type) where
  slots : List (Option T)
  small : slots.length < 2147483648

namespace Loaded

variable {T : Type} (checkpoint : Loaded T)

def nextDocId : ℤ := checkpoint.slots.length

/-- The document in a slot. -/
def get (docId : ℤ) : Option T := (checkpoint.slots[docId.toNat]?).join

end Loaded

/-- A `TextField`: whether its analyzer is `SimpleAnalyzer.INSTANCE`, and its text. -/
structure TextField (T : Type) where
  simple : Bool
  valueOf : T → Except Thrown (Option JavaString)

/-- `SearchSchema`: `requireField`, the same for fields of type `String`, and `requireTextField`,
with `none` for the `IllegalArgumentException`.  An extractor may throw or return null.
`comparable` gives the place of a value in its natural order, if it has one. -/
structure SearchSchema (T V O : Type) where
  requireField : JavaString → Option (T → Except Thrown (Option V))
  requireStringField : JavaString → Option (T → Except Thrown (Option JavaString))
  requireTextField : JavaString → Option (TextField T)
  comparable : V → Option O

/-- The `IllegalArgumentException` of a missing field. -/
def required {α : Type} : Option α → Except Thrown α
  | some a => .ok a
  | none => .error .runtime

theorem required_eq_ok {α : Type} {x : Option α} {a : α} : required x = .ok a ↔ x = some a := by
  cases x <;> simp [required]

/-! ### The cursor -/

/-- `Cursor.bytes`. -/
def bytes (length : ℕ) : Parser Bytes Thrown Bytes := fun s =>
  if length ≤ s.length then .ok (s.take length, s.drop length)
  else .error (incomplete "MEMBER_TRUNCATED")

theorem exact_bytes (length : ℕ) :
    Exact (bytes length) fun b w => b.length = length ∧ w = b := by
  intro s b s'
  unfold bytes
  split
  · next hle =>
    constructor
    · rintro ⟨⟩
      exact ⟨_, ⟨List.length_take_of_le hle, rfl⟩, (List.take_append_drop length s).symm⟩
    · rintro ⟨_, ⟨rfl, rfl⟩, hs⟩
      simp [show s = _ ++ s' from hs]
  · next hlt =>
    refine iff_of_false nofun ?_
    rintro ⟨_, ⟨rfl, rfl⟩, hs⟩
    exact hlt (by simp [show s = _ ++ s' from hs])

def cursor : Cursor Bytes Thrown where
  bytes := bytes
  exact_bytes := exact_bytes

/-- `Cursor.stringBytes`. -/
def stringBytes (maximum : ℕ) (allowEmpty : Bool) : Parser Bytes Thrown Bytes :=
  cursor.block maximum allowEmpty (corrupt "STRING_BOUND")

def malformed : Thrown := corrupt "INVALID_UTF8"

/-- `Cursor.string`. -/
def string (maximum : ℕ) (allowEmpty : Bool) : Parser Bytes Thrown JavaString := do
  let encoded ← stringBytes maximum allowEmpty
  liftM (decodeUtf8 malformed encoded)

theorem exact_string {maximum : ℕ} (hmaximum : maximum < 2147483648) (allowEmpty : Bool) :
    Exact (string maximum allowEmpty) fun value w =>
      Spelled maximum allowEmpty value ∧ w = writeString value := by
  refine Exact.congr (.field (exact_block cursor hmaximum allowEmpty _) fun b _ => exact_lift _)
    fun value w => ?_
  constructor
  · rintro ⟨_, hbounded, _, ⟨hvalue, rfl⟩, rfl⟩
    obtain ⟨hwf, rfl⟩ := decodeUtf8_eq_ok.mp hvalue
    exact ⟨⟨hwf, hbounded⟩, List.append_nil _⟩
  · rintro ⟨⟨hwf, hbounded⟩, rfl⟩
    exact ⟨_, hbounded, [], ⟨decodeUtf8_eq_ok.mpr ⟨hwf, rfl⟩, rfl⟩, (List.append_nil _).symm⟩

def reader : Reader Bytes Thrown where
  toCursor := cursor
  string := string
  exact_string _ allowEmpty hmaximum := exact_string hmaximum allowEmpty

/-- `Cursor.count`. -/
def count (maximum : ℕ) : Parser Bytes Thrown ℤ := cursor.count maximum (corrupt "COUNT_BOUND")

/-! ### Bitmaps -/

section

variable {T : Type} (checkpoint : Loaded T)

/-- The variables of the loop in `Cursor.bitmap`. -/
structure BitmapLoop where
  previous : ℤ
  all : Finset ℤ
  builder : Finset ℕ

/-- One turn of the loop in `Cursor.bitmap`. -/
def bitmapStep (t : BitmapLoop) : Parser Bytes Thrown BitmapLoop := do
  let docId ← cursor.signed 4
  refuse (docId ≤ t.previous ∨ docId < 0 ∨ docId ≥ checkpoint.nextDocId ∨
    (checkpoint.get docId).isNone ∨ docId ∈ t.all) (corrupt "BITMAP_ORDER")
  return ⟨docId, insert docId t.all, insert docId.toNat t.builder⟩

/-- `Cursor.bitmap`, which adds to the set of all documents of the component. -/
def bitmap (all : Finset ℤ) : Parser Bytes Thrown (Finset ℕ × Finset ℤ) := do
  let count ← count MAX_COUNT
  let t ← loop (bitmapStep checkpoint) count.toNat ⟨-1, all, ∅⟩
  return (t.builder, t.all)

/-- The documents with some ids. -/
def documents (ids : List ℤ) : Finset ℕ := (ids.map Int.toNat).toFinset

/-- The slots of the ids hold documents. -/
def Present (ids : List ℤ) : Prop := ∀ id ∈ ids, (checkpoint.get id).isSome

theorem exact_bitmapStep (t : BitmapLoop) : Exact (bitmapStep checkpoint t) fun t' w =>
    ∃ id, (DocId checkpoint.nextDocId id ∧ t.previous < id ∧ (checkpoint.get id).isSome ∧
      id ∉ t.all) ∧ t' = ⟨id, insert id t.all, insert id.toNat t.builder⟩ ∧
        w = writeSigned 4 id := by
  refine Exact.congr (.field (exact_signed cursor 4) fun _ _ => .check fun _ => exact_pure _)
    fun t' w => ?_
  constructor
  · rintro ⟨id, hsigned, _, ⟨hcheck, rfl, rfl⟩, rfl⟩
    obtain ⟨hafter, hnonneg, hlt, hpresent, hfresh⟩ : _ ∧ _ ∧ _ ∧ _ ∧ _ := by
      simpa only [not_or] using hcheck
    exact ⟨id, ⟨⟨hsigned, not_lt.mp hnonneg, not_le.mp hlt⟩, not_le.mp hafter,
      by simpa [Option.isSome_iff_ne_none] using hpresent, hfresh⟩, rfl, List.append_nil _⟩
  · rintro ⟨id, ⟨⟨hsigned, hnonneg, hlt⟩, hafter, hpresent, hfresh⟩, rfl, rfl⟩
    refine ⟨id, hsigned, [], ⟨?_, rfl, rfl⟩, (List.append_nil _).symm⟩
    simp only [not_or]
    exact ⟨not_le.mpr hafter, not_lt.mpr hnonneg, not_le.mpr hlt, by simpa [Option.isSome_iff_ne_none] using hpresent, hfresh⟩

theorem foldl_bitmapStep (ids : List ℤ) (t : BitmapLoop) :
    (ids.foldl (fun t id => (⟨id, insert id t.all, insert id.toNat t.builder⟩ : BitmapLoop)) t).all =
        t.all ∪ ids.toFinset ∧
      (ids.foldl (fun t id => (⟨id, insert id t.all, insert id.toNat t.builder⟩ : BitmapLoop))
        t).builder = t.builder ∪ documents ids := by
  induction ids generalizing t with
  | nil => simp [documents]
  | cons id ids ih =>
    rw [List.foldl_cons, (ih _).1, (ih _).2]
    simp [documents, Finset.insert_union, Finset.union_insert]

theorem exact_bitmap (all : Finset ℤ) : Exact (bitmap checkpoint all) fun r w =>
    ∃ ids, (Bitmap checkpoint.nextDocId ids ∧ Present checkpoint ids ∧ ∀ id ∈ ids, id ∉ all) ∧
      r = (documents ids, all ∪ ids.toFinset) ∧ w = writeBitmap ids := by
  refine Exact.congr (.counted (by decide) (exact_bitmapStep checkpoint)
    fun _ _ _ => exact_pure _) fun r w => ?_
  refine (exists_congr fun _ => and_congr_right' (and_congr_left'
    (takes_iff_pairwise (R := fun i j => i < j) ?_))).trans ?_
  · rintro t i ⟨-, hafter, -⟩ j
    constructor
    · rintro ⟨hdoc, hij, hpresent, hfresh⟩
      exact ⟨⟨hdoc, hafter.trans hij, hpresent, fun h => hfresh (Finset.mem_insert_of_mem h)⟩, hij⟩
    · rintro ⟨⟨hdoc, -, hpresent, hfresh⟩, hij⟩
      refine ⟨hdoc, hij, hpresent, fun h => ?_⟩
      rcases Finset.mem_insert.mp h with rfl | h
      · exact lt_irrefl _ hij
      · exact hfresh h
  constructor
  · rintro ⟨ids, hcount, ⟨hall, hascending⟩, _, ⟨rfl, rfl⟩, rfl⟩
    rw [(foldl_bitmapStep ids _).1, (foldl_bitmapStep ids _).2, Finset.empty_union]
    exact ⟨ids, ⟨⟨hcount, fun id hid => (hall id hid).1, hascending⟩,
      fun id hid => (hall id hid).2.2.1, fun id hid => (hall id hid).2.2.2⟩, rfl, List.append_nil _⟩
  · rintro ⟨ids, ⟨⟨hcount, hids, hascending⟩, hpresent, hfresh⟩, rfl, rfl⟩
    refine ⟨ids, hcount, ⟨fun id hid => ⟨hids id hid, ?_, hpresent id hid, hfresh id hid⟩,
      hascending⟩, [], ⟨?_, rfl⟩, (List.append_nil _).symm⟩
    · have := (hids id hid).nonneg
      show (-1 : ℤ) < id
      omega
    · rw [(foldl_bitmapStep ids _).1, (foldl_bitmapStep ids _).2, Finset.empty_union]

end

/-! ### Groups of documents -/

/-- The variables of the loops over groups: what the previous group was, the documents so far, the
dictionary and the number of indexed documents. -/
structure GroupLoop (π κ : Type) where
  previous : π
  all : Finset ℤ
  values : JMap κ (Finset ℕ)
  indexed : ℤ

namespace GroupLoop

variable {π κ : Type} [DecidableEq κ]

/-- A group with some ids under a key. -/
def add (t : GroupLoop π κ) (previous : π) (ids : List ℤ) (k : κ) : GroupLoop π κ :=
  ⟨previous, t.all ∪ ids.toFinset, t.values.insert k (documents ids),
    t.indexed + (documents ids).card⟩

/-- The indexed documents that can be counted. -/
def Fits (t : GroupLoop π κ) (ids : List ℤ) : Prop :=
  -2 ^ (8 * 4 - 1) ≤ t.indexed + (documents ids).card ∧
    t.indexed + (documents ids).card < 2 ^ (8 * 4 - 1)

/-- The documents so far are counted once. -/
structure Sound (nextDocId : ℤ) (t : GroupLoop π κ) : Prop where
  indexed : t.indexed = t.all.card
  docIds : ∀ id ∈ t.all, DocId nextDocId id

omit [DecidableEq κ] in
theorem Sound.indexed_le {nextDocId : ℕ} {t : GroupLoop π κ} (h : t.Sound nextDocId) :
    t.indexed ≤ nextDocId := by
  have hsub : t.all ⊆ (Finset.range nextDocId).map ⟨Int.ofNat, Int.ofNat_injective⟩ := by
    intro id hid
    obtain ⟨-, hnonneg, hlt⟩ := h.docIds id hid
    refine Finset.mem_map.mpr ⟨id.toNat, Finset.mem_range.mpr (by omega), ?_⟩
    exact Int.toNat_of_nonneg hnonneg
  have hcard := Finset.card_le_card hsub
  rw [Finset.card_map, Finset.card_range] at hcard
  rw [h.indexed]
  exact_mod_cast hcard

end GroupLoop

theorem card_documents {nextDocId : ℤ} {ids : List ℤ} (h : Bitmap nextDocId ids) :
    (documents ids).card = ids.toFinset.card := by
  have hinj : Set.InjOn Int.toNat (ids.toFinset : Set ℤ) := by
    intro i hi j hj heq
    have hi' := (h.docIds i (List.mem_toFinset.mp hi)).nonneg
    have hj' := (h.docIds j (List.mem_toFinset.mp hj)).nonneg
    omega
  have himage : documents ids = ids.toFinset.image Int.toNat := by
    ext d
    simp [documents]
  rw [himage, Finset.card_image_of_injOn hinj]

/-- `ImmutableBitmap.get`. -/
def Contains (bitmap : Finset ℕ) (docId : ℤ) : Prop := 0 ≤ docId ∧ docId.toNat ∈ bitmap

instance (bitmap : Finset ℕ) (docId : ℤ) : Decidable (Contains bitmap docId) :=
  inferInstanceAs (Decidable (_ ∧ _))

theorem contains_documents {nextDocId : ℤ} {ids : List ℤ} (h : Bitmap nextDocId ids) {id : ℤ} :
    Contains (documents ids) id ↔ id ∈ ids := by
  simp only [Contains, documents, List.mem_toFinset, List.mem_map]
  constructor
  · rintro ⟨hid, j, hj, heq⟩
    have := (h.docIds j hj).nonneg
    obtain rfl : j = id := by omega
    exact hj
  · exact fun hid => ⟨(h.docIds id hid).nonneg, id, hid, rfl⟩

theorem GroupLoop.Sound.add {π κ : Type} [DecidableEq κ] {nextDocId : ℕ}
    (hsmall : nextDocId < 2147483648) {t : GroupLoop π κ} (h : t.Sound nextDocId) {ids : List ℤ}
    (hids : Bitmap nextDocId ids) (hfresh : ∀ id ∈ ids, id ∉ t.all) (previous : π) (k : κ) :
    t.Fits ids ∧ (t.add previous ids k).Sound nextDocId := by
  have hsound : (t.add previous ids k).Sound nextDocId := by
    refine ⟨?_, fun id hid => ?_⟩
    · have hdisjoint : Disjoint t.all ids.toFinset := by
        rw [Finset.disjoint_left]
        exact fun id hall hid => hfresh id (List.mem_toFinset.mp hid) hall
      show t.indexed + (documents ids).card = ((t.all ∪ ids.toFinset).card : ℕ)
      rw [Finset.card_union_of_disjoint hdisjoint, card_documents hids, h.indexed, Int.natCast_add]
    · rcases Finset.mem_union.mp hid with hid | hid
      · exact h.docIds id hid
      · exact hids.docIds id (List.mem_toFinset.mp hid)
  have hle := hsound.indexed_le
  have hnonneg := h.indexed
  have hadd : (t.add previous ids k).indexed = t.indexed + (documents ids).card := rfl
  refine ⟨?_, hsound⟩
  unfold GroupLoop.Fits
  omega

/-- A loop over groups never overflows: its checks are about the items and the pairs of items. -/
theorem GroupLoop.takes_iff {π κ ι : Type} [DecidableEq κ] {nextDocId : ℕ}
    (hsmall : nextDocId < 2147483648) (previous : ι → π) (ids : ι → List ℤ) (key : ι → κ)
    {Fine : GroupLoop π κ → ι → Prop} {R : ι → ι → Prop}
    (hids : ∀ t i, Fine t i → Bitmap nextDocId (ids i) ∧ ∀ id ∈ ids i, id ∉ t.all)
    (hnext : ∀ t i, Fine t i → ∀ j,
      (Fine (t.add (previous i) (ids i) (key i)) j ↔ Fine t j ∧ R i j))
    {t : GroupLoop π κ} (hsound : t.Sound nextDocId) {items : List ι} :
    Takes (fun t i => Fine t i ∧ t.Fits (ids i)) (fun t i => t.add (previous i) (ids i) (key i)) t
      items ↔ (∀ i ∈ items, Fine t i) ∧ items.Pairwise R := by
  rw [← takes_iff_pairwise hnext]
  constructor
  · refine Takes.simulate ?_ (Eq.refl t)
    rintro t _ i rfl hfine
    exact ⟨hfine.1, rfl⟩
  · refine Takes.simulate (R := fun t t' => t = t' ∧ t.Sound nextDocId) ?_ ⟨rfl, hsound⟩
    rintro t _ i ⟨rfl, hsound⟩ hfine
    obtain ⟨hbitmap, hfresh⟩ := hids t i hfine
    obtain ⟨hfits, hnext⟩ := hsound.add hsmall hbitmap hfresh (previous i) (key i)
    exact ⟨⟨hfine, hfits⟩, rfl, hnext⟩

theorem GroupLoop.sound_start {π κ : Type} {nextDocId : ℤ} (previous : π) :
    (⟨previous, ∅, ∅, 0⟩ : GroupLoop π κ).Sound nextDocId :=
  ⟨rfl, fun id hid => absurd hid (Finset.notMem_empty id)⟩

section

variable {T : Type} (checkpoint : Loaded T)

/-- The value of the document in a slot. -/
def valueAt {κ : Type} (valueOf : T → Except Thrown (Option κ)) (docId : ℤ) :
    Except Thrown (Option κ) := do
  let document ← required (checkpoint.get docId)
  valueOf document

/-- A value that a group can have. -/
def groupKey {κ : Type} : Option κ → Except Thrown κ
  | some k => .ok k
  | none => .error (corrupt "VALUE_GROUP_KEY")

section

variable {κ : Type} [DecidableEq κ] (valueOf : T → Except Thrown (Option κ))

/-- One turn of the loops in `readEquality` and `readRange`. -/
def valueGroupStep (t : GroupLoop ℤ κ) : Parser Bytes Thrown (GroupLoop ℤ κ) := do
  let representative ← cursor.signed 4
  refuse (representative ≤ t.previous) (corrupt "VALUE_GROUP_ORDER")
  let r ← bitmap checkpoint t.all
  refuse (¬Contains r.1 representative) (corrupt "VALUE_GROUP_REPRESENTATIVE")
  let value ← liftM (valueAt checkpoint valueOf representative)
  let k ← liftM (groupKey value)
  refuse (k ∈ t.values) (corrupt "VALUE_GROUP_KEY")
  let indexed ← liftM (addExact 4 Thrown.runtime t.indexed r.1.card)
  return ⟨representative, r.2, t.values.insert k r.1, indexed⟩

/-- `readEquality` and `readRange`: the dictionary and the number of its documents. -/
def readGroups : Parser Bytes Thrown (JMap κ (Finset ℕ) × ℤ) := do
  let count ← count MAX_COUNT
  let t ← loop (valueGroupStep checkpoint valueOf) count.toNat ⟨-1, ∅, ∅, 0⟩
  return (t.values, t.indexed)

/-- The key of a group is the value of its representative. -/
def KeyOf (g : ValueGroup) (k : κ) : Prop :=
  ∃ document, checkpoint.get g.representative = some document ∧ valueOf document = .ok (some k)

theorem exact_valueGroupStep (t : GroupLoop ℤ κ) :
    Exact (valueGroupStep checkpoint valueOf t) fun t' w => ∃ i : ValueGroup × κ,
      (((i.1.Canonical checkpoint.nextDocId ∧ Present checkpoint i.1.ids ∧
        KeyOf checkpoint valueOf i.1 i.2) ∧ t.previous < i.1.representative ∧
        (∀ id ∈ i.1.ids, id ∉ t.all) ∧ i.2 ∉ t.values) ∧ t.Fits i.1.ids) ∧
        t' = t.add i.1.representative i.1.ids i.2 ∧ w = i.1.write := by
  refine Exact.congr (.field (exact_signed cursor 4) fun _ _ => .check fun _ =>
    .bind (exact_bitmap checkpoint t.all) fun _ => .check fun _ => .lift fun _ _ => .lift fun _ _ =>
    .check fun _ => .lift fun _ _ => exact_pure _) fun t' w => ?_
  constructor
  · rintro ⟨representative, hsigned, _, ⟨hafter, _, _, _, ⟨ids, ⟨hids, hpresent, hfresh⟩, rfl, rfl⟩,
      ⟨hmem, value, hvalue, k, hk, hnew, indexed, hadd, rfl, rfl⟩, rfl⟩, rfl⟩
    obtain ⟨hfits, rfl⟩ := addExact_eq_ok.mp hadd
    rw [not_not, contains_documents hids] at hmem
    obtain ⟨document, hdocument, hvalue⟩ := Lib.bind_eq_ok.mp hvalue
    obtain rfl : value = some k := by
      cases value with
      | none => cases hk
      | some v => rw [groupKey, Except.ok.injEq] at hk; rw [hk]
    refine ⟨(⟨representative, ids⟩, k), ⟨⟨⟨⟨hids, hmem⟩, hpresent, document,
      required_eq_ok.mp hdocument, hvalue⟩, not_le.mp hafter, hfresh, hnew⟩, hfits⟩, rfl, ?_⟩
    rw [List.append_nil, ValueGroup.write]
  · rintro ⟨⟨g, k⟩, ⟨⟨⟨⟨hids, hmem⟩, hpresent, document, hdocument, hvalue⟩, hafter, hfresh, hnew⟩,
      hfits⟩, rfl, rfl⟩
    have hvalueAt : valueAt checkpoint valueOf g.representative = .ok (some k) :=
      Lib.bind_eq_ok.mpr ⟨document, required_eq_ok.mpr hdocument, hvalue⟩
    refine ⟨g.representative, (hids.docIds _ hmem).signed, _, ⟨not_le.mpr hafter, _, _, [],
      ⟨g.ids, ⟨hids, hpresent, hfresh⟩, rfl, rfl⟩, ⟨?_, some k, hvalueAt, k, rfl, hnew, _,
      addExact_eq_ok.mpr ⟨hfits, rfl⟩, rfl, rfl⟩, rfl⟩, ?_⟩
    · exact not_not.mpr ((contains_documents hids).mpr hmem)
    · rw [List.append_nil, ValueGroup.write]

/-- The groups that the loader takes, with their keys. -/
structure Groups (items : List (ValueGroup × κ)) : Prop where
  count : items.length ≤ MAX_COUNT
  canonical : ∀ i ∈ items, i.1.Canonical checkpoint.nextDocId
  present : ∀ i ∈ items, Present checkpoint i.1.ids
  keys : ∀ i ∈ items, KeyOf checkpoint valueOf i.1 i.2
  ascending : items.Pairwise fun i j => i.1.representative < j.1.representative
  disjoint : items.Pairwise fun i j => ∀ id ∈ j.1.ids, id ∉ i.1.ids
  distinct : items.Pairwise fun i j => j.2 ≠ i.2

/-- The dictionary of some groups and the number of its documents. -/
def groupsIndex (items : List (ValueGroup × κ)) : JMap κ (Finset ℕ) × ℤ :=
  let t := items.foldl (fun t i => t.add i.1.representative i.1.ids i.2)
    (⟨-1, ∅, ∅, 0⟩ : GroupLoop ℤ κ)
  (t.values, t.indexed)

theorem exact_readGroups : Exact (readGroups checkpoint valueOf) fun r w => ∃ items,
    Groups checkpoint valueOf items ∧ r = groupsIndex items ∧
      w = writeMany (fun i => i.1.write) items := by
  refine Exact.congr (.counted (by decide) (exact_valueGroupStep checkpoint valueOf)
    fun _ _ _ => exact_pure _) fun r w => ?_
  refine (exists_congr fun _ => and_congr_right' (and_congr_left'
    (GroupLoop.takes_iff checkpoint.small (fun i : ValueGroup × κ => i.1.representative)
      (fun i => i.1.ids) (fun i => i.2) (R := fun i j => i.1.representative < j.1.representative ∧
        (∀ id ∈ j.1.ids, id ∉ i.1.ids) ∧ j.2 ≠ i.2) ?_ ?_ (GroupLoop.sound_start _)))).trans ?_
  · exact fun t i h => ⟨h.1.1.bitmap, h.2.2.1⟩
  · rintro t i ⟨hown, hafter, hfresh, hnew⟩ j
    simp only [GroupLoop.add, Finset.mem_union, List.mem_toFinset, AList.mem_insert, not_or]
    constructor
    · rintro ⟨hown', hij, hfresh', hne, hnew'⟩
      exact ⟨⟨hown', hafter.trans hij, fun id hid => (hfresh' id hid).1, hnew'⟩, hij,
        fun id hid => (hfresh' id hid).2, hne⟩
    · rintro ⟨⟨hown', -, hfresh', hnew'⟩, hij, hdisjoint, hne⟩
      exact ⟨hown', hij, fun id hid => ⟨hfresh' id hid, hdisjoint id hid⟩, hne, hnew'⟩
  constructor
  · rintro ⟨items, hcount, ⟨hall, hpair⟩, _, ⟨rfl, rfl⟩, rfl⟩
    exact ⟨items, ⟨hcount, fun i hi => (hall i hi).1.1, fun i hi => (hall i hi).1.2.1,
      fun i hi => (hall i hi).1.2.2, hpair.imp And.left, hpair.imp fun h => h.2.1,
      hpair.imp fun h => h.2.2⟩, rfl, List.append_nil _⟩
  · rintro ⟨items, h, rfl, rfl⟩
    refine ⟨items, h.count, ⟨fun i hi => ⟨⟨h.canonical i hi, h.present i hi, h.keys i hi⟩, ?_,
      fun _ _ => Finset.notMem_empty _, AList.notMem_empty _⟩, ?_⟩, [], ⟨rfl, rfl⟩,
      (List.append_nil _).symm⟩
    · have hcanonical := h.canonical i hi
      have := (hcanonical.bitmap.docIds _ hcanonical.representative).nonneg
      show (-1 : ℤ) < _
      omega
    · exact h.ascending.and (h.disjoint.and h.distinct)

end

/-! ### The indexes -/

section

variable {V O : Type} [DecidableEq V] [DecidableEq O]

/-- `readEquality`. -/
def readEquality (field : T → Except Thrown (Option V)) :
    Parser Bytes Thrown (JMap V (Finset ℕ) × ℤ) :=
  readGroups checkpoint field

/-- The place of a document's value in its natural order, if it is a `Comparable`. -/
def placeOf (comparable : V → Option O) (field : T → Except Thrown (Option V)) (document : T) :
    Except Thrown (Option O) :=
  (field document).map (Option.bind · comparable)

/-- `readRange`: the value has to be a `Comparable`. -/
def readRange (comparable : V → Option O) (field : T → Except Thrown (Option V)) :
    Parser Bytes Thrown (JMap O (Finset ℕ) × ℤ) :=
  readGroups checkpoint (placeOf comparable field)

end

/-- One turn of the loop in `readPrefix`. -/
def prefixKeyStep (t : GroupLoop (Option Bytes) JavaString) :
    Parser Bytes Thrown (GroupLoop (Option Bytes) JavaString) := do
  let encoded ← stringBytes MAX_STRING_BYTES false
  refuse (∃ key ∈ t.previous, ¬key < encoded) (corrupt "PREFIX_KEY_ORDER")
  let key ← liftM (decodeUtf8 malformed encoded)
  let r ← bitmap checkpoint t.all
  let indexed ← liftM (addExact 4 Thrown.runtime t.indexed r.1.card)
  return ⟨some encoded, r.2, t.values.insert key r.1, indexed⟩

/-- `readPrefix`. -/
def readPrefix : Parser Bytes Thrown (JMap JavaString (Finset ℕ) × ℤ) := do
  let count ← count MAX_COUNT
  let t ← loop (prefixKeyStep checkpoint) count.toNat ⟨none, ∅, ∅, 0⟩
  return (t.values, t.indexed)

theorem exact_prefixKeyStep (t : GroupLoop (Option Bytes) JavaString) :
    Exact (prefixKeyStep checkpoint t) fun t' w => ∃ i : PrefixGroup × JavaString,
      (((i.1.Canonical checkpoint.nextDocId ∧ Present checkpoint i.1.ids ∧
        Utf8.decode i.1.key = some i.2) ∧ (∀ key ∈ t.previous, key < i.1.key) ∧
        ∀ id ∈ i.1.ids, id ∉ t.all) ∧ t.Fits i.1.ids) ∧
        t' = t.add (some i.1.key) i.1.ids i.2 ∧ w = i.1.write := by
  refine Exact.congr (.field (exact_block cursor (by decide) false _) fun _ _ => .check fun _ =>
    .lift fun _ _ => .bind (exact_bitmap checkpoint t.all) fun _ => .lift fun _ _ => exact_pure _)
    fun t' w => ?_
  constructor
  · rintro ⟨encoded, hbounded, _, ⟨horder, key, hkey, _, _, _, ⟨ids, ⟨hids, hpresent, hfresh⟩, rfl,
      rfl⟩, ⟨indexed, hadd, rfl, rfl⟩, rfl⟩, rfl⟩
    obtain ⟨hfits, rfl⟩ := addExact_eq_ok.mp hadd
    have hdecode := decode_eq_some.mpr (decodeUtf8_eq_ok.mp hkey)
    refine ⟨(⟨encoded, ids⟩, key), ⟨⟨⟨⟨hbounded, ?_, hids⟩, hpresent, hdecode⟩,
      fun k hk => not_not.mp fun h => horder ⟨k, hk, h⟩, hfresh⟩, hfits⟩, rfl, ?_⟩
    · exact Option.isSome_of_eq_some hdecode
    · rw [List.append_nil, PrefixGroup.write]
  · rintro ⟨⟨g, key⟩, ⟨⟨⟨⟨hbounded, -, hids⟩, hpresent, hdecode⟩, hafter, hfresh⟩, hfits⟩, rfl, rfl⟩
    refine ⟨g.key, hbounded, _, ⟨?_, key, decodeUtf8_eq_ok.mpr (decode_eq_some.mp hdecode), _, _, [],
      ⟨g.ids, ⟨hids, hpresent, hfresh⟩, rfl, rfl⟩, ⟨_, addExact_eq_ok.mpr ⟨hfits, rfl⟩, rfl, rfl⟩,
      rfl⟩, ?_⟩
    · rintro ⟨k, hk, h⟩
      exact h (hafter k hk)
    · rw [List.append_nil, PrefixGroup.write]

/-- The prefix keys that the loader takes, decoded. -/
structure Keys (items : List (PrefixGroup × JavaString)) : Prop where
  count : items.length ≤ MAX_COUNT
  canonical : ∀ i ∈ items, i.1.Canonical checkpoint.nextDocId
  present : ∀ i ∈ items, Present checkpoint i.1.ids
  keys : ∀ i ∈ items, Utf8.decode i.1.key = some i.2
  ascending : items.Pairwise fun i j => i.1.key < j.1.key
  disjoint : items.Pairwise fun i j => ∀ id ∈ j.1.ids, id ∉ i.1.ids

/-- The dictionary of some prefix keys and the number of its documents. -/
def keysIndex (items : List (PrefixGroup × JavaString)) : JMap JavaString (Finset ℕ) × ℤ :=
  let t := items.foldl (fun t i => t.add (some i.1.key) i.1.ids i.2)
    (⟨none, ∅, ∅, 0⟩ : GroupLoop (Option Bytes) JavaString)
  (t.values, t.indexed)

theorem exact_readPrefix : Exact (readPrefix checkpoint) fun r w => ∃ items,
    Keys checkpoint items ∧ r = keysIndex items ∧ w = writeMany (fun i => i.1.write) items := by
  refine Exact.congr (.counted (by decide) (exact_prefixKeyStep checkpoint)
    fun _ _ _ => exact_pure _) fun r w => ?_
  refine (exists_congr fun _ => and_congr_right' (and_congr_left'
    (GroupLoop.takes_iff checkpoint.small (fun i : PrefixGroup × JavaString => some i.1.key)
      (fun i => i.1.ids) (fun i => i.2) (R := fun i j => i.1.key < j.1.key ∧
        ∀ id ∈ j.1.ids, id ∉ i.1.ids) ?_ ?_ (GroupLoop.sound_start _)))).trans ?_
  · exact fun t i h => ⟨h.1.1.bitmap, h.2.2⟩
  · rintro t i ⟨hown, hafter, hfresh⟩ j
    simp only [GroupLoop.add, Finset.mem_union, List.mem_toFinset, not_or, Option.mem_some_iff,
      forall_eq']
    constructor
    · rintro ⟨hown', hij, hfresh'⟩
      exact ⟨⟨hown', fun k hk => List.lt_trans (hafter k hk) hij, fun id hid => (hfresh' id hid).1⟩,
        hij, fun id hid => (hfresh' id hid).2⟩
    · rintro ⟨⟨hown', -, hfresh'⟩, hij, hdisjoint⟩
      exact ⟨hown', hij, fun id hid => ⟨hfresh' id hid, hdisjoint id hid⟩⟩
  constructor
  · rintro ⟨items, hcount, ⟨hall, hpair⟩, _, ⟨rfl, rfl⟩, rfl⟩
    exact ⟨items, ⟨hcount, fun i hi => (hall i hi).1.1, fun i hi => (hall i hi).1.2.1,
      fun i hi => (hall i hi).1.2.2, hpair.imp And.left, hpair.imp And.right⟩, rfl,
      List.append_nil _⟩
  · rintro ⟨items, h, rfl, rfl⟩
    exact ⟨items, h.count, ⟨fun i hi => ⟨⟨h.canonical i hi, h.present i hi, h.keys i hi⟩,
      fun _ hk => (nomatch hk), fun _ _ => Finset.notMem_empty _⟩, h.ascending.and h.disjoint⟩, [],
      ⟨rfl, rfl⟩, (List.append_nil _).symm⟩

/-! ### Text indexes -/

/-- A text index as the loader builds it: the positions by term and document, and the lengths. -/
structure TextIndexSnapshot where
  postings : JMap JavaString (JMap ℤ (List ℤ))
  documentLengths : JMap ℤ ℤ
  totalDocumentLength : ℤ

/-- `TextIndexSnapshot.fromPersistence` with `PostingList.fromPositions`: what these throw for. -/
def Unfit (postings : JMap JavaString (JMap ℤ (List ℤ))) (lengths : JMap ℤ ℤ) (total : ℤ) : Prop :=
  (∃ l ∈ lengths.entries, l.1 < 0 ∨ l.2 ≤ 0) ∨ (lengths.entries.map (·.2)).sum ≠ total ∨
    ∃ t ∈ postings.entries, t.1 = [] ∨ t.2.entries = [] ∨ ∃ p ∈ t.2.entries, p.1 < 0 ∨ p.2 = [] ∨
      ¬p.2.Pairwise (· < ·) ∨ lengths.lookup p.1 = none ∨
      ∃ position ∈ p.2, position < 0 ∨ position ≥ (lengths.lookup p.1).getD 0

instance (postings : JMap JavaString (JMap ℤ (List ℤ))) (lengths : JMap ℤ ℤ) (total : ℤ) :
    Decidable (Unfit postings lengths total) :=
  inferInstanceAs (Decidable (_ ∨ _))

/-- `TextIndexSnapshot.fromPersistence`. -/
def fromPersistence (postings : JMap JavaString (JMap ℤ (List ℤ))) (lengths : JMap ℤ ℤ)
    (total : ℤ) : Except Thrown TextIndexSnapshot :=
  if Unfit postings lengths total then .error .runtime else .ok ⟨postings, lengths, total⟩

/-- One turn of the loop over the field lengths. -/
def fieldLengthStep (t : LengthLoop) : Parser Bytes Thrown LengthLoop := do
  let docId ← cursor.signed 4
  let length ← cursor.signed 4
  refuse (docId ≤ t.previousDoc ∨ docId < 0 ∨ docId ≥ checkpoint.nextDocId ∨
    (checkpoint.get docId).isNone ∨ length ≤ 0) (corrupt "TEXT_FIELD_LENGTH_ORDER")
  let summedLength ← liftM (addExact 8 Thrown.runtime t.summedLength length)
  return ⟨docId, summedLength, t.lengthsByDocument.insert docId length⟩

/-- One turn of the loop over the positions, with the previous position and the values so far. -/
def positionStep (fieldLength : ℤ) (t : ℤ × List ℤ) : Parser Bytes Thrown (ℤ × List ℤ) := do
  let value ← cursor.signed 4
  refuse (value ≤ t.1 ∨ value < 0 ∨ value ≥ fieldLength) (corrupt "TEXT_POSITION_ORDER")
  return (value, t.2 ++ [value])

/-- One turn of the loop over the postings, with the previous document and the postings so far. -/
def postingStep (fieldLengths : JMap ℤ ℤ) (t : ℤ × JMap ℤ (List ℤ)) :
    Parser Bytes Thrown (ℤ × JMap ℤ (List ℤ)) := do
  let docId ← cursor.signed 4
  refuse (docId ≤ t.1 ∨ docId < 0 ∨ docId ≥ checkpoint.nextDocId ∨ (checkpoint.get docId).isNone)
    (corrupt "TEXT_POSTING_ORDER")
  let positions ← count MAX_COUNT
  refuse (positions = 0 ∨ fieldLengths.lookup docId = none) (corrupt "TEXT_POSITION_COUNT")
  let fieldLength := (fieldLengths.lookup docId).getD 0
  let values ← loop (positionStep fieldLength) positions.toNat (-1, [])
  return (docId, t.2.insert docId values.2)

/-- The positions of a term by document. -/
def postingsByDocument (postings : List Posting) : JMap ℤ (List ℤ) :=
  postings.foldl (fun map p => map.insert p.docId p.positions) ∅

/-- One turn of the loop over the terms, with the previous term and the terms so far. -/
def termStep (fieldLengths : JMap ℤ ℤ) (t : Option Bytes × JMap JavaString (JMap ℤ (List ℤ))) :
    Parser Bytes Thrown (Option Bytes × JMap JavaString (JMap ℤ (List ℤ))) := do
  let encoded ← stringBytes MAX_STRING_BYTES false
  refuse (∃ term ∈ t.1, ¬term < encoded) (corrupt "TEXT_TERM_ORDER")
  let decoded ← liftM (decodeUtf8 malformed encoded)
  let frequency ← count MAX_COUNT
  let postings ← count MAX_COUNT
  refuse (frequency = 0 ∨ frequency ≠ postings) (corrupt "TEXT_DOCUMENT_FREQUENCY")
  let postingsByDocument ← loop (postingStep checkpoint fieldLengths) postings.toNat (-1, ∅)
  return (some encoded, t.2.insert decoded postingsByDocument.2)

/-- `readText`. -/
def readText (textField : TextField T) (liveDocuments : ℤ) (analyzer : JavaString) :
    Parser Bytes Thrown TextIndexSnapshot := do
  refuse (textField.simple = false ∨ analyzer ≠ SIMPLE_ANALYZER) (stale "TEXT_ANALYZER_BINDING")
  let documentCount ← cursor.signed 4
  let totalFieldLength ← cursor.signed 8
  refuse (documentCount < 0 ∨ documentCount > liveDocuments ∨ totalFieldLength < 0)
    (corrupt "TEXT_STATISTICS")
  let lengths ← count MAX_COUNT
  let t ← loop (fieldLengthStep checkpoint) lengths.toNat .start
  refuse (lengths ≠ documentCount ∨ t.summedLength ≠ totalFieldLength)
    (corrupt "TEXT_FIELD_LENGTH_TOTAL")
  let terms ← count MAX_COUNT
  let postingsByTerm ← loop (termStep checkpoint t.lengthsByDocument) terms.toNat (none, ∅)
  liftM (fromPersistence postingsByTerm.2 t.lengthsByDocument totalFieldLength)

theorem exact_fieldLengthStep (t : LengthLoop) :
    Exact (fieldLengthStep checkpoint t) fun t' w => ∃ l : FieldLength,
      (((l.Canonical checkpoint.nextDocId ∧ (checkpoint.get l.docId).isSome) ∧
        t.previousDoc < l.docId) ∧ t.Fits l) ∧ t' = t.next l ∧ w = l.write := by
  refine Exact.congr (.field (exact_signed cursor 4) fun _ _ => .field (exact_signed cursor 4)
    fun _ _ => .check fun _ => .lift fun _ _ => exact_pure _) fun t' w => ?_
  constructor
  · rintro ⟨doc, hdoc, _, ⟨length, hlength, _, ⟨hcheck, _, hadd, rfl, rfl⟩, rfl⟩, rfl⟩
    obtain ⟨hfits, rfl⟩ := addExact_eq_ok.mp hadd
    simp only [not_or, not_le, not_lt] at hcheck
    obtain ⟨hafter, hnonneg, hlt, hpresent, hpositive⟩ := hcheck
    refine ⟨⟨doc, length⟩, ⟨⟨⟨⟨⟨hdoc, hnonneg, hlt⟩, hlength, hpositive⟩, ?_⟩, hafter⟩,
      hfits⟩, rfl, ?_⟩
    · simpa [Option.isSome_iff_ne_none] using hpresent
    · rw [List.append_nil, FieldLength.write]
  · rintro ⟨l, ⟨⟨⟨⟨hdoc, hlength, hpositive⟩, hpresent⟩, hafter⟩, hfits⟩, rfl, rfl⟩
    refine ⟨_, hdoc.signed, _, ⟨_, hlength, [], ⟨?_, _, addExact_eq_ok.mpr ⟨hfits, rfl⟩, rfl, rfl⟩,
      rfl⟩, ?_⟩
    · simp only [not_or, not_le, not_lt]
      exact ⟨hafter, hdoc.nonneg, hdoc.lt,
        by simpa [Option.isSome_iff_ne_none] using hpresent, hpositive⟩
    · rw [List.append_nil, FieldLength.write]

theorem exact_positionStep (fieldLength : ℤ) (t : ℤ × List ℤ) :
    Exact (positionStep fieldLength t) fun t' w => ∃ position,
      ((Signed 4 position ∧ 0 ≤ position ∧ position < fieldLength) ∧ t.1 < position) ∧
        t' = (position, t.2 ++ [position]) ∧ w = writeSigned 4 position := by
  refine Exact.congr (.field (exact_signed cursor 4) fun _ _ => .check fun _ => exact_pure _)
    fun t' w => ?_
  constructor
  · rintro ⟨position, hsigned, _, ⟨hcheck, rfl, rfl⟩, rfl⟩
    exact ⟨_, ⟨⟨hsigned, by omega, by omega⟩, by omega⟩, rfl, List.append_nil _⟩
  · rintro ⟨position, ⟨⟨hsigned, hnonneg, hlt⟩, hafter⟩, rfl, rfl⟩
    exact ⟨_, hsigned, [], ⟨by omega, rfl, rfl⟩, (List.append_nil _).symm⟩

theorem foldl_positionStep (positions : List ℤ) (t : ℤ × List ℤ) :
    (positions.foldl (fun t position => (position, t.2 ++ [position])) t).2 = t.2 ++ positions := by
  induction positions generalizing t with
  | nil => exact (List.append_nil _).symm
  | cons position positions ih =>
    rw [List.foldl_cons, ih, List.append_assoc, List.singleton_append]

section

variable {lengths : List FieldLength} {fieldLengths : JMap ℤ ℤ}
variable (hlookup : ∀ d n, fieldLengths.lookup d = some n ↔ ⟨d, n⟩ ∈ lengths)

include hlookup

theorem exact_postingStep (t : ℤ × JMap ℤ (List ℤ)) :
    Exact (postingStep checkpoint fieldLengths t) fun t' w => ∃ p : Posting,
      ((p.Canonical checkpoint.nextDocId lengths ∧ (checkpoint.get p.docId).isSome) ∧
        t.1 < p.docId) ∧ t' = (p.docId, t.2.insert p.docId p.positions) ∧ w = p.write := by
  refine Exact.congr (.field (exact_signed cursor 4) fun _ _ => .check fun _ =>
    .field (exact_count cursor (by decide) _) fun _ hn => .check fun _ =>
    .loop (exact_positionStep _) hn.1 fun _ _ _ => exact_pure _) fun t' w => ?_
  constructor
  · rintro ⟨doc, hsigned, _, ⟨horder, _, hcount, _, ⟨hcheck, positions, rfl, htakes, _, ⟨rfl, rfl⟩,
      rfl⟩, rfl⟩, rfl⟩
    simp only [not_or, not_le, not_lt] at horder
    obtain ⟨hafter, hnonneg, hlt, hpresent⟩ := horder
    obtain ⟨length, hlength⟩ := Option.ne_none_iff_exists'.mp fun h => hcheck (.inr h)
    rw [hlength, Option.getD_some] at htakes
    obtain ⟨hall, hascending⟩ := (takes_ascending fun i hi => hi.2.1).mp htakes
    have hle : positions.length ≤ MAX_COUNT := by omega
    refine ⟨⟨doc, positions⟩, ⟨⟨⟨⟨hsigned, hnonneg, hlt⟩, hle, ?_, fun p hp => (hall p hp).1,
      ⟨length, (hlookup _ _).mp hlength, fun p hp => (hall p hp).2⟩, hascending⟩, ?_⟩, hafter⟩, ?_,
      ?_⟩
    · rintro rfl
      exact hcheck (.inl rfl)
    · simpa [Option.isSome_iff_ne_none] using hpresent
    · rw [foldl_positionStep, List.nil_append]
    · simp [Posting.write, writeMany]
  · rintro ⟨p, ⟨⟨h, hpresent⟩, hafter⟩, rfl, rfl⟩
    have hdoc := h.docId
    obtain ⟨length, hlength, hwithin⟩ := h.within
    rw [← hlookup] at hlength
    have hcount := h.count
    have hpositive := List.length_pos_iff.mpr h.nonempty
    refine ⟨_, hdoc.signed, _, ⟨?_, (p.positions.length : ℕ), ⟨by omega, by omega⟩, _,
      ⟨?_, p.positions, rfl, ?_, [], ⟨?_, rfl⟩, rfl⟩, rfl⟩, ?_⟩
    · simp only [not_or, not_le, not_lt]
      exact ⟨hafter, hdoc.nonneg, hdoc.lt, by simpa [Option.isSome_iff_ne_none] using hpresent⟩
    · rw [hlength]
      rintro (h | h)
      · omega
      · cases h
    · rw [hlength, Option.getD_some]
      exact (takes_ascending fun i hi => hi.2.1).mpr
        ⟨fun q hq => ⟨h.signed q hq, hwithin q hq⟩, h.ascending⟩
    · rw [foldl_positionStep, List.nil_append]
    · simp [Posting.write, writeMany]

omit hlookup in
theorem foldl_postingStep (postings : List Posting) (previous : ℤ) :
    (postings.foldl (fun (t : ℤ × JMap ℤ (List ℤ)) p =>
      (p.docId, t.2.insert p.docId p.positions)) (previous, ∅)).2 = postingsByDocument postings :=
  foldl_snd (fun p : Posting => p.docId)
    (fun (map : JMap ℤ (List ℤ)) p => map.insert p.docId p.positions) postings _

theorem exact_termStep (t : Option Bytes × JMap JavaString (JMap ℤ (List ℤ))) :
    Exact (termStep checkpoint fieldLengths t) fun t' w => ∃ i : TermPostings × JavaString,
      (((i.1.Canonical checkpoint.nextDocId lengths ∧ Utf8.decode i.1.term = some i.2) ∧
        Present checkpoint (i.1.postings.map (·.docId))) ∧ ∀ term ∈ t.1, term < i.1.term) ∧
        t' = (some i.1.term, t.2.insert i.2 (postingsByDocument i.1.postings)) ∧
        w = i.1.write := by
  refine Exact.congr (.field (exact_block cursor (by decide) false _) fun _ _ => .check fun _ =>
    .lift fun _ _ => .field (exact_count cursor (by decide) _) fun _ _ =>
    .field (exact_count cursor (by decide) _) fun _ hn => .check fun _ =>
    .loop (exact_postingStep checkpoint hlookup) hn.1 fun _ _ _ => exact_pure _) fun t' w => ?_
  constructor
  · rintro ⟨term, hbounded, _, ⟨horder, decoded, hdecoded, frequency, hfrequency, _, ⟨_, hcount, _,
      ⟨hcheck, postings, rfl, htakes, _, ⟨rfl, rfl⟩, rfl⟩, rfl⟩, rfl⟩, rfl⟩
    obtain ⟨hall, hascending⟩ := (takes_ascending fun p hp => hp.1.docId.nonneg).mp htakes
    obtain rfl : frequency = (postings.length : ℕ) := not_not.mp fun h => hcheck (.inr h)
    have hdecode := decode_eq_some.mpr (decodeUtf8_eq_ok.mp hdecoded)
    have hle : postings.length ≤ MAX_COUNT := by omega
    refine ⟨(⟨term, postings⟩, decoded), ⟨⟨⟨⟨hbounded, Option.isSome_of_eq_some hdecode, hle, ?_,
      fun p hp => (hall p hp).1, hascending⟩, hdecode⟩, ?_⟩,
      fun k hk => not_not.mp fun h => horder ⟨k, hk, h⟩⟩, ?_, ?_⟩
    · rintro rfl
      exact hcheck (.inl rfl)
    · intro id hid
      obtain ⟨p, hp, rfl⟩ := List.mem_map.mp hid
      exact (hall p hp).2
    · rw [foldl_postingStep]
    · simp [TermPostings.write, writeMany]
  · rintro ⟨⟨t, decoded⟩, ⟨⟨⟨h, hdecode⟩, hpresent⟩, hafter⟩, rfl, rfl⟩
    have hcount : t.postings.length ≤ MAX_COUNT := h.count
    have hpositive : 0 < t.postings.length := List.length_pos_iff.mpr h.nonempty
    refine ⟨_, h.bounded, _, ⟨?_, decoded, decodeUtf8_eq_ok.mpr (decode_eq_some.mp hdecode),
      (t.postings.length : ℕ), ⟨by omega, by omega⟩, _, ⟨(t.postings.length : ℕ),
      ⟨by omega, by omega⟩, _, ⟨by omega, t.postings, rfl,
      (takes_ascending fun p hp => hp.1.docId.nonneg).mpr ⟨fun p hp => ⟨h.postings p hp,
      hpresent _ (List.mem_map_of_mem hp)⟩, h.ascending⟩, [], ⟨?_, rfl⟩, rfl⟩, rfl⟩, rfl⟩, ?_⟩
    · rintro ⟨k, hk, hle⟩
      exact hle (hafter k hk)
    · rw [foldl_postingStep]
    · simp [TermPostings.write, writeMany]

end

/-- A text image that the loader takes, with its terms decoded. -/
structure Texts (liveDocuments : ℤ) (lengths : List FieldLength)
    (terms : List (TermPostings × JavaString)) : Prop where
  canonical : (⟨lengths, terms.map Prod.fst⟩ : TextImage).Canonical checkpoint.nextDocId
    liveDocuments
  decoded : ∀ i ∈ terms, Utf8.decode i.1.term = some i.2
  lengths : Present checkpoint (lengths.map (·.docId))
  postings : ∀ i ∈ terms, Present checkpoint (i.1.postings.map (·.docId))

/-- The index of a text image. -/
def textIndex (lengths : List FieldLength) (terms : List (TermPostings × JavaString)) :
    TextIndexSnapshot where
  postings := terms.foldl (fun map i => map.insert i.2 (postingsByDocument i.1.postings)) ∅
  documentLengths := lengths.foldl (fun map l => map.insert l.docId l.length) ∅
  totalDocumentLength := (lengths.map (·.length)).sum

variable {checkpoint}

theorem Texts.distinct {liveDocuments : ℤ} {lengths : List FieldLength}
    {terms : List (TermPostings × JavaString)} (h : Texts checkpoint liveDocuments lengths terms) :
    terms.Pairwise fun i j => i.2 ≠ j.2 := by
  have hascending := List.pairwise_map.mp h.canonical.termsAscending
  refine hascending.imp_of_mem fun {i j} hi hj hlt heq => ?_
  have hi' := (decode_eq_some.mp (h.decoded i hi)).2
  have hj' := (decode_eq_some.mp (h.decoded j hj)).2
  rw [hi', hj', heq] at hlt
  exact List.lt_irrefl _ hlt

/-- The checks of `fromPersistence` repeat those of the loops. -/
theorem Texts.not_unfit {liveDocuments : ℤ} {lengths : List FieldLength}
    {terms : List (TermPostings × JavaString)} (h : Texts checkpoint liveDocuments lengths terms) :
    ¬Unfit (textIndex lengths terms).postings (textIndex lengths terms).documentLengths
      (textIndex lengths terms).totalDocumentLength := by
  have hc := h.canonical
  have hlengths : (textIndex lengths terms).documentLengths.entries =
      (lengths.map fun l => ⟨l.docId, l.length⟩).reverse :=
    entries_foldl_insert (hc.lengthsAscending.imp ne_of_lt)
  have hterms : (textIndex lengths terms).postings.entries =
      (terms.map fun i => ⟨i.2, postingsByDocument i.1.postings⟩).reverse :=
    entries_foldl_insert h.distinct
  rintro (⟨_, hl, hbad⟩ | hsum | ⟨_, ht, hbad⟩)
  · rw [hlengths, List.mem_reverse, List.mem_map] at hl
    obtain ⟨l, hl, rfl⟩ := hl
    have hl' := hc.lengths l hl
    have hnonneg := hl'.docId.nonneg
    have hpositive := hl'.positive
    simp only at hbad
    omega
  · apply hsum
    rw [hlengths, List.map_reverse, List.sum_reverse, List.map_map]
    rfl
  · rw [hterms, List.mem_reverse, List.mem_map] at ht
    obtain ⟨i, hi, rfl⟩ := ht
    have hi' := hc.terms i.1 (List.mem_map_of_mem hi)
    have hpostings : (postingsByDocument i.1.postings).entries =
        (i.1.postings.map fun p => ⟨p.docId, p.positions⟩).reverse :=
      entries_foldl_insert (hi'.ascending.imp ne_of_lt)
    rcases hbad with hempty | hempty | ⟨_, hp, hbad⟩
    · have hterm := (decode_eq_some.mp (h.decoded i hi)).2
      simp only at hempty
      rw [hempty] at hterm
      exact hi'.bounded.2 rfl hterm
    · simp only at hempty
      rw [hpostings, List.reverse_eq_nil_iff, List.map_eq_nil_iff] at hempty
      exact hi'.nonempty hempty
    · simp only at hp
      rw [hpostings, List.mem_reverse, List.mem_map] at hp
      obtain ⟨p, hp, rfl⟩ := hp
      have hp' := hi'.postings p hp
      obtain ⟨length, hlength, hwithin⟩ := hp'.within
      have hlookup : (textIndex lengths terms).documentLengths.lookup p.docId = some length :=
        (lookup_foldl_insert (hc.lengthsAscending.imp ne_of_lt)).mpr ⟨_, hlength, rfl, rfl⟩
      simp only [hlookup, Option.getD_some] at hbad
      rcases hbad with hneg | hempty | horder | hmissing | ⟨position, hmem, hout⟩
      · exact absurd hp'.docId.nonneg (not_le.mpr hneg)
      · exact hp'.nonempty hempty
      · exact horder hp'.ascending
      · cases hmissing
      · have := hwithin position hmem
        omega

theorem foldl_termStep (terms : List (TermPostings × JavaString)) (previous : Option Bytes) :
    (terms.foldl (fun (t : Option Bytes × JMap JavaString (JMap ℤ (List ℤ))) i =>
      (some i.1.term, t.2.insert i.2 (postingsByDocument i.1.postings))) (previous, ∅)).2 =
      terms.foldl (fun map i => map.insert i.2 (postingsByDocument i.1.postings)) ∅ :=
  foldl_snd (fun i : TermPostings × JavaString => some i.1.term)
    (fun (map : JMap JavaString (JMap ℤ (List ℤ))) i =>
      map.insert i.2 (postingsByDocument i.1.postings)) terms _

variable (checkpoint) in
theorem exact_readText (textField : TextField T) (liveDocuments : ℤ) (analyzer : JavaString) :
    Exact (readText checkpoint textField liveDocuments analyzer) fun r w =>
      (textField.simple = true ∧ analyzer = SIMPLE_ANALYZER) ∧ ∃ lengths terms,
        Texts checkpoint liveDocuments lengths terms ∧ r = textIndex lengths terms ∧
          w = (⟨lengths, terms.map Prod.fst⟩ : TextImage).write := by
  have hown : ∀ l : FieldLength, l.Canonical checkpoint.nextDocId ∧
      (checkpoint.get l.docId).isSome → 0 ≤ l.docId ∧ Signed 4 l.length ∧ 0 < l.length :=
    fun l hl => ⟨hl.1.docId.nonneg, hl.1.signed, hl.1.positive⟩
  have hsummed : ∀ lengths : List FieldLength, (lengths.foldl LengthLoop.next .start).summedLength =
      (lengths.map (·.length)).sum := fun lengths => by
    rw [LengthLoop.summedLength_foldl]
    exact zero_add _
  have hindexes : ∀ (lengths : List FieldLength) (terms : List (TermPostings × JavaString)),
      fromPersistence (terms.foldl (fun (t : Option Bytes × JMap JavaString (JMap ℤ (List ℤ))) i =>
        (some i.1.term, t.2.insert i.2 (postingsByDocument i.1.postings))) (none, ∅)).2
        (lengths.foldl LengthLoop.next .start).lengthsByDocument
        (lengths.foldl LengthLoop.next .start).summedLength =
      fromPersistence (textIndex lengths terms).postings (textIndex lengths terms).documentLengths
        (textIndex lengths terms).totalDocumentLength := fun lengths terms => by
    rw [foldl_termStep, LengthLoop.lengthsByDocument_foldl, hsummed]
    rfl
  refine Exact.congr (.check fun _ => .field (exact_signed cursor 4) fun _ _ =>
    .field (exact_signed cursor 8) fun _ _ => .check fun _ =>
    .counted (by decide) (exact_fieldLengthStep checkpoint) fun lengths hcount htakes =>
    .check fun _ => .counted (by decide) (exact_termStep checkpoint
      (LengthLoop.lookup_foldl ((LengthLoop.takes_iff hown hcount).mp htakes).2))
    fun _ _ _ => exact_lift _) fun r w => ?_
  constructor
  · rintro ⟨hanalyzer, documentCount, -, _, ⟨total, -, _, ⟨hstatistics, lengths, hcount, hlengths, _,
      ⟨htotal, terms, htermCount, hterms, _, ⟨hindex, rfl⟩, rfl⟩, rfl⟩, rfl⟩, rfl⟩
    obtain ⟨hall, hascending⟩ := (LengthLoop.takes_iff hown hcount).mp hlengths
    obtain ⟨hallTerms, htermsAscending⟩ := (takes_ascending_bytes).mp hterms
    obtain ⟨hdocuments, hsum⟩ := not_or.mp htotal
    obtain rfl := not_not.mp hdocuments
    obtain rfl := not_not.mp hsum
    obtain ⟨hsimple, hsame⟩ := not_or.mp hanalyzer
    have h : Texts checkpoint liveDocuments lengths terms := by
      refine ⟨⟨not_lt.mp fun h => hstatistics (.inr (.inl h)), hcount, fun l hl => (hall l hl).1,
        hascending, by rwa [List.length_map], ?_, List.pairwise_map.mpr htermsAscending⟩,
        fun i hi => (hallTerms i hi).1.2, ?_, fun i hi => (hallTerms i hi).2⟩
      · exact List.forall_mem_map.mpr fun i hi => (hallTerms i hi).1.1
      · exact List.forall_mem_map.mpr fun l hl => (hall l hl).2
    rw [hindexes, fromPersistence, if_neg h.not_unfit, Except.ok.injEq] at hindex
    refine ⟨⟨Bool.not_eq_false _ ▸ hsimple, not_not.mp hsame⟩, lengths, terms, h, hindex.symm, ?_⟩
    rw [hsummed, TextImage.write, writeMany_map]
    simp [TextImage.totalFieldLength]
  · rintro ⟨⟨hsimple, rfl⟩, lengths, terms, h, rfl, rfl⟩
    have hascending := List.pairwise_map.mp h.canonical.termsAscending
    have htotal : 0 ≤ (lengths.map (·.length)).sum ∧
        (lengths.map (·.length)).sum < 9223372036854775808 := h.canonical.totalFieldLength
    have hdocuments : lengths.length ≤ liveDocuments := h.canonical.documents
    have hcount : lengths.length ≤ 100000000 := h.canonical.count
    refine ⟨by simp [hsimple], (lengths.length : ℕ), signed_four.mpr (by omega), _,
      ⟨(lengths.map (·.length)).sum, signed_eight.mpr (by omega), _, ⟨by omega, lengths, hcount,
      (LengthLoop.takes_iff hown hcount).mpr ⟨fun l hl => ⟨h.canonical.lengths l hl,
        h.lengths _ (List.mem_map_of_mem hl)⟩, h.canonical.lengthsAscending⟩, _,
      ⟨?_, terms, ?_, (takes_ascending_bytes).mpr ⟨fun i hi =>
        ⟨⟨h.canonical.terms i.1 (List.mem_map_of_mem hi), h.decoded i hi⟩, h.postings i hi⟩,
        hascending⟩, [], ⟨?_, rfl⟩, rfl⟩, rfl⟩, rfl⟩, ?_⟩
    · rw [hsummed]
      exact not_or_intro (not_not.mpr rfl) (not_not.mpr rfl)
    · simpa using h.canonical.termCount
    · rw [← hsummed, hindexes, fromPersistence, if_neg h.not_unfit]
    · rw [TextImage.write, writeMany_map]
      simp [TextImage.totalFieldLength]

end

/-! ### Members -/

/-- An index that the loader returns. -/
inductive IndexSnapshot (V O : Type) where
  | equality (values : JMap V (Finset ℕ)) (indexedDocumentCount : ℤ)
  | range (values : JMap O (Finset ℕ)) (indexedDocumentCount : ℤ)
  | keys (values : JMap JavaString (Finset ℕ)) (indexedDocumentCount : ℤ)
  | text (snapshot : TextIndexSnapshot)

section

variable {T V O : Type} [DecidableEq V] [DecidableEq O] (checkpoint : Loaded T)
variable (schema : SearchSchema T V O)

/-- The payload of a component, by the kind of its index. -/
def readPayload (kind : ℤ) (field analyzer : JavaString) (liveDocuments : ℤ) :
    Parser Bytes Thrown (IndexSnapshot V O) :=
  if kind = 1 then do
    let field ← liftM (required (schema.requireField field))
    let r ← readEquality checkpoint field
    return .equality r.1 r.2
  else if kind = 2 then do
    let field ← liftM (required (schema.requireField field))
    let r ← readRange checkpoint schema.comparable field
    return .range r.1 r.2
  else if kind = 3 then do
    let _ ← liftM (required (schema.requireStringField field))
    let r ← readPrefix checkpoint
    return .keys r.1 r.2
  else if kind = 4 then do
    let textField ← liftM (required (schema.requireTextField field))
    let snapshot ← readText checkpoint textField liveDocuments analyzer
    return .text snapshot
  else throw (incompatible "COMPONENT_KIND")

/-- The content of a component. -/
def componentFields (authority : Authority) (expected : CatalogEntry) :
    Parser Bytes Thrown (IndexSnapshot V O) := do
  let header ← reader.readComponentHeader
  refuse (¬header.format.Supported COMPONENT_MAGIC) (incompatible "COMPONENT_FORMAT")
  refuse (header.identities.generator ≠ GENERATOR_ID ∨
    header.identities.generatorVersion ≠ GENERATOR_VERSION) (incompatible "COMPONENT_GENERATOR")
  refuse (¬header.Bound authority) (stale "COMPONENT_CANONICAL_BINDING")
  refuse (¬header.Describes expected) (stale "COMPONENT_DESCRIPTOR_BINDING")
  readPayload checkpoint schema header.kind header.field header.analyzer header.liveDocuments

end

/-- One turn of the loop over the entries of a catalog. -/
def entryStep : ℤ → EntryLoop → Parser Bytes Thrown EntryLoop :=
  reader.entryStep (corrupt "CATALOG_COMPONENT_DESCRIPTOR") .runtime
    (corrupt "CATALOG_COMPONENT_DESCRIPTOR")

/-- The content of a catalog. -/
def catalogFields : Parser Bytes Thrown (CatalogHeader × List CatalogEntry) := do
  let header ← reader.readCatalogHeader
  let count ← count MAX_COMPONENTS
  refuse (¬header.format.Supported CATALOG_MAGIC) (incompatible "CATALOG_FORMAT")
  refuse (header.identities.generator ≠ GENERATOR_ID ∨
    header.identities.generatorVersion ≠ GENERATOR_VERSION) (incompatible "CATALOG_GENERATOR")
  let t ← loop (entryStep header.sequence) count.toNat .start
  return (header, t.entries)

/-- The fields of a content, with `Cursor.requireExhausted` at the end. -/
def exhausted {α : Type} (fields : Parser Bytes Thrown α) (content : Bytes) : Except Thrown α := do
  let r ← fields content
  reject (r.2 ≠ []) (corrupt "TRAILING_BYTES")
  return r.1

theorem exhausted_eq_ok {α : Type} {fields : Parser Bytes Thrown α} {R : α → Bytes → Prop}
    (h : Exact fields R) {content : Bytes} {a : α} :
    exhausted fields content = .ok a ↔ R a content := by
  have hreads : fields content = .ok (a, []) ↔ R a content := by
    rw [h content a []]
    constructor
    · rintro ⟨w, hw, hcontent⟩
      rwa [show content = w ++ [] from hcontent, List.append_nil]
    · exact fun hw => ⟨content, hw, (List.append_nil content).symm⟩
  simp only [← hreads, exhausted, Lib.bind_eq_ok, reject_eq_ok, pure, Except.pure, Except.ok.injEq]
  constructor
  · rintro ⟨⟨b, rest⟩, hfields, -, hrest, rfl⟩
    obtain rfl : rest = [] := not_not.mp hrest
    exact hfields
  · exact fun hfields => ⟨(a, []), hfields, (), not_not.mpr rfl, rfl⟩

/-- What the parsers return for another exception: the catch clauses around them. -/
def classify {α : Type} (structured : Thrown) : Except Thrown α → Except Thrown α
  | .error .runtime => .error structured
  | result => result

theorem classify_eq_ok {α : Type} {structured : Thrown} {x : Except Thrown α} {a : α} :
    classify structured x = .ok a ↔ x = .ok a := by
  cases x with
  | ok b => exact .rfl
  | error e => cases e <;> exact iff_of_false nofun nofun

section

variable (crc32c : Bytes → BitVec 32) (sha256 : Bytes → BitVec 256)

/-- `checked`: the content of a member. -/
def checked (encoded domain : Bytes) (minimum : ℕ) (member : String) : Except Thrown Bytes := do
  reject (encoded.length < minimum) (incomplete (member ++ "_TRUNCATED"))
  let contentLength := encoded.length - 36
  let storedChecksum := BitVec.ofNat 32 (ofBigEndian (encoded.drop (encoded.length - 4)))
  reject (crc32c (encoded.take (encoded.length - 4)) ≠ storedChecksum)
    (corrupt (member ++ "_CRC32C"))
  reject (Decoder.writeBits 32 (sha256 (domain ++ encoded.take contentLength)) ≠
    (encoded.drop contentLength).take 32) (corrupt (member ++ "_IDENTITY"))
  return encoded.take contentLength

theorem checked_eq_ok {encoded domain content : Bytes} {minimum : ℕ} {member : String}
    (hminimum : 36 ≤ minimum) :
    checked crc32c sha256 encoded domain minimum member = .ok content ↔
      minimum ≤ encoded.length ∧ encoded = finishMember crc32c sha256 content domain := by
  have hbody : checked crc32c sha256 encoded domain minimum member = .ok content ↔
      minimum ≤ encoded.length ∧
      BitVec.ofNat 32 (ofBigEndian (encoded.drop (encoded.length - 4))) =
        crc32c (encoded.take (encoded.length - 4)) ∧
      (encoded.drop (encoded.length - 36)).take 32 =
        Decoder.writeBits 32 (sha256 (domain ++ encoded.take (encoded.length - 36))) ∧
      content = encoded.take (encoded.length - 36) := by
    simp only [checked, Lib.bind_eq_ok, reject_eq_ok, pure, Except.pure, Except.ok.injEq, not_lt,
      not_not]
    constructor
    · rintro ⟨-, hlength, -, hchecksum, -, hidentity, hcontent⟩
      exact ⟨hlength, hchecksum.symm, hidentity.symm, hcontent.symm⟩
    · rintro ⟨hlength, hchecksum, hidentity, hcontent⟩
      exact ⟨(), hlength, (), hchecksum.symm, (), hidentity.symm, hcontent.symm⟩
  rw [hbody]
  refine and_congr_right fun hlength => ?_
  have hcrc : (encoded.drop (encoded.length - 4)).length = 4 := by
    rw [List.length_drop]
    omega
  rw [ofNat_eq_iff hcrc]
  constructor
  · rintro ⟨hchecksum, hidentity, rfl⟩
    have hmid : encoded.take (encoded.length - 4) = encoded.take (encoded.length - 36) ++
        (encoded.drop (encoded.length - 36)).take 32 := by
      rw [← List.take_add]
      congr 1
      omega
    rw [finishMember, ← hidentity, ← hmid, ← hchecksum, List.take_append_drop]
  · intro hencoded
    have hcontent : encoded.length - 36 = content.length := by
      rw [hencoded, length_finishMember]
      omega
    have hmid : encoded.length - 4 =
        (content ++ Decoder.writeBits 32 (sha256 (domain ++ content))).length := by
      rw [List.length_append, Decoder.length_writeBits]
      omega
    rw [hcontent, hmid, hencoded, finishMember]
    rw [List.drop_left, List.take_left, List.append_assoc, List.drop_left, List.take_left,
      List.take_left' (Decoder.length_writeBits _)]
    exact ⟨rfl, rfl, rfl⟩

/-- `parseCatalog`. -/
def parseCatalog (authority : Authority) (encoded : Bytes) : Except Thrown (List CatalogEntry) := do
  let content ← checked crc32c sha256 encoded CATALOG_DOMAIN 256 "CATALOG"
  classify (corrupt "CATALOG_STRUCTURE") do
    let (header, entries) ← exhausted catalogFields content
    reject (header.format.liveMajor ≠ 1 ∨ header.format.liveMinor ≠ authority.minor ∨
      ¬header.Bound authority ∨ entries.length ≠ authority.descriptors.length)
      (stale "CATALOG_CANONICAL_BINDING")
    reject (entries.map CatalogEntry.descriptor ≠ authority.descriptors)
      (stale "CATALOG_DESCRIPTOR_SET")
    return entries

variable {T V O : Type} [DecidableEq V] [DecidableEq O] (checkpoint : Loaded T)
variable (schema : SearchSchema T V O)

/-- `parseComponent`. -/
def parseComponent (authority : Authority) (expected : CatalogEntry) (encoded : Bytes) :
    Except Thrown (IndexSnapshot V O) := do
  let content ← checked crc32c sha256 encoded COMPONENT_DOMAIN 192 "COMPONENT"
  classify (corrupt "COMPONENT_STRUCTURE")
    (exhausted (componentFields checkpoint schema authority expected) content)

/-- `readBounded`, for a file that is there. -/
def readBounded (maximum : ℕ) (encoded : Bytes) : Except Thrown Bytes :=
  if encoded.length > maximum ∨ encoded.length > 2147483639 then .error .runtime else .ok encoded

/-- `trailingChecksum`. -/
def trailingChecksum (encoded : Bytes) : Except Thrown ℤ :=
  if encoded.length < 4 then .error (corrupt "COMPONENT_TRUNCATED")
  else .ok (BitVec.ofNat 32 (ofBigEndian (encoded.drop (encoded.length - 4)))).toInt

/-- `requireWholeMember`. -/
def requireWholeMember (entry : CatalogEntry) (encoded : Bytes) : Except Thrown Unit := do
  reject (entry.bytes ≠ (encoded.length : ℤ)) (corrupt "COMPONENT_CATALOG_BINDING")
  let checksum ← trailingChecksum encoded
  reject (entry.checksum ≠ checksum) (corrupt "COMPONENT_CATALOG_BINDING")
  reject (entry.sha256 ≠ Decoder.writeBits 32 (sha256 encoded))
    (corrupt "COMPONENT_CATALOG_BINDING")

/-- What `load` does with the file of one component. -/
def loadComponent (authority : Authority) (entry : CatalogEntry) (file : Bytes) :
    Except Thrown (IndexSnapshot V O) := do
  let encoded ← readBounded MAX_COMPONENT_BYTES file
  requireWholeMember sha256 entry encoded
  parseComponent crc32c sha256 checkpoint schema authority entry encoded

/-- What `load` does with the file of the catalog. -/
def loadCatalog (authority : Authority) (file : Bytes) : Except Thrown (List CatalogEntry) := do
  let encoded ← readBounded MAX_CATALOG_BYTES file
  parseCatalog crc32c sha256 authority encoded

end

/-! ### What the loader accepts -/

theorem exact_catalogFields : Exact catalogFields fun r w =>
    CatalogContent r.1 r.2 ∧ w = writeCatalog r.1 r.2 := by
  refine Exact.congr (.field (exact_readCatalogHeader reader) fun _ _ =>
    .field (exact_count cursor (by decide) _) fun count hcount => .check fun _ => .check fun _ =>
    .loop (exact_entryStep _ _ _ _ _) hcount.1 fun _ _ _ => exact_pure _) fun r w => ?_
  constructor
  · rintro ⟨header, hvalid, _, ⟨count, hcount, _, ⟨hformat, hgenerator, entries, rfl, htakes, _,
      ⟨rfl, rfl⟩, rfl⟩, rfl⟩, rfl⟩
    obtain ⟨hid, hversion⟩ := not_or.mp hgenerator
    rw [EntryLoop.entries_foldl_start]
    have hle : entries.length ≤ MAX_COMPONENTS := by omega
    exact ⟨⟨hvalid, not_not.mp hformat, not_not.mp hid, not_not.mp hversion, hle, htakes⟩,
      by simp [writeCatalog, writeMany]⟩
  · obtain ⟨header, entries⟩ := r
    rintro ⟨h, rfl⟩
    have hcount : entries.length ≤ MAX_COMPONENTS := h.count
    refine ⟨header, h.valid, _, ⟨(entries.length : ℕ), ⟨by omega, by omega⟩, _,
      ⟨not_not.mpr h.supported, not_or_intro (not_not.mpr h.generator)
        (not_not.mpr h.generatorVersion), entries, rfl, h.takes, [], ⟨?_, rfl⟩, rfl⟩, rfl⟩, ?_⟩
    · rw [EntryLoop.entries_foldl_start]
    · simp [writeCatalog, writeMany]

section

variable {T V O : Type} [DecidableEq V] [DecidableEq O] {checkpoint : Loaded T}
variable {schema : SearchSchema T V O}

/-- What the loader takes as the payload of a component, with the index it makes of it. -/
inductive Loads (checkpoint : Loaded T) (schema : SearchSchema T V O) (kind : ℤ)
    (field analyzer : JavaString) (liveDocuments : ℤ) : Payload → IndexSnapshot V O → Prop
  | equality {valueOf} (items) : kind = 1 → schema.requireField field = some valueOf →
      Groups checkpoint valueOf items → Loads checkpoint schema kind field analyzer liveDocuments
        (.groups (items.map Prod.fst)) (.equality (groupsIndex items).1 (groupsIndex items).2)
  | range {valueOf} (items) : kind = 2 → schema.requireField field = some valueOf →
      Groups checkpoint (placeOf schema.comparable valueOf) items →
      Loads checkpoint schema kind field analyzer liveDocuments
        (.groups (items.map Prod.fst)) (.range (groupsIndex items).1 (groupsIndex items).2)
  | keys (items) : kind = 3 → (schema.requireStringField field).isSome → Keys checkpoint items →
      Loads checkpoint schema kind field analyzer liveDocuments
        (.keys (items.map Prod.fst)) (.keys (keysIndex items).1 (keysIndex items).2)
  | text {textField} (lengths terms) : kind = 4 → schema.requireTextField field = some textField →
      textField.simple = true → analyzer = SIMPLE_ANALYZER →
      Texts checkpoint liveDocuments lengths terms →
      Loads checkpoint schema kind field analyzer liveDocuments
        (.text ⟨lengths, terms.map Prod.fst⟩) (.text (textIndex lengths terms))

theorem exact_readPayload (kind : ℤ) (field analyzer : JavaString) (liveDocuments : ℤ) :
    Exact (readPayload checkpoint schema kind field analyzer liveDocuments) fun r w =>
      ∃ payload, Loads checkpoint schema kind field analyzer liveDocuments payload r ∧
        w = payload.write := by
  unfold readPayload
  split_ifs with h1 h2 h3 h4
  · refine Exact.congr (.lift fun valueOf _ => .bind (exact_readGroups checkpoint valueOf)
      fun _ => exact_pure _) fun r w => ?_
    constructor
    · rintro ⟨valueOf, hfield, _, _, _, ⟨items, hitems, rfl, rfl⟩, ⟨rfl, rfl⟩, rfl⟩
      refine ⟨_, .equality items h1 (required_eq_ok.mp hfield) hitems, ?_⟩
      rw [List.append_nil, Payload.write, writeMany_map]
    · rintro ⟨_, hloads, rfl⟩
      cases hloads with
      | equality items _ hfield hitems =>
        refine ⟨_, required_eq_ok.mpr hfield, _, _, [], ⟨items, hitems, rfl, rfl⟩, ⟨rfl, rfl⟩, ?_⟩
        rw [List.append_nil, Payload.write, writeMany_map]
      | _ => omega
  · refine Exact.congr (.lift fun valueOf _ => .bind
      (exact_readGroups checkpoint (placeOf schema.comparable valueOf)) fun _ => exact_pure _)
      fun r w => ?_
    constructor
    · rintro ⟨valueOf, hfield, _, _, _, ⟨items, hitems, rfl, rfl⟩, ⟨rfl, rfl⟩, rfl⟩
      refine ⟨_, .range items h2 (required_eq_ok.mp hfield) hitems, ?_⟩
      rw [List.append_nil, Payload.write, writeMany_map]
    · rintro ⟨_, hloads, rfl⟩
      cases hloads with
      | range items _ hfield hitems =>
        refine ⟨_, required_eq_ok.mpr hfield, _, _, [], ⟨items, hitems, rfl, rfl⟩, ⟨rfl, rfl⟩, ?_⟩
        rw [List.append_nil, Payload.write, writeMany_map]
      | _ => omega
  · refine Exact.congr (.lift fun _ _ => .bind (exact_readPrefix checkpoint) fun _ => exact_pure _)
      fun r w => ?_
    constructor
    · rintro ⟨_, hfield, _, _, _, ⟨items, hitems, rfl, rfl⟩, ⟨rfl, rfl⟩, rfl⟩
      refine ⟨_, .keys items h3 (Option.isSome_of_eq_some (required_eq_ok.mp hfield)) hitems, ?_⟩
      rw [List.append_nil, Payload.write, writeMany_map]
    · rintro ⟨_, hloads, rfl⟩
      cases hloads with
      | keys items _ hfield hitems =>
        obtain ⟨valueOf, hfield⟩ := Option.isSome_iff_exists.mp hfield
        refine ⟨_, required_eq_ok.mpr hfield, _, _, [], ⟨items, hitems, rfl, rfl⟩, ⟨rfl, rfl⟩, ?_⟩
        rw [List.append_nil, Payload.write, writeMany_map]
      | _ => omega
  · refine Exact.congr (.lift fun textField _ => .bind
      (exact_readText checkpoint textField liveDocuments analyzer) fun _ => exact_pure _)
      fun r w => ?_
    constructor
    · rintro ⟨textField, hfield, _, _, _, ⟨⟨hsimple, hanalyzer⟩, lengths, terms, htexts, rfl, rfl⟩,
        ⟨rfl, rfl⟩, rfl⟩
      exact ⟨_, .text lengths terms h4 (required_eq_ok.mp hfield) hsimple hanalyzer htexts,
        List.append_nil _⟩
    · rintro ⟨_, hloads, rfl⟩
      cases hloads with
      | text lengths terms _ hfield hsimple hanalyzer htexts =>
        exact ⟨_, required_eq_ok.mpr hfield, _, _, [],
          ⟨⟨hsimple, hanalyzer⟩, lengths, terms, htexts, rfl, rfl⟩, ⟨rfl, rfl⟩,
          (List.append_nil _).symm⟩
      | _ => omega
  · refine (exact_throw _).congr fun r w => iff_of_false id ?_
    rintro ⟨_, hloads, -⟩
    cases hloads <;> omega

theorem exact_componentFields {authority : Authority} {expected : CatalogEntry} :
    Exact (componentFields checkpoint schema authority expected) fun r w =>
      ∃ (header : ComponentHeader) (payload : Payload), header.Admitted authority expected ∧
        Loads checkpoint schema header.kind header.field header.analyzer header.liveDocuments
          payload r ∧ w = header.write ++ payload.write := by
  refine Exact.congr (.field (exact_readComponentHeader reader) fun header _ => .check fun _ =>
    .check fun _ => .check fun _ => .check fun _ =>
    exact_readPayload header.kind header.field header.analyzer header.liveDocuments) fun r w => ?_
  constructor
  · rintro ⟨header, hvalid, _, ⟨hformat, hgenerator, hbound, hdescribes, payload, hloads, rfl⟩, rfl⟩
    obtain ⟨hid, hversion⟩ := not_or.mp hgenerator
    exact ⟨header, payload, ⟨hvalid, not_not.mp hformat, not_not.mp hid, not_not.mp hversion,
      not_not.mp hbound, not_not.mp hdescribes⟩, hloads, rfl⟩
  · rintro ⟨header, payload, h, hloads, rfl⟩
    exact ⟨header, h.valid, _, ⟨not_not.mpr h.supported, not_or_intro (not_not.mpr h.generator)
      (not_not.mpr h.generatorVersion), not_not.mpr h.bound, not_not.mpr h.describes, payload,
      hloads, rfl⟩, rfl⟩

theorem parseComponent_eq_ok {crc32c : Bytes → BitVec 32} {sha256 : Bytes → BitVec 256}
    {authority : Authority} {expected : CatalogEntry} {encoded : Bytes} {r : IndexSnapshot V O} :
    parseComponent crc32c sha256 checkpoint schema authority expected encoded = .ok r ↔
      192 ≤ encoded.length ∧ ∃ (header : ComponentHeader) (payload : Payload),
        header.Admitted authority expected ∧
        Loads checkpoint schema header.kind header.field header.analyzer header.liveDocuments
          payload r ∧
        encoded = finishMember crc32c sha256 (header.write ++ payload.write) COMPONENT_DOMAIN := by
  simp only [parseComponent, Lib.bind_eq_ok, checked_eq_ok crc32c sha256
    (show 36 ≤ 192 by decide), classify_eq_ok, exhausted_eq_ok exact_componentFields]
  constructor
  · rintro ⟨_, ⟨hlength, rfl⟩, header, payload, hheader, hloads, rfl⟩
    exact ⟨hlength, header, payload, hheader, hloads, rfl⟩
  · rintro ⟨hlength, header, payload, hheader, hloads, rfl⟩
    exact ⟨_, ⟨hlength, rfl⟩, header, payload, hheader, hloads, rfl⟩

end

section

variable {crc32c : Bytes → BitVec 32} {sha256 : Bytes → BitVec 256} {authority : Authority}

theorem readBounded_eq_ok {maximum : ℕ} {file encoded : Bytes} :
    readBounded maximum file = .ok encoded ↔
      (file.length ≤ maximum ∧ file.length ≤ 2147483639) ∧ encoded = file := by
  unfold readBounded
  split
  · next h =>
    refine iff_of_false nofun ?_
    rintro ⟨⟨h1, h2⟩, -⟩
    omega
  · next h =>
    rw [Except.ok.injEq, eq_comm, iff_and_self]
    intro
    omega

theorem trailingChecksum_eq_ok {encoded : Bytes} {checksum : ℤ} :
    trailingChecksum encoded = .ok checksum ↔ ¬encoded.length < 4 ∧
      checksum = (BitVec.ofNat 32 (ofBigEndian (encoded.drop (encoded.length - 4)))).toInt := by
  unfold trailingChecksum
  by_cases h : encoded.length < 4 <;> simp [h, eq_comm]

theorem parseCatalog_eq_ok {encoded : Bytes} {entries : List CatalogEntry} :
    parseCatalog crc32c sha256 authority encoded = .ok entries ↔
      256 ≤ encoded.length ∧ authority.minor = 2 ∧
        ∃ header, CatalogContent header entries ∧ CatalogBinding authority header entries ∧
          encoded = finishMember crc32c sha256 (writeCatalog header entries) CATALOG_DOMAIN := by
  simp only [parseCatalog, Lib.bind_eq_ok, checked_eq_ok crc32c sha256 (show 36 ≤ 256 by decide),
    classify_eq_ok, exhausted_eq_ok exact_catalogFields, reject_eq_ok, pure, Except.pure,
    Except.ok.injEq]
  constructor
  · rintro ⟨_, ⟨hlength, rfl⟩, ⟨header, _⟩, ⟨hcontent, rfl⟩, -, hbound, -, hset, rfl⟩
    obtain ⟨-, hminor, hbound, -⟩ : _ ∧ _ ∧ _ ∧ _ := by
      simpa only [not_or, not_not] using hbound
    have hformat : header.format.liveMinor = 2 := by rw [hcontent.supported]
    exact ⟨hlength, hminor.symm.trans hformat, header, hcontent, ⟨hbound, not_not.mp hset⟩, rfl⟩
  · rintro ⟨hlength, hminor, header, hcontent, hbinding, rfl⟩
    refine ⟨_, ⟨hlength, rfl⟩, (header, entries), ⟨hcontent, rfl⟩, (), ?_, (),
      not_not.mpr hbinding.descriptors, rfl⟩
    have hcount : entries.length = authority.descriptors.length := by
      rw [← hbinding.descriptors, List.length_map]
    have hformat : header.format = ⟨CATALOG_MAGIC, ENCODING_MAJOR, ENCODING_MINOR, 1, 2⟩ :=
      hcontent.supported
    simp only [not_or, not_not]
    exact ⟨by rw [hformat], by rw [hformat, hminor], hbinding.bound, hcount⟩

theorem loadCatalog_eq_ok {file : Bytes} {entries : List CatalogEntry} :
    loadCatalog crc32c sha256 authority file = .ok entries ↔
      file.length ≤ MAX_CATALOG_BYTES ∧ parseCatalog crc32c sha256 authority file = .ok entries := by
  have hmaximum : MAX_CATALOG_BYTES ≤ 2147483639 := by decide
  simp only [loadCatalog, Lib.bind_eq_ok, readBounded_eq_ok]
  constructor
  · rintro ⟨_, ⟨⟨hlength, -⟩, rfl⟩, hparse⟩
    exact ⟨hlength, hparse⟩
  · rintro ⟨hlength, hparse⟩
    exact ⟨file, ⟨⟨hlength, hlength.trans hmaximum⟩, rfl⟩, hparse⟩

end

end GeneralSearch.Derived.Loader
