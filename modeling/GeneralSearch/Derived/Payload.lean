import GeneralSearch.Derived.Format
import GeneralSearch.Index.Equality

/-! The payloads of the component images and what makes one canonical: orders, bounds and counts,
but nothing about the documents.  At the end the frame of a member: its content, its identity and
its checksum. -/

namespace GeneralSearch.Derived

open GeneralSearch.Parser
open GeneralSearch.Utf8 (JavaString)
open GeneralSearch.Index (JMap)

/-! ### Payloads -/

/-- A document id in the space of the checkpoint. -/
structure DocId (nextDocId id : ℤ) : Prop where
  signed : Signed 4 id
  nonneg : 0 ≤ id
  lt : id < nextDocId

/-- The ids of a bitmap. -/
structure Bitmap (nextDocId : ℤ) (ids : List ℤ) : Prop where
  count : ids.length ≤ MAX_COUNT
  docIds : ∀ id ∈ ids, DocId nextDocId id
  ascending : ids.Pairwise (· < ·)

def writeBitmap (ids : List ℤ) : Bytes := writeMany (writeSigned 4) ids

/-- The documents with one value, the first of them in front. -/
structure ValueGroup where
  representative : ℤ
  ids : List ℤ

structure ValueGroup.Canonical (nextDocId : ℤ) (g : ValueGroup) : Prop where
  bitmap : Bitmap nextDocId g.ids
  representative : g.representative ∈ g.ids

def ValueGroup.write (g : ValueGroup) : Bytes :=
  writeSigned 4 g.representative ++ writeBitmap g.ids

/-- The documents with one string. -/
structure PrefixGroup where
  key : Bytes
  ids : List ℤ

structure PrefixGroup.Canonical (nextDocId : ℤ) (g : PrefixGroup) : Prop where
  bounded : Bounded MAX_STRING_BYTES false g.key
  strict : (Utf8.decode g.key).isSome
  bitmap : Bitmap nextDocId g.ids

def PrefixGroup.write (g : PrefixGroup) : Bytes := writeBlock g.key ++ writeBitmap g.ids

/-- A document with some tokens and their number. -/
structure FieldLength where
  docId : ℤ
  length : ℤ

structure FieldLength.Canonical (nextDocId : ℤ) (l : FieldLength) : Prop where
  docId : DocId nextDocId l.docId
  signed : Signed 4 l.length
  positive : 0 < l.length

def FieldLength.write (l : FieldLength) : Bytes := writeSigned 4 l.docId ++ writeSigned 4 l.length

/-- The positions of a term in a document. -/
structure Posting where
  docId : ℤ
  positions : List ℤ

structure Posting.Canonical (nextDocId : ℤ) (lengths : List FieldLength) (p : Posting) : Prop where
  docId : DocId nextDocId p.docId
  count : p.positions.length ≤ MAX_COUNT
  nonempty : p.positions ≠ []
  signed : ∀ position ∈ p.positions, Signed 4 position
  within : ∃ length, ⟨p.docId, length⟩ ∈ lengths ∧
    ∀ position ∈ p.positions, 0 ≤ position ∧ position < length
  ascending : p.positions.Pairwise (· < ·)

def Posting.write (p : Posting) : Bytes :=
  writeSigned 4 p.docId ++ writeMany (writeSigned 4) p.positions

/-- A term and its documents, whose number is written twice. -/
structure TermPostings where
  term : Bytes
  postings : List Posting

structure TermPostings.Canonical (nextDocId : ℤ) (lengths : List FieldLength)
    (t : TermPostings) : Prop where
  bounded : Bounded MAX_STRING_BYTES false t.term
  strict : (Utf8.decode t.term).isSome
  count : t.postings.length ≤ MAX_COUNT
  nonempty : t.postings ≠ []
  postings : ∀ p ∈ t.postings, p.Canonical nextDocId lengths
  ascending : t.postings.Pairwise fun p q => p.docId < q.docId

def TermPostings.write (t : TermPostings) : Bytes :=
  writeBlock t.term ++ writeSigned 4 t.postings.length ++ writeMany Posting.write t.postings

/-- The statistics, field lengths and terms of a text index. -/
structure TextImage where
  lengths : List FieldLength
  terms : List TermPostings

def TextImage.totalFieldLength (image : TextImage) : ℤ := (image.lengths.map (·.length)).sum

structure TextImage.Canonical (nextDocId liveDocuments : ℤ) (image : TextImage) : Prop where
  documents : image.lengths.length ≤ liveDocuments
  count : image.lengths.length ≤ MAX_COUNT
  lengths : ∀ l ∈ image.lengths, l.Canonical nextDocId
  lengthsAscending : image.lengths.Pairwise fun l m => l.docId < m.docId
  termCount : image.terms.length ≤ MAX_COUNT
  terms : ∀ t ∈ image.terms, t.Canonical nextDocId image.lengths
  termsAscending : image.terms.Pairwise fun t u => t.term < u.term

theorem TextImage.Canonical.totalFieldLength {nextDocId liveDocuments : ℤ} {image : TextImage}
    (h : image.Canonical nextDocId liveDocuments) :
    0 ≤ image.totalFieldLength ∧ image.totalFieldLength < 9223372036854775808 := by
  have hbound : ∀ lengths : List FieldLength, (∀ l ∈ lengths, l.Canonical nextDocId) →
      0 ≤ (lengths.map (·.length)).sum ∧
        (lengths.map (·.length)).sum ≤ lengths.length * 2147483648 := by
    intro lengths hall
    induction lengths with
    | nil => simp
    | cons l lengths ih =>
      obtain ⟨hl, hrest⟩ := List.forall_mem_cons.mp hall
      have hlt := (signed_four.mp hl.signed).2
      have hpositive := hl.positive
      have hsum := ih hrest
      rw [List.map_cons, List.sum_cons, List.length_cons]
      omega
  have hcount : image.lengths.length ≤ 100000000 := h.count
  have hsum := hbound image.lengths h.lengths
  unfold TextImage.totalFieldLength
  omega

def TextImage.write (image : TextImage) : Bytes :=
  writeSigned 4 image.lengths.length ++ writeSigned 8 image.totalFieldLength ++
    writeMany FieldLength.write image.lengths ++ writeMany TermPostings.write image.terms

/-- What follows the header of a component. -/
inductive Payload where
  | groups (groups : List ValueGroup)
  | keys (groups : List PrefixGroup)
  | text (image : TextImage)

/-- A payload that the kind of its component admits. -/
def Payload.Canonical (kind nextDocId liveDocuments : ℤ) : Payload → Prop
  | groups gs => (kind = 1 ∨ kind = 2) ∧ gs.length ≤ MAX_COUNT ∧
      (∀ g ∈ gs, g.Canonical nextDocId) ∧
      gs.Pairwise fun g h => g.representative < h.representative
  | keys gs => kind = 3 ∧ gs.length ≤ MAX_COUNT ∧ (∀ g ∈ gs, g.Canonical nextDocId) ∧
      gs.Pairwise fun g h => g.key < h.key
  | text image => kind = 4 ∧ image.Canonical nextDocId liveDocuments

def Payload.write : Payload → Bytes
  | groups gs => writeMany ValueGroup.write gs
  | keys gs => writeMany PrefixGroup.write gs
  | text image => image.write

/-- The header of a component that both parsers take. -/
structure ComponentHeader.Admitted (authority : Authority) (expected : CatalogEntry)
    (h : ComponentHeader) : Prop where
  valid : h.Valid
  supported : h.format.Supported COMPONENT_MAGIC
  generator : h.identities.generator = GENERATOR_ID
  generatorVersion : h.identities.generatorVersion = GENERATOR_VERSION
  bound : h.Bound authority
  describes : h.Describes expected

/-! ### Sums -/

/-- `Math.addExact` on `int` and on `long`. -/
def addExact (width : ℕ) {ε : Type} (overflow : ε) (x y : ℤ) : Except ε ℤ :=
  if -2 ^ (8 * width - 1) ≤ x + y ∧ x + y < 2 ^ (8 * width - 1) then .ok (x + y)
  else .error overflow

theorem addExact_eq_ok {width : ℕ} {ε : Type} {overflow : ε} {x y z : ℤ} :
    addExact width overflow x y = .ok z ↔
      (-2 ^ (8 * width - 1) ≤ x + y ∧ x + y < 2 ^ (8 * width - 1)) ∧ z = x + y := by
  unfold addExact
  split
  · next h => simp [h, eq_comm]
  · next h => simp [h]

/-! ### Orders -/

section

variable {τ ι : Type} {Own : ι → Prop} {next : τ → ι → τ} {t : τ} {items : List ι}

/-- Keys from zero on in ascending order, after a last key of `-1`. -/
theorem takes_ascending {last : τ → ℤ} {key : ι → ℤ} (hown : ∀ i, Own i → 0 ≤ key i)
    (hnext : ∀ t i, last (next t i) = key i := by exact fun _ _ => rfl)
    (hstart : last t = -1 := by exact rfl) :
    Takes (fun t i => Own i ∧ last t < key i) next t items ↔
      (∀ i ∈ items, Own i) ∧ items.Pairwise fun i j => key i < key j := by
  refine (takes_iff_ordered (R := fun i j => key i < key j) ?_ ?_).trans ?_
  · exact fun t i j => by rw [hnext]
  · exact fun _ _ _ => lt_trans
  · refine and_congr_left' (forall₂_congr fun i _ => and_iff_left_of_imp fun hi => ?_)
    have := hown i hi
    omega

/-- Byte strings in ascending order, after none. -/
theorem takes_ascending_bytes {last : τ → Option Bytes} {key : ι → Bytes}
    (hnext : ∀ t i, last (next t i) = some (key i) := by exact fun _ _ => rfl)
    (hstart : last t = none := by exact rfl) :
    Takes (fun t i => Own i ∧ ∀ k ∈ last t, k < key i) next t items ↔
      (∀ i ∈ items, Own i) ∧ items.Pairwise fun i j => key i < key j := by
  refine (takes_iff_ordered (R := fun i j => key i < key j) ?_ ?_).trans ?_
  · exact fun t i j => by simp [hnext]
  · exact fun _ _ _ h hij k hk => List.lt_trans (h k hk) hij
  · simp [hstart]

end

/-- The second variable of a loop that only keeps a key in the first one. -/
theorem foldl_snd {α β ι : Type} (key : ι → α) (f : β → ι → β) (items : List ι) (t : α × β) :
    (items.foldl (fun t i => (key i, f t.2 i)) t).2 = items.foldl f t.2 := by
  induction items generalizing t with
  | nil => rfl
  | cons i items ih => exact ih _

/-! ### Dictionaries -/

section

variable {κ β ι : Type} [DecidableEq κ] {key : ι → κ} {value : ι → β} {items : List ι}

/-- The entries of a dictionary that some items with different keys are put into. -/
theorem entries_foldl_insert (hdistinct : items.Pairwise fun i j => key i ≠ key j) :
    (items.foldl (fun map i => map.insert (key i) (value i)) (∅ : JMap κ β)).entries =
      (items.map fun i => ⟨key i, value i⟩).reverse := by
  induction items using List.reverseRecOn with
  | nil => rfl
  | append_singleton items i ih =>
    obtain ⟨hbefore, -, hlast⟩ := List.pairwise_append.mp hdistinct
    have hfresh : key i ∉ items.foldl (fun map i => map.insert (key i) (value i))
        (∅ : JMap κ β) := by
      rw [AList.mem_keys, AList.keys, ih hbefore]
      simp only [List.keys, List.map_reverse, List.map_map, List.mem_reverse, List.mem_map]
      rintro ⟨j, hj, heq⟩
      exact hlast j hj i (List.mem_singleton_self i) heq
    rw [List.foldl_concat, AList.entries_insert_of_notMem hfresh, ih hbefore, List.map_append,
      List.reverse_append]
    rfl

theorem lookup_foldl_insert (hdistinct : items.Pairwise fun i j => key i ≠ key j) {k : κ} {b : β} :
    (items.foldl (fun map i => map.insert (key i) (value i)) (∅ : JMap κ β)).lookup k = some b ↔
      ∃ i ∈ items, key i = k ∧ value i = b := by
  rw [← Option.mem_def, AList.mem_lookup_iff, entries_foldl_insert hdistinct, List.mem_reverse,
    List.mem_map]
  constructor
  · rintro ⟨i, hi, heq⟩
    cases heq
    exact ⟨i, hi, rfl, rfl⟩
  · rintro ⟨i, hi, rfl, rfl⟩
    exact ⟨i, hi, rfl⟩

end

/-! ### Field lengths -/

/-- The variables of the loop over the field lengths. -/
structure LengthLoop where
  previousDoc : ℤ
  summedLength : ℤ
  lengthsByDocument : JMap ℤ ℤ

namespace LengthLoop

def start : LengthLoop := ⟨-1, 0, ∅⟩

def next (t : LengthLoop) (l : FieldLength) : LengthLoop :=
  ⟨l.docId, t.summedLength + l.length, t.lengthsByDocument.insert l.docId l.length⟩

/-- A length that can be added. -/
def Fits (t : LengthLoop) (l : FieldLength) : Prop :=
  -2 ^ (8 * 8 - 1) ≤ t.summedLength + l.length ∧ t.summedLength + l.length < 2 ^ (8 * 8 - 1)

theorem summedLength_foldl (lengths : List FieldLength) (t : LengthLoop) :
    (lengths.foldl next t).summedLength = t.summedLength + (lengths.map (·.length)).sum := by
  induction lengths generalizing t with
  | nil => simp
  | cons l lengths ih =>
    rw [List.foldl_cons, ih, List.map_cons, List.sum_cons, ← add_assoc]
    rfl

/-- Bounded counts leave no room for an overflow. -/
theorem takes_fits {Own : FieldLength → Prop} {lengths : List FieldLength}
    (hown : ∀ l, Own l → Signed 4 l.length ∧ 0 < l.length) {t : LengthLoop}
    (hnonneg : 0 ≤ t.summedLength)
    (hroom : t.summedLength + lengths.length * 2147483648 ≤ 9223372036854775807)
    (h : Takes (fun t l => Own l ∧ t.previousDoc < l.docId) next t lengths) :
    Takes (fun t l => (Own l ∧ t.previousDoc < l.docId) ∧ t.Fits l) next t lengths := by
  induction lengths generalizing t with
  | nil => trivial
  | cons l lengths ih =>
    obtain ⟨hsigned, hpositive⟩ := hown l h.1.1
    have hlt := (signed_four.mp hsigned).2
    rw [List.length_cons] at hroom
    have hsum : (t.next l).summedLength = t.summedLength + l.length := rfl
    refine ⟨⟨h.1, by unfold Fits; omega⟩, ih (by omega) (by omega) h.2⟩

theorem takes_iff {Own : FieldLength → Prop} {lengths : List FieldLength}
    (hown : ∀ l, Own l → 0 ≤ l.docId ∧ Signed 4 l.length ∧ 0 < l.length)
    (hcount : lengths.length ≤ MAX_COUNT) :
    Takes (fun t l => (Own l ∧ t.previousDoc < l.docId) ∧ t.Fits l) next start lengths ↔
      (∀ l ∈ lengths, Own l) ∧ lengths.Pairwise fun l m => l.docId < m.docId := by
  have hordered : Takes (fun t l => Own l ∧ t.previousDoc < l.docId) next start lengths ↔
      (∀ l ∈ lengths, Own l ∧ -1 < l.docId) ∧ lengths.Pairwise fun l m => l.docId < m.docId := by
    refine takes_iff_ordered ?_ ?_
    · exact fun _ _ _ => .rfl
    · exact fun _ _ _ => lt_trans
  constructor
  · intro h
    have hplain : Takes (fun t l => Own l ∧ t.previousDoc < l.docId) next start lengths := by
      refine Takes.simulate ?_ (Eq.refl start) h
      rintro t _ l rfl hfine
      exact ⟨hfine.1, rfl⟩
    exact (hordered.mp hplain).imp_left fun hall l hl => (hall l hl).1
  · rintro ⟨hall, hascending⟩
    have hroom : start.summedLength + lengths.length * 2147483648 ≤ 9223372036854775807 := by
      have : lengths.length ≤ 100000000 := hcount
      have hzero : start.summedLength = 0 := rfl
      omega
    refine takes_fits (fun l hl => (hown l hl).2) le_rfl hroom
      (hordered.mpr ⟨fun l hl => ?_, hascending⟩)
    have := (hown l (hall l hl)).1
    exact ⟨hall l hl, by omega⟩

theorem lengthsByDocument_foldl (lengths : List FieldLength) (t : LengthLoop) :
    (lengths.foldl next t).lengthsByDocument =
      lengths.foldl (fun map l => map.insert l.docId l.length) t.lengthsByDocument := by
  induction lengths generalizing t with
  | nil => rfl
  | cons l lengths ih => exact ih (t.next l)

theorem lookup_foldl {lengths : List FieldLength}
    (hascending : lengths.Pairwise fun l m => l.docId < m.docId) (d n : ℤ) :
    (lengths.foldl next start).lengthsByDocument.lookup d = some n ↔ ⟨d, n⟩ ∈ lengths := by
  rw [lengthsByDocument_foldl, show start.lengthsByDocument = ∅ from rfl,
    lookup_foldl_insert (hascending.imp ne_of_lt)]
  constructor
  · rintro ⟨⟨_, _⟩, hmem, rfl, rfl⟩
    exact hmem
  · exact fun hmem => ⟨_, hmem, rfl, rfl⟩

end LengthLoop

/-! ### Members -/

section

variable (crc32c : Bytes → BitVec 32) (sha256 : Bytes → BitVec 256)

/-- `finishMember`: the content, its identity under the domain, and the checksum of both. -/
def finishMember (content domain : Bytes) : Bytes :=
  let complete := content ++ Decoder.writeBits 32 (sha256 (domain ++ content))
  complete ++ Decoder.writeBits 4 (crc32c complete)

theorem length_finishMember (content domain : Bytes) :
    (finishMember crc32c sha256 content domain).length = content.length + 36 := by
  simp [finishMember]

end

end GeneralSearch.Derived
