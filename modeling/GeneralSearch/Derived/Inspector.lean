import GeneralSearch.Derived.Payload
import GeneralSearch.Index.Equality

/-! `DurableDerivedStateInspector`: its parser reads a member as a stream and keeps the checksum and
the digest of what it has read. -/

namespace GeneralSearch.Derived.Inspector

open GeneralSearch.Parser
open GeneralSearch.Utf8 (JavaString WellFormed)
open GeneralSearch.Index (JMap)

/-- What the parser throws: a `ParseFailure`, whose two statuses are always those of one name, an
`EOFException`, or an `ArithmeticException` or `IllegalArgumentException`. -/
inductive Thrown where
  | failure (status : DurableDerivedStateStatus) (code detail : String)
  | eof
  | runtime

def stale : String → String → Thrown := .failure .stale

def incompatible : String → String → Thrown := .failure .incompatible

def incomplete : String → String → Thrown := .failure .incomplete

def corrupt : String → String → Thrown := .failure .corrupt

/-! ### The cursor -/

/-- `Cursor`: the unread bytes of the channel, and the bytes that the `CRC32C` and the
`MessageDigest` have been updated with. -/
structure Stream where
  unread : Bytes
  crc : Bytes
  digest : Bytes

/-- Reading a field, which updates both. -/
instance : Tape Stream where
  Reads s w s' := s.unread = w ++ s'.unread ∧ s'.crc = s.crc ++ w ∧ s'.digest = s.digest ++ w
  reads_nil {s s'} := by
    obtain ⟨unread, crc, digest⟩ := s
    obtain ⟨unread', crc', digest'⟩ := s'
    simp only [List.nil_append, List.append_nil, Stream.mk.injEq]
    exact and_congr_left' eq_comm
  reads_append {s s' v w} := by
    constructor
    · rintro ⟨hunread, hcrc, hdigest⟩
      exact ⟨⟨w ++ s'.unread, s.crc ++ v, s.digest ++ v⟩, ⟨by simpa using hunread, rfl, rfl⟩, rfl,
        by simpa using hcrc, by simpa using hdigest⟩
    · rintro ⟨mid, ⟨hunread, hcrc, hdigest⟩, hunread', hcrc', hdigest'⟩
      exact ⟨by simp [hunread, hunread'], by simp [hcrc', hcrc], by simp [hdigest', hdigest]⟩

/-- `Cursor.bytes`, which updates the checksum and the digest that it is given. -/
def bytes (length : ℕ) (crc digest : Bool) : Parser Stream Thrown Bytes := fun s =>
  if length ≤ s.unread.length then
    let result := s.unread.take length
    .ok (result, ⟨s.unread.drop length, if crc then s.crc ++ result else s.crc,
      if digest then s.digest ++ result else s.digest⟩)
  else .error .eof

theorem bytes_eq_ok {length : ℕ} {crc digest : Bool} {s : Stream} {r : Bytes × Stream} :
    bytes length crc digest s = .ok r ↔ r.1.length = length ∧ s.unread = r.1 ++ r.2.unread ∧
      r.2.crc = (if crc then s.crc ++ r.1 else s.crc) ∧
      r.2.digest = if digest then s.digest ++ r.1 else s.digest := by
  obtain ⟨b, unread, crc', digest'⟩ := r
  unfold bytes
  split
  · next hle =>
    constructor
    · rintro ⟨⟩
      exact ⟨List.length_take_of_le hle, (List.take_append_drop length _).symm, rfl, rfl⟩
    · rintro ⟨rfl, hunread, hcrc, hdigest⟩
      simp only at hunread hcrc hdigest
      simp [hunread, hcrc, hdigest]
  · next hlt =>
    refine iff_of_false nofun ?_
    rintro ⟨rfl, hunread, -⟩
    exact hlt (by simp [hunread])

theorem exact_bytes (length : ℕ) :
    Exact (bytes length true true) fun b w => b.length = length ∧ w = b := by
  intro s b s'
  rw [bytes_eq_ok]
  constructor
  · rintro ⟨hlength, hunread, hcrc, hdigest⟩
    exact ⟨b, ⟨hlength, rfl⟩, hunread, hcrc, hdigest⟩
  · rintro ⟨_, ⟨hlength, rfl⟩, hunread, hcrc, hdigest⟩
    exact ⟨hlength, hunread, hcrc, hdigest⟩

def cursor : Cursor Stream Thrown where
  bytes length := bytes length true true
  exact_bytes := exact_bytes

def malformed : Thrown := corrupt "UTF8_ENCODING" "string is not strict UTF-8"

/-- `Cursor.utf8Bytes`. -/
def utf8Bytes (maximum : ℕ) (allowEmpty : Bool) : Parser Stream Thrown Bytes := do
  let result ← cursor.block maximum allowEmpty
    (corrupt "STRING_LENGTH" "bounded string length is invalid")
  let _ ← liftM (decodeUtf8 malformed result)
  return result

/-- `Cursor.string`. -/
def string (maximum : ℕ) (allowEmpty : Bool) : Parser Stream Thrown JavaString := do
  let encoded ← utf8Bytes maximum allowEmpty
  liftM (decodeUtf8 malformed encoded)

theorem exact_utf8Bytes {maximum : ℕ} (hmaximum : maximum < 2147483648) (allowEmpty : Bool) :
    Exact (utf8Bytes maximum allowEmpty) fun b w =>
      (Bounded maximum allowEmpty b ∧ (Utf8.decode b).isSome) ∧ w = writeBlock b := by
  refine ((exact_block cursor hmaximum allowEmpty _).field fun b _ =>
    .lift fun value _ => exact_pure b).congr fun b w => ?_
  constructor
  · rintro ⟨_, hbounded, _, ⟨value, hvalue, rfl, rfl⟩, rfl⟩
    rw [decodeUtf8_eq_ok, ← decode_eq_some] at hvalue
    exact ⟨⟨hbounded, by rw [hvalue, Option.isSome_some]⟩, List.append_nil _⟩
  · rintro ⟨⟨hbounded, hstrict⟩, rfl⟩
    obtain ⟨value, hvalue⟩ := Option.isSome_iff_exists.mp hstrict
    rw [decode_eq_some, ← @decodeUtf8_eq_ok _ malformed] at hvalue
    exact ⟨b, hbounded, [], ⟨value, hvalue, rfl, rfl⟩, (List.append_nil _).symm⟩

theorem exact_string {maximum : ℕ} (hmaximum : maximum < 2147483648) (allowEmpty : Bool) :
    Exact (string maximum allowEmpty) fun value w =>
      Spelled maximum allowEmpty value ∧ w = writeString value := by
  refine ((exact_utf8Bytes hmaximum allowEmpty).field fun b _ =>
    exact_lift (decodeUtf8 malformed b)).congr fun value w => ?_
  constructor
  · rintro ⟨_, ⟨hbounded, -⟩, _, ⟨hvalue, rfl⟩, rfl⟩
    obtain ⟨hwf, rfl⟩ := decodeUtf8_eq_ok.mp hvalue
    exact ⟨⟨hwf, hbounded⟩, List.append_nil _⟩
  · rintro ⟨⟨hwf, hbounded⟩, rfl⟩
    have hvalue := decode_eq_some.mpr ⟨hwf, rfl⟩
    exact ⟨_, ⟨hbounded, by rw [hvalue, Option.isSome_some]⟩, [],
      ⟨decodeUtf8_eq_ok.mpr ⟨hwf, rfl⟩, rfl⟩, (List.append_nil _).symm⟩

def reader : Reader Stream Thrown where
  toCursor := cursor
  string := string
  exact_string _ allowEmpty hmaximum := exact_string hmaximum allowEmpty

/-- `count`. -/
def count (name : String) : Parser Stream Thrown ℤ :=
  cursor.count MAX_COUNT (corrupt "COMPONENT_COUNT" (name ++ " is outside its bound"))

/-! ### Bitmaps -/

/-- One turn of the loop in `bitmap`, with the previous value and the values so far. -/
def bitmapStep (nextDocId : ℤ) (t : ℤ × List ℤ) : Parser Stream Thrown (ℤ × List ℤ) := do
  let value ← cursor.signed 4
  refuse (value ≤ t.1 ∨ value < 0 ∨ value ≥ nextDocId)
    (corrupt "BITMAP_ORDER" "bitmap document IDs are not canonical")
  return (value, t.2 ++ [value])

/-- `bitmap`. -/
def bitmap (nextDocId : ℤ) : Parser Stream Thrown (List ℤ) := do
  let count ← count "bitmap count"
  let t ← loop (bitmapStep nextDocId) count.toNat (-1, [])
  return t.2

theorem exact_bitmapStep (nextDocId : ℤ) (t : ℤ × List ℤ) :
    Exact (bitmapStep nextDocId t) fun t' w => ∃ id, (DocId nextDocId id ∧ t.1 < id) ∧
      t' = (id, t.2 ++ [id]) ∧ w = writeSigned 4 id := by
  refine Exact.congr (.field (exact_signed cursor 4) fun _ _ => .check fun _ => exact_pure _)
    fun t' w => ?_
  constructor
  · rintro ⟨id, hsigned, _, ⟨hcheck, rfl, rfl⟩, rfl⟩
    exact ⟨id, ⟨⟨hsigned, by omega, by omega⟩, by omega⟩, rfl, List.append_nil _⟩
  · rintro ⟨id, ⟨⟨hsigned, hnonneg, hlt⟩, hafter⟩, rfl, rfl⟩
    exact ⟨id, hsigned, [], ⟨by omega, rfl, rfl⟩, (List.append_nil _).symm⟩

theorem foldl_bitmapStep (ids : List ℤ) (t : ℤ × List ℤ) :
    (ids.foldl (fun t id => (id, t.2 ++ [id])) t).2 = t.2 ++ ids := by
  induction ids generalizing t with
  | nil => exact (List.append_nil _).symm
  | cons id ids ih => rw [List.foldl_cons, ih, List.append_assoc, List.singleton_append]

theorem exact_bitmap (nextDocId : ℤ) :
    Exact (bitmap nextDocId) fun ids w => Bitmap nextDocId ids ∧ w = writeBitmap ids := by
  refine (Exact.counted (by decide) (exact_bitmapStep nextDocId) fun _ _ _ => exact_pure _).congr
    fun ids w => ?_
  constructor
  · rintro ⟨ids, hcount, htakes, _, ⟨rfl, rfl⟩, rfl⟩
    obtain ⟨hids, hascending⟩ := (takes_ascending fun i hi => hi.nonneg).mp htakes
    rw [foldl_bitmapStep, List.nil_append, List.append_nil]
    exact ⟨⟨hcount, hids, hascending⟩, rfl⟩
  · rintro ⟨⟨hcount, hids, hascending⟩, rfl⟩
    exact ⟨ids, hcount, (takes_ascending fun i hi => hi.nonneg).mpr
      ⟨hids, hascending⟩, [], ⟨by rw [foldl_bitmapStep]; rfl, rfl⟩, (List.append_nil _).symm⟩

/-! ### Payloads -/

/-- One turn of the loop over the value groups, with the previous representative. -/
def valueGroupStep (nextDocId previousRepresentative : ℤ) : Parser Stream Thrown ℤ := do
  let representative ← cursor.signed 4
  refuse (representative ≤ previousRepresentative ∨ representative < 0 ∨
    representative ≥ nextDocId)
    (corrupt "VALUE_GROUP_ORDER" "value-group representatives are not canonical")
  let ids ← bitmap nextDocId
  refuse (representative ∉ ids)
    (corrupt "VALUE_GROUP_REPRESENTATIVE" "representative does not belong to its bitmap")
  return representative

/-- One turn of the loop over the prefix keys, with the previous key. -/
def prefixKeyStep (nextDocId : ℤ) (previous : Option Bytes) :
    Parser Stream Thrown (Option Bytes) := do
  let encoded ← utf8Bytes MAX_STRING_BYTES false
  refuse (∃ key ∈ previous, ¬ key < encoded)
    (corrupt "PREFIX_KEY_ORDER" "prefix keys are not in canonical UTF-8 order")
  let _ ← bitmap nextDocId
  return some encoded

/-- One turn of the loop over the field lengths. -/
def fieldLengthStep (nextDocId : ℤ) (t : LengthLoop) : Parser Stream Thrown LengthLoop := do
  let doc ← cursor.signed 4
  let length ← cursor.signed 4
  refuse (doc ≤ t.previousDoc ∨ doc < 0 ∨ doc ≥ nextDocId ∨ length ≤ 0)
    (corrupt "TEXT_FIELD_LENGTH_ORDER" "text field lengths are invalid or non-canonical")
  let summedLength ← liftM (addExact 8 Thrown.runtime t.summedLength length)
  return ⟨doc, summedLength, t.lengthsByDocument.insert doc length⟩

/-- One turn of the loop over the positions, with the previous position. -/
def positionStep (fieldLength previousPosition : ℤ) : Parser Stream Thrown ℤ := do
  let value ← cursor.signed 4
  refuse (value ≤ previousPosition ∨ value < 0 ∨ value ≥ fieldLength)
    (corrupt "TEXT_POSITION_ORDER" "posting positions are not canonical")
  return value

/-- One turn of the loop over the postings, with the previous document. -/
def postingStep (nextDocId : ℤ) (lengthsByDocument : JMap ℤ ℤ) (previousDoc : ℤ) :
    Parser Stream Thrown ℤ := do
  let doc ← cursor.signed 4
  refuse (doc ≤ previousDoc ∨ doc < 0 ∨ doc ≥ nextDocId)
    (corrupt "TEXT_POSTING_ORDER" "posting document IDs are not canonical")
  let positions ← count "position count"
  refuse (positions = 0 ∨ lengthsByDocument.lookup doc = none)
    (corrupt "TEXT_POSITION_COUNT" "posting positions are absent or unbound")
  let fieldLength := (lengthsByDocument.lookup doc).getD 0
  let _ ← loop (positionStep fieldLength) positions.toNat (-1)
  return doc

/-- One turn of the loop over the terms, with the previous term. -/
def termStep (nextDocId : ℤ) (lengthsByDocument : JMap ℤ ℤ) (previousTerm : Option Bytes) :
    Parser Stream Thrown (Option Bytes) := do
  let encoded ← utf8Bytes MAX_STRING_BYTES false
  refuse (∃ term ∈ previousTerm, ¬ term < encoded)
    (corrupt "TEXT_TERM_ORDER" "terms are not in canonical UTF-8 order")
  let frequency ← count "document frequency"
  let postings ← count "posting count"
  refuse (frequency = 0 ∨ frequency ≠ postings)
    (corrupt "TEXT_DOCUMENT_FREQUENCY" "document frequency differs from posting count")
  let _ ← loop (postingStep nextDocId lengthsByDocument) postings.toNat (-1)
  return some encoded

/-- `parsePayload`. -/
def parsePayload (kind nextDocId liveDocuments : ℤ) : Parser Stream Thrown Unit :=
  if kind = 1 ∨ kind = 2 then do
    let groups ← count "value-group count"
    let _ ← loop (valueGroupStep nextDocId) groups.toNat (-1)
    return ()
  else if kind = 3 then do
    let keys ← count "prefix-key count"
    let _ ← loop (prefixKeyStep nextDocId) keys.toNat none
    return ()
  else if kind = 4 then do
    let documentCount ← cursor.signed 4
    let totalFieldLength ← cursor.signed 8
    refuse (documentCount < 0 ∨ documentCount > liveDocuments ∨ totalFieldLength < 0)
      (corrupt "TEXT_STATISTICS" "text document statistics are invalid")
    let fieldLengths ← count "field-length count"
    let t ← loop (fieldLengthStep nextDocId) fieldLengths.toNat .start
    refuse (fieldLengths ≠ documentCount ∨ t.summedLength ≠ totalFieldLength)
      (corrupt "TEXT_FIELD_LENGTH_TOTAL" "text field-length statistics disagree")
    let terms ← count "term count"
    let _ ← loop (termStep nextDocId t.lengthsByDocument) terms.toNat none
    return ()
  else throw (incompatible "COMPONENT_KIND" "component kind is unsupported")

theorem exact_valueGroupStep (nextDocId previous : ℤ) :
    Exact (valueGroupStep nextDocId previous) fun t' w =>
      ∃ g : ValueGroup, (g.Canonical nextDocId ∧ previous < g.representative) ∧
        t' = g.representative ∧ w = g.write := by
  refine Exact.congr (.field (exact_signed cursor 4) fun _ _ => .check fun _ =>
    .field (exact_bitmap nextDocId) fun _ _ => .check fun _ => exact_pure _) fun t' w => ?_
  constructor
  · rintro ⟨_, -, _, ⟨horder, ids, hids, _, ⟨hmem, rfl, rfl⟩, rfl⟩, rfl⟩
    refine ⟨⟨_, ids⟩, ⟨⟨hids, not_not.mp hmem⟩, ?_⟩, rfl, ?_⟩
    · exact not_le.mp fun h => horder (.inl h)
    · rw [List.append_nil, ValueGroup.write]
  · rintro ⟨g, ⟨⟨hids, hmem⟩, hafter⟩, rfl, rfl⟩
    have hdoc := hids.docIds _ hmem
    refine ⟨_, hdoc.signed, _, ⟨?_, _, hids, [], ⟨not_not.mpr hmem, rfl, rfl⟩, rfl⟩, ?_⟩
    · rintro (h | h | h)
      · exact absurd hafter (not_lt.mpr h)
      · exact absurd hdoc.nonneg (not_le.mpr h)
      · exact absurd hdoc.lt (not_lt.mpr h)
    · rw [List.append_nil, ValueGroup.write]

theorem exact_prefixKeyStep (nextDocId : ℤ) (previous : Option Bytes) :
    Exact (prefixKeyStep nextDocId previous) fun t' w =>
      ∃ g : PrefixGroup, (g.Canonical nextDocId ∧ ∀ key ∈ previous, key < g.key) ∧
        t' = some g.key ∧ w = g.write := by
  refine Exact.congr (.field (exact_utf8Bytes (by decide) false) fun _ _ => .check fun _ =>
    .field (exact_bitmap nextDocId) fun _ _ => exact_pure _) fun t' w => ?_
  constructor
  · rintro ⟨key, ⟨hbounded, hstrict⟩, _, ⟨horder, ids, hids, _, ⟨rfl, rfl⟩, rfl⟩, rfl⟩
    refine ⟨⟨key, ids⟩, ⟨⟨hbounded, hstrict, hids⟩, ?_⟩, rfl, ?_⟩
    · exact fun k hk => not_not.mp fun h => horder ⟨k, hk, h⟩
    · rw [List.append_nil, PrefixGroup.write]
  · rintro ⟨g, ⟨⟨hbounded, hstrict, hids⟩, hafter⟩, rfl, rfl⟩
    refine ⟨_, ⟨hbounded, hstrict⟩, _, ⟨?_, _, hids, [], ⟨rfl, rfl⟩, rfl⟩, ?_⟩
    · rintro ⟨k, hk, h⟩
      exact h (hafter k hk)
    · rw [List.append_nil, PrefixGroup.write]

theorem exact_fieldLengthStep (nextDocId : ℤ) (t : LengthLoop) :
    Exact (fieldLengthStep nextDocId t) fun t' w => ∃ l : FieldLength,
      ((l.Canonical nextDocId ∧ t.previousDoc < l.docId) ∧ t.Fits l) ∧ t' = t.next l ∧
        w = l.write := by
  refine Exact.congr (.field (exact_signed cursor 4) fun _ _ => .field (exact_signed cursor 4)
    fun _ _ => .check fun _ => .lift fun _ _ => exact_pure _) fun t' w => ?_
  constructor
  · rintro ⟨doc, hdoc, _, ⟨length, hlength, _, ⟨hcheck, _, hadd, rfl, rfl⟩, rfl⟩, rfl⟩
    obtain ⟨hfits, rfl⟩ := addExact_eq_ok.mp hadd
    refine ⟨⟨doc, length⟩, ⟨⟨⟨⟨hdoc, ?_, ?_⟩, hlength, ?_⟩, ?_⟩, hfits⟩, rfl, ?_⟩
    · exact not_lt.mp fun h => hcheck (.inr (.inl h))
    · exact not_le.mp fun h => hcheck (.inr (.inr (.inl h)))
    · exact not_le.mp fun h => hcheck (.inr (.inr (.inr h)))
    · exact not_le.mp fun h => hcheck (.inl h)
    · rw [List.append_nil, FieldLength.write]
  · rintro ⟨l, ⟨⟨⟨hdoc, hlength, hpositive⟩, hafter⟩, hfits⟩, rfl, rfl⟩
    refine ⟨_, hdoc.signed, _, ⟨_, hlength, [], ⟨?_, _, addExact_eq_ok.mpr ⟨hfits, rfl⟩, rfl, rfl⟩,
      rfl⟩, ?_⟩
    · have hnonneg := hdoc.nonneg
      have hlt := hdoc.lt
      omega
    · rw [List.append_nil, FieldLength.write]

theorem exact_positionStep (fieldLength previous : ℤ) :
    Exact (positionStep fieldLength previous) fun t' w => ∃ position,
      ((Signed 4 position ∧ 0 ≤ position ∧ position < fieldLength) ∧ previous < position) ∧
        t' = position ∧ w = writeSigned 4 position := by
  refine Exact.congr (.field (exact_signed cursor 4) fun _ _ => .check fun _ => exact_pure _)
    fun t' w => ?_
  constructor
  · rintro ⟨position, hsigned, _, ⟨hcheck, rfl, rfl⟩, rfl⟩
    exact ⟨_, ⟨⟨hsigned, by omega, by omega⟩, by omega⟩, rfl, List.append_nil _⟩
  · rintro ⟨position, ⟨⟨hsigned, hnonneg, hlt⟩, hafter⟩, rfl, rfl⟩
    exact ⟨_, hsigned, [], ⟨by omega, rfl, rfl⟩, (List.append_nil _).symm⟩

section

variable {nextDocId : ℤ} {lengths : List FieldLength} {lengthsByDocument : JMap ℤ ℤ}
variable (hlookup : ∀ d n, lengthsByDocument.lookup d = some n ↔ ⟨d, n⟩ ∈ lengths)

include hlookup

theorem exact_postingStep (previous : ℤ) :
    Exact (postingStep nextDocId lengthsByDocument previous) fun t' w => ∃ p : Posting,
      (p.Canonical nextDocId lengths ∧ previous < p.docId) ∧ t' = p.docId ∧ w = p.write := by
  refine Exact.congr (.field (exact_signed cursor 4) fun _ _ => .check fun _ =>
    .field (exact_count cursor (by decide) _) fun _ hn => .check fun _ =>
    .loop (exact_positionStep _) hn.1 fun _ _ _ => exact_pure _) fun t' w => ?_
  constructor
  · rintro ⟨_, hsigned, _, ⟨horder, _, hcount, _, ⟨hcheck, positions, rfl, htakes, _, ⟨rfl, rfl⟩,
      rfl⟩, rfl⟩, rfl⟩
    obtain ⟨length, hlength⟩ := Option.ne_none_iff_exists'.mp fun h => hcheck (.inr h)
    rw [hlength, Option.getD_some] at htakes
    obtain ⟨hall, hascending⟩ := (takes_ascending fun i hi => hi.2.1).mp htakes
    have hdoc : DocId nextDocId t' := ⟨hsigned, by omega, by omega⟩
    have hafter : previous < t' := by omega
    have hle : positions.length ≤ MAX_COUNT := by omega
    refine ⟨⟨_, positions⟩, ⟨⟨hdoc, hle, ?_, fun p hp => (hall p hp).1,
      ⟨length, (hlookup _ _).mp hlength, fun p hp => (hall p hp).2⟩, hascending⟩, hafter⟩, rfl, ?_⟩
    · rintro rfl
      exact hcheck (.inl rfl)
    · simp [Posting.write, writeMany]
  · rintro ⟨p, ⟨h, hafter⟩, rfl, rfl⟩
    have hdoc := h.docId
    obtain ⟨length, hlength, hwithin⟩ := h.within
    rw [← hlookup] at hlength
    have hcount := h.count
    have hpositive := List.length_pos_iff.mpr h.nonempty
    refine ⟨_, hdoc.signed, _, ⟨?_, (p.positions.length : ℕ), ⟨by omega, by omega⟩, _,
      ⟨?_, p.positions, rfl, ?_, [], ⟨rfl, rfl⟩, rfl⟩, rfl⟩, ?_⟩
    · have hnonneg := hdoc.nonneg
      have hlt := hdoc.lt
      omega
    · rw [hlength]
      rintro (h | h)
      · omega
      · cases h
    · rw [hlength, Option.getD_some]
      exact (takes_ascending fun i hi => hi.2.1).mpr
        ⟨fun q hq => ⟨h.signed q hq, hwithin q hq⟩, h.ascending⟩
    · simp [Posting.write, writeMany]

theorem exact_termStep (previous : Option Bytes) :
    Exact (termStep nextDocId lengthsByDocument previous) fun t' w => ∃ t : TermPostings,
      (t.Canonical nextDocId lengths ∧ ∀ term ∈ previous, term < t.term) ∧ t' = some t.term ∧
        w = t.write := by
  refine Exact.congr (.field (exact_utf8Bytes (by decide) false) fun _ _ => .check fun _ =>
    .field (exact_count cursor (by decide) _) fun _ _ =>
    .field (exact_count cursor (by decide) _) fun _ hn => .check fun _ =>
    .loop (exact_postingStep hlookup) hn.1 fun _ _ _ => exact_pure _) fun t' w => ?_
  constructor
  · rintro ⟨term, ⟨hbounded, hstrict⟩, _, ⟨horder, frequency, hfrequency, _, ⟨_, hcount, _,
      ⟨hcheck, postings, rfl, htakes, _, ⟨rfl, rfl⟩, rfl⟩, rfl⟩, rfl⟩, rfl⟩
    obtain ⟨hall, hascending⟩ := (takes_ascending fun p hp => hp.docId.nonneg).mp htakes
    obtain rfl : frequency = (postings.length : ℕ) := not_not.mp fun h => hcheck (.inr h)
    have hle : postings.length ≤ MAX_COUNT := by omega
    refine ⟨⟨term, postings⟩, ⟨⟨hbounded, hstrict, hle, ?_, hall, hascending⟩,
      fun k hk => not_not.mp fun h => horder ⟨k, hk, h⟩⟩, rfl, ?_⟩
    · rintro rfl
      exact hcheck (.inl rfl)
    · simp [TermPostings.write, writeMany]
  · rintro ⟨t, ⟨h, hafter⟩, rfl, rfl⟩
    have hcount := h.count
    have hpositive := List.length_pos_iff.mpr h.nonempty
    refine ⟨_, ⟨h.bounded, h.strict⟩, _, ⟨?_, (t.postings.length : ℕ), ⟨by omega, by omega⟩, _,
      ⟨(t.postings.length : ℕ), ⟨by omega, by omega⟩, _, ⟨by omega, t.postings, rfl,
      (takes_ascending fun p hp => hp.docId.nonneg).mpr ⟨h.postings, h.ascending⟩, [], ⟨rfl, rfl⟩,
      rfl⟩, rfl⟩, rfl⟩, ?_⟩
    · rintro ⟨k, hk, hle⟩
      exact hle (hafter k hk)
    · simp [TermPostings.write, writeMany]

end

theorem exact_text (nextDocId liveDocuments : ℤ) :
    Exact (parsePayload 4 nextDocId liveDocuments) fun _ w => ∃ image : TextImage,
      image.Canonical nextDocId liveDocuments ∧ w = image.write := by
  have hown : ∀ l : FieldLength, l.Canonical nextDocId →
      0 ≤ l.docId ∧ Signed 4 l.length ∧ 0 < l.length :=
    fun l hl => ⟨hl.docId.nonneg, hl.signed, hl.positive⟩
  refine Exact.congr (.field (exact_signed cursor 4) fun _ _ => .field (exact_signed cursor 8)
    fun _ _ => .check fun _ => .counted (by decide) (exact_fieldLengthStep nextDocId)
    fun lengths hcount htakes => .check fun _ => .counted (by decide)
    (exact_termStep (LengthLoop.lookup_foldl ((LengthLoop.takes_iff hown hcount).mp htakes).2))
    fun _ _ _ => exact_pure _) fun t' w => ?_
  constructor
  · rintro ⟨documentCount, -, _, ⟨total, -, _, ⟨hstatistics, lengths, hcount, hlengths, _, ⟨htotal,
      terms, htermCount, hterms, _, ⟨-, rfl⟩, rfl⟩, rfl⟩, rfl⟩, rfl⟩
    obtain ⟨hall, hascending⟩ := (LengthLoop.takes_iff hown hcount).mp hlengths
    obtain ⟨hallTerms, htermsAscending⟩ := (takes_ascending_bytes).mp hterms
    obtain ⟨hdocuments, hsum⟩ := not_or.mp htotal
    obtain rfl := not_not.mp hdocuments
    obtain rfl := not_not.mp hsum
    refine ⟨⟨lengths, terms⟩, ⟨?_, hcount, hall, hascending, htermCount, hallTerms,
      htermsAscending⟩, ?_⟩
    · exact not_lt.mp fun h => hstatistics (.inr (.inl h))
    · rw [LengthLoop.summedLength_foldl, TextImage.write, TextImage.totalFieldLength]
      simp [LengthLoop.start]
  · rintro ⟨image, h, rfl⟩
    have hsum : (image.lengths.foldl LengthLoop.next .start).summedLength =
        image.totalFieldLength := by
      rw [LengthLoop.summedLength_foldl, TextImage.totalFieldLength]
      exact zero_add _
    have htotal := h.totalFieldLength
    have hdocuments := h.documents
    have hcount : image.lengths.length ≤ 100000000 := h.count
    refine ⟨(image.lengths.length : ℕ), signed_four.mpr (by omega), _, ⟨image.totalFieldLength,
      signed_eight.mpr (by omega), _, ⟨by omega, image.lengths, h.count,
      (LengthLoop.takes_iff hown h.count).mpr ⟨h.lengths, h.lengthsAscending⟩, _, ⟨?_, image.terms,
      h.termCount, (takes_ascending_bytes).mpr ⟨h.terms, h.termsAscending⟩, [], ⟨rfl, rfl⟩, rfl⟩,
      rfl⟩, rfl⟩, ?_⟩
    · rw [hsum]
      exact not_or_intro (not_not.mpr rfl) (not_not.mpr rfl)
    · simp [TextImage.write]

/-- The parser accepts the canonical payloads. -/
theorem exact_parsePayload (kind nextDocId liveDocuments : ℤ) :
    Exact (parsePayload kind nextDocId liveDocuments) fun _ w => ∃ p : Payload,
      p.Canonical kind nextDocId liveDocuments ∧ w = p.write := by
  by_cases hgroups : kind = 1 ∨ kind = 2
  · rw [parsePayload, if_pos hgroups]
    refine Exact.congr (.counted (by decide) (exact_valueGroupStep nextDocId)
      fun _ _ _ => exact_pure _) fun t' w => ?_
    constructor
    · rintro ⟨groups, hcount, htakes, _, ⟨-, rfl⟩, rfl⟩
      exact ⟨.groups groups, ⟨hgroups, hcount, (takes_ascending fun g hg =>
        (hg.bitmap.docIds _ hg.representative).nonneg).mp htakes⟩, List.append_nil _⟩
    · rintro ⟨groups | groups | image, h, rfl⟩
      · obtain ⟨-, hcount, htakes⟩ := h
        exact ⟨groups, hcount, (takes_ascending fun g hg =>
          (hg.bitmap.docIds _ hg.representative).nonneg).mpr htakes, [], ⟨rfl, rfl⟩,
          (List.append_nil _).symm⟩
      · exact absurd h.1 (by omega)
      · exact absurd h.1 (by omega)
  by_cases hkeys : kind = 3
  · rw [parsePayload, if_neg hgroups, if_pos hkeys]
    refine Exact.congr (.counted (by decide) (exact_prefixKeyStep nextDocId)
      fun _ _ _ => exact_pure _) fun t' w => ?_
    constructor
    · rintro ⟨groups, hcount, htakes, _, ⟨-, rfl⟩, rfl⟩
      exact ⟨.keys groups, ⟨hkeys, hcount, (takes_ascending_bytes).mp htakes⟩, List.append_nil _⟩
    · rintro ⟨groups | groups | image, h, rfl⟩
      · exact absurd h.1 hgroups
      · obtain ⟨-, hcount, htakes⟩ := h
        exact ⟨groups, hcount, (takes_ascending_bytes).mpr htakes, [], ⟨rfl, rfl⟩,
          (List.append_nil _).symm⟩
      · exact absurd h.1 (by omega)
  by_cases htext : kind = 4
  · subst htext
    refine (exact_text nextDocId liveDocuments).congr fun _ w => ?_
    constructor
    · rintro ⟨image, h, rfl⟩
      exact ⟨.text image, ⟨rfl, h⟩, rfl⟩
    · rintro ⟨groups | groups | image, h, rfl⟩
      · exact absurd h.1 hgroups
      · exact absurd h.1 hkeys
      · exact ⟨image, h.2, rfl⟩
  · rw [parsePayload, if_neg hgroups, if_neg hkeys, if_neg htext]
    refine (exact_throw _).congr fun _ w => ?_
    refine iff_of_false id ?_
    rintro ⟨groups | groups | image, h, -⟩
    · exact hgroups h.1
    · exact hkeys h.1
    · exact htext h.1

/-! ### Members -/

/-- What the parser of a member returns when its stream fails: the catch clauses around it. -/
def classify {α : Type} (truncated structured : Thrown) : Except Thrown α → Except Thrown α
  | .error .eof => .error truncated
  | .error .runtime => .error structured
  | result => result

theorem classify_eq_ok {α : Type} {truncated structured : Thrown} {x : Except Thrown α} {a : α} :
    classify truncated structured x = .ok a ↔ x = .ok a := by
  cases x with
  | ok b => exact .rfl
  | error e => cases e <;> exact iff_of_false nofun nofun

section

variable (crc32c : Bytes → BitVec 32) (sha256 : Bytes → BitVec 256)

/-- The identity of a member, which is not part of its content. -/
def storedIdentity (code detail : String) : Parser Stream Thrown Bytes := do
  let stored ← bytes 32 true false
  let s ← get
  refuse (stored ≠ Decoder.writeBits 32 (sha256 s.digest)) (corrupt code detail)
  return stored

/-- `Cursor.finish`. -/
def finish : Parser Stream Thrown Unit := do
  let stored ← bytes 4 false false
  let s ← get
  refuse (crc32c s.crc ≠ BitVec.ofNat 32 (ofBigEndian stored))
    (corrupt "MEMBER_CHECKSUM" "derived member CRC32C is invalid")
  refuse (s.unread ≠ [])
    (corrupt "MEMBER_TRAILING_BYTES" "derived member contains trailing bytes")

theorem storedIdentity_eq_ok {code detail : String} {s : Stream} {r : Bytes × Stream} :
    storedIdentity sha256 code detail s = .ok r ↔
      r.1 = Decoder.writeBits 32 (sha256 s.digest) ∧
        ∃ rest, s.unread = r.1 ++ rest ∧ r.2 = ⟨rest, s.crc ++ r.1, s.digest⟩ := by
  obtain ⟨stored, s'⟩ := r
  simp only [storedIdentity, bind_eq_ok, bytes_eq_ok, get_eq_ok, refuse_eq_ok, pure_eq_ok]
  constructor
  · rintro ⟨_, ⟨rest, crc, digest⟩, ⟨-, hunread, rfl, rfl⟩, _, _, ⟨⟩, _, _, ⟨hidentity, ⟨⟩⟩, ⟨⟩⟩
    exact ⟨not_not.mp hidentity, rest, hunread, rfl⟩
  · rintro ⟨rfl, rest, hunread, rfl⟩
    exact ⟨_, ⟨rest, _, s.digest⟩, ⟨Decoder.length_writeBits _, hunread, rfl, rfl⟩, _, _, rfl, (), _,
      ⟨not_not.mpr rfl, rfl⟩, rfl⟩

theorem finish_eq_ok {s : Stream} {r : Unit × Stream} :
    finish crc32c s = .ok r ↔
      s.unread = Decoder.writeBits 4 (crc32c s.crc) ∧ r.2 = ⟨[], s.crc, s.digest⟩ := by
  obtain ⟨u, s'⟩ := r
  simp only [finish, bind_eq_ok, bytes_eq_ok, get_eq_ok, refuse_eq_ok]
  constructor
  · rintro ⟨stored, ⟨rest, crc, digest⟩, ⟨hlength, hunread, rfl, rfl⟩, _, _, ⟨⟩, _, _, ⟨hcrc, ⟨⟩⟩,
      hrest, ⟨⟩⟩
    obtain rfl := not_not.mp hrest
    rw [List.append_nil] at hunread
    subst hunread
    exact ⟨(ofNat_eq_iff hlength).mp (not_not.mp hcrc).symm, rfl⟩
  · rintro ⟨hunread, rfl⟩
    refine ⟨Decoder.writeBits 4 (crc32c s.crc), ⟨[], s.crc, s.digest⟩,
      ⟨Decoder.length_writeBits _, ?_, rfl, rfl⟩, _, _, rfl, (), _,
      ⟨not_not.mpr ?_, rfl⟩, not_not.mpr rfl, rfl⟩
    · rw [hunread, List.append_nil]
    · exact (Decoder.ofNat_writeBits (crc32c s.crc) rfl).symm

/-- The fields of a member and its end. -/
def framed {α : Type} (fields : Parser Stream Thrown α) (code detail : String) :
    Parser Stream Thrown (α × Bytes) := do
  let a ← fields
  let stored ← storedIdentity sha256 code detail
  finish crc32c
  return (a, stored)

theorem framed_eq_ok {α : Type} {fields : Parser Stream Thrown α} {R : α → Bytes → Prop}
    (h : Exact fields R) {code detail : String} {encoded domain : Bytes} {r : (α × Bytes) × Stream} :
    framed crc32c sha256 fields code detail ⟨encoded, [], domain⟩ = .ok r ↔
      ∃ w, R r.1.1 w ∧ encoded = finishMember crc32c sha256 w domain ∧
        r.1.2 = Decoder.writeBits 32 (sha256 (domain ++ w)) ∧
        r.2 = ⟨[], w ++ r.1.2, domain ++ w⟩ := by
  obtain ⟨⟨a, stored⟩, s'⟩ := r
  simp only [framed, bind_eq_ok, storedIdentity_eq_ok, finish_eq_ok, pure_eq_ok]
  constructor
  · rintro ⟨_, s, hfields, _, _, ⟨rfl, rest, hunread, rfl⟩, _, _, ⟨hrest, rfl⟩, ⟨⟩⟩
    obtain ⟨w, hw, hread, hcrc, hdigest⟩ := (h _ _ _).mp hfields
    obtain ⟨unread, crc, digest⟩ := s
    simp only [List.nil_append] at hread hcrc hdigest hunread hrest
    subst hcrc hdigest hunread hrest
    exact ⟨crc, hw, hread.trans (List.append_assoc _ _ _).symm, rfl, rfl⟩
  · rintro ⟨w, hw, rfl, rfl, rfl⟩
    have hframe : finishMember crc32c sha256 w domain = w ++
        (Decoder.writeBits 32 (sha256 (domain ++ w)) ++ Decoder.writeBits 4
          (crc32c (w ++ Decoder.writeBits 32 (sha256 (domain ++ w))))) := List.append_assoc _ _ _
    exact ⟨a, ⟨_, w, domain ++ w⟩, (h _ _ _).mpr ⟨w, hw, hframe, rfl, rfl⟩, _, _,
      ⟨rfl, _, rfl, rfl⟩, (), _, ⟨rfl, rfl⟩, rfl⟩

theorem framed_ok {α : Type} {fields : Parser Stream Thrown α} {R : α → Bytes → Prop}
    (h : Exact fields R) {code detail : String} {a : α} {w : Bytes} (hw : R a w) (domain : Bytes) :
    ∃ s, framed crc32c sha256 fields code detail
      ⟨finishMember crc32c sha256 w domain, [], domain⟩ =
        .ok ((a, Decoder.writeBits 32 (sha256 (domain ++ w))), s) :=
  ⟨⟨[], w ++ Decoder.writeBits 32 (sha256 (domain ++ w)), domain ++ w⟩,
    (framed_eq_ok crc32c sha256 h).mpr ⟨w, hw, rfl, rfl, rfl⟩⟩

/-! ### The catalog -/

/-- `Catalog`; its identity spells the bytes of the stored one. -/
structure Catalog where
  identity : Bytes
  generator : JavaString
  generatorVersion : ℤ
  entries : List CatalogEntry

/-- One turn of the loop over the entries of a catalog. -/
def entryStep : ℤ → EntryLoop → Parser Stream Thrown EntryLoop :=
  reader.entryStep (corrupt "CATALOG_COMPONENT_DESCRIPTOR"
    "catalog component descriptor is invalid or non-canonical") .runtime
    (corrupt "CATALOG_COMPONENT_FILENAME" "component filename does not bind sequence and ordinal")

/-- The content of a catalog. -/
def catalogFields : Parser Stream Thrown (CatalogHeader × List CatalogEntry) := do
  let header ← reader.readCatalogHeader
  let count ← cursor.signed 4
  refuse (¬header.format.Supported CATALOG_MAGIC)
    (incompatible "CATALOG_FORMAT" "derived catalog format is unsupported")
  refuse (header.identities.generator ≠ GENERATOR_ID ∨
    header.identities.generatorVersion ≠ GENERATOR_VERSION)
    (incompatible "CATALOG_GENERATOR" "derived generator identity is unsupported")
  refuse (count < 0 ∨ count > MAX_COMPONENTS)
    (corrupt "CATALOG_COMPONENT_COUNT" "catalog component count is outside its bound")
  let t ← loop (entryStep header.sequence) count.toNat .start
  return (header, t.entries)

/-- `parseCatalog` after its checks of the size. -/
def readCatalog (authority : Authority) : Parser Stream Thrown Catalog := do
  let ((header, entries), stored) ← framed crc32c sha256 catalogFields "CATALOG_IDENTITY"
    "catalog content identity does not match canonical fields"
  refuse (¬header.Bound authority ∨ entries.length ≠ authority.descriptors.length)
    (stale "CATALOG_CANONICAL_BINDING" "catalog binding differs from current checkpoint authority")
  refuse (entries.map CatalogEntry.descriptor ≠ authority.descriptors)
    (stale "CATALOG_DESCRIPTOR_SET" "catalog descriptor order differs from canonical metadata")
  return ⟨stored, header.identities.generator, header.identities.generatorVersion, entries⟩

/-- `parseCatalog`. -/
def parseCatalog (authority : Authority) (encoded : Bytes) : Except Thrown Catalog :=
  if encoded.length < 256 then
    .error (incomplete "CATALOG_TRUNCATED" "derived catalog is truncated")
  else if encoded.length > MAX_CATALOG_BYTES then
    .error (corrupt "CATALOG_SIZE" "derived catalog exceeds 16 MiB")
  else classify (incomplete "CATALOG_TRUNCATED" "derived catalog is truncated")
    (corrupt "CATALOG_STRUCTURE" "derived catalog structure is invalid")
    ((readCatalog crc32c sha256 authority ⟨encoded, [], CATALOG_DOMAIN⟩).map Prod.fst)

/-! ### Components -/

/-- The content of a component. -/
def componentFields (authority : Authority) (catalog : Catalog) (expected : CatalogEntry) :
    Parser Stream Thrown Unit := do
  let header ← reader.readComponentHeader
  refuse (¬header.format.Supported COMPONENT_MAGIC)
    (incompatible "COMPONENT_FORMAT" "derived component format is unsupported")
  refuse (header.identities.generator ≠ catalog.generator ∨
    header.identities.generatorVersion ≠ catalog.generatorVersion)
    (incompatible "COMPONENT_GENERATOR" "component generator identity is unsupported")
  refuse (¬header.Bound authority) (stale "COMPONENT_CANONICAL_BINDING"
    "component binding differs from current checkpoint authority")
  refuse (¬header.Describes expected) (stale "COMPONENT_DESCRIPTOR_BINDING"
    "component descriptor differs from its catalog entry")
  parsePayload header.kind header.nextDocId header.liveDocuments

/-- `parseComponent`. -/
def parseComponent (authority : Authority) (catalog : Catalog) (expected : CatalogEntry)
    (encoded : Bytes) : Except Thrown Unit :=
  if encoded.length < 192 then
    .error (incomplete "COMPONENT_TRUNCATED" "derived component is truncated")
  else if encoded.length > MAX_COMPONENT_BYTES then
    .error (corrupt "COMPONENT_SIZE" "derived component exceeds two GiB")
  else classify (incomplete "COMPONENT_TRUNCATED" "derived component is truncated")
    (corrupt "COMPONENT_STRUCTURE" "derived component structure is invalid")
    ((framed crc32c sha256 (componentFields authority catalog expected) "COMPONENT_IDENTITY"
      "component content identity does not match its fields"
      ⟨encoded, [], COMPONENT_DOMAIN⟩).map fun _ => ())

/-- `storedCrc`. -/
def storedCrc (encoded : Bytes) : Except Thrown ℤ :=
  if encoded.length < 4 then .error (incomplete "COMPONENT_TRUNCATED" "component CRC is absent")
  else .ok (BitVec.ofNat 32 (ofBigEndian (encoded.drop (encoded.length - 4)))).toInt

/-- What `inspectComponent` tries before it reports a component as admissible. -/
def inspected (authority : Authority) (catalog : Catalog) (entry : CatalogEntry) (encoded : Bytes) :
    Except Thrown Unit := do
  reject ((encoded.length : ℤ) ≠ entry.bytes)
    (corrupt "COMPONENT_SIZE_MISMATCH" "component size differs from catalog binding")
  reject (Decoder.writeBits 32 (sha256 encoded) ≠ entry.sha256)
    (corrupt "COMPONENT_SHA256_MISMATCH" "component SHA-256 differs from catalog binding")
  let stored ← storedCrc encoded
  reject (stored ≠ entry.checksum) (corrupt "COMPONENT_CHECKSUM_BINDING_MISMATCH"
    "component checksum differs from catalog binding")
  parseComponent crc32c sha256 authority catalog entry encoded

/-- `DurableDerivedComponentStatus`: a failure's own status has the name of its cause. -/
inductive DurableDerivedComponentStatus where
  | admissible
  | missing
  | failed (status : DurableDerivedStateStatus)

/-- `inspectComponent` of the bytes of the component's file, if there is one. -/
def inspectComponent (authority : Authority) (catalog : Catalog) (entry : CatalogEntry) :
    Option Bytes → Except Thrown DurableDerivedComponentStatus
  | none => .ok .missing
  | some encoded =>
    match inspected crc32c sha256 authority catalog entry encoded with
    | .ok () => .ok .admissible
    | .error (.failure status _ _) => .ok (.failed status)
    | .error e => .error e

end

/-! ### What the inspector accepts -/

theorem exact_catalogFields : Exact catalogFields fun r w =>
    CatalogContent r.1 r.2 ∧ w = writeCatalog r.1 r.2 := by
  refine Exact.congr (.field (exact_readCatalogHeader reader) fun _ _ =>
    .field (exact_signed cursor 4) fun count _ => .check fun _ => .check fun _ =>
    .check fun (hcount : ¬(count < 0 ∨ count > MAX_COMPONENTS)) =>
    .loop (exact_entryStep _ _ _ _ _) (by omega) fun _ _ _ => exact_pure _) fun r w => ?_
  constructor
  · rintro ⟨header, hvalid, _, ⟨count, -, _, ⟨hformat, hgenerator, hcount, entries, rfl, htakes, _,
      ⟨rfl, rfl⟩, rfl⟩, rfl⟩, rfl⟩
    obtain ⟨hid, hversion⟩ := not_or.mp hgenerator
    rw [EntryLoop.entries_foldl_start]
    have hle : entries.length ≤ MAX_COMPONENTS := by omega
    exact ⟨⟨hvalid, not_not.mp hformat, not_not.mp hid, not_not.mp hversion, hle, htakes⟩,
      by simp [writeCatalog, writeMany]⟩
  · obtain ⟨header, entries⟩ := r
    rintro ⟨h, rfl⟩
    have hcount : entries.length ≤ 100000 := h.count
    refine ⟨header, h.valid, _, ⟨(entries.length : ℕ), signed_four.mpr (by omega), _,
      ⟨not_not.mpr h.supported, not_or_intro (not_not.mpr h.generator)
        (not_not.mpr h.generatorVersion), ?_, entries, rfl, h.takes, [], ⟨?_, rfl⟩, rfl⟩, rfl⟩, ?_⟩
    · unfold MAX_COMPONENTS
      omega
    · rw [EntryLoop.entries_foldl_start]
    · simp [writeCatalog, writeMany]

theorem exact_componentFields {authority : Authority} {catalog : Catalog} {expected : CatalogEntry}
    (hgenerator : catalog.generator = GENERATOR_ID)
    (hversion : catalog.generatorVersion = GENERATOR_VERSION) :
    Exact (componentFields authority catalog expected) fun _ w =>
      ∃ (header : ComponentHeader) (payload : Payload), header.Admitted authority expected ∧
        payload.Canonical header.kind header.nextDocId header.liveDocuments ∧
        w = header.write ++ payload.write := by
  refine Exact.congr (.field (exact_readComponentHeader reader) fun header _ => .check fun _ =>
    .check fun _ => .check fun _ => .check fun _ =>
    exact_parsePayload header.kind header.nextDocId header.liveDocuments) fun t' w => ?_
  rw [hgenerator, hversion]
  constructor
  · rintro ⟨header, hvalid, _, ⟨hformat, hgenerator, hbound, hdescribes, payload, hcanonical, rfl⟩,
      rfl⟩
    obtain ⟨hid, hversion⟩ := not_or.mp hgenerator
    exact ⟨header, payload, ⟨hvalid, not_not.mp hformat, not_not.mp hid, not_not.mp hversion,
      not_not.mp hbound, not_not.mp hdescribes⟩, hcanonical, rfl⟩
  · rintro ⟨header, payload, h, hcanonical, rfl⟩
    exact ⟨header, h.valid, _, ⟨not_not.mpr h.supported, not_or_intro (not_not.mpr h.generator)
      (not_not.mpr h.generatorVersion), not_not.mpr h.bound, not_not.mpr h.describes, payload,
      hcanonical, rfl⟩, rfl⟩

section

variable {crc32c : Bytes → BitVec 32} {sha256 : Bytes → BitVec 256}

theorem map_eq_ok {α β : Type} {f : α → β} {x : Except Thrown α} {b : β} :
    x.map f = .ok b ↔ ∃ a, x = .ok a ∧ f a = b := by
  cases x with
  | error e => exact iff_of_false nofun fun ⟨_, h, _⟩ => nomatch h
  | ok a => simp [Except.map]

theorem parseCatalog_eq_ok {authority : Authority} {encoded : Bytes} {catalog : Catalog} :
    parseCatalog crc32c sha256 authority encoded = .ok catalog ↔
      (256 ≤ encoded.length ∧ encoded.length ≤ MAX_CATALOG_BYTES) ∧
        ∃ header entries, CatalogContent header entries ∧
          CatalogBinding authority header entries ∧
          encoded = finishMember crc32c sha256 (writeCatalog header entries) CATALOG_DOMAIN ∧
          catalog = ⟨Decoder.writeBits 32 (sha256 (CATALOG_DOMAIN ++ writeCatalog header entries)),
            GENERATOR_ID, GENERATOR_VERSION, entries⟩ := by
  unfold parseCatalog
  by_cases hshort : encoded.length < 256
  · rw [if_pos hshort]
    exact iff_of_false nofun fun h => absurd h.1.1 (by omega)
  by_cases hlong : encoded.length > MAX_CATALOG_BYTES
  · rw [if_neg hshort, if_pos hlong]
    exact iff_of_false nofun fun h => absurd h.1.2 (by omega)
  rw [if_neg hshort, if_neg hlong, classify_eq_ok, map_eq_ok,
    and_iff_right ⟨not_lt.mp hshort, not_lt.mp hlong⟩]
  simp only [readCatalog, bind_eq_ok, refuse_eq_ok, pure_eq_ok]
  constructor
  · rintro ⟨_, ⟨⟨⟨header, entries⟩, stored⟩, s, hframed, _, _, ⟨hbound, ⟨⟩⟩, _, _, ⟨hset, ⟨⟩⟩, rfl⟩,
      rfl⟩
    obtain ⟨w, ⟨hcontent, rfl⟩, rfl, hstored, -⟩ :=
      (framed_eq_ok crc32c sha256 exact_catalogFields).mp hframed
    exact ⟨header, entries, hcontent, ⟨not_not.mp (not_or.mp hbound).1, not_not.mp hset⟩, rfl,
      by rw [← hstored, ← hcontent.generator, ← hcontent.generatorVersion]⟩
  · rintro ⟨header, entries, hcontent, hbinding, rfl, rfl⟩
    obtain ⟨s, hframed⟩ := framed_ok crc32c sha256 exact_catalogFields
      (a := (header, entries)) ⟨hcontent, rfl⟩ CATALOG_DOMAIN
    refine ⟨_, ⟨_, s, hframed, (), _, ⟨?_, rfl⟩, (), _, ⟨not_not.mpr hbinding.descriptors, rfl⟩, rfl⟩,
      ?_⟩
    · refine not_or_intro (not_not.mpr hbinding.bound) (not_not.mpr ?_)
      rw [← hbinding.descriptors, List.length_map]
    · simp only [hcontent.generator, hcontent.generatorVersion]

theorem parseComponent_eq_ok {authority : Authority} {catalog : Catalog} {expected : CatalogEntry}
    (hgenerator : catalog.generator = GENERATOR_ID)
    (hversion : catalog.generatorVersion = GENERATOR_VERSION) {encoded : Bytes} {u : Unit} :
    parseComponent crc32c sha256 authority catalog expected encoded = .ok u ↔
      (192 ≤ encoded.length ∧ encoded.length ≤ MAX_COMPONENT_BYTES) ∧
        ∃ (header : ComponentHeader) (payload : Payload), header.Admitted authority expected ∧
          payload.Canonical header.kind header.nextDocId header.liveDocuments ∧
          encoded = finishMember crc32c sha256 (header.write ++ payload.write) COMPONENT_DOMAIN := by
  unfold parseComponent
  by_cases hshort : encoded.length < 192
  · rw [if_pos hshort]
    exact iff_of_false nofun fun h => absurd h.1.1 (by omega)
  by_cases hlong : encoded.length > MAX_COMPONENT_BYTES
  · rw [if_neg hshort, if_pos hlong]
    exact iff_of_false nofun fun h => absurd h.1.2 (by omega)
  rw [if_neg hshort, if_neg hlong, classify_eq_ok, map_eq_ok,
    and_iff_right ⟨not_lt.mp hshort, not_lt.mp hlong⟩]
  have hfields := @exact_componentFields authority catalog expected hgenerator hversion
  constructor
  · rintro ⟨r, hframed, -⟩
    obtain ⟨w, ⟨header, payload, hheader, hcanonical, rfl⟩, hencoded, -⟩ :=
      (framed_eq_ok crc32c sha256 hfields).mp hframed
    exact ⟨header, payload, hheader, hcanonical, hencoded⟩
  · rintro ⟨header, payload, hheader, hcanonical, rfl⟩
    obtain ⟨s, hframed⟩ := framed_ok crc32c sha256 hfields (a := ())
      ⟨header, payload, hheader, hcanonical, rfl⟩ COMPONENT_DOMAIN
    exact ⟨_, hframed, rfl⟩

end

end GeneralSearch.Derived.Inspector
