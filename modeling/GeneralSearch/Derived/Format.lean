import GeneralSearch.Lib.Parser

/-! The members of a derived generation: the catalog and the component images, with the fields that
`DurableStructuredDerivedState` and `DurableDerivedStateInspector` both read in one order.  What
each of them checks of the fields is in their own modules. -/

namespace GeneralSearch.Derived

open GeneralSearch.Parser
open GeneralSearch.Utf8 (JavaString WellFormed)

/-- `DurableDerivedStateStatus`, as far as a parser fails with it. -/
inductive DurableDerivedStateStatus where
  | stale | incompatible | incomplete | corrupt
  deriving DecidableEq

def CATALOG_MAGIC : ℤ := 0x4753454443415431

def COMPONENT_MAGIC : ℤ := 0x4753454449445831

def ENCODING_MAJOR : ℤ := 1

def ENCODING_MINOR : ℤ := 0

def GENERATOR_ID : JavaString := Utf8.ofString "gse-derived-generator-v1"

def GENERATOR_VERSION : ℤ := 1

def CATALOG_DOMAIN : Bytes := Utf8.getBytes (Utf8.ofString "gse-derived-catalog-content-v1\x00")

def COMPONENT_DOMAIN : Bytes :=
  Utf8.getBytes (Utf8.ofString "gse-derived-component-content-v1\x00")

def MAX_CATALOG_BYTES : ℕ := 16777216

def MAX_COMPONENT_BYTES : ℕ := 2147483648

def MAX_COMPONENTS : ℕ := 100000

/-- `MAX_COUNT`, the `MAX_LOGICAL_ENTRIES` of the inspector. -/
def MAX_COUNT : ℕ := 100000000

def MAX_STRING_BYTES : ℕ := 1048576

/-- `DurableIndexDescriptor.SIMPLE_ANALYZER`. -/
def SIMPLE_ANALYZER : JavaString := Utf8.ofString "gse-simple-v1"

section

variable {ε : Type}

/-- `if (condition) throw failure`, outside the fields of a member. -/
def reject (condition : Prop) [Decidable condition] (failure : ε) : Except ε Unit :=
  if condition then .error failure else .ok ()

theorem reject_eq_ok {condition : Prop} [Decidable condition] {failure : ε} {u : Unit} :
    reject condition failure = .ok u ↔ ¬condition := by
  unfold reject
  by_cases h : condition <;> simp [h]

/-! ### Strings -/

/-- `decodeUtf8`. -/
def decodeUtf8 (malformed : ε) (encoded : Bytes) : Except ε JavaString :=
  match Utf8.decode encoded with
  | some value => .ok value
  | none => .error malformed

theorem decode_eq_some {encoded : Bytes} {value : JavaString} :
    Utf8.decode encoded = some value ↔ WellFormed value ∧ encoded = Utf8.getBytes value := by
  constructor
  · intro h
    obtain ⟨hwf, hbytes⟩ := Utf8.getBytes_decode h
    exact ⟨hwf, hbytes.symm⟩
  · rintro ⟨hwf, rfl⟩
    exact Utf8.decode_getBytes hwf

theorem decodeUtf8_eq_ok {malformed : ε} {encoded : Bytes} {value : JavaString} :
    decodeUtf8 malformed encoded = .ok value ↔ WellFormed value ∧ encoded = Utf8.getBytes value := by
  rw [← decode_eq_some, decodeUtf8]
  cases Utf8.decode encoded <;> simp

end

/-- The strings that a bound admits. -/
def Spelled (maximum : ℕ) (allowEmpty : Bool) (value : JavaString) : Prop :=
  WellFormed value ∧ Bounded maximum allowEmpty (Utf8.getBytes value)

/-- `writeString`. -/
def writeString (value : JavaString) : Bytes := writeBlock (Utf8.getBytes value)

/-- How a parser of derived members reads a field: numbers and bytes through its cursor, strings
with a check of their own. -/
structure Reader (σ ε : Type) [Tape σ] extends Cursor σ ε where
  string : ℕ → Bool → Parser σ ε JavaString
  exact_string : ∀ maximum allowEmpty, maximum < 2147483648 →
    Exact (string maximum allowEmpty) fun value w =>
      Spelled maximum allowEmpty value ∧ w = writeString value

/-! ### Headers -/

/-- The magic number and the versions of a member. -/
structure MemberFormat where
  magic : ℤ
  encodingMajor : ℤ
  encodingMinor : ℤ
  liveMajor : ℤ
  liveMinor : ℤ
  deriving DecidableEq

/-- The identities in the header of a member. -/
structure Identities where
  storage : JavaString
  schema : JavaString
  codec : JavaString
  codecVersion : ℤ
  generator : JavaString
  generatorVersion : ℤ
  deriving DecidableEq

/-- The fields of a catalog before its entries. -/
structure CatalogHeader where
  format : MemberFormat
  profile : Bytes
  history : ℤ × ℤ
  sequence : ℤ
  checkpointFile : JavaString
  checkpointBytes : ℤ
  checkpointChecksum : ℤ
  checkpointSha : Bytes
  identities : Identities
  nextDocId : ℤ
  liveDocuments : ℤ

/-- The fields of a component before its payload. -/
structure ComponentHeader where
  format : MemberFormat
  profile : Bytes
  history : ℤ × ℤ
  sequence : ℤ
  checkpointSha : Bytes
  identities : Identities
  ordinal : ℤ
  kind : ℤ
  field : JavaString
  analyzer : JavaString
  nextDocId : ℤ
  liveDocuments : ℤ

/-- `CatalogEntry`. -/
structure CatalogEntry where
  ordinal : ℤ
  kind : ℤ
  field : JavaString
  analyzer : JavaString
  filename : JavaString
  bytes : ℤ
  checksum : ℤ
  sha256 : Bytes
  deriving DecidableEq

section

variable {σ ε : Type} [Tape σ]

namespace Reader

variable (r : Reader σ ε)

def readFormat : Parser σ ε MemberFormat := do
  let magic ← r.signed 8
  let encodingMajor ← r.signed 2
  let encodingMinor ← r.signed 2
  let liveMajor ← r.signed 2
  let liveMinor ← r.signed 2
  return ⟨magic, encodingMajor, encodingMinor, liveMajor, liveMinor⟩

/-- `new UUID(cursor.longValue(), cursor.longValue())`. -/
def readUuid : Parser σ ε (ℤ × ℤ) := do
  let most ← r.signed 8
  let least ← r.signed 8
  return (most, least)

def readIdentities : Parser σ ε Identities := do
  let storage ← r.string 128 false
  let schema ← r.string 128 false
  let codec ← r.string 128 false
  let codecVersion ← r.signed 4
  let generator ← r.string 128 false
  let generatorVersion ← r.signed 4
  return ⟨storage, schema, codec, codecVersion, generator, generatorVersion⟩

def readCatalogHeader : Parser σ ε CatalogHeader := do
  let format ← r.readFormat
  let profile ← r.bytes 32
  let history ← r.readUuid
  let sequence ← r.signed 8
  let checkpointFile ← r.string 256 false
  let checkpointBytes ← r.signed 8
  let checkpointChecksum ← r.signed 4
  let checkpointSha ← r.bytes 32
  let identities ← r.readIdentities
  let nextDocId ← r.signed 4
  let liveDocuments ← r.signed 4
  return ⟨format, profile, history, sequence, checkpointFile, checkpointBytes, checkpointChecksum,
    checkpointSha, identities, nextDocId, liveDocuments⟩

def readComponentHeader : Parser σ ε ComponentHeader := do
  let format ← r.readFormat
  let profile ← r.bytes 32
  let history ← r.readUuid
  let sequence ← r.signed 8
  let checkpointSha ← r.bytes 32
  let identities ← r.readIdentities
  let ordinal ← r.signed 4
  let kind ← r.signed 1
  let field ← r.string MAX_STRING_BYTES false
  let analyzer ← r.string 128 true
  let nextDocId ← r.signed 4
  let liveDocuments ← r.signed 4
  return ⟨format, profile, history, sequence, checkpointSha, identities, ordinal, kind, field,
    analyzer, nextDocId, liveDocuments⟩

def readEntry : Parser σ ε CatalogEntry := do
  let ordinal ← r.signed 4
  let kind ← r.signed 1
  let field ← r.string MAX_STRING_BYTES false
  let analyzer ← r.string 128 true
  let filename ← r.string 256 false
  let bytes ← r.signed 8
  let checksum ← r.signed 4
  let sha256 ← r.bytes 32
  return ⟨ordinal, kind, field, analyzer, filename, bytes, checksum, sha256⟩

end Reader

end

/-! ### The bytes of a header -/

structure MemberFormat.Valid (f : MemberFormat) : Prop where
  magic : Signed 8 f.magic
  encodingMajor : Signed 2 f.encodingMajor
  encodingMinor : Signed 2 f.encodingMinor
  liveMajor : Signed 2 f.liveMajor
  liveMinor : Signed 2 f.liveMinor

def MemberFormat.write (f : MemberFormat) : Bytes :=
  writeSigned 8 f.magic ++ writeSigned 2 f.encodingMajor ++ writeSigned 2 f.encodingMinor ++
    writeSigned 2 f.liveMajor ++ writeSigned 2 f.liveMinor

def ValidUuid (u : ℤ × ℤ) : Prop := Signed 8 u.1 ∧ Signed 8 u.2

def writeUuid (u : ℤ × ℤ) : Bytes := writeSigned 8 u.1 ++ writeSigned 8 u.2

structure Identities.Valid (i : Identities) : Prop where
  storage : Spelled 128 false i.storage
  schema : Spelled 128 false i.schema
  codec : Spelled 128 false i.codec
  codecVersion : Signed 4 i.codecVersion
  generator : Spelled 128 false i.generator
  generatorVersion : Signed 4 i.generatorVersion

def Identities.write (i : Identities) : Bytes :=
  writeString i.storage ++ writeString i.schema ++ writeString i.codec ++
    writeSigned 4 i.codecVersion ++ writeString i.generator ++ writeSigned 4 i.generatorVersion

structure CatalogHeader.Valid (h : CatalogHeader) : Prop where
  format : h.format.Valid
  profile : h.profile.length = 32
  history : ValidUuid h.history
  sequence : Signed 8 h.sequence
  checkpointFile : Spelled 256 false h.checkpointFile
  checkpointBytes : Signed 8 h.checkpointBytes
  checkpointChecksum : Signed 4 h.checkpointChecksum
  checkpointSha : h.checkpointSha.length = 32
  identities : h.identities.Valid
  nextDocId : Signed 4 h.nextDocId
  liveDocuments : Signed 4 h.liveDocuments

def CatalogHeader.write (h : CatalogHeader) : Bytes :=
  h.format.write ++ h.profile ++ writeUuid h.history ++ writeSigned 8 h.sequence ++
    writeString h.checkpointFile ++ writeSigned 8 h.checkpointBytes ++
    writeSigned 4 h.checkpointChecksum ++ h.checkpointSha ++ h.identities.write ++
    writeSigned 4 h.nextDocId ++ writeSigned 4 h.liveDocuments

structure ComponentHeader.Valid (h : ComponentHeader) : Prop where
  format : h.format.Valid
  profile : h.profile.length = 32
  history : ValidUuid h.history
  sequence : Signed 8 h.sequence
  checkpointSha : h.checkpointSha.length = 32
  identities : h.identities.Valid
  ordinal : Signed 4 h.ordinal
  kind : Signed 1 h.kind
  field : Spelled MAX_STRING_BYTES false h.field
  analyzer : Spelled 128 true h.analyzer
  nextDocId : Signed 4 h.nextDocId
  liveDocuments : Signed 4 h.liveDocuments

def ComponentHeader.write (h : ComponentHeader) : Bytes :=
  h.format.write ++ h.profile ++ writeUuid h.history ++ writeSigned 8 h.sequence ++
    h.checkpointSha ++ h.identities.write ++ writeSigned 4 h.ordinal ++ writeSigned 1 h.kind ++
    writeString h.field ++ writeString h.analyzer ++ writeSigned 4 h.nextDocId ++
    writeSigned 4 h.liveDocuments

structure CatalogEntry.Valid (e : CatalogEntry) : Prop where
  ordinal : Signed 4 e.ordinal
  kind : Signed 1 e.kind
  field : Spelled MAX_STRING_BYTES false e.field
  analyzer : Spelled 128 true e.analyzer
  filename : Spelled 256 false e.filename
  bytes : Signed 8 e.bytes
  checksum : Signed 4 e.checksum
  sha256 : e.sha256.length = 32

def CatalogEntry.write (e : CatalogEntry) : Bytes :=
  writeSigned 4 e.ordinal ++ writeSigned 1 e.kind ++ writeString e.field ++
    writeString e.analyzer ++ writeString e.filename ++ writeSigned 8 e.bytes ++
    writeSigned 4 e.checksum ++ e.sha256

section

variable {σ ε : Type} [Tape σ] (r : Reader σ ε)

theorem exact_readFormat : Exact r.readFormat fun h w => h.Valid ∧ w = h.write := by
  refine ((exact_signed r.toCursor 8).field fun _ _ => (exact_signed r.toCursor 2).field fun _ _
    => (exact_signed r.toCursor 2).field fun _ _ => (exact_signed r.toCursor 2).field fun _ _ =>
    (exact_signed r.toCursor 2).field fun _ _ => exact_pure _).congr fun h w => ?_
  constructor
  · rintro ⟨_, h1, _, ⟨_, h2, _, ⟨_, h3, _, ⟨_, h4, _, ⟨_, h5, _, ⟨rfl, rfl⟩, rfl⟩, rfl⟩, rfl⟩,
      rfl⟩, rfl⟩
    exact ⟨⟨h1, h2, h3, h4, h5⟩, by simp [MemberFormat.write]⟩
  · rintro ⟨h, rfl⟩
    exact ⟨_, h.magic, _, ⟨_, h.encodingMajor, _, ⟨_, h.encodingMinor, _, ⟨_, h.liveMajor, _, ⟨_,
      h.liveMinor, _, ⟨rfl, rfl⟩, rfl⟩, rfl⟩, rfl⟩, rfl⟩, by simp [MemberFormat.write]⟩

theorem exact_readUuid : Exact r.readUuid fun h w => ValidUuid h ∧ w = writeUuid h := by
  refine ((exact_signed r.toCursor 8).field fun _ _ => (exact_signed r.toCursor 8).field fun _ _
    => exact_pure _).congr fun h w => ?_
  constructor
  · rintro ⟨_, h1, _, ⟨_, h2, _, ⟨rfl, rfl⟩, rfl⟩, rfl⟩
    exact ⟨⟨h1, h2⟩, by simp [writeUuid]⟩
  · rintro ⟨h, rfl⟩
    exact ⟨_, h.1, _, ⟨_, h.2, _, ⟨rfl, rfl⟩, rfl⟩, by simp [writeUuid]⟩

theorem exact_readIdentities : Exact r.readIdentities fun h w => h.Valid ∧ w = h.write := by
  refine ((r.exact_string 128 false (by decide)).field fun _ _ => (r.exact_string 128 false (by
    decide)).field fun _ _ => (r.exact_string 128 false (by decide)).field fun _ _ =>
    (exact_signed r.toCursor 4).field fun _ _ => (r.exact_string 128 false (by decide)).field
    fun _ _ => (exact_signed r.toCursor 4).field fun _ _ => exact_pure _).congr fun h w => ?_
  constructor
  · rintro ⟨_, h1, _, ⟨_, h2, _, ⟨_, h3, _, ⟨_, h4, _, ⟨_, h5, _, ⟨_, h6, _, ⟨rfl, rfl⟩, rfl⟩,
      rfl⟩, rfl⟩, rfl⟩, rfl⟩, rfl⟩
    exact ⟨⟨h1, h2, h3, h4, h5, h6⟩, by simp [Identities.write]⟩
  · rintro ⟨h, rfl⟩
    exact ⟨_, h.storage, _, ⟨_, h.schema, _, ⟨_, h.codec, _, ⟨_, h.codecVersion, _, ⟨_,
      h.generator, _, ⟨_, h.generatorVersion, _, ⟨rfl, rfl⟩, rfl⟩, rfl⟩, rfl⟩, rfl⟩, rfl⟩, by simp
      [Identities.write]⟩

theorem exact_readCatalogHeader : Exact r.readCatalogHeader fun h w => h.Valid ∧ w = h.write := by
  refine ((exact_readFormat r).field fun _ _ => (r.exact_bytes 32).field fun _ _ =>
    (exact_readUuid r).field fun _ _ => (exact_signed r.toCursor 8).field fun _ _ =>
    (r.exact_string 256 false (by decide)).field fun _ _ => (exact_signed r.toCursor 8).field
    fun _ _ => (exact_signed r.toCursor 4).field fun _ _ => (r.exact_bytes 32).field fun _ _ =>
    (exact_readIdentities r).field fun _ _ => (exact_signed r.toCursor 4).field fun _ _ =>
    (exact_signed r.toCursor 4).field fun _ _ => exact_pure _).congr fun h w => ?_
  constructor
  · rintro ⟨_, h1, _, ⟨_, h2, _, ⟨_, h3, _, ⟨_, h4, _, ⟨_, h5, _, ⟨_, h6, _, ⟨_, h7, _, ⟨_, h8, _,
      ⟨_, h9, _, ⟨_, h10, _, ⟨_, h11, _, ⟨rfl, rfl⟩, rfl⟩, rfl⟩, rfl⟩, rfl⟩, rfl⟩, rfl⟩, rfl⟩,
      rfl⟩, rfl⟩, rfl⟩, rfl⟩
    exact ⟨⟨h1, h2, h3, h4, h5, h6, h7, h8, h9, h10, h11⟩, by simp [CatalogHeader.write]⟩
  · rintro ⟨h, rfl⟩
    exact ⟨_, h.format, _, ⟨_, h.profile, _, ⟨_, h.history, _, ⟨_, h.sequence, _, ⟨_,
      h.checkpointFile, _, ⟨_, h.checkpointBytes, _, ⟨_, h.checkpointChecksum, _, ⟨_,
      h.checkpointSha, _, ⟨_, h.identities, _, ⟨_, h.nextDocId, _, ⟨_, h.liveDocuments, _, ⟨rfl,
      rfl⟩, rfl⟩, rfl⟩, rfl⟩, rfl⟩, rfl⟩, rfl⟩, rfl⟩, rfl⟩, rfl⟩, rfl⟩, by simp
      [CatalogHeader.write]⟩

theorem exact_readComponentHeader : Exact r.readComponentHeader fun h w => h.Valid ∧ w = h.write := by
  refine ((exact_readFormat r).field fun _ _ => (r.exact_bytes 32).field fun _ _ =>
    (exact_readUuid r).field fun _ _ => (exact_signed r.toCursor 8).field fun _ _ =>
    (r.exact_bytes 32).field fun _ _ => (exact_readIdentities r).field fun _ _ => (exact_signed
    r.toCursor 4).field fun _ _ => (exact_signed r.toCursor 1).field fun _ _ => (r.exact_string
    MAX_STRING_BYTES false (by decide)).field fun _ _ => (r.exact_string 128 true (by
    decide)).field fun _ _ => (exact_signed r.toCursor 4).field fun _ _ => (exact_signed
    r.toCursor 4).field fun _ _ => exact_pure _).congr fun h w => ?_
  constructor
  · rintro ⟨_, h1, _, ⟨_, h2, _, ⟨_, h3, _, ⟨_, h4, _, ⟨_, h5, _, ⟨_, h6, _, ⟨_, h7, _, ⟨_, h8, _,
      ⟨_, h9, _, ⟨_, h10, _, ⟨_, h11, _, ⟨_, h12, _, ⟨rfl, rfl⟩, rfl⟩, rfl⟩, rfl⟩, rfl⟩, rfl⟩,
      rfl⟩, rfl⟩, rfl⟩, rfl⟩, rfl⟩, rfl⟩, rfl⟩
    exact ⟨⟨h1, h2, h3, h4, h5, h6, h7, h8, h9, h10, h11, h12⟩, by simp [ComponentHeader.write]⟩
  · rintro ⟨h, rfl⟩
    exact ⟨_, h.format, _, ⟨_, h.profile, _, ⟨_, h.history, _, ⟨_, h.sequence, _, ⟨_,
      h.checkpointSha, _, ⟨_, h.identities, _, ⟨_, h.ordinal, _, ⟨_, h.kind, _, ⟨_, h.field, _,
      ⟨_, h.analyzer, _, ⟨_, h.nextDocId, _, ⟨_, h.liveDocuments, _, ⟨rfl, rfl⟩, rfl⟩, rfl⟩, rfl⟩,
      rfl⟩, rfl⟩, rfl⟩, rfl⟩, rfl⟩, rfl⟩, rfl⟩, rfl⟩, by simp [ComponentHeader.write]⟩

theorem exact_readEntry : Exact r.readEntry fun h w => h.Valid ∧ w = h.write := by
  refine ((exact_signed r.toCursor 4).field fun _ _ => (exact_signed r.toCursor 1).field fun _ _
    => (r.exact_string MAX_STRING_BYTES false (by decide)).field fun _ _ => (r.exact_string 128
    true (by decide)).field fun _ _ => (r.exact_string 256 false (by decide)).field fun _ _ =>
    (exact_signed r.toCursor 8).field fun _ _ => (exact_signed r.toCursor 4).field fun _ _ =>
    (r.exact_bytes 32).field fun _ _ => exact_pure _).congr fun h w => ?_
  constructor
  · rintro ⟨_, h1, _, ⟨_, h2, _, ⟨_, h3, _, ⟨_, h4, _, ⟨_, h5, _, ⟨_, h6, _, ⟨_, h7, _, ⟨_, h8, _,
      ⟨rfl, rfl⟩, rfl⟩, rfl⟩, rfl⟩, rfl⟩, rfl⟩, rfl⟩, rfl⟩, rfl⟩
    exact ⟨⟨h1, h2, h3, h4, h5, h6, h7, h8⟩, by simp [CatalogEntry.write]⟩
  · rintro ⟨h, rfl⟩
    exact ⟨_, h.ordinal, _, ⟨_, h.kind, _, ⟨_, h.field, _, ⟨_, h.analyzer, _, ⟨_, h.filename, _,
      ⟨_, h.bytes, _, ⟨_, h.checksum, _, ⟨_, h.sha256, _, ⟨rfl, rfl⟩, rfl⟩, rfl⟩, rfl⟩, rfl⟩,
      rfl⟩, rfl⟩, rfl⟩, by simp [CatalogEntry.write]⟩

end

/-! ### The authority -/

/-- `DurableIndexDescriptor`, the `Descriptor` of the inspector. -/
structure DurableIndexDescriptor where
  kind : ℤ
  fieldName : JavaString
  analyzerId : JavaString
  deriving DecidableEq

/-- `Authority`, the `CanonicalAuthority` of the inspector: the checkpoint that derived members are
bound to.  The minor version is that of the loader's format context; the inspector reads the rest
from the same metadata and manifest. -/
structure Authority where
  minor : ℤ
  profileDigest : Bytes
  history : ℤ × ℤ
  checkpointSequence : ℤ
  checkpointFile : JavaString
  checkpointBytes : ℤ
  checkpointChecksum : ℤ
  checkpointSha256 : Bytes
  storageIdentity : JavaString
  schemaIdentity : JavaString
  codecIdentity : JavaString
  codecVersion : ℤ
  nextDocId : ℤ
  liveDocuments : ℤ
  descriptors : List DurableIndexDescriptor

/-- The versions that both parsers support, under the magic number of a member. -/
def MemberFormat.Supported (magic : ℤ) (f : MemberFormat) : Prop :=
  f = ⟨magic, ENCODING_MAJOR, ENCODING_MINOR, 1, 2⟩

instance (magic : ℤ) (f : MemberFormat) : Decidable (f.Supported magic) :=
  inferInstanceAs (Decidable (_ = _))

/-- The identities of the store, without those of the generator. -/
def Identities.Bound (i : Identities) (authority : Authority) : Prop :=
  i.storage = authority.storageIdentity ∧ i.schema = authority.schemaIdentity ∧
    i.codec = authority.codecIdentity ∧ i.codecVersion = authority.codecVersion

instance (i : Identities) (authority : Authority) : Decidable (i.Bound authority) :=
  inferInstanceAs (Decidable (_ ∧ _))

/-- A catalog of the checkpoint, as far as its header says. -/
def CatalogHeader.Bound (h : CatalogHeader) (authority : Authority) : Prop :=
  h.profile = authority.profileDigest ∧ h.history = authority.history ∧
    h.sequence = authority.checkpointSequence ∧ h.checkpointFile = authority.checkpointFile ∧
    h.checkpointBytes = authority.checkpointBytes ∧
    h.checkpointChecksum = authority.checkpointChecksum ∧
    h.checkpointSha = authority.checkpointSha256 ∧ h.identities.Bound authority ∧
    h.nextDocId = authority.nextDocId ∧ h.liveDocuments = authority.liveDocuments

instance (h : CatalogHeader) (authority : Authority) : Decidable (h.Bound authority) :=
  inferInstanceAs (Decidable (_ ∧ _))

/-- A component of the checkpoint, as far as its header says. -/
def ComponentHeader.Bound (h : ComponentHeader) (authority : Authority) : Prop :=
  h.profile = authority.profileDigest ∧ h.history = authority.history ∧
    h.sequence = authority.checkpointSequence ∧ h.checkpointSha = authority.checkpointSha256 ∧
    h.identities.Bound authority ∧ h.nextDocId = authority.nextDocId ∧
    h.liveDocuments = authority.liveDocuments

instance (h : ComponentHeader) (authority : Authority) : Decidable (h.Bound authority) :=
  inferInstanceAs (Decidable (_ ∧ _))

/-- The component of a catalog entry. -/
def ComponentHeader.Describes (h : ComponentHeader) (expected : CatalogEntry) : Prop :=
  h.ordinal = expected.ordinal ∧ h.kind = expected.kind ∧ h.field = expected.field ∧
    h.analyzer = expected.analyzer

instance (h : ComponentHeader) (expected : CatalogEntry) : Decidable (h.Describes expected) :=
  inferInstanceAs (Decidable (_ ∧ _))

/-! ### Catalog entries -/

/-- `validDescriptor`. -/
def validDescriptor (kind : ℤ) (field analyzer : JavaString) : Prop :=
  1 ≤ kind ∧ kind ≤ 4 ∧ field ≠ [] ∧
    ((kind = 4 ∧ analyzer = SIMPLE_ANALYZER) ∨ (kind ≠ 4 ∧ analyzer = []))

instance (kind : ℤ) (field analyzer : JavaString) : Decidable (validDescriptor kind field analyzer) :=
  inferInstanceAs (Decidable (_ ∧ _))

/-- `[0-9]`. -/
def digit (c : UInt16) : Bool := 0x30 ≤ c && c ≤ 0x39

/-- `[a-f0-9]`. -/
def hexDigit (c : UInt16) : Bool := digit c || (0x61 ≤ c && c ≤ 0x66)

/-- The first two groups of `COMPONENT_FILE`, the pattern
`gse-derived-index-([0-9]{20})-([0-9]{5})-([a-f0-9]{32})\.idx`. -/
def componentFile (filename : JavaString) : Option (JavaString × JavaString) :=
  let sequence := (filename.drop 18).take 20
  let ordinal := (filename.drop 39).take 5
  let generation := (filename.drop 45).take 32
  if filename = Utf8.ofString "gse-derived-index-" ++ sequence ++ Utf8.ofString "-" ++ ordinal ++
        Utf8.ofString "-" ++ generation ++ Utf8.ofString ".idx" ∧
      (sequence.length = 20 ∧ ordinal.length = 5 ∧ generation.length = 32) ∧
      sequence.all digit ∧ ordinal.all digit ∧ generation.all hexDigit then
    some (sequence, ordinal)
  else none

/-- The number that some digits spell. -/
def decimalValue (digits : JavaString) : ℕ :=
  digits.foldl (fun value c => 10 * value + (c.toNat - 0x30)) 0

/-- Whether the file name spells the sequence and the ordinal; `Long.parseLong` throws for the
digits of a larger number. -/
def bindsName {ε : Type} (overflow : ε) (filename : JavaString) (sequence ordinal : ℤ) :
    Except ε Bool :=
  match componentFile filename with
  | none => .ok false
  | some (first, second) =>
    if decimalValue first < 9223372036854775808 then
      .ok (decide (decimalValue first = sequence ∧ decimalValue second = ordinal))
    else .error overflow

/-- A file name that spells the sequence and the ordinal. -/
def Names (filename : JavaString) (sequence ordinal : ℤ) : Prop :=
  ∃ first second, componentFile filename = some (first, second) ∧
    decimalValue first < 9223372036854775808 ∧ decimalValue first = sequence ∧
    decimalValue second = ordinal

theorem bindsName_eq_ok {ε : Type} {overflow : ε} {filename : JavaString} {sequence ordinal : ℤ} :
    bindsName overflow filename sequence ordinal = .ok true ↔ Names filename sequence ordinal := by
  unfold bindsName Names
  cases componentFile filename with
  | none => simp
  | some groups =>
    obtain ⟨first, second⟩ := groups
    by_cases hlt : decimalValue first < 9223372036854775808 <;> simp [hlt]

/-- The variables of the loop over the entries. -/
structure EntryLoop where
  ordinal : ℤ
  names : List JavaString
  entries : List CatalogEntry

namespace EntryLoop

def start : EntryLoop := ⟨0, [], []⟩

def next (t : EntryLoop) (e : CatalogEntry) : EntryLoop :=
  ⟨t.ordinal + 1, e.filename :: t.names, t.entries ++ [e]⟩

/-- An entry that does not fit the loop's variables. -/
def Misfit (t : EntryLoop) (e : CatalogEntry) : Prop :=
  e.ordinal ≠ t.ordinal ∨ ¬validDescriptor e.kind e.field e.analyzer ∨ e.bytes < 128 ∨
    e.bytes > MAX_COMPONENT_BYTES ∨ e.filename ∈ t.names

instance (t : EntryLoop) (e : CatalogEntry) : Decidable (t.Misfit e) :=
  inferInstanceAs (Decidable (_ ∨ _))

/-- An entry that both parsers take. -/
def Fine (sequence : ℤ) (t : EntryLoop) (e : CatalogEntry) : Prop :=
  e.Valid ∧ ¬t.Misfit e ∧ Names e.filename sequence t.ordinal

theorem entries_foldl (entries : List CatalogEntry) (t : EntryLoop) :
    (entries.foldl next t).entries = t.entries ++ entries := by
  induction entries generalizing t with
  | nil => exact (List.append_nil _).symm
  | cons e entries ih =>
    rw [List.foldl_cons, ih]
    exact List.append_assoc t.entries [e] entries

theorem entries_foldl_start (entries : List CatalogEntry) :
    (entries.foldl next start).entries = entries :=
  entries_foldl entries start

end EntryLoop

section

variable {σ ε : Type} [Tape σ] (r : Reader σ ε)

/-- One turn of the loop over the entries, with the failures of an entry that does not fit, of a
number too large and of a name that does not bind. -/
def Reader.entryStep (misfit overflow unbound : ε) (sequence : ℤ) (t : EntryLoop) :
    Parser σ ε EntryLoop := do
  let entry ← r.readEntry
  refuse (t.Misfit entry) misfit
  let named ← liftM (bindsName overflow entry.filename sequence t.ordinal)
  refuse (named = false) unbound
  return t.next entry

theorem exact_entryStep (misfit overflow unbound : ε) (sequence : ℤ) (t : EntryLoop) :
    Exact (r.entryStep misfit overflow unbound sequence t) fun t' w =>
      ∃ e, t.Fine sequence e ∧ t' = t.next e ∧ w = e.write := by
  refine Exact.congr (.field (exact_readEntry r) fun _ _ => .check fun _ => .lift fun _ _ =>
    .check fun _ => exact_pure _) fun t' w => ?_
  constructor
  · rintro ⟨e, hvalid, _, ⟨hfits, named, hnamed, htrue, rfl, rfl⟩, rfl⟩
    rw [Bool.not_eq_false] at htrue
    subst htrue
    exact ⟨e, ⟨hvalid, hfits, bindsName_eq_ok.mp hnamed⟩, rfl, List.append_nil _⟩
  · rintro ⟨e, ⟨hvalid, hfits, hnamed⟩, rfl, rfl⟩
    exact ⟨e, hvalid, [], ⟨hfits, true, bindsName_eq_ok.mpr hnamed, nofun, rfl, rfl⟩,
      (List.append_nil _).symm⟩

end

/-- The index that an entry describes. -/
def CatalogEntry.descriptor (e : CatalogEntry) : DurableIndexDescriptor :=
  ⟨e.kind, e.field, e.analyzer⟩

/-- The content of a catalog that both parsers take. -/
structure CatalogContent (header : CatalogHeader) (entries : List CatalogEntry) : Prop where
  valid : header.Valid
  supported : header.format.Supported CATALOG_MAGIC
  generator : header.identities.generator = GENERATOR_ID
  generatorVersion : header.identities.generatorVersion = GENERATOR_VERSION
  count : entries.length ≤ MAX_COMPONENTS
  takes : Takes (EntryLoop.Fine header.sequence) EntryLoop.next .start entries

def writeCatalog (header : CatalogHeader) (entries : List CatalogEntry) : Bytes :=
  header.write ++ writeMany CatalogEntry.write entries

/-- A catalog of the checkpoint and its indexes. -/
structure CatalogBinding (authority : Authority) (header : CatalogHeader)
    (entries : List CatalogEntry) : Prop where
  bound : header.Bound authority
  descriptors : entries.map CatalogEntry.descriptor = authority.descriptors

end GeneralSearch.Derived
