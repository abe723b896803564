import GeneralSearch.Lib.Utf8
import GeneralSearch.Engine.IndexBuild

/-! The units of the durable log: what `DurableCommitCoordinator` encodes for a mutation, a bulk, an
index creation and an index drop, and the `PayloadReader` that replay decodes them with. -/

namespace GeneralSearch.Durable

open GeneralSearch.Storage GeneralSearch.Engine
open GeneralSearch.Utf8 (JavaString)

/-- `DurabilityException.Reason`, the reasons that are used here. -/
inductive Reason where
  | codecFailure
  | capacityExceeded
  | incompatibleStorage
  | corruptWal
  | corruptCheckpoint
  | replayFailure
  deriving DecidableEq, Repr

/-- `DurabilityException`. -/
structure DurabilityException where
  reason : Reason
  sequence : Option ℕ
  message : String
  deriving DecidableEq, Repr

/-! ### Configuration, codec and schema -/

/-- `DurableCodec`.  The codec is deterministic; `none` is an exception or a null result. -/
structure DurableCodec (K T : Type) where
  encodeKey : K → Option Bytes
  decodeKey : Bytes → Option K
  encodeDocument : T → Option Bytes
  decodeDocument : Bytes → Option T

/-- `DurableStorageConfig`, the limits. -/
structure StorageConfig where
  maxEncodedKeyBytes : ℕ
  maxEncodedDocumentBytes : ℕ
  maxBulkElements : ℕ
  maxDocuments : ℕ
  maxRetainedBytes : ℕ
  deriving DecidableEq, Repr

/-- `TextField`: its field, whether its analyzer is the `SimpleAnalyzer`, and which of the objects
that agree in both it is. -/
structure TextField (Field : Type) where
  field : Field
  simpleAnalyzer : Bool
  identity : ℕ
  deriving DecidableEq, Repr

/-- `SearchSchema`: the registered fields and text fields.  A name is registered once and is not
blank, and a text field stands on a registered string field. -/
structure SearchSchema (Field : Type) where
  name : Field → JavaString
  isString : Field → Bool
  fields : List Field
  textFields : List (TextField Field)
  unique : (fields.map name).Nodup
  named : ∀ f ∈ fields, name f ≠ []
  textRegistered : ∀ t ∈ textFields, t.field ∈ fields ∧ isString t.field = true

variable {K T Field : Type}

/-- `SearchSchema.field`. -/
def SearchSchema.field (schema : SearchSchema Field) (name : JavaString) : Option Field :=
  schema.fields.find? fun f => schema.name f = name

/-- `SearchSchema.textField`. -/
def SearchSchema.textField (schema : SearchSchema Field) (name : JavaString) :
    Option (TextField Field) :=
  schema.textFields.find? fun t => schema.name t.field = name

/-- The field is the one that the schema has under its name. -/
def SearchSchema.registered [DecidableEq Field] (schema : SearchSchema Field) (f : Field) : Bool :=
  schema.field (schema.name f) = some f

/-- The durable engine's surroundings: the configuration, the codec, the key of a document, the
schema, and the durable kind of an index class, which the four built-in classes have. -/
structure Setup (K : Type) {T : Type} (ops : IndexOps T) where
  config : StorageConfig
  codec : DurableCodec K T
  idOf : T → K
  schema : SearchSchema ops.Field
  durableKind : ops.Kind → Option UInt8
  classOf : UInt8 → ops.Kind
  durableKind_eq : ∀ k b, durableKind k = some b ↔ (1 ≤ b ∧ b ≤ 4) ∧ k = classOf b

/-- `IndexDefinition`: its field, the class of its snapshots, and the text field of a text index.
The field of a prefix index has strings as its values. -/
structure IndexDefinition {ops : IndexOps T} (setup : Setup K ops) where
  field : ops.Field
  indexType : ops.Kind
  textField : Option (TextField ops.Field)
  typed : setup.durableKind indexType = some 3 → setup.schema.isString field = true
  text : setup.durableKind indexType = some 4 → ∃ t, textField = some t ∧ t.field = field

/-! ### Index descriptors -/

def equalityKind : UInt8 := 1
def rangeKind : UInt8 := 2
def prefixKind : UInt8 := 3
def textKind : UInt8 := 4

/-- `SIMPLE_ANALYZER`. -/
def simpleAnalyzer : JavaString := Utf8.ofString "gse-simple-v1"

/-- The checks of the constructor of `DurableIndexDescriptor`. -/
def descriptorValid (kind : UInt8) (fieldName analyzerId : JavaString) : Prop :=
  (equalityKind ≤ kind ∧ kind ≤ textKind) ∧
    (0 < (Utf8.getBytes fieldName).length ∧ (Utf8.getBytes fieldName).length ≤ 1024) ∧
    (kind = textKind → analyzerId = simpleAnalyzer) ∧ (kind ≠ textKind → analyzerId = [])

instance (kind : UInt8) (fieldName analyzerId : JavaString) :
    Decidable (descriptorValid kind fieldName analyzerId) :=
  inferInstanceAs (Decidable (_ ∧ _ ∧ _ ∧ _))

/-- `DurableIndexDescriptor`. -/
structure DurableIndexDescriptor where
  kind : UInt8
  fieldName : JavaString
  analyzerId : JavaString
  valid : descriptorValid kind fieldName analyzerId
  deriving DecidableEq

/-- `new DurableIndexDescriptor`. -/
def DurableIndexDescriptor.make (kind : UInt8) (fieldName analyzerId : JavaString) :
    Option DurableIndexDescriptor :=
  if h : descriptorValid kind fieldName analyzerId then some ⟨kind, fieldName, analyzerId, h⟩
  else none

variable {ops : IndexOps T}

/-- `DurableIndexDescriptor.from`, of a definition and of a snapshot alike: the text field of an
index in the registry is the schema's. -/
def descriptorOf (setup : Setup K ops) (field : ops.Field) (indexType : ops.Kind) :
    Option DurableIndexDescriptor :=
  match setup.durableKind indexType with
  | none => none
  | some kind =>
    if kind = textKind then
      match setup.schema.textField (setup.schema.name field) with
      | some text =>
        if text.simpleAnalyzer then
          DurableIndexDescriptor.make kind (setup.schema.name field) simpleAnalyzer
        else none
      | none => none
    else DurableIndexDescriptor.make kind (setup.schema.name field) []

/-- `validateTextIndexDefinition`. -/
def validateTextIndexDefinition [DecidableEq ops.Field] {setup : Setup K ops}
    (definition : IndexDefinition setup) : Bool :=
  match definition.textField with
  | none => true
  | some text => setup.schema.textField (setup.schema.name text.field) = some text

/-- `DurableIndexDescriptor.toDefinition`: the field and the class of the definition, or `none` when
the schema refuses the descriptor. -/
def toDefinition (setup : Setup K ops) (descriptor : DurableIndexDescriptor) :
    Option (ops.Field × ops.Kind) :=
  match setup.schema.field descriptor.fieldName with
  | none => none
  | some field =>
    if descriptor.kind = prefixKind then
      if setup.schema.isString field then some (field, setup.classOf descriptor.kind) else none
    else if descriptor.kind = textKind then
      match setup.schema.textField descriptor.fieldName with
      | some text =>
        if text.simpleAnalyzer ∧ descriptor.analyzerId = simpleAnalyzer then
          some (field, setup.classOf descriptor.kind)
        else none
      | none => none
    else some (field, setup.classOf descriptor.kind)

/-! ### The units of the coordinator -/

/-- `DurableCommitCoordinator.MutationKind` with its operation byte. -/
inductive MutationKind where
  | add
  | update
  | remove
  deriving DecidableEq, Repr

def MutationKind.operation : MutationKind → UInt8
  | .add => 1
  | .update => 2
  | .remove => 3

/-- `DurableWal.FRAME_HEADER_BYTES`, `FRAME_TRAILER_BYTES`, `MAX_FRAME_BYTES` and
`GENERATION_HEADER_BYTES`. -/
def frameHeaderBytes : ℕ := 28
def frameTrailerBytes : ℕ := 4
def maxFrameBytes : ℕ := 256 * 1024 * 1024
def generationHeaderBytes : ℕ := 48

/-- The unit types of `DurableWal`. -/
def singleType : UInt8 := 1
def bulkType : UInt8 := 2
def indexCreateType : UInt8 := 3
def indexDropType : UInt8 := 4

/-- `DurableCommitCoordinator.PreparedUnit`. -/
structure PreparedUnit where
  type : UInt8
  payload : Bytes
  deriving DecidableEq, Repr

/-- `DurableCommitCoordinator.codecFailure`. -/
def commitCodecFailure (message : String) : DurabilityException :=
  ⟨.codecFailure, none, message⟩

/-- `requireFrameBound`. -/
def requireFrameBound (payloadBytes : ℕ) : Except DurabilityException Unit :=
  if frameHeaderBytes + payloadBytes + frameTrailerBytes > maxFrameBytes then
    .error ⟨.capacityExceeded, none, "encoded WAL frame exceeds the 256 MiB hard limit"⟩
  else .ok ()

/-- `writeBytes`. -/
def writeBytes (value : Bytes) : Bytes := twosComplement 4 value.length ++ value

/-- `writeString`; the length check comes first. -/
def writeString (value : JavaString) : Option Bytes :=
  if (Utf8.getBytes value).length > 1024 then none else some (writeBytes (Utf8.getBytes value))

section

variable [DecidableEq K]

/-- `canonicalKey`: every exception inside becomes the same one. -/
def canonicalKey (setup : Setup K ops) (key : K) : Except DurabilityException Bytes :=
  match setup.codec.encodeKey key with
  | none => .error (commitCodecFailure "business-key codec validation failed")
  | some encoded =>
    match setup.codec.decodeKey encoded with
    | none => .error (commitCodecFailure "business-key codec validation failed")
    | some decoded =>
      if encoded.length ≤ setup.config.maxEncodedKeyBytes ∧ key = decoded ∧
          setup.codec.encodeKey decoded = some encoded then .ok encoded
      else .error (commitCodecFailure "business-key codec validation failed")

/-- `canonicalDocument`. -/
def canonicalDocument (setup : Setup K ops) (expectedId : K) (document : T) :
    Except DurabilityException Bytes :=
  match setup.codec.encodeDocument document with
  | none => .error (commitCodecFailure "document codec validation failed")
  | some encoded =>
    match setup.codec.decodeDocument encoded with
    | none => .error (commitCodecFailure "document codec validation failed")
    | some decoded =>
      if encoded.length ≤ setup.config.maxEncodedDocumentBytes ∧
          expectedId = setup.idOf decoded ∧
          setup.codec.encodeDocument decoded = some encoded then .ok encoded
      else .error (commitCodecFailure "document codec validation failed")

/-- `prepareMutation`: the payload of one mutation. -/
def prepareMutation (setup : Setup K ops) (kind : MutationKind) (id : K) (document : Option T) :
    Except DurabilityException Bytes := do
  let key ← canonicalKey setup id
  let encodedDocument ← match document with
    | none => pure none
    | some document => some <$> canonicalDocument setup id document
  let payload := [kind.operation] ++ writeBytes key ++
    (encodedDocument.elim (twosComplement 4 (-1)) writeBytes)
  requireFrameBound payload.length
  return payload

/-- The durable form of a mutation: `prepareDurableMutation`. -/
def prepareDurableMutation (setup : Setup K ops) :
    SearchMutation K T → Except DurabilityException Bytes
  | .add document => prepareMutation setup .add (setup.idOf document) (some document)
  | .update document => prepareMutation setup .update (setup.idOf document) (some document)
  | .remove id => prepareMutation setup .remove id none

end

/-- `DurableCommitCoordinator.bulk`. -/
def bulkUnit (config : StorageConfig) (mutations : List Bytes) :
    Except DurabilityException PreparedUnit := do
  if mutations.length > config.maxBulkElements then
    throw ⟨.capacityExceeded, none, "bulk exceeds the configured persisted element limit"⟩
  requireFrameBound (4 + mutations.flatten.length)
  return ⟨bulkType, twosComplement 4 mutations.length ++ mutations.flatten⟩

/-- `DurableCommitCoordinator.createIndex`. -/
def createIndexUnit (descriptor : DurableIndexDescriptor) : Option PreparedUnit := do
  let fieldName ← writeString descriptor.fieldName
  let analyzerId ← writeString descriptor.analyzerId
  return ⟨indexCreateType, [descriptor.kind] ++ fieldName ++ analyzerId⟩

/-- `DurableCommitCoordinator.dropIndex`. -/
def dropIndexUnit (fieldName : JavaString) : Option PreparedUnit := do
  let encoded ← writeString fieldName
  return ⟨indexDropType, encoded⟩

end GeneralSearch.Durable
