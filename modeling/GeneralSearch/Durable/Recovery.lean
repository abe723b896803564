import GeneralSearch.Durable.Units

/-! `DurableRecovery.replay`: the frames of the log, decoded and applied one after the other to the
empty state or to a loaded checkpoint. -/

namespace GeneralSearch.Durable

open GeneralSearch.Storage GeneralSearch.Engine
open GeneralSearch.Utf8 (JavaString)

/-- `DurableWal.Frame`. -/
structure Frame where
  sequence : ℕ
  type : UInt8
  payload : Bytes
  deriving DecidableEq, Repr

/-- `DurableCheckpoint.Loaded`; the live keys are listed in the order of their document ids. -/
structure Loaded (K T : Type) where
  slots : List (Option T)
  documentIds : K → Option ℕ
  liveDocuments : ℕ
  nextDocId : ℕ
  sequence : ℕ
  indexes : List DurableIndexDescriptor

/-- `ReplayState`.  The derived snapshot of a checkpoint is left out: it only follows the slots. -/
structure ReplayState (K T : Type) where
  documentIds : K → Option ℕ
  slots : List (Option T)
  indexes : List DurableIndexDescriptor
  nextDocId : ℕ
  liveDocuments : ℕ
  lastSequence : ℕ
  replayedRecords : ℕ
  replayCreatedIndexes : ℕ

/-- `replayFailure`, `corruptPayload` and `codecFailure`. -/
def replayFailure (sequence : ℕ) (message : String) : DurabilityException :=
  ⟨.replayFailure, some sequence, message⟩
def corruptPayload (sequence : ℕ) (message : String) : DurabilityException :=
  ⟨.corruptWal, some sequence, message⟩
def codecFailure (sequence : ℕ) (message : String) : DurabilityException :=
  ⟨.codecFailure, some sequence, message⟩

/-- The exception of a `RuntimeException` that no check of its own reports. -/
def unexpectedFailure (sequence : ℕ) : DurabilityException :=
  replayFailure sequence "durable WAL replay failed"

/-! ### Reading a payload -/

/-- A call on `PayloadReader`: what it returns, and the bytes that remain. -/
abbrev Reader (α : Type) := StateT Bytes (Except DurabilityException) α

/-- `if (condition) throw failure`. -/
def throwIf (condition : Prop) [Decidable condition] (failure : DurabilityException) :
    Reader Unit := fun bytes =>
  if condition then .error failure else .ok ((), bytes)

/-- `requireRemaining` and the taking of that many bytes. -/
def readExact (sequence length : ℕ) (name : String) : Reader Bytes := fun bytes =>
  if length > bytes.length then .error (corruptPayload sequence (name ++ " is truncated"))
  else .ok (bytes.take length, bytes.drop length)

/-- `readByte`. -/
def readByte (sequence : ℕ) (name : String) : Reader UInt8 := do
  let bytes ← readExact sequence 1 name
  return bytes.headD 0

/-- `readInt`. -/
def readInt (sequence : ℕ) (name : String) : Reader ℤ := do
  let bytes ← readExact sequence 4 name
  return ofTwosComplement bytes

/-- `readBytes`. -/
def readBytes (sequence maximum : ℕ) (allowEmpty : Bool) (name : String) : Reader Bytes := do
  let length ← readInt sequence (name ++ " length")
  throwIf (length < 0 ∨ length > maximum ∨ (allowEmpty = false ∧ length = 0))
    (corruptPayload sequence (name ++ " has invalid length"))
  readExact sequence length.toNat name

/-- `readString` and `readStringAllowEmpty`. -/
def readString (sequence maximum : ℕ) (allowEmpty : Bool) (name : String) :
    Reader JavaString := do
  let encoded ← readBytes sequence maximum allowEmpty name
  match Utf8.decode encoded with
  | some value => return value
  | none => throw (corruptPayload sequence (name ++ " is not strict UTF-8"))

/-- `requireExhausted`. -/
def requireExhausted (sequence : ℕ) : Reader Unit := fun bytes =>
  if bytes = [] then .ok ((), bytes)
  else .error (corruptPayload sequence "WAL payload contains trailing bytes")

/-! ### Decoding -/

/-- `DecodedMutation`. -/
inductive DecodedMutation (K T : Type) where
  | add (key : K) (document : T)
  | update (key : K) (document : T)
  | remove (key : K)
  deriving DecidableEq, Repr

variable {K T : Type} [DecidableEq K] {ops : IndexOps T}

/-- `DecodedMutation.key`. -/
def DecodedMutation.key : DecodedMutation K T → K
  | .add key _ => key
  | .update key _ => key
  | .remove key => key

/-- `decodeKey`: every exception inside becomes the same one. -/
def decodeKey (setup : Setup K ops) (sequence : ℕ) (encoded : Bytes) :
    Except DurabilityException K :=
  match setup.codec.decodeKey encoded with
  | none => .error (codecFailure sequence "persisted business-key decode failed")
  | some key =>
    if setup.codec.encodeKey key = some encoded ∧
        encoded.length ≤ setup.config.maxEncodedKeyBytes then .ok key
    else .error (codecFailure sequence "persisted business-key decode failed")

/-- `decodeDocument`. -/
def decodeDocument (setup : Setup K ops) (key : K) (sequence : ℕ) (encoded : Bytes) :
    Except DurabilityException T :=
  match setup.codec.decodeDocument encoded with
  | none => .error (codecFailure sequence "persisted document decode failed")
  | some document =>
    if key = setup.idOf document ∧ setup.codec.encodeDocument document = some encoded ∧
        encoded.length ≤ setup.config.maxEncodedDocumentBytes then .ok document
    else .error (codecFailure sequence "persisted document decode failed")

/-- `decodeMutation`. -/
def decodeMutation (setup : Setup K ops) (sequence : ℕ) : Reader (DecodedMutation K T) := do
  let operation ← readByte sequence "mutation operation"
  throwIf (operation < MutationKind.add.operation ∨ operation > MutationKind.remove.operation)
    (corruptPayload sequence "invalid mutation operation")
  let keyBytes ← readBytes sequence setup.config.maxEncodedKeyBytes true "encoded key"
  let key ← decodeKey setup sequence keyBytes
  let documentLength ← readInt sequence "encoded document length"
  if operation = MutationKind.remove.operation then
    throwIf (documentLength ≠ -1) (corruptPayload sequence "remove mutation contains a document")
    return .remove key
  else
    throwIf (documentLength < 0 ∨ documentLength > setup.config.maxEncodedDocumentBytes)
      (corruptPayload sequence "invalid encoded document length")
    let documentBytes ← readExact sequence documentLength.toNat "encoded document"
    let document ← decodeDocument setup key sequence documentBytes
    return if operation = MutationKind.add.operation then .add key document
      else .update key document

/-- `decodeIndex`. -/
def decodeIndex (sequence : ℕ) : Reader DurableIndexDescriptor := do
  let kind ← readByte sequence "index kind"
  let fieldName ← readString sequence 1024 false "index field"
  let analyzerId ← readString sequence 1024 true "index analyzer"
  match DurableIndexDescriptor.make kind fieldName analyzerId with
  | some descriptor => return descriptor
  | none => throw (corruptPayload sequence "invalid persisted index descriptor")

/-- The elements of a bulk, in order, with no key twice. -/
def decodeBulk (setup : Setup K ops) (sequence : ℕ) :
    ℕ → List K → Reader (List (DecodedMutation K T))
  | 0, _ => return []
  | count + 1, distinct => do
    let mutation ← decodeMutation setup sequence
    throwIf (mutation.key ∈ distinct)
      (replayFailure sequence "persisted bulk contains a duplicate key")
    let rest ← decodeBulk setup sequence count (mutation.key :: distinct)
    return mutation :: rest

/-! ### Applying -/

/-- `applyMutation`. -/
def ReplayState.applyMutation (config : StorageConfig) (state : ReplayState K T)
    (mutation : DecodedMutation K T) (sequence : ℕ) :
    Except DurabilityException (ReplayState K T) :=
  match mutation with
  | .add key document =>
    if (state.documentIds key).isSome then
      .error (replayFailure sequence "replayed add targets an existing key")
    else if state.nextDocId = maxDocId then
      .error (replayFailure sequence "internal document ID space is exhausted")
    else if state.liveDocuments ≥ config.maxDocuments then
      .error (replayFailure sequence "replayed state exceeds document limit")
    else .ok { state with
      nextDocId := state.nextDocId + 1
      slots := state.slots ++ [some document]
      documentIds := Function.update state.documentIds key (some state.nextDocId)
      liveDocuments := state.liveDocuments + 1 }
  | .update key document =>
    match state.documentIds key with
    | none => .error (replayFailure sequence "replayed update targets a missing key")
    | some docId =>
      if docId < state.slots.length then
        .ok { state with slots := state.slots.set docId (some document) }
      else .error (unexpectedFailure sequence)
  | .remove key =>
    match state.documentIds key with
    | none => .ok state
    | some docId =>
      if docId < state.slots.length then
        .ok { state with
          documentIds := Function.update state.documentIds key none
          slots := state.slots.set docId none
          liveDocuments := state.liveDocuments - 1 }
      else .error (unexpectedFailure sequence)

/-- The second loop of `applyBulk`. -/
def ReplayState.applyMutations (config : StorageConfig) (sequence : ℕ) :
    ReplayState K T → List (DecodedMutation K T) → Except DurabilityException (ReplayState K T)
  | state, [] => .ok state
  | state, mutation :: rest => do
    let state ← state.applyMutation config mutation sequence
    applyMutations config sequence state rest

/-- `applyBulk`. -/
def ReplayState.applyBulk (setup : Setup K ops) (sequence : ℕ) (state : ReplayState K T) :
    Reader (ReplayState K T) := do
  let count ← readInt sequence "bulk element count"
  throwIf (count ≤ 0 ∨ count > setup.config.maxBulkElements)
    (corruptPayload sequence "invalid persisted bulk count")
  let mutations ← decodeBulk setup sequence count.toNat []
  state.applyMutations setup.config sequence mutations

/-- `applyCreateIndex`. -/
def ReplayState.applyCreateIndex (setup : Setup K ops) (state : ReplayState K T)
    (descriptor : DurableIndexDescriptor) (sequence : ℕ) :
    Except DurabilityException (ReplayState K T) :=
  if toDefinition setup descriptor = none then
    .error (replayFailure sequence "persisted index is incompatible with schema")
  else if descriptor ∈ state.indexes then
    .error (replayFailure sequence "replayed index create already exists")
  else .ok { state with
    indexes := state.indexes ++ [descriptor]
    replayCreatedIndexes := state.replayCreatedIndexes + 1 }

/-- `applyDropIndex`. -/
def ReplayState.applyDropIndex (setup : Setup K ops) (state : ReplayState K T)
    (fieldName : JavaString) (sequence : ℕ) : Except DurabilityException (ReplayState K T) :=
  if setup.schema.field fieldName = none then
    .error (replayFailure sequence "persisted index drop references unknown field")
  else .ok { state with indexes := state.indexes.filter fun index => index.fieldName ≠ fieldName }

/-- The unit of one frame. -/
def ReplayState.applyUnit (setup : Setup K ops) (state : ReplayState K T) (type : UInt8)
    (sequence : ℕ) : Reader (ReplayState K T) := do
  if type = singleType then
    let mutation ← decodeMutation setup sequence
    state.applyMutation setup.config mutation sequence
  else if type = bulkType then
    state.applyBulk setup sequence
  else if type = indexCreateType then
    let descriptor ← decodeIndex sequence
    state.applyCreateIndex setup descriptor sequence
  else if type = indexDropType then
    let fieldName ← readString sequence 1024 false "index field"
    state.applyDropIndex setup fieldName sequence
  else throw (replayFailure sequence "unknown durable WAL unit type")

/-- `Long.MAX_VALUE`. -/
def maxSequence : ℕ := 2 ^ 63 - 1

/-- `ReplayState.apply`. -/
def ReplayState.apply (setup : Setup K ops) (state : ReplayState K T) (frame : Frame) :
    Except DurabilityException (ReplayState K T) :=
  if state.lastSequence = maxSequence ∨ frame.sequence ≠ state.lastSequence + 1 then
    .error (replayFailure frame.sequence "WAL replay does not continue checkpoint sequence")
  else do
    let (state, rest) ← state.applyUnit setup frame.type frame.sequence frame.payload
    let _ ← requireExhausted frame.sequence rest
    return { state with
      lastSequence := frame.sequence
      replayedRecords := state.replayedRecords + 1 }

/-- `new ReplayState`. -/
def ReplayState.start (startupIndexes : List DurableIndexDescriptor) :
    Option (Loaded K T) → ReplayState K T
  | none => ⟨fun _ => none, [], startupIndexes, 0, 0, 0, 0, 0⟩
  | some checkpoint => ⟨checkpoint.documentIds, checkpoint.slots, checkpoint.indexes,
      checkpoint.nextDocId, checkpoint.liveDocuments, checkpoint.sequence, 0, 0⟩

/-- The loop of `replay` over the frames: those that the checkpoint covers are skipped. -/
def ReplayState.applyFrames (setup : Setup K ops) :
    ReplayState K T → List Frame → Except DurabilityException (ReplayState K T)
  | state, [] => .ok state
  | state, frame :: rest =>
    if frame.sequence ≤ state.lastSequence then applyFrames setup state rest
    else do
      let state ← state.apply setup frame
      applyFrames setup state rest

/-- `DurableRecovery.replay` of the frames of the retained generations, in order. -/
def replay (setup : Setup K ops) (startupIndexes : List DurableIndexDescriptor)
    (checkpoint : Option (Loaded K T)) (frames : List Frame) :
    Except DurabilityException (ReplayState K T) :=
  (ReplayState.start startupIndexes checkpoint).applyFrames setup frames

/-! ### Reading what was written -/

theorem Reader.bind_ok {α β : Type} {x : Reader α} {f : α → Reader β} {bytes rest : Bytes} {a : α}
    (h : x bytes = .ok (a, rest)) : (x >>= f) bytes = f a rest := by
  show StateT.bind x f bytes = _
  simp only [StateT.bind, h]
  rfl

theorem Reader.bind_throwIf {β : Type} {condition : Prop} [Decidable condition]
    {failure : DurabilityException} {f : Unit → Reader β} {bytes : Bytes} (h : ¬ condition) :
    (throwIf condition failure >>= f) bytes = f () bytes :=
  Reader.bind_ok (by simp [throwIf, h])

theorem readExact_append (sequence : ℕ) (name : String) (taken rest : Bytes) :
    readExact sequence taken.length name (taken ++ rest) = .ok (taken, rest) := by
  simp [readExact]

theorem readByte_cons (sequence : ℕ) (name : String) (b : UInt8) (rest : Bytes) :
    readByte sequence name (b :: rest) = .ok (b, rest) := by
  have hread : readExact sequence 1 name (b :: rest) = .ok ([b], rest) :=
    readExact_append sequence name [b] rest
  rw [readByte, Reader.bind_ok hread]
  rfl

theorem readInt_append (sequence : ℕ) (name : String) {v : ℤ} (hlow : -2147483648 ≤ v)
    (hhigh : v < 2147483648) (rest : Bytes) :
    readInt sequence name (twosComplement 4 v ++ rest) = .ok (v, rest) := by
  have hread := readExact_append sequence name (twosComplement 4 v) rest
  rw [length_twosComplement] at hread
  rw [readInt, Reader.bind_ok hread]
  show Except.ok _ = _
  rw [ofTwosComplement_twosComplement (by norm_num; omega) (by norm_num; omega)]

theorem readBytes_append (sequence maximum : ℕ) (allowEmpty : Bool) (name : String) {value : Bytes}
    (hmax : value.length ≤ maximum) (hint : value.length < 2147483648)
    (hempty : allowEmpty = true ∨ value ≠ []) (rest : Bytes) :
    readBytes sequence maximum allowEmpty name (writeBytes value ++ rest) = .ok (value, rest) := by
  rw [readBytes, writeBytes, List.append_assoc,
    Reader.bind_ok (readInt_append sequence _ (by omega) (by omega) _)]
  have hvalid : ¬ ((value.length : ℤ) < 0 ∨ (value.length : ℤ) > maximum ∨
      (allowEmpty = false ∧ (value.length : ℤ) = 0)) := by
    rcases hempty with rfl | h
    · simp only [reduceCtorEq, false_and, or_false]
      omega
    · have := List.length_pos_iff.mpr h
      omega
  rw [Reader.bind_throwIf hvalid]
  exact readExact_append sequence name value rest

theorem Reader.bind_lift {α β : Type} {x : Except DurabilityException α} {f : α → Reader β}
    {bytes : Bytes} {a : α} (h : x = .ok a) :
    ((liftM x : Reader α) >>= f) bytes = f a bytes := by
  subst h
  rfl

/-- What replay decodes of a mutation: the same operation on the same key. -/
inductive Decodes (setup : Setup K ops) : SearchMutation K T → DecodedMutation K T → Prop
  | add (document document' : T) : setup.idOf document' = setup.idOf document →
      Decodes setup (.add document) (.add (setup.idOf document) document')
  | update (document document' : T) : setup.idOf document' = setup.idOf document →
      Decodes setup (.update document) (.update (setup.idOf document) document')
  | remove (id : K) : Decodes setup (.remove id) (.remove id)

/-- Replay decodes the same operation on the same key, and its document has the same persisted
bytes. -/
inductive Persists (setup : Setup K ops) : SearchMutation K T → DecodedMutation K T → Prop
  | add (document document' : T) : setup.idOf document' = setup.idOf document →
      setup.codec.encodeDocument document' = setup.codec.encodeDocument document →
      Persists setup (.add document) (.add (setup.idOf document) document')
  | update (document document' : T) : setup.idOf document' = setup.idOf document →
      setup.codec.encodeDocument document' = setup.codec.encodeDocument document →
      Persists setup (.update document) (.update (setup.idOf document) document')
  | remove (id : K) : Persists setup (.remove id) (.remove id)

variable {setup : Setup K ops}

omit [DecidableEq K] in
theorem Persists.decodes {mutation : SearchMutation K T} {decoded : DecodedMutation K T}
    (h : Persists setup mutation decoded) : Decodes setup mutation decoded := by
  cases h with
  | add document document' hid => exact .add document document' hid
  | update document document' hid => exact .update document document' hid
  | remove id => exact .remove id

theorem canonicalKey_ok {key : K} {encoded : Bytes} (h : canonicalKey setup key = .ok encoded) :
    encoded.length ≤ setup.config.maxEncodedKeyBytes ∧
      setup.codec.encodeKey key = some encoded ∧ setup.codec.decodeKey encoded = some key := by
  unfold canonicalKey at h
  split at h
  · cases h
  split at h
  · cases h
  rename_i henc _ _ hdec
  split at h
  · rename_i hcond
    cases h
    obtain ⟨hlen, rfl, -⟩ := hcond
    exact ⟨hlen, henc, hdec⟩
  · cases h

theorem canonicalDocument_ok {key : K} {document : T} {encoded : Bytes}
    (h : canonicalDocument setup key document = .ok encoded) :
    encoded.length ≤ setup.config.maxEncodedDocumentBytes ∧
      ∃ decoded, setup.codec.decodeDocument encoded = some decoded ∧
        setup.idOf decoded = key ∧ setup.codec.encodeDocument decoded = some encoded := by
  unfold canonicalDocument at h
  split at h
  · cases h
  split at h
  · cases h
  rename_i decoded hdec
  split at h
  · rename_i hcond
    cases h
    exact ⟨hcond.1, decoded, hdec, hcond.2.1.symm, hcond.2.2⟩
  · cases h

theorem canonicalDocument_encoded {key : K} {document : T} {encoded : Bytes}
    (h : canonicalDocument setup key document = .ok encoded) :
    setup.codec.encodeDocument document = some encoded := by
  unfold canonicalDocument at h
  split at h
  · cases h
  rename_i hencoded
  split at h
  · cases h
  split at h
  · cases h
    exact hencoded
  · cases h

theorem decodeKey_canonical {key : K} {encoded : Bytes} (h : canonicalKey setup key = .ok encoded)
    (sequence : ℕ) : decodeKey setup sequence encoded = .ok key := by
  obtain ⟨hlen, henc, hdec⟩ := canonicalKey_ok h
  simp [decodeKey, hdec, henc, hlen]

theorem decodeDocument_canonical {key : K} {document : T} {encoded : Bytes}
    (h : canonicalDocument setup key document = .ok encoded) (sequence : ℕ) :
    ∃ decoded, setup.idOf decoded = key ∧
      setup.codec.encodeDocument decoded = setup.codec.encodeDocument document ∧
      decodeDocument setup key sequence encoded = .ok decoded := by
  obtain ⟨hlen, decoded, hdec, hid, henc⟩ := canonicalDocument_ok h
  refine ⟨decoded, hid, ?_, by simp [decodeDocument, hdec, hid, henc, hlen]⟩
  rw [henc, canonicalDocument_encoded h]

theorem requireFrameBound_ok {n : ℕ} (h : requireFrameBound n = .ok ()) : n < 2147483648 := by
  unfold requireFrameBound at h
  split at h
  · cases h
  · rename_i hlt
    unfold frameHeaderBytes frameTrailerBytes maxFrameBytes at hlt
    omega

/-- The payload of a mutation with a document. -/
theorem prepareMutation_some {kind : MutationKind} {id : K} {document : T} {payload : Bytes}
    (h : prepareMutation setup kind id (some document) = .ok payload) :
    ∃ key encoded, canonicalKey setup id = .ok key ∧
      canonicalDocument setup id document = .ok encoded ∧
      payload = [kind.operation] ++ writeBytes key ++ writeBytes encoded ∧
      payload.length < 2147483648 := by
  unfold prepareMutation at h
  cases hkey : canonicalKey setup id with
  | error e => simp [hkey, bind, Except.bind] at h
  | ok key =>
    cases hdoc : canonicalDocument setup id document with
    | error e => simp [hkey, hdoc, bind, Except.bind, Functor.map, Except.map] at h
    | ok encoded =>
      simp only [hkey, hdoc, bind, Except.bind, Functor.map, Except.map, Option.elim] at h
      split at h
      · cases h
      · rename_i hbound
        cases h
        exact ⟨key, encoded, rfl, rfl, rfl, requireFrameBound_ok hbound⟩

theorem prepareMutation_none {kind : MutationKind} {id : K} {payload : Bytes}
    (h : prepareMutation (T := T) setup kind id none = .ok payload) :
    ∃ key, canonicalKey setup id = .ok key ∧
      payload = [kind.operation] ++ writeBytes key ++ twosComplement 4 (-1) ∧
      payload.length < 2147483648 := by
  unfold prepareMutation at h
  cases hkey : canonicalKey setup id with
  | error e => simp [hkey, bind, Except.bind] at h
  | ok key =>
    simp only [hkey, bind, Except.bind, pure, Except.pure, Option.elim] at h
    split at h
    · cases h
    · rename_i hbound
      cases h
      exact ⟨key, rfl, rfl, requireFrameBound_ok hbound⟩

/-- The payload of a mutation is decoded as that mutation, with the same persisted document. -/
theorem decodeMutation_persists {mutation : SearchMutation K T} {payload : Bytes}
    (h : prepareDurableMutation setup mutation = .ok payload) (sequence : ℕ) (rest : Bytes) :
    ∃ decoded, Persists setup mutation decoded ∧
      decodeMutation setup sequence (payload ++ rest) = .ok (decoded, rest) := by
  have hdocument : ∀ {kind : MutationKind} {document : T},
      prepareMutation setup kind (setup.idOf document) (some document) = .ok payload →
      kind = .add ∨ kind = .update →
      ∃ decoded, setup.idOf decoded = setup.idOf document ∧
        setup.codec.encodeDocument decoded = setup.codec.encodeDocument document ∧
        decodeMutation setup sequence (payload ++ rest) =
          .ok (if kind = .add then .add (setup.idOf document) decoded
            else .update (setup.idOf document) decoded, rest) := by
    intro kind document h hkind
    obtain ⟨key, encoded, hkey, hdoc, rfl, hlen⟩ := prepareMutation_some h
    obtain ⟨decoded, hid, hencode, hdecode⟩ := decodeDocument_canonical hdoc sequence
    simp only [List.length_append, List.length_singleton, writeBytes, length_twosComplement] at hlen
    have hkeyRead := readBytes_append sequence setup.config.maxEncodedKeyBytes true "encoded key"
      (canonicalKey_ok hkey).1 (by omega) (.inl rfl) (writeBytes encoded ++ rest)
    refine ⟨decoded, hid, hencode, ?_⟩
    rw [List.append_assoc, List.append_assoc, List.singleton_append, decodeMutation,
      Reader.bind_ok (readByte_cons ..)]
    have hop : ¬ (kind.operation < MutationKind.add.operation ∨
        kind.operation > MutationKind.remove.operation) := by
      rcases hkind with rfl | rfl <;> decide
    have hremove : kind.operation ≠ MutationKind.remove.operation := by
      rcases hkind with rfl | rfl <;> decide
    rw [Reader.bind_throwIf hop, Reader.bind_ok hkeyRead, Reader.bind_lift (decodeKey_canonical hkey sequence),
      writeBytes, List.append_assoc,
      Reader.bind_ok (readInt_append sequence _ (by omega) (by omega) _), if_neg hremove,
      Reader.bind_throwIf (by have := (canonicalDocument_ok hdoc).1; omega), Int.toNat_natCast,
      Reader.bind_ok (readExact_append ..), Reader.bind_lift hdecode]
    rcases hkind with rfl | rfl <;> rfl
  cases mutation with
  | add document =>
    obtain ⟨decoded, hid, hencode, hread⟩ := hdocument h (.inl rfl)
    exact ⟨_, .add document decoded hid hencode, hread⟩
  | update document =>
    obtain ⟨decoded, hid, hencode, hread⟩ := hdocument h (.inr rfl)
    exact ⟨_, .update document decoded hid hencode, hread⟩
  | remove id =>
    obtain ⟨key, hkey, rfl, hlen⟩ := prepareMutation_none h
    simp only [List.length_append, List.length_singleton, writeBytes, length_twosComplement] at hlen
    refine ⟨_, .remove id, ?_⟩
    rw [List.append_assoc, List.append_assoc, List.singleton_append, decodeMutation,
      Reader.bind_ok (readByte_cons ..), Reader.bind_throwIf (by decide),
      Reader.bind_ok (readBytes_append sequence _ true _ (canonicalKey_ok hkey).1 (by omega)
        (.inl rfl) _), Reader.bind_lift (decodeKey_canonical hkey sequence),
      Reader.bind_ok (readInt_append sequence _ (by omega) (by omega) _), if_pos rfl,
      Reader.bind_throwIf (by simp)]
    rfl

/-- The payload of a mutation is decoded as that mutation. -/
theorem decodeMutation_prepared {mutation : SearchMutation K T} {payload : Bytes}
    (h : prepareDurableMutation setup mutation = .ok payload) (sequence : ℕ) (rest : Bytes) :
    ∃ decoded, Decodes setup mutation decoded ∧
      decodeMutation setup sequence (payload ++ rest) = .ok (decoded, rest) := by
  obtain ⟨decoded, hpersists, hread⟩ := decodeMutation_persists h sequence rest
  exact ⟨decoded, hpersists.decodes, hread⟩

/-! ### Index units -/

theorem writeString_ok {value : JavaString} {payload : Bytes} (h : writeString value = some payload) :
    payload = writeBytes (Utf8.getBytes value) ∧ (Utf8.getBytes value).length ≤ 1024 := by
  unfold writeString at h
  split at h
  · cases h
  · cases h
    exact ⟨rfl, by omega⟩

/-- A well-formed string is read back. -/
theorem readString_written {value : JavaString} {payload : Bytes}
    (h : writeString value = some payload) (hwf : Utf8.WellFormed value) {allowEmpty : Bool}
    (hempty : allowEmpty = true ∨ Utf8.getBytes value ≠ []) (sequence : ℕ) (name : String)
    (rest : Bytes) :
    readString sequence 1024 allowEmpty name (payload ++ rest) = .ok (value, rest) := by
  obtain ⟨rfl, hlen⟩ := writeString_ok h
  rw [readString, Reader.bind_ok (readBytes_append sequence 1024 allowEmpty name hlen (by omega)
    hempty rest), Utf8.decode_getBytes hwf]
  rfl

theorem descriptor_analyzer_wellFormed (descriptor : DurableIndexDescriptor) :
    Utf8.WellFormed descriptor.analyzerId := by
  obtain ⟨-, -, htext, hother⟩ := descriptor.valid
  by_cases hkind : descriptor.kind = textKind
  · rw [htext hkind]
    decide
  · rw [hother hkind]
    decide

theorem DurableIndexDescriptor.make_self (descriptor : DurableIndexDescriptor) :
    DurableIndexDescriptor.make descriptor.kind descriptor.fieldName descriptor.analyzerId =
      some descriptor := by
  rw [DurableIndexDescriptor.make, dif_pos descriptor.valid]

/-- The unit of an index creation is decoded as its descriptor. -/
theorem decodeIndex_unit {descriptor : DurableIndexDescriptor} {unit : PreparedUnit}
    (h : createIndexUnit descriptor = some unit) (hwf : Utf8.WellFormed descriptor.fieldName)
    (sequence : ℕ) :
    unit.type = indexCreateType ∧ decodeIndex sequence unit.payload = .ok (descriptor, []) := by
  simp only [createIndexUnit, bind, Option.bind_eq_some_iff, pure, Option.some.injEq] at h
  obtain ⟨fieldName, hfield, analyzerId, hanalyzer, rfl⟩ := h
  refine ⟨rfl, ?_⟩
  have hne : Utf8.getBytes descriptor.fieldName ≠ [] :=
    List.length_pos_iff.mp descriptor.valid.2.1.1
  have hread := readString_written hanalyzer (descriptor_analyzer_wellFormed descriptor)
    (.inl rfl) sequence "index analyzer" []
  rw [List.append_nil] at hread
  show decodeIndex sequence ([descriptor.kind] ++ fieldName ++ analyzerId) = _
  rw [List.append_assoc, List.singleton_append, decodeIndex, Reader.bind_ok (readByte_cons ..),
    Reader.bind_ok (readString_written hfield hwf (.inr hne) ..), Reader.bind_ok hread,
    DurableIndexDescriptor.make_self]
  rfl

/-- The unit of an index drop is decoded as its field name. -/
theorem readString_dropUnit {fieldName : JavaString} {unit : PreparedUnit}
    (h : dropIndexUnit fieldName = some unit) (hwf : Utf8.WellFormed fieldName)
    (hne : fieldName ≠ []) (sequence : ℕ) :
    unit.type = indexDropType ∧
      readString sequence 1024 false "index field" unit.payload = .ok (fieldName, []) := by
  simp only [dropIndexUnit, bind, Option.bind_eq_some_iff, pure, Option.some.injEq] at h
  obtain ⟨encoded, hencoded, rfl⟩ := h
  refine ⟨rfl, ?_⟩
  have hbytes : Utf8.getBytes fieldName ≠ [] := by
    intro hnil
    have hdecode := Utf8.decode_getBytes hwf
    rw [hnil] at hdecode
    exact hne (Option.some.inj hdecode).symm
  have hread := @readString_written fieldName encoded hencoded hwf false (.inr hbytes) sequence "index field" []
  rwa [List.append_nil] at hread

/-! ### One frame -/

/-- A frame that continues the log applies its unit. -/
theorem ReplayState.apply_unit {state : ReplayState K T} (state' : ReplayState K T) {frame : Frame}
    (hmax : state.lastSequence < maxSequence) (hseq : frame.sequence = state.lastSequence + 1)
    (hunit : state.applyUnit setup frame.type frame.sequence frame.payload = .ok (state', [])) :
    state.apply setup frame = .ok { state' with
      lastSequence := frame.sequence
      replayedRecords := state'.replayedRecords + 1 } := by
  rw [ReplayState.apply, if_neg (by omega), hunit]
  rfl

end GeneralSearch.Durable
