import GeneralSearch.Engine.IndexContents
import GeneralSearch.Ranked.Maintenance

/-! The engine over the built-in indexes themselves.  `registryOps` puts the builders of the equality,
the range, the prefix and the text index behind the interfaces that the writer calls.  A call that
throws leaves no index behind: where a run of the writer takes it for one that returned, the index has
failed for good.  All other indexes of the published snapshot are maintained, whatever batches, bulk
mutations and online builds they went through, so that queries can rely on them
(`run_maintained`). -/

namespace GeneralSearch.Planner.IndexDefinition

open GeneralSearch.Index

variable {T : Type} {S : Schema T}

/-- The values that the index is over. -/
def Key : IndexDefinition S → Type
  | .equality field => S.Val field
  | .range field => S.Val field
  | .prefixes _ => JString

instance (definition : IndexDefinition S) : DecidableEq definition.Key :=
  match definition with
  | .equality field => inferInstanceAs (DecidableEq (S.Val field))
  | .range field => inferInstanceAs (DecidableEq (S.Val field))
  | .prefixes _ => inferInstanceAs (DecidableEq JString)

/-- The dictionary of the index. -/
def values : (definition : IndexDefinition S) → BitmapDictionary definition.Key
  | .equality field => equalityValues (S.Val field)
  | .range field => rangeValues (S.cmp field)
  | .prefixes _ => prefixValues

def valueOf : (definition : IndexDefinition S) → T → Option definition.Key
  | .equality field => S.fieldValue field
  | .range field => S.fieldValue field
  | .prefixes field => S.stringOf field

/-- `IndexDefinition.field`. -/
def field : IndexDefinition S → S.Field
  | .equality field => field
  | .range field => field
  | .prefixes field => .inl field

end GeneralSearch.Planner.IndexDefinition

namespace GeneralSearch.Ranked

open GeneralSearch.Index GeneralSearch.Lib GeneralSearch.Planner GeneralSearch.Storage
open GeneralSearch.Engine (EngineState PublishedState Event maxDocId)

variable {T : Type} {S : Schema T}

/-! ### The built-in indexes -/

/-- The class of an index snapshot, which the registry compares. -/
inductive IndexClass where
  | equality
  | range
  | prefixes
  | text
  deriving DecidableEq, Repr

def valueClass : IndexDefinition S → IndexClass
  | .equality _ => .equality
  | .range _ => .range
  | .prefixes _ => .prefixes

/-- An index snapshot of the registry; `failed` stands where a call has thrown. -/
inductive RegistryIndex (S : Schema T) where
  | value (definition : IndexDefinition S) (snapshot : ValueIndexSnapshot definition.values)
  | text (textField : S.TextField) (contents : TextIndexContents)
  | failed (field : S.Field) (indexClass : IndexClass)

inductive RegistryBuilder (S : Schema T) where
  | value (definition : IndexDefinition S) (builder : ValueIndexBuilder definition.values)
  | text (textField : S.TextField) (builder : TextIndexBuilder)
  | failed (field : S.Field) (indexClass : IndexClass)

namespace RegistryIndex

/-- `IndexSnapshot.field`. -/
def field : RegistryIndex S → S.Field
  | .value definition _ => definition.field
  | .text textField _ => .inl (S.source textField)
  | .failed field _ => field

def indexClass : RegistryIndex S → IndexClass
  | .value definition _ => valueClass definition
  | .text _ _ => .text
  | .failed _ indexClass => indexClass

/-- `IndexDefinition.createEmpty`; a schema has at most one text field over a field. -/
def createEmpty (textFields : (f : S.StringField) → Option { t : S.TextField // S.source t = f }) :
    S.Field → IndexClass → RegistryIndex S
  | field, .equality => .value (.equality field) (.empty _)
  | field, .range => .value (.range field) (.empty _)
  | .inl field, .prefixes => .value (.prefixes field) (.empty _)
  | .inl field, .text =>
    match textFields field with
    | some textField => .text textField.val .empty
    | none => .failed (.inl field) .text
  | .inr field, .prefixes => .failed (.inr field) .prefixes
  | .inr field, .text => .failed (.inr field) .text

def toBuilder : RegistryIndex S → RegistryBuilder S
  | .value definition snapshot => .value definition snapshot.toBuilder
  | .text textField contents => .text textField contents.toBuilder
  | .failed field indexClass => .failed field indexClass

/-- The index as ranked search reads it. -/
def ranked : RegistryIndex S → Option (RankedIndex S)
  | .value (.equality field) snapshot =>
    some (.other (.equality field (layers snapshot.values)) rfl)
  | .value (.range field) snapshot => some (.other (.range field snapshot.values) rfl)
  | .value (.prefixes field) snapshot => some (.other (.prefixes field snapshot.values) rfl)
  | .text textField contents => some (.text textField contents.toSnapshot)
  | .failed _ _ => none

end RegistryIndex

namespace RegistryBuilder

variable (analyzers : ValueAnalyzers S)

/-- The builder behind a call of a text index. -/
def ofText (textField : S.TextField) : Except Failure TextIndexBuilder → RegistryBuilder S
  | .ok builder => .text textField builder
  | .error _ => .failed (.inl (S.source textField)) .text

/-- `IndexBuilder.add`; only document ids are ids. -/
def add (docId : ℕ) (document : T) : RegistryBuilder S → RegistryBuilder S
  | .value definition builder =>
    if docId < maxDocId then
      .value definition (builder.addValue (definition.valueOf document) docId)
    else .failed definition.field (valueClass definition)
  | .text textField builder =>
    ofText textField (builder.add (analyzeDocument analyzers textField) docId document)
  | .failed field indexClass => .failed field indexClass

/-- `IndexBuilder.remove`. -/
def remove (docId : ℕ) (document : T) : RegistryBuilder S → RegistryBuilder S
  | .value definition builder =>
    .value definition (builder.removeValue (definition.valueOf document) docId)
  | .text textField builder =>
    ofText textField (builder.remove (analyzeDocument analyzers textField) docId document)
  | .failed field indexClass => .failed field indexClass

/-- `IndexBuilder.update`. -/
def update (docId : ℕ) (oldDocument newDocument : T) : RegistryBuilder S → RegistryBuilder S
  | .value definition builder => .value definition
    (builder.updateValue (definition.valueOf oldDocument) (definition.valueOf newDocument) docId)
  | .text textField builder => ofText textField
    (builder.update (analyzeDocument analyzers textField) docId oldDocument newDocument)
  | .failed field indexClass => .failed field indexClass

/-- `IndexBuilder.build`; `incremental_eq_rebuild` and `text_eq_rebuild` say that the order of the
buffers does not matter. -/
def build : RegistryBuilder S → RegistryIndex S
  | .value definition builder =>
    match builder.build builder.dirty with
    | .ok snapshot => .value definition snapshot
    | .error _ => .failed definition.field (valueClass definition)
  | .text textField builder =>
    match builder.build builder.dirty with
    | .ok contents => .text textField contents
    | .error _ => .failed (.inl (S.source textField)) .text
  | .failed field indexClass => .failed field indexClass

end RegistryBuilder

/-- The built-in indexes behind their interfaces.  What a call that throws leaves of its builder is the
builder.  Observed of an index is what the registry compares; whether it has failed depends on more
than its documents. -/
def registryOps (analyzers : ValueAnalyzers S)
    (textFields : (f : S.StringField) → Option { t : S.TextField // S.source t = f }) :
    IndexOps T where
  Field := S.Field
  Kind := IndexClass
  Index := RegistryIndex S
  Builder := RegistryBuilder S
  Observation := S.Field × IndexClass
  field := RegistryIndex.field
  kind := RegistryIndex.indexClass
  createEmpty := RegistryIndex.createEmpty textFields
  toBuilder := RegistryIndex.toBuilder
  add builder docId document := builder.add analyzers docId document
  remove builder docId document := builder.remove analyzers docId document
  update builder docId oldDocument newDocument :=
    builder.update analyzers docId oldDocument newDocument
  torn builder := builder
  build := RegistryBuilder.build
  observe index := (index.field, index.indexClass)

/-! ### Their contract -/

namespace RegistryBuilder

/-- The builder of the index of that identity is maintained over the documents, unless it has
failed. -/
inductive Holds (analyzers : ValueAnalyzers S) :
    S.Field → IndexClass → RegistryBuilder S → (ℕ → Option T) → Prop
  | value {definition builder docs} : Maintained definition.values definition.valueOf builder docs →
      Holds analyzers definition.field (valueClass definition) (.value definition builder) docs
  | text {textField builder docs} :
      MaintainedText (analyzeDocument analyzers textField) builder docs →
      Holds analyzers (.inl (S.source textField)) .text (.text textField builder) docs
  | failed {field indexClass docs} :
      Holds analyzers field indexClass (.failed field indexClass) docs

variable {analyzers : ValueAnalyzers S} {field : S.Field} {indexClass : IndexClass}
  {b : RegistryBuilder S} {docs docs' : ℕ → Option T} {docId : ℕ} {document newDocument : T}

theorem holds_ofText {textField : S.TextField} {result : Except Failure TextIndexBuilder}
    (h : ∀ builder, result = .ok builder →
      MaintainedText (analyzeDocument analyzers textField) builder docs) :
    Holds analyzers (.inl (S.source textField)) .text (ofText textField result) docs := by
  cases result with
  | error _ => exact .failed
  | ok builder => exact .text (h builder rfl)

theorem Holds.add (h : Holds analyzers field indexClass b docs) (hd : docs docId = none) :
    Holds analyzers field indexClass (b.add analyzers docId document)
      (Function.update docs docId (some document)) := by
  cases h with
  | value h =>
    rw [RegistryBuilder.add]
    split
    · next hid => exact .value (h.add document hd hid)
    · exact .failed
  | text h => exact holds_ofText fun _ hadd => h.add hd hadd
  | failed => exact .failed

theorem Holds.remove (h : Holds analyzers field indexClass b docs) (hd : docs docId = some document) :
    Holds analyzers field indexClass (b.remove analyzers docId document)
      (Function.update docs docId none) := by
  cases h with
  | value h => exact .value (h.remove hd)
  | text h => exact holds_ofText fun _ hremove => h.remove hd hremove
  | failed => exact .failed

theorem Holds.update (h : Holds analyzers field indexClass b docs) (hd : docs docId = some document) :
    Holds analyzers field indexClass (b.update analyzers docId document newDocument)
      (Function.update docs docId (some newDocument)) := by
  cases h with
  | value h => exact .value (h.update newDocument hd)
  | text h => exact holds_ofText fun _ hupdate => h.update hd hupdate
  | failed => exact .failed

theorem Holds.build (h : Holds analyzers field indexClass b docs) :
    Holds analyzers field indexClass b.build.toBuilder docs := by
  cases h with
  | value h =>
    rw [RegistryBuilder.build]
    split
    · next hbuild => exact .value (h.build (.refl _) hbuild)
    · exact .failed
  | text h =>
    rw [RegistryBuilder.build]
    split
    · next hbuild => exact .text (h.build (.refl _) hbuild)
    · exact .failed
  | failed => exact .failed

/-- An index keeps its identity. -/
theorem Holds.identity (h : Holds analyzers field indexClass b docs) :
    b.build.field = field ∧ b.build.indexClass = indexClass := by
  cases h with
  | value =>
    rw [RegistryBuilder.build]
    split <;> exact ⟨rfl, rfl⟩
  | text =>
    rw [RegistryBuilder.build]
    split <;> exact ⟨rfl, rfl⟩
  | failed => exact ⟨rfl, rfl⟩

end RegistryBuilder

section

variable (analyzers : ValueAnalyzers S)
  (textFields : (f : S.StringField) → Option { t : S.TextField // S.source t = f })

theorem createEmpty_holds (field : S.Field) (indexClass : IndexClass) :
    RegistryBuilder.Holds analyzers field indexClass
      (RegistryIndex.createEmpty textFields field indexClass).toBuilder fun _ => none := by
  cases indexClass with
  | equality => exact @RegistryBuilder.Holds.value T S _ (.equality field) _ _ .empty
  | range => exact @RegistryBuilder.Holds.value T S _ (.range field) _ _ .empty
  | prefixes =>
    cases field with
    | inl field => exact @RegistryBuilder.Holds.value T S _ (.prefixes field) _ _ .empty
    | inr field => exact .failed
  | text =>
    cases field with
    | inr field => exact .failed
    | inl field =>
      rw [RegistryIndex.createEmpty]
      cases textFields field with
      | none => exact .failed
      | some textField =>
        obtain ⟨textField, rfl⟩ := textField
        exact .text .empty

theorem createEmpty_identity (field : S.Field) (indexClass : IndexClass) :
    (RegistryIndex.createEmpty textFields field indexClass).field = field ∧
      (RegistryIndex.createEmpty textFields field indexClass).indexClass = indexClass := by
  cases indexClass with
  | equality => exact ⟨rfl, rfl⟩
  | range => exact ⟨rfl, rfl⟩
  | prefixes => cases field <;> exact ⟨rfl, rfl⟩
  | text =>
    cases field with
    | inr field => exact ⟨rfl, rfl⟩
    | inl field =>
      rw [RegistryIndex.createEmpty]
      cases textFields field with
      | none => exact ⟨rfl, rfl⟩
      | some textField =>
        obtain ⟨textField, rfl⟩ := textField
        exact ⟨rfl, rfl⟩

/-- The built-in indexes keep the contract of the engine. -/
def registry_lawful : LawfulIndex (registryOps analyzers textFields) where
  Holds := RegistryBuilder.Holds analyzers
  holds_empty := createEmpty_holds analyzers textFields
  holds_add := RegistryBuilder.Holds.add
  holds_remove := RegistryBuilder.Holds.remove
  holds_update := RegistryBuilder.Holds.update
  holds_build := RegistryBuilder.Holds.build
  field_build h := h.identity.1
  kind_build h := h.identity.2
  field_empty field indexClass := (createEmpty_identity textFields field indexClass).1
  kind_empty field indexClass := (createEmpty_identity textFields field indexClass).2
  observe_build h h' := Prod.ext (h.identity.1.trans h'.identity.1.symm)
    (h.identity.2.trans h'.identity.2.symm)

end

/-! ### What queries read -/

namespace RegistryIndex

/-- The indexes as ranked search reads them, unless one has failed. -/
def allRanked : List (RegistryIndex S) → Option (List (RankedIndex S))
  | [] => some []
  | index :: rest => do
    let first ← index.ranked
    let later ← allRanked rest
    return first :: later

end RegistryIndex

/-- The published snapshot as queries read it, unless an index has failed. -/
def rankedSnapshot (snapshot : SearchSnapshot T (RegistryIndex S)) :
    Option (SearchSnapshot T (RankedIndex S)) :=
  (RegistryIndex.allRanked snapshot.indexes).map fun indexes =>
    ⟨snapshot.documents, snapshot.activeDocuments, indexes, snapshot.version⟩

section

variable {analyzers : ValueAnalyzers S}

/-- A builder without calls builds the contents that it was made of. -/
theorem build_toBuilder {contents : TextIndexContents} {docs : ℕ → AnalyzedDocument}
    (h : TextIndexBuilder.Tracks contents.toBuilder docs) :
    contents.toBuilder.build [] = .ok contents :=
  h.build_eq_assemble .nil

/-- An index that goes on from a maintained builder is a maintained index. -/
theorem RegistryBuilder.Holds.incremental {field : S.Field} {indexClass : IndexClass}
    {index : RegistryIndex S} {docs : ℕ → Option T} {ranked : RankedIndex S}
    (h : RegistryBuilder.Holds analyzers field indexClass index.toBuilder docs)
    (hranked : index.ranked = some ranked) :
    ∃ definition, RankedIncremental analyzers docs definition ranked := by
  cases index with
  | value definition snapshot =>
    cases definition with
    | equality field =>
      cases h with
      | value h =>
        cases hranked
        exact ⟨_, .value (.equality h (.refl _) rfl)⟩
    | range field =>
      cases h with
      | value h =>
        cases hranked
        exact ⟨_, .value (.range h (.refl _) rfl)⟩
    | prefixes field =>
      cases h with
      | value h =>
        cases hranked
        exact ⟨_, .value (.prefixes h (.refl _) rfl)⟩
  | text textField contents =>
    cases h with
    | text h =>
      cases hranked
      exact ⟨_, .text h (.refl _) (build_toBuilder h.tracks.1)⟩
  | failed field indexClass => cases hranked

theorem incremental_of_allRanked {docs : ℕ → Option T} {indexes : List (RegistryIndex S)}
    {ranked : List (RankedIndex S)} (hranked : RegistryIndex.allRanked indexes = some ranked)
    (h : ∀ index ∈ indexes, ∃ field indexClass,
      RegistryBuilder.Holds analyzers field indexClass index.toBuilder docs) :
    ∃ definitions, List.Forall₂ (RankedIncremental analyzers docs) definitions ranked := by
  induction indexes generalizing ranked with
  | nil =>
    cases hranked
    exact ⟨[], .nil⟩
  | cons index rest ih =>
    obtain ⟨first, hfirst, hrest⟩ := Option.bind_eq_some_iff.mp hranked
    obtain ⟨later, hlater, hresult⟩ := Option.bind_eq_some_iff.mp hrest
    cases hresult
    obtain ⟨field, indexClass, hholds⟩ := h index List.mem_cons_self
    obtain ⟨definition, hdefinition⟩ := hholds.incremental hfirst
    obtain ⟨definitions, hdefinitions⟩ :=
      ih hlater fun index hindex => h index (List.mem_cons_of_mem _ hindex)
    exact ⟨definition :: definitions, .cons hdefinition hdefinitions⟩

end

/-! ### Runs of the engine -/

section

variable {K : Type} [DecidableEq K] (analyzers : ValueAnalyzers S)
  (textFields : (f : S.StringField) → Option { t : S.TextField // S.source t = f })

/-- The engine over index definitions after a run. -/
def registryRun (idOf : T → K) (registered : S.Field → Bool)
    (definitions : List (S.Field × IndexClass))
    (events : List (Event K (registryOps analyzers textFields))) :
    EngineState K (registryOps analyzers textFields) :=
  (EngineState.start (.fresh (registryOps analyzers textFields) definitions)).run
    (registryOps analyzers textFields) idOf registered events

variable {analyzers textFields}

/-- Whatever an engine goes through, the indexes of its published snapshot are maintained over the
published documents: in every run in which no mutation of a published batch throws inside an index
builder, when no index has failed.  So the snapshot is in sync, and a search in any planning mode
returns what a scan of the published documents finds. -/
theorem run_maintained (hagree : analyzers.Agree) {idOf : T → K} {registered : S.Field → Bool}
    {definitions : List (S.Field × IndexClass)}
    {events : List (Event K (registryOps analyzers textFields))}
    (hrun : (EngineState.start (.fresh (registryOps analyzers textFields) definitions)).UnbrokenRun
      (registryOps analyzers textFields) idOf registered events)
    {published : SearchSnapshot T (RankedIndex S)}
    (hpublished : rankedSnapshot (registryRun analyzers textFields idOf registered definitions
      events).current.snapshot = some published) :
    (∃ maintained, List.Forall₂ (RankedIncremental analyzers published.get) maintained
        published.indexes) ∧
      Synced published ∧
      ∀ mode query, (search mode (structured published) query).map some =
        (linearScan (structured published) query).map published.get := by
  let current : PublishedState K T (RegistryIndex S) :=
    .fresh (registryOps analyzers textFields) definitions
  have hwf : current.WellFormed := PublishedState.fresh_wellFormed _
  have hfresh : Engine.Upheld (registry_lawful analyzers textFields) current.snapshot :=
    Engine.Upheld.fresh _
  have hupheld := @Engine.Upheld.run K T _ (registryOps analyzers textFields) idOf _
    (EngineState.start current) [] registered hfresh (Engine.start_tracks hwf) events hrun
  obtain ⟨indexes, hindexes, rfl⟩ := Option.map_eq_some_iff.mp hpublished
  obtain ⟨maintained, hmaintained⟩ := incremental_of_allRanked hindexes hupheld.holds
  refine ⟨⟨maintained, hmaintained⟩,
    (and_iff_left_of_imp fun hsynced => hsynced.structured.search_scans).mpr ?_⟩
  exact synced_of_incremental hagree hupheld.stored hmaintained

end

section

/-- The text field over the strings. -/
def letterFields (f : letterSchema.StringField) :
    Option { t : letterSchema.TextField // letterSchema.source t = f } := some ⟨(), rfl⟩

abbrev letterField : letterSchema.Field := .inl ()

/-- A prefix index is built while one text is replaced, and behind it the other one goes. -/
def letterEvents : List (Event JString (registryOps letterAnalyzers letterFields)) :=
  [.batch [⟨.add [97, 98], .none⟩, ⟨.add [98, 98], .none⟩] .committed,
    .createIndex letterField IndexClass.prefixes true false,
    .batch [⟨.update [97, 99], .none⟩, ⟨.add [99], .preparing .exception⟩] .committed,
    .installIndex 0 false none .committed,
    .bulk [⟨.remove [98], .none⟩] .committed]

/-- The key of a text is its first letter. -/
def letterRun : EngineState JString (registryOps letterAnalyzers letterFields) :=
  registryRun letterAnalyzers letterFields (List.take 1) (fun _ => true)
    [(letterField, .text), (letterField, .range)] letterEvents

theorem run_maintained_letters : ∃ published, rankedSnapshot letterRun.current.snapshot =
      some published ∧ published.indexes.length = 3 ∧
    search .costAware (structured published) (.prefixed () [97, 99]) = [[97, 99]] ∧
    (∃ maintained, List.Forall₂ (RankedIncremental letterAnalyzers published.get) maintained
        published.indexes) ∧
      Synced published ∧
      ∀ mode query, (search mode (structured published) query).map some =
        (linearScan (structured published) query).map published.get := by
  obtain ⟨published, hpublished, hcount, hsearch⟩ : ∃ published,
      rankedSnapshot letterRun.current.snapshot = some published ∧ published.indexes.length = 3 ∧
        search .costAware (structured published) (.prefixed () [97, 99]) = [[97, 99]] :=
    ⟨_, rfl, rfl, by decide +kernel⟩
  refine ⟨published, hpublished, hcount, hsearch,
    run_maintained letterAnalyzers_agree ?_ hpublished⟩
  exact ⟨.inr (.inr (by decide)), trivial, .inr (.inr (by decide)), trivial, trivial, trivial⟩

end

end GeneralSearch.Ranked
