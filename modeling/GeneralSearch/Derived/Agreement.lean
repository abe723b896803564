import GeneralSearch.Derived.Inspector
import GeneralSearch.Derived.Loader

/-! The inspector takes what the loader takes, and the loader takes a component that the inspector
takes unless the documents of the checkpoint are against it. -/

namespace GeneralSearch.Derived

open GeneralSearch.Parser
open GeneralSearch.Utf8 (JavaString)
open Loader (Loaded SearchSchema KeyOf Groups Keys Texts Present Loads placeOf)

/-! ### Documents -/

namespace Payload

/-- The ids of each group; a text image has no groups. -/
def groupIds : Payload → List (List ℤ)
  | groups gs => gs.map (·.ids)
  | keys gs => gs.map (·.ids)
  | text _ => []

/-- The ids of all documents. -/
def docIds : Payload → List ℤ
  | groups gs => gs.flatMap (·.ids)
  | keys gs => gs.flatMap (·.ids)
  | text image => image.lengths.map (·.docId) ++
      image.terms.flatMap fun t => t.postings.map (·.docId)

end Payload

section

variable {T V O κ : Type} (checkpoint : Loaded T)

/-- Values that are against some groups: one that cannot be a key, or one of two groups. -/
inductive UnusableValue (valueOf : T → Except Loader.Thrown (Option κ)) (gs : List ValueGroup) : Prop
  | unusable {g document} : g ∈ gs → checkpoint.get g.representative = some document →
      (∀ k, valueOf document ≠ .ok (some k)) → UnusableValue valueOf gs
  | shared {g h k} : [g, h].Sublist gs → KeyOf checkpoint valueOf g k →
      KeyOf checkpoint valueOf h k → UnusableValue valueOf gs

/-- What the documents and their schema can be against in a component. -/
inductive RefusedByDocuments (schema : SearchSchema T V O) (header : ComponentHeader) :
    Payload → Prop
  | emptySlot {payload id} : id ∈ payload.docIds → checkpoint.get id = none →
      RefusedByDocuments schema header payload
  | twoGroups {payload ids ids' id} : [ids, ids'].Sublist payload.groupIds → id ∈ ids → id ∈ ids' →
      RefusedByDocuments schema header payload
  | equalityValue {valueOf gs} : header.kind = 1 →
      schema.requireField header.field = some valueOf → UnusableValue checkpoint valueOf gs →
      RefusedByDocuments schema header (.groups gs)
  | rangeValue {valueOf gs} : header.kind = 2 →
      schema.requireField header.field = some valueOf →
      UnusableValue checkpoint (placeOf schema.comparable valueOf) gs →
      RefusedByDocuments schema header (.groups gs)
  | field {payload} : header.kind = 1 ∨ header.kind = 2 →
      schema.requireField header.field = none → RefusedByDocuments schema header payload
  | stringField {payload} : header.kind = 3 → schema.requireStringField header.field = none →
      RefusedByDocuments schema header payload
  | textField {payload} : header.kind = 4 → schema.requireTextField header.field = none →
      RefusedByDocuments schema header payload
  | analyzer {payload textField} : header.kind = 4 →
      schema.requireTextField header.field = some textField →
      textField.simple = false ∨ header.analyzer ≠ SIMPLE_ANALYZER →
      RefusedByDocuments schema header payload

/-! ### Payloads -/

/-- Values for the items of a list, beside them. -/
theorem exists_beside {α β : Type} {R : α → β → Prop} {as : List α} (h : ∀ a ∈ as, ∃ b, R a b) :
    ∃ items : List (α × β), items.map Prod.fst = as ∧ ∀ i ∈ items, R i.1 i.2 := by
  induction as with
  | nil => exact ⟨[], rfl, nofun⟩
  | cons a as ih =>
    obtain ⟨⟨b, hb⟩, hrest⟩ := List.forall_mem_cons.mp h
    obtain ⟨items, rfl, hitems⟩ := ih hrest
    exact ⟨(a, b) :: items, rfl, List.forall_mem_cons.mpr ⟨hb, hitems⟩⟩

theorem present_of_slots {ids : List ℤ} (h : ∀ id ∈ ids, checkpoint.get id ≠ none) :
    Present checkpoint ids := fun id hid => Option.isSome_iff_ne_none.mpr (h id hid)

/-- Canonical groups are those of the loader, with the values of the representatives. -/
theorem groups_of_canonical [DecidableEq κ] {valueOf : T → Except Loader.Thrown (Option κ)}
    {gs : List ValueGroup} (hcount : gs.length ≤ MAX_COUNT)
    (hcanonical : ∀ g ∈ gs, g.Canonical checkpoint.nextDocId)
    (hascending : gs.Pairwise fun g h => g.representative < h.representative)
    (hslots : ∀ id ∈ (Payload.groups gs).docIds, checkpoint.get id ≠ none)
    (hdisjoint : (Payload.groups gs).groupIds.Pairwise fun ids ids' => ∀ id ∈ ids, id ∉ ids')
    (hvalues : ¬UnusableValue checkpoint valueOf gs) :
    ∃ items, Groups checkpoint valueOf items ∧ items.map Prod.fst = gs := by
  have hpresent : ∀ g ∈ gs, Present checkpoint g.ids := fun g hg =>
    present_of_slots checkpoint fun id hid => hslots id (List.mem_flatMap.mpr ⟨g, hg, hid⟩)
  have hkey : ∀ g ∈ gs, ∃ k, KeyOf checkpoint valueOf g k := by
    intro g hg
    obtain ⟨document, hdocument⟩ := Option.isSome_iff_exists.mp
      (hpresent g hg _ (hcanonical g hg).representative)
    by_contra hnone
    exact hvalues (.unusable hg hdocument fun k hk => hnone ⟨k, document, hdocument, hk⟩)
  obtain ⟨items, rfl, hkeys⟩ := exists_beside hkey
  rw [List.length_map] at hcount
  rw [List.forall_mem_map] at hcanonical hpresent
  rw [List.pairwise_map] at hascending
  rw [Payload.groupIds, List.map_map, List.pairwise_map] at hdisjoint
  refine ⟨items, ⟨hcount, hcanonical, hpresent, hkeys, hascending, ?_, ?_⟩, rfl⟩
  · exact hdisjoint.imp fun h id hid hid' => h id hid' hid
  · refine List.pairwise_iff_forall_sublist.mpr fun {i j} hsub heq => ?_
    have hi := hkeys i (hsub.subset (by simp))
    have hj := hkeys j (hsub.subset (by simp))
    exact hvalues (.shared (hsub.map Prod.fst) hi (heq ▸ hj))

/-- Canonical prefix keys are those of the loader, with the strings that they spell. -/
theorem keys_of_canonical {gs : List PrefixGroup} (hcount : gs.length ≤ MAX_COUNT)
    (hcanonical : ∀ g ∈ gs, g.Canonical checkpoint.nextDocId)
    (hascending : gs.Pairwise fun g h => g.key < h.key)
    (hslots : ∀ id ∈ (Payload.keys gs).docIds, checkpoint.get id ≠ none)
    (hdisjoint : (Payload.keys gs).groupIds.Pairwise fun ids ids' => ∀ id ∈ ids, id ∉ ids') :
    ∃ items, Keys checkpoint items ∧ items.map Prod.fst = gs := by
  have hpresent : ∀ g ∈ gs, Present checkpoint g.ids := fun g hg =>
    present_of_slots checkpoint fun id hid => hslots id (List.mem_flatMap.mpr ⟨g, hg, hid⟩)
  obtain ⟨items, rfl, hkeys⟩ := exists_beside (R := fun g k => Utf8.decode g.key = some k)
    fun g hg => Option.isSome_iff_exists.mp (hcanonical g hg).strict
  rw [List.length_map] at hcount
  rw [List.forall_mem_map] at hcanonical hpresent
  rw [List.pairwise_map] at hascending
  rw [Payload.groupIds, List.map_map, List.pairwise_map] at hdisjoint
  exact ⟨items, ⟨hcount, hcanonical, hpresent, hkeys, hascending,
    hdisjoint.imp fun h id hid hid' => h id hid' hid⟩, rfl⟩

/-- A canonical text image is one of the loader, with the terms decoded. -/
theorem texts_of_canonical {liveDocuments : ℤ} {image : TextImage}
    (hcanonical : image.Canonical checkpoint.nextDocId liveDocuments)
    (hslots : ∀ id ∈ (Payload.text image).docIds, checkpoint.get id ≠ none) :
    ∃ terms, Texts checkpoint liveDocuments image.lengths terms ∧
      (⟨image.lengths, terms.map Prod.fst⟩ : TextImage) = image := by
  obtain ⟨lengths, terms⟩ := image
  obtain ⟨items, rfl, hdecoded⟩ := exists_beside (R := fun t k => Utf8.decode t.term = some k)
    fun t ht => Option.isSome_iff_exists.mp (hcanonical.terms t ht).strict
  refine ⟨items, ⟨hcanonical, hdecoded, ?_, fun i hi => ?_⟩, rfl⟩
  · exact present_of_slots checkpoint fun id hid => hslots id (List.mem_append_left _ hid)
  · exact present_of_slots checkpoint fun id hid => hslots id (List.mem_append_right _
      (List.mem_flatMap.mpr ⟨i.1, List.mem_map_of_mem hi, hid⟩))

end

section

variable {T V O : Type} [DecidableEq V] [DecidableEq O] {checkpoint : Loaded T}
variable {schema : SearchSchema T V O} {header : ComponentHeader} {payload : Payload}

/-- The loader takes canonical payloads only. -/
theorem canonical_of_loads {kind liveDocuments : ℤ} {field analyzer : JavaString}
    {r : Loader.IndexSnapshot V O}
    (h : Loads checkpoint schema kind field analyzer liveDocuments payload r) :
    payload.Canonical kind checkpoint.nextDocId liveDocuments := by
  cases h with
  | equality items hkind _ hitems =>
    refine ⟨.inl hkind, by rw [List.length_map]; exact hitems.count, ?_, ?_⟩
    · exact List.forall_mem_map.mpr hitems.canonical
    · exact List.pairwise_map.mpr hitems.ascending
  | range items hkind _ hitems =>
    refine ⟨.inr hkind, by rw [List.length_map]; exact hitems.count, ?_, ?_⟩
    · exact List.forall_mem_map.mpr hitems.canonical
    · exact List.pairwise_map.mpr hitems.ascending
  | keys items hkind _ hitems =>
    refine ⟨hkind, by rw [List.length_map]; exact hitems.count, ?_, ?_⟩
    · exact List.forall_mem_map.mpr hitems.canonical
    · exact List.pairwise_map.mpr hitems.ascending
  | text lengths terms hkind _ _ _ htexts => exact ⟨hkind, htexts.canonical⟩

/-- The loader takes a canonical payload unless the documents are against it. -/
theorem loads_of_canonical
    (hcanonical : payload.Canonical header.kind checkpoint.nextDocId header.liveDocuments)
    (hdocuments : ¬RefusedByDocuments checkpoint schema header payload) :
    ∃ r, Loads checkpoint schema header.kind header.field header.analyzer header.liveDocuments
      payload r := by
  have hslots : ∀ id ∈ payload.docIds, checkpoint.get id ≠ none :=
    fun id hid hnone => hdocuments (.emptySlot hid hnone)
  have hdisjoint : payload.groupIds.Pairwise fun ids ids' => ∀ id ∈ ids, id ∉ ids' :=
    List.pairwise_iff_forall_sublist.mpr fun {ids ids'} hsub id hid hid' =>
      hdocuments (.twoGroups hsub hid hid')
  cases payload with
  | groups gs =>
    obtain ⟨hkind, hcount, hgroups, hascending⟩ := hcanonical
    obtain ⟨valueOf, hfield⟩ := Option.ne_none_iff_exists'.mp
      fun hnone => hdocuments (.field hkind hnone)
    rcases hkind with hkind | hkind
    · obtain ⟨items, hitems, rfl⟩ := groups_of_canonical checkpoint hcount hgroups hascending hslots
        hdisjoint fun h => hdocuments (.equalityValue hkind hfield h)
      exact ⟨_, .equality items hkind hfield hitems⟩
    · obtain ⟨items, hitems, rfl⟩ := groups_of_canonical checkpoint hcount hgroups hascending hslots
        hdisjoint fun h => hdocuments (.rangeValue hkind hfield h)
      exact ⟨_, .range items hkind hfield hitems⟩
  | keys gs =>
    obtain ⟨hkind, hcount, hgroups, hascending⟩ := hcanonical
    have hfield := Option.isSome_iff_ne_none.mpr fun hnone => hdocuments (.stringField hkind hnone)
    obtain ⟨items, hitems, rfl⟩ := keys_of_canonical checkpoint hcount hgroups hascending hslots
      hdisjoint
    exact ⟨_, .keys items hkind hfield hitems⟩
  | text image =>
    obtain ⟨hkind, himage⟩ := hcanonical
    obtain ⟨textField, hfield⟩ := Option.ne_none_iff_exists'.mp
      fun hnone => hdocuments (.textField hkind hnone)
    obtain ⟨hsimple, hanalyzer⟩ := not_or.mp fun h => hdocuments (.analyzer hkind hfield h)
    obtain ⟨terms, hterms, himages⟩ := texts_of_canonical checkpoint himage hslots
    rw [← himages]
    exact ⟨_, .text image.lengths terms hkind hfield (Bool.not_eq_false _ ▸ hsimple)
      (not_not.mp hanalyzer) hterms⟩

end

/-! ### Members -/

section

variable {T V O : Type} [DecidableEq V] [DecidableEq O]
variable {crc32c : Bytes → BitVec 32} {sha256 : Bytes → BitVec 256}
variable {checkpoint : Loaded T} {schema : SearchSchema T V O} {authority : Authority}

theorem catalog_agrees {encoded : Bytes} {entries : List CatalogEntry}
    (hlength : encoded.length ≤ MAX_CATALOG_BYTES)
    (h : Loader.parseCatalog crc32c sha256 authority encoded = .ok entries) :
    ∃ catalog, Inspector.parseCatalog crc32c sha256 authority encoded = .ok catalog ∧
      catalog.entries = entries := by
  obtain ⟨hminimum, -, header, hcontent, hbinding, hencoded⟩ := Loader.parseCatalog_eq_ok.mp h
  exact ⟨_, Inspector.parseCatalog_eq_ok.mpr ⟨⟨hminimum, hlength⟩, header, entries, hcontent,
    hbinding, hencoded, rfl⟩, rfl⟩

/-- The generator of a catalog that the inspector takes. -/
theorem generator_of_parseCatalog {file : Bytes} {catalog : Inspector.Catalog}
    (h : Inspector.parseCatalog crc32c sha256 authority file = .ok catalog) :
    catalog.generator = GENERATOR_ID ∧ catalog.generatorVersion = GENERATOR_VERSION := by
  obtain ⟨-, header, entries, -, -, -, rfl⟩ := Inspector.parseCatalog_eq_ok.mp h
  exact ⟨rfl, rfl⟩

section

variable {catalog : Inspector.Catalog} {entry : CatalogEntry} {encoded : Bytes}
variable (hauthority : authority.nextDocId = checkpoint.nextDocId)
variable (hgenerator : catalog.generator = GENERATOR_ID)
variable (hversion : catalog.generatorVersion = GENERATOR_VERSION)

include hauthority hgenerator hversion

theorem component_agrees (hlength : encoded.length < 2147483648) {index : Loader.IndexSnapshot V O}
    (h : Loader.parseComponent crc32c sha256 checkpoint schema authority entry encoded =
      .ok index) :
    Inspector.parseComponent crc32c sha256 authority catalog entry encoded = .ok () := by
  obtain ⟨hminimum, header, payload, hheader, hloads, hencoded⟩ := Loader.parseComponent_eq_ok.mp h
  refine (Inspector.parseComponent_eq_ok hgenerator hversion).mpr
    ⟨⟨hminimum, by unfold MAX_COMPONENT_BYTES; omega⟩, header, payload, hheader, ?_, hencoded⟩
  rw [hheader.bound.2.2.2.2.2.1, hauthority]
  exact canonical_of_loads hloads

theorem refused_by_documents {failure : Loader.Thrown}
    (h : Inspector.parseComponent crc32c sha256 authority catalog entry encoded = .ok ())
    (hrefused : Loader.parseComponent crc32c sha256 checkpoint schema authority entry encoded =
      .error failure) :
    ∃ (header : ComponentHeader) (payload : Payload), header.Admitted authority entry ∧
      encoded = finishMember crc32c sha256 (header.write ++ payload.write) COMPONENT_DOMAIN ∧
      RefusedByDocuments checkpoint schema header payload := by
  obtain ⟨⟨hminimum, -⟩, header, payload, hheader, hcanonical, hencoded⟩ :=
    (Inspector.parseComponent_eq_ok hgenerator hversion).mp h
  rw [hheader.bound.2.2.2.2.2.1, hauthority] at hcanonical
  refine ⟨header, payload, hheader, hencoded, ?_⟩
  by_contra hdocuments
  obtain ⟨index, hloads⟩ := loads_of_canonical hcanonical hdocuments
  rw [Loader.parseComponent_eq_ok.mpr ⟨hminimum, header, payload, hheader, hloads, hencoded⟩]
    at hrefused
  cases hrefused

/-- A component that the loader warms from is reported as admissible. -/
theorem admissible_of_loadComponent {index : Loader.IndexSnapshot V O}
    (h : Loader.loadComponent crc32c sha256 checkpoint schema authority entry encoded =
      .ok index) :
    Inspector.inspectComponent crc32c sha256 authority catalog entry (some encoded) =
      .ok .admissible := by
  simp only [Loader.loadComponent, Loader.requireWholeMember, Lib.bind_eq_ok,
    Loader.readBounded_eq_ok, reject_eq_ok, not_not] at h
  obtain ⟨encoded, ⟨⟨-, hlength⟩, rfl⟩, -, ⟨-, hbytes, _, htrailing, -, rfl, hsha⟩, hparse⟩ := h
  have hparsed := component_agrees hauthority hgenerator hversion (by omega) hparse
  have hstored : Inspector.storedCrc encoded = .ok entry.checksum := by
    rw [Loader.trailingChecksum_eq_ok] at htrailing
    rw [Inspector.storedCrc, if_neg htrailing.1, htrailing.2]
  have hinspected : Inspector.inspected crc32c sha256 authority catalog entry encoded = .ok () := by
    simp only [Inspector.inspected, Lib.bind_eq_ok, reject_eq_ok, not_not]
    exact ⟨(), hbytes.symm, (), hsha.symm, _, hstored, (), rfl, hparsed⟩
  rw [Inspector.inspectComponent, hinspected]

end

end

/-! ### The agreement -/

/-- Under the authority of a checkpoint, for the catalogs that `load` has bounded and the components
that a byte array holds: the inspector takes what the loader takes, and where it takes a component
that the loader refuses, the documents are against that component. -/
theorem inspection_agrees {T V O : Type} [DecidableEq V] [DecidableEq O]
    (crc32c : Bytes → BitVec 32) (sha256 : Bytes → BitVec 256) (checkpoint : Loaded T)
    (schema : SearchSchema T V O) (authority : Authority)
    (hauthority : authority.nextDocId = checkpoint.nextDocId) :
    (∀ (file : Bytes) (entries : List CatalogEntry), file.length ≤ MAX_CATALOG_BYTES →
      Loader.parseCatalog crc32c sha256 authority file = .ok entries →
      ∃ catalog, Inspector.parseCatalog crc32c sha256 authority file = .ok catalog ∧
        catalog.entries = entries) ∧
    ∀ (file : Bytes) (catalog : Inspector.Catalog),
      Inspector.parseCatalog crc32c sha256 authority file = .ok catalog →
      ∀ (entry : CatalogEntry) (encoded : Bytes), encoded.length < 2147483648 →
        (∀ index, Loader.parseComponent crc32c sha256 checkpoint schema authority entry encoded =
            .ok index →
          Inspector.parseComponent crc32c sha256 authority catalog entry encoded = .ok ()) ∧
        (∀ failure, Loader.parseComponent crc32c sha256 checkpoint schema authority entry encoded =
            .error failure →
          Inspector.parseComponent crc32c sha256 authority catalog entry encoded = .ok () →
          ∃ (header : ComponentHeader) (payload : Payload), header.Admitted authority entry ∧
            encoded =
              finishMember crc32c sha256 (header.write ++ payload.write) COMPONENT_DOMAIN ∧
            RefusedByDocuments checkpoint schema header payload) ∧
        ∀ index, Loader.loadComponent crc32c sha256 checkpoint schema authority entry encoded =
            .ok index →
          Inspector.inspectComponent crc32c sha256 authority catalog entry (some encoded) =
            .ok .admissible := by
  refine ⟨fun file entries hlength h => catalog_agrees hlength h, ?_⟩
  intro file catalog hcatalog entry encoded hlength
  obtain ⟨hgenerator, hversion⟩ := generator_of_parseCatalog hcatalog
  refine ⟨?_, ?_, ?_⟩
  · intro index h
    exact component_agrees hauthority hgenerator hversion hlength h
  · intro failure hrefused h
    exact refused_by_documents hauthority hgenerator hversion h hrefused
  · intro index h
    exact admissible_of_loadComponent hauthority hgenerator hversion h

/-! ### A store with a number and a text -/

/-- A hash that every byte moves. -/
def polynomial (base : ℕ) (bytes : Bytes) : ℕ := bytes.foldl (fun h b => base * h + b.toNat) 7

def storeCrc (bytes : Bytes) : BitVec 32 := BitVec.ofNat 32 (polynomial 31 bytes)

def storeSha (bytes : Bytes) : BitVec 256 := BitVec.ofNat 256 (polynomial 257 bytes)

/-- The documents 5, 7 and 5 with an empty slot between them. -/
def storeDocuments : Loaded ℕ := ⟨[some 5, none, some 7, some 5], by decide⟩

/-- A document is its value of the field `f`; the texts of the field `t` are read by no parser. -/
def storeSchema : SearchSchema ℕ ℕ ℕ where
  requireField field := if field = [0x66] then some fun d => .ok (some d) else none
  requireStringField _ := none
  requireTextField field := if field = [0x74] then some ⟨true, fun _ => .ok none⟩ else none
  comparable := some

def storeAuthority : Authority where
  minor := 2
  profileDigest := List.replicate 32 9
  history := (4, -4)
  checkpointSequence := 3
  checkpointFile := Utf8.ofString
    "gse-checkpoint-00000000000000000003-00112233445566778899aabbccddeeff.chk"
  checkpointBytes := 512
  checkpointChecksum := -6
  checkpointSha256 := List.replicate 32 8
  storageIdentity := [0x61]
  schemaIdentity := [0x62]
  codecIdentity := [0x63]
  codecVersion := 1
  nextDocId := 4
  liveDocuments := 3
  descriptors := [⟨1, [0x66], []⟩, ⟨4, [0x74], SIMPLE_ANALYZER⟩]

def storeIdentities : Identities := ⟨[0x61], [0x62], [0x63], 1, GENERATOR_ID, GENERATOR_VERSION⟩

/-- The header of a component of the store. -/
def storeHeader (ordinal kind : ℤ) (field analyzer : JavaString) : ComponentHeader where
  format := ⟨COMPONENT_MAGIC, ENCODING_MAJOR, ENCODING_MINOR, 1, 2⟩
  profile := storeAuthority.profileDigest
  history := storeAuthority.history
  sequence := storeAuthority.checkpointSequence
  checkpointSha := storeAuthority.checkpointSha256
  identities := storeIdentities
  ordinal := ordinal
  kind := kind
  field := field
  analyzer := analyzer
  nextDocId := storeAuthority.nextDocId
  liveDocuments := storeAuthority.liveDocuments

def numbersHeader : ComponentHeader := storeHeader 0 1 [0x66] []

/-- The documents 0 and 3 have the number 5, the document 2 has the number 7. -/
def numbersPayload : Payload := .groups [⟨0, [0, 3]⟩, ⟨2, [2]⟩]

/-- The documents 0 and 3 in groups of their own. -/
def splitPayload : Payload := .groups [⟨0, [0]⟩, ⟨2, [2]⟩, ⟨3, [3]⟩]

/-- The texts `b a`, `b` and `a a` of the documents. -/
def textsPayload : Payload := .text
  { lengths := [⟨0, 2⟩, ⟨2, 1⟩, ⟨3, 2⟩]
    terms := [⟨[0x61], [⟨0, [1]⟩, ⟨3, [0, 1]⟩]⟩, ⟨[0x62], [⟨0, [0]⟩, ⟨2, [0]⟩]⟩] }

def storeFile (header : ComponentHeader) (payload : Payload) : Bytes :=
  finishMember storeCrc storeSha (header.write ++ payload.write) COMPONENT_DOMAIN

def numbersFile : Bytes := storeFile numbersHeader numbersPayload

def splitFile : Bytes := storeFile numbersHeader splitPayload

def textsFile : Bytes := storeFile (storeHeader 1 4 [0x74] SIMPLE_ANALYZER) textsPayload

/-- The entry of a component file, whose last four bytes are its checksum. -/
def storeEntry (index : DurableIndexDescriptor) (ordinal : ℤ) (filename : String)
    (file : Bytes) : CatalogEntry where
  ordinal := ordinal
  kind := index.kind
  field := index.fieldName
  analyzer := index.analyzerId
  filename := Utf8.ofString filename
  bytes := file.length
  checksum := (BitVec.ofNat 32 (ofBigEndian (file.drop (file.length - 4)))).toInt
  sha256 := Decoder.writeBits 32 (storeSha file)

def numbersEntry : CatalogEntry := storeEntry ⟨1, [0x66], []⟩ 0
  "gse-derived-index-00000000000000000003-00000-0123456789abcdef0123456789abcdef.idx" numbersFile

def textsEntry : CatalogEntry := storeEntry ⟨4, [0x74], SIMPLE_ANALYZER⟩ 1
  "gse-derived-index-00000000000000000003-00001-fedcba9876543210fedcba9876543210.idx" textsFile

def storeCatalogHeader : CatalogHeader where
  format := ⟨CATALOG_MAGIC, ENCODING_MAJOR, ENCODING_MINOR, 1, 2⟩
  profile := storeAuthority.profileDigest
  history := storeAuthority.history
  sequence := storeAuthority.checkpointSequence
  checkpointFile := storeAuthority.checkpointFile
  checkpointBytes := storeAuthority.checkpointBytes
  checkpointChecksum := storeAuthority.checkpointChecksum
  checkpointSha := storeAuthority.checkpointSha256
  identities := storeIdentities
  nextDocId := storeAuthority.nextDocId
  liveDocuments := storeAuthority.liveDocuments

def catalogFile : Bytes := finishMember storeCrc storeSha
  (writeCatalog storeCatalogHeader [numbersEntry, textsEntry]) CATALOG_DOMAIN

theorem ok_of_toBool {ε α : Type} {x : Except ε α} (h : x.toBool = true) : ∃ a, x = .ok a := by
  cases x with
  | error e => cases h
  | ok a => exact ⟨a, rfl⟩

theorem error_of_toBool {ε α : Type} {x : Except ε α} (h : x.toBool = false) :
    ∃ e, x = .error e := by
  cases x with
  | error e => exact ⟨e, rfl⟩
  | ok a => cases h

theorem inspection_agrees_store : ∃ catalog,
    Inspector.parseCatalog storeCrc storeSha storeAuthority catalogFile = .ok catalog ∧
      catalog.entries = [numbersEntry, textsEntry] ∧
      Inspector.inspectComponent storeCrc storeSha storeAuthority catalog numbersEntry
        (some numbersFile) = .ok .admissible ∧
      Inspector.inspectComponent storeCrc storeSha storeAuthority catalog textsEntry
        (some textsFile) = .ok .admissible ∧
      Inspector.parseComponent storeCrc storeSha storeAuthority catalog numbersEntry splitFile =
        .ok () ∧
      (∃ failure, Loader.parseComponent storeCrc storeSha storeDocuments storeSchema storeAuthority
        numbersEntry splitFile = .error failure) ∧
      ∃ (header : ComponentHeader) (payload : Payload),
        header.Admitted storeAuthority numbersEntry ∧
          splitFile = finishMember storeCrc storeSha (header.write ++ payload.write)
            COMPONENT_DOMAIN ∧
          RefusedByDocuments storeDocuments storeSchema header payload := by
  obtain ⟨hcatalogs, hcomponents⟩ := inspection_agrees storeCrc storeSha storeDocuments storeSchema
    storeAuthority rfl
  obtain ⟨entries, hentries⟩ : ∃ entries, Loader.parseCatalog storeCrc storeSha storeAuthority
      catalogFile = .ok entries := ok_of_toBool (by decide +kernel)
  have hentries' : (Loader.parseCatalog storeCrc storeSha storeAuthority catalogFile).toOption =
      some [numbersEntry, textsEntry] := by decide +kernel
  obtain rfl : entries = [numbersEntry, textsEntry] := by
    rw [hentries] at hentries'
    exact Option.some.inj hentries'
  obtain ⟨catalog, hcatalog, hsame⟩ := hcatalogs catalogFile _ (by decide +kernel) hentries
  have hparsed : ((Inspector.parseCatalog storeCrc storeSha storeAuthority catalogFile).bind
      fun catalog => Inspector.parseComponent storeCrc storeSha storeAuthority catalog numbersEntry
        splitFile).toBool = true := by decide +kernel
  rw [hcatalog] at hparsed
  obtain ⟨⟨⟩, hsplit⟩ := ok_of_toBool hparsed
  obtain ⟨numbers, hnumbers⟩ := ok_of_toBool (x := Loader.loadComponent storeCrc storeSha
    storeDocuments storeSchema storeAuthority numbersEntry numbersFile) (by decide +kernel)
  obtain ⟨texts, htexts⟩ := ok_of_toBool (x := Loader.loadComponent storeCrc storeSha
    storeDocuments storeSchema storeAuthority textsEntry textsFile) (by decide +kernel)
  obtain ⟨failure, hfailure⟩ := error_of_toBool (x := Loader.parseComponent storeCrc storeSha
    storeDocuments storeSchema storeAuthority numbersEntry splitFile) (by decide +kernel)
  refine ⟨catalog, hcatalog, hsame, ?_, ?_, hsplit, ⟨failure, hfailure⟩, ?_⟩
  · exact (hcomponents _ catalog hcatalog numbersEntry _ (by decide +kernel)).2.2 numbers hnumbers
  · exact (hcomponents _ catalog hcatalog textsEntry _ (by decide +kernel)).2.2 texts htexts
  · exact (hcomponents _ catalog hcatalog numbersEntry _ (by decide +kernel)).2.1 failure hfailure
      hsplit

end GeneralSearch.Derived
