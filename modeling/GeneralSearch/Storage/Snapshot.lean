import Mathlib.Data.Finset.Basic
import Mathlib.Data.Finset.Lattice.Fold
import Mathlib.Data.List.Range
import Mathlib.Logic.Function.Basic
import Mathlib.Order.Lattice.Nat

/-! The published state of a search engine and the single-use builder that derives the next one:
`SearchSnapshot`, `SearchSnapshotBuilder` and the index builders that `IndexRegistryBuilder` drives
one by one.  An index is seen through the operations of the interfaces `IndexSnapshot` and
`IndexBuilder`; `LawfulIndex` is their contract, which `Ranked.registry_lawful` shows of the built-in
indexes. -/

namespace GeneralSearch.Storage

/-- The operations of `IndexSnapshot` and `IndexBuilder` for documents of type `T`.  `field` and
`type` are the identity that the registry compares, `observe` what a reader sees of an index: its
contents and its statistics.  `torn` is what a call that throws leaves of the builder it throws in;
the builders of this repository call extractor and analyzer first and are left unchanged. -/
structure IndexOps (T : Type) where
  Field : Type
  Kind : Type
  Index : Type
  Builder : Type
  Observation : Type
  [fieldEq : DecidableEq Field]
  [kindEq : DecidableEq Kind]
  field : Index → Field
  kind : Index → Kind
  createEmpty : Field → Kind → Index
  toBuilder : Index → Builder
  add : Builder → ℕ → T → Builder
  remove : Builder → ℕ → T → Builder
  update : Builder → ℕ → T → T → Builder
  torn : Builder → Builder
  build : Builder → Index
  observe : Index → Observation

attribute [instance] IndexOps.fieldEq IndexOps.kindEq

/-- The contract of an index.  `Holds b docs` says that the builder `b` indexes exactly the
documents `docs`; every operation keeps it when it is called with the document that is really stored
under the id, and what a reader observes depends on the documents alone. -/
structure LawfulIndex {T : Type} (ops : IndexOps T) where
  Holds : ops.Field → ops.Kind → ops.Builder → (ℕ → Option T) → Prop
  holds_empty : ∀ f k, Holds f k (ops.toBuilder (ops.createEmpty f k)) fun _ => none
  holds_add : ∀ {f k b docs d t}, Holds f k b docs → docs d = none →
    Holds f k (ops.add b d t) (Function.update docs d (some t))
  holds_remove : ∀ {f k b docs d t}, Holds f k b docs → docs d = some t →
    Holds f k (ops.remove b d t) (Function.update docs d none)
  holds_update : ∀ {f k b docs d t t'}, Holds f k b docs → docs d = some t →
    Holds f k (ops.update b d t t') (Function.update docs d (some t'))
  holds_build : ∀ {f k b docs}, Holds f k b docs →
    Holds f k (ops.toBuilder (ops.build b)) docs
  field_build : ∀ {f k b docs}, Holds f k b docs → ops.field (ops.build b) = f
  kind_build : ∀ {f k b docs}, Holds f k b docs → ops.kind (ops.build b) = k
  field_empty : ∀ f k, ops.field (ops.createEmpty f k) = f
  kind_empty : ∀ f k, ops.kind (ops.createEmpty f k) = k
  observe_build : ∀ {f k b b' docs}, Holds f k b docs → Holds f k b' docs →
    ops.observe (ops.build b) = ops.observe (ops.build b')

/-- The ids that `ImmutableBitmap.forEachSetBit` visits, in its ascending order. -/
def setBits (bitmap : Finset ℕ) : List ℕ :=
  (List.range (bitmap.sup id + 1)).filter (· ∈ bitmap)

@[simp] theorem mem_setBits {bitmap : Finset ℕ} {docId : ℕ} :
    docId ∈ setBits bitmap ↔ docId ∈ bitmap := by
  simp only [setBits, List.mem_filter, List.mem_range, decide_eq_true_eq, and_iff_right_iff_imp]
  exact fun h => Nat.lt_succ_of_le (Finset.le_sup (f := id) h)

theorem setBits_ascending (bitmap : Finset ℕ) : (setBits bitmap).Pairwise (· < ·) :=
  List.Pairwise.filter _ List.pairwise_lt_range

theorem setBits_nodup (bitmap : Finset ℕ) : (setBits bitmap).Nodup :=
  List.nodup_range.filter _

/-- `SearchSnapshot`: the document slots, the active document ids, the indexes in registration
order and the version. -/
structure SearchSnapshot (T Index : Type) where
  documents : ℕ → Option T
  activeDocuments : Finset ℕ
  indexes : List Index
  version : ℕ

variable {T : Type}

/-- `SearchSnapshot.get`: the document of an active id. -/
def SearchSnapshot.get {Index : Type} (s : SearchSnapshot T Index) (docId : ℕ) : Option T :=
  if docId ∈ s.activeDocuments then s.documents docId else none

/-- `SearchSnapshot.withIndexes`, where `newIndexes` is another registry object. -/
def SearchSnapshot.withIndexes {Index : Type} (s : SearchSnapshot T Index)
    (newIndexes : List Index) : SearchSnapshot T Index :=
  { s with indexes := newIndexes, version := s.version + 1 }

/-- `SearchSnapshotBuilder`: the document table, the active bitmap and one builder for each
registered index. -/
structure SearchSnapshotBuilder (T Builder : Type) where
  documents : ℕ → Option T
  activeDocuments : Finset ℕ
  indexes : List Builder
  nextVersion : ℕ

namespace SearchSnapshotBuilder

variable {ops : IndexOps T}

/-- The builder rooted at `base`. -/
def ofSnapshot (ops : IndexOps T) (base : SearchSnapshot T ops.Index) :
    SearchSnapshotBuilder T ops.Builder where
  documents := base.documents
  activeDocuments := base.activeDocuments
  indexes := base.indexes.map ops.toBuilder
  nextVersion := base.version + 1

/-- `SearchSnapshotBuilder.get`. -/
def get {Builder : Type} (s : SearchSnapshotBuilder T Builder) (docId : ℕ) : Option T :=
  if docId ∈ s.activeDocuments then s.documents docId else none

/-- `SearchSnapshotBuilder.build`. -/
def build (ops : IndexOps T) (s : SearchSnapshotBuilder T ops.Builder) :
    SearchSnapshot T ops.Index where
  documents := s.documents
  activeDocuments := s.activeDocuments
  indexes := s.indexes.map ops.build
  version := s.nextVersion

end SearchSnapshotBuilder

/-- One call of `IndexRegistryBuilder.add`, `update` or `remove`: `apply` runs on one builder after
the other; when the builder at the given position throws, the builders before it keep their change,
it is left `torn` and the loop ends.  The second component says whether the loop was left by the
exception. -/
def forEachBuilder {Builder : Type} (torn apply : Builder → Builder) :
    Option ℕ → List Builder → List Builder × Bool
  | _, [] => ([], false)
  | none, b :: rest => (apply b :: (forEachBuilder torn apply none rest).1, false)
  | some 0, b :: rest => (torn b :: rest, true)
  | some (k + 1), b :: rest =>
    let r := forEachBuilder torn apply (some k) rest
    (apply b :: r.1, r.2)

section

variable {Builder : Type} (torn apply : Builder → Builder)

@[simp] theorem forEachBuilder_none (bs : List Builder) :
    forEachBuilder torn apply none bs = (bs.map apply, false) := by
  induction bs with
  | nil => rfl
  | cons b rest ih => simp [forEachBuilder, ih]

/-- The loop throws exactly when the throwing position is that of a builder. -/
theorem forEachBuilder_throws (k : ℕ) (bs : List Builder) :
    (forEachBuilder torn apply (some k) bs).2 = decide (k < bs.length) := by
  induction bs generalizing k with
  | nil => simp [forEachBuilder]
  | cons b rest ih =>
    cases k with
    | zero => simp [forEachBuilder]
    | succ k => simp [forEachBuilder, ih]

/-- A position past the last builder is never reached. -/
theorem forEachBuilder_past {k : ℕ} {bs : List Builder} (h : bs.length ≤ k) :
    forEachBuilder torn apply (some k) bs = (bs.map apply, false) := by
  induction bs generalizing k with
  | nil => simp [forEachBuilder]
  | cons b rest ih =>
    obtain ⟨k, rfl⟩ : ∃ m, k = m + 1 := ⟨k - 1, by simp at h; omega⟩
    simp [forEachBuilder, ih (show rest.length ≤ k by simp at h; omega)]

end

end GeneralSearch.Storage
