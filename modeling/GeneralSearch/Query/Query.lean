import Mathlib.Data.Fin.Basic
import Mathlib.Data.List.Basic
import Mathlib.Data.Finset.Basic
import Mathlib.Algebra.Ring.Nat
import Mathlib.Algebra.Ring.Int.Defs
import Mathlib.Tactic.Common

/-! Queries and what they match.  A schema has fields of type `String` and fields of other types,
each with an extractor that returns a value or `null`, and text fields, which analyze a string
field into terms.  Value equality is `Objects.equals`, value order is `compareTo`, which may
identify values that are not equal. -/

namespace GeneralSearch.Planner

/-- A UTF-16 code unit. -/
abbrev JChar := Fin 65536

instance neZero_units : NeZero 65536 := ⟨by decide⟩

/-- `Character.MAX_VALUE`. -/
def JChar.maxValue : JChar := Fin.last 65535

theorem JChar.lt_add_one {c : JChar} (h : c ≠ maxValue) : c < c + 1 :=
  Fin.lt_add_one_iff.mpr (Fin.lt_last_iff_ne_last.2 h)

theorem JChar.ne_maxValue_of_lt {c d : JChar} (h : c < d) : c ≠ maxValue := by
  rintro rfl
  exact absurd h (Fin.not_lt.mpr (Fin.le_last d))

abbrev JString := List JChar

instance JString.lawfulBEq : LawfulBEq JString := inferInstance

/-- `String.compareTo`: code units in order, then the length. -/
def JString.compareTo : JString → JString → Ordering := List.compareLex compare

instance : Std.TransCmp JString.compareTo :=
  inferInstanceAs (Std.TransCmp (List.compareLex (compare : JChar → JChar → Ordering)))

instance : Std.LawfulEqCmp JString.compareTo :=
  inferInstanceAs (Std.LawfulEqCmp (List.compareLex (compare : JChar → JChar → Ordering)))

/-- The schema of documents `T`: its fields and text fields, compared by identity, and their
extractors.  A text field's `analyze` gives the terms of its analyzer's tokens. -/
structure Schema (T : Type) where
  StringField : Type
  ObjectField : Type
  TextField : Type
  [stringFieldEq : DecidableEq StringField]
  [objectFieldEq : DecidableEq ObjectField]
  [textFieldEq : DecidableEq TextField]
  Value : ObjectField → Type
  [valueEq : ∀ f, DecidableEq (Value f)]
  compareTo : ∀ f, Value f → Value f → Ordering
  [lawful : ∀ f, Std.TransCmp (compareTo f)]
  stringOf : StringField → T → Option JString
  valueOf : ∀ f, T → Option (Value f)
  source : TextField → StringField
  analyze : TextField → Option JString → List JString

attribute [instance] Schema.stringFieldEq Schema.objectFieldEq Schema.textFieldEq Schema.valueEq
  Schema.lawful

namespace Schema

variable {T : Type} (S : Schema T)

/-- `Field`. -/
abbrev Field := S.StringField ⊕ S.ObjectField

/-- The value type of a field. -/
def Val : S.Field → Type
  | .inl _ => JString
  | .inr f => S.Value f

instance (f : S.Field) : DecidableEq (S.Val f) :=
  match f with
  | .inl _ => inferInstanceAs (DecidableEq JString)
  | .inr f => inferInstanceAs (DecidableEq (S.Value f))

/-- The natural order of a field's values. -/
def cmp : (f : S.Field) → S.Val f → S.Val f → Ordering
  | .inl _ => JString.compareTo
  | .inr f => S.compareTo f

instance (f : S.Field) : Std.TransCmp (S.cmp f) :=
  match f with
  | .inl _ => inferInstanceAs (Std.TransCmp JString.compareTo)
  | .inr f => inferInstanceAs (Std.TransCmp (S.compareTo f))

/-- `Field.valueOf`. -/
def fieldValue : (f : S.Field) → T → Option (S.Val f)
  | .inl f => S.stringOf f
  | .inr f => S.valueOf f

/-- `TextQuerySupport.documentTerms`. -/
def documentTerms (f : S.TextField) (document : T) : List JString :=
  S.analyze f (S.stringOf (S.source f) document)

end Schema

/-- The query classes; `predicate` is any other implementation of `Query`.  The terms of a text
query are those that its constructor got from the analyzer. -/
inductive Query {T : Type} (S : Schema T) where
  | matchAll
  | and (queries : List (Query S))
  | or (queries : List (Query S))
  | not (query : Query S)
  | equal (field : S.Field) (expectedValue : Option (S.Val field))
  | range (field : S.Field) (minValue maxValue : S.Val field)
  | prefixed (field : S.StringField) (start : JString)
  | term (textField : S.TextField) (term : JString)
  | anyTerms (textField : S.TextField) (terms : List JString)
  | allTerms (textField : S.TextField) (terms : List JString)
  | predicate (test : T → Bool)

namespace Query

variable {T : Type} {S : Schema T}

mutual

/-- `Query.matches`. -/
def matchesDocument (document : T) : Query S → Bool
  | .matchAll => true
  | .and queries => allMatch document queries
  | .or queries => anyMatch document queries
  | .not query => !matchesDocument document query
  | .equal field expectedValue => decide (S.fieldValue field document = expectedValue)
  | .range field minValue maxValue =>
    match S.fieldValue field document with
    | none => false
    | some value => (S.cmp field value minValue).isGE && (S.cmp field value maxValue).isLE
  | .prefixed field start =>
    match S.stringOf field document with
    | none => false
    | some value => start.isPrefixOf value
  | .term textField t => decide (t ∈ S.documentTerms textField document)
  | .anyTerms textField terms => terms.any fun t => decide (t ∈ S.documentTerms textField document)
  | .allTerms textField terms => !terms.isEmpty &&
      terms.all fun t => decide (t ∈ S.documentTerms textField document)
  | .predicate test => test document

/-- `queries.stream().allMatch`. -/
def allMatch (document : T) : List (Query S) → Bool
  | [] => true
  | query :: rest => matchesDocument document query && allMatch document rest

/-- `queries.stream().anyMatch`. -/
def anyMatch (document : T) : List (Query S) → Bool
  | [] => false
  | query :: rest => matchesDocument document query || anyMatch document rest

end

attribute [simp] matchesDocument allMatch anyMatch

end Query

end GeneralSearch.Planner
