import GeneralSearch.Storage.Snapshot
import Mathlib.Data.List.AList
import Mathlib.Data.Finset.Card
import Mathlib.Tactic.Common

/-! The equality index as a client of its builder sees it: a dictionary from each value to the
bitmap of its documents, without empty bitmaps, and the number of indexed documents.
`equalityOps` is this index behind the interfaces of `IndexOps`, `equality_lawful` its contract. -/

namespace GeneralSearch.Index

open GeneralSearch.Storage

/-- A Java map: one entry for each key, in an iteration order on which nothing depends. -/
abbrev JMap (K V : Type) := AList fun _ : K => V

/-- `EqualityIndexSnapshot`: the dictionary and the first of its statistics; the second,
`distinctKeyCount`, is the size of the dictionary. -/
structure EqualityIndexSnapshot (F V : Type) where
  field : F
  values : JMap V (Finset ℕ)
  indexedDocumentCount : ℕ

namespace EqualityIndexSnapshot

variable {F V T : Type} [DecidableEq V]

/-- `EqualityIndexSnapshot.empty`. -/
def empty (field : F) : EqualityIndexSnapshot F V := ⟨field, ∅, 0⟩

/-- `EqualityIndexSnapshot.get`, the empty bitmap for a value without an entry. -/
def get (s : EqualityIndexSnapshot F V) (value : V) : Finset ℕ := (s.values.lookup value).getD ∅

/-- `EqualityIndexBuilder.addValue` followed by `build`. -/
def addValue (s : EqualityIndexSnapshot F V) (value : Option V) (docId : ℕ) :
    EqualityIndexSnapshot F V :=
  match value with
  | none => s
  | some v =>
    if docId ∈ s.get v then s
    else { s with
      values := s.values.insert v (insert docId (s.get v))
      indexedDocumentCount := s.indexedDocumentCount + 1 }

/-- `EqualityIndexBuilder.removeValue` followed by `build`, which drops an empty bitmap. -/
def removeValue (s : EqualityIndexSnapshot F V) (value : Option V) (docId : ℕ) :
    EqualityIndexSnapshot F V :=
  match value with
  | none => s
  | some v =>
    if docId ∈ s.get v then
      { s with
        values := if (s.get v).erase docId = ∅ then s.values.erase v
          else s.values.insert v ((s.get v).erase docId)
        indexedDocumentCount := s.indexedDocumentCount - 1 }
    else s

/-- `EqualityIndexBuilder.update`. -/
def updateValue (s : EqualityIndexSnapshot F V) (oldValue newValue : Option V) (docId : ℕ) :
    EqualityIndexSnapshot F V :=
  if oldValue = newValue then s else (s.removeValue oldValue docId).addValue newValue docId

/-! ### What the dictionary holds -/

@[simp] theorem addValue_field (s : EqualityIndexSnapshot F V) (value : Option V) (docId : ℕ) :
    (s.addValue value docId).field = s.field := by
  unfold addValue
  split <;> [rfl; (split <;> rfl)]

@[simp] theorem removeValue_field (s : EqualityIndexSnapshot F V) (value : Option V) (docId : ℕ) :
    (s.removeValue value docId).field = s.field := by
  unfold removeValue
  split <;> [rfl; (split <;> rfl)]

@[simp] theorem updateValue_field (s : EqualityIndexSnapshot F V) (oldValue newValue : Option V)
    (docId : ℕ) : (s.updateValue oldValue newValue docId).field = s.field := by
  unfold updateValue
  split <;> simp

/-- The index holds the documents with the given values: no entry is empty, an entry lists the
documents with its value, and `indexed` are the documents with a value. -/
structure Holds (s : EqualityIndexSnapshot F V) (value : ℕ → Option V) : Prop where
  nonempty : ∀ v bitmap, s.values.lookup v = some bitmap → bitmap ≠ ∅
  get : ∀ v d, d ∈ s.get v ↔ value d = some v
  count : ∃ indexed : Finset ℕ, (∀ d, d ∈ indexed ↔ (value d).isSome) ∧
    s.indexedDocumentCount = indexed.card

theorem holds_empty (field : F) : (empty field : EqualityIndexSnapshot F V).Holds fun _ => none :=
  ⟨by simp [empty], by simp [empty, EqualityIndexSnapshot.get], ∅, by simp, rfl⟩

theorem get_insert (s : EqualityIndexSnapshot F V) (v w : V) (bitmap : Finset ℕ) (n : ℕ) :
    EqualityIndexSnapshot.get
        { s with values := s.values.insert v bitmap, indexedDocumentCount := n } w =
      if w = v then bitmap else s.get w := by
  unfold EqualityIndexSnapshot.get
  split
  · next h => subst h; simp
  · next h => simp [AList.lookup_insert_ne h]

theorem get_erase (s : EqualityIndexSnapshot F V) (v w : V) (n : ℕ) :
    EqualityIndexSnapshot.get { s with values := s.values.erase v, indexedDocumentCount := n } w =
      if w = v then ∅ else s.get w := by
  unfold EqualityIndexSnapshot.get
  split
  · next h => subst h; simp
  · next h => simp [AList.lookup_erase_ne h]

variable {s : EqualityIndexSnapshot F V} {value : ℕ → Option V} {d : ℕ}

theorem Holds.addValue (h : s.Holds value) (hd : value d = none) (new : Option V) :
    (s.addValue new d).Holds (Function.update value d new) := by
  cases new with
  | none =>
    have hsame : Function.update value d none = value := by
      rw [← hd]
      exact Function.update_eq_self d value
    simpa [EqualityIndexSnapshot.addValue, hsame] using h
  | some v =>
    have hfresh : d ∉ s.get v := by simp [h.get, hd]
    obtain ⟨indexed, hindexed, hcount⟩ := h.count
    simp only [EqualityIndexSnapshot.addValue, if_neg hfresh]
    refine ⟨fun w bitmap hw => ?_, fun w e => ?_, insert d indexed, fun e => ?_, ?_⟩
    · by_cases hwv : w = v
      · subst hwv
        rw [AList.lookup_insert] at hw
        cases hw
        exact Finset.insert_ne_empty _ _
      · exact h.nonempty w bitmap (by simpa [AList.lookup_insert_ne hwv] using hw)
    · rw [get_insert, Function.update_apply]
      by_cases hwv : w = v <;> by_cases hed : e = d
      · simp [hwv, hed]
      · simp [hwv, hed, h.get]
      · simp only [hwv, hed, if_false, if_true, h.get, hd]
        exact ⟨nofun, fun h => absurd (Option.some_inj.mp h).symm hwv⟩
      · simp [hwv, hed, h.get]
    · rw [Finset.mem_insert, hindexed, Function.update_apply]
      by_cases hed : e = d <;> simp [hed]
    · rw [Finset.card_insert_of_notMem (by simp [hindexed, hd])]
      exact congrArg (· + 1) hcount

theorem Holds.removeValue (h : s.Holds value) :
    (s.removeValue (value d) d).Holds (Function.update value d none) := by
  cases hv : value d with
  | none =>
    have hsame : Function.update value d none = value := by
      rw [← hv]
      exact Function.update_eq_self d value
    simpa [EqualityIndexSnapshot.removeValue, hsame] using h
  | some v =>
    have hmem : d ∈ s.get v := (h.get v d).mpr hv
    obtain ⟨indexed, hindexed, hcount⟩ := h.count
    have hget : ∀ w, EqualityIndexSnapshot.get (s.removeValue (some v) d) w =
        if w = v then (s.get v).erase d else s.get w := by
      intro w
      simp only [EqualityIndexSnapshot.removeValue, if_pos hmem]
      split
      · next hempty => rw [get_erase, hempty]
      · rw [get_insert]
    refine ⟨fun w bitmap hw => ?_, fun w e => ?_, indexed.erase d, fun e => ?_, ?_⟩
    · simp only [EqualityIndexSnapshot.removeValue, if_pos hmem] at hw
      by_cases hwv : w = v
      · subst hwv
        split at hw
        · simp at hw
        · next hne =>
          rw [AList.lookup_insert] at hw
          cases hw
          exact hne
      · refine h.nonempty w bitmap ?_
        split at hw
        · simpa [AList.lookup_erase_ne hwv] using hw
        · simpa [AList.lookup_insert_ne hwv] using hw
    · rw [hget, Function.update_apply]
      by_cases hwv : w = v <;> by_cases hed : e = d
      · simp [hwv, hed]
      · simp [hwv, hed, h.get]
      · simp only [hwv, hed, if_false, if_true, h.get, hv]
        exact ⟨fun h => absurd (Option.some_inj.mp h).symm hwv, nofun⟩
      · simp [hwv, hed, h.get]
    · rw [Finset.mem_erase, hindexed, Function.update_apply]
      by_cases hed : e = d <;> simp [hed]
    · rw [Finset.card_erase_of_mem (by simp [hindexed, hv])]
      simp [EqualityIndexSnapshot.removeValue, hmem, hcount]

theorem Holds.updateValue (h : s.Holds value) (new : Option V) :
    (s.updateValue (value d) new d).Holds (Function.update value d new) := by
  unfold EqualityIndexSnapshot.updateValue
  split
  · next heq =>
    rw [← heq, Function.update_eq_self]
    exact h
  · simpa using (h.removeValue (d := d)).addValue (Function.update_self ..) new

/-- The number of values does not depend on how the dictionary was reached. -/
theorem Holds.distinctKeyCount {s' : EqualityIndexSnapshot F V} (h : s.Holds value)
    (h' : s'.Holds value) : s.values.keys.length = s'.values.keys.length := by
  have hkeys : ∀ {r : EqualityIndexSnapshot F V}, r.Holds value →
      ∀ v, v ∈ r.values.keys ↔ ∃ d, value d = some v := by
    intro r hr v
    rw [← AList.mem_keys, ← AList.lookup_isSome, Option.isSome_iff_exists]
    constructor
    · rintro ⟨bitmap, hb⟩
      obtain ⟨d, hd⟩ := Finset.nonempty_iff_ne_empty.mpr (hr.nonempty v bitmap hb)
      exact ⟨d, (hr.get v d).mp (by simp [EqualityIndexSnapshot.get, hb, hd])⟩
    · rintro ⟨d, hd⟩
      have hmem := (hr.get v d).mpr hd
      unfold EqualityIndexSnapshot.get at hmem
      cases hl : r.values.lookup v with
      | none => simp [hl] at hmem
      | some bitmap => exact ⟨bitmap, rfl⟩
  refine List.Perm.length_eq ((List.perm_ext_iff_of_nodup s.values.keys_nodup
    s'.values.keys_nodup).mpr fun v => ?_)
  rw [hkeys h, hkeys h']

end EqualityIndexSnapshot

/-! ### The index behind its interfaces -/

/-- Equality indexes over documents with fields `F`, whose extractors return a value or `null`. -/
def equalityOps (T F V : Type) [DecidableEq F] [DecidableEq V] (valueOf : F → T → Option V) :
    IndexOps T where
  Field := F
  Kind := Unit
  Index := EqualityIndexSnapshot F V
  Builder := EqualityIndexSnapshot F V
  Observation := (V → Finset ℕ) × ℕ × ℕ
  field s := s.field
  kind _ := ()
  createEmpty f _ := .empty f
  toBuilder s := s
  add s d t := s.addValue (valueOf s.field t) d
  remove s d t := s.removeValue (valueOf s.field t) d
  update s d t t' := s.updateValue (valueOf s.field t) (valueOf s.field t') d
  torn s := s
  build s := s
  observe s := (s.get, s.indexedDocumentCount, s.values.keys.length)

theorem update_bind {T V : Type} (docs : ℕ → Option T) (f : T → Option V) (d : ℕ) (t : Option T) :
    (fun e => Function.update docs d t e >>= f) =
      Function.update (fun e => docs e >>= f) d (t >>= f) := by
  funext e
  by_cases h : e = d
  · subst h; simp
  · simp [h]

/-- The equality index keeps its contract. -/
def equality_lawful (T F V : Type) [DecidableEq F] [DecidableEq V] (valueOf : F → T → Option V) :
    LawfulIndex (equalityOps T F V valueOf) where
  Holds f _ s docs := s.field = f ∧ s.Holds fun d => docs d >>= valueOf f
  holds_empty f _ := ⟨rfl, EqualityIndexSnapshot.holds_empty f⟩
  holds_add := by
    rintro f - s docs d t ⟨rfl, h⟩ hd
    refine ⟨s.addValue_field _ _, ?_⟩
    rw [update_bind]
    exact h.addValue (by simp [hd]) (valueOf s.field t)
  holds_remove := by
    rintro f - s docs d t ⟨rfl, h⟩ hd
    refine ⟨s.removeValue_field _ _, ?_⟩
    rw [update_bind]
    have hremove := h.removeValue (d := d)
    simp only [hd] at hremove
    exact hremove
  holds_update := by
    rintro f - s docs d t t' ⟨rfl, h⟩ hd
    constructor
    · exact EqualityIndexSnapshot.updateValue_field ..
    · rw [update_bind]
      have hupdate := h.updateValue (d := d) (valueOf s.field t')
      simp only [hd] at hupdate
      exact hupdate
  holds_build h := h
  field_build h := h.1
  kind_build _ := rfl
  field_empty _ _ := rfl
  kind_empty _ _ := rfl
  observe_build := by
    rintro f - s s' docs ⟨-, h⟩ ⟨-, h'⟩
    have hget : s.get = s'.get := by
      funext v
      ext d
      rw [h.get, h'.get]
    obtain ⟨indexed, hi, hc⟩ := h.count
    obtain ⟨indexed', hi', hc'⟩ := h'.count
    have hcount : s.indexedDocumentCount = s'.indexedDocumentCount := by
      rw [hc, hc', show indexed = indexed' by ext d; rw [hi, hi']]
    exact Prod.ext hget (Prod.ext hcount (h.distinctKeyCount h'))

end GeneralSearch.Index
