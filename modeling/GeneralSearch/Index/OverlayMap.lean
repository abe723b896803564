import GeneralSearch.Index.Equality
import GeneralSearch.Lib.Exec
import Mathlib.Data.Finmap
import Mathlib.Data.Int.Order.Basic

/-! `ImmutableOverlayMap`, the dictionary under the equality index: a root map below a chain of
overlays, each with the entries it replaces and the keys it removes.  It is a finite map whose chain
is never longer than `MAX_DEPTH` and which a compaction leaves as it is.  Every change keeps its
size as long as an `int` can count the entries.  Its one full iteration is the walk of `compact` over
the layers. -/

namespace GeneralSearch.Index

/-- A Java set, as the map that a `HashSet` keeps. -/
abbrev JSet (K : Type) := JMap K Unit

namespace ImmutableOverlayMap

def MAX_DEPTH : ℕ := 12

def MIN_EAGER_COMPACTION_CHANGES : Int32 := 64

/-- `Map.size` and `Set.size`: more entries than an `int` counts are reported as
`Integer.MAX_VALUE`. -/
def sizeOf (entries : ℕ) : Int32 := Int32.ofNat (min entries 2147483647)

inductive Thrown where
  | nullPointer (message : String)
  | illegalArgument (message : String)
  deriving DecidableEq, Repr

end ImmutableOverlayMap

/-- A root, or an overlay on its parent.  The size of a root and the depth of both are what their
constructors compute. -/
inductive ImmutableOverlayMap (K V : Type) where
  | root (rootValues : JMap K V)
  | overlay (parent : ImmutableOverlayMap K V) (replacements : JMap K V) (removals : JSet K)
    (size : Int32)

namespace ImmutableOverlayMap

variable {K V : Type} [DecidableEq K]

def empty : ImmutableOverlayMap K V := .root ∅

def get : ImmutableOverlayMap K V → K → Option V
  | .root rootValues, key => rootValues.lookup key
  | .overlay parent replacements removals _, key =>
    match replacements.lookup key with
    | some replacement => some replacement
    | none => if key ∈ removals then none else parent.get key

def containsKey (m : ImmutableOverlayMap K V) (key : K) : Bool := (m.get key).isSome

def size : ImmutableOverlayMap K V → Int32
  | .root rootValues => sizeOf rootValues.entries.length
  | .overlay _ _ _ size => size

def depth : ImmutableOverlayMap K V → ℕ
  | .root _ => 0
  | .overlay parent _ _ _ => parent.depth + 1

/-- `flattened.putAll(layer.replacements)`. -/
def putAll (flattened replacements : JMap K V) : JMap K V :=
  replacements.entries.foldl (fun m entry => m.insert entry.1 entry.2) flattened

/-- `layer.removals.forEach(flattened::remove)`. -/
def removeAll (flattened : JMap K V) (removals : JSet K) : JMap K V :=
  removals.keys.foldl (fun m key => m.erase key) flattened

/-- The map that `compact` builds: the root and then every layer, from the oldest to the newest. -/
def flattened : ImmutableOverlayMap K V → JMap K V
  | .root rootValues => rootValues
  | .overlay parent replacements removals _ => putAll (removeAll parent.flattened removals) replacements

def compact (m : ImmutableOverlayMap K V) : ImmutableOverlayMap K V := .root m.flattened

section

variable [DecidableEq V]

/-- One round of the loop over the requested replacements, in which a key or a value may be null. -/
def replace (m : ImmutableOverlayMap K V) (requestedRemovals : JSet (Option K))
    (effectiveReplacements : JMap K V) (entry : Σ _ : Option K, Option V) :
    Except Thrown (JMap K V) := do
  let some key := entry.1 | throw (.nullPointer "replacement key")
  let some value := entry.2 | throw (.nullPointer "replacement value")
  if some key ∈ requestedRemovals then
    throw (.illegalArgument "a key cannot be replaced and removed")
  return if m.get key = some value then effectiveReplacements
    else effectiveReplacements.insert key value

/-- One round of the loop over the requested removals. -/
def remove (m : ImmutableOverlayMap K V) (effectiveRemovals : JSet K) (key : Option K) :
    Except Thrown (JSet K) := do
  let some key := key | throw (.nullPointer "removed key")
  return if m.containsKey key then effectiveRemovals.insert key () else effectiveRemovals

/-- The new overlay, whose size counts the keys that are new and those that are gone. -/
def updated (m : ImmutableOverlayMap K V) (effectiveReplacements : JMap K V)
    (effectiveRemovals : JSet K) : ImmutableOverlayMap K V :=
  let updatedSize := effectiveReplacements.keys.foldl
    (fun updatedSize key => if m.containsKey key then updatedSize else updatedSize + 1) m.size
  .overlay m effectiveReplacements effectiveRemovals
    (updatedSize - sizeOf effectiveRemovals.entries.length)

def withChanges (m : ImmutableOverlayMap K V) (requestedReplacements : JMap (Option K) (Option V))
    (requestedRemovals : JSet (Option K)) : Except Thrown (ImmutableOverlayMap K V) := do
  let effectiveReplacements ←
    requestedReplacements.entries.foldlM (m.replace requestedRemovals) ∅
  let effectiveRemovals ← requestedRemovals.keys.foldlM m.remove ∅
  if effectiveReplacements.entries = [] ∧ effectiveRemovals.entries = [] then
    return m
  let updated := m.updated effectiveReplacements effectiveRemovals
  let changedEntries :=
    sizeOf effectiveReplacements.entries.length + sizeOf effectiveRemovals.entries.length
  let compactionThreshold := max MIN_EAGER_COMPACTION_CHANGES (max 1 (m.size / 4))
  return if updated.depth > MAX_DEPTH ∨ changedEntries ≥ compactionThreshold then updated.compact
    else updated

end

/-! ### The layers as one map -/

variable {m parent : ImmutableOverlayMap K V} {replacements flat : JMap K V} {removals : JSet K}
  {key k : K} {v : V}

theorem lookup_foldl_insert {entries : List (Σ _ : K, V)} (h : entries.NodupKeys) :
    (entries.foldl (fun m entry => m.insert entry.1 entry.2) flat).lookup k =
      (entries.dlookup k).or (flat.lookup k) := by
  induction entries generalizing flat with
  | nil => rfl
  | cons entry entries ih =>
    obtain ⟨hfresh, hrest⟩ := List.nodupKeys_cons.mp h
    rw [List.foldl_cons, ih hrest]
    by_cases hk : k = entry.1
    · subst hk
      rw [List.dlookup_eq_none.mpr hfresh, AList.lookup_insert, List.dlookup_cons_eq]
      rfl
    · rw [AList.lookup_insert_ne hk, List.dlookup_cons_ne _ _ hk]

theorem lookup_putAll :
    (putAll flat replacements).lookup k = (replacements.lookup k).or (flat.lookup k) :=
  lookup_foldl_insert replacements.nodupKeys

theorem lookup_foldl_erase {keys : List K} :
    (keys.foldl (fun m key => m.erase key) flat).lookup k =
      if k ∈ keys then none else flat.lookup k := by
  induction keys generalizing flat with
  | nil => simp
  | cons key keys ih =>
    rw [List.foldl_cons, ih]
    by_cases hk : k = key
    · subst hk
      simp [AList.lookup_erase]
    · simp [AList.lookup_erase_ne hk, hk]

theorem lookup_removeAll :
    (removeAll flat removals).lookup k = if k ∈ removals then none else flat.lookup k := by
  unfold removeAll
  rw [lookup_foldl_erase]
  simp only [AList.mem_keys]

/-- The walk over the layers finds what a lookup finds. -/
theorem lookup_flattened : m.flattened.lookup k = m.get k := by
  induction m with
  | root rootValues => rfl
  | overlay parent replacements removals size ih =>
    rw [flattened, lookup_putAll, lookup_removeAll, ih, get]
    cases replacements.lookup k <;> rfl

/-- A compaction keeps every lookup. -/
@[simp] theorem get_compact : m.compact.get k = m.get k := lookup_flattened

/-! ### The changes of a call -/

/-- The loop over the effective replacements counts the keys that are new. -/
theorem foldl_grown {keys : List K} {n : Int32} :
    keys.foldl (fun updatedSize key =>
        if m.containsKey key then updatedSize else updatedSize + 1) n =
      n + Int32.ofNat (keys.filter fun key => !m.containsKey key).length := by
  induction keys generalizing n with
  | nil => exact (Int32.add_zero n).symm
  | cons key keys ih =>
    rw [List.foldl_cons, ih]
    by_cases hkey : m.containsKey key
    · simp [hkey]
    · simp only [hkey, List.filter_cons, Bool.not_false, if_true, Bool.false_eq_true, if_false,
        List.length_cons]
      rw [Int32.ofNat_add, Int32.add_assoc, Int32.add_comm 1]
      rfl

section

variable {requestedReplacements : JMap (Option K) (Option V)}
  {requestedRemovals : JSet (Option K)} {entry : Σ _ : Option K, Option V}
  {effective result : JMap K V}

/-- A requested replacement that is not refused. -/
def Replaces (requestedRemovals : JSet (Option K)) : (Σ _ : Option K, Option V) → Prop
  | ⟨some key, some _⟩ => some key ∉ requestedRemovals
  | _ => False

instance : Decidable (Replaces requestedRemovals entry) := by
  obtain ⟨_ | key, _ | value⟩ := entry
  · exact .isFalse id
  · exact .isFalse id
  · exact .isFalse id
  · exact inferInstanceAs (Decidable (some key ∉ requestedRemovals))

omit [DecidableEq K] in
theorem Replaces.eq (h : Replaces requestedRemovals entry) :
    ∃ key value, entry = ⟨some key, some value⟩ ∧ some key ∉ requestedRemovals := by
  obtain ⟨_ | key, _ | value⟩ := entry
  · exact h.elim
  · exact h.elim
  · exact h.elim
  · exact ⟨key, value, rfl, h⟩

/-- What the loop over the requested removals collects: a requested key that is there. -/
theorem foldlM_remove {keys : List (Option K)} {effectiveRemovals : JSet K} (h : none ∉ keys) :
    ∃ result, keys.foldlM m.remove effectiveRemovals = .ok result ∧
      ∀ k, k ∈ result ↔ k ∈ effectiveRemovals ∨ some k ∈ keys ∧ m.containsKey k := by
  induction keys generalizing effectiveRemovals with
  | nil => exact ⟨effectiveRemovals, rfl, fun k => by simp⟩
  | cons key keys ih =>
    obtain ⟨hkey, hrest⟩ := not_or.mp (mt List.mem_cons.mpr h)
    obtain ⟨key, rfl⟩ := Option.ne_none_iff_exists'.mp (Ne.symm hkey)
    obtain ⟨result, hok, hmem⟩ := @ih (if m.containsKey key then
      effectiveRemovals.insert key () else effectiveRemovals) hrest
    refine ⟨result, ?_, fun k => ?_⟩
    · rw [List.foldlM_cons]
      exact hok
    · rw [hmem]
      by_cases hk : k = key
      · subst hk
        split <;> simp [*]
      · split <;> simp [hk]

theorem removes_of_foldlM {keys : List (Option K)} {effectiveRemovals result : JSet K}
    (h : keys.foldlM m.remove effectiveRemovals = .ok result) : none ∉ keys := by
  induction keys generalizing effectiveRemovals with
  | nil => exact List.not_mem_nil
  | cons key keys ih =>
    rw [List.foldlM_cons, Lib.bind_eq_ok] at h
    obtain ⟨next, hnext, hrest⟩ := h
    refine mt List.mem_cons.mp (not_or.mpr ⟨?_, ih hrest⟩)
    rintro rfl
    cases hnext

variable [DecidableEq V]

theorem replace_of_replaces {value : V} (h : some key ∉ requestedRemovals) :
    m.replace requestedRemovals effective ⟨some key, some value⟩ =
      .ok (if m.get key = some value then effective else effective.insert key value) := by
  unfold replace
  simp only [if_neg h]
  rfl

theorem replaces_of_replace (h : m.replace requestedRemovals effective entry = .ok result) :
    Replaces requestedRemovals entry := by
  obtain ⟨_ | key, _ | value⟩ := entry
  · cases h
  · cases h
  · cases h
  · intro hmem
    unfold replace at h
    simp only [if_pos hmem] at h
    cases h

/-- What the loop over the requested replacements collects: a requested value that differs from the
one that is there. -/
theorem foldlM_replace {entries : List (Σ _ : Option K, Option V)} (hdistinct : entries.NodupKeys)
    (h : ∀ entry ∈ entries, Replaces requestedRemovals entry)
    (hfresh : ∀ key, some key ∈ entries.keys → key ∉ effective) :
    ∃ result, entries.foldlM (m.replace requestedRemovals) effective = .ok result ∧
      ∀ k, result.lookup k =
        (((entries.dlookup (some k)).join).filter fun v => m.get k ≠ some v).or
          (effective.lookup k) := by
  induction entries generalizing effective with
  | nil => exact ⟨effective, rfl, fun k => rfl⟩
  | cons entry entries ih =>
    obtain ⟨key, value, rfl, hremoval⟩ := (h _ List.mem_cons_self).eq
    obtain ⟨hnew, hrest⟩ := List.nodupKeys_cons.mp hdistinct
    have hkey : key ∉ effective := hfresh key (by simp)
    obtain ⟨result, hok, hlookup⟩ := @ih (if m.get key = some value then effective
      else effective.insert key value) hrest (fun e he => h e (List.mem_cons_of_mem _ he)) (by
        intro k hk hmem
        split at hmem
        · exact hfresh k (by simp [hk]) hmem
        · obtain rfl | hmem := AList.mem_insert _ |>.mp hmem
          · exact hnew hk
          · exact hfresh k (by simp [hk]) hmem)
    refine ⟨result, ?_, fun k => ?_⟩
    · rw [List.foldlM_cons, replace_of_replaces hremoval]
      exact hok
    · rw [hlookup]
      by_cases hk : k = key
      · subst hk
        rw [List.dlookup_eq_none.mpr hnew, List.dlookup_cons_eq]
        have hnone := AList.lookup_eq_none.mpr hkey
        split <;> simp [Option.filter, *]
      · rw [List.dlookup_cons_ne _ _ (by simpa using hk)]
        split
        · rfl
        · rw [AList.lookup_insert_ne hk]

theorem replaces_of_foldlM {entries : List (Σ _ : Option K, Option V)}
    (h : entries.foldlM (m.replace requestedRemovals) effective = .ok result) :
    ∀ entry ∈ entries, Replaces requestedRemovals entry := by
  induction entries generalizing effective with
  | nil => exact List.forall_mem_nil _
  | cons entry entries ih =>
    rw [List.foldlM_cons, Lib.bind_eq_ok] at h
    obtain ⟨next, hnext, hrest⟩ := h
    exact List.forall_mem_cons.mpr ⟨replaces_of_replace hnext, ih hrest⟩

end

/-! ### The finite map of a call -/

/-- The arguments of a call of `withChanges`. -/
structure Changes (K V : Type) where
  replacements : JMap (Option K) (Option V)
  removals : JSet (Option K)

/-- No null, and no key that is replaced and removed. -/
structure Changes.Valid (c : Changes K V) : Prop where
  replaces : ∀ entry ∈ c.replacements.entries, Replaces c.removals entry
  removes : none ∉ c.removals

instance (c : Changes K V) : Decidable c.Valid :=
  decidable_of_iff (_ ∧ _) ⟨fun h => ⟨h.1, h.2⟩, fun h => ⟨h.1, h.2⟩⟩

/-- The value that a call demands for a key. -/
def Changes.value (c : Changes K V) (key : K) : Option V := (c.replacements.lookup (some key)).join

/-- A finite map with a requested key erased. -/
def erased (f : Finmap fun _ : K => V) : Option K → Finmap fun _ : K => V
  | some key => f.erase key
  | none => f

/-- A finite map with a requested entry put. -/
def inserted (f : Finmap fun _ : K => V) : (Σ _ : Option K, Option V) → Finmap fun _ : K => V
  | ⟨some key, some value⟩ => f.insert key value
  | _ => f

/-- A finite map after the changes of a call, in order. -/
def Changes.apply (c : Changes K V) (f : Finmap fun _ : K => V) : Finmap fun _ : K => V :=
  c.replacements.entries.foldl inserted (c.removals.keys.foldl erased f)

variable {c : Changes K V} {f : Finmap fun _ : K => V}

theorem lookup_foldl_erased {keys : List (Option K)} :
    (keys.foldl erased f).lookup k = if some k ∈ keys then none else f.lookup k := by
  induction keys generalizing f with
  | nil => simp
  | cons key keys ih =>
    rw [List.foldl_cons, ih]
    obtain _ | key := key
    · simp [erased]
    · by_cases hk : k = key
      · subst hk
        simp [erased]
      · simp [erased, hk]

theorem lookup_foldl_inserted {entries : List (Σ _ : Option K, Option V)}
    (h : entries.NodupKeys) :
    (entries.foldl inserted f).lookup k =
      ((entries.dlookup (some k)).join).or (f.lookup k) := by
  induction entries generalizing f with
  | nil => rfl
  | cons entry entries ih =>
    obtain ⟨hfresh, hrest⟩ := List.nodupKeys_cons.mp h
    rw [List.foldl_cons, ih hrest]
    obtain ⟨_ | key, value⟩ := entry
    · rw [List.dlookup_cons_ne _ _ (by simp)]
      rfl
    · by_cases hk : k = key
      · subst hk
        rw [List.dlookup_eq_none.mpr hfresh, List.dlookup_cons_eq]
        cases value <;> simp [inserted]
      · rw [List.dlookup_cons_ne _ _ (by simpa using hk)]
        cases value <;> simp [inserted, hk]

theorem lookup_apply : (c.apply f).lookup k =
    (c.value k).or (if some k ∈ c.removals then none else f.lookup k) := by
  unfold Changes.apply
  rw [lookup_foldl_inserted c.replacements.nodupKeys, lookup_foldl_erased]
  simp only [AList.mem_keys]
  rfl

/-- A key that gets a value is not removed. -/
theorem Changes.Valid.kept (h : c.Valid) (hv : c.value k = some v) : some k ∉ c.removals := by
  have hentry : (⟨some k, some v⟩ : Σ _ : Option K, Option V) ∈ c.replacements.entries :=
    AList.mem_lookup_iff.mp (Option.join_eq_some_iff.mp hv)
  exact h.replaces _ hentry

/-! ### The overlay map denotes a finite map -/

/-- The map finds what the finite map holds, and its chain is not too long. -/
structure Denotes (m : ImmutableOverlayMap K V) (f : Finmap fun _ : K => V) : Prop where
  get : ∀ k, m.get k = f.lookup k
  depth : m.depth ≤ MAX_DEPTH

theorem Denotes.unique {f' : Finmap fun _ : K => V} (h : m.Denotes f) (h' : m.Denotes f') : f = f' :=
  Finmap.ext_lookup fun k => (h.get k).symm.trans (h'.get k)

theorem denotes_empty : (empty : ImmutableOverlayMap K V).Denotes ∅ :=
  ⟨fun _ => rfl, Nat.zero_le _⟩

/-- The walk over the layers builds the finite map. -/
theorem toFinmap_flattened (h : ∀ k, m.get k = f.lookup k) : m.flattened.toFinmap = f := by
  apply Finmap.ext_lookup
  intro k
  rw [Finmap.lookup_toFinmap, lookup_flattened, h]

/-- A compaction of a chain of any length is a root with the same entries. -/
theorem denotes_compact (h : ∀ k, m.get k = f.lookup k) : m.compact.Denotes f where
  get k := get_compact.trans (h k)
  depth := Nat.zero_le _

/-- The entries that an `int` counts. -/
def Countable (f : Finmap fun _ : K => V) : Prop := f.keys.card ≤ 2147483647

omit [DecidableEq K] in
theorem card_keys_toFinmap (values : JMap K V) :
    values.toFinmap.keys.card = values.entries.length := List.length_map _

theorem sizeOf_eq {n : ℕ} (h : n ≤ 2147483647) : sizeOf n = Int32.ofNat n := by
  rw [sizeOf, Nat.min_eq_left h]

theorem toInt_sizeOf (n : ℕ) : (sizeOf n).toInt = min (n : ℤ) 2147483647 := by
  rw [sizeOf, Int32.toInt_ofNat_of_lt (by omega)]
  omega

/-- The size of a compacted map counts its entries. -/
theorem size_compact (h : ∀ k, m.get k = f.lookup k) : m.compact.size = sizeOf f.keys.card := by
  rw [← toFinmap_flattened h, card_keys_toFinmap]
  rfl

section

variable {effectiveReplacements : JMap K V} {effectiveRemovals : JSet K} [DecidableEq V]

/-- What is left of a call after the changes without effect are dropped. -/
structure Effective (m : ImmutableOverlayMap K V) (c : Changes K V)
    (effectiveReplacements : JMap K V) (effectiveRemovals : JSet K) : Prop where
  replaced : ∀ k, effectiveReplacements.lookup k = (c.value k).filter fun v => m.get k ≠ some v
  removed : ∀ k, k ∈ effectiveRemovals ↔ some k ∈ c.removals ∧ m.containsKey k

theorem Effective.lookup (h : Effective m c effectiveReplacements effectiveRemovals)
    (hc : c.Valid) (hm : m.Denotes f) :
    (effectiveReplacements.lookup k).or (if k ∈ effectiveRemovals then none else m.get k) =
      (c.apply f).lookup k := by
  rw [lookup_apply, h.replaced, ← hm.get]
  simp only [h.removed, containsKey]
  cases hv : c.value k with
  | none =>
    -- a removal without effect leaves a key that is not there
    by_cases hremoved : some k ∈ c.removals
    · cases m.get k <;> simp [hremoved]
    · simp [hremoved]
  | some v =>
    have hkept := hc.kept hv
    by_cases hget : m.get k = some v
    · simp [Option.filter, hget, hkept]
    · simp [Option.filter, hget]

/-- No key is replaced and removed. -/
theorem Effective.disjoint (h : Effective m c effectiveReplacements effectiveRemovals)
    (hc : c.Valid) (hk : k ∈ effectiveReplacements) : k ∉ effectiveRemovals := by
  obtain ⟨v, hv⟩ := Option.isSome_iff_exists.mp (AList.lookup_isSome.mpr hk)
  rw [h.replaced, Option.filter_eq_some_iff] at hv
  rw [h.removed]
  exact fun hremoved => hc.kept hv.1 hremoved.1

/-- The keys after a call: the removed ones are gone, the new ones are there. -/
theorem Effective.card (h : Effective m c effectiveReplacements effectiveRemovals)
    (hc : c.Valid) (hm : m.Denotes f) :
    (c.apply f).keys.card + effectiveRemovals.entries.length = f.keys.card +
      (effectiveReplacements.keys.filter fun key => !m.containsKey key).length := by
  have hlive : ∀ k, m.containsKey k ↔ k ∈ f.keys := fun k => by
    unfold containsKey
    rw [hm.get, Finmap.mem_keys, Finmap.lookup_isSome]
  have hkeys : (c.apply f).keys = (f.keys \ effectiveRemovals.keys.toFinset) ∪
      (effectiveReplacements.keys.filter fun key => !m.containsKey key).toFinset := by
    ext k
    rw [Finmap.mem_keys, ← Finmap.lookup_isSome, ← h.lookup hc hm]
    simp only [Finset.mem_union, Finset.mem_sdiff, List.mem_toFinset, List.mem_filter,
      ← AList.mem_keys, ← hlive]
    by_cases hreplaced : k ∈ effectiveReplacements
    · have hkept := h.disjoint hc hreplaced
      obtain ⟨v, hv⟩ := Option.isSome_iff_exists.mp (AList.lookup_isSome.mpr hreplaced)
      cases hget : m.containsKey k <;> simp [hv, hreplaced, hkept]
    · rw [AList.lookup_eq_none.mpr hreplaced]
      by_cases hremoved : k ∈ effectiveRemovals <;> simp [hremoved, hreplaced, containsKey]
  have hdisjoint : Disjoint (f.keys \ effectiveRemovals.keys.toFinset)
      (effectiveReplacements.keys.filter fun key => !m.containsKey key).toFinset := by
    rw [Finset.disjoint_left]
    intro k hold hnew
    have hthere := (hlive k).mpr (Finset.mem_sdiff.mp hold).1
    simp [hthere] at hnew
  have hsubset : effectiveRemovals.keys.toFinset ⊆ f.keys := fun k hk =>
    (hlive k).mp ((h.removed k).mp (AList.mem_keys.mpr (List.mem_toFinset.mp hk))).2
  have hcard := Finset.card_le_card hsubset
  have hlength : effectiveRemovals.keys.length = effectiveRemovals.entries.length :=
    List.length_map _
  rw [hkeys, Finset.card_union_of_disjoint hdisjoint, Finset.card_sdiff_of_subset hsubset]
  rw [List.toFinset_card_of_nodup effectiveRemovals.keys_nodup] at hcard ⊢
  rw [List.toFinset_card_of_nodup (effectiveReplacements.keys_nodup.filter _)]
  omega

/-- What a call returns: the map itself, or an overlay on it that may be compacted at once. -/
theorem withChanges_eq (hc : c.Valid) :
    ∃ effectiveReplacements effectiveRemovals,
      Effective m c effectiveReplacements effectiveRemovals ∧
      m.withChanges c.replacements c.removals = .ok
        (if effectiveReplacements.entries = [] ∧ effectiveRemovals.entries = [] then m
        else if (m.updated effectiveReplacements effectiveRemovals).depth > MAX_DEPTH ∨
            sizeOf effectiveReplacements.entries.length + sizeOf effectiveRemovals.entries.length ≥
              max MIN_EAGER_COMPACTION_CHANGES (max 1 (m.size / 4)) then
          (m.updated effectiveReplacements effectiveRemovals).compact
        else m.updated effectiveReplacements effectiveRemovals) := by
  obtain ⟨effectiveReplacements, hreplaced, hlookup⟩ := foldlM_replace (m := m)
    c.replacements.nodupKeys hc.replaces fun key _ => AList.notMem_empty key
  obtain ⟨effectiveRemovals, hremoved, hmem⟩ := @foldlM_remove K V _ m _ ∅ hc.removes
  refine ⟨effectiveReplacements, effectiveRemovals,
    ⟨fun k => by rw [hlookup]; exact Option.or_none, fun k => by simp [hmem, AList.mem_keys]⟩, ?_⟩
  unfold ImmutableOverlayMap.withChanges
  simp only [hreplaced, hremoved]
  show (if effectiveReplacements.entries = [] ∧ effectiveRemovals.entries = [] then Except.ok m
    else Except.ok _) = _
  split <;> rfl

/-- The overlay that a call builds has the entries that the call demands. -/
theorem Effective.get_updated (h : Effective m c effectiveReplacements effectiveRemovals)
    (hc : c.Valid) (hm : m.Denotes f) (k : K) :
    (m.updated effectiveReplacements effectiveRemovals).get k = (c.apply f).lookup k := by
  rw [← h.lookup hc hm, updated, ImmutableOverlayMap.get]
  cases effectiveReplacements.lookup k <;> rfl

theorem Effective.nothing (h : Effective m c effectiveReplacements effectiveRemovals)
    (hc : c.Valid) (hm : m.Denotes f)
    (hnothing : effectiveReplacements.entries = [] ∧ effectiveRemovals.entries = []) :
    c.apply f = f := by
  have hreplacements : effectiveReplacements = ∅ := AList.ext hnothing.1
  have hremovals : effectiveRemovals = ∅ := AList.ext hnothing.2
  apply Finmap.ext_lookup
  intro k
  rw [← h.lookup hc hm, ← hm.get, hreplacements, hremovals]
  rfl

theorem Denotes.withChanges (h : m.Denotes f) (hc : c.Valid) :
    ∃ m', m.withChanges c.replacements c.removals = .ok m' ∧ m'.Denotes (c.apply f) := by
  obtain ⟨effectiveReplacements, effectiveRemovals, heffective, hok⟩ := withChanges_eq (m := m) hc
  refine ⟨_, hok, ?_⟩
  split
  · rename_i hnothing
    exact (heffective.nothing hc h hnothing).symm ▸ h
  split
  · exact denotes_compact (heffective.get_updated hc h)
  · rename_i hkept
    exact ⟨heffective.get_updated hc h, Nat.le_of_not_lt fun hdeep => hkept (.inl hdeep)⟩

/-- The size of an overlay is exact where an `int` counts the entries before and after the call. -/
theorem Effective.size_updated (h : Effective m c effectiveReplacements effectiveRemovals)
    (hc : c.Valid) (hm : m.Denotes f) (hsize : m.size = Int32.ofNat f.keys.card)
    (hbefore : Countable f) :
    (m.updated effectiveReplacements effectiveRemovals).size =
      Int32.ofNat (c.apply f).keys.card := by
  have hsubset : effectiveRemovals.keys.toFinset ⊆ f.keys := by
    intro k hk
    have hthere := ((h.removed k).mp (AList.mem_keys.mpr (List.mem_toFinset.mp hk))).2
    rw [containsKey, hm.get] at hthere
    exact Finmap.mem_keys.mpr (Finmap.lookup_isSome.mp hthere)
  have hremovals : effectiveRemovals.entries.length ≤ 2147483647 := by
    have hcard := (Finset.card_le_card hsubset).trans hbefore
    rwa [List.toFinset_card_of_nodup effectiveRemovals.keys_nodup, AList.keys, List.keys,
      List.length_map] at hcard
  have hcard := congrArg Int32.ofNat (h.card hc hm)
  rw [Int32.ofNat_add, Int32.ofNat_add] at hcard
  show _ - sizeOf effectiveRemovals.entries.length = _
  rw [foldl_grown, hsize, ← hcard, sizeOf_eq hremovals, Int32.add_sub_cancel]

/-- So is the size of every map that a call returns. -/
theorem Denotes.size_withChanges (h : m.Denotes f) (hc : c.Valid)
    (hsize : m.size = Int32.ofNat f.keys.card) (hbefore : Countable f)
    (hafter : Countable (c.apply f)) {m' : ImmutableOverlayMap K V}
    (hm' : m.withChanges c.replacements c.removals = .ok m') :
    m'.size = Int32.ofNat (c.apply f).keys.card := by
  obtain ⟨effectiveReplacements, effectiveRemovals, heffective, hok⟩ := withChanges_eq (m := m) hc
  obtain rfl := Except.ok.inj (hok.symm.trans hm')
  split
  · rename_i hnothing
    rw [heffective.nothing hc h hnothing, hsize]
  split
  · rw [size_compact (heffective.get_updated hc h), sizeOf_eq hafter]
  · exact heffective.size_updated hc h hsize hbefore

/-- What is not refused has no null and no key that is replaced and removed. -/
theorem valid_of_withChanges {m' : ImmutableOverlayMap K V}
    (h : m.withChanges c.replacements c.removals = .ok m') : c.Valid := by
  unfold ImmutableOverlayMap.withChanges at h
  simp only [Lib.bind_eq_ok] at h
  obtain ⟨_, hreplaced, _, hremoved, -⟩ := h
  exact ⟨replaces_of_foldlM hreplaced, removes_of_foldlM hremoved⟩

/-- A change of one entry is the update of a dictionary of an index. -/
theorem Denotes.put {values : JMap K V} (h : m.Denotes values.toFinmap) :
    ∃ m', m.withChanges (AList.singleton (some k) (some v)) ∅ = .ok m' ∧
      m'.Denotes (values.insert k v).toFinmap := by
  have hvalid : (⟨AList.singleton (some k) (some v), ∅⟩ : Changes K V).Valid :=
    ⟨List.forall_mem_singleton.mpr (AList.notMem_empty _), AList.notMem_empty _⟩
  obtain ⟨m', hok, hm'⟩ := h.withChanges hvalid
  exact ⟨m', hok, Finmap.insert_toFinmap k v values ▸ hm'⟩

/-- So is the removal of one entry. -/
theorem Denotes.drop {values : JMap K V} (h : m.Denotes values.toFinmap) :
    ∃ m', m.withChanges ∅ (AList.singleton (some k) ()) = .ok m' ∧
      m'.Denotes (values.erase k).toFinmap := by
  have hvalid : (⟨∅, AList.singleton (some k) ()⟩ : Changes K V).Valid :=
    ⟨List.forall_mem_nil _, by simp [AList.mem_keys]⟩
  obtain ⟨m', hok, hm'⟩ := h.withChanges hvalid
  exact ⟨m', hok, Finmap.erase_toFinmap k values ▸ hm'⟩

/-! ### Runs -/

/-- A call of `withChanges`, or a compaction at a point of its own. -/
inductive Step (K V : Type) where
  | changes (c : Changes K V)
  | compaction

/-- The map after a step; a call that is refused publishes nothing. -/
def step (m : ImmutableOverlayMap K V) : Step K V → ImmutableOverlayMap K V
  | .changes c =>
    match m.withChanges c.replacements c.removals with
    | .ok updated => updated
    | .error _ => m
  | .compaction => m.compact

def run (steps : List (Step K V)) : ImmutableOverlayMap K V := steps.foldl step empty

/-- The finite map after a step. -/
def Step.apply (f : Finmap fun _ : K => V) : Step K V → Finmap fun _ : K => V
  | .changes c => if c.Valid then c.apply f else f
  | .compaction => f

/-- The finite map of all changes, in order. -/
def denoted (steps : List (Step K V)) : Finmap fun _ : K => V := steps.foldl Step.apply ∅

theorem Denotes.step (h : m.Denotes f) (s : Step K V) : (m.step s).Denotes (s.apply f) := by
  cases s with
  | compaction => exact denotes_compact h.get
  | changes c =>
    unfold ImmutableOverlayMap.step Step.apply
    simp only
    by_cases hc : c.Valid
    · obtain ⟨m', hok, hm'⟩ := h.withChanges hc
      rw [if_pos hc, hok]
      exact hm'
    · rw [if_neg hc]
      cases hresult : m.withChanges c.replacements c.removals with
      | ok m' => exact absurd (valid_of_withChanges hresult) hc
      | error thrown => exact h

theorem Denotes.foldl (h : m.Denotes f) (steps : List (Step K V)) :
    (steps.foldl ImmutableOverlayMap.step m).Denotes (steps.foldl Step.apply f) := by
  induction steps generalizing m f with
  | nil => exact h
  | cons s steps ih => exact ih (h.step s)

/-- A step keeps an exact size. -/
theorem Denotes.size_step (h : m.Denotes f) (s : Step K V)
    (hsize : m.size = Int32.ofNat f.keys.card) (hbefore : Countable f)
    (hafter : Countable (s.apply f)) : (m.step s).size = Int32.ofNat (s.apply f).keys.card := by
  cases s with
  | compaction =>
    show m.compact.size = Int32.ofNat f.keys.card
    rw [size_compact h.get, sizeOf_eq hbefore]
  | changes c =>
    unfold ImmutableOverlayMap.step Step.apply at *
    simp only at hafter ⊢
    by_cases hc : c.Valid
    · rw [if_pos hc] at hafter ⊢
      obtain ⟨m', hok, -⟩ := h.withChanges hc
      rw [hok]
      exact h.size_withChanges hc hsize hbefore hafter hok
    · rw [if_neg hc]
      cases hresult : m.withChanges c.replacements c.removals with
      | ok m' => exact absurd (valid_of_withChanges hresult) hc
      | error thrown => exact hsize

/-- A run whose maps an `int` can count keeps an exact size. -/
theorem Denotes.size_foldl (h : m.Denotes f) (hsize : m.size = Int32.ofNat f.keys.card)
    (steps : List (Step K V))
    (hcountable : ∀ before, before <+: steps → Countable (before.foldl Step.apply f)) :
    (steps.foldl ImmutableOverlayMap.step m).size =
      Int32.ofNat (steps.foldl Step.apply f).keys.card := by
  induction steps generalizing m f with
  | nil => exact hsize
  | cons s steps ih =>
    have hbefore := hcountable [] List.nil_prefix
    have hafter := hcountable [s] ⟨steps, rfl⟩
    refine ih (h.step s) (h.size_step s hsize hbefore hafter) fun before hprefix => ?_
    exact hcountable (s :: before) (List.cons_prefix_cons.mpr ⟨rfl, hprefix⟩)

/-- A map reached by any calls, with compactions at any points between them, is the finite map of
the changes: so are its lookups, its compaction, and the walk over its layers, which meets every
live key once.  Its size is exact in a run whose maps all have as many entries as an `int` counts. -/
theorem run_denotes (steps : List (Step K V)) :
    (∀ k, (run steps).get k = (denoted steps).lookup k) ∧
      ((∀ before, before <+: steps → (denoted before).keys.card ≤ 2147483647) →
        (run steps).size.toInt = (denoted steps).keys.card ∧
        (run steps).compact.size = (run steps).size) ∧
      (run steps).depth ≤ MAX_DEPTH ∧
      (run steps).flattened.keys.Nodup ∧
      (∀ k v, ⟨k, v⟩ ∈ (run steps).flattened.entries ↔ (denoted steps).lookup k = some v) ∧
      (∀ k, (run steps).compact.get k = (run steps).get k) := by
  have h : (run steps).Denotes (denoted steps) := denotes_empty.foldl steps
  refine ⟨h.get, fun hcountable => ?_, h.depth, AList.keys_nodup _, fun k v => ?_,
    fun k => get_compact⟩
  · have hsize : (run steps).size = Int32.ofNat (denoted steps).keys.card :=
      denotes_empty.size_foldl rfl steps hcountable
    have hcount := hcountable steps List.prefix_rfl
    rw [size_compact h.get, sizeOf_eq hcount, hsize]
    exact ⟨Int32.toInt_ofNat_of_lt (by omega), rfl⟩
  · rw [← AList.mem_lookup_iff, lookup_flattened, h.get]
    exact Option.mem_def

end

/-! ### More entries than an `int` counts -/

/-- As many new keys in one call. -/
def fill (n : ℕ) : Changes ℕ Unit where
  replacements := ⟨(List.range n).map fun k => ⟨some k, some ()⟩, by
    rw [List.NodupKeys, List.keys, List.map_map]
    exact List.nodup_range.map fun _ _ h => Option.some.inj h⟩
  removals := ∅

/-- The removal of one key. -/
def dropped (key : ℕ) : Changes ℕ Unit := ⟨∅, AList.singleton (some key) ()⟩

theorem valid_fill (n : ℕ) : (fill n).Valid where
  replaces entry hentry := by
    obtain ⟨k, -, rfl⟩ := List.mem_map.mp hentry
    exact AList.notMem_empty _
  removes := AList.notMem_empty _

theorem valid_dropped (key : ℕ) : (dropped key).Valid where
  replaces := List.forall_mem_nil _
  removes := by simp [dropped, AList.mem_keys]

theorem value_fill (n k : ℕ) : (fill n).value k = if k < n then some () else none := by
  have hlookup : (fill n).replacements.lookup (some k) =
      if k < n then some (some ()) else none := by
    by_cases hk : k < n
    · rw [if_pos hk]
      exact AList.mem_lookup_iff.mpr (List.mem_map.mpr ⟨k, List.mem_range.mpr hk, rfl⟩)
    · rw [if_neg hk, AList.lookup_eq_none, AList.mem_keys]
      simp [fill, AList.keys, List.keys, hk]
  rw [Changes.value, hlookup]
  split <;> rfl

theorem keys_fill (n : ℕ) : ((fill n).apply ∅).keys = Finset.range n := by
  ext k
  rw [Finmap.mem_keys, ← Finmap.lookup_isSome, lookup_apply, value_fill, Finset.mem_range]
  by_cases hk : k < n <;> simp [hk, fill]

theorem keys_dropped (key : ℕ) (f : Finmap fun _ : ℕ => Unit) :
    ((dropped key).apply f).keys = f.keys.erase key := by
  ext k
  rw [Finmap.mem_keys, ← Finmap.lookup_isSome, lookup_apply, Finset.mem_erase, Finmap.mem_keys,
    ← Finmap.lookup_isSome]
  have hmem : some k ∈ (dropped key).removals ↔ k = key := by
    simp [dropped, AList.mem_keys]
  have hvalue : (dropped key).value k = none := rfl
  rw [hvalue, Option.none_or]
  simp only [hmem]
  by_cases hk : k = key <;> simp [hk]

theorem le_threshold (x : Int32) :
    MIN_EAGER_COMPACTION_CHANGES ≤ max MIN_EAGER_COMPACTION_CHANGES x := by
  show _ ≤ if MIN_EAGER_COMPACTION_CHANGES ≤ x then x else MIN_EAGER_COMPACTION_CHANGES
  split
  · assumption
  · exact Int32.le_refl _

/-- Many new keys are compacted at once, and the root reports as many as an `int` counts. -/
theorem withChanges_fill {n : ℕ} (h : 64 ≤ n) :
    ∃ m', (empty : ImmutableOverlayMap ℕ Unit).withChanges (fill n).replacements (fill n).removals =
      .ok m' ∧ m'.Denotes ((fill n).apply ∅) ∧ m'.depth = 0 ∧ m'.size = sizeOf n := by
  obtain ⟨effectiveReplacements, effectiveRemovals, heffective, hok⟩ :=
    withChanges_eq (m := empty) (valid_fill n)
  have hnone : effectiveRemovals.entries.length = 0 := by
    have hempty : effectiveRemovals.keys = [] := List.eq_nil_iff_forall_not_mem.mpr fun k hk =>
      AList.notMem_empty _ ((heffective.removed k).mp (AList.mem_keys.mpr hk)).1
    rw [← List.length_map (f := Sigma.fst)]
    exact congrArg List.length hempty
  have hcard := heffective.card (valid_fill n) denotes_empty
  have hall : (effectiveReplacements.keys.filter fun key =>
      !(empty : ImmutableOverlayMap ℕ Unit).containsKey key) = effectiveReplacements.keys :=
    List.filter_eq_self.mpr fun _ _ => rfl
  rw [keys_fill, Finset.card_range, hnone, hall] at hcard
  have hlength : effectiveReplacements.entries.length = n := by
    rw [← List.length_map (f := Sigma.fst)]
    exact (hcard.trans (Nat.zero_add _)).symm
  have hthreshold : max MIN_EAGER_COMPACTION_CHANGES
      (max 1 ((empty : ImmutableOverlayMap ℕ Unit).size / 4)) = 64 := by decide
  have hmany : sizeOf n + sizeOf 0 ≥ 64 := by
    have hzero : sizeOf 0 = 0 := rfl
    rw [hzero, Int32.add_zero]
    show 64 ≤ sizeOf n
    rw [Int32.le_iff_toInt_le, toInt_sizeOf]
    have h64 : (64 : Int32).toInt = 64 := rfl
    omega
  rw [if_neg (fun hnothing => by rw [List.length_eq_zero_iff.mpr hnothing.1] at hlength; omega),
    hlength, hnone, hthreshold, if_pos (.inr hmany)] at hok
  refine ⟨_, hok, denotes_compact (heffective.get_updated (valid_fill n) denotes_empty), rfl, ?_⟩
  rw [size_compact (heffective.get_updated (valid_fill n) denotes_empty), keys_fill,
    Finset.card_range]

/-- The removal of a key from a root takes one from its size. -/
theorem size_withChanges_dropped {m m' : ImmutableOverlayMap ℕ Unit} {f : Finmap fun _ : ℕ => Unit}
    (h : m.Denotes f) (hdepth : m.depth = 0) {key : ℕ} (hkey : key ∈ f.keys)
    (hok : m.withChanges (dropped key).replacements (dropped key).removals = .ok m') :
    m'.size = m.size - 1 := by
  obtain ⟨effectiveReplacements, effectiveRemovals, heffective, hok'⟩ :=
    withChanges_eq (m := m) (valid_dropped key)
  obtain rfl := Except.ok.inj (hok'.symm.trans hok)
  have hnone : effectiveReplacements = ∅ := by
    refine AList.ext (List.eq_nil_iff_forall_not_mem.mpr fun entry hentry => ?_)
    have hlookup := AList.mem_lookup_iff.mpr hentry
    rw [heffective.replaced] at hlookup
    cases hlookup
  have hone : effectiveRemovals.entries.length = 1 := by
    have hkeys : effectiveRemovals.keys.toFinset = {key} := by
      ext k
      rw [List.mem_toFinset, ← AList.mem_keys, heffective.removed, Finset.mem_singleton]
      have hmem : some k ∈ (dropped key).removals ↔ k = key := by
        simp [dropped, AList.mem_keys]
      rw [hmem, and_iff_left_iff_imp]
      rintro rfl
      rw [containsKey, h.get]
      exact Finmap.lookup_isSome.mpr (Finmap.mem_keys.mp hkey)
    rw [← List.length_map (f := Sigma.fst)]
    show effectiveRemovals.keys.length = 1
    rw [← List.toFinset_card_of_nodup effectiveRemovals.keys_nodup, hkeys, Finset.card_singleton]
  have hfew : ¬sizeOf 0 + sizeOf 1 ≥
      max MIN_EAGER_COMPACTION_CHANGES (max 1 (m.size / 4)) := by
    intro hge
    exact absurd (Int32.le_trans (le_threshold _) hge) (by decide)
  rw [if_neg (fun hnothing => by rw [List.length_eq_zero_iff.mpr hnothing.2] at hone; omega)]
  subst hnone
  rw [if_neg]
  · show m.size - sizeOf effectiveRemovals.entries.length = _
    rw [hone]
    rfl
  · rw [hone]
    rintro (hdeep | hmany)
    · exact absurd hdeep (by simp [updated, depth, hdepth, MAX_DEPTH])
    · exact hfew hmany

/-- The sizes of a map that is filled and then loses an entry. -/
theorem size_fill {n : ℕ} (h : 64 ≤ n) :
    (run [.changes (fill n)]).size = sizeOf n ∧
      (denoted [.changes (fill n)]).keys.card = n ∧
      (run [.changes (fill n), .changes (dropped 0)]).size = sizeOf n - 1 ∧
      (denoted [.changes (fill n), .changes (dropped 0)]).keys.card = n - 1 := by
  obtain ⟨m, hfilled, hdenotes, hdepth, hsize⟩ := withChanges_fill h
  have hrun : run [.changes (fill n)] = m := by
    simp only [run, List.foldl_cons, List.foldl_nil, step, hfilled]
  have hfirst : denoted [.changes (fill n)] = (fill n).apply ∅ := by
    rw [denoted, List.foldl_cons, List.foldl_nil, Step.apply, if_pos (valid_fill n)]
  have hmem : 0 ∈ ((fill n).apply ∅).keys := by
    rw [keys_fill, Finset.mem_range]
    omega
  obtain ⟨m', hdropped, -⟩ := hdenotes.withChanges (valid_dropped 0)
  have hrun' : run [.changes (fill n), .changes (dropped 0)] = m' := by
    simp only [run, List.foldl_cons, List.foldl_nil, step, hfilled, hdropped]
  have hsecond : denoted [.changes (fill n), .changes (dropped 0)] =
      (dropped 0).apply ((fill n).apply ∅) := by
    rw [denoted, List.foldl_cons, List.foldl_cons, List.foldl_nil, Step.apply,
      if_pos (valid_dropped 0), Step.apply, if_pos (valid_fill n)]
  rw [hrun, hrun', hfirst, hsecond, keys_dropped, Finset.card_erase_of_mem hmem, keys_fill,
    Finset.card_range, size_withChanges_dropped hdenotes hdepth hmem hdropped, hsize]
  exact ⟨rfl, rfl, rfl, rfl⟩

/-- A map of 2^31 entries has no exact size, and one that is left when an entry is removed from it
has none either, although an `int` counts its entries. -/
theorem run_miscounts :
    (run [.changes (fill (2 ^ 31))]).size.toInt ≠
        ((denoted [.changes (fill (2 ^ 31))]).keys.card : ℤ) ∧
      (denoted [.changes (fill (2 ^ 31)), .changes (dropped 0)]).keys.card = 2147483647 ∧
      (run [.changes (fill (2 ^ 31)), .changes (dropped 0)]).size.toInt = 2147483646 := by
  have hfull : sizeOf (2 ^ 31) = 2147483647 := by
    rw [← Int32.toInt_inj, toInt_sizeOf]
    decide
  obtain ⟨hsize, hcard, hsize', hcard'⟩ := @size_fill (2 ^ 31) (by omega)
  rw [hsize, hcard, hsize', hcard', hfull]
  exact ⟨by decide, by omega, by decide⟩

end ImmutableOverlayMap

end GeneralSearch.Index
