import GeneralSearch.Index.AvlDictionary
import GeneralSearch.Index.OverlayMap

/-! The builders of the equality, the range and the prefix index.  Each buffers the bitmaps that it
changes by value and writes them through to the dictionary of its snapshot when it is built; they
differ in the dictionary, and in when two values are one key of the buffer.  Whatever the builders
went through, the snapshot is decided by the values of the documents (`Maintained.shows`). -/

namespace GeneralSearch.Index

open GeneralSearch.Lib

/-- A dictionary from values to the bitmaps of their documents: when two values are one key of the
buffer, and the loop of `build` that writes the buffered bitmaps through. -/
structure BitmapDictionary (K : Type) where
  Values : Type
  Error : Type
  empty : Values
  get : Values → K → Option (Finset ℕ)
  same : K → K → Bool
  withBitmaps : Values → List (K × Finset ℕ) → Except Error Values

variable {K : Type}

/-- An index snapshot over one field: the dictionary and the first of its statistics. -/
structure ValueIndexSnapshot (map : BitmapDictionary K) where
  values : map.Values
  indexedDocumentCount : ℕ

/-- The builder of such an index, before `build`. -/
structure ValueIndexBuilder (map : BitmapDictionary K) where
  base : ValueIndexSnapshot map
  dirty : List (K × Finset ℕ)
  indexedDocumentCount : ℕ

namespace ValueIndexSnapshot

variable {map : BitmapDictionary K}

def empty (map : BitmapDictionary K) : ValueIndexSnapshot map := ⟨map.empty, 0⟩

/-- `get`, the empty bitmap for a value without an entry. -/
def get (s : ValueIndexSnapshot map) (value : K) : Finset ℕ := (map.get s.values value).getD ∅

def toBuilder (s : ValueIndexSnapshot map) : ValueIndexBuilder map := ⟨s, [], s.indexedDocumentCount⟩

end ValueIndexSnapshot

namespace ValueIndexBuilder

variable {map : BitmapDictionary K}

/-- The bitmap that `builderFor` gives. -/
def builderFor (b : ValueIndexBuilder map) (value : K) : Finset ℕ :=
  (find map.same value b.dirty).getD (b.base.get value)

/-- The builder with a bitmap in the buffer. -/
def put (b : ValueIndexBuilder map) (value : K) (bitmap : Finset ℕ) : ValueIndexBuilder map :=
  { b with dirty := storeEntry map.same value bitmap b.dirty }

/-- `addValue`; `builderFor` buffers the bitmap even when it stays as it is. -/
def addValue (b : ValueIndexBuilder map) (value : Option K) (docId : ℕ) : ValueIndexBuilder map :=
  match value with
  | none => b
  | some v =>
    if docId ∈ b.builderFor v then b.put v (b.builderFor v)
    else { b.put v (insert docId (b.builderFor v)) with
      indexedDocumentCount := b.indexedDocumentCount + 1 }

/-- `removeValue`. -/
def removeValue (b : ValueIndexBuilder map) (value : Option K) (docId : ℕ) :
    ValueIndexBuilder map :=
  match value with
  | none => b
  | some v =>
    if docId ∈ b.builderFor v then
      { b.put v ((b.builderFor v).erase docId) with
        indexedDocumentCount := b.indexedDocumentCount - 1 }
    else b.put v (b.builderFor v)

/-- `update`: values that are equal change nothing. -/
def updateValue [DecidableEq K] (b : ValueIndexBuilder map) (oldValue newValue : Option K)
    (docId : ℕ) : ValueIndexBuilder map :=
  if oldValue = newValue then b else (b.removeValue oldValue docId).addValue newValue docId

/-- `build`, with the buffer in the order of its iteration. -/
def build (b : ValueIndexBuilder map) (order : List (K × Finset ℕ)) :
    Except map.Error (ValueIndexSnapshot map) :=
  if b.dirty.isEmpty then .ok b.base
  else do
    let values ← map.withBitmaps b.base.values order
    return ⟨values, b.indexedDocumentCount⟩

end ValueIndexBuilder

/-! ### What a dictionary promises -/

/-- What a buffered bitmap leaves under its value: an empty one nothing. -/
abbrev replaced (found present : Option (Finset ℕ)) : Option (Finset ℕ) :=
  AvlChange.buffered (fun bitmap => decide (bitmap = ∅)) found present

/-- The dictionary is a finite map, and buffered bitmaps change it at their own values. -/
structure BitmapDictionary.Lawful (map : BitmapDictionary K) where
  Holds : map.Values → (K → Option (Finset ℕ)) → Prop
  same : Equivalence fun a b => map.same a b = true
  holds_empty : Holds map.empty fun _ => none
  get : ∀ {values bitmaps}, Holds values bitmaps → ∀ key, map.get values key = bitmaps key
  withBitmaps : ∀ {values bitmaps order values'}, Holds values bitmaps → Distinct map.same order →
    map.withBitmaps values order = .ok values' →
    Holds values' fun key => replaced (find map.same key order) (bitmaps key)

/-- The bitmaps by value list each document under its value, and no bitmap is empty. -/
structure Lists (same : K → K → Bool) (value : ℕ → Option K) (bitmaps : K → Option (Finset ℕ)) :
    Prop where
  mem : ∀ key d, d ∈ (bitmaps key).getD ∅ ↔ ∃ v, value d = some v ∧ same v key = true
  nonempty : ∀ key, bitmaps key ≠ some ∅

/-- The values decide the bitmaps. -/
theorem Lists.unique {same : K → K → Bool} {value : ℕ → Option K}
    {bitmaps bitmaps' : K → Option (Finset ℕ)} (h : Lists same value bitmaps)
    (h' : Lists same value bitmaps') : bitmaps = bitmaps' := by
  funext key
  have hsame : (bitmaps key).getD ∅ = (bitmaps' key).getD ∅ := by
    ext d
    rw [h.mem, h'.mem]
  have hne := h.nonempty key
  have hne' := h'.nonempty key
  cases hb : bitmaps key <;> cases hb' : bitmaps' key <;> rw [hb, hb'] at hsame
  · exact absurd (hb'.trans (congrArg some hsame.symm)) hne'
  · exact absurd (hb.trans (congrArg some hsame)) hne
  · exact congrArg some hsame

/-- The number of documents with a value. -/
def Counts (value : ℕ → Option K) (count : ℕ) : Prop :=
  ∃ indexed : Finset ℕ, (∀ d, d ∈ indexed ↔ (value d).isSome = true) ∧ count = indexed.card

theorem Counts.unique {value : ℕ → Option K} {count count' : ℕ} (h : Counts value count)
    (h' : Counts value count') : count = count' := by
  obtain ⟨indexed, hindexed, rfl⟩ := h
  obtain ⟨indexed', hindexed', rfl⟩ := h'
  have hsame : indexed = indexed' := by
    ext d
    rw [hindexed, hindexed']
  rw [hsame]

theorem Counts.insert {value : ℕ → Option K} {count d : ℕ} (h : Counts value count)
    (hd : value d = none) (v : K) : Counts (Function.update value d (some v)) (count + 1) := by
  obtain ⟨indexed, hindexed, rfl⟩ := h
  have hfresh : d ∉ indexed := by simp [hindexed, hd]
  refine ⟨Insert.insert d indexed, fun e => ?_, (Finset.card_insert_of_notMem hfresh).symm⟩
  rw [Finset.mem_insert, hindexed, Function.update_apply]
  by_cases he : e = d <;> simp [he]

theorem Counts.erase {value : ℕ → Option K} {count d : ℕ} (h : Counts value count)
    (hd : (value d).isSome = true) : Counts (Function.update value d none) (count - 1) := by
  obtain ⟨indexed, hindexed, rfl⟩ := h
  refine ⟨indexed.erase d, fun e => ?_, (Finset.card_erase_of_mem ((hindexed d).mpr hd)).symm⟩
  rw [Finset.mem_erase, hindexed, Function.update_apply]
  by_cases he : e = d <;> simp [he]

variable {map : BitmapDictionary K} (laws : map.Lawful)

/-- The snapshot shows the documents with the given values. -/
structure ValueIndexSnapshot.Shows (s : ValueIndexSnapshot map) (value : ℕ → Option K) : Prop where
  bitmaps : ∃ bitmaps, laws.Holds s.values bitmaps ∧ Lists map.same value bitmaps
  count : Counts value s.indexedDocumentCount

/-- The builder has taken up the documents with the given values. -/
structure ValueIndexBuilder.Tracks (b : ValueIndexBuilder map) (value : ℕ → Option K) : Prop where
  base : ∃ bitmaps, laws.Holds b.base.values bitmaps ∧ ∀ key, bitmaps key ≠ some ∅
  distinct : Distinct map.same b.dirty
  mem : ∀ key d, d ∈ b.builderFor key ↔ ∃ v, value d = some v ∧ map.same v key = true
  count : Counts value b.indexedDocumentCount
  clean : b.dirty = [] → b.indexedDocumentCount = b.base.indexedDocumentCount

variable {laws} {s : ValueIndexSnapshot map} {b : ValueIndexBuilder map} {value : ℕ → Option K}
  {d : ℕ}

theorem ValueIndexSnapshot.shows_empty : (ValueIndexSnapshot.empty map).Shows laws fun _ => none where
  bitmaps := ⟨_, laws.holds_empty, by simp, by simp⟩
  count := ⟨∅, by simp, rfl⟩

theorem ValueIndexSnapshot.Shows.toBuilder (h : s.Shows laws value) :
    s.toBuilder.Tracks laws value := by
  obtain ⟨bitmaps, hholds, hlists⟩ := h.bitmaps
  refine ⟨⟨bitmaps, hholds, hlists.nonempty⟩, .nil, fun key d => ?_, h.count, fun _ => rfl⟩
  rw [← hlists.mem, ← laws.get hholds]
  rfl

namespace ValueIndexBuilder

/-- The buffer is read at the value that was put. -/
theorem builderFor_put (laws : map.Lawful) (key other : K) (bitmap : Finset ℕ) :
    (b.put key bitmap).builderFor other =
      if map.same other key then bitmap else b.builderFor other := by
  unfold builderFor put
  rw [find_storeEntry laws.same]
  split <;> rfl

theorem put_dirty_ne_nil {key : K} {bitmap : Finset ℕ} : (b.put key bitmap).dirty ≠ [] := by
  unfold put
  cases b.dirty with
  | nil => exact List.cons_ne_nil _ _
  | cons entry entries =>
    rw [storeEntry]
    split <;> exact List.cons_ne_nil _ _

/-- Calls between two builds leave the base as it is. -/
@[simp] theorem addValue_base (v : Option K) : (b.addValue v d).base = b.base := by
  unfold addValue
  split
  · rfl
  · split <;> rfl

@[simp] theorem removeValue_base (v : Option K) : (b.removeValue v d).base = b.base := by
  unfold removeValue
  split
  · rfl
  · split <;> rfl

@[simp] theorem updateValue_base [DecidableEq K] (v v' : Option K) :
    (b.updateValue v v' d).base = b.base := by
  unfold updateValue
  split <;> simp

/-- A bitmap is put that lists what the documents have under the value by now. -/
theorem Tracks.put {value' : ℕ → Option K} {key : K} {bitmap : Finset ℕ} {count : ℕ}
    (h : b.Tracks laws value)
    (hmem : ∀ d, d ∈ bitmap ↔ ∃ v, value' d = some v ∧ map.same v key = true)
    (hother : ∀ other d, map.same other key = false →
      ((∃ v, value' d = some v ∧ map.same v other = true) ↔
        ∃ v, value d = some v ∧ map.same v other = true))
    (hcount : Counts value' count) :
    Tracks laws { b.put key bitmap with indexedDocumentCount := count } value' := by
  refine ⟨h.base, h.distinct.storeEntry laws.same, fun other d => ?_, hcount,
    fun hnil => absurd hnil put_dirty_ne_nil⟩
  have hread := builderFor_put (b := b) laws key other bitmap
  rw [show ({ b.put key bitmap with indexedDocumentCount := count } : ValueIndexBuilder map).builderFor
    other = (b.put key bitmap).builderFor other from rfl, hread]
  by_cases hkey : map.same other key = true
  · rw [if_pos hkey, hmem]
    refine exists_congr fun v => and_congr_right fun _ => ?_
    have hswap : map.same v other = map.same other v := same_comm laws.same
    rw [hswap, same_congr laws.same hkey, same_comm laws.same]
  · rw [if_neg hkey, h.mem, hother other d (Bool.eq_false_iff.mpr hkey)]

/-- Under another value the documents stay as they are. -/
theorem update_other {key : K} {new : Option K}
    (hold : ∀ w, value d = some w → map.same w key = false)
    (hnew : ∀ w, new = some w → map.same w key = false) (e : ℕ) :
    (∃ w, Function.update value d new e = some w ∧ map.same w key = true) ↔
      ∃ w, value e = some w ∧ map.same w key = true := by
  by_cases he : e = d
  · subst he
    rw [Function.update_self]
    refine iff_of_false ?_ ?_
    · rintro ⟨w, hw, hsame⟩
      rw [hnew w hw] at hsame
      cases hsame
    · rintro ⟨w, hw, hsame⟩
      rw [hold w hw] at hsame
      cases hsame
  · rw [Function.update_of_ne he]

theorem Tracks.addValue (h : b.Tracks laws value) (hd : value d = none) (new : Option K) :
    (b.addValue new d).Tracks laws (Function.update value d new) := by
  cases new with
  | none =>
    rw [← hd, Function.update_eq_self, hd]
    exact h
  | some v =>
    have hfresh : d ∉ b.builderFor v := by
      rw [h.mem, hd]
      rintro ⟨w, hw, -⟩
      cases hw
    rw [ValueIndexBuilder.addValue, if_neg hfresh]
    refine h.put (fun e => ?_) (fun other e hother => ?_) (h.count.insert hd v)
    · rw [Finset.mem_insert, h.mem]
      by_cases he : e = d
      · subst he
        rw [Function.update_self]
        exact iff_of_true (.inl rfl) ⟨v, rfl, laws.same.refl v⟩
      · rw [Function.update_of_ne he, or_iff_right he]
    · refine update_other (fun w hw => ?_) (fun w hw => ?_) e
      · rw [hd] at hw
        cases hw
      · cases hw
        rwa [same_comm laws.same]

theorem Tracks.removeValue (h : b.Tracks laws value) :
    (b.removeValue (value d) d).Tracks laws (Function.update value d none) := by
  cases hv : value d with
  | none =>
    rw [← hv, Function.update_eq_self, hv]
    exact h
  | some v =>
    have hlisted : d ∈ b.builderFor v := (h.mem v d).mpr ⟨v, hv, laws.same.refl v⟩
    rw [ValueIndexBuilder.removeValue, if_pos hlisted]
    refine h.put (fun e => ?_) (fun other e hother => ?_) (h.count.erase (by rw [hv]; rfl))
    · rw [Finset.mem_erase, h.mem]
      by_cases he : e = d
      · subst he
        rw [Function.update_self]
        refine iff_of_false (fun hne => hne.1 rfl) ?_
        rintro ⟨w, hw, -⟩
        cases hw
      · rw [Function.update_of_ne he, and_iff_right he]
    · refine update_other (fun w hw => ?_) (fun w hw => ?_) e
      · rw [hv] at hw
        cases hw
        rwa [same_comm laws.same]
      · cases hw

theorem Tracks.updateValue [DecidableEq K] (h : b.Tracks laws value) (new : Option K) :
    (b.updateValue (value d) new d).Tracks laws (Function.update value d new) := by
  unfold ValueIndexBuilder.updateValue
  split
  · next hsame =>
    rw [← hsame, Function.update_eq_self]
    exact h
  · have hremoved := (h.removeValue (d := d)).addValue (Function.update_self ..) new
    rwa [Function.update_idem] at hremoved

/-- A build shows what the builder has taken up. -/
theorem Tracks.build (h : b.Tracks laws value) {order : List (K × Finset ℕ)}
    (horder : order.Perm b.dirty) (hbuild : b.build order = .ok s) : s.Shows laws value := by
  obtain ⟨bitmaps, hholds, hnonempty⟩ := h.base
  unfold ValueIndexBuilder.build at hbuild
  split at hbuild
  · next hclean =>
    rw [List.isEmpty_iff] at hclean
    cases hbuild
    refine ⟨⟨bitmaps, hholds, fun key d => ?_, hnonempty⟩, h.clean hclean ▸ h.count⟩
    rw [← h.mem, builderFor, hclean, ← laws.get hholds]
    rfl
  · obtain ⟨values, hvalues, hresult⟩ := bind_eq_ok.mp hbuild
    cases hresult
    have hdistinct : Distinct map.same order :=
      (horder.pairwise_iff fun hne => (same_comm laws.same).trans hne).mpr h.distinct
    refine ⟨⟨_, laws.withBitmaps hholds hdistinct hvalues, fun key d => ?_, fun key => ?_⟩, h.count⟩
    · rw [← h.mem, builderFor, h.distinct.find_perm laws.same horder]
      unfold replaced AvlChange.buffered
      cases find map.same key b.dirty with
      | none => rw [Option.getD_none, ValueIndexSnapshot.get, laws.get hholds]
      | some bitmap =>
        by_cases hempty : bitmap = ∅ <;> simp [hempty]
    · unfold replaced AvlChange.buffered
      cases find map.same key order with
      | none => exact hnonempty key
      | some bitmap => by_cases hempty : bitmap = ∅ <;> simp [hempty]

end ValueIndexBuilder

/-! ### Maintenance -/

section

variable {T : Type} [DecidableEq K] (map) (valueOf : T → Option K)

open ValueIndexSnapshot in
/-- The builders that calls consistent with the documents lead to: a document is added under an id
without one, removed and updated under its own id, and a build at any point goes on from its
snapshot.  The ids are of the type `int`, and `Integer.MAX_VALUE` is none of them. -/
inductive Maintained : ValueIndexBuilder map → (ℕ → Option T) → Prop
  | empty : Maintained (empty map).toBuilder fun _ => none
  | add {b docs d} (t : T) : Maintained b docs → docs d = none → d < 2147483647 →
      Maintained (b.addValue (valueOf t) d) (Function.update docs d (some t))
  | remove {b docs d t} : Maintained b docs → docs d = some t →
      Maintained (b.removeValue (valueOf t) d) (Function.update docs d none)
  | update {b docs d t} (t' : T) : Maintained b docs → docs d = some t →
      Maintained (b.updateValue (valueOf t) (valueOf t') d) (Function.update docs d (some t'))
  | build {b docs order s} : Maintained b docs → order.Perm b.dirty → b.build order = .ok s →
      Maintained s.toBuilder docs

variable {map valueOf} {docs : ℕ → Option T} {order : List (K × Finset ℕ)}

theorem Maintained.tracks (laws : map.Lawful) (h : Maintained map valueOf b docs) :
    b.Tracks laws fun d => docs d >>= valueOf := by
  induction h with
  | empty => exact ValueIndexSnapshot.shows_empty.toBuilder
  | add t _ hd _ ih =>
    rw [update_bind]
    exact ih.addValue (by rw [hd]; rfl) (valueOf t)
  | @remove b docs d t _ hd ih =>
    have hremoved := ih.removeValue (d := d)
    rw [update_bind]
    simp only [hd] at hremoved
    exact hremoved
  | @update b docs d t t' _ hd ih =>
    have hupdated := ih.updateValue (d := d) (valueOf t')
    rw [update_bind]
    simp only [hd] at hupdated
    exact hupdated
  | build _ horder hbuild ih => exact (ih.build horder hbuild).toBuilder

/-- However it was maintained, the snapshot shows the values of the documents. -/
theorem Maintained.shows (laws : map.Lawful) (h : Maintained map valueOf b docs)
    (horder : order.Perm b.dirty) (hbuild : b.build order = .ok s) :
    s.Shows laws fun d => docs d >>= valueOf :=
  (h.tracks laws).build horder hbuild

/-- Only a document id has a document. -/
theorem Maintained.ids (h : Maintained map valueOf b docs) {d : ℕ} (hd : 2147483647 ≤ d) :
    docs d = none := by
  induction h with
  | empty => rfl
  | add t _ _ hid ih =>
    rw [Function.update_of_ne (by omega)]
    exact ih
  | remove _ _ ih =>
    rw [Function.update_apply]
    split
    · rfl
    · exact ih
  | update t' _ hsome ih =>
    rw [Function.update_of_ne]
    · exact ih
    · rintro rfl
      rw [ih] at hsome
      cases hsome
  | build _ _ _ ih => exact ih

end

/-! ### The dictionary of the equality index -/

section

variable {V W : Type} [DecidableEq V]

/-- What the loop of `EqualityIndexBuilder.build` gathers from the buffer. -/
def gathered (choose : Finset ℕ → Option W) (order : List (V × Finset ℕ))
    (collected : JMap (Option V) W) : JMap (Option V) W :=
  order.foldl (fun collected entry => match choose entry.2 with
    | some w => collected.insert (some entry.1) w
    | none => collected) collected

/-- The bitmaps that are not empty are replacements. -/
def replacements (order : List (V × Finset ℕ)) : JMap (Option V) (Option (Finset ℕ)) :=
  gathered (fun bitmap => if bitmap = ∅ then none else some (some bitmap)) order ∅

/-- The empty ones are removals. -/
def removals (order : List (V × Finset ℕ)) : JSet (Option V) :=
  gathered (fun bitmap => if bitmap = ∅ then some () else none) order ∅

/-- `EqualityIndexSnapshot.values`; its buffer is a `HashMap`. -/
def equalityValues (V : Type) [DecidableEq V] : BitmapDictionary V where
  Values := ImmutableOverlayMap V (Finset ℕ)
  Error := ImmutableOverlayMap.Thrown
  empty := .empty
  get values := values.get
  same a b := decide (a = b)
  withBitmaps values order := values.withChanges (replacements order) (removals order)

theorem lookup_gathered_none {choose : Finset ℕ → Option W} {order : List (V × Finset ℕ)}
    {collected : JMap (Option V) W} :
    (gathered choose order collected).lookup none = collected.lookup none := by
  induction order generalizing collected with
  | nil => rfl
  | cons entry order ih =>
    rw [gathered, List.foldl_cons, ← gathered, ih]
    split
    · exact AList.lookup_insert_ne (by simp)
    · rfl

theorem lookup_gathered {choose : Finset ℕ → Option W} {order : List (V × Finset ℕ)}
    (h : Distinct (fun a b => decide (a = b)) order) {collected : JMap (Option V) W} {key : V} :
    (gathered choose order collected).lookup (some key) =
      ((find (fun a b => decide (a = b)) key order).bind choose).or
        (collected.lookup (some key)) := by
  induction order generalizing collected with
  | nil => rfl
  | cons entry order ih =>
    obtain ⟨hhead, htail⟩ := List.pairwise_cons.mp h
    rw [gathered, List.foldl_cons, ← gathered, ih htail, find]
    by_cases hkey : key = entry.1
    · subst hkey
      have hnone : find (fun a b => decide (a = b)) entry.1 order = none :=
        find_eq_none ⟨by simp, by simp +contextual [eq_comm], by simp +contextual⟩ hhead (by simp)
      rw [hnone, if_pos (by simp)]
      cases hchoose : choose entry.2 <;> simp [hchoose]
    · rw [if_neg (by simpa using hkey)]
      cases choose entry.2 <;> simp [AList.lookup_insert_ne, hkey]

variable {order : List (V × Finset ℕ)}

/-- The maps of a build are not refused. -/
theorem valid_gathered (h : Distinct (fun a b => decide (a = b)) order) :
    (⟨replacements order, removals order⟩ : ImmutableOverlayMap.Changes V (Finset ℕ)).Valid := by
  refine ⟨fun ⟨key, bitmap⟩ hentry => ?_, fun hnull => ?_⟩
  · have hlookup : (replacements order).lookup key = some bitmap := AList.mem_lookup_iff.mpr hentry
    cases key with
    | none =>
      rw [replacements, lookup_gathered_none] at hlookup
      cases hlookup
    | some key =>
      rw [replacements, lookup_gathered h] at hlookup
      cases hfound : find (fun a b => decide (a = b)) key order with
      | none =>
        rw [hfound] at hlookup
        cases hlookup
      | some found =>
        rw [hfound] at hlookup
        by_cases hempty : found = ∅
        · simp [hempty] at hlookup
        · simp only [Option.bind_some, if_neg hempty, Option.some_or, Option.some.injEq] at hlookup
          subst hlookup
          intro hremoved
          rw [← AList.lookup_isSome, removals, lookup_gathered h, hfound] at hremoved
          simp [hempty] at hremoved
  · rw [← AList.lookup_isSome, removals, lookup_gathered_none] at hnull
    cases hnull

/-- The overlay map is a lawful dictionary. -/
def equalityValues_lawful (V : Type) [DecidableEq V] : (equalityValues V).Lawful where
  Holds values bitmaps := ∃ f : Finmap fun _ : V => Finset ℕ,
    values.Denotes f ∧ ∀ key, f.lookup key = bitmaps key
  same := ⟨by simp [equalityValues], by simp +contextual [equalityValues, eq_comm],
    by simp +contextual [equalityValues]⟩
  holds_empty := ⟨∅, ImmutableOverlayMap.denotes_empty, fun _ => rfl⟩
  get := by
    rintro values bitmaps ⟨f, hf, hbitmaps⟩ key
    rw [← hbitmaps]
    exact hf.get key
  withBitmaps := by
    rintro values bitmaps order values' ⟨f, hf, hbitmaps⟩ hdistinct hok
    obtain ⟨m, hm, hdenotes⟩ := hf.withChanges (valid_gathered hdistinct)
    obtain rfl : m = values' := Except.ok.inj (hm.symm.trans hok)
    refine ⟨_, hdenotes, fun key => ?_⟩
    rw [ImmutableOverlayMap.lookup_apply, ImmutableOverlayMap.Changes.value, replacements,
      lookup_gathered hdistinct, hbitmaps]
    simp only [← AList.lookup_isSome, removals, lookup_gathered hdistinct]
    unfold replaced AvlChange.buffered equalityValues
    cases hfound : find (fun a b => decide (a = b)) key order with
    | none => simp
    | some bitmap => by_cases hempty : bitmap = ∅ <;> simp [hempty]

/-- The dictionary reports how many values it has. -/
def Counted (values : ImmutableOverlayMap V (Finset ℕ)) : Prop :=
  ∃ f, values.Denotes f ∧ ImmutableOverlayMap.Countable f ∧ values.size = Int32.ofNat f.keys.card

/-- There are no more values than documents. -/
theorem Lists.countable {value : ℕ → Option V} {bitmaps : V → Option (Finset ℕ)}
    (h : Lists (equalityValues V).same value bitmaps) (hids : ∀ d, 2147483647 ≤ d → value d = none)
    {f : Finmap fun _ : V => Finset ℕ} (hf : ∀ key, f.lookup key = bitmaps key) :
    ImmutableOverlayMap.Countable f := by
  have hsub : f.keys.image some ⊆ (Finset.range 2147483647).image value := by
    intro key hkey
    obtain ⟨key, hmem, rfl⟩ := Finset.mem_image.mp hkey
    obtain ⟨bitmap, hbitmap⟩ := Finmap.mem_iff.mp (Finmap.mem_keys.mp hmem)
    rw [hf] at hbitmap
    obtain ⟨d, hd⟩ : bitmap.Nonempty := by
      rw [Finset.nonempty_iff_ne_empty]
      rintro rfl
      exact h.nonempty key hbitmap
    obtain ⟨v, hv, hsame⟩ := (h.mem key d).mp (by rw [hbitmap]; exact hd)
    obtain rfl : v = key := of_decide_eq_true hsame
    refine Finset.mem_image.mpr ⟨d, Finset.mem_range.mpr ?_, hv⟩
    by_contra hlarge
    rw [hids d (by omega)] at hv
    cases hv
  have hcard := Finset.card_le_card hsub
  rw [Finset.card_image_of_injective _ (Option.some_injective V)] at hcard
  exact hcard.trans (Finset.card_image_le.trans_eq (Finset.card_range _))

theorem counted_withBitmaps {values values' : ImmutableOverlayMap V (Finset ℕ)}
    (h : Counted values) (hdistinct : Distinct (equalityValues V).same order)
    (hok : (equalityValues V).withBitmaps values order = .ok values')
    (hafter : ∀ f, values'.Denotes f → ImmutableOverlayMap.Countable f) : Counted values' := by
  obtain ⟨f, hf, hbefore, hsize⟩ := h
  have hvalid := valid_gathered hdistinct
  obtain ⟨m, hm, hdenotes⟩ := hf.withChanges hvalid
  obtain rfl : m = values' := Except.ok.inj (hm.symm.trans hok)
  exact ⟨_, hdenotes, hafter _ hdenotes,
    hf.size_withChanges hvalid hsize hbefore (hafter _ hdenotes) hok⟩

variable {T : Type} {valueOf : T → Option V} {b : ValueIndexBuilder (equalityValues V)}
  {s : ValueIndexSnapshot (equalityValues V)} {docs : ℕ → Option T}

/-- However it was maintained, the snapshot reports how many values it has: no more than there are
documents. -/
theorem Maintained.counted_build (h : Maintained (equalityValues V) valueOf b docs)
    (hbase : Counted b.base.values) (horder : order.Perm b.dirty) (hbuild : b.build order = .ok s) :
    Counted s.values := by
  have hequiv := (equalityValues_lawful V).same
  have hdistinct : Distinct (equalityValues V).same order :=
    (horder.pairwise_iff fun hne => (same_comm hequiv).trans hne).mpr
      (h.tracks (equalityValues_lawful V)).distinct
  obtain ⟨bitmaps, ⟨f, hf, hbitmaps⟩, hlists⟩ :=
    (h.shows (equalityValues_lawful V) horder hbuild).bitmaps
  have hcountable : ∀ g, s.values.Denotes g → ImmutableOverlayMap.Countable g := by
    intro g hg
    refine hlists.countable (fun d hd => ?_) fun key => ?_
    · rw [h.ids hd]
      rfl
    · rw [← hbitmaps, ← hf.get, hg.get]
  unfold ValueIndexBuilder.build at hbuild
  split at hbuild
  · cases hbuild
    exact hbase
  · obtain ⟨values, hvalues, hresult⟩ := bind_eq_ok.mp hbuild
    cases hresult
    exact counted_withBitmaps hbase hdistinct hvalues hcountable

theorem Maintained.counted_base (h : Maintained (equalityValues V) valueOf b docs) :
    Counted b.base.values := by
  induction h with
  | empty => exact ⟨∅, ImmutableOverlayMap.denotes_empty, Nat.zero_le _, rfl⟩
  | add t _ _ _ ih => rwa [ValueIndexBuilder.addValue_base]
  | remove _ _ ih => rwa [ValueIndexBuilder.removeValue_base]
  | update t' _ _ ih => rwa [ValueIndexBuilder.updateValue_base]
  | build hb horder hbuild ih => exact hb.counted_build ih horder hbuild

theorem Maintained.counted (h : Maintained (equalityValues V) valueOf b docs)
    (horder : order.Perm b.dirty) (hbuild : b.build order = .ok s) : Counted s.values :=
  h.counted_build h.counted_base horder hbuild

end

/-! ### The dictionaries of the range and the prefix index -/

section

variable (same : K → K → Bool) (compareTo : K → K → Ordering)

/-- The bitmaps weigh their cardinality. -/
def cardinality (bitmap : Finset ℕ) : ℤ := bitmap.card

/-- A tree of bitmaps below a buffer. -/
def orderedValues : BitmapDictionary K where
  Values := AvlNode K (Finset ℕ)
  Error := AvlError
  empty := .leaf
  get values := values.get compareTo
  same := same
  withBitmaps values order := order.foldlM (fun values entry =>
    (AvlChange.ofEntry (fun bitmap => decide (bitmap = ∅)) entry).apply compareTo cardinality values)
    values

/-- `RangeIndexSnapshot.values`; its buffer is a `TreeMap` of the same order. -/
def rangeValues : BitmapDictionary K := orderedValues (fun a b => (compareTo a b).isEq) compareTo

variable {same compareTo} [Std.TransCmp compareTo]

/-- The tree is a lawful dictionary when its order identifies the keys of the buffer. -/
def orderedValues_lawful (hsame : ∀ a b, same a b = true ↔ compareTo a b = .eq) :
    (orderedValues same compareTo).Lawful :=
  have hequiv : Equivalence fun a b => same a b = true :=
    ⟨fun a => (hsame a a).mpr Std.ReflCmp.compare_self,
      fun {a b} h => (hsame b a).mpr (Std.OrientedCmp.eq_symm ((hsame a b).mp h)),
      fun {a b c} h h' => (hsame a c).mpr (Std.TransCmp.eq_trans ((hsame a b).mp h)
        ((hsame b c).mp h'))⟩
  { Holds := fun values bitmaps => AvlChange.Holds compareTo cardinality bitmaps values
    same := hequiv
    holds_empty := ⟨trivial, .nil, fun _ => .none⟩
    get := fun h key => h.get_eq key
    withBitmaps := fun h hdistinct hok => h.foldlM_ofEntry hsame hequiv hdistinct hok }

end

end GeneralSearch.Index
