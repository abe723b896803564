import GeneralSearch.Bitmap.ImmutableBitmap

/-! The set of documents that a bitmap or a builder denotes in a heap.  A set falls into parts, one
for each block, and a block holds the offsets of its part.  A builder's dirty blocks are its own:
its steps change nothing that was allocated before but those. -/

namespace GeneralSearch.Bitmap

/-! ### The parts of a set -/

/-- The offsets in a block of the members of a set. -/
def part (s : Finset ℕ) (index : ℕ) : Finset ℕ :=
  (Finset.range BLOCK_SIZE).filter fun offset => index * BLOCK_SIZE + offset ∈ s

section

variable {s t : Finset ℕ} {i j o d : ℕ}

theorem mem_part : o ∈ part s i ↔ o < BLOCK_SIZE ∧ i * BLOCK_SIZE + o ∈ s := by
  unfold part
  rw [Finset.mem_filter, Finset.mem_range]

/-- A document is in the part of its block, at its offset. -/
theorem mem_part_div_mod : d % BLOCK_SIZE ∈ part s (d / BLOCK_SIZE) ↔ d ∈ s := by
  rw [mem_part, Nat.div_add_mod']
  exact and_iff_right (Nat.mod_lt d (by decide))

/-- A document at an offset in a block is that one. -/
theorem mul_add_eq_iff (ho : o < BLOCK_SIZE) :
    i * BLOCK_SIZE + o = d ↔ i = d / BLOCK_SIZE ∧ o = d % BLOCK_SIZE := by
  unfold BLOCK_SIZE at *
  omega

@[simp] theorem part_empty : part ∅ i = ∅ := by
  unfold part
  simp

theorem part_insert : part (insert d s) i =
    if i = d / BLOCK_SIZE then insert (d % BLOCK_SIZE) (part s i) else part s i := by
  have hlt : d % BLOCK_SIZE < BLOCK_SIZE := Nat.mod_lt d (by decide)
  ext o
  split
  · rename_i hi
    simp only [mem_part, Finset.mem_insert]
    constructor
    · rintro ⟨ho, heq | hmem⟩
      · exact .inl ((mul_add_eq_iff ho).mp heq).2
      · exact .inr ⟨ho, hmem⟩
    · rintro (rfl | ⟨ho, hmem⟩)
      · exact ⟨hlt, .inl ((mul_add_eq_iff hlt).mpr ⟨hi, rfl⟩)⟩
      · exact ⟨ho, .inr hmem⟩
  · rename_i hi
    simp only [mem_part, Finset.mem_insert]
    exact and_congr_right fun ho =>
      or_iff_right fun heq => hi ((mul_add_eq_iff ho).mp heq).1

theorem part_erase : part (s.erase d) i =
    if i = d / BLOCK_SIZE then (part s i).erase (d % BLOCK_SIZE) else part s i := by
  ext o
  split
  · rename_i hi
    simp only [mem_part, Finset.mem_erase]
    constructor
    · rintro ⟨ho, hne, hmem⟩
      exact ⟨fun heq => hne ((mul_add_eq_iff ho).mpr ⟨hi, heq⟩), ho, hmem⟩
    · rintro ⟨hne, ho, hmem⟩
      exact ⟨ho, fun heq => hne ((mul_add_eq_iff ho).mp heq).2, hmem⟩
  · rename_i hi
    simp only [mem_part, Finset.mem_erase]
    exact and_congr_right fun ho =>
      and_iff_right fun heq => hi ((mul_add_eq_iff ho).mp heq).1

/-- The members of a set in one block are as many as the part has offsets. -/
theorem card_filter_div : (s.filter (· / BLOCK_SIZE = i)).card = (part s i).card := by
  have hlt : ∀ d, d % BLOCK_SIZE < BLOCK_SIZE := fun d => Nat.mod_lt d (by decide)
  refine Finset.card_nbij' (· % BLOCK_SIZE) (i * BLOCK_SIZE + ·) ?_ ?_ ?_ ?_
  · intro d hd
    obtain ⟨hmem, rfl⟩ := Finset.mem_filter.mp hd
    exact mem_part_div_mod.mpr hmem
  · intro o ho
    obtain ⟨hoffset, hmem⟩ := mem_part.mp ho
    exact Finset.mem_filter.mpr ⟨hmem, ((mul_add_eq_iff hoffset).mp rfl).1.symm⟩
  · intro d hd
    obtain ⟨-, hdiv⟩ := Finset.mem_filter.mp hd
    exact (mul_add_eq_iff (hlt d)).mpr ⟨hdiv.symm, rfl⟩
  · intro o ho
    exact ((mul_add_eq_iff (mem_part.mp ho).1).mp rfl).2.symm

/-- Where two sets differ in one part only, so do their sizes. -/
theorem card_add_card_part (h : ∀ j ≠ i, part t j = part s j) :
    t.card + (part s i).card = s.card + (part t i).card := by
  have hother : t.filter (¬ · / BLOCK_SIZE = i) = s.filter (¬ · / BLOCK_SIZE = i) := by
    ext d
    simp only [Finset.mem_filter]
    refine and_congr_left fun hd => ?_
    rw [← mem_part_div_mod, h _ hd, mem_part_div_mod]
  have hs := Finset.card_filter_add_card_filter_not (s := s) (· / BLOCK_SIZE = i)
  have ht := Finset.card_filter_add_card_filter_not (s := t) (· / BLOCK_SIZE = i)
  rw [card_filter_div] at hs ht
  rw [hother] at ht
  omega

theorem part_union : part (s ∪ t) i = part s i ∪ part t i := by
  ext o
  simp only [mem_part, Finset.mem_union, and_or_left]

theorem part_filter_div : part (t.filter (· / BLOCK_SIZE = i)) j = if j = i then part t j else ∅ := by
  ext o
  simp only [mem_part, Finset.mem_filter]
  constructor
  · rintro ⟨ho, hmem, hdiv⟩
    have hj : j = i := ((mul_add_eq_iff ho).mp rfl).1.trans hdiv
    rw [if_pos hj]
    exact mem_part.mpr ⟨ho, hmem⟩
  · intro hmem
    split at hmem
    · rename_i hj
      obtain ⟨ho, hmem⟩ := mem_part.mp hmem
      exact ⟨ho, hmem, ((mul_add_eq_iff ho).mp rfl).1.symm.trans hj⟩
    · exact absurd hmem (Finset.notMem_empty o)

/-- A set with the part of another one in one block. -/
def withPart (s t : Finset ℕ) (index : ℕ) : Finset ℕ := s ∪ t.filter (· / BLOCK_SIZE = index)

theorem part_withPart :
    part (withPart s t i) j = if j = i then part s i ∪ part t i else part s j := by
  unfold withPart
  rw [part_union, part_filter_div]
  by_cases hj : j = i
  · rw [if_pos hj, if_pos hj, hj]
  · rw [if_neg hj, if_neg hj, Finset.union_empty]

/-- Sets with the same parts are the same. -/
theorem eq_of_parts (h : ∀ i, part s i = part t i) : s = t := by
  ext d
  rw [← mem_part_div_mod, h, mem_part_div_mod]

end

/-! ### Bitmaps -/

/-- What a block holds; a null block holds nothing. -/
def contents (h : Heap) (block : Option BitBlock) : Finset ℕ :=
  match block with
  | none => ∅
  | some block => h.bits block.bits

/-- A bitmap denotes a set: its blocks are the parts of the set, none is empty, and the counts
are those of the set. -/
structure Denotes (h : Heap) (b : ImmutableBitmap) (s : Finset ℕ) : Prop where
  parts : ∀ i, contents h (b.blocks.get i) = part s i
  nonempty : ∀ i block, b.blocks.get i = some block → h.bits block.bits ≠ ∅
  allocated : ∀ i block, b.blocks.get i = some block → block.bits < h.next
  count : ∀ i block, b.blocks.get i = some block → i < b.blockCount
  documents : ∀ d ∈ s, d < 2 ^ 31
  cardinality : b.cardinality = Int32.ofNat s.card

section

variable {h h' : Heap} {b other : ImmutableBitmap} {s t : Finset ℕ} {i j : ℕ} {docId : Int32}

/-- A heap with the same bits in the blocks of a bitmap. -/
theorem Denotes.frame (hb : Denotes h b s) (hnext : h.next ≤ h'.next)
    (hbits : ∀ i block, b.blocks.get i = some block → h'.bits block.bits = h.bits block.bits) :
    Denotes h' b s where
  parts i := by
    rw [← hb.parts]
    cases hblock : b.blocks.get i with
    | none => rfl
    | some block => exact hbits i block hblock
  nonempty i block hblock := by
    rw [hbits i block hblock]
    exact hb.nonempty i block hblock
  allocated i block hblock := (hb.allocated i block hblock).trans_le hnext
  count := hb.count
  documents := hb.documents
  cardinality := hb.cardinality

/-- The bound of `block` hides no block. -/
theorem Denotes.block (hb : Denotes h b s) : b.block i = b.blocks.get i := by
  unfold ImmutableBitmap.block
  split
  · rename_i hi
    cases hblock : b.blocks.get i with
    | none => rfl
    | some block => exact absurd (hb.count i block hblock) (Nat.not_lt.mpr hi)
  · rfl

/-- A part is nonempty where there is a block. -/
theorem Denotes.nonempty_iff (hb : Denotes h b s) :
    (part s i).Nonempty ↔ ∃ block, b.blocks.get i = some block := by
  rw [← hb.parts, Finset.nonempty_iff_ne_empty]
  cases hblock : b.blocks.get i with
  | none => simp [contents]
  | some block => simpa [contents] using hb.nonempty i block hblock

/-- A copy of a block has the part of the set. -/
theorem Denotes.copyOrNew (hb : Denotes h b s) :
    BitBlock.copyOrNew h (b.block i) = h.alloc (part s i) := by
  rw [hb.block, ← hb.parts]
  cases b.blocks.get i <;> rfl

/-- `get` is membership. -/
theorem Denotes.get_iff (hb : Denotes h b s) :
    b.get h docId = true ↔ 0 ≤ docId ∧ docId.toNatClampNeg ∈ s := by
  unfold ImmutableBitmap.get
  by_cases hneg : docId < 0
  · simp [hneg, Int32.not_le.mpr hneg]
  · rw [if_neg hneg, hb.block, ← mem_part_div_mod, ← hb.parts, and_iff_right (Int32.not_lt.mp hneg)]
    unfold blockIndex
    cases b.blocks.get (docId.toNatClampNeg / BLOCK_SIZE) with
    | none => simp [contents]
    | some block => exact decide_eq_true_iff

theorem Denotes.card_lt (hb : Denotes h b s) : s.card ≤ 2 ^ 31 := by
  have hsubset : s ⊆ Finset.range (2 ^ 31) := fun d hd => Finset.mem_range.mpr (hb.documents d hd)
  have hcard := Finset.card_le_card hsubset
  rwa [Finset.card_range] at hcard

/-- A count wraps to zero at no set of documents. -/
theorem Denotes.isEmpty_iff (hb : Denotes h b s) : b.isEmpty = true ↔ s = ∅ := by
  have hcard := hb.card_lt
  unfold ImmutableBitmap.isEmpty
  rw [decide_eq_true_eq, hb.cardinality, ← Int32.toInt_inj, Int32.toInt_ofNat',
    ← Finset.card_eq_zero]
  have hsize : Int32.size = 2 ^ 32 := rfl
  have hzero : (0 : Int32).toInt = 0 := rfl
  rw [hsize, hzero]
  constructor
  · intro h
    have := Int.dvd_of_bmod_eq_zero h
    omega
  · intro h
    rw [h]
    rfl

/-- The offsets in a block are those of the members in it. -/
theorem Denotes.mem_bits (hb : Denotes h b s) {block : BitBlock} {o : ℕ}
    (hblock : b.blocks.get i = some block) :
    o ∈ h.bits block.bits ↔ o < BLOCK_SIZE ∧ i * BLOCK_SIZE + o ∈ s := by
  rw [← mem_part, ← hb.parts, hblock]
  rfl

/-- The visits, as natural numbers. -/
theorem Denotes.map_forEachSetBit (hb : Denotes h b s) :
    (b.forEachSetBit h).map Int32.toNatClampNeg = b.blocks.forEachPresent.flatMap fun entry =>
      ((h.bits entry.2.bits).sort (· ≤ ·)).map (entry.1 * BLOCK_SIZE + ·) := by
  unfold ImmutableBitmap.forEachSetBit
  rw [List.map_flatMap]
  refine List.flatMap_congr fun entry hentry => ?_
  unfold BitBlock.forEachSetBit
  rw [List.map_map]
  refine List.map_congr_left fun o ho => ?_
  have hblock := PersistentBlockTree.mem_forEachPresent.mp hentry
  have hmem := (hb.mem_bits hblock).mp ((Finset.mem_sort _).mp ho)
  exact Int32.toNatClampNeg_ofNat_of_lt (hb.documents _ hmem.2)

/-- The visits are the members, in ascending order. -/
theorem Denotes.forEachSetBit (hb : Denotes h b s) :
    (b.forEachSetBit h).map Int32.toNatClampNeg = s.sort (· ≤ ·) := by
  rw [hb.map_forEachSetBit]
  refine List.Pairwise.eq_of_mem_iff (r := (· < ·)) ?_ s.sortedLT_sort.pairwise fun d => ?_
  · rw [List.pairwise_flatMap]
    constructor
    · intro entry _
      rw [List.pairwise_map]
      exact (Finset.sortedLT_sort _).pairwise.imp fun hlt => Nat.add_lt_add_left hlt _
    · refine PersistentBlockTree.forEachPresent_ascends.imp_of_mem ?_
      intro entry entry' hentry _ hlt d hd d' hd'
      obtain ⟨o, ho, rfl⟩ := List.mem_map.mp hd
      obtain ⟨o', -, rfl⟩ := List.mem_map.mp hd'
      have hblock := PersistentBlockTree.mem_forEachPresent.mp hentry
      have hoffset := ((hb.mem_bits hblock).mp ((Finset.mem_sort _).mp ho)).1
      unfold BLOCK_SIZE at hoffset ⊢
      omega
  · rw [List.mem_flatMap, Finset.mem_sort]
    constructor
    · rintro ⟨⟨index, block⟩, hentry, hd⟩
      obtain ⟨o, ho, rfl⟩ := List.mem_map.mp hd
      have hblock := PersistentBlockTree.mem_forEachPresent.mp hentry
      exact ((hb.mem_bits hblock).mp ((Finset.mem_sort _).mp ho)).2
    · intro hd
      have hpart : d % BLOCK_SIZE ∈ part s (d / BLOCK_SIZE) := mem_part_div_mod.mpr hd
      obtain ⟨block, hblock⟩ := hb.nonempty_iff.mp ⟨_, hpart⟩
      refine ⟨(d / BLOCK_SIZE, block), PersistentBlockTree.mem_forEachPresent.mpr hblock, ?_⟩
      refine List.mem_map.mpr ⟨d % BLOCK_SIZE, (Finset.mem_sort _).mpr ?_, Nat.div_add_mod' _ _⟩
      exact (hb.mem_bits hblock).mpr (mem_part.mp hpart)

end

/-! ### Builders -/

namespace ImmutableBitmapBuilder

/-- What a builder holds in a block. -/
def view (h : Heap) (b : ImmutableBitmapBuilder) (index : ℕ) : Finset ℕ :=
  match b.dirtyBlocks.lookup index with
  | none => contents h (b.base.blocks.get index)
  | some dirty => h.bits dirty

theorem view_clean {h : Heap} {b : ImmutableBitmapBuilder} {index : ℕ}
    (hclean : b.dirtyBlocks.lookup index = none) :
    b.view h index = contents h (b.base.blocks.get index) := by
  rw [view, hclean]

theorem view_dirty {h : Heap} {b : ImmutableBitmapBuilder} {index r : ℕ}
    (hdirty : b.dirtyBlocks.lookup index = some r) : b.view h index = h.bits r := by
  rw [view, hdirty]

@[simp] theorem view_counts {h : Heap} {b : ImmutableBitmapBuilder} {index blockCount : ℕ}
    {cardinality : Int32} :
    view h { b with blockCount := blockCount, cardinality := cardinality } index =
      b.view h index := rfl

end ImmutableBitmapBuilder

/-- No block of a bitmap is a dirty block of a builder. -/
def Apart (b : ImmutableBitmapBuilder) (bitmap : ImmutableBitmap) : Prop :=
  ∀ i r, b.dirtyBlocks.lookup i = some r →
    ∀ j block, bitmap.blocks.get j = some block → block.bits ≠ r

/-- A builder denotes a set: its blocks are the parts of the set, its dirty blocks are different
objects and none of its base's, and the counts are those of the set. -/
structure Builds (h : Heap) (b : ImmutableBitmapBuilder) (s : Finset ℕ) : Prop where
  base : ∃ s₀, Denotes h b.base s₀
  parts : ∀ i, b.view h i = part s i
  allocated : ∀ i r, b.dirtyBlocks.lookup i = some r → r < h.next
  separate : ∀ i j r, b.dirtyBlocks.lookup i = some r → b.dirtyBlocks.lookup j = some r → i = j
  apart : Apart b b.base
  count : ∀ i, (part s i).Nonempty → i < b.blockCount
  documents : ∀ d ∈ s, d < 2 ^ 31
  cardinality : b.cardinality = Int32.ofNat s.card

/-- A step of a builder: nothing that was allocated changes but its dirty blocks, and what becomes
dirty is new. -/
structure Steps (h : Heap) (b : ImmutableBitmapBuilder) (h' : Heap) (b' : ImmutableBitmapBuilder) :
    Prop where
  base : b'.base = b.base
  built : b'.built = b.built
  next : h.next ≤ h'.next
  frame : ∀ r < h.next, (∀ i, b.dirtyBlocks.lookup i ≠ some r) → h'.bits r = h.bits r
  dirty : ∀ i r, b'.dirtyBlocks.lookup i = some r → b.dirtyBlocks.lookup i = some r ∨ h.next ≤ r

section

variable {h h' h'' : Heap} {b b' b'' : ImmutableBitmapBuilder} {base : ImmutableBitmap}
  {s t : Finset ℕ} {i j r : ℕ} {docId : Int32}

theorem Steps.refl : Steps h b h b := ⟨rfl, rfl, le_rfl, fun _ _ _ => rfl, fun _ _ => .inl⟩

theorem Steps.trans (h1 : Steps h b h' b') (h2 : Steps h' b' h'' b'') : Steps h b h'' b'' where
  base := h2.base.trans h1.base
  built := h2.built.trans h1.built
  next := h1.next.trans h2.next
  frame r hr hdirty := by
    refine (h2.frame r (hr.trans_le h1.next) fun i hi => ?_).trans (h1.frame r hr hdirty)
    obtain hold | hnew := h1.dirty i r hi
    · exact hdirty i hold
    · exact absurd hr (Nat.not_lt.mpr hnew)
  dirty i r hi := by
    obtain hold | hnew := h2.dirty i r hi
    · exact h1.dirty i r hold
    · exact .inr (h1.next.trans hnew)

/-- A bitmap apart from the builder stays as it is. -/
theorem Denotes.steps {bitmap : ImmutableBitmap} (hm : Denotes h bitmap t) (hs : Steps h b h' b')
    (hapart : Apart b bitmap) : Denotes h' bitmap t :=
  hm.frame hs.next fun i block hblock => hs.frame _ (hm.allocated i block hblock)
    fun j hj => hapart j _ hj i block hblock rfl

/-- And it stays apart. -/
theorem Apart.steps {bitmap : ImmutableBitmap} (hapart : Apart b bitmap) (hs : Steps h b h' b')
    (hm : Denotes h bitmap t) : Apart b' bitmap := by
  intro i r hr j block hblock
  obtain hold | hnew := hs.dirty i r hr
  · exact hapart i r hold j block hblock
  · exact ((hm.allocated j block hblock).trans_le hnew).ne

/-- A heap with the same bits in the blocks of a builder and of its base. -/
theorem Builds.frame (hb : Builds h b s) (hnext : h.next ≤ h'.next)
    (hdirty : ∀ i r, b.dirtyBlocks.lookup i = some r → h'.bits r = h.bits r)
    (hblocks : ∀ i block, b.base.blocks.get i = some block →
      h'.bits block.bits = h.bits block.bits) : Builds h' b s where
  base := by
    obtain ⟨s₀, hbase⟩ := hb.base
    exact ⟨s₀, hbase.frame hnext hblocks⟩
  parts i := by
    rw [← hb.parts]
    cases hlookup : b.dirtyBlocks.lookup i with
    | none =>
      rw [ImmutableBitmapBuilder.view_clean hlookup, ImmutableBitmapBuilder.view_clean hlookup]
      cases hget : b.base.blocks.get i with
      | none => rfl
      | some block => exact hblocks i block hget
    | some r =>
      rw [ImmutableBitmapBuilder.view_dirty hlookup, ImmutableBitmapBuilder.view_dirty hlookup]
      exact hdirty i r hlookup
  allocated i r hr := (hb.allocated i r hr).trans_le hnext
  separate := hb.separate
  apart := hb.apart
  count := hb.count
  documents := hb.documents
  cardinality := hb.cardinality

/-- A builder starts as its base. -/
theorem Denotes.new (hb : Denotes h base s) : Builds h (.new base) s where
  base := ⟨s, hb⟩
  parts := hb.parts
  allocated _ _ hr := nomatch hr
  separate _ _ _ hr := nomatch hr
  apart _ _ hr := nomatch hr
  count i hi := by
    obtain ⟨block, hblock⟩ := hb.nonempty_iff.mp hi
    exact hb.count i block hblock
  documents := hb.documents
  cardinality := hb.cardinality

/-- `get` of an open builder is membership. -/
theorem Builds.read_iff (hb : Builds h b s) :
    b.read h docId = true ↔ 0 ≤ docId ∧ docId.toNatClampNeg ∈ s := by
  obtain ⟨s₀, hbase⟩ := hb.base
  have hview := hb.parts (docId.toNatClampNeg / BLOCK_SIZE)
  unfold ImmutableBitmapBuilder.read blockIndex
  by_cases hneg : docId < 0
  · simp [hneg, Int32.not_le.mpr hneg]
  · rw [if_neg hneg]
    cases hdirty : b.dirtyBlocks.lookup (docId.toNatClampNeg / BLOCK_SIZE) with
    | none =>
      rw [ImmutableBitmapBuilder.view_clean hdirty, hbase.parts] at hview
      simp only
      rw [hbase.get_iff, ← mem_part_div_mod, hview, mem_part_div_mod]
    | some dirty =>
      rw [ImmutableBitmapBuilder.view_dirty hdirty] at hview
      simp only
      rw [decide_eq_true_iff, hview, and_iff_right (Int32.not_lt.mp hneg)]
      exact mem_part_div_mod

/-- A new dirty block with the part of the set. -/
theorem Builds.alloc (hb : Builds h b s) (hclean : b.dirtyBlocks.lookup i = none) :
    Builds (h.alloc (part s i)).2 { b with dirtyBlocks := b.dirtyBlocks.insert i h.next } s ∧
      Steps h b (h.alloc (part s i)).2
        { b with dirtyBlocks := b.dirtyBlocks.insert i h.next } := by
  have hdirty : ∀ j r, (b.dirtyBlocks.insert i h.next).lookup j = some r →
      j = i ∧ r = h.next ∨ j ≠ i ∧ b.dirtyBlocks.lookup j = some r := by
    intro j r hr
    by_cases hj : j = i
    · subst hj
      rw [AList.lookup_insert] at hr
      exact .inl ⟨rfl, (Option.some.inj hr).symm⟩
    · rw [AList.lookup_insert_ne hj] at hr
      exact .inr ⟨hj, hr⟩
  have hold : ∀ r < h.next, (h.alloc (part s i)).2.bits r = h.bits r := fun r hr =>
    Heap.bits_alloc_of_lt hr
  obtain ⟨s₀, hbase⟩ := hb.base
  have hbase' : Denotes (h.alloc (part s i)).2 b.base s₀ :=
    hbase.frame (Nat.le_succ _) fun j block hblock => hold _ (hbase.allocated j block hblock)
  constructor
  · refine ⟨⟨s₀, hbase'⟩, fun j => ?_, fun j r hr => ?_, fun j k r hj hk => ?_, fun j r hr => ?_,
      hb.count, hb.documents, hb.cardinality⟩
    · by_cases hj : j = i
      · subst hj
        rw [ImmutableBitmapBuilder.view_dirty (AList.lookup_insert _)]
        exact Heap.bits_alloc ..
      · refine Eq.trans ?_ (hb.parts j)
        cases hlookup : b.dirtyBlocks.lookup j with
        | none =>
          rw [ImmutableBitmapBuilder.view_clean hlookup,
            ImmutableBitmapBuilder.view_clean ((AList.lookup_insert_ne hj).trans hlookup)]
          simp only
          rw [hbase'.parts, hbase.parts]
        | some r =>
          rw [ImmutableBitmapBuilder.view_dirty hlookup,
            ImmutableBitmapBuilder.view_dirty ((AList.lookup_insert_ne hj).trans hlookup)]
          exact hold r (hb.allocated j r hlookup)
    · obtain ⟨-, rfl⟩ | ⟨-, hr⟩ := hdirty j r hr
      · exact Nat.lt_succ_self _
      · exact (hb.allocated j r hr).trans (Nat.lt_succ_self _)
    · obtain ⟨rfl, rfl⟩ | ⟨-, hj⟩ := hdirty j r hj
      · obtain ⟨rfl, -⟩ | ⟨-, hk⟩ := hdirty k _ hk
        · rfl
        · exact absurd (hb.allocated k _ hk) (lt_irrefl _)
      · obtain ⟨-, rfl⟩ | ⟨-, hk⟩ := hdirty k r hk
        · exact absurd (hb.allocated j _ hj) (lt_irrefl _)
        · exact hb.separate j k r hj hk
    · intro k block hblock
      obtain ⟨-, rfl⟩ | ⟨-, hr⟩ := hdirty j r hr
      · exact (hbase.allocated k block hblock).ne
      · exact hb.apart j r hr k block hblock
  · refine ⟨rfl, rfl, Nat.le_succ _, fun r hr _ => hold r hr, fun j r hr => ?_⟩
    obtain ⟨-, rfl⟩ | ⟨-, hr⟩ := hdirty j r hr
    · exact .inr le_rfl
    · exact .inl hr

/-- `mutableBlock` finds or makes the dirty block, with the part of the set. -/
theorem Builds.mutableBlock (hb : Builds h b s) :
    Builds (b.mutableBlock h i).2.2 (b.mutableBlock h i).2.1 s ∧
      Steps h b (b.mutableBlock h i).2.2 (b.mutableBlock h i).2.1 ∧
      (b.mutableBlock h i).2.1.dirtyBlocks.lookup i = some (b.mutableBlock h i).1 := by
  unfold ImmutableBitmapBuilder.mutableBlock
  cases hdirty : b.dirtyBlocks.lookup i with
  | some dirty => exact ⟨hb, .refl, hdirty⟩
  | none =>
    obtain ⟨s₀, hbase⟩ := hb.base
    have hcopy : BitBlock.copyOrNew h (b.base.block i) = h.alloc (part s i) := by
      rw [hbase.copyOrNew, ← hb.parts, ImmutableBitmapBuilder.view_clean hdirty, hbase.parts]
    simp only [hcopy]
    obtain ⟨hbuilds, hsteps⟩ := hb.alloc hdirty
    exact ⟨hbuilds, hsteps, AList.lookup_insert _⟩

/-- A write to a dirty block changes the part of its block. -/
theorem Builds.write (hb : Builds h b s) (hr : b.dirtyBlocks.lookup i = some r)
    {contents : Finset ℕ} {cardinality : Int32} {blockCount : ℕ}
    (hparts : ∀ j, part t j = if j = i then contents else part s j)
    (hcount : ∀ j, (part t j).Nonempty → j < blockCount) (hdocuments : ∀ d ∈ t, d < 2 ^ 31)
    (hcardinality : cardinality = Int32.ofNat t.card) :
    Builds (h.write r contents)
        { b with cardinality := cardinality, blockCount := blockCount } t ∧
      Steps h b (h.write r contents)
        { b with cardinality := cardinality, blockCount := blockCount } := by
  have hold : ∀ r' ≠ r, (h.write r contents).bits r' = h.bits r' := fun r' hne =>
    Heap.bits_write_of_ne hne
  obtain ⟨s₀, hbase⟩ := hb.base
  have hbase' : Denotes (h.write r contents) b.base s₀ :=
    hbase.frame le_rfl fun j block hblock => hold _ (hb.apart i r hr j block hblock)
  constructor
  · refine ⟨⟨s₀, hbase'⟩, fun j => ?_, hb.allocated, hb.separate, hb.apart, hcount, hdocuments,
      hcardinality⟩
    rw [hparts]
    by_cases hj : j = i
    · subst hj
      rw [if_pos rfl, ImmutableBitmapBuilder.view_counts, ImmutableBitmapBuilder.view_dirty hr,
        Heap.bits_write]
    · rw [if_neg hj, ImmutableBitmapBuilder.view_counts]
      refine Eq.trans ?_ (hb.parts j)
      cases hlookup : b.dirtyBlocks.lookup j with
      | none =>
        rw [ImmutableBitmapBuilder.view_clean hlookup, ImmutableBitmapBuilder.view_clean hlookup]
        rw [hbase'.parts, hbase.parts]
      | some r' =>
        rw [ImmutableBitmapBuilder.view_dirty hlookup, ImmutableBitmapBuilder.view_dirty hlookup]
        exact hold r' fun heq => hj (hb.separate j i r (heq ▸ hlookup) hr)
  · exact ⟨rfl, rfl, le_rfl, fun r' _ hclean => hold r' fun heq => hclean i (heq ▸ hr),
      fun _ _ hr' => .inl hr'⟩

end

end GeneralSearch.Bitmap
