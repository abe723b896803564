import GeneralSearch.Bitmap.Denotation

/-! The operations of a builder as operations on the set it denotes, each a step of the builder. -/

namespace GeneralSearch.Bitmap

variable {h : Heap} {b : ImmutableBitmapBuilder} {s t : Finset ℕ} {i : ℕ} {docId : Int32}

/-! ### Counts -/

theorem ofNat_card_insert {d : ℕ} (hd : d ∉ s) :
    Int32.ofNat s.card + 1 = Int32.ofNat (insert d s).card := by
  rw [Finset.card_insert_of_notMem hd, Int32.ofNat_add]
  rfl

theorem ofNat_card_erase {d : ℕ} (hd : d ∈ s) :
    Int32.ofNat s.card - 1 = Int32.ofNat (s.erase d).card := by
  rw [← Finset.card_erase_add_one hd, Int32.ofNat_add]
  exact Int32.add_sub_cancel ..

/-- The count after a part has changed. -/
theorem ofNat_card_part (hparts : ∀ j ≠ i, part t j = part s j) :
    Int32.ofNat s.card + (Int32.ofNat (part t i).card - Int32.ofNat (part s i).card) =
      Int32.ofNat t.card := by
  have hcard := congrArg Int32.ofNat (card_add_card_part hparts)
  rw [Int32.ofNat_add, Int32.ofNat_add] at hcard
  grind

/-! ### Builders -/

theorem requireDocId_eq_ok (hopen : b.built = false) (hd : 0 ≤ docId) :
    b.requireDocId docId = .ok () := by
  unfold ImmutableBitmapBuilder.requireDocId ImmutableBitmapBuilder.ensureOpen
  rw [hopen]
  simp only [if_neg (Int32.not_lt.mpr hd)]
  rfl

theorem get_eq_ok (hopen : b.built = false) : b.get h docId = .ok (b.read h docId) := by
  unfold ImmutableBitmapBuilder.get ImmutableBitmapBuilder.ensureOpen
  rw [hopen]
  rfl

/-- The bits of the dirty block that `mutableBlock` returns. -/
theorem Builds.bits_mutableBlock (hb : Builds h b s) :
    (b.mutableBlock h i).2.2.bits (b.mutableBlock h i).1 = part s i := by
  obtain ⟨hbuilds, -, hdirty⟩ := hb.mutableBlock (i := i)
  rw [← hbuilds.parts, ImmutableBitmapBuilder.view_dirty hdirty]

/-- A builder after one of its blocks is made dirty and written. -/
theorem Builds.update (hb : Builds h b s) {contents : Finset ℕ} {cardinality : Int32}
    {blockCount : ℕ} (hparts : ∀ j, part t j = if j = i then contents else part s j)
    (hblocks : (b.mutableBlock h i).2.1.blockCount ≤ blockCount)
    (hcount : contents.Nonempty → i < blockCount) (hdocuments : ∀ d ∈ t, d < 2 ^ 31)
    (hcardinality : cardinality = Int32.ofNat t.card) :
    Builds ((b.mutableBlock h i).2.2.write (b.mutableBlock h i).1 contents)
        { (b.mutableBlock h i).2.1 with cardinality := cardinality, blockCount := blockCount } t ∧
      Steps h b ((b.mutableBlock h i).2.2.write (b.mutableBlock h i).1 contents)
        { (b.mutableBlock h i).2.1 with
          cardinality := cardinality, blockCount := blockCount } := by
  obtain ⟨hbuilds, hsteps, hdirty⟩ := hb.mutableBlock (i := i)
  have hbounded : ∀ j, (part t j).Nonempty → j < blockCount := by
    intro j hj
    rw [hparts] at hj
    split at hj
    · rename_i hji
      exact hji ▸ hcount hj
    · exact (hbuilds.count j hj).trans_le hblocks
  obtain ⟨hwritten, hwrite⟩ := hbuilds.write hdirty hparts hbounded hdocuments hcardinality
  exact ⟨hwritten, hsteps.trans hwrite⟩

theorem Builds.set (hb : Builds h b s) (hopen : b.built = false) (hd : 0 ≤ docId) :
    ∃ b' h', b.set h docId = .ok (b', h') ∧ Builds h' b' (insert docId.toNatClampNeg s) ∧
      Steps h b h' b' := by
  unfold ImmutableBitmapBuilder.set
  rw [requireDocId_eq_ok hopen hd, get_eq_ok hopen]
  by_cases hread : b.read h docId = true
  · have hmem := (hb.read_iff.mp hread).2
    refine ⟨b, h, ?_, ?_, .refl⟩
    · simp only [hread]
      rfl
    · rw [Finset.insert_eq_of_mem hmem]
      exact hb
  · have hmem : docId.toNatClampNeg ∉ s := fun hmem => hread (hb.read_iff.mpr ⟨hd, hmem⟩)
    have hbuilds := (hb.mutableBlock (i := blockIndex docId)).1
    have hbits := hb.bits_mutableBlock (i := blockIndex docId)
    have hdocuments : ∀ d ∈ insert docId.toNatClampNeg s, d < 2 ^ 31 :=
      Finset.forall_mem_insert _ _ _ |>.mpr ⟨docId.toNatClampNeg_lt, hb.documents⟩
    simp only [hread]
    refine ⟨_, _, rfl, hb.update (fun j => ?_) (le_max_left _ _)
      (fun _ => (Nat.lt_succ_self _).trans_le (le_max_right _ _)) hdocuments ?_⟩
    · rw [part_insert, hbits]
      exact ite_congr rfl (fun hj => hj ▸ rfl) fun _ => rfl
    · rw [← ofNat_card_insert hmem, ← hbuilds.cardinality]

theorem Builds.clear (hb : Builds h b s) (hopen : b.built = false) (hd : 0 ≤ docId) :
    ∃ b' h', b.clear h docId = .ok (b', h') ∧ Builds h' b' (s.erase docId.toNatClampNeg) ∧
      Steps h b h' b' := by
  unfold ImmutableBitmapBuilder.clear
  rw [requireDocId_eq_ok hopen hd, get_eq_ok hopen]
  by_cases hread : b.read h docId = true
  · have hmem := (hb.read_iff.mp hread).2
    have hbuilds := (hb.mutableBlock (i := blockIndex docId)).1
    have hbits := hb.bits_mutableBlock (i := blockIndex docId)
    have hdocuments : ∀ d ∈ s.erase docId.toNatClampNeg, d < 2 ^ 31 := fun d hd =>
      hb.documents d (Finset.mem_of_mem_erase hd)
    simp only [hread]
    refine ⟨_, _, rfl, hb.update (fun j => ?_) le_rfl (fun hpart => ?_) hdocuments ?_⟩
    · rw [part_erase, hbits]
      exact ite_congr rfl (fun hj => hj ▸ rfl) fun _ => rfl
    · rw [hbits] at hpart
      exact hbuilds.count _ (hpart.mono (Finset.erase_subset _ _))
    · rw [← ofNat_card_erase hmem, ← hbuilds.cardinality]
  · have hmem : docId.toNatClampNeg ∉ s := fun hmem => hread (hb.read_iff.mpr ⟨hd, hmem⟩)
    refine ⟨b, h, ?_, ?_, .refl⟩
    · simp only [hread]
      rfl
    · rw [Finset.erase_eq_of_notMem hmem]
      exact hb

/-- One block of the other bitmap is one part of its set. -/
theorem Builds.orBlock (hb : Builds h b s) {block : BitBlock}
    (hblock : (b.mutableBlock h i).2.2.bits block.bits = part t i)
    (hdocuments : ∀ d ∈ t, d < 2 ^ 31) :
    Builds (ImmutableBitmapBuilder.orBlock (b, h) (i, block)).2
        (ImmutableBitmapBuilder.orBlock (b, h) (i, block)).1 (withPart s t i) ∧
      Steps h b (ImmutableBitmapBuilder.orBlock (b, h) (i, block)).2
        (ImmutableBitmapBuilder.orBlock (b, h) (i, block)).1 := by
  have hbuilds := (hb.mutableBlock (i := i)).1
  have hbits := hb.bits_mutableBlock (i := i)
  have hunion : ∀ d ∈ withPart s t i, d < 2 ^ 31 := fun d hd =>
    (Finset.mem_union.mp hd).elim (hb.documents d) fun ht =>
      hdocuments d (Finset.mem_of_mem_filter d ht)
  have hpart : part s i ∪ part t i = part (withPart s t i) i := by rw [part_withPart, if_pos rfl]
  have hor : ImmutableBitmapBuilder.orBlock (b, h) (i, block) =
      ({ (b.mutableBlock h i).2.1 with
          cardinality := (b.mutableBlock h i).2.1.cardinality +
            (Int32.ofNat (part (withPart s t i) i).card - Int32.ofNat (part s i).card)
          blockCount := max (b.mutableBlock h i).2.1.blockCount (i + 1) },
        (b.mutableBlock h i).2.2.write (b.mutableBlock h i).1 (part (withPart s t i) i)) := by
    rw [← hpart, ← hbits, ← hblock]
    unfold ImmutableBitmapBuilder.orBlock
    simp only [Heap.bits_write]
  rw [hor]
  refine hb.update (fun j => ?_) (le_max_left _ _)
    (fun _ => (Nat.lt_succ_self _).trans_le (le_max_right _ _)) hunion ?_
  · rw [part_withPart, ← hpart]
  · rw [hbuilds.cardinality]
    exact ofNat_card_part fun j hj => by rw [part_withPart, if_neg hj]

section

variable {other : ImmutableBitmap}

/-- The loop of `or` over some blocks of the other bitmap. -/
theorem Builds.foldl_orBlock (hb : Builds h b s) (ht : Denotes h other t) (hapart : Apart b other)
    {entries : List (ℕ × BitBlock)}
    (hentries : ∀ entry ∈ entries, other.blocks.get entry.1 = some entry.2) :
    Builds (entries.foldl ImmutableBitmapBuilder.orBlock (b, h)).2
        (entries.foldl ImmutableBitmapBuilder.orBlock (b, h)).1
        (entries.foldl (fun s entry => withPart s t entry.1) s) ∧
      Steps h b (entries.foldl ImmutableBitmapBuilder.orBlock (b, h)).2
        (entries.foldl ImmutableBitmapBuilder.orBlock (b, h)).1 := by
  induction entries generalizing b h s with
  | nil => exact ⟨hb, .refl⟩
  | cons entry entries ih =>
    obtain ⟨i, block⟩ := entry
    obtain ⟨hblock, hrest⟩ := List.forall_mem_cons.mp hentries
    obtain ⟨-, hsteps, -⟩ := hb.mutableBlock (i := i)
    have ht1 := ht.steps hsteps hapart
    have hbits : (b.mutableBlock h i).2.2.bits block.bits = part t i := by
      rw [← ht1.parts, hblock]
      rfl
    obtain ⟨hstep, hfirst⟩ := hb.orBlock hbits ht.documents
    obtain ⟨hbuilds, hlast⟩ := ih hstep (ht.steps hfirst hapart) (hapart.steps hfirst ht) hrest
    exact ⟨hbuilds, hfirst.trans hlast⟩

theorem mem_foldl_withPart {entries : List (ℕ × BitBlock)} {d : ℕ} :
    d ∈ entries.foldl (fun s entry => withPart s t entry.1) s ↔
      d ∈ s ∨ d ∈ t ∧ ∃ entry ∈ entries, d / BLOCK_SIZE = entry.1 := by
  induction entries generalizing s with
  | nil => simp
  | cons entry entries ih =>
    rw [List.foldl_cons, ih]
    simp only [withPart, Finset.mem_union, Finset.mem_filter, List.exists_mem_cons_iff]
    tauto

theorem Builds.or (hb : Builds h b s) (hopen : b.built = false) (ht : Denotes h other t)
    (hapart : Apart b other) (hsame : other.address = b.base.address → other = b.base) :
    ∃ b' h', b.or h other = .ok (b', h') ∧ Builds h' b' (s ∪ t) ∧ Steps h b h' b' := by
  unfold ImmutableBitmapBuilder.or ImmutableBitmapBuilder.ensureOpen
  rw [hopen]
  by_cases hskip : (other.isEmpty ||
      (other.address = b.base.address && b.dirtyBlocks.entries.isEmpty)) = true
  · refine ⟨b, h, ?_, ?_, .refl⟩
    · simp only [hskip]
      rfl
    · rw [Bool.or_eq_true, Bool.and_eq_true, decide_eq_true_iff, List.isEmpty_iff] at hskip
      obtain hempty | ⟨haddress, hclean⟩ := hskip
      · rw [ht.isEmpty_iff.mp hempty, Finset.union_empty]
        exact hb
      · -- the other bitmap is the base, and nothing is dirty
        have hst : s = t := by
          refine eq_of_parts fun i => ?_
          have hlookup : b.dirtyBlocks.lookup i = none := by
            rw [AList.ext (t := ∅) hclean]
            rfl
          rw [← hb.parts, ImmutableBitmapBuilder.view_clean hlookup, ← hsame haddress, ht.parts]
        rw [← hst, Finset.union_self]
        exact hb
  · obtain ⟨hbuilds, hsteps⟩ := hb.foldl_orBlock ht hapart fun entry hentry =>
      PersistentBlockTree.mem_forEachPresent.mp hentry
    refine ⟨_, _, ?_, ?_, hsteps⟩
    · simp only [hskip]
      rfl
    · have hall : other.blocks.forEachPresent.foldl (fun s entry => withPart s t entry.1) s =
          s ∪ t := by
        ext d
        rw [mem_foldl_withPart, Finset.mem_union]
        refine or_congr_right (and_iff_left_of_imp fun hd => ?_)
        obtain ⟨block, hblock⟩ := ht.nonempty_iff.mp ⟨_, mem_part_div_mod.mpr hd⟩
        exact ⟨_, PersistentBlockTree.mem_forEachPresent.mpr hblock, rfl⟩
      rw [← hall]
      exact hbuilds

end

/-! ### The end of a builder -/

section

variable {entries : List (Σ _ : ℕ, ℕ)} {tree : PersistentBlockTree BitBlock} {changed : Bool}
  {index r : ℕ}

theorem buildBlock_of_unchanged (hsame : b.unchanged h index r = true) :
    b.buildBlock h (tree, changed) ⟨index, r⟩ = (tree, changed) := by
  unfold ImmutableBitmapBuilder.buildBlock
  simp only [if_pos hsame]

theorem buildBlock_of_changed (hnew : ¬b.unchanged h index r = true) :
    b.buildBlock h (tree, changed) ⟨index, r⟩ =
      (tree.withValue index (if h.bits r = ∅ then none else some ⟨r⟩), true) := by
  unfold ImmutableBitmapBuilder.buildBlock
  simp only [if_neg hnew]

/-- The blocks after the loop of `build`, in whatever order it meets the dirty ones. -/
theorem get_foldl_buildBlock (hdistinct : entries.NodupKeys) :
    (entries.foldl (b.buildBlock h) (tree, changed)).1.get i =
      match entries.dlookup i with
      | none => tree.get i
      | some r =>
        if b.unchanged h i r = true then tree.get i
        else if h.bits r = ∅ then none else some ⟨r⟩ := by
  induction entries generalizing tree changed with
  | nil => rfl
  | cons entry entries ih =>
    obtain ⟨index, r⟩ := entry
    obtain ⟨hfresh, hrest⟩ := List.nodupKeys_cons.mp hdistinct
    rw [List.foldl_cons]
    by_cases hi : i = index
    · subst hi
      have hlookup : entries.dlookup i = none := List.dlookup_eq_none.mpr hfresh
      rw [List.dlookup_cons_eq]
      by_cases hsame : b.unchanged h i r = true
      · rw [buildBlock_of_unchanged hsame, ih hrest, hlookup]
        simp only [if_pos hsame]
      · rw [buildBlock_of_changed hsame, ih hrest, hlookup]
        simp only [if_neg hsame, PersistentBlockTree.get_withValue, if_true]
    · rw [List.dlookup_cons_ne _ _ hi]
      by_cases hsame : b.unchanged h index r = true
      · rw [buildBlock_of_unchanged hsame, ih hrest]
      · rw [buildBlock_of_changed hsame, ih hrest]
        simp only [PersistentBlockTree.get_withValue, if_neg hi]

theorem changed_foldl_buildBlock :
    (entries.foldl (b.buildBlock h) (tree, changed)).2 = false ↔
      changed = false ∧ ∀ entry ∈ entries, b.unchanged h entry.1 entry.2 = true := by
  induction entries generalizing tree changed with
  | nil => simp
  | cons entry entries ih =>
    obtain ⟨index, r⟩ := entry
    rw [List.foldl_cons, List.forall_mem_cons]
    by_cases hsame : b.unchanged h index r = true
    · rw [buildBlock_of_unchanged hsame, ih]
      simp [hsame]
    · rw [buildBlock_of_changed hsame, ih]
      simp [hsame]

end

/-- What the loop of `build` leaves in a block is the part of the set. -/
theorem Builds.contents_built (hb : Builds h b s) {changed : Bool} :
    contents h ((b.dirtyBlocks.entries.foldl (b.buildBlock h) (b.base.blocks, changed)).1.get i) =
      part s i := by
  obtain ⟨s₀, hbase⟩ := hb.base
  rw [get_foldl_buildBlock b.dirtyBlocks.nodupKeys, ← hb.parts]
  show contents h (match b.dirtyBlocks.lookup i with | none => _ | some r => _) = _
  cases hlookup : b.dirtyBlocks.lookup i with
  | none => rw [ImmutableBitmapBuilder.view_clean hlookup]
  | some r =>
    rw [ImmutableBitmapBuilder.view_dirty hlookup]
    by_cases hsame : b.unchanged h i r = true
    · simp only [if_pos hsame]
      unfold ImmutableBitmapBuilder.unchanged at hsame
      rw [hbase.block] at hsame
      cases hblock : b.base.blocks.get i with
      | none =>
        rw [hblock] at hsame
        exact (of_decide_eq_true hsame).symm
      | some existing =>
        rw [hblock] at hsame
        exact of_decide_eq_true hsame
    · simp only [if_neg hsame]
      by_cases hempty : h.bits r = ∅
      · rw [if_pos hempty, hempty]
        rfl
      · rw [if_neg hempty]
        rfl

/-- A base whose blocks are the parts of the set denotes it. -/
theorem Builds.denotes_base (hb : Builds h b s)
    (hparts : ∀ i, contents h (b.base.blocks.get i) = part s i) : Denotes h b.base s := by
  obtain ⟨s₀, hbase⟩ := hb.base
  have hsame : s₀ = s := eq_of_parts fun i => by rw [← hbase.parts, hparts]
  exact hsame ▸ hbase

/-- The blocks that `build` leaves are nonempty ones of the base and dirty ones. -/
theorem Builds.get_built (hb : Builds h b s) {changed : Bool} {block : BitBlock}
    (hget : (b.dirtyBlocks.entries.foldl (b.buildBlock h) (b.base.blocks, changed)).1.get i =
      some block) :
    h.bits block.bits ≠ ∅ ∧
      (b.base.blocks.get i = some block ∨ b.dirtyBlocks.lookup i = some block.bits) := by
  obtain ⟨s₀, hbase⟩ := hb.base
  rw [get_foldl_buildBlock b.dirtyBlocks.nodupKeys] at hget
  change (match b.dirtyBlocks.lookup i with | none => _ | some r => _) = _ at hget
  cases hlookup : b.dirtyBlocks.lookup i with
  | none =>
    rw [hlookup] at hget
    exact ⟨hbase.nonempty i block hget, .inl hget⟩
  | some r =>
    rw [hlookup] at hget
    by_cases hsame : b.unchanged h i r = true
    · simp only [if_pos hsame] at hget
      exact ⟨hbase.nonempty i block hget, .inl hget⟩
    · simp only [if_neg hsame] at hget
      by_cases hempty : h.bits r = ∅
      · rw [if_pos hempty] at hget
        cases hget
      · rw [if_neg hempty] at hget
        obtain rfl := Option.some.inj hget
        exact ⟨hempty, .inr rfl⟩

/-- Where nothing is changed, the base is left. -/
theorem get_foldl_of_unchanged
    (hsame : (b.dirtyBlocks.entries.foldl (b.buildBlock h) (b.base.blocks, false)).2 = false) :
    (b.dirtyBlocks.entries.foldl (b.buildBlock h) (b.base.blocks, false)).1.get i =
      b.base.blocks.get i := by
  have hall := (changed_foldl_buildBlock.mp hsame).2
  rw [get_foldl_buildBlock b.dirtyBlocks.nodupKeys]
  cases hlookup : b.dirtyBlocks.entries.dlookup i with
  | none => rfl
  | some r => exact if_pos (hall ⟨i, r⟩ (List.of_mem_dlookup hlookup))

/-- A new bitmap with the counts of a builder and the parts of its set. -/
theorem Builds.denotes_new (hb : Builds h b s) {updated : PersistentBlockTree BitBlock}
    (hparts : ∀ i, contents h (updated.get i) = part s i)
    (hblocks : ∀ i block, updated.get i = some block → h.bits block.bits ≠ ∅ ∧
      (b.base.blocks.get i = some block ∨ b.dirtyBlocks.lookup i = some block.bits)) :
    Denotes (h.newBitmap updated b.blockCount b.cardinality).2
      (h.newBitmap updated b.blockCount b.cardinality).1 s where
  parts := hparts
  nonempty i block hget := (hblocks i block hget).1
  allocated i block hget := by
    obtain ⟨s₀, hbase⟩ := hb.base
    obtain hold | hdirty := (hblocks i block hget).2
    · exact (hbase.allocated i block hold).trans (Nat.lt_succ_self _)
    · exact (hb.allocated i _ hdirty).trans (Nat.lt_succ_self _)
  count i block hget := by
    refine hb.count i (Finset.nonempty_iff_ne_empty.mpr ?_)
    rw [← hparts]
    change updated.get i = some block at hget
    rw [hget]
    exact (hblocks i block hget).1
  documents := hb.documents
  cardinality := hb.cardinality

/-- The bitmap of a builder denotes what the builder does.  Its blocks are those of the base and
the dirty ones, which no builder writes any more. -/
theorem Builds.build (hb : Builds h b s) (hopen : b.built = false) :
    ∃ bitmap h', b.build h = .ok (bitmap, { b with built := true }, h') ∧
      Denotes h' bitmap s ∧ h'.bits = h.bits ∧ h.next ≤ h'.next ∧
      (bitmap = b.base ∨ bitmap.address = h.next ∧ h'.next = h.next + 1 ∧
        ∀ i block, bitmap.blocks.get i = some block →
          b.base.blocks.get i = some block ∨ b.dirtyBlocks.lookup i = some block.bits) := by
  obtain ⟨s₀, hbase⟩ := hb.base
  unfold ImmutableBitmapBuilder.build ImmutableBitmapBuilder.ensureOpen
  rw [hopen]
  by_cases hclean : b.dirtyBlocks.entries.isEmpty = true
  · refine ⟨b.base, h, ?_, hb.denotes_base fun i => ?_, rfl, le_rfl, .inl rfl⟩
    · simp only [hclean]
      rfl
    · have hlookup : b.dirtyBlocks.lookup i = none := by
        rw [AList.ext (t := ∅) (List.isEmpty_iff.mp hclean)]
        rfl
      rw [← hb.parts, ImmutableBitmapBuilder.view_clean hlookup]
  · have hparts : ∀ i, contents h ((b.dirtyBlocks.entries.foldl (b.buildBlock h)
        (b.base.blocks, false)).1.get i) = part s i := fun i => hb.contents_built
    have hblocks : ∀ i block, (b.dirtyBlocks.entries.foldl (b.buildBlock h)
        (b.base.blocks, false)).1.get i = some block → h.bits block.bits ≠ ∅ ∧
          (b.base.blocks.get i = some block ∨ b.dirtyBlocks.lookup i = some block.bits) :=
      fun i block hget => hb.get_built hget
    have hsame : (b.dirtyBlocks.entries.foldl (b.buildBlock h) (b.base.blocks, false)).2 = false →
        ∀ i, (b.dirtyBlocks.entries.foldl (b.buildBlock h) (b.base.blocks, false)).1.get i =
          b.base.blocks.get i := fun hsame i => get_foldl_of_unchanged hsame
    simp only [hclean]
    generalize b.dirtyBlocks.entries.foldl (b.buildBlock h) (b.base.blocks, false) = state at *
    obtain ⟨updated, changed⟩ := state
    cases changed with
    | false =>
      refine ⟨b.base, h, rfl, hb.denotes_base fun i => ?_, rfl, le_rfl, .inl rfl⟩
      rw [← hsame rfl, hparts]
    | true =>
      exact ⟨_, _, rfl, hb.denotes_new hparts hblocks, rfl, Nat.le_succ _, .inr ⟨rfl, rfl,
        fun i block hget => (hblocks i block hget).2⟩⟩

end GeneralSearch.Bitmap
