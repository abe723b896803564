import GeneralSearch.Bitmap.Operations

/-! The operations of a bitmap as operations on the set it denotes.  None changes an object that was
there before. -/

namespace GeneralSearch.Bitmap

variable {h : Heap} {s t : Finset ℕ} {i : ℕ} {docId : Int32}

/-- An operation on a bitmap: it changes nothing that was allocated, and its result is the bitmap
itself or a new object, whose blocks are those of the bitmap and new ones. -/
structure Publishes (h : Heap) (b : ImmutableBitmap) (h' : Heap) (result : ImmutableBitmap)
    (s : Finset ℕ) : Prop where
  denotes : Denotes h' result s
  next : h.next ≤ h'.next
  frame : ∀ r < h.next, h'.bits r = h.bits r
  fresh : result = b ∨ h.next ≤ result.address ∧ result.address < h'.next ∧
    ∀ i block, result.blocks.get i = some block →
      b.blocks.get i = some block ∨ h.next ≤ block.bits

section

variable {h' : Heap} {b other base result : ImmutableBitmap} {builder : ImmutableBitmapBuilder}

theorem Denotes.publishes (hb : Denotes h b s) : Publishes h b h b s :=
  ⟨hb, le_rfl, fun _ _ => rfl, .inl rfl⟩

/-- What a builder that was started on a bitmap builds. -/
theorem Builds.publishes (hb : Builds h' builder s) (hs : Steps h (.new base) h' builder) :
    ∃ result closed h'', builder.build h' = .ok (result, closed, h'') ∧
      Publishes h base h'' result s := by
  obtain ⟨result, h'', hok, hdenotes, hbits, hnext, hfresh⟩ := hb.build hs.built
  refine ⟨result, _, h'', hok, hdenotes, hs.next.trans hnext, fun r hr => ?_, ?_⟩
  · rw [hbits]
    exact hs.frame r hr fun i => nofun
  · obtain hsame | ⟨haddress, hnew, hblocks⟩ := hfresh
    · exact .inl (hsame.trans hs.base)
    · refine .inr ⟨haddress ▸ hs.next, by omega, fun i block hget => ?_⟩
      obtain hold | hdirty := hblocks i block hget
      · exact .inl ((congrArg (fun x => x.blocks.get i) hs.base).symm.trans hold)
      · obtain hnone | hlater := hs.dirty i _ hdirty
        · cases hnone
        · exact .inr hlater

/-- A bitmap with one block replaced by a new one, or by null. -/
theorem Denotes.replaced (hb : Denotes h b s) {contents : Finset ℕ}
    (hparts : ∀ j, part t j = if j = i then contents else part s j)
    (hnext : h.next < h'.next) (hold : ∀ r < h.next, h'.bits r = h.bits r)
    (hnew : h'.bits h.next = contents)
    (hblocks : ∀ j, result.blocks.get j =
      if j = i then if contents = ∅ then none else some ⟨h.next⟩ else b.blocks.get j)
    (hcount : b.blockCount ≤ result.blockCount)
    (hlast : contents.Nonempty → i < result.blockCount) (hdocuments : ∀ d ∈ t, d < 2 ^ 31)
    (hcardinality : result.cardinality = Int32.ofNat t.card)
    (haddress : h.next ≤ result.address ∧ result.address < h'.next) :
    Publishes h b h' result t := by
  have hcases : ∀ j block, result.blocks.get j = some block →
      j = i ∧ contents ≠ ∅ ∧ block = ⟨h.next⟩ ∨ j ≠ i ∧ b.blocks.get j = some block := by
    intro j block hget
    rw [hblocks] at hget
    split at hget
    · rename_i hj
      split at hget
      · cases hget
      · rename_i hne
        exact .inl ⟨hj, hne, (Option.some.inj hget).symm⟩
    · rename_i hj
      exact .inr ⟨hj, hget⟩
  refine ⟨⟨fun j => ?_, fun j block hget => ?_, fun j block hget => ?_, fun j block hget => ?_,
    hdocuments, hcardinality⟩, hnext.le, hold, .inr ⟨haddress.1, haddress.2, fun j block hget => ?_⟩⟩
  · rw [hblocks, hparts]
    by_cases hj : j = i
    · rw [if_pos hj, if_pos hj]
      split
      · rename_i hempty
        exact hempty.symm
      · exact hnew
    · rw [if_neg hj, if_neg hj, ← hb.parts]
      cases hget : b.blocks.get j with
      | none => rfl
      | some block => exact hold _ (hb.allocated j block hget)
  · obtain ⟨-, hne, rfl⟩ | ⟨-, hget⟩ := hcases j block hget
    · rw [hnew]
      exact hne
    · rw [hold _ (hb.allocated j block hget)]
      exact hb.nonempty j block hget
  · obtain ⟨-, -, rfl⟩ | ⟨-, hget⟩ := hcases j block hget
    · exact hnext
    · exact (hb.allocated j block hget).trans hnext
  · obtain ⟨rfl, hne, -⟩ | ⟨-, hget⟩ := hcases j block hget
    · exact hlast (Finset.nonempty_iff_ne_empty.mpr hne)
    · exact (hb.count j block hget).trans_le hcount
  · obtain ⟨-, -, rfl⟩ | ⟨-, hget⟩ := hcases j block hget
    · exact .inr le_rfl
    · exact .inl hget

/-- The heap after a copy was made and written. -/
theorem write_alloc {copied contents : Finset ℕ} :
    ((h.alloc copied).2.write (h.alloc copied).1 contents).bits h.next = contents ∧
      ∀ r < h.next, ((h.alloc copied).2.write (h.alloc copied).1 contents).bits r = h.bits r :=
  ⟨Heap.bits_write .., fun _ hr => (Heap.bits_write_of_ne hr.ne).trans (Heap.bits_alloc_of_lt hr)⟩

theorem Denotes.withSet (hb : Denotes h b s) (hd : 0 ≤ docId) :
    ∃ result h', b.withSet h docId = .ok (result, h') ∧
      Publishes h b h' result (insert docId.toNatClampNeg s) := by
  unfold ImmutableBitmap.withSet
  rw [if_neg (Int32.not_lt.mpr hd)]
  by_cases hget : b.get h docId = true
  · have hmem := (hb.get_iff.mp hget).2
    rw [if_pos hget]
    exact ⟨b, h, rfl, (Finset.insert_eq_of_mem hmem).symm ▸ hb.publishes⟩
  · have hmem : docId.toNatClampNeg ∉ s := fun hmem => hget (hb.get_iff.mpr ⟨hd, hmem⟩)
    rw [if_neg hget, hb.copyOrNew]
    simp only [Heap.bits_alloc]
    have hparts : ∀ j, part (insert docId.toNatClampNeg s) j = if j = blockIndex docId then
        insert (offset docId) (part s (blockIndex docId)) else part s j := by
      intro j
      rw [part_insert]
      exact ite_congr rfl (fun hj => hj ▸ rfl) fun _ => rfl
    have hdocuments : ∀ d ∈ insert docId.toNatClampNeg s, d < 2 ^ 31 :=
      Finset.forall_mem_insert _ _ _ |>.mpr ⟨docId.toNatClampNeg_lt, hb.documents⟩
    obtain ⟨hnew, hold⟩ := @write_alloc h (part s (blockIndex docId))
      (insert (offset docId) (part s (blockIndex docId)))
    refine ⟨_, _, rfl, hb.replaced hparts ?_ hold hnew (fun j => ?_) (le_max_left _ _)
      (fun _ => (Nat.lt_succ_self _).trans_le (le_max_right _ _)) hdocuments ?_ ?_⟩
    · exact Nat.lt_add_of_pos_right Nat.two_pos
    · rw [if_neg (Finset.insert_ne_empty _ _)]
      exact PersistentBlockTree.get_withValue
    · rw [← ofNat_card_insert hmem, ← hb.cardinality]
    · exact ⟨Nat.le_succ _, Nat.lt_succ_self _⟩

theorem Denotes.withClear (hb : Denotes h b s) (hd : 0 ≤ docId) :
    ∃ result h', b.withClear h docId = .ok (result, h') ∧
      Publishes h b h' result (s.erase docId.toNatClampNeg) := by
  unfold ImmutableBitmap.withClear
  rw [if_neg (Int32.not_lt.mpr hd)]
  by_cases hget : b.get h docId = true
  · have hmem := (hb.get_iff.mp hget).2
    have hoffset : offset docId ∈ part s (blockIndex docId) := mem_part_div_mod.mpr hmem
    obtain ⟨block, hblock⟩ := hb.nonempty_iff.mp ⟨_, hoffset⟩
    have hcopy : block.copyBits h = h.alloc (part s (blockIndex docId)) := by
      rw [← hb.copyOrNew, hb.block, hblock]
      rfl
    have hparts : ∀ j, part (s.erase docId.toNatClampNeg) j = if j = blockIndex docId then
        (part s (blockIndex docId)).erase (offset docId) else part s j := by
      intro j
      rw [part_erase]
      exact ite_congr rfl (fun hj => hj ▸ rfl) fun _ => rfl
    have hdocuments : ∀ d ∈ s.erase docId.toNatClampNeg, d < 2 ^ 31 := fun d hd =>
      hb.documents d (Finset.mem_of_mem_erase hd)
    obtain ⟨hnew, hold⟩ := @write_alloc h (part s (blockIndex docId))
      ((part s (blockIndex docId)).erase (offset docId))
    simp only [hget, hb.block, hblock, hcopy, Heap.bits_alloc, Heap.bits_write]
    refine ⟨_, _, rfl, hb.replaced hparts ?_ hold hnew (fun j => ?_) le_rfl (fun _ => ?_)
      hdocuments ?_ ?_⟩
    · exact Nat.lt_add_of_pos_right Nat.two_pos
    · exact PersistentBlockTree.get_withValue
    · exact hb.count _ block hblock
    · rw [← ofNat_card_erase hmem, ← hb.cardinality]
    · exact ⟨Nat.le_succ _, Nat.lt_succ_self _⟩
  · have hmem : docId.toNatClampNeg ∉ s := fun hmem => hget (hb.get_iff.mpr ⟨hd, hmem⟩)
    simp only [hget]
    exact ⟨b, h, rfl, (Finset.erase_eq_of_notMem hmem).symm ▸ hb.publishes⟩

/-! ### Binary operations -/

/-- Every visited document is one. -/
theorem Denotes.forEachSetBit_nonneg (hb : Denotes h b s) :
    ∀ docId ∈ b.forEachSetBit h, 0 ≤ docId := by
  intro docId hdoc
  obtain ⟨⟨index, block⟩, hentry, hdoc⟩ := List.mem_flatMap.mp hdoc
  obtain ⟨o, ho, rfl⟩ := List.mem_map.mp hdoc
  have hblock := PersistentBlockTree.mem_forEachPresent.mp hentry
  have hmem := ((hb.mem_bits hblock).mp ((Finset.mem_sort _).mp ho)).2
  rw [Int32.le_iff_toInt_le, Int32.toInt_ofNat_of_lt (hb.documents _ hmem)]
  exact Int.natCast_nonneg _

theorem Denotes.toFinset_forEachSetBit (hb : Denotes h b s) :
    ((b.forEachSetBit h).map Int32.toNatClampNeg).toFinset = s := by
  rw [hb.forEachSetBit, Finset.sort_toFinset]

/-- The loop of `and` sets the documents that the target has. -/
theorem Builds.foldlM_and (hb : Builds h builder s) (hopen : builder.built = false)
    (ht : Denotes h other t) (hapart : Apart builder other) {documents : List Int32}
    (hdocuments : ∀ docId ∈ documents, 0 ≤ docId) :
    ∃ builder' h', documents.foldlM other.andDocument (builder, h) = .ok (builder', h') ∧
      Builds h' builder' (s ∪ (documents.map Int32.toNatClampNeg).toFinset ∩ t) ∧
      Steps h builder h' builder' := by
  induction documents generalizing builder h s with
  | nil => exact ⟨builder, h, rfl, by simpa using hb, .refl⟩
  | cons docId documents ih =>
    obtain ⟨hd, hrest⟩ := List.forall_mem_cons.mp hdocuments
    rw [List.foldlM_cons]
    unfold ImmutableBitmap.andDocument
    by_cases hget : other.get h docId = true
    · have hmem := (ht.get_iff.mp hget).2
      obtain ⟨builder1, h1, hset, hbuilds, hfirst⟩ := hb.set hopen hd
      obtain ⟨builder2, h2, hfold, hlast, hsteps⟩ := ih hbuilds (hfirst.built.trans hopen)
        (ht.steps hfirst hapart) (hapart.steps hfirst ht) hrest
      refine ⟨builder2, h2, ?_, ?_, hfirst.trans hsteps⟩
      · simp only [if_pos hget, hset]
        exact hfold
      · rw [List.map_cons, List.toFinset_cons, Finset.insert_inter_of_mem hmem,
          Finset.union_insert, ← Finset.insert_union]
        exact hlast
    · have hmem : docId.toNatClampNeg ∉ t := fun hmem => hget (ht.get_iff.mpr ⟨hd, hmem⟩)
      obtain ⟨builder2, h2, hfold, hlast, hsteps⟩ := ih hb hopen ht hapart hrest
      refine ⟨builder2, h2, ?_, ?_, hsteps⟩
      · simp only [if_neg hget]
        exact hfold
      · rw [List.map_cons, List.toFinset_cons, Finset.insert_inter_of_notMem hmem]
        exact hlast

/-- The loop of `andNot` clears the visited documents. -/
theorem Builds.foldlM_clear (hb : Builds h builder s) (hopen : builder.built = false)
    {documents : List Int32} (hdocuments : ∀ docId ∈ documents, 0 ≤ docId) :
    ∃ builder' h', documents.foldlM (fun state docId => state.1.clear state.2 docId)
        (builder, h) = .ok (builder', h') ∧
      Builds h' builder' (s \ (documents.map Int32.toNatClampNeg).toFinset) ∧
      Steps h builder h' builder' := by
  induction documents generalizing builder h s with
  | nil => exact ⟨builder, h, rfl, by simpa using hb, .refl⟩
  | cons docId documents ih =>
    obtain ⟨hd, hrest⟩ := List.forall_mem_cons.mp hdocuments
    obtain ⟨builder1, h1, hclear, hbuilds, hfirst⟩ := hb.clear hopen hd
    obtain ⟨builder2, h2, hfold, hlast, hsteps⟩ := ih hbuilds (hfirst.built.trans hopen) hrest
    refine ⟨builder2, h2, ?_, ?_, hfirst.trans hsteps⟩
    · rw [List.foldlM_cons]
      simp only [hclear]
      exact hfold
    · rw [List.map_cons, List.toFinset_cons, Finset.sdiff_insert, ← Finset.erase_sdiff_comm]
      exact hlast

theorem Denotes.or (hb : Denotes h b s) (ht : Denotes h other t)
    (hsame : other.address = b.address → other = b) :
    ∃ result h', b.or h other = .ok (result, h') ∧ Publishes h b h' result (s ∪ t) := by
  unfold ImmutableBitmap.or
  by_cases hempty : other.isEmpty = true
  · rw [if_pos hempty, ht.isEmpty_iff.mp hempty, Finset.union_empty]
    exact ⟨b, h, rfl, hb.publishes⟩
  · rw [if_neg hempty]
    obtain ⟨builder, h1, hor, hbuilds, hsteps⟩ := hb.new.or rfl ht (fun _ _ hr => nomatch hr) hsame
    obtain ⟨result, closed, h2, hbuild, hpublishes⟩ := hbuilds.publishes hsteps
    refine ⟨result, h2, ?_, hpublishes⟩
    rw [hor]
    show (builder.build h1 >>= _) = _
    rw [hbuild]
    rfl

theorem Denotes.andNot (hb : Denotes h b s) (ht : Denotes h other t) :
    ∃ result h', b.andNot h other = .ok (result, h') ∧ Publishes h b h' result (s \ t) := by
  unfold ImmutableBitmap.andNot
  by_cases hempty : (b.isEmpty || other.isEmpty) = true
  · rw [if_pos hempty]
    have hsame : s \ t = s := by
      obtain h1 | h2 := Bool.or_eq_true _ _ |>.mp hempty
      · rw [hb.isEmpty_iff.mp h1, Finset.empty_sdiff]
      · rw [ht.isEmpty_iff.mp h2, Finset.sdiff_empty]
    exact ⟨b, h, rfl, hsame.symm ▸ hb.publishes⟩
  · rw [if_neg hempty]
    obtain ⟨builder, h1, hfold, hbuilds, hsteps⟩ := hb.new.foldlM_clear rfl ht.forEachSetBit_nonneg
    rw [ht.toFinset_forEachSetBit] at hbuilds
    obtain ⟨result, closed, h2, hbuild, hpublishes⟩ := hbuilds.publishes hsteps
    refine ⟨result, h2, ?_, hpublishes⟩
    rw [hfold]
    show (builder.build h1 >>= _) = _
    rw [hbuild]
    rfl

/-- A new empty bitmap, whatever bitmap it is compared with. -/
theorem publishes_empty :
    Publishes h b (ImmutableBitmap.empty h).2 (ImmutableBitmap.empty h).1 ∅ := by
  have hget : ∀ i block, (ImmutableBitmap.empty h).1.blocks.get i ≠ some block := fun i block =>
    PersistentBlockTree.get_empty.trans_ne nofun
  refine ⟨⟨fun i => ?_, fun i block hblock => absurd hblock (hget i block),
    fun i block hblock => absurd hblock (hget i block),
    fun i block hblock => absurd hblock (hget i block), fun d hd => absurd hd (Finset.notMem_empty d),
    rfl⟩, Nat.le_succ _, fun _ _ => rfl, .inr ⟨le_rfl, Nat.lt_succ_self _,
    fun i block hblock => absurd hblock (hget i block)⟩⟩
  rw [part_empty]
  exact congrArg (contents _) PersistentBlockTree.get_empty

/-- What is published on a new empty bitmap is new. -/
theorem Publishes.of_empty
    (hp : Publishes (ImmutableBitmap.empty h).2 (ImmutableBitmap.empty h).1 h' result s) :
    Publishes h b h' result s where
  denotes := hp.denotes
  next := (Nat.le_succ _).trans hp.next
  frame r hr := hp.frame r (hr.trans (Nat.lt_succ_self _))
  fresh := by
    have hempty : ∀ i block, (ImmutableBitmap.empty h).1.blocks.get i ≠ some block :=
      fun i block => PersistentBlockTree.get_empty.trans_ne nofun
    obtain rfl | ⟨haddress, hlt, hblocks⟩ := hp.fresh
    · exact .inr ⟨le_rfl, hp.next, fun i block hget => absurd hget (hempty i block)⟩
    · refine .inr ⟨(Nat.le_succ _).trans haddress, hlt, fun i block hget => ?_⟩
      obtain hold | hnew := hblocks i block hget
      · exact absurd hold (hempty i block)
      · exact .inr ((Nat.le_succ _).trans hnew)

/-- The work of `and`, with the operand that is walked and the other one. -/
theorem Denotes.intersect {source target : ImmutableBitmap} (hs : Denotes h source s)
    (ht : Denotes h target t) :
    ∃ builder h1 result closed h', (source.forEachSetBit (ImmutableBitmap.empty h).2).foldlM
        target.andDocument (.new (ImmutableBitmap.empty h).1, (ImmutableBitmap.empty h).2) =
          .ok (builder, h1) ∧
      builder.build h1 = .ok (result, closed, h') ∧ Publishes h b h' result (s ∩ t) := by
  have hempty : Publishes h b (ImmutableBitmap.empty h).2 (ImmutableBitmap.empty h).1 ∅ :=
    publishes_empty
  have hs' : Denotes (ImmutableBitmap.empty h).2 source s :=
    hs.frame hempty.next fun i block hget => hempty.frame _ (hs.allocated i block hget)
  have ht' : Denotes (ImmutableBitmap.empty h).2 target t :=
    ht.frame hempty.next fun i block hget => hempty.frame _ (ht.allocated i block hget)
  obtain ⟨builder, h1, hfold, hbuilds, hsteps⟩ := hempty.denotes.new.foldlM_and rfl ht'
    (fun _ _ hr => nomatch hr) hs'.forEachSetBit_nonneg
  rw [hs'.toFinset_forEachSetBit, Finset.empty_union] at hbuilds
  obtain ⟨result, closed, h2, hbuild, hpublishes⟩ := hbuilds.publishes hsteps
  exact ⟨builder, h1, result, closed, h2, hfold, hbuild, hpublishes.of_empty⟩

theorem Denotes.and (hb : Denotes h b s) (ht : Denotes h other t) :
    ∃ result h', b.and h other = .ok (result, h') ∧ Publishes h b h' result (s ∩ t) := by
  unfold ImmutableBitmap.and
  by_cases hle : b.cardinality ≤ other.cardinality
  · obtain ⟨builder, h1, result, closed, h2, hfold, hbuild, hpublishes⟩ := hb.intersect ht (b := b)
    refine ⟨result, h2, ?_, hpublishes⟩
    simp only [if_pos hle]
    rw [hfold]
    show (builder.build h1 >>= _) = _
    rw [hbuild]
    rfl
  · obtain ⟨builder, h1, result, closed, h2, hfold, hbuild, hpublishes⟩ := ht.intersect hb (b := b)
    rw [Finset.inter_comm] at hpublishes
    refine ⟨result, h2, ?_, hpublishes⟩
    simp only [if_neg hle]
    rw [hfold]
    show (builder.build h1 >>= _) = _
    rw [hbuild]
    rfl

end

end GeneralSearch.Bitmap
