import GeneralSearch.Replication.Ledger
import GeneralSearch.Replication.Protocol
import GeneralSearch.Replication.World

/-! Every operation of a store keeps the world lawful, as long as what it is given rests on the
other voters' directories: the bases of a selection, a snapshot, an acceptance or a proof. -/

namespace GeneralSearch.Replication

open Lib

variable {D : Type} [DecidableEq D] {m : Manifest D} {sha : Sha m}

namespace Memory

variable {disk : Disk m} {s : Memory m} {replacements : List (Accept D)}

/-- The last row of the ledger is the latest acceptance of the last slot. -/
theorem Passes.last_accepted (h : Passes sha disk s replacements) :
    s.acceptance s.acceptedThrough = disk.accepted.getLast? ∧
      ∀ u ∈ disk.accepted.getLast?, u.entry.index = s.acceptedThrough := by
  have key : s.unproven.acceptance s.unproven.acceptedThrough = disk.accepted.getLast? ∧
      ∀ u ∈ disk.accepted.getLast?, u.entry.index = s.unproven.acceptedThrough := by
    refine foldlM_ok_induction (P := fun seen c => c.1.acceptance c.1.acceptedThrough =
      seen.getLast? ∧ ∀ u ∈ seen.getLast?, u.entry.index = c.1.acceptedThrough) h.accepts ?_ ?_
    · refine ⟨?_, by simp⟩
      rw [List.getLast?_nil, acceptance_eq_none]
      exact .inl (le_refl _)
    · rintro seen row ⟨c, r⟩ c' - hstep
      obtain ⟨-, -, ⟨hlow, hhigh⟩, -, -, rfl⟩ := loadAccept_eq_ok.mp hstep
      have hthrough : (c.pushAccept row).acceptedThrough = row.entry.index := by
        rw [acceptedThrough_pushAccept hlow (by omega)]
        omega
      rw [List.getLast?_concat]
      show (c.pushAccept row).acceptance (c.pushAccept row).acceptedThrough = _ ∧
        ∀ u ∈ some row, u.entry.index = (c.pushAccept row).acceptedThrough
      rw [hthrough, acceptance_pushAccept hlow (by omega), if_pos rfl]
      refine ⟨rfl, ?_⟩
      rintro u ⟨⟩
      rfl
  exact key

theorem Passes.unresolved_eq (h : Passes sha disk s replacements) {u : Accept D} :
    u ∈ s.unresolved ↔ u ∈ disk.accepted.getLast? ∧ u.entry.index = s.provenThrough + 1 := by
  obtain ⟨hlast, hindex⟩ := h.last_accepted
  have hslots := h.slots
  have hproven := h.proven_eq.2
  unfold unresolved
  rw [hlast]
  constructor
  · intro hu
    split at hu
    · rename_i hlt
      refine ⟨hu, ?_⟩
      rw [hindex u hu]
      unfold provenThrough acceptedThrough at hlt ⊢
      omega
    · cases hu
  · rintro ⟨hu, hnext⟩
    rw [hindex u hu] at hnext
    rw [if_pos (by omega)]
    exact hu

theorem Passes.unresolved_mem (h : Passes sha disk s replacements) {u : Accept D}
    (hu : u ∈ s.unresolved) : u ∈ disk.accepted :=
  List.mem_of_getLast? (h.unresolved_eq.mp hu).1

omit [DecidableEq D] in
theorem length_anchors (h : s.proven.length ≤ s.accepted.length) :
    (s.anchors sha).length = s.provenThrough := by
  unfold anchors provenThrough baseIndex Snapshot.index
  rw [List.length_append, List.length_map, List.length_take]
  omega

/-- The snapshot of a store is of its proven prefix. -/
theorem snapshot_eq_ok {application : Bytes} {image : Snapshot m}
    (h : s.snapshot sha application = .ok image) : image.anchors = s.anchors sha ∧
      (image.terminalProof = s.base.terminalProof ∨
        image.terminalProof = s.proven.getLast?) := by
  unfold snapshot at h
  split at h
  · rename_i hthrough
    simp only [bind_eq_ok, need_eq_ok] at h
    obtain ⟨_, -, h⟩ := h
    cases h
    have hnil : s.proven = [] := by
      unfold provenThrough at hthrough
      exact List.eq_nil_of_length_eq_zero (by omega)
    refine ⟨?_, .inl rfl⟩
    unfold anchors
    rw [hnil]
    simp
  · split at h
    · cases h
      exact ⟨rfl, .inr rfl⟩
    · cases h

omit [DecidableEq D] in
/-- A new acceptance is above the proven prefix. -/
theorem anchors_pushAccept {row : Accept D} (h : s.provenThrough < row.entry.index)
    (hhigh : row.entry.index ≤ s.acceptedThrough + 1) :
    (s.pushAccept row).anchors sha = s.anchors sha := by
  unfold anchors
  congr 2
  show (pushSlot s.accepted (row.entry.index - s.baseIndex - 1) row).take s.proven.length =
    s.accepted.take s.proven.length
  unfold provenThrough at h
  unfold acceptedThrough at hhigh
  refine List.ext_getElem? fun i => ?_
  rw [List.getElem?_take, List.getElem?_take]
  split
  · rw [getElem?_pushSlot row (by omega), if_neg (by omega)]
  · rfl

/-- The proof of the next slot settles its latest acceptance. -/
theorem chain_prove {W : World m} {row : Proof m} {sequence : ℕ}
    (h : Chain sha W (s.anchors sha)) (hslots : s.proven.length ≤ s.accepted.length)
    (hnext : row.index = s.provenThrough + 1) (hmatch : s.matchingAcceptance sha row = .ok ())
    (hrow : Certified sha W row) :
    Chain sha W (Memory.anchors sha
      { s with proven := s.proven ++ [row], applicationSequence := sequence }) := by
  obtain ⟨slot, hslot, hdigest⟩ : ∃ slot, s.slot? row.index = some slot ∧
      sha.entry slot.latest.entry = row.entryDigest := by
    unfold matchingAcceptance at hmatch
    split at hmatch
    · cases hmatch
    · rename_i slot hslot
      split at hmatch
      · cases hmatch
      · simp only [bind_eq_ok, need_eq_ok] at hmatch
        obtain ⟨_, -, _, -, _, hlatest, -⟩ := hmatch
        exact ⟨slot, hslot, hlatest⟩
  have hget : s.accepted[s.proven.length]? = some slot := by
    unfold slot? at hslot
    unfold provenThrough at hnext
    rw [if_neg (by omega), show row.index - s.baseIndex - 1 = s.proven.length by omega] at hslot
    exact hslot
  have hanchors : Memory.anchors sha
      { s with proven := s.proven ++ [row], applicationSequence := sequence } =
        s.anchors sha ++ [anchor sha slot.latest.entry] := by
    show s.base.anchors ++ (s.accepted.take (s.proven ++ [row]).length).map _ = _
    rw [List.length_append, List.length_singleton, List.take_add_one, hget, List.map_append,
      ← List.append_assoc]
    rfl
  rw [hanchors]
  intro i a hi
  rw [List.getElem?_append] at hi
  split at hi
  · exact h i a hi
  · rename_i hlen
    rw [length_anchors hslots] at hi hlen
    obtain ⟨x, hx, hxd⟩ := hrow.chosen
    have hi0 : i - s.provenThrough = 0 := by
      by_contra hne
      rw [List.getElem?_eq_none (by rw [List.length_singleton]; omega)] at hi
      cases hi
    rw [hi0] at hi
    cases hi
    have hxslot : x = slot.latest.entry := sha.entry_injective (hxd.trans hdigest.symm)
    rw [show i + 1 = row.index by omega]
    exact ⟨slot.latest.entry, ⟨_, hxslot ▸ hx⟩, rfl⟩

/-- The proven prefix of a loaded memory is settled when its base and its proofs are. -/
theorem Passes.chain (h : Passes sha disk s replacements) {W : World m}
    (hbase : Chain sha W s.base.anchors) (hproofs : ∀ p ∈ disk.proofs, Certified sha W p) :
    Chain sha W (s.anchors sha) := by
  have key : (∀ p ∈ disk.proofs, Certified sha W p) → Chain sha W (s.anchors sha) ∧
      s.proven.length ≤ s.accepted.length := by
    refine foldlM_ok_induction (P := fun seen c => (∀ p ∈ seen, Certified sha W p) →
      Chain sha W (c.anchors sha) ∧ c.proven.length ≤ c.accepted.length) h.proofs ?_ ?_
    · intro _
      refine ⟨?_, Nat.zero_le _⟩
      show Chain sha W (s.base.anchors ++ (s.accepted.take 0).map _)
      rw [List.take_zero, List.map_nil, List.append_nil]
      exact hbase
    · intro seen row c c' hc hstep hall
      obtain ⟨⟨hnext, hle⟩, hmatch, sequence, -, rfl⟩ := loadProof_eq_ok.mp hstep
      obtain ⟨hchain, hslots⟩ := hc fun p hp => hall p (by simp [hp])
      refine ⟨chain_prove hchain hslots hnext hmatch (hall row (by simp)), ?_⟩
      show (c.proven ++ [row]).length ≤ c.accepted.length
      rw [List.length_append, List.length_singleton]
      unfold provenThrough at hnext
      unfold acceptedThrough at hle
      omega
  exact (key hproofs).1

end Memory

/-- The directories, with that of a store. -/
def World.put (W : World m) (s : Store m) : World m := Function.update W s.node s.disk

namespace Store

variable {W : World m} {s s' : Store m}

/-- A store among the directories of the others: the world is lawful, has only grown since `W`, and
what the store takes for proven is settled. -/
structure Holds (sha : Sha m) (W : World m) (s : Store m) : Prop where
  grows : (W s.node).Grows s.disk
  lawful : Lawful sha (W.put s)
  chain : Chain sha (W.put s) (s.anchors sha)
  base : ∀ p ∈ s.base.terminalProof, Certified sha (W.put s) p
  proven : ∀ p ∈ s.proven, Certified sha (W.put s) p
  slots : s.proven.length ≤ s.accepted.length
  live : s.failed = false → s.base = s.disk.base ∧
    ∃ replacements, Memory.Passes sha s.disk s.toMemory replacements

theorem Holds.own (_ : Holds sha W s) : W.put s s.node = s.disk := Function.update_self _ _ _

theorem Holds.sound (h : Holds sha W s) : s.disk.Sound s.node := h.own ▸ h.lawful.sound s.node

theorem Holds.supported (h : Holds sha W s) : s.disk.Supported sha (W.put s) :=
  h.own ▸ h.lawful.supported s.node

theorem Holds.length (h : Holds sha W s) : (s.anchors sha).length = s.provenThrough :=
  Memory.length_anchors h.slots

/-- The cut of the directory is the one in memory. -/
theorem Holds.cut (h : Holds sha W s) (hlive : s.failed = false) :
    s.disk.cut = s.provenThrough := by
  obtain ⟨hbase, _, hpasses⟩ := h.live hlive
  unfold Disk.cut Memory.provenThrough Memory.baseIndex
  rw [hbase, hpasses.proven_eq.1]

theorem Holds.promise_mem (h : Holds sha W s) (hlive : s.failed = false) :
    s.promise ∈ s.disk.promises := by
  obtain ⟨-, _, hpasses⟩ := h.live hlive
  rw [← hpasses.grants_eq.1]
  exact hpasses.promise_mem

theorem Holds.epoch_le (h : Holds sha W s) (hlive : s.failed = false) {b : Ballot}
    (hb : b ∈ s.disk.promises) : b.epoch ≤ s.promise.epoch := by
  obtain ⟨-, _, hpasses⟩ := h.live hlive
  rw [← hpasses.grants_eq.1] at hb
  exact hpasses.epoch_le hb

theorem Holds.same (h : Holds sha W s) (hs : Same s s') : Holds sha W s' := by
  obtain ⟨mem, node, disk, around, failed⟩ := s
  obtain ⟨mem', node', disk', around', failed'⟩ := s'
  obtain ⟨hmemory, hdisk, hnode, hfailed⟩ := hs
  simp only at hmemory hdisk hnode hfailed
  subst hmemory hdisk hnode
  exact ⟨h.grows, h.lawful, h.chain, h.base, h.proven, h.slots, fun hf => h.live (hfailed hf)⟩

theorem Holds.world (h : Holds sha W s) {t : Store m} (hnode : t.node = s.node)
    (hgrows : s.disk.Grows t.disk) : (W.put s).Grows (W.put t) := by
  have hput : W.put t = Function.update (W.put s) s.node t.disk := by
    unfold World.put
    rw [hnode, Function.update_idem]
  rw [hput]
  exact .update _ (h.own.symm ▸ hgrows)

/-- A change of the store's own directory. -/
theorem Holds.change (h : Holds sha W s) {t : Store m} (hnode : t.node = s.node)
    (hgrows : s.disk.Grows t.disk) (hsound : t.disk.Sound s.node)
    (hsupported : (W.put s).Grows (W.put t) → t.disk.Supported sha (W.put t)) :
    (W t.node).Grows t.disk ∧ Lawful sha (W.put t) ∧ (W.put s).Grows (W.put t) := by
  have hput : W.put t = Function.update (W.put s) s.node t.disk := by
    unfold World.put
    rw [hnode, Function.update_idem]
  have hgrows' : (W.put s s.node).Grows t.disk := h.own.symm ▸ hgrows
  have hworld := h.world hnode hgrows
  refine ⟨hnode ▸ h.grows.trans hgrows, ?_, hworld⟩
  rw [hput]
  exact h.lawful.update hgrows' hsound (hput ▸ hsupported hworld)

/-- The snapshot of a store rests on the world. -/
theorem Holds.snapshot (h : Holds sha W s) {application : Bytes} {image : Snapshot m}
    (himage : s.snapshot sha application = .ok image) :
    Backed sha (W.put s) image ∧ image.index = s.provenThrough := by
  obtain ⟨hanchors, hterminal⟩ := Memory.snapshot_eq_ok himage
  refine ⟨⟨hanchors ▸ h.chain, fun p hp => ?_⟩, ?_⟩
  · rcases hterminal with hterminal | hterminal
    · exact h.base p (hterminal ▸ hp)
    · rw [hterminal] at hp
      exact h.proven p (List.mem_of_getLast? hp)
  · unfold Snapshot.index
    rw [hanchors, h.length]

/-! ### Promises and bases -/

theorem Holds.promised (h : Holds sha W s) (hlive : s.failed = false) {row : Ballot}
    (hrow : s.promise.epoch < row.epoch) (hcount : s.grants.length < maxPromises) :
    Holds sha W (s.promised row) := by
  have hs := h.sound
  have hp := h.supported
  obtain ⟨hgrows, hlawful, hworld⟩ := h.change (t := s.promised row) rfl
    ⟨fun _ hx => hx, fun _ hx => hx, fun _ hx => hx, le_refl _⟩
    ⟨fun r hr => List.mem_append_left _ (hs.granted r hr), hs.single, hs.accepted, hs.proofs,
      hs.covered, fun b hb => ⟨(hs.node b hb).1, List.mem_append_left _ (hs.node b hb).2⟩,
      hs.covers, hs.reported, hs.bases⟩
    fun hW => ⟨(hp.mono hW).votes, (hp.mono hW).proofs, (hp.mono hW).snapshot, (hp.mono hW).bases,
      (hp.mono hW).selected⟩
  refine ⟨hgrows, hlawful, h.chain.mono hworld, fun p hp => (h.base p hp).mono hworld,
    fun p hp => (h.proven p hp).mono hworld, h.slots, fun _ => ?_⟩
  obtain ⟨hbase, replacements, hpasses⟩ := h.live hlive
  exact ⟨hbase, replacements, hpasses.promise hrow hcount⟩

/-- The basis covers every earlier acceptance, because they are all below the new promise. -/
theorem Holds.withBasis (h : Holds sha W s) (hlive : s.failed = false) {requester : Node}
    {image : Snapshot m} {basis : Basis m} (hbasis : Describes s image basis)
    (himage : Backed sha (W.put s) image) (hindex : image.index = s.provenThrough)
    (hnew : ∀ row ∈ s.disk.voted, row.ballot.epoch < s.promise.epoch) :
    Holds sha W (s.frozen requester basis) ∧ basis ∈ (s.frozen requester basis).disk.frozen := by
  have hs := h.sound
  have hp := h.supported
  obtain ⟨hbase, replacements, hpasses⟩ := h.live hlive
  have hcut := h.cut hlive
  have hmem : ∀ b ∈ s.disk.frozen ++ [basis], b ∈ s.disk.frozen ∨ b = basis := by
    intro b hb
    simpa using hb
  have hsound : (s.frozen requester basis).disk.Sound s.node := by
    refine ⟨hs.granted, hs.single, hs.accepted, hs.proofs, hs.covered, ?_, ?_, ?_, ?_⟩
    · intro b hb
      rcases hmem b hb with hb | rfl
      · exact hs.node b hb
      · refine ⟨hbasis.node, ?_⟩
        rw [hbasis.ballot]
        exact h.promise_mem hlive
    · intro b hb row hrow hlt
      rcases hmem b hb with hb | rfl
      · exact hs.covers b hb row hrow hlt
      · rw [hbasis.snapshot, hindex, ← hcut]
        rcases hs.covered row hrow with hle | ⟨heq, last, hlast, hnext, hle⟩
        · exact .inl hle
        · refine .inr ⟨heq, last, ?_, hle⟩
          rw [hbasis.accepted]
          exact hpasses.unresolved_eq.mpr ⟨hlast, hcut ▸ hnext⟩
    · intro b hb last hlast
      rcases hmem b hb with hb | rfl
      · exact hs.reported b hb last hlast
      · rw [hbasis.accepted] at hlast
        have hvoted := hs.accepted (hpasses.unresolved_mem hlast)
        refine ⟨hvoted, ?_⟩
        rw [hbasis.ballot]
        exact hnew last hvoted
    · intro r b hb
      rw [frozen_basis, Function.update_apply] at hb
      split at hb
      · cases hb
        exact List.mem_append_right _ (List.mem_singleton_self _)
      · exact List.mem_append_left _ (hs.bases r b hb)
  obtain ⟨hgrows, hlawful, hworld⟩ := h.change (t := s.frozen requester basis) rfl
    ⟨fun _ hx => hx, fun _ hx => hx, fun _ hx => List.mem_append_left _ hx, le_refl _⟩ hsound
    fun hW => ⟨(hp.mono hW).votes, (hp.mono hW).proofs, (hp.mono hW).snapshot, fun b hb => by
      rcases hmem b hb with hb | rfl
      · exact (hp.mono hW).bases b hb
      · rw [hbasis.snapshot]
        exact himage.mono hW, (hp.mono hW).selected⟩
  refine ⟨⟨hgrows, hlawful, h.chain.mono hworld, fun p hp => (h.base p hp).mono hworld,
    fun p hp => (h.proven p hp).mono hworld, h.slots, fun _ => ?_⟩,
    List.mem_append_right _ (List.mem_singleton_self _)⟩
  exact ⟨hbase, replacements, hpasses.congr rfl rfl rfl⟩

/-! ### Selections and generations -/

theorem Holds.selecting (h : Holds sha W s) (hlive : s.failed = false) {decision : Selection m}
    (hbases : ∀ basis ∈ decision.bases, Froze (W.put s) basis) :
    Holds sha W (s.selecting decision) := by
  have hs := h.sound
  have hp := h.supported
  obtain ⟨hgrows, hlawful, hworld⟩ := h.change (t := s.selecting decision) rfl
    ⟨fun _ hx => hx, fun _ hx => hx, fun _ hx => hx, le_refl _⟩
    ⟨hs.granted, hs.single, hs.accepted, hs.proofs, hs.covered, hs.node, hs.covers, hs.reported,
      hs.bases⟩
    fun hW => ⟨(hp.mono hW).votes, (hp.mono hW).proofs, (hp.mono hW).snapshot, (hp.mono hW).bases,
      by
        rintro e ⟨⟩ basis hbasis
        exact (hbases basis hbasis).mono hW⟩
  refine ⟨hgrows, hlawful, h.chain.mono hworld, fun p hp => (h.base p hp).mono hworld,
    fun p hp => (h.proven p hp).mono hworld, h.slots, fun _ => ?_⟩
  obtain ⟨hbase, replacements, hpasses⟩ := h.live hlive
  exact ⟨hbase, replacements, hpasses.selecting (some decision) _⟩

/-- A selection that is retained already is only remembered. -/
theorem Holds.reselecting (h : Holds sha W s) (selected : Option (Selection m)) :
    Holds sha W { s with selected } := by
  refine ⟨h.grows, h.lawful, h.chain, h.base, h.proven, h.slots, fun hlive => ?_⟩
  obtain ⟨hbase, replacements, hpasses⟩ := h.live hlive
  exact ⟨hbase, replacements, hpasses.selecting selected s.disk.selected⟩

/-- The directory after an installation keeps every acceptance above the cut. -/
theorem Holds.installed_sound (h : Holds sha W s) (hlive : s.failed = false) {image : Snapshot m}
    (hi : Installable sha s image) : (s.installed image).disk.Sound s.node ∧
      s.disk.Grows (s.installed image).disk := by
  have hs := h.sound
  obtain ⟨hbase, replacements, hpasses⟩ := h.live hlive
  have hcut := h.cut hlive
  have hcut' : (s.installed image).disk.cut = image.index := rfl
  have hcovers : s.disk.cut ≤ image.index := hcut ▸ hi.covers
  refine ⟨⟨hs.granted, hs.single, ?_, ?_, ?_, hs.node, hs.covers, hs.reported, hs.bases⟩,
    fun _ hx => hx, fun _ hx => hx, fun _ hx => hx, hcovers⟩
  · intro row hrow
    change row ∈ (s.kept image).toList at hrow
    rw [Option.mem_toList] at hrow
    unfold kept at hrow
    split at hrow
    · exact hs.accepted (hpasses.acceptance_mem hrow).1
    · cases hrow
  · intro p hp
    cases hp
  · intro row hrow
    rw [hcut']
    rcases hs.covered row hrow with hle | ⟨heq, last, hlast, hnext, hle⟩
    · exact .inl (hle.trans hcovers)
    · by_cases habove : s.disk.cut + 1 ≤ image.index
      · exact .inl (heq.trans_le habove)
      · -- the cut does not move, so the unresolved acceptance is kept
        have himage : image.index = s.disk.cut := by omega
        obtain ⟨hacceptance, hthrough⟩ := hpasses.last_accepted
        have hkept : s.kept image = some last := by
          unfold kept
          rw [if_pos, hacceptance]
          · exact hlast
          · rw [← hthrough last hlast]
            omega
        refine .inr ⟨himage ▸ heq, last, ?_, himage ▸ hnext, hle⟩
        show last ∈ (s.kept image).toList.getLast?
        rw [hkept]
        rfl

/-- What follows from the directory change of an installation. -/
theorem Holds.installed (h : Holds sha W s) (hlive : s.failed = false) {image : Snapshot m}
    (hi : Installable sha s image) (himage : Backed sha (W.put s) image)
    (hnode : s'.node = s.node) (hdisk : s'.disk = (s.installed image).disk) :
    (W s'.node).Grows s'.disk ∧ Lawful sha (W.put s') ∧ (W.put s).Grows (W.put s') := by
  obtain ⟨hsound, hgrows⟩ := h.installed_sound hlive hi
  have hp := h.supported
  refine h.change hnode (hdisk ▸ hgrows) (hdisk ▸ hsound) fun hW => ?_
  rw [hdisk]
  refine ⟨(hp.mono hW).votes, (hp.mono hW).proofs, ?_, (hp.mono hW).bases, (hp.mono hW).selected⟩
  rintro t ⟨⟩
  exact himage.mono hW

theorem Holds.loaded (h : Holds sha W s) (hlive : s.failed = false) {image : Snapshot m}
    (hi : Installable sha s image) (himage : Backed sha (W.put s) image)
    (hnode : s'.node = s.node) (hdisk : s'.disk = (s.installed image).disk)
    (hload : Memory.load sha (s.installed image).disk image s.selected = .ok s'.toMemory) :
    Holds sha W s' ∧ s'.provenThrough = image.index ∧ s'.selected = s.selected ∧
      s'.promise = s.promise := by
  obtain ⟨hgrows, hlawful, hworld⟩ := h.installed hlive hi himage hnode hdisk
  obtain ⟨hbase, hselected, replacements, hloads⟩ := Memory.load_eq_ok.mp hload
  have hnil : s'.proven = [] := hloads.proven_eq.1
  have hchain : Chain sha (W.put s') (s'.anchors sha) := by
    refine hloads.chain ?_ fun p hp => by cases hp
    rw [hbase]
    exact himage.chain.mono hworld
  refine ⟨⟨hgrows, hlawful, hchain, fun p hp => ?_, ?_, hloads.proven_eq.2, fun _ => ⟨?_, ?_⟩⟩, ?_,
    hselected, ?_⟩
  · rw [hbase] at hp
    exact (himage.terminal p hp).mono hworld
  · rw [hnil]
    intro p hp
    cases hp
  · rw [hbase, hdisk]
    rfl
  · rw [hdisk]
    exact ⟨replacements, hloads.toPasses⟩
  · unfold Memory.provenThrough Memory.baseIndex
    rw [hnil, hbase]
    rfl
  · obtain ⟨-, _, hpasses⟩ := h.live hlive
    have hgrants : s'.grants = s.grants := hloads.grants_eq.1.trans hpasses.grants_eq.1.symm
    have hlast := hloads.last
    rw [hgrants, hpasses.last] at hlast
    exact (Option.some.inj hlast).symm

theorem Holds.installs (h : Holds sha W s) (hlive : s.failed = false) {image : Snapshot m}
    (hi : Installs sha s image s') (himage : Backed sha (W.put s) image) :
    Holds sha W s' ∧ s'.provenThrough = image.index ∧ s'.selected = s.selected ∧
      s'.promise = s.promise := by
  obtain ⟨loaded, hload, -, rfl⟩ := hi.loads
  exact h.loaded hlive hi.checked himage rfl rfl hload

/-- Also a voter that is stopped in an installation remembers nothing that is not settled. -/
theorem Holds.interrupted (h : Holds sha W s) (hlive : s.failed = false) {image : Snapshot m}
    (hi : Interrupted sha s image s') (himage : Backed sha (W.put s) image) : Holds sha W s' ∧
      s.provenThrough ≤ s'.provenThrough ∧ s'.selected = s.selected := by
  rcases hi with hsame | hi
  · refine ⟨h.same hsame, ?_, ?_⟩
    · rw [hsame.memory]
    · rw [hsame.memory]
  · rcases hi.memory with hmemory | hload
    · obtain ⟨hgrows, hlawful, hworld⟩ := h.installed hlive hi.checked himage hi.node hi.disk
      refine ⟨⟨hgrows, hlawful, ?_, ?_, ?_, ?_, fun hf => ?_⟩, ?_, ?_⟩
      · rw [hmemory]
        exact h.chain.mono hworld
      · rw [hmemory]
        exact fun p hp => (h.base p hp).mono hworld
      · rw [hmemory]
        exact fun p hp => (h.proven p hp).mono hworld
      · rw [hmemory]
        exact h.slots
      · rw [hi.failed] at hf
        cases hf
      · rw [hmemory]
      · rw [hmemory]
    · obtain ⟨hholds, hthrough, hselected, -⟩ :=
        h.loaded hlive hi.checked himage hi.node hi.disk hload
      exact ⟨hholds, hthrough ▸ hi.checked.covers, hselected⟩

/-! ### Acceptances and proofs -/

theorem Holds.accepting (h : Holds sha W s) (hlive : s.failed = false) {row : Accept D}
    (hrow : Acceptable sha s row) (hjustified : Justified sha (W.put s) row)
    (hproposed : Proposed (W.put (s.accepting row)) row) : Holds sha W (s.accepting row) := by
  have hs := h.sound
  have hp := h.supported
  obtain ⟨hbase, replacements, hpasses⟩ := h.live hlive
  have hcut := h.cut hlive
  obtain ⟨hnext, hlow, hhigh⟩ := hrow.index_eq hpasses
  have hmem : ∀ r ∈ s.disk.voted ++ [row], r ∈ s.disk.voted ∨ r = row := by
    intro r hr
    simpa using hr
  -- an earlier acceptance of the slot is at a lower ballot
  have hlower : ∀ r ∈ s.disk.voted, r.entry.index = row.entry.index →
      r.ballot.epoch < row.ballot.epoch := by
    intro r hr hindex
    rcases hs.covered r hr with hle | ⟨-, last, hlast, hlastIndex, hle⟩
    · omega
    · obtain ⟨hacceptance, hthrough⟩ := hpasses.last_accepted
      rw [← hthrough last hlast, hlastIndex, hcut, ← hnext] at hacceptance
      exact hle.trans_lt (hrow.replaces last (hacceptance.trans hlast)).2.2.1
  have hsound : (s.accepting row).disk.Sound s.node := by
    refine ⟨?_, ?_, ?_, hs.proofs, ?_, hs.node, ?_, ?_, hs.bases⟩
    · intro r hr
      rcases hmem r hr with hr | rfl
      · exact hs.granted r hr
      · rw [hrow.ballot]
        exact h.promise_mem hlive
    · intro r hr r' hr' hepoch hindex
      rcases hmem r hr with hold | hnew <;> rcases hmem r' hr' with hold' | hnew'
      · exact hs.single r hold r' hold' hepoch hindex
      · rw [hnew'] at hepoch hindex
        have := hlower r hold hindex
        omega
      · rw [hnew] at hepoch hindex
        have := hlower r' hold' hindex.symm
        omega
      · rw [hnew, hnew']
    · intro r hr
      rcases List.mem_append.mp hr with hr | hr
      · exact List.mem_append_left _ (hs.accepted hr)
      · exact List.mem_append_right _ hr
    · intro r hr
      show r.entry.index ≤ s.disk.cut ∨ r.entry.index = s.disk.cut + 1 ∧
        ∃ last ∈ (s.disk.accepted ++ [row]).getLast?, last.entry.index = s.disk.cut + 1 ∧
          r.ballot.epoch ≤ last.ballot.epoch
      rw [List.getLast?_concat]
      rcases hmem r hr with hr | rfl
      · rcases hs.covered r hr with hle | ⟨heq, -⟩
        · exact .inl hle
        · exact .inr ⟨heq, row, rfl, by omega, (hlower r hr (by omega)).le⟩
      · exact .inr ⟨by omega, r, rfl, by omega, le_refl _⟩
    · intro basis hbasis r hr hlt
      rcases hmem r hr with hr | rfl
      · exact hs.covers basis hbasis r hr hlt
      · -- a basis is not above the promise that the row is accepted under
        have := h.epoch_le hlive (hs.node basis hbasis).2
        rw [hrow.ballot] at hlt
        omega
    · intro basis hbasis last hlast
      obtain ⟨hvoted, hlt⟩ := hs.reported basis hbasis last hlast
      exact ⟨List.mem_append_left _ hvoted, hlt⟩
  obtain ⟨hgrows, hlawful, hworld⟩ := h.change (t := s.accepting row) rfl
    ⟨fun _ hx => List.mem_append_left _ hx, fun _ hx => hx, fun _ hx => hx, le_refl _⟩ hsound
    fun hW => ⟨fun r hr => by
      rcases hmem r hr with hr | rfl
      · exact (hp.mono hW).votes r hr
      · exact ⟨hjustified.mono hW, hproposed⟩, (hp.mono hW).proofs, (hp.mono hW).snapshot,
      (hp.mono hW).bases, (hp.mono hW).selected⟩
  refine ⟨hgrows, hlawful, ?_, fun p hp => (h.base p hp).mono hworld,
    fun p hp => (h.proven p hp).mono hworld, ?_, fun _ => ⟨hbase, ?_⟩⟩
  · show Chain sha _ ((s.pushAccept row).anchors sha)
    rw [Memory.anchors_pushAccept (by omega) hhigh]
    exact h.chain.mono hworld
  · show s.proven.length ≤ (pushSlot s.accepted (row.entry.index - s.baseIndex - 1) row).length
    rw [length_pushSlot row (by unfold Memory.acceptedThrough at hhigh; omega)]
    exact h.slots.trans (le_max_left _ _)
  · exact ⟨_, (hpasses.accept hrow.ballot hnext hrow.predecessor
      (fun previous hprevious => (hrow.replaces previous hprevious).2.2.1) hrow.bounded).congr
      rfl rfl rfl⟩

theorem Holds.proving (h : Holds sha W s) (hlive : s.failed = false) {row : Proof m}
    {sequence : ℕ} (hrow : Provable sha s row) (hseq : s.sequenceAfter row = .ok sequence)
    (hcertified : Certified sha (W.put s) row) : Holds sha W (s.proving row sequence) := by
  have hs := h.sound
  have hp := h.supported
  obtain ⟨hbase, replacements, hpasses⟩ := h.live hlive
  have hcut := h.cut hlive
  have hcut' : (s.proving row sequence).disk.cut = s.disk.cut + 1 := by
    show s.disk.base.index + (s.disk.proofs ++ [row]).length = _
    rw [List.length_append, List.length_singleton]
    rfl
  have hsound : (s.proving row sequence).disk.Sound s.node := by
    refine ⟨hs.granted, hs.single, hs.accepted, ?_, ?_, hs.node, hs.covers, hs.reported, hs.bases⟩
    · intro p hp
      rcases List.mem_append.mp hp with hp | hp
      · exact List.mem_append_left _ (hs.proofs hp)
      · exact List.mem_append_right _ hp
    · intro r hr
      rw [hcut']
      rcases hs.covered r hr with hle | ⟨heq, -⟩
      · exact .inl (by omega)
      · exact .inl (by omega)
  obtain ⟨hgrows, hlawful, hworld⟩ := h.change (t := s.proving row sequence) rfl
    ⟨fun _ hx => hx, fun _ hx => List.mem_append_left _ hx, fun _ hx => hx, by omega⟩ hsound
    fun hW => ⟨(hp.mono hW).votes, fun p hmem => by
      rcases List.mem_append.mp hmem with hmem | hmem
      · exact (hp.mono hW).proofs p hmem
      · rw [List.mem_singleton.mp hmem]
        exact hcertified.mono hW, (hp.mono hW).snapshot, (hp.mono hW).bases, (hp.mono hW).selected⟩
  refine ⟨hgrows, hlawful, ?_, fun p hp => (h.base p hp).mono hworld, ?_, ?_, fun _ => ⟨hbase, ?_⟩⟩
  · exact Memory.chain_prove (h.chain.mono hworld) h.slots hrow.next.1 hrow.accepted
      (hcertified.mono hworld)
  · intro p hmem
    rcases List.mem_append.mp hmem with hmem | hmem
    · exact (h.proven p hmem).mono hworld
    · rw [List.mem_singleton.mp hmem]
      exact hcertified.mono hworld
  · show (s.proven ++ [row]).length ≤ s.accepted.length
    rw [List.length_append, List.length_singleton]
    obtain ⟨hnext, hle⟩ := hrow.next
    unfold Memory.provenThrough at hnext
    unfold Memory.acceptedThrough at hle
    omega
  · exact ⟨_, (hpasses.prove hrow.next hrow.accepted hseq).congr rfl rfl rfl⟩

/-! ### Opening -/

/-- A store that opens takes over what its directory holds. -/
theorem Holds.opened {v : Node} {disk : Disk m} {around : Surroundings} (hW : Lawful sha W)
    (hdisk : W v = disk) (h : openStore sha v disk around = .ok s) :
    Holds sha W s ∧ s.disk = disk ∧ s.node = v ∧ s.failed = false := by
  simp only [openStore, bind_eq_ok] at h
  obtain ⟨selected, -, loaded, hload, _, -, hs⟩ := h
  cases hs
  obtain ⟨hbase, -, replacements, hloads⟩ := Memory.load_eq_ok.mp hload
  have hput : ∀ t : Store m, t.node = v → t.disk = disk → W.put t = W := by
    intro t hnode htdisk
    unfold World.put
    rw [hnode, htdisk, ← hdisk, Function.update_eq_self]
  have hsupported : disk.Supported sha W := hdisk ▸ hW.supported v
  have hsound : disk.Sound v := hdisk ▸ hW.sound v
  have hproofs : ∀ p ∈ disk.proofs, Certified sha W p :=
    fun p hp => hsupported.proofs p (hsound.proofs hp)
  refine ⟨⟨?_, ?_, ?_, ?_, ?_, hloads.proven_eq.2, fun _ => ⟨hbase, replacements,
    hloads.toPasses⟩⟩, rfl, rfl, rfl⟩
  · exact hdisk ▸ .refl _
  · rw [hput _ rfl rfl]
    exact hW
  · rw [hput _ rfl rfl]
    refine hloads.chain ?_ hproofs
    rw [hbase]
    exact hsupported.base.chain
  · rw [hput _ rfl rfl]
    show ∀ p ∈ loaded.base.terminalProof, _
    rw [hbase]
    exact hsupported.base.terminal
  · rw [hput _ rfl rfl]
    show ∀ p ∈ loaded.proven, _
    rw [hloads.proven_eq.1]
    exact hproofs

/-! ### What the operations of a store do to the world -/

/-- The store goes on without a new acceptance: its directory grows, and its proven prefix does not
shrink. -/
structure Moves (sha : Sha m) (W : World m) (s s' : Store m) : Prop where
  holds : s'.Holds sha W
  node : s'.node = s.node
  grows : s.disk.Grows s'.disk
  voted : s'.disk.voted = s.disk.voted
  selected : s'.selected = s.selected
  through : s.provenThrough ≤ s'.provenThrough

theorem Holds.moves (h : Holds sha W s) (hs : Same s s') : Moves sha W s s' where
  holds := h.same hs
  node := hs.node
  grows := hs.disk ▸ .refl _
  voted := by rw [hs.disk]
  selected := by rw [hs.memory]
  through := by rw [hs.memory]

/-- A forced basis of the voter itself. -/
theorem Holds.froze (h : Holds sha W s) {basis : Basis m} (hb : basis ∈ s.disk.frozen) :
    Froze (W.put s) basis := by
  unfold Froze
  rw [(h.sound.node basis hb).1, h.own]
  exact hb

/-- The snapshot of a forced basis rests on the world. -/
theorem Holds.backed (h : Holds sha W s) {basis : Basis m} (hb : Froze (W.put s) basis) :
    Backed sha (W.put s) basis.image.snapshot :=
  (h.lawful.supported basis.node).bases basis hb

omit [DecidableEq D] in
/-- An operation of a quarantined store throws at once. -/
theorem Wp.live {α : Type} {x : Exec m α} {Q : α → Store m → Prop} {E : Failure → Store m → Prop}
    (hx : s.failed = true → Wp x s (fun _ _ => False) fun _ s' => s' = s) (h : Wp x s Q E) :
    Wp x s (fun a s' => s.failed = false ∧ Q a s')
      fun e s' => s' = s ∨ s.failed = false ∧ E e s' := by
  cases hf : s.failed with
  | false => exact h.mono (fun _ _ h => ⟨rfl, h⟩) fun _ _ h => .inr ⟨rfl, h⟩
  | true => exact (hx hf).mono (fun _ _ h => h.elim) fun _ _ h => .inl h

omit [DecidableEq D] in
theorem wp_promiseOf {Q : Ballot → Store m → Prop} {E : Failure → Store m → Prop} :
    Wp promiseOf s Q E ↔ (s.failed = false → Q s.promise s) ∧ (s.failed = true →
      E ⟨.storageFailure, "automatic authority quarantined after ambiguous I/O"⟩ s) := by
  simp [promiseOf]

variable {limits : Limits m}

theorem moves_prepare {grant : Ballot} {requester : Node} {application : Bytes} {basisId : ℕ}
    (h : Holds sha W s) : Wp (prepare sha limits grant requester application basisId) s
      (fun basis s' => Moves sha W s s' ∧ s'.provenThrough = s.provenThrough ∧
        Froze (W.put s') basis)
      fun _ s' => Moves sha W s s' ∧ s'.provenThrough = s.provenThrough := by
  have hrefl : Moves sha W s s ∧ s.provenThrough = s.provenThrough := ⟨h.moves (.refl s), rfl⟩
  refine (Wp.live (fun hf => ?_) wp_prepare).mono ?_ ?_
  · unfold prepare
    simp [hf]
  · rintro basis s' ⟨hlive, -, ⟨rfl, -, hbasis, -⟩ | ⟨image, himage, hlt, hcount, hdesc, rfl⟩⟩
    · exact ⟨hrefl.1, rfl, h.froze (h.sound.bases requester basis hbasis)⟩
    · have hpromised := h.promised hlive hlt hcount
      obtain ⟨hback, hindex⟩ := h.snapshot himage
      have hW := h.world (t := s.promised grant) rfl
        ⟨fun _ hx => hx, fun _ hx => hx, fun _ hx => hx, le_refl _⟩
      have hlower : ∀ row ∈ s.disk.voted, row.ballot.epoch < grant.epoch :=
        fun row hrow => (h.epoch_le hlive (h.sound.granted row hrow)).trans_lt hlt
      obtain ⟨hholds, hmem⟩ := hpromised.withBasis hlive hdesc (hback.mono hW) hindex hlower
      exact ⟨⟨hholds, rfl, ⟨fun _ hx => hx, fun _ hx => hx, fun _ hx => List.mem_append_left _ hx,
        le_refl _⟩, rfl, rfl, le_refl _⟩, rfl, hholds.froze hmem⟩
  · rintro e s' (rfl | ⟨hlive, hsame | ⟨-, hlt, hcount, hsame⟩⟩)
    · exact hrefl
    · refine ⟨h.moves hsame, ?_⟩
      rw [hsame.memory]
    · have hmoves := (h.promised hlive hlt hcount).moves hsame
      have hgrows : s.disk.Grows s'.disk := by
        rw [hsame.disk]
        exact ⟨fun _ hx => hx, fun _ hx => hx, fun _ hx => hx, le_refl _⟩
      refine ⟨⟨hmoves.holds, hmoves.node, hgrows, hmoves.voted, hmoves.selected,
        hmoves.through⟩, ?_⟩
      rw [hsame.memory]
      rfl

/-- What a selection leaves behind. -/
structure Selecting (sha : Sha m) (W : World m) (s : Store m) (decision : Selection m)
    (s' : Store m) : Prop where
  holds : s'.Holds sha W
  node : s'.node = s.node
  grows : s.disk.Grows s'.disk
  voted : s'.disk.voted = s.disk.voted
  selected : s'.selected = some decision
  through : s'.provenThrough = s.provenThrough
  selects : ∃ a b, Selects sha s.promise a b decision ∧ Froze (W.put s') a ∧ Froze (W.put s') b
  backed : Backed sha (W.put s') decision.snapshot

theorem selecting_selectBases {bases : List (Basis m)} (h : Holds sha W s)
    (hbases : ∀ b ∈ bases, Froze (W.put s) b) : Wp (selectBases sha bases) s
      (fun decision s' => Selecting sha W s decision s')
      fun _ s' => Same s s' := by
  refine (Wp.live (fun hf => ?_) wp_selectBases).mono ?_ ?_
  · unfold selectBases recoveryIo
    simp [hf]
  · rintro decision s' ⟨hlive, hdec, -, old, -, hcases⟩
    obtain ⟨a, b, hinputs, -, hd⟩ := select_eq_ok hdec
    have hfroze : Froze (W.put s) a ∧ Froze (W.put s) b := by
      rcases hinputs with rfl | rfl
      · exact ⟨hbases a (by simp), hbases b (by simp)⟩
      · exact ⟨hbases a (by simp), hbases b (by simp)⟩
    have hbacked : Backed sha (W.put s) decision.snapshot := by
      rw [hd.decides]
      show Backed sha (W.put s) (longest a b)
      unfold longest
      split
      · exact h.backed hfroze.2
      · exact h.backed hfroze.1
    have hown : ∀ basis ∈ decision.bases, Froze (W.put s) basis := by
      rw [hd.decides]
      show ∀ basis ∈ [a, b], Froze (W.put s) basis
      simpa using hfroze
    rcases hcases with ⟨-, rfl⟩ | ⟨-, -, rfl⟩
    · exact ⟨h.reselecting _, rfl, .refl _, rfl, rfl, rfl, ⟨a, b, hd, hfroze⟩, hbacked⟩
    · have hgrows : s.disk.Grows (s.selecting decision).disk :=
        ⟨fun _ hx => hx, fun _ hx => hx, fun _ hx => hx, le_refl _⟩
      have hW := h.world (t := s.selecting decision) rfl hgrows
      exact ⟨h.selecting hlive hown, rfl, hgrows, rfl, rfl, rfl,
        ⟨a, b, hd, hfroze.1.mono hW, hfroze.2.mono hW⟩, hbacked.mono hW⟩
  · rintro e s' (rfl | ⟨-, hsame⟩)
    · exact .refl _
    · exact hsame

theorem Holds.moves_installs (h : Holds sha W s) (hlive : s.failed = false) {image : Snapshot m}
    (hi : Installs sha s image s') (himage : Backed sha (W.put s) image) :
    Moves sha W s s' ∧ s'.provenThrough = image.index := by
  obtain ⟨hholds, hthrough, hselected, -⟩ := h.installs hlive hi himage
  have hcovers := hi.checked.covers
  have hgrows := (h.installed_sound hlive hi.checked).2
  obtain ⟨loaded, -, -, rfl⟩ := hi.loads
  exact ⟨⟨hholds, rfl, hgrows, rfl, hselected, hthrough ▸ hcovers⟩, hthrough⟩

theorem Holds.moves_interrupted (h : Holds sha W s) (hlive : s.failed = false)
    {image : Snapshot m} (hi : Interrupted sha s image s')
    (himage : Backed sha (W.put s) image) : Moves sha W s s' ∧
      (s'.provenThrough = s.provenThrough ∨ s'.provenThrough = image.index) := by
  obtain ⟨hholds, hthrough, hselected⟩ := h.interrupted hlive hi himage
  rcases hi with hsame | hi
  · refine ⟨h.moves hsame, .inl ?_⟩
    rw [hsame.memory]
  · have hgrows := (h.installed_sound hlive hi.checked).2
    refine ⟨⟨hholds, hi.node, hi.disk ▸ hgrows, ?_, hselected, hthrough⟩, ?_⟩
    · rw [hi.disk]
      rfl
    · rcases hi.memory with hmemory | hload
      · rw [hmemory]
        exact .inl rfl
      · obtain ⟨hbase, -, _, hloads⟩ := Memory.load_eq_ok.mp hload
        right
        unfold Memory.provenThrough Memory.baseIndex
        rw [hloads.proven_eq.1, hbase]
        rfl

theorem moves_installSelected {chosen : Selection m} (h : Holds sha W s)
    (hselected : s.selected = some chosen) (hback : Backed sha (W.put s) chosen.snapshot) :
    Wp (installSelected sha) s
      (fun _ s' => Moves sha W s s' ∧ s'.provenThrough = chosen.snapshot.index)
      fun _ s' => Moves sha W s s' := by
  refine (Wp.live (fun hf => ?_) wp_installSelected).mono ?_ ?_
  · unfold installSelected recoveryIo
    simp [hf]
  · rintro _ s' ⟨hlive, selected, hsel, -, hi⟩
    cases hselected.symm.trans hsel
    exact h.moves_installs hlive hi hback
  · rintro e s' (rfl | ⟨hlive, hsame | ⟨selected, hsel, -, hi⟩⟩)
    · exact h.moves (.refl _)
    · exact h.moves hsame
    · cases hselected.symm.trans hsel
      exact (h.moves_interrupted hlive hi hback).1

/-- A passive install of a snapshot that rests on the world; at the own cut the cut stays. -/
theorem moves_installProven {snapshot : Snapshot m} (h : Holds sha W s)
    (hback : Backed sha (W.put s) snapshot) : Wp (installProven sha snapshot) s
      (fun _ s' => Moves sha W s s' ∧
        (s'.provenThrough = s.provenThrough ∨ s'.provenThrough = snapshot.index))
      fun _ s' => Moves sha W s s' ∧
        (s'.provenThrough = s.provenThrough ∨ s'.provenThrough = snapshot.index) := by
  refine (Wp.live (fun hf => ?_) wp_installProven).mono ?_ ?_
  · unfold installProven
    simp [hf]
  · rintro _ s' ⟨hlive, rfl | ⟨-, hi⟩⟩
    · exact ⟨h.moves (.refl _), .inl rfl⟩
    · obtain ⟨hmoves, hthrough⟩ := h.moves_installs hlive hi hback
      exact ⟨hmoves, .inr hthrough⟩
  · rintro e s' (rfl | ⟨hlive, hsame | ⟨-, hi⟩⟩)
    · exact ⟨h.moves (.refl _), .inl rfl⟩
    · refine ⟨h.moves hsame, .inl ?_⟩
      rw [hsame.memory]
    · exact h.moves_interrupted hlive hi hback

theorem moves_resumeCheckpoint {application : Bytes} (h : Holds sha W s) :
    Wp (resumeCheckpoint sha application) s (fun _ s' => Moves sha W s s')
      fun _ s' => Moves sha W s s' := by
  refine (Wp.live (fun hf => ?_) wp_resumeCheckpoint).mono ?_ ?_
  · unfold resumeCheckpoint recoveryIo
    simp [hf]
  · rintro _ s' ⟨hlive, rfl | ⟨image, himage, hi⟩⟩
    · exact h.moves (.refl _)
    · exact (h.moves_installs hlive hi (h.snapshot himage).1).1
  · rintro e s' (rfl | ⟨hlive, hsame | ⟨image, himage, hi⟩⟩)
    · exact h.moves (.refl _)
    · exact h.moves hsame
    · exact (h.moves_interrupted hlive hi (h.snapshot himage).1).1

/-- What an acceptance leaves behind, new or repeated. -/
structure Accepting (sha : Sha m) (W : World m) (s : Store m) (row : Accept D) (s' : Store m) :
    Prop where
  holds : s'.Holds sha W
  node : s'.node = s.node
  grows : s.disk.Grows s'.disk
  voted : ∀ r ∈ s'.disk.voted, r ∈ s.disk.voted ∨ r = row
  row : row ∈ s'.disk.voted
  selected : s'.selected = s.selected
  through : s'.provenThrough = s.provenThrough

theorem accepting_acceptRow {row : Accept D} (h : Holds sha W s)
    (hjustified : Acceptable sha s row → Justified sha (W.put s) row)
    (hproposed : Proposed (W.put (s.accepting row)) row) : Wp (acceptRow sha limits row) s
      (fun receipt s' => Accepting sha W s row s' ∧
        receipt = sha.receipt .acceptAck s.node row.ballot row.entry.index (sha.entry row.entry))
      fun _ s' => Same s s' := by
  refine (Wp.live (fun hf => ?_) wp_acceptRow).mono ?_ ?_
  · unfold acceptRow
    simp [hf]
  · rintro receipt s' ⟨hlive, hreceipt, -, ⟨rfl, hrow⟩ | ⟨hrow, rfl⟩⟩
    · obtain ⟨-, _, hpasses⟩ := h.live hlive
      exact ⟨⟨h, rfl, .refl _, fun r hr => .inl hr,
        h.sound.accepted (hpasses.acceptance_mem hrow).1, rfl, rfl⟩, hreceipt⟩
    · refine ⟨⟨h.accepting hlive hrow (hjustified hrow) hproposed, rfl,
        ⟨fun _ hx => List.mem_append_left _ hx, fun _ hx => hx, fun _ hx => hx, le_refl _⟩,
        fun r hr => ?_, List.mem_append_right _ (List.mem_singleton_self _), rfl, rfl⟩, hreceipt⟩
      simpa using (show r ∈ s.disk.voted ++ [row] from hr)
  · rintro e s' (rfl | ⟨-, hsame⟩)
    · exact .refl _
    · exact hsame

theorem moves_proveRow {row : Proof m} (h : Holds sha W s) (hrow : Certified sha (W.put s) row) :
    Wp (proveRow sha limits row) s
      (fun _ s' => Moves sha W s s' ∧ row ∈ s'.disk.proved ∧ row.index ≤ s'.provenThrough ∧
        (s'.provenThrough = s.provenThrough ∧ row.index ≤ s.provenThrough ∨
          s'.provenThrough = s.provenThrough + 1 ∧ row.index = s'.provenThrough))
      fun _ s' => Same s s' := by
  refine (Wp.live (fun hf => ?_) wp_proveRow).mono ?_ ?_
  · unfold proveRow
    simp [hf]
  · rintro receipt s' ⟨hlive, -, -, ⟨rfl, -, hle, hget⟩ | ⟨hprovable, sequence, hseq, rfl⟩⟩
    · obtain ⟨-, _, hpasses⟩ := h.live hlive
      refine ⟨h.moves (.refl _), h.sound.proofs ?_, hle, .inl ⟨rfl, hle⟩⟩
      rw [← hpasses.proven_eq.1]
      exact List.mem_of_getElem? hget
    · have hthrough : (s.proving row sequence).provenThrough = s.provenThrough + 1 := by
        show s.baseIndex + (s.proven ++ [row]).length = _
        rw [List.length_append, List.length_singleton]
        rfl
      have hcut : s.disk.cut ≤ (s.proving row sequence).disk.cut := by
        show _ ≤ s.disk.base.index + (s.disk.proofs ++ [row]).length
        rw [List.length_append]
        unfold Disk.cut
        omega
      have hindex := hprovable.next.1
      refine ⟨⟨h.proving hlive hprovable hseq hrow, rfl, ⟨fun _ hx => hx,
        fun _ hx => List.mem_append_left _ hx, fun _ hx => hx, hcut⟩, rfl, rfl, by omega⟩,
        List.mem_append_right _ (List.mem_singleton_self _), by omega, .inr ⟨hthrough, by omega⟩⟩
  · rintro e s' (rfl | ⟨-, hsame⟩)
    · exact .refl _
    · exact hsame

end Store

end GeneralSearch.Replication
