import GeneralSearch.Replication.Store

/-! The passes of `load` over the ledgers of a voter: what they say about the rows, and what one
more row changes. -/

namespace GeneralSearch.Replication

open Lib

variable {D : Type} [DecidableEq D] {m : Manifest D} {sha : Sha m}

namespace Memory

/-- The memory before the first proof is read. -/
def unproven (s : Memory m) : Memory m :=
  { s with proven := [], applicationSequence := s.base.applicationSequence }

/-- The passes of `load` that lead to `s`; `replacements` are the rows that replaced the value of
their slot. -/
structure Passes (sha : Sha m) (disk : Disk m) (s : Memory m) (replacements : List (Accept D)) :
    Prop where
  promises : disk.promises.foldlM loadPromise [] = .ok s.grants
  last : s.grants.getLast? = some s.promise
  accepts : disk.accepted.foldlM (loadAccept sha)
    (empty s.base s.selected s.grants s.promise, []) = .ok (s.unproven, replacements)
  proofs : disk.proofs.foldlM (loadProof sha) s.unproven = .ok s
  slots : s.accepted.length ≤ s.proven.length + 1

/-- The passes, with the authority that the replacements need. -/
structure Loads (sha : Sha m) (disk : Disk m) (s : Memory m) (replacements : List (Accept D)) :
    Prop extends Passes sha disk s replacements where
  authority : ∀ r ∈ replacements, s.replacementAuthority r = .ok ()

theorem loadAccept_eq_ok {s : Memory m} {r : List (Accept D)} {row : Accept D}
    {c : Memory m × List (Accept D)} : loadAccept sha (s, r) row = .ok c ↔
      s.granted row = .ok () ∧
      (row.entry.index ≤ maxEntries ∧ s.acceptanceRows + 1 ≤ maxEntries + maxPromises) ∧
      (s.baseIndex < row.entry.index ∧
        (row.entry.index = s.acceptedThrough ∨ row.entry.index = s.acceptedThrough + 1)) ∧
      s.predecessor sha row.entry = .ok () ∧
      (∀ previous ∈ s.acceptance row.entry.index, previous.ballot.epoch < row.ballot.epoch) ∧
      c = (s.pushAccept row, r ++ s.replacement sha row) := by
  simp only [loadAccept, bind_eq_ok, capacity_eq_ok, need_eq_ok]
  constructor
  · rintro ⟨_, h1, _, h2, _, h3, _, h4, _, h5, h6⟩
    cases h6
    exact ⟨h1, h2, h3, h4, h5, rfl⟩
  · rintro ⟨h1, h2, h3, h4, h5, rfl⟩
    exact ⟨(), h1, (), h2, (), h3, (), h4, (), h5, rfl⟩

theorem loadProof_eq_ok {s s' : Memory m} {row : Proof m} : loadProof sha s row = .ok s' ↔
    (row.index = s.provenThrough + 1 ∧ row.index ≤ s.acceptedThrough) ∧
    s.matchingAcceptance sha row = .ok () ∧ ∃ sequence, s.sequenceAfter row = .ok sequence ∧
      s' = { s with proven := s.proven ++ [row], applicationSequence := sequence } := by
  simp only [loadProof, bind_eq_ok, need_eq_ok]
  constructor
  · rintro ⟨_, h1, _, h2, sequence, h3, h4⟩
    cases h4
    exact ⟨h1, h2, sequence, h3, rfl⟩
  · rintro ⟨h1, h2, sequence, h3, rfl⟩
    exact ⟨(), h1, (), h2, sequence, h3, rfl⟩

theorem load_eq_ok {disk : Disk m} {base : Snapshot m} {selected : Option (Selection m)}
    {s : Memory m} : load sha disk base selected = .ok s ↔
      s.base = base ∧ s.selected = selected ∧ ∃ replacements, Loads sha disk s replacements := by
  constructor
  · intro h
    rw [load, bind_eq_ok] at h
    obtain ⟨grants, hgrants, h⟩ := h
    split at h
    · cases h
    · rename_i promise hlast
      simp only [bind_eq_ok, need_eq_ok] at h
      obtain ⟨⟨mid, replacements⟩, haccepts, s1, hproofs, _, hslots, _, hauth, h⟩ := h
      cases h
      -- the two passes change nothing else
      have hmid : mid.base = base ∧ mid.selected = selected ∧ mid.grants = grants ∧
          mid.promise = promise ∧ mid.proven = [] ∧
          mid.applicationSequence = base.applicationSequence := by
        refine foldlM_ok_induction (P := fun _ c => c.1.base = base ∧ c.1.selected = selected ∧
          c.1.grants = grants ∧ c.1.promise = promise ∧ c.1.proven = [] ∧
          c.1.applicationSequence = base.applicationSequence) haccepts
          ⟨rfl, rfl, rfl, rfl, rfl, rfl⟩ fun _ row c c' hc hstep => ?_
        obtain ⟨-, -, -, -, -, rfl⟩ := loadAccept_eq_ok.mp hstep
        exact hc
      have hs : s.unproven = mid ∧ s.base = mid.base ∧ s.selected = mid.selected ∧
          s.grants = mid.grants ∧ s.promise = mid.promise := by
        refine foldlM_ok_induction (P := fun _ c => c.unproven = mid ∧ c.base = mid.base ∧
          c.selected = mid.selected ∧ c.grants = mid.grants ∧ c.promise = mid.promise) hproofs
          ⟨?_, rfl, rfl, rfl, rfl⟩ fun _ row c c' hc hstep => ?_
        · obtain ⟨h1, h2, h3, h4, h5, h6⟩ := hmid
          obtain ⟨b, sel, g, p, acc, prov, rows, seq⟩ := mid
          simp only at h1 h5 h6
          subst h1 h5 h6
          rfl
        · obtain ⟨-, -, sequence, -, rfl⟩ := loadProof_eq_ok.mp hstep
          exact hc
      obtain ⟨hun, h1, h2, h3, h4⟩ := hs
      obtain ⟨g1, g2, g3, g4, -, -⟩ := hmid
      refine ⟨h1.trans g1, h2.trans g2, replacements, ⟨?_, ?_, ?_, ?_, hslots⟩, forM_eq_ok.mp hauth⟩
      · rw [h3, g3]
        exact hgrants
      · rw [h3, g3, h4, g4]
        exact hlast
      · rw [h1, g1, h2, g2, h3, g3, h4, g4, hun]
        exact haccepts
      · rw [hun]
        exact hproofs
  · rintro ⟨rfl, rfl, replacements, h⟩
    rw [load, bind_eq_ok]
    refine ⟨s.grants, h.promises, ?_⟩
    rw [h.last]
    simp only [bind_eq_ok, need_eq_ok]
    exact ⟨_, h.accepts, s, h.proofs, (), h.slots, (), forM_eq_ok.mpr h.authority, rfl⟩

/-! ### What the passes say about the ledgers -/

section

variable {disk : Disk m} {s : Memory m} {replacements : List (Accept D)}

theorem Passes.grants_eq (h : Passes sha disk s replacements) :
    s.grants = disk.promises ∧ s.grants.Pairwise fun g g' => g.epoch < g'.epoch := by
  refine foldlM_ok_induction (P := fun seen g => g = seen ∧
    g.Pairwise fun g g' => g.epoch < g'.epoch) h.promises ⟨rfl, .nil⟩ ?_
  rintro seen row c c' ⟨rfl, hc⟩ hstep
  simp only [loadPromise, bind_eq_ok, capacity_eq_ok, need_eq_ok] at hstep
  obtain ⟨_, -, _, horder, hstep⟩ := hstep
  cases hstep
  refine ⟨rfl, List.pairwise_append.mpr ⟨hc, List.pairwise_singleton _ _, ?_⟩⟩
  intro g hg row' hrow'
  rw [List.mem_singleton] at hrow'
  subst hrow'
  -- the row is above the last promise, which is above all others
  obtain ⟨front, last, rfl⟩ : ∃ front last, c = front ++ [last] :=
    ⟨c.dropLast, c.getLast (List.ne_nil_of_mem hg), (List.dropLast_append_getLast _).symm⟩
  rw [List.getLast?_concat, decide_eq_true_eq] at horder
  rw [List.mem_append, List.mem_singleton] at hg
  rcases hg with hg | rfl
  · exact ((List.pairwise_append.mp hc).2.2 g hg last (by simp)).trans horder
  · exact horder

/-- No retained promise is above the current one. -/
theorem Passes.epoch_le (h : Passes sha disk s replacements) {g : Ballot} (hg : g ∈ s.grants) :
    g.epoch ≤ s.promise.epoch := by
  obtain ⟨front, hfront⟩ : ∃ front, s.grants = front ++ [s.promise] := by
    obtain ⟨front, hfront⟩ := List.getLast?_eq_some_iff.mp h.last
    exact ⟨front, hfront⟩
  have hsorted := h.grants_eq.2
  rw [hfront] at hg hsorted
  rw [List.mem_append, List.mem_singleton] at hg
  rcases hg with hg | rfl
  · exact ((List.pairwise_append.mp hsorted).2.2 g hg _ (by simp)).le
  · exact le_refl _

/-- A promise is found by its epoch. -/
theorem find_grant {grants : List Ballot} (h : grants.Pairwise fun g g' => g.epoch < g'.epoch)
    {ballot : Ballot} (hb : ballot ∈ grants) :
    grants.find? (fun g => g.epoch = ballot.epoch) = some ballot := by
  induction grants with
  | nil => cases hb
  | cons g rest ih =>
    rw [List.pairwise_cons] at h
    rw [List.find?_cons]
    rcases List.mem_cons.mp hb with rfl | hmem
    · simp
    · have := h.1 ballot hmem
      rw [decide_eq_false (by omega)]
      exact ih h.2 hmem

theorem Passes.promise_mem (h : Passes sha disk s replacements) : s.promise ∈ s.grants :=
  List.mem_of_getLast? h.last

/-- The rows of a slot are rows of the ledger, under promises that are retained. -/
theorem Passes.mem_accepted (h : Passes sha disk s replacements) {index : ℕ} {slot : Slot D}
    (hslot : s.slot? index = some slot) {row : Accept D} (hrow : row ∈ slot.rows) :
    row ∈ disk.accepted ∧ row.entry.index = index ∧ row.ballot ∈ s.grants := by
  have key : ∀ index slot, s.unproven.slot? index = some slot → ∀ row ∈ slot.rows,
      row ∈ disk.accepted ∧ row.entry.index = index ∧ row.ballot ∈ s.unproven.grants := by
    refine foldlM_ok_induction (P := fun seen c => ∀ index slot, c.1.slot? index = some slot →
      ∀ row ∈ slot.rows, row ∈ seen ∧ row.entry.index = index ∧ row.ballot ∈ c.1.grants)
      h.accepts ?_ ?_
    · intro index slot hslot
      unfold slot? empty at hslot
      split at hslot <;> simp at hslot
    · intro seen row c c' hc hstep index slot hslot r hr
      obtain ⟨hgranted, -, ⟨hlow, hhigh⟩, -, -, rfl⟩ := loadAccept_eq_ok.mp hstep
      have hgrant : row.ballot ∈ c.1.grants :=
        List.mem_of_find?_eq_some (need_eq_ok.mp hgranted)
      rw [slot?_pushAccept hlow (by omega)] at hslot
      rw [List.mem_append, List.mem_singleton]
      split at hslot
      · rename_i hindex
        cases hslot
        rw [Slot.rows, List.mem_append, List.mem_singleton] at hr
        rcases hr with hr | rfl
        · cases hold : c.1.slot? index with
          | none => simp [hold] at hr
          | some old =>
            rw [hold] at hr
            obtain ⟨h1, h2, h3⟩ := hc index old hold r hr
            exact ⟨.inl h1, h2, h3⟩
        · exact ⟨.inr rfl, hindex.symm, hgrant⟩
      · obtain ⟨h1, h2, h3⟩ := hc index slot hslot r hr
        exact ⟨.inl h1, h2, h3⟩
  exact key index slot hslot row hrow

/-- The passes read the three ledgers only. -/
theorem Passes.congr (h : Passes sha disk s replacements) {disk' : Disk m}
    (hp : disk'.promises = disk.promises) (ha : disk'.accepted = disk.accepted)
    (hq : disk'.proofs = disk.proofs) : Passes sha disk' s replacements :=
  ⟨hp ▸ h.promises, h.last, ha ▸ h.accepts, hq ▸ h.proofs, h.slots⟩

/-- The rows of the ledger are in slots, under promises that are retained. -/
theorem Passes.accepted_granted (h : Passes sha disk s replacements) {row : Accept D}
    (hrow : row ∈ disk.accepted) : row.ballot ∈ s.grants ∧
      s.baseIndex < row.entry.index ∧ row.entry.index ≤ s.acceptedThrough := by
  have key : ∀ row ∈ disk.accepted, row.ballot ∈ s.unproven.grants ∧
      s.unproven.baseIndex < row.entry.index ∧ row.entry.index ≤ s.unproven.acceptedThrough := by
    refine foldlM_ok_induction (P := fun seen c => ∀ row ∈ seen, row.ballot ∈ c.1.grants ∧
      c.1.baseIndex < row.entry.index ∧ row.entry.index ≤ c.1.acceptedThrough)
      h.accepts (by simp) ?_
    intro seen row c c' hc hstep r hr
    obtain ⟨hgranted, -, ⟨hlow, hhigh⟩, -, -, rfl⟩ := loadAccept_eq_ok.mp hstep
    rw [acceptedThrough_pushAccept hlow (by omega)]
    rw [List.mem_append, List.mem_singleton] at hr
    rcases hr with hr | rfl
    · obtain ⟨h1, h2, h3⟩ := hc r hr
      exact ⟨h1, h2, by omega⟩
    · exact ⟨List.mem_of_find?_eq_some (need_eq_ok.mp hgranted), hlow, by omega⟩
  exact key row hrow

theorem Passes.acceptance_mem (h : Passes sha disk s replacements) {index : ℕ} {row : Accept D}
    (hrow : s.acceptance index = some row) :
    row ∈ disk.accepted ∧ row.entry.index = index ∧ row.ballot ∈ s.grants := by
  obtain ⟨slot, hslot, rfl⟩ := Option.map_eq_some_iff.mp hrow
  exact h.mem_accepted hslot (by simp [Slot.rows])

theorem Passes.proven_eq (h : Passes sha disk s replacements) :
    s.proven = disk.proofs ∧ s.proven.length ≤ s.accepted.length := by
  refine foldlM_ok_induction (P := fun seen c => c.proven = seen ∧
    c.proven.length ≤ c.accepted.length) h.proofs ⟨rfl, Nat.zero_le _⟩ ?_
  rintro seen row c c' ⟨rfl, hc⟩ hstep
  obtain ⟨⟨hnext, hle⟩, -, sequence, -, rfl⟩ := loadProof_eq_ok.mp hstep
  refine ⟨rfl, ?_⟩
  rw [hnext] at hle
  unfold provenThrough acceptedThrough at hle
  show (c.proven ++ [row]).length ≤ c.accepted.length
  rw [List.length_append, List.length_singleton]
  omega

/-- A proof is of an acceptance of its own ballot. -/
theorem Passes.matching (hpasses : Passes sha disk s replacements) {proof : Proof m}
    (h : s.matchingAcceptance sha proof = .ok ()) :
    ∃ row ∈ disk.accepted, row.entry.index = proof.index ∧ row.ballot = proof.ballot ∧
      sha.entry row.entry = proof.entryDigest := by
  unfold matchingAcceptance at h
  split at h
  · cases h
  · rename_i slot hslot
    split at h
    · cases h
    · rename_i row hfind
      simp only [bind_eq_ok, need_eq_ok] at h
      obtain ⟨_, hdigest, _, hballot, -⟩ := h
      obtain ⟨hmem, hindex, -⟩ := hpasses.mem_accepted hslot (List.mem_of_find?_eq_some hfind)
      exact ⟨row, hmem, hindex, hballot, hdigest⟩

/-- The proofs are those of the slots above the base, in order. -/
theorem Passes.proof_index (h : Passes sha disk s replacements) {i : ℕ} {p : Proof m}
    (hp : s.proven[i]? = some p) : p.index = s.baseIndex + i + 1 := by
  refine foldlM_ok_induction (P := fun _ c => ∀ i p, c.proven[i]? = some p →
    p.index = c.baseIndex + i + 1) h.proofs (by simp [unproven]) ?_ i p hp
  intro seen row c c' hc hstep i p hp
  obtain ⟨⟨hnext, -⟩, -, sequence, -, rfl⟩ := loadProof_eq_ok.mp hstep
  rw [List.getElem?_append] at hp
  split at hp
  · exact hc i p hp
  · obtain ⟨hi, rfl⟩ := List.getElem?_eq_some_iff.mp hp
    rw [List.length_singleton] at hi
    show ([row][i - c.proven.length]).index = c.baseIndex + i + 1
    simp only [show i - c.proven.length = 0 by omega, List.getElem_cons_zero]
    unfold provenThrough at hnext
    omega

theorem Passes.proof_index_le (h : Passes sha disk s replacements) {p : Proof m}
    (hp : p ∈ s.proven) : s.baseIndex < p.index ∧ p.index ≤ s.provenThrough := by
  obtain ⟨i, hi, rfl⟩ := List.getElem_of_mem hp
  have := h.proof_index (List.getElem?_eq_getElem hi)
  unfold provenThrough
  omega

/-- The rows that replaced a value are rows of slots. -/
theorem Passes.replacement_slot (h : Passes sha disk s replacements) {row : Accept D}
    (hrow : row ∈ replacements) :
    s.baseIndex < row.entry.index ∧ row.entry.index ≤ s.acceptedThrough := by
  have key : ∀ row ∈ replacements, s.unproven.baseIndex < row.entry.index ∧
      row.entry.index ≤ s.unproven.acceptedThrough := by
    refine foldlM_ok_induction (P := fun _ c => ∀ row ∈ c.2, c.1.baseIndex < row.entry.index ∧
      row.entry.index ≤ c.1.acceptedThrough) h.accepts (by simp) ?_
    intro seen row c c' hc hstep r hr
    obtain ⟨-, -, ⟨hlow, hhigh⟩, -, -, rfl⟩ := loadAccept_eq_ok.mp hstep
    rw [baseIndex_pushAccept, acceptedThrough_pushAccept hlow (by omega)]
    rcases List.mem_append.mp hr with hr | hr
    · have := hc r hr
      omega
    · have : r = row := by
        unfold replacement at hr
        split at hr
        · simp at hr
        · split at hr <;> simp at hr
          exact hr
      subst this
      omega
  exact key row hrow

theorem replacementAuthority_eq_ok {row : Accept D} : s.replacementAuthority row = .ok () ↔
    row.entry.index ≤ s.provenThrough ∨ ∃ latest, s.acceptance row.entry.index = some latest ∧
      ((∃ selected ∈ s.selected, ∃ b ∈ selected.bases, b.image.accepted = some latest) ∨
        s.selectedValue latest = true) := by
  unfold replacementAuthority
  by_cases hproven : row.entry.index ≤ s.provenThrough
  · simp only [hproven, true_or, iff_true]
    rfl
  · rw [if_neg hproven]
    cases hacc : s.acceptance row.entry.index with
    | none => simp [hproven, throw, throwThe, MonadExceptOf.throw]
    | some latest =>
      cases hsel : s.selected with
      | none => simp [hproven]
      | some selected => simp [hproven]

/-- The slot that a replacement leaves unproven is the unresolved one. -/
theorem Passes.unresolved_of_replacement (h : Passes sha disk s replacements) {row : Accept D}
    (hrow : row ∈ replacements) (hproven : ¬row.entry.index ≤ s.provenThrough) :
    row.entry.index = s.acceptedThrough ∧
      ∃ latest, s.acceptance row.entry.index = some latest ∧ s.unresolved = some latest := by
  obtain ⟨hlow, hhigh⟩ := h.replacement_slot hrow
  have hslots := h.slots
  have hindex : row.entry.index = s.acceptedThrough := by
    unfold provenThrough at hproven
    unfold acceptedThrough at hhigh ⊢
    omega
  obtain ⟨latest, hlatest⟩ : ∃ latest, s.acceptance row.entry.index = some latest := by
    rw [← Option.ne_none_iff_exists', Ne, acceptance_eq_none]
    omega
  refine ⟨hindex, latest, hlatest, ?_⟩
  rw [unresolved, if_pos (by omega), ← hindex]
  exact hlatest

/-! ### The passes over an extended ledger -/

/-- A higher promise. -/
theorem Passes.promise (h : Passes sha disk s replacements) {row : Ballot}
    (hrow : s.promise.epoch < row.epoch) (hcount : s.grants.length < maxPromises) :
    Passes sha { disk with promises := disk.promises ++ [row] }
      { s with grants := s.grants ++ [row], promise := row } replacements where
  promises := by
    refine foldlM_concat_eq_ok h.promises ?_
    simp only [loadPromise, bind_eq_ok, capacity_eq_ok, need_eq_ok, h.last]
    exact ⟨(), hcount, (), decide_eq_true hrow, rfl⟩
  last := List.getLast?_concat
  accepts := by
    refine foldlM_ok_map (I := fun _ => True)
      (g := fun c => ({ c.1 with grants := c.1.grants ++ [row], promise := row }, c.2))
      h.accepts trivial ?_
    rintro a - c c' - hstep
    refine ⟨trivial, ?_⟩
    obtain ⟨h1, h2, h3, h4, h5, rfl⟩ := loadAccept_eq_ok.mp hstep
    refine loadAccept_eq_ok.mpr ⟨?_, h2, h3, h4, h5, rfl⟩
    rw [granted, need_eq_ok] at h1 ⊢
    rw [List.find?_append, h1]
    rfl
  proofs := by
    refine foldlM_ok_map (I := fun _ => True)
      (g := fun c => { c with grants := c.grants ++ [row], promise := row }) h.proofs trivial ?_
    rintro p - c c' - hstep
    obtain ⟨h1, h2, sequence, h3, rfl⟩ := loadProof_eq_ok.mp hstep
    exact ⟨trivial, loadProof_eq_ok.mpr ⟨h1, h2, sequence, h3, rfl⟩⟩
  slots := h.slots

/-- Another selection. -/
theorem Passes.selecting (h : Passes sha disk s replacements)
    (selected : Option (Selection m)) (record : Option (Selected D × List (Basis m))) :
    Passes sha { disk with selected := record } { s with selected } replacements where
  promises := h.promises
  last := h.last
  accepts := by
    refine foldlM_ok_map (I := fun _ => True) (g := fun c => ({ c.1 with selected }, c.2))
      h.accepts trivial ?_
    rintro a - c c' - hstep
    obtain ⟨h1, h2, h3, h4, h5, rfl⟩ := loadAccept_eq_ok.mp hstep
    exact ⟨trivial, loadAccept_eq_ok.mpr ⟨h1, h2, h3, h4, h5, rfl⟩⟩
  proofs := by
    refine foldlM_ok_map (I := fun _ => True) (g := fun c => { c with selected }) h.proofs
      trivial ?_
    rintro p - c c' - hstep
    obtain ⟨h1, h2, sequence, h3, rfl⟩ := loadProof_eq_ok.mp hstep
    exact ⟨trivial, loadProof_eq_ok.mpr ⟨h1, h2, sequence, h3, rfl⟩⟩
  slots := h.slots

/-- A proof of a lower slot is read as before when a slot above it gets a row. -/
theorem loadProof_pushAccept {c c' : Memory m} {p : Proof m} {row : Accept D}
    (h : loadProof sha c p = .ok c') (hlow : c.baseIndex < row.entry.index)
    (hhigh : row.entry.index ≤ c.acceptedThrough + 1) (hp : p.index < row.entry.index) :
    loadProof sha (c.pushAccept row) p = .ok (c'.pushAccept row) := by
  obtain ⟨⟨h1, h2⟩, h3, sequence, h4, rfl⟩ := loadProof_eq_ok.mp h
  have hslot : (c.pushAccept row).slot? p.index = c.slot? p.index := by
    rw [slot?_pushAccept hlow hhigh, if_neg (by omega)]
  refine loadProof_eq_ok.mpr ⟨⟨h1, ?_⟩, ?_, sequence, ?_, rfl⟩
  · rw [acceptedThrough_pushAccept hlow hhigh]
    omega
  · unfold matchingAcceptance
    rw [hslot]
    exact h3
  · unfold sequenceAfter acceptance
    rw [hslot]
    exact h4

/-- The next acceptance. -/
theorem Passes.accept (h : Passes sha disk s replacements) {row : Accept D}
    (hballot : row.ballot = s.promise) (hnext : row.entry.index = s.provenThrough + 1)
    (hpre : s.predecessor sha row.entry = .ok ())
    (hprevious : ∀ previous ∈ s.acceptance row.entry.index,
      previous.ballot.epoch < row.ballot.epoch)
    (hbounded : row.entry.index ≤ maxEntries ∧
      s.acceptanceRows < maxEntries + maxPromises) :
    Passes sha { disk with accepted := disk.accepted ++ [row] } (s.pushAccept row)
      (replacements ++ s.replacement sha row) := by
  have hproven := h.proven_eq.2
  have hslots := h.slots
  have hindex : row.entry.index = s.acceptedThrough ∨ row.entry.index = s.acceptedThrough + 1 := by
    unfold acceptedThrough
    unfold provenThrough at hnext
    omega
  have hlow : s.baseIndex < row.entry.index := by
    unfold provenThrough at hnext
    omega
  refine ⟨h.promises, h.last, ?_, ?_, ?_⟩
  · refine foldlM_concat_eq_ok h.accepts (loadAccept_eq_ok.mpr
      ⟨?_, ⟨hbounded.1, hbounded.2⟩, ⟨hlow, hindex⟩, hpre, hprevious, rfl⟩)
    rw [granted, need_eq_ok, hballot]
    exact find_grant h.grants_eq.2 h.promise_mem
  · -- every proof is of a slot below the new row
    refine foldlM_ok_map (g := fun c => c.pushAccept row)
      (I := fun c => c.baseIndex = s.baseIndex ∧ c.acceptedThrough = s.acceptedThrough)
      h.proofs ⟨rfl, rfl⟩ ?_
    intro p hp c c' hc hstep
    have hindex' : p.index < row.entry.index := by
      have := h.proof_index_le (h.proven_eq.1 ▸ hp)
      omega
    refine ⟨?_, loadProof_pushAccept hstep (by omega) (by omega) hindex'⟩
    obtain ⟨-, -, sequence, -, rfl⟩ := loadProof_eq_ok.mp hstep
    exact hc
  · show (pushSlot s.accepted (row.entry.index - s.baseIndex - 1) row).length ≤ _
    unfold acceptedThrough at hindex
    rw [length_pushSlot row (by omega)]
    show max _ _ ≤ s.proven.length + 1
    unfold provenThrough at hnext
    omega

/-- The next proof. -/
theorem Passes.prove (h : Passes sha disk s replacements) {row : Proof m} {sequence : ℕ}
    (hnext : row.index = s.provenThrough + 1 ∧ row.index ≤ s.acceptedThrough)
    (hmatch : s.matchingAcceptance sha row = .ok ())
    (hseq : s.sequenceAfter row = .ok sequence) :
    Passes sha { disk with proofs := disk.proofs ++ [row] }
      { s with proven := s.proven ++ [row], applicationSequence := sequence } replacements where
  promises := h.promises
  last := h.last
  accepts := h.accepts
  proofs := foldlM_concat_eq_ok h.proofs
    (loadProof_eq_ok.mpr ⟨hnext, hmatch, sequence, hseq, rfl⟩)
  slots := by
    have := h.slots
    show s.accepted.length ≤ (s.proven ++ [row]).length + 1
    rw [List.length_append]
    omega

end

/-! ### The comparison with the selection -/

theorem checkPrefix_eq_ok {s : Memory m} {snapshot : Snapshot m} {through : ℕ} :
    s.checkPrefix sha snapshot through = .ok () ↔
      (through ≤ s.provenThrough ∧ through ≤ snapshot.index) ∧
      (∀ i < through, s.digestAt sha (i + 1) = Replication.digestAt m snapshot.anchors (i + 1) ∧
        s.epochAt (i + 1) = Replication.epochAt snapshot.anchors (i + 1)) ∧
      (through = s.baseIndex ∧ through = snapshot.index →
        agrees s.base snapshot through = .ok ()) := by
  simp only [checkPrefix, bind_eq_ok, need_eq_ok]
  constructor
  · rintro ⟨_, h1, _, h2, h3⟩
    refine ⟨h1, h2, fun h => ?_⟩
    rw [if_pos h] at h3
    exact h3
  · rintro ⟨h1, h2, h3⟩
    refine ⟨(), h1, (), h2, ?_⟩
    split
    · exact h3 ‹_›
    · rfl

theorem checkRecovery_eq_ok {s : Memory m} : s.checkRecovery sha = .ok () ↔
    (s.baseIndex = 0 → agrees s.base (genesisSnapshot m) 0 = .ok ()) ∧
    (∀ p ∈ s.base.terminalProof, p.ballot.epoch ≤ s.promise.epoch) ∧
    ∀ selected ∈ s.selected, selected.record.ballot.epoch ≤ s.promise.epoch ∧
      s.checkPrefix sha selected.snapshot (min s.provenThrough selected.snapshot.index) =
        .ok () := by
  simp only [checkRecovery, bind_eq_ok, need_eq_ok]
  constructor
  · rintro ⟨_, h1, _, h2, h3⟩
    refine ⟨fun h => ?_, h2, fun selected hsel => ?_⟩
    · rw [if_pos h] at h1
      exact h1
    · rw [Option.mem_def.mp hsel] at h3
      simp only [bind_eq_ok, need_eq_ok] at h3
      obtain ⟨_, h4, h5⟩ := h3
      exact ⟨h4, h5⟩
  · rintro ⟨h1, h2, h3⟩
    refine ⟨(), ?_, (), h2, ?_⟩
    · split
      · exact h1 ‹_›
      · rfl
    · split
      · rfl
      · rename_i selected hsel
        obtain ⟨h4, h5⟩ := h3 selected hsel
        simp only [bind_eq_ok, need_eq_ok]
        exact ⟨(), h4, h5⟩

theorem checkPrefix_pushAccept {s : Memory m} {row : Accept D}
    (hlow : s.baseIndex < row.entry.index) (hhigh : row.entry.index ≤ s.acceptedThrough + 1)
    {snapshot : Snapshot m} {through : ℕ} (hthrough : through < row.entry.index)
    (h : s.checkPrefix sha snapshot through = .ok ()) :
    (s.pushAccept row).checkPrefix sha snapshot through = .ok () := by
  obtain ⟨h1, h2, h3⟩ := checkPrefix_eq_ok.mp h
  refine checkPrefix_eq_ok.mpr ⟨h1, fun i hi => ?_, h3⟩
  obtain ⟨hd, he⟩ := digestAt_pushAccept sha hlow hhigh (show i + 1 < row.entry.index by omega)
  rw [hd, he]
  exact h2 i hi

end Memory

end GeneralSearch.Replication
