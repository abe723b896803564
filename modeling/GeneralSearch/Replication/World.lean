import GeneralSearch.Lib.Quorum
import GeneralSearch.Replication.Store

/-! The directories of the three voters together: which entries are settled by a quorum, what every
acceptance, proof, basis and snapshot rests on, and that two voters never settle one slot
differently. -/

namespace GeneralSearch.Replication

open Lib

variable {D : Type} {m : Manifest D}

/-! ### Records and what they rest on -/

theorem Ballot.proposer_congr {b b' : Ballot} (h : b.epoch = b'.epoch) :
    b.proposer = b'.proposer := by
  unfold Ballot.proposer
  simp only [h]

/-- The directories of the voters. -/
abbrev World (m : Manifest D) := Node → Disk m

/-- The votes and the reports of a world: the acceptances and the bases that were ever forced, by
epoch. -/
def World.voting (W : World m) : Voting Node ℕ (Entry D) where
  quorum q := ∃ v ∈ q, ∃ w ∈ q, v ≠ w
  vote v b i x := ∃ row ∈ (W v).voted, row.ballot.epoch = b ∧ row.entry = x ∧ x.index = i
  report v b cut last := ∃ basis ∈ (W v).frozen, basis.ballot.epoch = b ∧
    basis.image.snapshot.index = cut ∧
    last = basis.image.accepted.map fun a => (a.ballot.epoch, a.entry)

/-- A quorum accepted the entry at one ballot. -/
def Settled (W : World m) (i : ℕ) (x : Entry D) : Prop := ∃ b, W.voting.Chosen b i x

/-- The basis was forced by the voter it names. -/
def Froze (W : World m) (basis : Basis m) : Prop := basis ∈ (W basis.node).frozen

/-- The owner of the ballot has accepted the row itself. -/
def Proposed (W : World m) (row : Accept D) : Prop :=
  ∃ v, row.ballot.proposer = some v ∧ row ∈ (W v).voted

/-- The base snapshot of a directory. -/
def Disk.base (disk : Disk m) : Snapshot m := disk.snapshot.getD (genesisSnapshot m)

/-- The end of the proven prefix of a directory. -/
def Disk.cut (disk : Disk m) : ℕ := disk.base.index + disk.proofs.length

/-- What is never taken back from a directory. -/
structure Disk.Grows (disk disk' : Disk m) : Prop where
  voted : disk.voted ⊆ disk'.voted
  proved : disk.proved ⊆ disk'.proved
  frozen : disk.frozen ⊆ disk'.frozen
  cut : disk.cut ≤ disk'.cut

theorem Disk.Grows.refl (disk : Disk m) : disk.Grows disk :=
  ⟨fun _ h => h, fun _ h => h, fun _ h => h, le_refl _⟩

theorem Disk.Grows.trans {a b c : Disk m} (h : a.Grows b) (h' : b.Grows c) : a.Grows c :=
  ⟨fun _ hx => h'.voted (h.voted hx), fun _ hx => h'.proved (h.proved hx),
    fun _ hx => h'.frozen (h.frozen hx), h.cut.trans h'.cut⟩

/-- A voter's own ledgers: what a basis of it covers, and that no acceptance is forgotten or
contradicted. -/
structure Disk.Sound (v : Node) (disk : Disk m) : Prop where
  granted : ∀ row ∈ disk.voted, row.ballot ∈ disk.promises
  single : ∀ row ∈ disk.voted, ∀ row' ∈ disk.voted, row.ballot.epoch = row'.ballot.epoch →
    row.entry.index = row'.entry.index → row = row'
  accepted : disk.accepted ⊆ disk.voted
  proofs : disk.proofs ⊆ disk.proved
  covered : ∀ row ∈ disk.voted, row.entry.index ≤ disk.cut ∨ row.entry.index = disk.cut + 1 ∧
    ∃ last ∈ disk.accepted.getLast?, last.entry.index = disk.cut + 1 ∧
      row.ballot.epoch ≤ last.ballot.epoch
  node : ∀ basis ∈ disk.frozen, basis.node = v ∧ basis.ballot ∈ disk.promises
  covers : ∀ basis ∈ disk.frozen, ∀ row ∈ disk.voted, row.ballot.epoch < basis.ballot.epoch →
    row.entry.index ≤ basis.image.snapshot.index ∨
      row.entry.index = basis.image.snapshot.index + 1 ∧
        ∃ last ∈ basis.image.accepted, row.ballot.epoch ≤ last.ballot.epoch
  reported : ∀ basis ∈ disk.frozen, ∀ last ∈ basis.image.accepted,
    last ∈ disk.voted ∧ last.ballot.epoch < basis.ballot.epoch
  bases : ∀ requester, ∀ basis ∈ disk.basis requester, basis ∈ disk.frozen

section

variable [DecidableEq D] (sha : Sha m)

/-- A selection of two forced bases lets the row's ballot propose its entry. -/
def Justified (W : World m) (row : Accept D) : Prop :=
  ∃ a b d, Selects sha row.ballot a b d ∧ Froze W a ∧ Froze W b ∧
    d.record.prefixIndex < row.entry.index ∧
    (row.entry.index = d.record.prefixIndex + 1 → ∀ x ∈ d.record.nextEntry, row.entry = x)

omit [DecidableEq D] in
/-- The voters of the proof have accepted its entry at its ballot. -/
def Certified (W : World m) (p : Proof m) : Prop :=
  ∀ v ∈ p.voters, ∃ row ∈ (W v).voted, row.ballot = p.ballot ∧ row.entry.index = p.index ∧
    sha.entry row.entry = p.entryDigest

omit [DecidableEq D] in
/-- The anchors are those of settled entries, slot by slot. -/
def Chain (W : World m) (anchors : List (Anchor D)) : Prop :=
  ∀ i anchor, anchors[i]? = some anchor → ∃ x, Settled W (i + 1) x ∧ anchor = Memory.anchor sha x

omit [DecidableEq D] in
/-- What a snapshot claims to be proven is settled. -/
structure Backed (W : World m) (s : Snapshot m) : Prop where
  chain : Chain sha W s.anchors
  terminal : ∀ p ∈ s.terminalProof, Certified sha W p

/-- What a directory holds rests on the other directories. -/
structure Disk.Supported (W : World m) (disk : Disk m) : Prop where
  votes : ∀ row ∈ disk.voted, Justified sha W row ∧ Proposed W row
  proofs : ∀ p ∈ disk.proved, Certified sha W p
  snapshot : ∀ s ∈ disk.snapshot, Backed sha W s
  bases : ∀ basis ∈ disk.frozen, Backed sha W basis.image.snapshot
  selected : ∀ e ∈ disk.selected, ∀ basis ∈ e.2, Froze W basis

structure Lawful (W : World m) : Prop where
  sound : ∀ v, (W v).Sound v
  supported : ∀ v, (W v).Supported sha W

end

/-! ### Growing worlds -/

section

variable {sha : Sha m} {W W' : World m}

def World.Grows (W W' : World m) : Prop := ∀ v, (W v).Grows (W' v)

theorem World.Grows.update (W : World m) {v : Node} {disk : Disk m} (h : (W v).Grows disk) :
    W.Grows (Function.update W v disk) := by
  intro w
  rw [Function.update_apply]
  split
  · rename_i hw
    subst hw
    exact h
  · exact .refl _

theorem Settled.mono (hW : W.Grows W') {i : ℕ} {x : Entry D} (h : Settled W i x) :
    Settled W' i x := by
  obtain ⟨b, q, hq, hvotes⟩ := h
  refine ⟨b, q, hq, fun v hv => ?_⟩
  obtain ⟨row, hrow, hvote⟩ := hvotes v hv
  exact ⟨row, (hW v).voted hrow, hvote⟩

theorem Froze.mono (hW : W.Grows W') {basis : Basis m} (h : Froze W basis) : Froze W' basis :=
  (hW _).frozen h

theorem Proposed.mono (hW : W.Grows W') {row : Accept D} (h : Proposed W row) :
    Proposed W' row := by
  obtain ⟨v, hv, hrow⟩ := h
  exact ⟨v, hv, (hW v).voted hrow⟩

theorem Certified.mono (hW : W.Grows W') {p : Proof m} (h : Certified sha W p) :
    Certified sha W' p := by
  intro v hv
  obtain ⟨row, hrow, hvote⟩ := h v hv
  exact ⟨row, (hW v).voted hrow, hvote⟩

theorem Chain.mono (hW : W.Grows W') {anchors : List (Anchor D)} (h : Chain sha W anchors) :
    Chain sha W' anchors := by
  intro i anchor hi
  obtain ⟨x, hx, rfl⟩ := h i anchor hi
  exact ⟨x, hx.mono hW, rfl⟩

theorem Backed.mono (hW : W.Grows W') {s : Snapshot m} (h : Backed sha W s) : Backed sha W' s :=
  ⟨h.chain.mono hW, fun p hp => (h.terminal p hp).mono hW⟩

theorem Backed.genesis : Backed sha W (genesisSnapshot m) where
  chain := by
    intro i anchor hi
    cases hi
  terminal := by
    intro p hp
    cases hp

variable [DecidableEq D]

theorem Justified.mono (hW : W.Grows W') {row : Accept D} (h : Justified sha W row) :
    Justified sha W' row := by
  obtain ⟨a, b, d, hd, ha, hb, hrest⟩ := h
  exact ⟨a, b, d, hd, ha.mono hW, hb.mono hW, hrest⟩

theorem Disk.Supported.mono (hW : W.Grows W') {disk : Disk m} (h : disk.Supported sha W) :
    disk.Supported sha W' where
  votes row hrow := ⟨(h.votes row hrow).1.mono hW, (h.votes row hrow).2.mono hW⟩
  proofs p hp := (h.proofs p hp).mono hW
  snapshot s hs := (h.snapshot s hs).mono hW
  bases basis hbasis := (h.bases basis hbasis).mono hW
  selected e he basis hbasis := (h.selected e he basis hbasis).mono hW

theorem Disk.Supported.base {disk : Disk m} (h : disk.Supported sha W) :
    Backed sha W disk.base := by
  unfold Disk.base
  cases hs : disk.snapshot with
  | none => exact .genesis
  | some s => exact h.snapshot s hs

/-- One voter's directory changes; what the others hold still rests on what is there. -/
theorem Lawful.update (h : Lawful sha W) {v : Node} {disk : Disk m} (hgrows : (W v).Grows disk)
    (hsound : disk.Sound v) (hsupported : disk.Supported sha (Function.update W v disk)) :
    Lawful sha (Function.update W v disk) := by
  refine ⟨fun w => ?_, fun w => ?_⟩
  · by_cases hw : w = v
    · rw [hw, Function.update_self]
      exact hsound
    · rw [Function.update_of_ne hw]
      exact h.sound w
  · by_cases hw : w = v
    · rw [hw, Function.update_self]
      exact hsupported
    · rw [Function.update_of_ne hw]
      exact (h.supported w).mono (.update W hgrows)

/-! ### Agreement -/

/-- One round of the selection: every acceptance above the prefix is at most as high as the one
that is chosen, and this is the one of the basis or the one chosen before. -/
theorem choose_eq_ok {s : Snapshot m} {chosen : Option (Accept D)} {b : Basis m}
    {r : Option (Accept D)} (h : choose s chosen b = .ok r) :
    b.image.snapshot.index ≤ s.index ∧
    (∀ c ∈ chosen, ∃ c' ∈ r, c.ballot.epoch ≤ c'.ballot.epoch) ∧
    (∀ a ∈ b.image.accepted, s.index < a.entry.index →
      ∃ c' ∈ r, a.ballot.epoch ≤ c'.ballot.epoch) ∧
    ∀ c' ∈ r, chosen = some c' ∨ b.image.accepted = some c' ∧ tail m s.anchors c'.entry := by
  simp only [choose, agrees, bind_eq_ok, need_eq_ok] at h
  obtain ⟨_, ⟨_, ⟨hindex, -⟩, -⟩, h⟩ := h
  refine ⟨hindex, ?_⟩
  split at h
  · rename_i hnone
    cases h
    rw [hnone]
    exact ⟨fun c hc => ⟨c, hc, le_refl _⟩, by simp, fun c' hc' => .inl hc'⟩
  · rename_i accepted haccepted
    rw [haccepted]
    split at h
    · rename_i hle
      cases h
      refine ⟨fun c hc => ⟨c, hc, le_refl _⟩, ?_, fun c' hc' => .inl hc'⟩
      rintro a ⟨⟩ hlt
      omega
    · simp only [bind_eq_ok, need_eq_ok] at h
      obtain ⟨_, htail, h⟩ := h
      split at h
      · cases h
        refine ⟨by simp, ?_, ?_⟩
        · rintro a ⟨⟩ -
          exact ⟨accepted, rfl, le_refl _⟩
        · rintro c' ⟨⟩
          exact .inr ⟨rfl, htail⟩
      · rename_i c
        split at h
        · rename_i hlt
          cases h
          refine ⟨?_, ?_, ?_⟩
          · rintro c' ⟨⟩
            exact ⟨accepted, rfl, hlt.le⟩
          · rintro a ⟨⟩ -
            exact ⟨accepted, rfl, le_refl _⟩
          · rintro c' ⟨⟩
            exact .inr ⟨rfl, htail⟩
        · rename_i hge
          have hr : r = some c := by
            split at h
            · simp only [bind_eq_ok, need_eq_ok] at h
              obtain ⟨_, -, h⟩ := h
              cases h
              rfl
            · cases h
              rfl
          subst hr
          refine ⟨?_, ?_, ?_⟩
          · rintro c' ⟨⟩
            exact ⟨c, rfl, le_refl _⟩
          · rintro a ⟨⟩ -
            exact ⟨c, rfl, by omega⟩
          · rintro c' ⟨⟩
            exact .inl rfl

/-- The selected prefix is at least as long as both bases'. -/
theorem Selects.cut_le {ballot : Ballot} {a b : Basis m} {d : Selection m}
    (h : Selects sha ballot a b d) : a.image.snapshot.index ≤ d.record.prefixIndex ∧
      b.image.snapshot.index ≤ d.record.prefixIndex := by
  obtain ⟨first, h1, h2⟩ := h.chosen
  have hindexed : d.record.prefixIndex = (longest a b).index := by rw [h.decides]; rfl
  rw [hindexed]
  exact ⟨(choose_eq_ok h1).1, (choose_eq_ok h2).1⟩

/-- The carried acceptance is the highest one above the selected prefix. -/
theorem Selects.highest {ballot : Ballot} {a b : Basis m} {d : Selection m}
    (h : Selects sha ballot a b d) {basis : Basis m} (hbasis : basis = a ∨ basis = b)
    {row : Accept D} (hrow : row ∈ basis.image.accepted)
    (hindex : d.record.prefixIndex < row.entry.index) :
    ∃ c ∈ d.sourceAcceptance, row.ballot.epoch ≤ c.ballot.epoch := by
  obtain ⟨first, h1, h2⟩ := h.chosen
  have hindexed : d.record.prefixIndex = (longest a b).index := by rw [h.decides]; rfl
  rw [hindexed] at hindex
  rcases hbasis with rfl | rfl
  · obtain ⟨c, hc, hle⟩ := (choose_eq_ok h1).2.2.1 row hrow hindex
    obtain ⟨c', hc', hle'⟩ := (choose_eq_ok h2).2.1 c hc
    exact ⟨c', hc', hle.trans hle'⟩
  · exact (choose_eq_ok h2).2.2.1 row hrow hindex

/-- The carried acceptance is one of the two bases' and follows the selected prefix. -/
theorem Selects.source {ballot : Ballot} {a b : Basis m} {d : Selection m}
    (h : Selects sha ballot a b d) {c : Accept D} (hc : c ∈ d.sourceAcceptance) :
    (a.image.accepted = some c ∨ b.image.accepted = some c) ∧
      c.entry.index = d.record.prefixIndex + 1 := by
  obtain ⟨first, h1, h2⟩ := h.chosen
  have hindexed : d.record.prefixIndex = (longest a b).index := by rw [h.decides]; rfl
  rw [hindexed]
  rcases (choose_eq_ok h2).2.2.2 c hc with rfl | ⟨hb, htail⟩
  · rcases (choose_eq_ok h1).2.2.2 c rfl with hnone | ⟨ha, htail⟩
    · cases hnone
    · exact ⟨.inl ha, htail.1⟩
  · exact ⟨.inr hb, htail.1⟩

theorem Selects.nextEntry_eq {ballot : Ballot} {a b : Basis m} {d : Selection m}
    (h : Selects sha ballot a b d) : d.record.nextEntry = d.sourceAcceptance.map (·.entry) := by
  rw [h.decides]
  rfl

omit [DecidableEq D] in
/-- The report that a forced basis makes. -/
theorem Froze.report {basis : Basis m} (h : Froze W basis) :
    W.voting.report basis.node basis.ballot.epoch basis.image.snapshot.index
      (basis.image.accepted.map fun a => (a.ballot.epoch, a.entry)) :=
  ⟨basis, h, rfl, rfl, rfl⟩

/-- A selection hands the reports of its two bases to a proposer. -/
theorem Selects.reports {ballot : Ballot} {a b : Basis m} {d : Selection m}
    (h : Selects sha ballot a b d) (ha : Froze W a) (hb : Froze W b) :
    W.voting.quorum {a.node, b.node} ∧ ∃ of : Node → Basis m, of a.node = a ∧ of b.node = b ∧
      ∀ w ∈ ({a.node, b.node} : Set Node), (of w = a ∨ of w = b) ∧
        W.voting.report w ballot.epoch (of w).image.snapshot.index
          ((of w).image.accepted.map fun r => (r.ballot.epoch, r.entry)) := by
  obtain ⟨of, hofA, hofB⟩ : ∃ of : Node → Basis m, of a.node = a ∧ of b.node = b :=
    ⟨fun w => if w = a.node then a else b, if_pos rfl, if_neg (Ne.symm h.distinct)⟩
  refine ⟨⟨a.node, .inl rfl, b.node, .inr rfl, h.distinct⟩, of, hofA, hofB, ?_⟩
  rintro w (rfl | rfl)
  · rw [hofA, ← h.left]
    exact ⟨.inl rfl, ha.report⟩
  · rw [hofB, ← h.right]
    exact ⟨.inr rfl, hb.report⟩

omit [DecidableEq D] in
/-- Two of three voters and two of three voters. -/
theorem pairs_meet : ∀ v w v' w' : Node, v ≠ w → v' ≠ w' → v = v' ∨ v = w' ∨ w = v' ∨ w = w' := by
  decide

/-- The voters of a lawful world vote with discipline. -/
theorem Lawful.disciplined (h : Lawful sha W) : W.voting.Disciplined where
  meet := by
    rintro q q' ⟨v, hv, w, hw, hvw⟩ ⟨v', hv', w', hw', hvw'⟩
    rcases pairs_meet v w v' w' hvw hvw' with rfl | rfl | rfl | rfl
    · exact ⟨v, hv, hv'⟩
    · exact ⟨v, hv, hw'⟩
    · exact ⟨w, hw, hv'⟩
    · exact ⟨w, hw, hw'⟩
  single := by
    rintro v w b i x y ⟨row, hrow, hb, rfl, hi⟩ ⟨row', hrow', hb', rfl, hi'⟩
    obtain ⟨o, ho, hown⟩ := ((h.supported v).votes row hrow).2
    obtain ⟨o', ho', hown'⟩ := ((h.supported w).votes row' hrow').2
    -- both rows are their owner's, and the epoch determines the owner
    rw [Ballot.proposer_congr (hb.trans hb'.symm), ho'] at ho
    cases ho
    rw [(h.sound o).single row hown row' hown' (hb.trans hb'.symm) (hi.trans hi'.symm)]
  covers := by
    rintro v b b' cut last i x ⟨basis, hbasis, rfl, rfl, rfl⟩ ⟨row, hrow, rfl, rfl, rfl⟩ hlt
    rcases (h.sound v).covers basis hbasis row hrow hlt with hle | ⟨heq, u, hu, hle⟩
    · exact .inl hle
    · rw [Option.mem_def.mp hu]
      exact .inr ⟨heq, _, _, rfl, hle⟩
  reported := by
    rintro v b cut c y ⟨basis, hbasis, rfl, rfl, hlast⟩
    obtain ⟨u, hu, heq⟩ := Option.map_eq_some_iff.mp hlast.symm
    cases heq
    obtain ⟨hvoted, hlt⟩ := (h.sound v).reported basis hbasis u hu
    exact ⟨hlt, u, hvoted, rfl, rfl, (basis.image.follows u hu).1⟩
  justified := by
    rintro v b i x ⟨row, hrow, rfl, rfl, rfl⟩
    obtain ⟨a, b, d, hd, ha, hb, habove, hvalue⟩ := ((h.supported v).votes row hrow).1
    obtain ⟨hq, of, hofA, hofB, hof⟩ := hd.reports ha hb
    obtain ⟨hcutA, hcutB⟩ := hd.cut_le
    have hcut : ∀ w ∈ ({a.node, b.node} : Set Node),
        (of w).image.snapshot.index ≤ d.record.prefixIndex := by
      intro w hw
      rcases (hof w hw).1 with heq | heq <;> rw [heq] <;> assumption
    refine ⟨_, hq, fun w => (of w).image.snapshot.index, _, fun w hw => ⟨(hof w hw).2, ?_⟩, ?_⟩
    · exact (hcut w hw).trans_lt habove
    · -- a reported vote in the slot makes the selection carry the highest one
      intro w hw hi c y hlast
      obtain ⟨u, hu, heq⟩ := Option.map_eq_some_iff.mp hlast
      cases heq
      have hle := hcut w hw
      change (of w).image.snapshot.index + 1 = row.entry.index at hi
      have hindexed : row.entry.index = d.record.prefixIndex + 1 := by omega
      have huindex := ((of w).image.follows u hu).1
      have hnext : d.record.prefixIndex < u.entry.index := by
        rw [huindex]
        show d.record.prefixIndex < (of w).image.snapshot.index + 1
        omega
      obtain ⟨c, hc, hcle⟩ := hd.highest (hof w hw).1 hu hnext
      have hentry : row.entry = c.entry := by
        refine hvalue hindexed c.entry ?_
        rw [hd.nextEntry_eq, Option.mem_def.mp hc]
        rfl
      -- it is the acceptance of one of the two bases
      have hsource : ∃ w' ∈ ({a.node, b.node} : Set Node),
          (of w').image.accepted = some c := by
        rcases (hd.source hc).1 with hacc | hacc
        · exact ⟨a.node, .inl rfl, hofA.symm ▸ hacc⟩
        · exact ⟨b.node, .inr rfl, hofB.symm ▸ hacc⟩
      obtain ⟨w', hw', hacc⟩ := hsource
      refine ⟨w', hw', ?_, c.ballot.epoch, ?_, hcle⟩
      · have := ((of w').image.follows c hacc).1
        rw [← hentry] at this
        exact this.symm
      · rw [hacc, hentry]
        rfl

/-- A slot is settled for one entry only. -/
theorem Lawful.settled_unique (h : Lawful sha W) {i : ℕ} {x y : Entry D} (hx : Settled W i x)
    (hy : Settled W i y) : x = y := by
  obtain ⟨b, hb⟩ := hx
  obtain ⟨b', hb'⟩ := hy
  exact h.disciplined.agreement hb hb'

omit [DecidableEq D] in
/-- The entry of a proof is chosen at its ballot. -/
theorem Certified.chosen {p : Proof m} (h : Certified sha W p) :
    ∃ x, W.voting.Chosen p.ballot.epoch p.index x ∧ sha.entry x = p.entryDigest := by
  obtain ⟨v, w, hv, hw, hvw⟩ : ∃ v w, v ∈ p.voters ∧ w ∈ p.voters ∧ v ≠ w := by
    have hlen := p.quorum
    have hordered := p.ordered
    match hvoters : p.voters with
    | [] => simp [hvoters] at hlen
    | [_] => simp [hvoters] at hlen
    | v :: w :: _ =>
      rw [hvoters] at hordered
      refine ⟨v, w, by simp, by simp, fun heq => ?_⟩
      have := (List.pairwise_cons.mp hordered).1 w (by simp)
      rw [heq] at this
      omega
  obtain ⟨row, hrow, -, hindex, hdigest⟩ := h v hv
  refine ⟨row.entry, ⟨{u | u ∈ p.voters}, ⟨v, hv, w, hw, hvw⟩, fun u hu => ?_⟩, hdigest⟩
  obtain ⟨row', hrow', hballot', hindex', hdigest'⟩ := h u hu
  have hentry : row'.entry = row.entry := sha.entry_injective (hdigest'.trans hdigest.symm)
  exact ⟨row', hrow', by rw [hballot'], hentry, hindex⟩

/-- Two proofs of one slot are of one entry. -/
theorem Lawful.certified_agree (h : Lawful sha W) {p p' : Proof m} (hp : Certified sha W p)
    (hp' : Certified sha W p') (hindex : p.index = p'.index) : p.entryDigest = p'.entryDigest := by
  obtain ⟨x, hx, hd⟩ := hp.chosen
  obtain ⟨x', hx', hd'⟩ := hp'.chosen
  rw [hindex] at hx
  rw [← hd, ← hd', h.disciplined.agreement hx hx']

/-- Of two proven prefixes one is a prefix of the other. -/
theorem Lawful.chain_total (h : Lawful sha W) {l l' : List (Anchor D)} (hl : Chain sha W l)
    (hl' : Chain sha W l') (hle : l.length ≤ l'.length) : l <+: l' := by
  rw [List.prefix_iff_getElem?]
  intro i hi
  obtain ⟨x, hx, heq⟩ := hl i _ (List.getElem?_eq_getElem hi)
  obtain ⟨x', hx', heq'⟩ := hl' i _ (List.getElem?_eq_getElem (by omega))
  rw [List.getElem?_eq_getElem (by omega), heq, heq', h.settled_unique hx hx']

/-- What was chosen below the ballot of a selection is in the selected prefix or next to it. -/
theorem Lawful.selected_knows (h : Lawful sha W) {ballot : Ballot} {a b : Basis m} {d : Selection m}
    (hd : Selects sha ballot a b d) (ha : Froze W a) (hb : Froze W b) {epoch i : ℕ} {x : Entry D}
    (hx : W.voting.Chosen epoch i x) (hlt : epoch < ballot.epoch) :
    i ≤ d.record.prefixIndex + 1 := by
  obtain ⟨hq, of, -, -, hof⟩ := hd.reports ha hb
  obtain ⟨w, hw, hknown⟩ := h.disciplined.known hx hlt hq fun w hw => (hof w hw).2
  obtain ⟨hcutA, hcutB⟩ := hd.cut_le
  have hcut : (of w).image.snapshot.index ≤ d.record.prefixIndex := by
    rcases (hof w hw).1 with heq | heq <;> rw [heq] <;> assumption
  rcases hknown with hle | ⟨heq, -⟩
  · change i ≤ (of w).image.snapshot.index at hle
    omega
  · change i = (of w).image.snapshot.index + 1 at heq
    omega

end

end GeneralSearch.Replication
