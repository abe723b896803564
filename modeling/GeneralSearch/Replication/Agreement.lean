import GeneralSearch.Replication.Group

/-! What the voters of a group agree on: the proofs and the proven prefixes, what is published, and
who leads an epoch. -/

namespace GeneralSearch.Replication

open Lib

/-- The proof is in a ledger of the directory, or it ends a snapshot there. -/
def Disk.Retains {D : Type} {m : Manifest D} (disk : Disk m) (p : Proof m) : Prop :=
  p ∈ disk.proofs ∨ (∃ s ∈ disk.snapshot, p ∈ s.terminalProof) ∨
    ∃ basis ∈ disk.frozen, p ∈ basis.image.snapshot.terminalProof

namespace Group

variable {D : Type} [DecidableEq D] {m : Manifest D} {sha : Sha m} {bounds : Bounds m}
  {g g' : Group m} {l : Label m} {v w : Node}

theorem Sound.lawful (h : g.Sound sha bounds) : Lawful sha g.world :=
  world_put (h.voters 0).node ▸ (h.voters 0).store.lawful

/-! ### Proofs and prefixes -/

theorem Sound.certified (h : g.Sound sha bounds) {p : Proof m}
    (hp : (g.voters v).store.disk.Retains p) : Certified sha g.world p := by
  have hsound := h.lawful.sound v
  have hsupported := h.lawful.supported v
  rcases hp with hp | ⟨s, hs, hp⟩ | ⟨basis, hbasis, hp⟩
  · exact hsupported.proofs p (hsound.proofs hp)
  · exact (hsupported.snapshot s hs).terminal p hp
  · exact (hsupported.bases basis hbasis).terminal p hp

theorem Sound.chain (h : g.Sound sha bounds) (v : Node) :
    Chain sha g.world ((g.voters v).store.anchors sha) :=
  world_put (h.voters v).node ▸ (h.voters v).store.chain

theorem Sound.prefixes (h : g.Sound sha bounds) {anchors anchors' : List (Anchor D)}
    (ha : Chain sha g.world anchors) (ha' : Chain sha g.world anchors') :
    anchors <+: anchors' ∨ anchors' <+: anchors := by
  rcases le_total anchors.length anchors'.length with hle | hle
  · exact .inl (h.lawful.chain_total ha ha' hle)
  · exact .inr (h.lawful.chain_total ha' ha hle)

/-- Two retained proofs of one slot are of one entry, and of two proven prefixes one is a prefix of
the other. -/
theorem proofs_agree (h : Reachable sha bounds g) :
    (∀ v w p q, (g.voters v).store.disk.Retains p → (g.voters w).store.disk.Retains q →
      p.index = q.index → p.entryDigest = q.entryDigest) ∧
    ∀ v w, (g.voters v).store.anchors sha <+: (g.voters w).store.anchors sha ∨
      (g.voters w).store.anchors sha <+: (g.voters v).store.anchors sha := by
  have hsound := h.sound
  refine ⟨fun v w p q hp hq hindex => ?_, fun v w => ?_⟩
  · exact hsound.lawful.certified_agree (hsound.certified hp) (hsound.certified hq) hindex
  · exact hsound.prefixes (hsound.chain v) (hsound.chain w)

theorem proofs_agree_written : ∃ g ∈ played written,
    ((g.voters 0).store.anchors (symbolic _)).length = 2 ∧
    ((∀ v w p q, (g.voters v).store.disk.Retains p → (g.voters w).store.disk.Retains q →
      p.index = q.index → p.entryDigest = q.entryDigest) ∧
    ∀ v w, (g.voters v).store.anchors (symbolic _) <+: (g.voters w).store.anchors (symbolic _) ∨
      (g.voters w).store.anchors (symbolic _) <+: (g.voters v).store.anchors (symbolic _)) := by
  have hrun : (played written).any (fun g =>
      decide (((g.voters 0).store.anchors (symbolic _)).length = 2)) = true := by decide +kernel
  obtain ⟨g, hg, hlength⟩ := (Option.any_eq_true _ _).mp hrun
  exact ⟨g, hg, of_decide_eq_true hlength, proofs_agree (played_reachable hg)⟩

/-! ### Publication -/

variable (sha bounds) in
/-- A run in which the process of the voter lives on. -/
def Lives (v : Node) : Group m → Group m → Prop :=
  Relation.ReflTransGen fun g g' => ∃ l, l ≠ .reopen v ∧ Step sha bounds g l g'

theorem Reachable.lives (h : Reachable sha bounds g) (hl : Lives sha bounds v g g') :
    Reachable sha bounds g' := by
  induction hl with
  | refl => exact h
  | tail _ hs ih =>
    obtain ⟨l, -, hs⟩ := hs
    exact ih.step hs

/-- No step but a crash takes back what is published. -/
theorem Sound.published_step (h : g.Sound sha bounds) (hs : Step sha bounds g l g')
    (hl : l ≠ .reopen v) : (g.voters v).publishedIndex ≤ (g'.voters v).publishedIndex := by
  cases hs with
  | @call w e supply hactions he =>
    show _ ≤ (Function.update g.voters w _ v).publishedIndex
    by_cases hv : v = w
    · rw [hv, Function.update_self]
      have htidy := (h.attended w).tidy
      exact (tidy_after ⟨htidy.orderly, htidy.tripped, hactions, htidy.since⟩ supply e).since.published
    · rw [Function.update_of_ne hv]
  | @drain w =>
    show _ ≤ (Function.update g.voters w _ v).publishedIndex
    by_cases hv : v = w
    · rw [hv, Function.update_self]
      exact le_refl _
    · rw [Function.update_of_ne hv]
  | @reopen w around store hopen =>
    have hv : v ≠ w := fun heq => hl (heq ▸ rfl)
    show _ ≤ (Function.update g.voters w _ v).publishedIndex
    rw [Function.update_of_ne hv]

theorem Sound.emitted (h : g.Sound sha bounds) {p : Publish m} (hp : p ∈ g.emitted) :
    Backed sha g.world p.snapshot := by
  rcases List.mem_append.mp hp with hp | hp
  · exact h.published p hp
  · obtain ⟨v, -, hv⟩ := List.mem_flatMap.mp hp
    exact world_put (h.voters v).node ▸ (h.voters v).publication_backed hv

/-- The epoch of a leader's fence is that of its own campaign. -/
theorem Sound.leader (h : g.Sound sha bounds) (hv : (g.voters v).state = .leaderReady) :
    (g.voters v).fence.proposer = some v := by
  obtain ⟨d, hd, -⟩ := (h.voters v).leading hv
  obtain ⟨-, c, hc, -⟩ := (h.voters v).selection d hd
  obtain ⟨hfence, howner⟩ := (h.voters v).campaign c hc
  rw [hfence, howner, (h.voters v).node]

/-- What is published is proven and is not taken back while the process lives, all publications are
comparable, and an epoch has one leader. -/
theorem publication_monotone (h : Reachable sha bounds g) :
    (∀ v, (g.voters v).publishedIndex ≤ (g.voters v).store.provenThrough) ∧
    (∀ v g', Lives sha bounds v g g' →
      (g.voters v).publishedIndex ≤ (g'.voters v).publishedIndex) ∧
    (∀ p ∈ g.emitted, ∀ q ∈ g.emitted, p.snapshot.anchors <+: q.snapshot.anchors ∨
      q.snapshot.anchors <+: p.snapshot.anchors) ∧
    ∀ v w, (g.voters v).state = .leaderReady → (g.voters w).state = .leaderReady →
      (g.voters v).fence.epoch = (g.voters w).fence.epoch → v = w := by
  have hsound := h.sound
  refine ⟨fun v => ?_, fun v g' hl => ?_, fun p hp q hq => ?_, fun v w hv hw hepoch => ?_⟩
  · exact (hsound.attended v).tidy.orderly.published.1
  · induction hl with
    | refl => exact le_refl _
    | tail hlives hs ih =>
      obtain ⟨l, hl, hs⟩ := hs
      exact ih.trans ((h.lives hlives).sound.published_step hs hl)
  · exact hsound.prefixes (hsound.emitted hp).chain (hsound.emitted hq).chain
  · have howner := hsound.leader hv
    rw [Ballot.proposer_congr hepoch, hsound.leader hw] at howner
    exact (Option.some.inj howner).symm

theorem publication_monotone_written : ∃ g ∈ played written,
    ((g.voters 2).state = .leaderReady ∧ g.emitted.length = 2) ∧
    (∀ v, (g.voters v).publishedIndex ≤ (g.voters v).store.provenThrough) ∧
    (∀ v g', Lives (symbolic _) (shortBounds _) v g g' →
      (g.voters v).publishedIndex ≤ (g'.voters v).publishedIndex) ∧
    (∀ p ∈ g.emitted, ∀ q ∈ g.emitted, p.snapshot.anchors <+: q.snapshot.anchors ∨
      q.snapshot.anchors <+: p.snapshot.anchors) ∧
    ∀ v w, (g.voters v).state = .leaderReady → (g.voters w).state = .leaderReady →
      (g.voters v).fence.epoch = (g.voters w).fence.epoch → v = w := by
  have hrun : (played written).any (fun g => decide ((g.voters 2).state = .leaderReady ∧
      g.emitted.length = 2)) = true := by decide +kernel
  obtain ⟨g, hg, hleader⟩ := (Option.any_eq_true _ _).mp hrun
  exact ⟨g, hg, of_decide_eq_true hleader, publication_monotone (played_reachable hg)⟩

end Group

end GeneralSearch.Replication
