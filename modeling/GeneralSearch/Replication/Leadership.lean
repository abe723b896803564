import GeneralSearch.Replication.Agreement

/-! What a leader knows and what a client is told: a leader has proven every entry that was accepted by
a quorum at a lower ballot, and no outcome claims more than what was done. -/

namespace GeneralSearch.Replication

open Lib

namespace Group

variable {D : Type} [DecidableEq D] {m : Manifest D} {sha : Sha m} {bounds : Bounds m}
  {g : Group m} {v w : Node}

/-! ### Leader completeness -/

/-- A prefix that is as long as a slot has the entry that is settled for it. -/
theorem Sound.anchored (h : g.Sound sha bounds) {anchors : List (Anchor D)}
    (hchain : Chain sha g.world anchors) {i : ℕ} {x : Entry D} (hx : Settled g.world i x)
    (hpositive : 1 ≤ i) (hi : i ≤ anchors.length) :
    anchors[i - 1]? = some (Memory.anchor sha x) := by
  have hget := List.getElem?_eq_getElem (l := anchors) (i := i - 1) (by omega)
  obtain ⟨y, hy, hanchor⟩ := hchain (i - 1) _ hget
  rw [Nat.sub_add_cancel hpositive] at hy
  rw [hget, hanchor, h.lawful.settled_unique hx hy]

theorem Sound.length_anchors (h : g.Sound sha bounds) (v : Node) :
    ((g.voters v).store.anchors sha).length = (g.voters v).store.provenThrough :=
  (h.voters v).store.length

/-- The selection of a leader, and the slot above it that the leader has proven. -/
theorem Sound.leads (h : g.Sound sha bounds) (hv : (g.voters v).state = .leaderReady) :
    ∃ a b d, Selects sha (g.voters v).fence a b d ∧ Froze g.world a ∧ Froze g.world b ∧
      d.record.prefixIndex < (g.voters v).store.provenThrough ∧
      (g.voters v).campaign = some (g.voters v).fence := by
  obtain ⟨d, hd, hlt⟩ := (h.voters v).leading hv
  obtain ⟨-, c, hc, a, b, hselects, ha, hb⟩ := (h.voters v).selection d hd
  obtain ⟨hfence, -⟩ := (h.voters v).campaign c hc
  rw [world_put (h.voters v).node] at ha hb
  rw [hfence]
  exact ⟨a, b, d, hselects, ha, hb, hlt, hc⟩

/-- What a quorum accepted below the ballot of a leader is in the leader's proven prefix. -/
theorem Sound.knows (h : g.Sound sha bounds) (hv : (g.voters v).state = .leaderReady)
    {epoch i : ℕ} {x : Entry D} (hx : g.world.voting.Chosen epoch i x)
    (hlt : epoch < (g.voters v).fence.epoch) : i ≤ (g.voters v).store.provenThrough := by
  obtain ⟨a, b, d, hselects, ha, hb, habove, -⟩ := h.leads hv
  have := h.lawful.selected_knows hselects ha hb hx hlt
  omega

omit [DecidableEq D] in
/-- The slot of an entry that a quorum accepted. -/
theorem index_of_chosen {epoch i : ℕ} {x : Entry D} (hx : g.world.voting.Chosen epoch i x) :
    x.index = i := by
  obtain ⟨q, ⟨u, hu, -⟩, hvotes⟩ := hx
  obtain ⟨row, -, -, -, hindex⟩ := hvotes u hu
  exact hindex

/-- What a leader publishes is its proven prefix. -/
theorem Sound.publishes (h : g.Sound sha bounds) (hv : (g.voters v).state = .leaderReady)
    {p : Publish m} (hp : p ∈ (g.voters v).publication) :
    p.snapshot.anchors = (g.voters v).store.anchors sha := by
  obtain ⟨-, -, -, -, -, -, -, hcampaign⟩ := h.leads hv
  obtain ⟨-, -, op, -, -, hindex, -⟩ := (h.voters v).publishing _ hcampaign p hp
  have hbacked := (h.voters v).publication p hp
  rw [world_put (h.voters v).node] at hbacked
  have hlength : p.snapshot.anchors.length = ((g.voters v).store.anchors sha).length := by
    rw [h.length_anchors]
    exact hindex
  exact (h.lawful.chain_total hbacked.chain (h.chain v) hlength.le).eq_of_length hlength

/-- The entry of a success that was reported at the leader's ballot or below is proven by the leader. -/
theorem Sound.retains (h : g.Sound sha bounds) (hv : (g.voters v).state = .leaderReady)
    {request index : ℕ} {outcome : Outcome} {ballot : Ballot} {entry : Entry D}
    (hdone : Mark.completed request index none outcome (some (ballot, entry)) ∈ (g.voters w).trace)
    (hballot : ballot = (g.voters v).fence ∨ ballot.epoch < (g.voters v).fence.epoch) :
    ((g.voters v).store.anchors sha)[index - 1]? = some (Memory.anchor sha entry) := by
  obtain ⟨_, _, hsame, hrests⟩ := (h.voters w).done request index outcome _ hdone
  cases hsame
  obtain ⟨p, hp, hbal, hindex, hdigest⟩ := hrests.proved
  have hcertified := (h.lawful.supported w).proofs p hp
  obtain ⟨x, hx, hentry⟩ := hcertified.chosen
  obtain rfl : x = entry := sha.entry_injective (hentry.trans hdigest)
  rw [hbal, hindex] at hx
  refine h.anchored (h.chain v) ⟨_, hx⟩ ?_ ?_
  · rw [← hindex]
    exact p.positive
  · rw [h.length_anchors]
    rcases hballot with rfl | hlt
    · -- a success of the same campaign is the leader's own
      have howner := h.leader hv
      rw [hrests.owner, (h.voters w).node] at howner
      obtain rfl := Option.some.inj howner
      obtain ⟨-, -, -, -, -, -, -, hcampaign⟩ := h.leads hv
      exact (h.voters w).completed request index outcome _ _ hdone hcampaign
    · exact h.knows hv hx hlt

/-- A leader has proven every entry that a quorum accepted at a lower ballot, and every entry whose
success was reported at its own ballot or at a lower one; what it publishes has them, too. -/
theorem leader_complete (h : Reachable sha bounds g) (hv : (g.voters v).state = .leaderReady) :
    (∀ epoch i x, g.world.voting.Chosen epoch i x → epoch < (g.voters v).fence.epoch →
      ((g.voters v).store.anchors sha)[i - 1]? = some (Memory.anchor sha x)) ∧
    (∀ w, ∀ p ∈ (g.voters w).store.disk.proved, p.ballot.epoch < (g.voters v).fence.epoch →
      ∃ x, sha.entry x = p.entryDigest ∧
        ((g.voters v).store.anchors sha)[p.index - 1]? = some (Memory.anchor sha x)) ∧
    (∀ w request index outcome ballot entry,
      Mark.completed request index none outcome (some (ballot, entry)) ∈ (g.voters w).trace →
      ballot = (g.voters v).fence ∨ ballot.epoch < (g.voters v).fence.epoch →
      ((g.voters v).store.anchors sha)[index - 1]? = some (Memory.anchor sha entry)) ∧
    ∀ p ∈ (g.voters v).publication, p.snapshot.anchors = (g.voters v).store.anchors sha := by
  have hsound := h.sound
  have hchosen : ∀ epoch i x, g.world.voting.Chosen epoch i x → epoch < (g.voters v).fence.epoch →
      ((g.voters v).store.anchors sha)[i - 1]? = some (Memory.anchor sha x) := by
    intro epoch i x hx hlt
    have hknown := hsound.knows hv hx hlt
    refine hsound.anchored (hsound.chain v) ⟨epoch, hx⟩ ?_ ?_
    · rw [← index_of_chosen hx]
      exact x.predecessor.1
    · rw [hsound.length_anchors]
      exact hknown
  refine ⟨hchosen, fun w p hp hlt => ?_, fun w request index outcome ballot entry hdone hballot =>
    hsound.retains hv hdone hballot, fun p hp => hsound.publishes hv hp⟩
  obtain ⟨x, hx, hdigest⟩ := ((hsound.lawful.supported w).proofs p hp).chosen
  exact ⟨x, hdigest, hchosen _ _ _ hx hlt⟩

/-- The third voter leads, and a success was reported. -/
def Reported (g : Group m) : Bool :=
  decide ((g.voters 2).state = .leaderReady) && (g.voters 2).trace.any fun mark =>
    match mark with
    | .completed _ _ none _ (some (ballot, _)) => decide (ballot = (g.voters 2).fence)
    | _ => false

theorem leader_complete_written : ∃ g ∈ played written, Reported g = true ∧
    ((∀ epoch i x, g.world.voting.Chosen epoch i x → epoch < (g.voters 2).fence.epoch →
      ((g.voters 2).store.anchors (symbolic emptyManifest))[i - 1]? =
        some (Memory.anchor (symbolic emptyManifest) x)) ∧
    (∀ w, ∀ p ∈ (g.voters w).store.disk.proved, p.ballot.epoch < (g.voters 2).fence.epoch →
      ∃ x, (symbolic emptyManifest).entry x = p.entryDigest ∧
        ((g.voters 2).store.anchors (symbolic emptyManifest))[p.index - 1]? =
          some (Memory.anchor (symbolic emptyManifest) x)) ∧
    (∀ w request index outcome ballot entry,
      Mark.completed request index none outcome (some (ballot, entry)) ∈ (g.voters w).trace →
      ballot = (g.voters 2).fence ∨ ballot.epoch < (g.voters 2).fence.epoch →
      ((g.voters 2).store.anchors (symbolic emptyManifest))[index - 1]? =
        some (Memory.anchor (symbolic emptyManifest) entry)) ∧
    ∀ p ∈ (g.voters 2).publication,
      p.snapshot.anchors = (g.voters 2).store.anchors (symbolic emptyManifest)) := by
  have hrun : (played written).any Reported = true := by decide +kernel
  obtain ⟨g, hg, hreported⟩ := (Option.any_eq_true _ _).mp hrun
  have hleader := (Bool.and_eq_true_iff.mp hreported).1
  exact ⟨g, hg, hreported, leader_complete (played_reachable hg) (of_decide_eq_true hleader)⟩

/-! ### Outcomes -/

/-- Without a second call no entry was ever put to the vote for a request that was refused. -/
theorem Sound.refused (h : g.Sound sha bounds) {request index : ℕ} {reason : Option Reason}
    {done : Option (Ballot × Entry D)} (hrequest : 0 < request)
    (hsingle : (g.voters v).trace.countP (Mark.isSubmission request) ≤ 1)
    (hrefused : Mark.completed request index reason .notSubmitted done ∈ (g.voters v).trace)
    (entry : Entry D) : Mark.proposed request entry ∉ (g.voters v).trace := by
  intro hproposed
  have hentries := ((h.voters v).tally request).entries hrequest
  have hrefusal : 0 < (g.voters v).trace.countP (Mark.isRefusal request) :=
    List.countP_pos_iff.mpr ⟨_, hrefused, decide_eq_true ⟨rfl, rfl⟩⟩
  have hproposal : 0 < (g.voters v).trace.countP (Mark.isProposal request) :=
    List.countP_pos_iff.mpr ⟨_, hproposed, decide_eq_true rfl⟩
  omega

/-- A call of `submit` has at most one outcome.  A success rests on the voter's own acceptance and proof
of an entry with the operation and the payload of the call, and on a publication that covers it.  When
the request was not submitted, every acceptance that any voter forced at a ballot of this one is of
another request. -/
theorem outcomes_honest (h : Reachable sha bounds g) (v : Node) (request : ℕ) :
    (g.voters v).trace.countP (Mark.isCompletion request) ≤
      (g.voters v).trace.countP (Mark.isSubmission request) ∧
    (∀ index outcome done,
      Mark.completed request index none outcome done ∈ (g.voters v).trace →
      ∃ ballot entry, done = some (ballot, entry) ∧
        Done sha v (g.voters v).store.disk (g.voters v).trace request index ballot entry) ∧
    ∀ index reason done,
      Mark.completed request index reason .notSubmitted done ∈ (g.voters v).trace → 0 < request →
      (g.voters v).trace.countP (Mark.isSubmission request) ≤ 1 →
      ∀ w, ∀ row ∈ (g.voters w).store.disk.voted, row.ballot.proposer = some v →
        (∃ other, Mark.proposed other row.entry ∈ (g.voters v).trace) ∧
          Mark.proposed request row.entry ∉ (g.voters v).trace := by
  have hsound := h.sound
  have hnode := (hsound.voters v).node
  refine ⟨?_, fun index outcome done hdone => ?_, ?_⟩
  · exact (Nat.le_add_right _ _).trans ((hsound.voters v).tally request).outcomes
  · obtain ⟨ballot, entry, hsome, hrests⟩ := (hsound.voters v).done request index outcome done hdone
    rw [hnode] at hrests
    exact ⟨ballot, entry, hsome, hrests⟩
  · intro index reason done hrefused hrequest hsingle w row hrow howner
    refine ⟨?_, hsound.refused hrequest hsingle hrefused row.entry⟩
    -- the row is in the ledger of the ballot's owner, too
    obtain ⟨u, hu, hown⟩ := ((hsound.lawful.supported w).votes row hrow).2
    rw [howner] at hu
    obtain rfl := Option.some.inj hu
    exact (hsound.voters v).votes row hown (howner.trans (congrArg some hnode.symm))

/-- The third voter leads, has one request under way and refuses another without a vote. -/
def busy : List (Group emptyManifest → Label emptyManifest) :=
  elected ++ [call 2 (.submit 5 9 [] 51), call 2 (.submit 6 9 [] 51), drain 2]

theorem outcomes_honest_busy : ∃ g ∈ played busy,
    (g.voters 2).trace.any (fun mark => Mark.isRefusal 6 mark) = true ∧
    ((g.voters 2).trace.countP (Mark.isCompletion 6) ≤
      (g.voters 2).trace.countP (Mark.isSubmission 6) ∧
    (∀ index outcome done,
      Mark.completed 6 index none outcome done ∈ (g.voters 2).trace →
      ∃ ballot entry, done = some (ballot, entry) ∧
        Done (symbolic emptyManifest) 2 (g.voters 2).store.disk (g.voters 2).trace 6 index ballot
          entry) ∧
    ∀ index reason done,
      Mark.completed 6 index reason .notSubmitted done ∈ (g.voters 2).trace → 0 < 6 →
      (g.voters 2).trace.countP (Mark.isSubmission 6) ≤ 1 →
      ∀ w, ∀ row ∈ (g.voters w).store.disk.voted, row.ballot.proposer = some 2 →
        (∃ other, Mark.proposed other row.entry ∈ (g.voters 2).trace) ∧
          Mark.proposed 6 row.entry ∉ (g.voters 2).trace) := by
  have hrun : (played busy).any
      (fun g => (g.voters 2).trace.any fun mark => Mark.isRefusal 6 mark) = true := by
    decide +kernel
  obtain ⟨g, hg, hrefused⟩ := (Option.any_eq_true _ _).mp hrun
  exact ⟨g, hg, hrefused, outcomes_honest (played_reachable hg) 2 6⟩

end Group

end GeneralSearch.Replication
