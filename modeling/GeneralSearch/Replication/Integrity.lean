import GeneralSearch.Replication.Protocol
import GeneralSearch.Replication.Steps

/-! What holds of a voter between two events, relative to the directories of the others: its
messages say what is so, its campaign rests on forced bases, its operation is above the selected
prefix, and its outcomes are honest. -/

namespace GeneralSearch.Replication

open Lib

variable {D : Type} {m : Manifest D}

/-! ### Messages -/

section

variable (sha : Sha m) (W : World m)

/-- What a request carries is so. -/
def Request.Holds : Request m → Prop
  | .install bases => ∀ b ∈ bases, Froze W b
  | .accept row => Proposed W row
  | .proof row => Certified sha W row
  | .prepare | .heartbeat _ => True

/-- The receipt of an acceptance says that the voter has forced it. -/
def Receipted (receipt : D) : Prop :=
  ∀ v b i d, receipt = sha.receipt .acceptAck v b i d →
    ∃ row ∈ (W v).voted, row.ballot = b ∧ row.entry.index = i ∧ sha.entry row.entry = d

/-- What a response carries is so. -/
def Response.Holds : Response m → Prop
  | .prepared basis => Froze W basis
  | .accepted receipt => Receipted sha W receipt
  | .refused _ _ | .installed _ | .proven _ | .beaten _ => True

def Message.Holds : Message m → Prop
  | .request call => call.request.Holds sha W
  | .response reply => reply.response.Holds sha W

/-- A message says what is so, and what is published is settled. -/
def Action.Holds : Action m → Prop
  | .send message => message.Holds sha W
  | .publish publication => Backed sha W publication.snapshot
  | .reconstruct _ _ | .completed _ _ _ _ => True

end

section

variable {sha : Sha m} {W W' : World m}

theorem Request.Holds.mono (hW : W.Grows W') {r : Request m} (h : r.Holds sha W) :
    r.Holds sha W' := by
  cases r with
  | prepare => trivial
  | install bases => exact fun b hb => (h b hb).mono hW
  | accept row => exact Proposed.mono hW h
  | proof row => exact Certified.mono hW h
  | heartbeat pulse => trivial

theorem Receipted.mono (hW : W.Grows W') {receipt : D} (h : Receipted sha W receipt) :
    Receipted sha W' receipt := by
  intro v b i d heq
  obtain ⟨row, hrow, hrest⟩ := h v b i d heq
  exact ⟨row, (hW v).voted hrow, hrest⟩

theorem Response.Holds.mono (hW : W.Grows W') {r : Response m} (h : r.Holds sha W) :
    r.Holds sha W' := by
  cases r with
  | prepared basis => exact Froze.mono hW h
  | accepted receipt => exact Receipted.mono hW h
  | refused kind reason => trivial
  | installed digest => trivial
  | proven receipt => trivial
  | beaten sequence => trivial

theorem Message.Holds.mono (hW : W.Grows W') {x : Message m} (h : x.Holds sha W) :
    x.Holds sha W' := by
  cases x with
  | request call => exact Request.Holds.mono hW h
  | response reply => exact Response.Holds.mono hW h

theorem Action.Holds.mono (hW : W.Grows W') {a : Action m} (h : a.Holds sha W) :
    a.Holds sha W' := by
  cases a with
  | send message => exact Message.Holds.mono hW h
  | reconstruct id replay => trivial
  | publish publication => exact Backed.mono hW h
  | completed request index reason outcome => trivial

end

/-! ### Marks -/

def Mark.isSubmission (request : ℕ) : Mark m → Bool
  | .submitted r _ _ => decide (r = request)
  | _ => false

def Mark.isProposal (request : ℕ) : Mark m → Bool
  | .proposed r _ => decide (r = request)
  | _ => false

def Mark.isCompletion (request : ℕ) : Mark m → Bool
  | .completed r _ _ _ _ => decide (r = request)
  | _ => false

/-- A `Completed` that says the request was not submitted. -/
def Mark.isRefusal (request : ℕ) : Mark m → Bool
  | .completed r _ _ outcome _ => decide (r = request ∧ outcome = .notSubmitted)
  | _ => false

/-- An operation of the client's request is under way. -/
def Authority.pending (v : Authority m) (request : ℕ) : ℕ :=
  if v.operation.any fun op => !op.campaign && decide (op.request = request) then 1 else 0

/-- Every call of `submit` has at most one outcome, and at most one entry or the outcome that there
is none. -/
structure Tally (trace : List (Mark m)) (request pending : ℕ) : Prop where
  outcomes : trace.countP (Mark.isCompletion request) + pending ≤
    trace.countP (Mark.isSubmission request)
  entries : 0 < request → trace.countP (Mark.isProposal request) +
    trace.countP (Mark.isRefusal request) ≤ trace.countP (Mark.isSubmission request)

/-- What a successful outcome rests on: the call, the proposal and the publication before it, and
the acceptance and the proof in the voter's own directory. -/
structure Done (sha : Sha m) (v : Node) (disk : Disk m) (trace : List (Mark m))
    (request index : ℕ) (ballot : Ballot) (entry : Entry D) : Prop where
  indexed : entry.index = index
  owner : ballot.proposer = some v
  submitted : .submitted request entry.operation entry.payload ∈ trace
  proposed : .proposed request entry ∈ trace
  published : ∃ p, .published p ∈ trace ∧ p.snapshot.index = index ∧
    p.snapshot.anchors[index - 1]? = some (Memory.anchor sha entry)
  voted : ∃ row ∈ disk.voted, row.ballot = ballot ∧ row.entry = entry
  proved : ∃ p ∈ disk.proved, p.ballot = ballot ∧ p.index = index ∧ p.entryDigest = sha.entry entry

theorem Done.mono {sha : Sha m} {v : Node} {disk disk' : Disk m} {trace trace' : List (Mark m)}
    {request index : ℕ} {ballot : Ballot} {entry : Entry D}
    (h : Done sha v disk trace request index ballot entry) (hdisk : disk.Grows disk')
    (htrace : trace ⊆ trace') : Done sha v disk' trace' request index ballot entry where
  indexed := h.indexed
  owner := h.owner
  submitted := htrace h.submitted
  proposed := htrace h.proposed
  published := by
    obtain ⟨p, hp, hrest⟩ := h.published
    exact ⟨p, htrace hp, hrest⟩
  voted := by
    obtain ⟨row, hrow, hrest⟩ := h.voted
    exact ⟨row, hdisk.voted hrow, hrest⟩
  proved := by
    obtain ⟨p, hp, hrest⟩ := h.proved
    exact ⟨p, hdisk.proved hp, hrest⟩

/-! ### Voters -/

variable [DecidableEq D]

/-- What holds of a voter at any point of a handler, also where it gives up. -/
structure Secure (sha : Sha m) (W : World m) (n : Node) (v : Authority m) : Prop where
  node : v.store.node = n
  store : v.store.Holds sha W
  actions : ∀ a ∈ v.actions, a.Holds sha (W.put v.store)
  exchanges : ∀ p ∈ v.exchanges, p.message.request.Holds sha (W.put v.store)
  publication : ∀ p ∈ v.publication, Backed sha (W.put v.store) p.snapshot
  tally : ∀ request, Tally v.trace request (v.pending request)
  done : ∀ request index outcome done,
    Mark.completed request index none outcome done ∈ v.trace → ∃ ballot entry,
      done = some (ballot, entry) ∧
      Done sha v.store.node v.store.disk v.trace request index ballot entry
  votes : ∀ row ∈ v.store.disk.voted, row.ballot.proposer = some v.store.node →
    ∃ request, .proposed request row.entry ∈ v.trace
  operation : ∀ op ∈ v.operation, op.issued = true ∧ (op.campaign = false →
    .submitted op.request op.entry.operation op.entry.payload ∈ v.trace ∧
      .proposed op.request op.entry ∈ v.trace)

/-- The operation of a campaign: above the selected prefix, and in the proven prefix once it has a
proof.  A client's operation is of the next slot. -/
structure Operation.Rests (sha : Sha m) (s : Store m) (ballot : Ballot) (d : Selection m)
    (op : Operation m) : Prop where
  above : d.record.prefixIndex < op.entry.index
  next : op.campaign = false →
    op.entry.index = s.provenThrough + if op.proof.isSome then 0 else 1
  voted : op.ownReceipt.isSome ∨ op.proof.isSome →
    ∃ row ∈ s.disk.voted, row.ballot = ballot ∧ row.entry = op.entry
  proof : ∀ p ∈ op.proof, p.ballot = ballot ∧ p.index = op.entry.index ∧
    p.entryDigest = sha.entry op.entry ∧ p ∈ s.disk.proved ∧ op.entry.index ≤ s.provenThrough

omit [DecidableEq D] in
/-- What a continuation relies on when it is resumed. -/
def Continuation.Ready (state : State) : Continuation m → Prop
  | .start => state = .starting
  | .publish committing _ => committing.proof.isSome
  | .campaign _ | .prepare _ | .publishLocal _ => True

/-- The invariant of a voter. -/
structure Inv (sha : Sha m) (W : World m) (n : Node) (v : Authority m) : Prop extends Secure sha W n v where
  campaign : ∀ c ∈ v.campaign, v.fence = c ∧ c.proposer = some v.store.node
  ownBasis : ∀ b ∈ v.ownBasis, v.campaign.isSome ∧ Froze (W.put v.store) b
  selection : ∀ d ∈ v.selection, v.store.selected = some d ∧ ∃ c ∈ v.campaign, ∃ a b,
    Selects sha c a b d ∧ Froze (W.put v.store) a ∧ Froze (W.put v.store) b
  recovering : v.state = .recovering ∨ v.state = .leaderReady →
    ∃ d ∈ v.selection, d.record.prefixIndex ≤ v.store.provenThrough
  leading : v.state = .leaderReady →
    ∃ d ∈ v.selection, d.record.prefixIndex < v.store.provenThrough
  operating : ∀ op ∈ v.operation, (v.state = .recovering ∨ v.state = .leaderReady) ∧
    ∃ c ∈ v.campaign, ∃ d ∈ v.selection, op.Rests sha v.store c d
  publishing : ∀ c ∈ v.campaign, ∀ p ∈ v.publication, p.isLocal = false ∧ p.ballot = c ∧
    ∃ op ∈ v.operation, op.proof.isSome ∧ p.snapshot.index = v.store.provenThrough ∧
      p.snapshot.anchors[op.entry.index - 1]? = some (Memory.anchor sha op.entry)
  completed : ∀ request index outcome ballot entry,
    Mark.completed request index none outcome (some (ballot, entry)) ∈ v.trace →
    v.campaign = some ballot → index ≤ v.store.provenThrough
  continuation : ∀ k ∈ v.imageContinuation, k.Ready v.state
  starting : v.state = .stopped ∨ v.state = .starting → v.campaign = none
  candidate : v.state = .candidate → v.selection = none

/-- No campaign and nothing of one. -/
structure Idle (v : Authority m) : Prop where
  campaign : v.campaign = none
  ownBasis : v.ownBasis = none
  selection : v.selection = none
  operation : v.operation = none
  state : v.state ≠ .recovering ∧ v.state ≠ .leaderReady

variable {sha : Sha m} {W : World m} {n : Node} {v : Authority m}

theorem Inv.of_idle (h : Secure sha W n v) (hi : Idle v)
    (hk : ∀ k ∈ v.imageContinuation, k.Ready v.state) : Inv sha W n v where
  toSecure := h
  campaign := by simp [hi.campaign]
  ownBasis := by simp [hi.ownBasis]
  selection := by simp [hi.selection]
  recovering := by simp [hi.state]
  leading := by simp [hi.state]
  operating := by simp [hi.operation]
  publishing := by simp [hi.campaign]
  completed := by simp [hi.campaign]
  continuation := hk
  starting _ := hi.campaign
  candidate _ := hi.selection

theorem Inv.idle (h : Inv sha W n v) (hc : v.campaign = none) : Idle v := by
  have hselection : v.selection = none := by
    rw [Option.eq_none_iff_forall_not_mem]
    intro d hd
    obtain ⟨-, c, hc', -⟩ := h.selection d hd
    rw [hc] at hc'
    cases hc'
  refine ⟨hc, ?_, hselection, ?_, ?_, ?_⟩
  · rw [Option.eq_none_iff_forall_not_mem]
    intro b hb
    have := (h.ownBasis b hb).1
    rw [hc] at this
    cases this
  · rw [Option.eq_none_iff_forall_not_mem]
    intro op hop
    obtain ⟨-, c, hc', -⟩ := h.operating op hop
    rw [hc] at hc'
    cases hc'
  · intro hstate
    obtain ⟨d, hd, -⟩ := h.recovering (.inl hstate)
    rw [hselection] at hd
    cases hd
  · intro hstate
    obtain ⟨d, hd, -⟩ := h.recovering (.inr hstate)
    rw [hselection] at hd
    cases hd

/-! ### Another store -/

/-- Every acceptance of the new store at a ballot of its own is of a marked entry. -/
theorem Secure.withStore (h : Secure sha W n v) {s : Store m} (hs : s.Holds sha W)
    (hnode : s.node = v.store.node) (hgrows : v.store.disk.Grows s.disk)
    (hvotes : ∀ row ∈ s.disk.voted, row.ballot.proposer = some s.node →
      ∃ request, .proposed request row.entry ∈ v.trace) :
    Secure sha W n { v with store := s } := by
  have hW := h.store.world hnode hgrows
  refine ⟨hnode.trans h.node, hs, fun a ha => (h.actions a ha).mono hW, fun p hp => (h.exchanges p hp).mono hW,
    fun p hp => (h.publication p hp).mono hW, h.tally, ?_, hvotes, h.operation⟩
  intro request index outcome done hmem
  obtain ⟨ballot, entry, hdone, hrests⟩ := h.done request index outcome done hmem
  refine ⟨ballot, entry, hdone, ?_⟩
  show Done sha s.node s.disk _ _ _ _ _
  rw [hnode]
  exact hrests.mono hgrows fun _ hx => hx

theorem Secure.moves (h : Secure sha W n v) {s : Store m} (hs : Store.Moves sha W v.store s) :
    Secure sha W n { v with store := s } := by
  refine h.withStore hs.holds hs.node hs.grows fun row hrow howner => h.votes row ?_ ?_
  · exact hs.voted ▸ hrow
  · exact hs.node ▸ howner

/-- The store of a campaign goes on: it keeps the selection, and its prefix does not shrink and
does not move while there is an operation. -/
theorem Inv.withStore (h : Inv sha W n v) {s : Store m} (hs : s.Holds sha W)
    (hnode : s.node = v.store.node) (hgrows : v.store.disk.Grows s.disk)
    (hvotes : ∀ row ∈ s.disk.voted, row.ballot.proposer = some s.node →
      ∃ request, .proposed request row.entry ∈ v.trace)
    (hthrough : v.store.provenThrough ≤ s.provenThrough)
    (hselected : ∀ d ∈ v.selection, s.selected = some d)
    (hop : v.operation.isSome → s.provenThrough = v.store.provenThrough) :
    Inv sha W n { v with store := s } := by
  have hW := h.store.world hnode hgrows
  refine { h.toSecure.withStore hs hnode hgrows hvotes with
    campaign := fun c hc => ⟨(h.campaign c hc).1, ?_⟩
    ownBasis := fun b hb => ⟨(h.ownBasis b hb).1, (h.ownBasis b hb).2.mono hW⟩
    selection := ?_
    recovering := ?_
    leading := ?_
    operating := ?_
    publishing := ?_
    completed := fun request index outcome ballot entry hmem hc =>
      (h.completed request index outcome ballot entry hmem hc).trans hthrough
    continuation := h.continuation
    starting := h.starting
    candidate := h.candidate }
  · show c.proposer = some s.node
    rw [hnode]
    exact (h.campaign c hc).2
  · intro d hd
    obtain ⟨-, c, hc, a, b, hd', ha, hb⟩ := h.selection d hd
    exact ⟨hselected d hd, c, hc, a, b, hd', ha.mono hW, hb.mono hW⟩
  · intro hstate
    obtain ⟨d, hd, hle⟩ := h.recovering hstate
    exact ⟨d, hd, hle.trans hthrough⟩
  · intro hstate
    obtain ⟨d, hd, hlt⟩ := h.leading hstate
    exact ⟨d, hd, hlt.trans_le hthrough⟩
  · intro op hmem
    obtain ⟨hstate, c, hc, d, hd, hrests⟩ := h.operating op hmem
    have heq := hop (Option.isSome_of_mem hmem)
    refine ⟨hstate, c, hc, d, hd, hrests.above, fun hclient => ?_, fun hr => ?_, fun p hp => ?_⟩
    · show op.entry.index = s.provenThrough + _
      rw [heq]
      exact hrests.next hclient
    · obtain ⟨row, hrow, hrest⟩ := hrests.voted hr
      exact ⟨row, hgrows.voted hrow, hrest⟩
    · obtain ⟨h1, h2, h3, h4, h5⟩ := hrests.proof p hp
      exact ⟨h1, h2, h3, hgrows.proved h4, h5.trans hthrough⟩
  · intro c hc p hp
    obtain ⟨hlocal, hballot, op, hmem, hproof, hindex, hanchor⟩ := h.publishing c hc p hp
    refine ⟨hlocal, hballot, op, hmem, hproof, ?_, hanchor⟩
    show p.snapshot.index = s.provenThrough
    rw [hop (Option.isSome_of_mem hmem)]
    exact hindex

theorem Inv.moves (h : Inv sha W n v) {s : Store m} (hs : Store.Moves sha W v.store s)
    (hop : v.operation.isSome → s.provenThrough = v.store.provenThrough) :
    Inv sha W n { v with store := s } := by
  refine h.withStore hs.holds hs.node hs.grows (fun row hrow howner => h.votes row ?_ ?_)
    hs.through (fun d hd => ?_) hop
  · exact hs.voted ▸ hrow
  · exact hs.node ▸ howner
  · rw [hs.selected]
    exact (h.selection d hd).1

/-- A refusal of the store changes nothing that counts. -/
theorem Inv.sameStore (h : Inv sha W n v) {s : Store m} (hs : Store.Same v.store s) :
    Inv sha W n { v with store := s } := by
  refine h.moves (h.store.moves hs) fun _ => ?_
  rw [hs.memory]

/-! ### Other messages -/

/-- Actions and exchanges change; all of them say what is so. -/
structure Posts (sha : Sha m) (W : World m) (v v' : Authority m) : Prop where
  rest : ∃ actions exchanges, v' = { v with actions, exchanges }
  actions : ∀ a ∈ v'.actions, a.Holds sha (W.put v.store)
  exchanges : ∀ p ∈ v'.exchanges, p.message.request.Holds sha (W.put v.store)

theorem Secure.posts {v' : Authority m} (h : Secure sha W n v) (hp : Posts sha W v v') :
    Secure sha W n v' := by
  obtain ⟨⟨actions, exchanges, rfl⟩, ha, he⟩ := hp
  exact ⟨h.node, h.store, ha, he, h.publication, h.tally, h.done, h.votes, h.operation⟩

theorem Inv.posts {v' : Authority m} (h : Inv sha W n v) (hp : Posts sha W v v') :
    Inv sha W n v' := by
  have hsecure := h.toSecure.posts hp
  obtain ⟨⟨actions, exchanges, rfl⟩, -, -⟩ := hp
  exact { hsecure with
    campaign := h.campaign
    ownBasis := h.ownBasis
    selection := h.selection
    recovering := h.recovering
    leading := h.leading
    operating := h.operating
    publishing := h.publishing
    completed := h.completed
    continuation := h.continuation
    starting := h.starting
    candidate := h.candidate }

theorem Secure.emit (h : Secure sha W n v) {a : Action m} (ha : a.Holds sha (W.put v.store)) :
    Posts sha W v { v with actions := v.actions ++ [a] } where
  rest := ⟨_, v.exchanges, rfl⟩
  actions := by
    intro x hx
    rcases List.mem_append.mp hx with hx | hx
    · exact h.actions x hx
    · rw [List.mem_singleton.mp hx]
      exact ha
  exchanges := h.exchanges

/-- A voter without a campaign may be in any state of one. -/
theorem Inv.withState (h : Inv sha W n v) (hi : Idle v) {state : State}
    (hstate : state ≠ .recovering ∧ state ≠ .leaderReady)
    (hk : ∀ k ∈ v.imageContinuation, k.Ready state) : Inv sha W n { v with state } :=
  .of_idle ⟨h.node, h.store, h.actions, h.exchanges, h.publication, h.tally, h.done, h.votes, h.operation⟩
    ⟨hi.campaign, hi.ownBasis, hi.selection, hi.operation, hstate⟩ hk

/-- A voter without a campaign may have any fence. -/
theorem Inv.withFence (h : Inv sha W n v) (hi : Idle v) {fence : Ballot} :
    Inv sha W n { v with fence } :=
  .of_idle ⟨h.node, h.store, h.actions, h.exchanges, h.publication, h.tally, h.done, h.votes, h.operation⟩
    ⟨hi.campaign, hi.ownBasis, hi.selection, hi.operation, hi.state⟩ h.continuation

/-- Exchanges that are dropped or retried. -/
theorem Inv.withExchanges (h : Inv sha W n v) {exchanges : List (Pending m)}
    (he : ∀ p ∈ exchanges, ∃ q ∈ v.exchanges, p.message = q.message) :
    Inv sha W n { v with exchanges } := by
  refine h.posts ⟨⟨v.actions, exchanges, rfl⟩, h.actions, fun p hp => ?_⟩
  obtain ⟨q, hq, heq⟩ := he p hp
  rw [heq]
  exact h.exchanges q hq

theorem Inv.withPublication (h : Inv sha W n v) {p : Publish m}
    (hback : Backed sha (W.put v.store) p.snapshot)
    (hp : ∀ c ∈ v.campaign, p.isLocal = false ∧ p.ballot = c ∧ ∃ op ∈ v.operation,
      op.proof.isSome ∧ p.snapshot.index = v.store.provenThrough ∧
      p.snapshot.anchors[op.entry.index - 1]? = some (Memory.anchor sha op.entry)) :
    Inv sha W n { v with publication := some p } :=
  { h with
    publication := by
      rintro q ⟨⟩
      exact hback
    publishing := by
      rintro c hc q ⟨⟩
      exact hp c hc }

theorem Inv.withContinuation (h : Inv sha W n v) {k : Option (Continuation m)}
    (hk : ∀ x ∈ k, x.Ready v.state) : Inv sha W n { v with imageContinuation := k } :=
  { h with continuation := hk }

/-- The proven prefix of a leader whose operation is proven has its entry. -/
theorem Inv.anchor_eq (h : Inv sha W n v) {op : Operation m}
    (hop : op ∈ v.operation) (hproof : op.proof.isSome) :
    (v.store.anchors sha)[op.entry.index - 1]? = some (Memory.anchor sha op.entry) := by
  obtain ⟨-, c, -, d, -, hrests⟩ := h.operating op hop
  obtain ⟨p, hp⟩ := Option.isSome_iff_exists.mp hproof
  obtain ⟨-, hindex, hdigest, hproved, hle⟩ := hrests.proof p hp
  have hpos := op.entry.predecessor.1
  obtain ⟨x, hx, hxd⟩ := (h.store.supported.proofs p hproved).chosen
  have hentry : x = op.entry := sha.entry_injective (hxd.trans hdigest)
  have hlen := h.store.length
  obtain ⟨y, hy, heq⟩ := h.store.chain (op.entry.index - 1) _
    (List.getElem?_eq_getElem (by omega))
  rw [show op.entry.index - 1 + 1 = p.index by omega] at hy
  rw [List.getElem?_eq_getElem (by omega), heq, h.store.lawful.settled_unique hy ⟨_, hx⟩, hentry]

/-- A voter without a campaign begins one at a ballot of its own above its promise. -/
theorem Inv.beginning (h : Inv sha W n v) (hidle : Idle v)
    (hpublication : v.publication = none)
    (hawake : v.state ≠ .stopped ∧ v.state ≠ .starting) (hlive : v.store.failed = false)
    {ballot : Ballot} (howner : ballot.proposer = some v.store.node)
    (hfresh : v.store.promise.epoch < ballot.epoch) :
    Inv sha W n { v with campaign := some ballot, fence := ballot, state := .candidate } where
  node := h.node
  store := h.store
  actions := h.actions
  exchanges := h.exchanges
  publication := h.publication
  tally := h.tally
  done := h.done
  votes := h.votes
  operation := h.operation
  campaign := by
    rintro c ⟨⟩
    exact ⟨rfl, howner⟩
  ownBasis := by simp [hidle.ownBasis]
  selection := by simp [hidle.selection]
  recovering := by simp
  leading := by simp
  operating := by simp [hidle.operation]
  publishing := by simp [hpublication]
  completed := by
    -- an outcome at this very ballot would be an acceptance above the promise
    rintro request index outcome b entry hmem ⟨⟩
    obtain ⟨_, _, heq, hdone⟩ := h.done request index outcome _ hmem
    cases heq
    obtain ⟨row, hrow, hballot, -⟩ := hdone.voted
    have hle := h.store.epoch_le hlive (h.store.sound.granted row hrow)
    rw [hballot] at hle
    omega
  continuation := by
    intro k hk
    have hready := h.continuation k hk
    cases k with
    | start => exact absurd hready hawake.2
    | publish op b => exact hready
    | campaign b => trivial
    | prepare message => trivial
    | publishLocal b => trivial
  starting := by simp
  candidate _ := hidle.selection

/-! ### Operations -/

/-- A mark that is no success. -/
theorem Inv.withMark (h : Inv sha W n v) {x : Mark m}
    (htally : ∀ request, Tally (v.trace ++ [x]) request (v.pending request))
    (hx : ∀ request index outcome done, x ≠ .completed request index none outcome done) :
    Inv sha W n { v with trace := v.trace ++ [x] } := by
  have hold : ∀ {request index outcome done},
      Mark.completed request index none outcome done ∈ v.trace ++ [x] →
      Mark.completed request index none outcome done ∈ v.trace := by
    intro request index outcome done hmem
    rcases List.mem_append.mp hmem with hmem | hmem
    · exact hmem
    · exact absurd (List.mem_singleton.mp hmem).symm (hx _ _ _ _)
  refine { h with
    tally := htally
    done := fun request index outcome done hmem => ?_
    votes := fun row hrow howner => ?_
    operation := fun op hop => ⟨(h.operation op hop).1, fun hclient => ?_⟩
    completed := fun request index outcome ballot entry hmem hc =>
      h.completed request index outcome ballot entry (hold hmem) hc }
  · obtain ⟨ballot, entry, heq, hdone⟩ := h.done request index outcome done (hold hmem)
    exact ⟨ballot, entry, heq, hdone.mono (.refl _) fun _ hy => List.mem_append_left _ hy⟩
  · obtain ⟨request, hmark⟩ := h.votes row hrow howner
    exact ⟨request, List.mem_append_left _ hmark⟩
  · obtain ⟨hs, hp⟩ := (h.operation op hop).2 hclient
    exact ⟨List.mem_append_left _ hs, List.mem_append_left _ hp⟩

/-- The operation is done, or about to be replaced. -/
theorem Inv.dropOperation (h : Inv sha W n v) (hpublication : v.publication = none) :
    Inv sha W n { v with operation := none } :=
  { h with
    tally := fun request => by
      have htally := h.tally request
      exact ⟨(Nat.le_add_right _ _).trans htally.outcomes, htally.entries⟩
    operation := by simp
    operating := by simp
    publishing := by simp [hpublication] }

/-- A new operation of the campaign. -/
theorem Inv.operate (h : Inv sha W n v) (hnone : v.operation = none) {op : Operation m}
    (hsecure : Secure sha W n { v with operation := some op })
    (hstate : v.state = .recovering ∨ v.state = .leaderReady)
    (hrests : ∃ c ∈ v.campaign, ∃ d ∈ v.selection, op.Rests sha v.store c d) :
    Inv sha W n { v with operation := some op } :=
  { hsecure with
    campaign := h.campaign
    ownBasis := h.ownBasis
    selection := h.selection
    recovering := h.recovering
    leading := h.leading
    operating := by
      rintro op' ⟨⟩
      exact ⟨hstate, hrests⟩
    publishing := by
      intro c hc p hp
      obtain ⟨-, -, op', hop', -⟩ := h.publishing c hc p hp
      rw [hnone] at hop'
      cases hop'
    completed := h.completed
    continuation := h.continuation
    starting := h.starting
    candidate := h.candidate }

/-- The operation has no publication before it has a proof. -/
theorem Inv.unpublished (h : Inv sha W n v) {op : Operation m} (hop : v.operation = some op)
    (hproof : op.proof = none) : v.publication = none := by
  rw [Option.eq_none_iff_forall_not_mem]
  intro p hp
  obtain ⟨-, c, hc, -⟩ := h.operating op hop
  obtain ⟨-, -, op', hop', hproof', -⟩ := h.publishing c hc p hp
  cases hop.symm.trans hop'
  rw [hproof] at hproof'
  cases hproof'

/-- Only the receipt or the proof of the operation changes. -/
theorem Secure.withOperation (h : Secure sha W n v) {op op' : Operation m}
    (hop : v.operation = some op) (hissued : op'.issued = op.issued)
    (hcampaign : op'.campaign = op.campaign) (hrequest : op'.request = op.request)
    (hentry : op'.entry = op.entry) : Secure sha W n { v with operation := some op' } :=
  { h with
    tally := fun request => by
      have hpending : Authority.pending { v with operation := some op' } request =
          v.pending request := by
        unfold Authority.pending
        simp [hop, hcampaign, hrequest]
      rw [hpending]
      exact h.tally request
    operation := by
      rintro o ⟨⟩
      rw [hissued, hcampaign, hrequest, hentry]
      exact h.operation op hop }

/-- There is room for one more outcome and one more entry of the request. -/
structure Open (trace : List (Mark m)) (request pending : ℕ) : Prop where
  outcomes : trace.countP (Mark.isCompletion request) + pending + 1 ≤
    trace.countP (Mark.isSubmission request)
  entries : 0 < request → trace.countP (Mark.isProposal request) +
    trace.countP (Mark.isRefusal request) + 1 ≤ trace.countP (Mark.isSubmission request)

omit [DecidableEq D] in
theorem Tally.submitted {trace : List (Mark m)} {request pending operation : ℕ} {payload : Bytes}
    (h : Tally trace request pending) :
    Open (trace ++ [.submitted request operation payload]) request pending := by
  refine ⟨?_, fun hpos => ?_⟩
  · have := h.outcomes
    simp only [List.countP_append, List.countP_singleton, Mark.isCompletion, Mark.isSubmission,
      decide_true, if_true]
    simp only [Bool.false_eq_true, if_false]
    omega
  · have := h.entries hpos
    simp only [List.countP_append, List.countP_singleton, Mark.isProposal, Mark.isRefusal,
      Mark.isSubmission, decide_true, if_true]
    simp only [Bool.false_eq_true, if_false]
    omega

/-- A mark that neither completes nor proposes. -/
theorem Inv.submitted (h : Inv sha W n v) {request operation : ℕ} {payload : Bytes} :
    Inv sha W n { v with trace := v.trace ++ [.submitted request operation payload] } := by
  refine h.withMark (fun r => ?_) (by simp)
  have htally := h.tally r
  refine ⟨?_, fun hpos => ?_⟩
  · have := htally.outcomes
    simp only [List.countP_append, List.countP_singleton, Mark.isCompletion, Mark.isSubmission,
      Bool.false_eq_true, if_false]
    omega
  · have := htally.entries hpos
    simp only [List.countP_append, List.countP_singleton, Mark.isProposal, Mark.isRefusal,
      Mark.isSubmission, Bool.false_eq_true, if_false]
    omega

theorem Inv.publishedMark (h : Inv sha W n v) {p : Publish m} :
    Inv sha W n { v with trace := v.trace ++ [.published p] } := by
  refine h.withMark (fun r => ?_) (by simp)
  have htally := h.tally r
  refine ⟨?_, fun hpos => ?_⟩
  · simpa [List.countP_append, List.countP_singleton, Mark.isCompletion, Mark.isSubmission]
      using htally.outcomes
  · simpa [List.countP_append, List.countP_singleton, Mark.isProposal, Mark.isRefusal,
      Mark.isSubmission] using htally.entries hpos

/-- The outcome that an open request was not submitted. -/
theorem Inv.refused (h : Inv sha W n v) {request : ℕ} {reason : Reason}
    (hopen : Open v.trace request (v.pending request)) :
    Inv sha W n { v with
      actions := v.actions ++ [.completed request 0 (some reason) .notSubmitted]
      trace := v.trace ++ [.completed request 0 (some reason) .notSubmitted none] } := by
  have hemitted := h.posts (h.emit (a := .completed request 0 (some reason) .notSubmitted) trivial)
  refine hemitted.withMark (fun r => ?_) (by simp)
  have htally := h.tally r
  show Tally (v.trace ++ [_]) r (v.pending r)
  by_cases hr : r = request
  · subst hr
    refine ⟨?_, fun hpos => ?_⟩
    · have := hopen.outcomes
      simp only [List.countP_append, List.countP_singleton, Mark.isCompletion, Mark.isSubmission,
        decide_true, if_true, Bool.false_eq_true, if_false]
      omega
    · have := hopen.entries hpos
      simp only [List.countP_append, List.countP_singleton, Mark.isProposal, Mark.isRefusal,
        Mark.isSubmission, and_self, decide_true, if_true, Bool.false_eq_true, if_false]
      omega
  · refine ⟨?_, fun hpos => ?_⟩
    · simpa [List.countP_append, List.countP_singleton, Mark.isCompletion, Mark.isSubmission,
        Ne.symm hr] using htally.outcomes
    · simpa [List.countP_append, List.countP_singleton, Mark.isProposal, Mark.isRefusal,
        Mark.isSubmission, Ne.symm hr] using htally.entries hpos

end GeneralSearch.Replication
