import Mathlib.Data.List.Basic
import Mathlib.Data.Fin.Basic
import Mathlib.Algebra.Ring.Nat
import Mathlib.Algebra.Ring.Int.Defs
import GeneralSearch.Lib.Exec

/-! The records of the automatic replication format that carry authority, as they are after
`AutomaticRecords.decode` and `context`: what the semantic checks of a record reject cannot be
built.  `AutomaticRecovery` follows: the prefix comparisons and the choice among two frozen bases. -/

namespace GeneralSearch.Replication

/-- `AutomaticReplicationException.Reason`. -/
inductive Reason where
  | notLeader | notReady | quorumUnavailable | staleEpoch | conflictingHistory | capacityExceeded
  | protocolMismatch | integrityFailure | storageFailure | deadlineExceeded | reentrantCall | closed
  deriving DecidableEq, Repr

/-- An `AutomaticReplicationException` thrown by `AutomaticRecords.failure`. -/
structure Failure where
  reason : Reason
  message : String
  deriving DecidableEq, Repr

section

variable {M : Type → Type} [Monad M] [MonadExceptOf Failure M]

def need (condition : Prop) [Decidable condition] (message : String) : M Unit :=
  if condition then pure () else throw ⟨.integrityFailure, message⟩

def capacity (condition : Prop) [Decidable condition] (message : String) : M Unit :=
  if condition then pure () else throw ⟨.capacityExceeded, message⟩

end

section

open Lib

variable {σ : Type} {c : Prop} [Decidable c] {message : String}

@[simp] theorem need_eq_ok {u : Unit} : (need c message : Except Failure Unit) = .ok u ↔ c := by
  unfold need
  by_cases h : c <;> simp [h, pure, Except.pure, throw, throwThe, MonadExceptOf.throw]

@[simp] theorem capacity_eq_ok {u : Unit} :
    (capacity c message : Except Failure Unit) = .ok u ↔ c := by
  unfold capacity
  by_cases h : c <;> simp [h, pure, Except.pure, throw, throwThe, MonadExceptOf.throw]

@[simp] theorem wp_need {s : σ} {Q : Unit → σ → Prop} {E : Failure → σ → Prop} :
    Wp (need c message) s Q E ↔ (c → Q () s) ∧ (¬c → E ⟨.integrityFailure, message⟩ s) := by
  unfold need
  rw [wp_ite]
  exact Iff.rfl

@[simp] theorem wp_capacity {s : σ} {Q : Unit → σ → Prop} {E : Failure → σ → Prop} :
    Wp (capacity c message) s Q E ↔ (c → Q () s) ∧ (¬c → E ⟨.capacityExceeded, message⟩ s) := by
  unfold capacity
  rw [wp_ite]
  exact Iff.rfl

end

/-- A voter, by its place in the members of the manifest. -/
abbrev Node := Fin 3

instance Node.neZero : NeZero 3 := ⟨by decide⟩

theorem Node.val_injective : Function.Injective (Fin.val : Node → ℕ) := Fin.val_injective

abbrev Bytes := List UInt8

/-- `Long.MAX_VALUE`. -/
def maxLong : ℕ := 2 ^ 63 - 1

/-- The members' ballots: a PROMISE record, and the ballot fields of ACCEPT and PROOF.  The genesis
ballot has epoch 1 and the incarnation `ZERO`, which is 0 here. -/
structure Ballot where
  epoch : ℕ
  incarnation : ℕ
  identity : epoch = 1 ∧ incarnation = 0 ∨ 1 < epoch ∧ incarnation ≠ 0
  deriving DecidableEq

/-- The owner that `context` demands of a ranked ballot. -/
def Ballot.proposer (b : Ballot) : Option Node :=
  if b.epoch = 1 then none else some ⟨(b.epoch - 2) % 3, Nat.mod_lt _ (by decide)⟩

def Ballot.genesis : Ballot := ⟨1, 0, .inl ⟨rfl, rfl⟩⟩

/-- The fields of the MANIFEST and GENESIS records that the authority reads.  `order` is the
lexicographic place of a member's name. -/
structure Manifest (D : Type) where
  digest : D
  baseSequence : ℕ
  application : Bytes
  order : Node → ℕ
  counter : baseSequence ≤ maxLong
  order_injective : Function.Injective order

/-- ENTRY. -/
structure Entry (D : Type) where
  originEpoch : ℕ
  originIncarnation : ℕ
  index : ℕ
  operation : ℕ
  previousEpoch : ℕ
  previousDigest : D
  payload : Bytes
  origin : 2 ≤ originEpoch ∧ originIncarnation ≠ 0
  kind : 1 ≤ operation ∧ operation ≤ 10
  predecessor : 1 ≤ index ∧ previousEpoch ≤ originEpoch
  empty : operation ≤ 8 ∨ payload = []
  deriving DecidableEq

/-- ACCEPT. -/
structure Accept (D : Type) where
  ballot : Ballot
  entry : Entry D
  origin : entry.originEpoch ≤ ballot.epoch
  deriving DecidableEq

section

variable {D : Type} (m : Manifest D)

/-- PROOF.  The receipts' digests are determined by the other fields, so only their voters are
kept, in the order of the members' names. -/
structure Proof where
  ballot : Ballot
  index : ℕ
  entryDigest : D
  previousDigest : D
  voters : List Node
  live : 1 < ballot.epoch
  positive : 1 ≤ index
  quorum : 2 ≤ voters.length
  ordered : voters.Pairwise fun v w => m.order v < m.order w
  deriving DecidableEq

/-- An anchor of a SNAPSHOT record. -/
structure Anchor (D : Type) where
  entryDigest : D
  operation : ℕ
  originEpoch : ℕ
  originIncarnation : ℕ
  payloadDigest : D
  deriving DecidableEq

/-- The loop of `snapshotSemantics` over the anchors, from the given epoch and incarnation. -/
def ancestry : ℕ → ℕ → List (Anchor D) → Bool
  | _, _, [] => true
  | epoch, incarnation, a :: rest =>
    decide (2 ≤ a.originEpoch ∧ a.originIncarnation ≠ 0 ∧ epoch ≤ a.originEpoch ∧
      (a.originEpoch ≠ epoch ∨ incarnation = a.originIncarnation)) &&
    ancestry a.originEpoch a.originIncarnation rest

/-- The anchors that advance the application sequence. -/
def writes (anchors : List (Anchor D)) : ℕ :=
  anchors.countP fun a => decide (a.operation ≤ 8)

/-- `AutomaticRecovery.digestAt`; the digest before the first entry is the manifest's. -/
def digestAt (anchors : List (Anchor D)) : ℕ → Option D
  | 0 => some m.digest
  | i + 1 => anchors[i]?.map (·.entryDigest)

/-- `AutomaticRecovery.epochAt`. -/
def epochAt (anchors : List (Anchor D)) : ℕ → Option ℕ
  | 0 => some 1
  | i + 1 => anchors[i]?.map (·.originEpoch)

/-- The terminal proof that `snapshotSemantics` demands. -/
def terminal (anchors : List (Anchor D)) : Option (Proof m) → Prop
  | none => anchors.length = 0
  | some p => p.index = anchors.length ∧ digestAt m anchors p.index = some p.entryDigest ∧
      digestAt m anchors (p.index - 1) = some p.previousDigest ∧
      ∀ e ∈ epochAt anchors p.index, e ≤ p.ballot.epoch

instance [DecidableEq D] (anchors : List (Anchor D)) :
    (proof : Option (Proof m)) → Decidable (terminal m anchors proof)
  | none => inferInstanceAs (Decidable (anchors.length = 0))
  | some p => inferInstanceAs (Decidable (p.index = anchors.length ∧
      digestAt m anchors p.index = some p.entryDigest ∧
      digestAt m anchors (p.index - 1) = some p.previousDigest ∧
      ∀ e ∈ epochAt anchors p.index, e ≤ p.ballot.epoch))

/-- `AutomaticRecovery.tail`: the entry follows the prefix of the anchors. -/
def tail (anchors : List (Anchor D)) (entry : Entry D) : Prop :=
  entry.index = anchors.length + 1 ∧ digestAt m anchors anchors.length = some entry.previousDigest ∧
    epochAt anchors anchors.length = some entry.previousEpoch

instance [DecidableEq D] (anchors : List (Anchor D)) (entry : Entry D) :
    Decidable (tail m anchors entry) :=
  inferInstanceAs (Decidable (_ ∧ _))

/-- SNAPSHOT. -/
structure Snapshot where
  application : Bytes
  applicationSequence : ℕ
  anchors : List (Anchor D)
  terminalProof : Option (Proof m)
  bounded : anchors.length ≤ 1000000
  origins : ancestry 1 0 anchors = true
  sequence : applicationSequence = m.baseSequence + writes anchors ∧ applicationSequence ≤ maxLong
  proof : terminal m anchors terminalProof
  deriving DecidableEq

/-- `AutomaticRecovery.index`. -/
def Snapshot.index {m : Manifest D} (s : Snapshot m) : ℕ := s.anchors.length

/-- IMAGE. -/
structure Image where
  snapshot : Snapshot m
  accepted : Option (Accept D)
  follows : ∀ a ∈ accepted, tail m snapshot.anchors a.entry
  deriving DecidableEq

/-- BASIS with its image.  `basisId` is the random identity of the descriptor. -/
structure Basis where
  node : Node
  ballot : Ballot
  basisId : ℕ
  image : Image m
  promised : ∀ a ∈ image.accepted, a.ballot.epoch ≤ ballot.epoch
  deriving DecidableEq

/-- SELECTED. -/
structure Selected (D : Type) where
  ballot : Ballot
  bases : List (Node × ℕ × D)
  prefixIndex : ℕ
  prefixDigest : Option D
  nextEntry : Option (Entry D)
  sourceBallot : Option Ballot
  deriving DecidableEq

/-- `AutomaticRecovery.Selection`. -/
structure Selection where
  record : Selected D
  snapshot : Snapshot m
  bases : List (Basis m)
  sourceAcceptance : Option (Accept D)
  deriving DecidableEq

/-- The domains of `AutomaticRecords.receipt`. -/
inductive Domain where
  | acceptAck
  | proofAck
  deriving DecidableEq

/-- SHA-256 on the records that are compared by digest, without collisions. -/
structure Sha where
  bytes : Bytes → D
  entry : Entry D → D
  proof : Proof m → D
  basis : Basis m → D
  selected : Selected D → D
  receipt : Domain → Node → Ballot → ℕ → D → D
  entry_injective : Function.Injective entry
  proof_injective : Function.Injective proof
  basis_injective : Function.Injective basis
  selected_injective : Function.Injective selected
  receipt_injective : ∀ {k k' v v' b b' i i' d d'}, receipt k v b i d = receipt k' v' b' i' d' →
    k = k' ∧ v = v' ∧ b = b' ∧ i = i' ∧ d = d'

end

/-! ### The choice among two frozen bases -/

section

variable {D : Type} [DecidableEq D] {m : Manifest D}

/-- `AutomaticRecovery.agrees`. -/
def agrees (left right : Snapshot m) (through : ℕ) : Except Failure Unit := do
  need (through ≤ left.index ∧ through ≤ right.index) "incomplete comparison prefix"
  need (left.anchors.take through = right.anchors.take through) "conflicting proven ancestry"
  if left.index = right.index then
    need (left.application = right.application) "same-cut application images differ"

/-- One round of the loop over the bases in `AutomaticRecovery.select`. -/
def choose (longest : Snapshot m) (chosen : Option (Accept D)) (b : Basis m) :
    Except Failure (Option (Accept D)) := do
  agrees longest b.image.snapshot b.image.snapshot.index
  match b.image.accepted with
  | none => return chosen
  | some accepted =>
    if accepted.entry.index ≤ longest.index then return chosen
    need (tail m longest.anchors accepted.entry) "accepted tail does not follow proven prefix"
    match chosen with
    | none => return some accepted
    | some c =>
      if c.ballot.epoch < accepted.ballot.epoch then return some accepted
      if accepted.ballot.epoch = c.ballot.epoch then
        need (accepted.ballot = c.ballot ∧ accepted.entry = c.entry)
          "equal-ballot unequal accepted values"
      return some c

/-- The longer of the two proven prefixes. -/
def longest (a b : Basis m) : Snapshot m :=
  if a.image.snapshot.index < b.image.snapshot.index then b.image.snapshot else a.image.snapshot

/-- The selection of two bases in the order of their voters' names. -/
def decision (sha : Sha m) (ballot : Ballot) (a b : Basis m) (chosen : Option (Accept D)) :
    Selection m where
  record := {
    ballot
    bases := [a, b].map fun c => (c.node, c.basisId, sha.basis c)
    prefixIndex := (longest a b).index
    prefixDigest := digestAt m (longest a b).anchors (longest a b).index
    nextEntry := chosen.map (·.entry)
    sourceBallot := chosen.map (·.ballot) }
  snapshot := longest a b
  bases := [a, b]
  sourceAcceptance := chosen

def selectOrdered (sha : Sha m) (ballot : Ballot) (a b : Basis m) :
    Except Failure (Selection m) := do
  need (a.node ≠ b.node ∧ (some a.node = ballot.proposer ∨ some b.node = ballot.proposer))
    "prepare quorum must include proposer"
  need (a.ballot = ballot ∧ b.ballot = ballot) "mixed prepare ballots"
  let chosen ← choose (longest a b) none a
  let chosen ← choose (longest a b) chosen b
  return decision sha ballot a b chosen

/-- `AutomaticRecovery.select`. -/
def select (sha : Sha m) (ballot : Ballot) : List (Basis m) → Except Failure (Selection m)
  | [x, y] =>
    if m.order y.node < m.order x.node then selectOrdered sha ballot y x
    else selectOrdered sha ballot x y
  | _ => throw ⟨.integrityFailure, "exact prepare quorum required"⟩

/-- What a selection rests on. -/
structure Selects (sha : Sha m) (ballot : Ballot) (a b : Basis m) (d : Selection m) : Prop where
  distinct : a.node ≠ b.node
  proposer : some a.node = ballot.proposer ∨ some b.node = ballot.proposer
  left : a.ballot = ballot
  right : b.ballot = ballot
  chosen : ∃ first, choose (longest a b) none a = .ok first ∧
    choose (longest a b) first b = .ok d.sourceAcceptance
  decides : d = decision sha ballot a b d.sourceAcceptance

theorem selectOrdered_eq_ok {sha : Sha m} {ballot : Ballot} {a b : Basis m} {d : Selection m} :
    selectOrdered sha ballot a b = .ok d ↔ Selects sha ballot a b d := by
  simp only [selectOrdered, Lib.bind_eq_ok, need_eq_ok]
  constructor
  · rintro ⟨_, ⟨hd, hp⟩, _, ⟨ha, hb⟩, first, h1, second, h2, h3⟩
    cases h3
    exact ⟨hd, hp, ha, hb, ⟨first, h1, h2⟩, rfl⟩
  · intro h
    obtain ⟨first, h1, h2⟩ := h.chosen
    refine ⟨(), ⟨h.distinct, h.proposer⟩, (), ⟨h.left, h.right⟩, first, h1, _, h2, ?_⟩
    conv_rhs => rw [h.decides]
    rfl

/-- A selection is over the two bases it was given, ordered by name. -/
theorem select_eq_ok {sha : Sha m} {ballot : Ballot} {inputs : List (Basis m)} {d : Selection m}
    (h : select sha ballot inputs = .ok d) :
    ∃ a b, (inputs = [a, b] ∨ inputs = [b, a]) ∧ ¬m.order b.node < m.order a.node ∧
      Selects sha ballot a b d := by
  unfold select at h
  split at h
  · rename_i x y
    split at h
    · rename_i hlt
      exact ⟨y, x, .inr rfl, by omega, selectOrdered_eq_ok.mp h⟩
    · rename_i hlt
      exact ⟨x, y, .inl rfl, hlt, selectOrdered_eq_ok.mp h⟩
  · cases h

/-- The selection that is recomputed from its own bases is itself. -/
theorem Selects.select_bases {sha : Sha m} {ballot : Ballot} {a b : Basis m} {d : Selection m}
    (h : Selects sha ballot a b d) (hab : ¬m.order b.node < m.order a.node) :
    select sha d.record.ballot d.bases = .ok d := by
  have hd := h.decides
  have hballot : d.record.ballot = ballot := by rw [hd]; rfl
  have hbases : d.bases = [a, b] := by rw [hd]; rfl
  rw [hballot, hbases, select, if_neg hab]
  exact selectOrdered_eq_ok.mpr h

/-- The SELECTED record determines the selection. -/
theorem Selects.unique {sha : Sha m} {ballot ballot' : Ballot} {a b a' b' : Basis m}
    {d d' : Selection m} (h : Selects sha ballot a b d) (h' : Selects sha ballot' a' b' d')
    (hrecord : d.record = d'.record) : d = d' := by
  have hbases : [a, b].map (fun c => (c.node, c.basisId, sha.basis c)) =
      [a', b'].map fun c => (c.node, c.basisId, sha.basis c) := by
    have := congrArg Selected.bases hrecord
    rw [h.decides, h'.decides] at this
    exact this
  have hballot : ballot = ballot' := by
    have := congrArg Selected.ballot hrecord
    rw [h.decides, h'.decides] at this
    exact this
  simp only [List.map_cons, List.map_nil, List.cons.injEq, Prod.mk.injEq, and_true] at hbases
  obtain ⟨⟨-, -, ha⟩, -, -, hb⟩ := hbases
  cases sha.basis_injective ha
  cases sha.basis_injective hb
  subst hballot
  obtain ⟨first, h1, h2⟩ := h.chosen
  obtain ⟨first', h1', h2'⟩ := h'.chosen
  rw [h1] at h1'
  cases h1'
  rw [h2] at h2'
  rw [h.decides, h'.decides, Except.ok.inj h2']

end

end GeneralSearch.Replication
