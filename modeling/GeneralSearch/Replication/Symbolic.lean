import GeneralSearch.Replication.Store

/-! Digests without collisions that can be computed: the digest of a record is a term that spells
the record out. -/

namespace GeneralSearch.Replication

/-- A binary tree of numbers. -/
inductive Term where
  | leaf (n : ℕ)
  | pair (left right : Term)
  deriving DecidableEq

namespace Term

open Function

variable {α : Type}

def list (f : α → Term) : List α → Term
  | [] => leaf 0
  | a :: rest => pair (f a) (list f rest)

def option (f : α → Term) : Option α → Term
  | none => leaf 0
  | some a => pair (leaf 1) (f a)

theorem list_injective {f : α → Term} (hf : Injective f) : Injective (list f) := by
  intro xs
  induction xs with
  | nil =>
    intro ys h
    cases ys with
    | nil => rfl
    | cons y ys => cases h
  | cons x xs ih =>
    intro ys h
    cases ys with
    | nil => cases h
    | cons y ys =>
      rw [list, list, pair.injEq] at h
      rw [hf h.1, ih h.2]

theorem option_injective {f : α → Term} (hf : Injective f) : Injective (option f) := by
  intro x y h
  cases x <;> cases y
  · rfl
  · cases h
  · cases h
  · rw [option, option, pair.injEq] at h
    rw [hf h.2]

def bytes : Bytes → Term := list fun b => leaf b.toNat

theorem bytes_injective : Injective bytes :=
  list_injective fun _ _ h => UInt8.toNat_inj.mp (leaf.inj h)

def ballot (b : Ballot) : Term := pair (leaf b.epoch) (leaf b.incarnation)

theorem ballot_injective : Injective ballot := by
  rintro ⟨e, i, h⟩ ⟨e', i', h'⟩ heq
  simp only [ballot, pair.injEq, leaf.injEq] at heq
  obtain ⟨rfl, rfl⟩ := heq
  rfl

def node (v : Node) : Term := leaf v.val

theorem node_injective : Injective node := fun _ _ h => Fin.ext (leaf.inj h)

def entry (e : Entry Term) : Term :=
  pair (leaf e.originEpoch) (pair (leaf e.originIncarnation) (pair (leaf e.index)
    (pair (leaf e.operation) (pair (leaf e.previousEpoch) (pair e.previousDigest
      (bytes e.payload))))))

theorem entry_injective : Injective entry := by
  rintro ⟨a, b, c, d, e, f, g, _, _, _, _⟩ ⟨a', b', c', d', e', f', g', _, _, _, _⟩ h
  simp only [entry, pair.injEq, leaf.injEq] at h
  obtain ⟨rfl, rfl, rfl, rfl, rfl, rfl, hg⟩ := h
  cases bytes_injective hg
  rfl

def accept (a : Accept Term) : Term := pair (ballot a.ballot) (entry a.entry)

theorem accept_injective : Injective accept := by
  rintro ⟨b, e, _⟩ ⟨b', e', _⟩ h
  simp only [accept, pair.injEq] at h
  cases ballot_injective h.1
  cases entry_injective h.2
  rfl

def anchor (a : Anchor Term) : Term :=
  pair a.entryDigest (pair (leaf a.operation) (pair (leaf a.originEpoch)
    (pair (leaf a.originIncarnation) a.payloadDigest)))

theorem anchor_injective : Injective anchor := by
  rintro ⟨a, b, c, d, e⟩ ⟨a', b', c', d', e'⟩ h
  simp only [anchor, pair.injEq, leaf.injEq] at h
  obtain ⟨rfl, rfl, rfl, rfl, rfl⟩ := h
  rfl

variable {m : Manifest Term}

def proof (p : Proof m) : Term :=
  pair (ballot p.ballot) (pair (leaf p.index) (pair p.entryDigest (pair p.previousDigest
    (list node p.voters))))

theorem proof_injective : Injective (proof (m := m)) := by
  rintro ⟨a, b, c, d, e, _, _, _, _⟩ ⟨a', b', c', d', e', _, _, _, _⟩ h
  simp only [proof, pair.injEq, leaf.injEq] at h
  obtain ⟨ha, rfl, rfl, rfl, he⟩ := h
  cases ballot_injective ha
  cases list_injective node_injective he
  rfl

def snapshot (s : Snapshot m) : Term :=
  pair (bytes s.application) (pair (leaf s.applicationSequence) (pair (list anchor s.anchors)
    (option proof s.terminalProof)))

theorem snapshot_injective : Injective (snapshot (m := m)) := by
  rintro ⟨a, b, c, d, _, _, _, _⟩ ⟨a', b', c', d', _, _, _, _⟩ h
  simp only [snapshot, pair.injEq, leaf.injEq] at h
  obtain ⟨ha, rfl, hc, hd⟩ := h
  cases bytes_injective ha
  cases list_injective anchor_injective hc
  cases option_injective proof_injective hd
  rfl

def basis (b : Basis m) : Term :=
  pair (node b.node) (pair (ballot b.ballot) (pair (leaf b.basisId)
    (pair (snapshot b.image.snapshot) (option accept b.image.accepted))))

theorem basis_injective : Injective (basis (m := m)) := by
  rintro ⟨a, b, c, ⟨d, e, _⟩, _⟩ ⟨a', b', c', ⟨d', e', _⟩, _⟩ h
  simp only [basis, pair.injEq, leaf.injEq] at h
  obtain ⟨ha, hb, rfl, hd, he⟩ := h
  cases node_injective ha
  cases ballot_injective hb
  cases snapshot_injective hd
  cases option_injective accept_injective he
  rfl

def evidence (e : Node × ℕ × Term) : Term := pair (node e.1) (pair (leaf e.2.1) e.2.2)

theorem evidence_injective : Injective evidence := by
  rintro ⟨a, b, c⟩ ⟨a', b', c'⟩ h
  simp only [evidence, pair.injEq, leaf.injEq] at h
  obtain ⟨ha, rfl, rfl⟩ := h
  cases node_injective ha
  rfl

def selected (s : Selected Term) : Term :=
  pair (ballot s.ballot) (pair (list evidence s.bases) (pair (leaf s.prefixIndex)
    (pair (option id s.prefixDigest) (pair (option entry s.nextEntry)
      (option ballot s.sourceBallot)))))

theorem selected_injective : Injective selected := by
  rintro ⟨a, b, c, d, e, f⟩ ⟨a', b', c', d', e', f'⟩ h
  simp only [selected, pair.injEq, leaf.injEq] at h
  obtain ⟨ha, hb, rfl, hd, he, hf⟩ := h
  cases ballot_injective ha
  cases list_injective evidence_injective hb
  cases option_injective injective_id hd
  cases option_injective entry_injective he
  cases option_injective ballot_injective hf
  rfl

def receipt (k : Domain) (v : Node) (b : Ballot) (index : ℕ) (digest : Term) : Term :=
  pair (leaf (if k = .acceptAck then 0 else 1)) (pair (node v) (pair (ballot b)
    (pair (leaf index) digest)))

end Term

/-- SHA-256 replaced by terms. -/
def symbolic (m : Manifest Term) : Sha m where
  bytes := Term.bytes
  entry := Term.entry
  proof := Term.proof
  basis := Term.basis
  selected := Term.selected
  receipt := Term.receipt
  entry_injective := Term.entry_injective
  proof_injective := Term.proof_injective
  basis_injective := Term.basis_injective
  selected_injective := Term.selected_injective
  receipt_injective := by
    intro k k' v v' b b' i i' d d' h
    simp only [Term.receipt, Term.pair.injEq, Term.leaf.injEq] at h
    obtain ⟨hk, hv, hb, rfl, rfl⟩ := h
    refine ⟨?_, Term.node_injective hv, Term.ballot_injective hb, rfl, rfl⟩
    cases k <;> cases k' <;> simp_all

/-- A group over an empty application, whose members are named in order. -/
def emptyManifest : Manifest Term where
  digest := .leaf 0
  baseSequence := 0
  application := []
  order := Fin.val
  counter := Nat.zero_le _
  order_injective := Node.val_injective

def unlimited (m : Manifest Term) : Limits m := ⟨fun _ _ => true⟩

/-- Free generation slots and no faults. -/
def calm : Surroundings := ⟨true, true, false, none⟩

end GeneralSearch.Replication
