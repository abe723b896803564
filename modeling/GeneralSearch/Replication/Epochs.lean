import GeneralSearch.Replication.Protocol

/-! The epochs of campaigns in the 64-bit arithmetic of the source: `AutomaticProtocol.nextEpoch` and
the owner that `AutomaticRecords.context` demands of a ranked ballot.  The epochs from 2 on fall into
rounds of three, one epoch for each rank, and a campaign takes the epoch of its rank in the round
after the one that was observed.  The model of the voters computes the same epochs with natural
numbers. -/

namespace GeneralSearch.Replication.AutomaticProtocol

/-! ### Checked arithmetic -/

/-- A machine result, where it is the exact one, and `none` for an `ArithmeticException`. -/
def checked (exact : ℤ) (result : Int64) : Option Int64 :=
  if result.toInt = exact then some result else none

/-- `Math.addExact`. -/
def addExact (x y : Int64) : Option Int64 := checked (x.toInt + y.toInt) (x + y)

/-- `Math.multiplyExact`. -/
def multiplyExact (x y : Int64) : Option Int64 := checked (x.toInt * y.toInt) (x * y)

/-- The integers that a `long` holds. -/
def Fits (n : ℤ) : Prop := -2 ^ 63 ≤ n ∧ n ≤ 2 ^ 63 - 1

theorem fits_toInt (x : Int64) : Fits x.toInt :=
  ⟨x.le_toInt, Int.le_sub_one_of_lt x.toInt_lt⟩

theorem bmod_eq_of_fits {n : ℤ} (h : Fits n) : n.bmod (2 ^ 64) = n := by
  obtain ⟨h1, h2⟩ := h
  exact Int.bmod_eq_of_le (by omega) (by omega)

section

variable {x y z result : Int64} {exact : ℤ}

/-- A result that is exact modulo `2^64` is returned where the exact one fits. -/
theorem checked_eq_some (h : result.toInt = exact.bmod (2 ^ 64)) :
    checked exact result = some z ↔ z.toInt = exact := by
  unfold checked
  constructor
  · intro hz
    split at hz
    · rename_i hexact
      rw [← Option.some.inj hz, hexact]
    · cases hz
  · intro hz
    have hexact : result.toInt = exact := by rw [h, bmod_eq_of_fits (hz ▸ fits_toInt z)]
    rw [if_pos hexact, Int64.toInt_inj.mp (hexact.trans hz.symm)]

theorem checked_eq_none (h : result.toInt = exact.bmod (2 ^ 64)) :
    checked exact result = none ↔ ¬Fits exact := by
  unfold checked
  split
  · rename_i hexact
    simp [← hexact, fits_toInt]
  · rename_i hexact
    simp only [true_iff]
    intro hfits
    exact hexact (h.trans (bmod_eq_of_fits hfits))

theorem addExact_eq_some : addExact x y = some z ↔ z.toInt = x.toInt + y.toInt :=
  checked_eq_some (Int64.toInt_add x y)

theorem addExact_eq_none : addExact x y = none ↔ ¬Fits (x.toInt + y.toInt) :=
  checked_eq_none (Int64.toInt_add x y)

theorem multiplyExact_eq_some : multiplyExact x y = some z ↔ z.toInt = x.toInt * y.toInt :=
  checked_eq_some (Int64.toInt_mul x y)

theorem multiplyExact_eq_none : multiplyExact x y = none ↔ ¬Fits (x.toInt * y.toInt) :=
  checked_eq_none (Int64.toInt_mul x y)

end

/-! ### The next epoch -/

def exhausted : Failure := ⟨.capacityExceeded, "campaign epoch exhausted"⟩

def nextRound (observed : Int64) : Option Int64 :=
  if observed = 1 then some 0 else addExact ((observed - 2) / 3) 1

def nextEpoch (observed : Int64) (rank : Int32) : Except Failure Int64 := do
  capacity (1 ≤ observed ∧ 0 ≤ rank ∧ rank < 3) "campaign epoch/rank"
  let epoch := do
    let round ← nextRound observed
    addExact (← multiplyExact round 3) (rank + 2).toInt64
  epoch.elim (throw exhausted) pure

/-- The round after the one of an observed epoch.  The rounds are the triples of epochs from 2 on,
and the round of epoch 1 is before them. -/
def round (observed : Int64) : ℤ :=
  if observed.toInt = 1 then 0 else (observed.toInt - 2) / 3 + 1

/-- The epoch of a rank in the round after the one of an observed epoch. -/
def campaign (observed : Int64) (rank : Int32) : ℤ := 3 * round observed + rank.toInt + 2

/-! ### The owner of an epoch -/

/-- The nodes of a MANIFEST, whose schema demands three members and whose semantics demand distinct
names. -/
structure Members where
  nodes : List String
  three : nodes.length = 3
  distinct : nodes.Nodup
  deriving DecidableEq

/-- `List.indexOf`. -/
def indexOf (nodes : List String) (node : String) : Int32 :=
  if node ∈ nodes then Int32.ofNat (nodes.idxOf node) else -1

def Members.rank (m : Members) (node : String) : Int32 := indexOf m.nodes node

def ZERO : String := "00000000-0000-0000-0000-000000000000"

def ballot (epoch : Int64) (proposer : Option String) (incarnation : String) :
    Except Failure Unit :=
  need (if epoch = 1 then proposer = none ∧ incarnation = ZERO
    else 1 < epoch ∧ proposer ≠ none ∧ incarnation ≠ ZERO) "ballot identity"

/-- The check that a ranked ballot names the node of its epoch's place as its proposer. -/
def ranked (m : Members) (epoch : Int64) (proposer : Option String) (message : String) :
    Except Failure Unit := do
  if 1 < epoch then
    let some owner := m.nodes[((epoch - 2) % 3).toInt32.toInt.toNat]?
      | throw ⟨.integrityFailure, "IndexOutOfBoundsException"⟩
    need (some owner = proposer) message

/-- The check of `context` on a PROMISE, an ACCEPT or a PROOF. -/
def rankedBallot (m : Members) (epoch : Int64) (proposer : Option String) : Except Failure Unit :=
  ranked m epoch proposer "ranked ballot owner"

/-- The checks of `context` on a `ballot` or a `sourceBallot` within a record. -/
def nestedBallot (m : Members) (epoch : Int64) (proposer : Option String) (incarnation : String) :
    Except Failure Unit := do
  ballot epoch proposer incarnation
  ranked m epoch proposer "ranked nested ballot"

/-! ### What an epoch is -/

variable {observed epoch : Int64} {rank : Int32}

/-- The conditions under which an epoch is computed, as integers. -/
theorem capacity_iff : (1 ≤ observed ∧ 0 ≤ rank ∧ rank < 3) ↔
    1 ≤ observed.toInt ∧ 0 ≤ rank.toInt ∧ rank.toInt < 3 := by
  rw [Int64.le_iff_toInt_le, Int32.le_iff_toInt_le, Int32.lt_iff_toInt_lt]
  exact Iff.rfl

/-- The first checked sum never overflows. -/
theorem nextRound_eq_some (h : 1 ≤ observed.toInt) :
    ∃ z, nextRound observed = some z ∧ z.toInt = round observed := by
  have hone : observed = 1 ↔ observed.toInt = 1 := Int64.toInt_inj.symm
  unfold nextRound round
  by_cases hfirst : observed.toInt = 1
  · rw [if_pos (hone.mpr hfirst), if_pos hfirst]
    exact ⟨0, rfl, rfl⟩
  · rw [if_neg (mt hone.mp hfirst), if_neg hfirst]
    have hfits := fits_toInt observed
    have hsub : (observed - 2).toInt = observed.toInt - 2 := by
      have htwo : (2 : Int64).toInt = 2 := rfl
      rw [Int64.toInt_sub, htwo]
      exact bmod_eq_of_fits ⟨by omega, by have := hfits.2; omega⟩
    have hdiv : ((observed - 2) / 3).toInt = (observed.toInt - 2) / 3 := by
      rw [Int64.toInt_div_of_ne_right _ _ (by decide), hsub]
      exact Int.tdiv_eq_ediv_of_nonneg (by omega)
    cases hz : addExact ((observed - 2) / 3) 1 with
    | none =>
      refine absurd ?_ (addExact_eq_none.mp hz)
      rw [hdiv]
      unfold Fits at hfits ⊢
      have h1 : (1 : Int64).toInt = 1 := rfl
      omega
    | some z => exact ⟨z, rfl, by rw [addExact_eq_some.mp hz, hdiv]; rfl⟩

/-- All that can overflow is the last sum, whose exact value is the epoch of the campaign. -/
theorem nextEpoch_eq (h : 1 ≤ observed.toInt) (hrank : 0 ≤ rank.toInt ∧ rank.toInt < 3) :
    ∃ x y : Int64, x.toInt + y.toInt = campaign observed rank ∧
      nextEpoch observed rank = (addExact x y).elim (throw exhausted) pure := by
  obtain ⟨z, hz, hround⟩ := nextRound_eq_some h
  have hfits := fits_toInt observed
  have hproduct : Fits (z.toInt * (3 : Int64).toInt) := by
    have hthree : (3 : Int64).toInt = 3 := rfl
    rw [hround, hthree]
    unfold Fits at hfits ⊢
    unfold round
    split <;> omega
  have hsum : (rank + 2).toInt64.toInt = rank.toInt + 2 := by
    have htwo : (2 : Int32).toInt = 2 := rfl
    rw [Int32.toInt_toInt64, Int32.toInt_add, htwo]
    exact Int.bmod_eq_of_le (by omega) (by omega)
  cases hw : multiplyExact z 3 with
  | none => exact absurd hproduct (multiplyExact_eq_none.mp hw)
  | some w =>
    refine ⟨w, (rank + 2).toInt64, ?_, ?_⟩
    · have hthree : (3 : Int64).toInt = 3 := rfl
      rw [multiplyExact_eq_some.mp hw, hsum, hround, hthree]
      unfold campaign
      omega
    · have hcapacity : (1 ≤ observed ∧ 0 ≤ rank ∧ rank < 3) := capacity_iff.mpr ⟨h, hrank⟩
      unfold nextEpoch capacity
      simp only [if_pos hcapacity, hz, hw, Option.bind_eq_bind, Option.bind_some, pure_bind]

theorem nextEpoch_eq_ok (h : 1 ≤ observed.toInt) (hrank : 0 ≤ rank.toInt ∧ rank.toInt < 3) :
    nextEpoch observed rank = .ok epoch ↔ epoch.toInt = campaign observed rank := by
  obtain ⟨x, y, hexact, heq⟩ := nextEpoch_eq h hrank
  rw [heq, ← hexact, ← addExact_eq_some]
  cases addExact x y with
  | none => exact ⟨nofun, nofun⟩
  | some z => exact ⟨fun hz => congrArg some (Except.ok.inj hz), fun hz => congrArg Except.ok (Option.some.inj hz)⟩

theorem nextEpoch_eq_error {failure : Failure} (h : 1 ≤ observed.toInt)
    (hrank : 0 ≤ rank.toInt ∧ rank.toInt < 3) :
    nextEpoch observed rank = .error failure ↔
      failure = exhausted ∧ ¬Fits (campaign observed rank) := by
  obtain ⟨x, y, hexact, heq⟩ := nextEpoch_eq h hrank
  rw [heq, ← hexact, ← addExact_eq_none]
  cases addExact x y with
  | none => exact ⟨fun hf => ⟨(Except.error.inj hf).symm, rfl⟩, fun hf => congrArg Except.error hf.1.symm⟩
  | some z => exact ⟨nofun, nofun⟩

/-- The last round is full: what decides is the observed epoch, whatever the rank. -/
theorem fits_campaign_iff (h : 1 ≤ observed.toInt) (hrank : 0 ≤ rank.toInt ∧ rank.toInt < 3) :
    Fits (campaign observed rank) ↔ observed.toInt < 2 ^ 63 - 3 := by
  unfold Fits campaign round
  split <;> omega

theorem lt_campaign (hrank : 0 ≤ rank.toInt ∧ rank.toInt < 3) :
    observed.toInt < campaign observed rank := by
  unfold campaign round
  split <;> omega

/-- The place of an epoch in its round. -/
theorem toInt_place (h : 1 < epoch.toInt) :
    ((epoch - 2) % 3).toInt = (epoch.toInt - 2) % 3 := by
  have htwo : (2 : Int64).toInt = 2 := rfl
  have hthree : (3 : Int64).toInt = 3 := rfl
  have hfits := fits_toInt epoch
  have hsub : (epoch - 2).toInt = epoch.toInt - 2 := by
    rw [Int64.toInt_sub, htwo]
    exact bmod_eq_of_fits ⟨by omega, by have := hfits.2; omega⟩
  rw [Int64.toInt_mod, hsub, hthree]
  exact Int.tmod_eq_emod_of_nonneg (by omega)

theorem place_campaign (h : 1 ≤ observed.toInt) (hrank : 0 ≤ rank.toInt ∧ rank.toInt < 3)
    (hepoch : epoch.toInt = campaign observed rank) : (epoch - 2) % 3 = rank.toInt64 := by
  have hlt : observed.toInt < campaign observed rank := lt_campaign hrank
  rw [← Int64.toInt_inj, toInt_place (by omega), Int32.toInt_toInt64, hepoch]
  unfold campaign
  omega

/-! ### Ranks and owners -/

section

variable {m : Members} {voter : String} {proposer : Option String} {message incarnation : String}

theorem Members.toInt_rank (h : voter ∈ m.nodes) :
    (m.rank voter).toInt = m.nodes.idxOf voter ∧ m.nodes.idxOf voter < 3 := by
  have hplace : m.nodes.idxOf voter < 3 := m.three ▸ List.idxOf_lt_length_iff.mpr h
  unfold Members.rank indexOf
  rw [if_pos h]
  exact ⟨Int32.toInt_ofNat_of_lt (by omega), hplace⟩

theorem Members.rank_within (h : voter ∈ m.nodes) :
    0 ≤ (m.rank voter).toInt ∧ (m.rank voter).toInt < 3 := by
  obtain ⟨hrank, hplace⟩ := Members.toInt_rank h
  omega

theorem Members.rank_injective {other : String} (h : voter ∈ m.nodes) (ho : other ∈ m.nodes)
    (heq : m.rank voter = m.rank other) : voter = other := by
  have hplace : m.nodes.idxOf voter = m.nodes.idxOf other := by
    have h1 := (Members.toInt_rank h).1
    have h2 := (Members.toInt_rank ho).1
    rw [heq] at h1
    omega
  exact (List.idxOf_inj h).mp hplace

/-- The epoch whose place is a voter's rank is owned by that voter. -/
theorem ranked_eq (h : voter ∈ m.nodes) (hepoch : 1 < epoch.toInt)
    (hplace : (epoch - 2) % 3 = (m.rank voter).toInt64) :
    ranked m epoch proposer message = need (some voter = proposer) message := by
  have hlt : 1 < epoch := Int64.lt_iff_toInt_lt.mpr hepoch
  obtain ⟨hrank, hthird⟩ := Members.toInt_rank h
  have howner : m.nodes[((epoch - 2) % 3).toInt32.toInt.toNat]? = some voter := by
    rw [hplace, Int32.toInt32_toInt64, hrank, Int.toNat_natCast]
    exact List.getElem?_idxOf h
  unfold ranked
  rw [if_pos hlt, howner]

theorem ballot_eq_ok (hepoch : 1 < epoch.toInt) (hincarnation : incarnation ≠ ZERO) :
    ballot epoch (some voter) incarnation = .ok () := by
  have hne : epoch ≠ 1 := by
    rintro rfl
    exact absurd hepoch (by decide)
  unfold ballot
  rw [need_eq_ok, if_neg hne]
  exact ⟨Int64.lt_iff_toInt_lt.mpr hepoch, nofun, hincarnation⟩

end

/-! ### The model of the voters -/

/-- The epoch of a campaign, in the voters' model. -/
theorem protocol_nextEpoch {seen value : ℕ} {node : Node} (h : 1 ≤ seen)
    (hvalue : value = (if seen = 1 then 0 else (seen - 2) / 3 + 1) * 3 + (node.val + 2)) :
    Protocol.nextEpoch seen node = if value ≤ maxLong then .ok value else .error exhausted := by
  unfold Protocol.nextEpoch capacity
  rw [if_pos h]
  simp only [pure_bind, ← hvalue]
  by_cases hfits : value ≤ maxLong
  · simp only [if_pos hfits, pure_bind]
    rfl
  · simp only [if_neg hfits]
    rfl

/-- The epochs of the voters' model are those of the source. -/
theorem nextEpoch_refines (h : 1 ≤ observed.toInt) (node : Node) :
    (nextEpoch observed (Int32.ofNat node)).map (fun e => e.toInt.toNat) =
      Protocol.nextEpoch observed.toInt.toNat node := by
  have hnode : (Int32.ofNat node).toInt = node.val := Int32.toInt_ofNat_of_lt (by omega)
  have hrank : 0 ≤ (Int32.ofNat node).toInt ∧ (Int32.ofNat node).toInt < 3 := by omega
  have hcampaign : (campaign observed (Int32.ofNat node)).toNat =
      (if observed.toInt.toNat = 1 then 0 else (observed.toInt.toNat - 2) / 3 + 1) * 3 +
        (node.val + 2) := by
    unfold campaign round
    rw [hnode]
    split <;> split <;> omega
  have hfits : Fits (campaign observed (Int32.ofNat node)) ↔
      (campaign observed (Int32.ofNat node)).toNat ≤ maxLong := by
    have hlt : observed.toInt < campaign observed (Int32.ofNat node) := lt_campaign hrank
    unfold Fits maxLong
    omega
  rw [protocol_nextEpoch (by omega) hcampaign]
  cases hresult : nextEpoch observed (Int32.ofNat node) with
  | error failure =>
    obtain ⟨rfl, hover⟩ := (nextEpoch_eq_error h hrank).mp hresult
    rw [if_neg (mt hfits.mpr hover)]
    rfl
  | ok epoch =>
    have hepoch := (nextEpoch_eq_ok h hrank).mp hresult
    rw [if_pos (hfits.mp (hepoch ▸ fits_toInt epoch)), ← hepoch]
    rfl

/-- The owner that the voters' model gives a ballot is the one that `context` demands. -/
theorem rankedBallot_refines {m : Members} {b : Ballot} (hb : epoch.toInt = b.epoch)
    (hranked : b.epoch ≠ 1) (node : Node) :
    rankedBallot m epoch m.nodes[node.val]? = .ok () ↔ b.proposer = some node := by
  have hepoch : 1 < epoch.toInt := by
    have := b.identity
    omega
  have hplace : ((epoch - 2) % 3).toInt = ((b.epoch - 2) % 3 : ℕ) := by
    rw [toInt_place hepoch, hb]
    omega
  obtain ⟨voter, hvoter⟩ : ∃ voter, m.nodes[(b.epoch - 2) % 3]? = some voter :=
    ⟨_, List.getElem?_eq_getElem (by rw [m.three]; omega)⟩
  have hmem : voter ∈ m.nodes := List.mem_of_getElem? hvoter
  have hrank : m.nodes.idxOf voter = (b.epoch - 2) % 3 := by
    obtain ⟨hlt, rfl⟩ := List.getElem?_eq_some_iff.mp hvoter
    exact m.distinct.idxOf_getElem _ hlt
  unfold rankedBallot Ballot.proposer
  rw [ranked_eq hmem hepoch ?_, need_eq_ok, if_neg hranked, ← hvoter]
  · rw [List.getElem?_inj (by rw [m.three]; omega) m.distinct, Option.some.injEq, Fin.ext_iff]
  · rw [← Int64.toInt_inj, hplace, Int32.toInt_toInt64, (Members.toInt_rank hmem).1, hrank]

/-! ### Campaign ballots -/

section

variable {m : Members} {voter : String}

/-- What is computed at all is computed from an epoch and a rank in bounds. -/
theorem nextEpoch_within (h : nextEpoch observed rank = .ok epoch) :
    1 ≤ observed.toInt ∧ 0 ≤ rank.toInt ∧ rank.toInt < 3 := by
  unfold nextEpoch at h
  simp only [Lib.bind_eq_ok, capacity_eq_ok] at h
  obtain ⟨_, hcapacity, -⟩ := h
  exact capacity_iff.mp hcapacity

/-- The epochs of the campaigns of two ranks are never the same. -/
theorem nextEpoch_rank {before : Int64} {other : Int32} (h : nextEpoch observed rank = .ok epoch)
    (hother : nextEpoch before other = .ok epoch) : rank = other := by
  obtain ⟨hobserved, hrank⟩ := nextEpoch_within h
  obtain ⟨hbefore, horank⟩ := nextEpoch_within hother
  have h1 := (nextEpoch_eq_ok hobserved hrank).mp h
  have h2 := (nextEpoch_eq_ok hbefore horank).mp hother
  apply Int32.toInt_inj.mp
  unfold campaign at h1 h2
  omega

theorem nextEpoch_throws (h : 1 ≤ observed.toInt) (hrank : 0 ≤ rank.toInt ∧ rank.toInt < 3) :
    (∃ failure, nextEpoch observed rank = .error failure) ↔ Int64.maxValue - 2 ≤ observed := by
  have hlast : (Int64.maxValue - 2).toInt = 2 ^ 63 - 3 := by decide
  rw [Int64.le_iff_toInt_le, hlast, ← not_lt, ← fits_campaign_iff h hrank]
  constructor
  · rintro ⟨failure, hf⟩
    exact ((nextEpoch_eq_error h hrank).mp hf).2
  · intro hover
    exact ⟨exhausted, (nextEpoch_eq_error h hrank).mpr ⟨rfl, hover⟩⟩

/-- An epoch of a rank above the observed one, among the integers. -/
theorem exists_ranked_iff (h : 1 ≤ observed.toInt) (hrank : 0 ≤ rank.toInt ∧ rank.toInt < 3) :
    (∃ epoch : Int64, observed < epoch ∧ (epoch - 2) % 3 = rank.toInt64) ↔
      observed.toInt < 2 ^ 63 - 3 + rank.toInt := by
  constructor
  · rintro ⟨epoch, hlt, hplace⟩
    have hfits := fits_toInt epoch
    have hlt' := Int64.lt_iff_toInt_lt.mp hlt
    have hplace' := congrArg Int64.toInt hplace
    rw [toInt_place (by omega), Int32.toInt_toInt64] at hplace'
    unfold Fits at hfits
    omega
  · intro hlt
    -- the last epoch of the rank
    have hlast : (Int64.ofInt (2 ^ 63 - 3 + rank.toInt)).toInt = 2 ^ 63 - 3 + rank.toInt :=
      Int64.toInt_ofInt_of_le (by omega) (by omega)
    refine ⟨Int64.ofInt (2 ^ 63 - 3 + rank.toInt), ?_, ?_⟩
    · rw [Int64.lt_iff_toInt_lt, hlast]
      exact hlt
    · rw [← Int64.toInt_inj, toInt_place (by omega), hlast, Int32.toInt_toInt64]
      omega

end

/-- A campaign's epoch is above the observed one and has the voter's rank as its place; every check
of an owner accepts it for that voter and for no other member, and no other member's campaign ever
has it.  What is refused is a campaign whose round does not fit, and only the round of the last
three epochs is never followed by one: there, and for three campaigns only, an epoch of the voter's
rank above the observed one would still have fit. -/
theorem nextEpoch_ranked (m : Members) (voter : String) (observed : Int64) (hvoter : voter ∈ m.nodes)
    (hobserved : 1 ≤ observed) :
    (∀ epoch, nextEpoch observed (m.rank voter) = .ok epoch →
      observed < epoch ∧ (epoch - 2) % 3 = (m.rank voter).toInt64 ∧
      (∀ proposer ∈ m.nodes,
        (rankedBallot m epoch (some proposer) = .ok () ↔ proposer = voter) ∧
        ∀ incarnation, incarnation ≠ ZERO →
          (nestedBallot m epoch (some proposer) incarnation = .ok () ↔ proposer = voter)) ∧
      ∀ other ∈ m.nodes, ∀ before, nextEpoch before (m.rank other) = .ok epoch → other = voter) ∧
    (∀ failure, nextEpoch observed (m.rank voter) = .error failure ↔
      failure = exhausted ∧ ¬Fits (campaign observed (m.rank voter))) ∧
    ((∃ failure, nextEpoch observed (m.rank voter) = .error failure) ↔
      Int64.maxValue - 2 ≤ observed) ∧
    ((∃ failure, nextEpoch observed (m.rank voter) = .error failure) ∧
        (∃ epoch : Int64, observed < epoch ∧ (epoch - 2) % 3 = (m.rank voter).toInt64) ↔
      observed = Int64.maxValue - 2 ∧ m.rank voter ≠ 0 ∨
        observed = Int64.maxValue - 1 ∧ m.rank voter = 2) := by
  have hobs : 1 ≤ observed.toInt := Int64.le_iff_toInt_le.mp hobserved
  have hrank := Members.rank_within hvoter
  refine ⟨fun epoch hepoch => ?_, fun failure => nextEpoch_eq_error hobs hrank,
    nextEpoch_throws hobs hrank, ?_⟩
  · have hvalue := (nextEpoch_eq_ok hobs hrank).mp hepoch
    have hlt : observed.toInt < epoch.toInt := hvalue ▸ lt_campaign hrank
    have hplace := place_campaign hobs hrank hvalue
    have howner : ∀ proposer message,
        ranked m epoch (some proposer) message = .ok () ↔ proposer = voter := by
      intro proposer message
      rw [ranked_eq hvoter (by omega) hplace, need_eq_ok, Option.some.injEq, eq_comm]
    refine ⟨Int64.lt_iff_toInt_lt.mpr hlt, hplace, fun proposer _ => ⟨howner proposer _, ?_⟩, ?_⟩
    · intro incarnation hincarnation
      unfold nestedBallot
      rw [ballot_eq_ok (by omega) hincarnation]
      exact howner proposer _
    · intro other hother before hbefore
      exact (Members.rank_injective hvoter hother (nextEpoch_rank hepoch hbefore)).symm
  · have hlast : (Int64.maxValue - 2).toInt = 2 ^ 63 - 3 := by decide
    have hbefore : (Int64.maxValue - 1).toInt = 2 ^ 63 - 2 := by decide
    have hzero : (0 : Int32).toInt = 0 := rfl
    have htwo : (2 : Int32).toInt = 2 := rfl
    rw [nextEpoch_throws hobs hrank, exists_ranked_iff hobs hrank, Int64.le_iff_toInt_le, hlast,
      ← Int64.toInt_inj, ← Int64.toInt_inj, hlast, hbefore, ne_eq, ← Int32.toInt_inj,
      ← Int32.toInt_inj, hzero, htwo]
    omega

def trio : Members := ⟨["node-1", "node-2", "node-3"], rfl, by decide⟩

theorem nextEpoch_ranked_trio :
    nextEpoch 5 (trio.rank "node-2") = .ok 9 ∧ rankedBallot trio 9 (some "node-2") = .ok () ∧
      rankedBallot trio 9 (some "node-3") ≠ .ok () := by
  have hepoch : nextEpoch 5 (trio.rank "node-2") = .ok 9 := by decide
  obtain ⟨-, -, howner, -⟩ := (nextEpoch_ranked trio "node-2" 5 (by decide) (by decide)).1 9 hepoch
  exact ⟨hepoch, (howner "node-2" (by decide)).1.mpr rfl,
    fun h => absurd ((howner "node-3" (by decide)).1.mp h) (by decide)⟩

/-- Within the last round a campaign is refused although an epoch of its rank is left. -/
theorem nextEpoch_last :
    ¬((∃ failure, nextEpoch (Int64.maxValue - 2) (trio.rank "node-2") = .error failure) ↔
      ¬∃ epoch : Int64, Int64.maxValue - 2 < epoch ∧
        (epoch - 2) % 3 = (trio.rank "node-2").toInt64) := by
  intro h
  have hthrows : nextEpoch (Int64.maxValue - 2) (trio.rank "node-2") = .error exhausted := by decide
  exact h.mp ⟨exhausted, hthrows⟩ ⟨Int64.maxValue - 1, by decide, by decide⟩

end GeneralSearch.Replication.AutomaticProtocol
