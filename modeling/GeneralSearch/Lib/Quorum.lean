import Mathlib.Data.Set.Basic
import Mathlib.Order.WellFounded
import Mathlib.Tactic.WLOG

/-! Voting by ballots on a sequence of slots.  A proposer opens a ballot by collecting reports of a
quorum; a report says how long a prefix of slots is settled for the voter, and what the voter voted
for last in the slot after it. -/

namespace GeneralSearch.Lib

/-- The votes and the reports that were ever made. -/
structure Voting (V B α : Type) where
  quorum : Set V → Prop
  vote : V → B → ℕ → α → Prop
  report : V → B → ℕ → Option (B × α) → Prop

namespace Voting

variable {V B α : Type} [LinearOrder B]

/-- The discipline of voters and proposers.  A report covers every vote at a lower ballot; a
proposer votes above the settled prefixes of its quorum, and in the slot right after them for the
last vote that was reported for it. -/
structure Disciplined (S : Voting V B α) : Prop where
  meet : ∀ {q q' : Set V}, S.quorum q → S.quorum q' → ∃ v ∈ q, v ∈ q'
  single : ∀ {v w b i x y}, S.vote v b i x → S.vote w b i y → x = y
  covers : ∀ {v b b' cut last i x}, S.report v b cut last → S.vote v b' i x → b' < b →
    i ≤ cut ∨ i = cut + 1 ∧ ∃ c y, last = some (c, y) ∧ b' ≤ c
  reported : ∀ {v b cut c y}, S.report v b cut (some (c, y)) → c < b ∧ S.vote v c (cut + 1) y
  justified : ∀ {v b i x}, S.vote v b i x → ∃ q, S.quorum q ∧
    ∃ (cut : V → ℕ) (last : V → Option (B × α)),
      (∀ w ∈ q, S.report w b (cut w) (last w) ∧ cut w < i) ∧
      ∀ w ∈ q, cut w + 1 = i → ∀ c y, last w = some (c, y) →
        ∃ w' ∈ q, cut w' + 1 = i ∧ ∃ c', last w' = some (c', x) ∧ c ≤ c'

/-- A quorum voted for the value. -/
def Chosen (S : Voting V B α) (b : B) (i : ℕ) (x : α) : Prop :=
  ∃ q, S.quorum q ∧ ∀ v ∈ q, S.vote v b i x

variable {S : Voting V B α} {b b' : B} {i : ℕ} {x y : α}

/-- A quorum of reports at a higher ballot knows every chosen value: the slot is settled for one of
its voters, or it is the next one and has a vote at least as high. -/
theorem Disciplined.known (hS : S.Disciplined) (hx : S.Chosen b i x) (hb : b < b') {q : Set V}
    (hq : S.quorum q) {cut : V → ℕ} {last : V → Option (B × α)}
    (hreports : ∀ w ∈ q, S.report w b' (cut w) (last w)) :
    ∃ w ∈ q, i ≤ cut w ∨ i = cut w + 1 ∧ ∃ c y, last w = some (c, y) ∧ b ≤ c := by
  obtain ⟨q', hq', hvotes⟩ := hx
  obtain ⟨w, hw, hw'⟩ := hS.meet hq hq'
  exact ⟨w, hw, hS.covers (hreports w hw) (hvotes w hw') hb⟩

/-- Every vote at or above the ballot that chose a value is for this value. -/
theorem Disciplined.stable [WellFoundedLT B] (hS : S.Disciplined) (hx : S.Chosen b i x)
    (hb : b ≤ b') {v : V} (hy : S.vote v b' i y) : y = x := by
  induction b' using WellFoundedLT.induction generalizing v y with
  | ind b' ih =>
    rcases hb.eq_or_lt with rfl | hlt
    · obtain ⟨q, hq, hvotes⟩ := hx
      obtain ⟨w, hw, -⟩ := hS.meet hq hq
      exact hS.single hy (hvotes w hw)
    · obtain ⟨q, hq, cut, last, hreports, hnext⟩ := hS.justified hy
      obtain ⟨w, hw, hknown⟩ := hS.known hx hlt hq fun w hw => (hreports w hw).1
      have hcut := (hreports w hw).2
      obtain ⟨hi, c, z, hlast, hc⟩ := hknown.resolve_left (by omega)
      -- the vote repeats the highest one reported, which is below its ballot
      obtain ⟨w', hw', hi', c', hlast', hcc⟩ := hnext w hw hi.symm c z hlast
      have hreport := (hreports w' hw').1
      rw [hlast'] at hreport
      obtain ⟨hc'b, hvote⟩ := hS.reported hreport
      rw [hi'] at hvote
      exact ih c' hc'b (hc.trans hcc) hvote

/-- At most one value is chosen for a slot. -/
theorem Disciplined.agreement [WellFoundedLT B] (hS : S.Disciplined) (hx : S.Chosen b i x)
    (hy : S.Chosen b' i y) : x = y := by
  wlog hb : b ≤ b' generalizing b b' x y
  · exact (this hy hx (le_of_not_ge hb)).symm
  · obtain ⟨q, hq, hvotes⟩ := hy
    obtain ⟨w, hw, -⟩ := hS.meet hq hq
    exact (hS.stable hx hb (hvotes w hw)).symm

end Voting

end GeneralSearch.Lib
