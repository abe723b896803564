import Mathlib.Data.List.Induction
import Mathlib.Data.List.Pairwise
import Mathlib.Order.MinMax
import Mathlib.Tactic.Common

/-! Half-open intervals in the order of their starts, merged on the fly: an interval that begins
before the last one ends is joined to it, another one stands behind it. -/

namespace GeneralSearch.Lib

variable {ι α : Type} [LinearOrder α] (start stop : ι → α) (join : ι → ι → ι)

/-- One interval after those that are merged. -/
def absorb (merged : List ι) (next : ι) : List ι :=
  match merged.getLast? with
  | none => [next]
  | some previous =>
    if start next < stop previous then merged.dropLast ++ [join previous next]
    else merged ++ [next]

/-- The intervals that overlap are merged. -/
def coalesce (items : List ι) : List ι := items.foldl (absorb start stop join) []

/-- What merged intervals are to the ones they come from. -/
structure Coalesced (items merged : List ι) : Prop where
  nonempty : ∀ m ∈ merged, start m < stop m
  separated : merged.Pairwise fun a b => stop a ≤ start b
  contains : ∀ x ∈ items, ∃ m ∈ merged, start m ≤ start x ∧ stop x ≤ stop m
  covered : ∀ m ∈ merged, ∀ p, start m ≤ p → p < stop m → ∃ x ∈ items, start x ≤ p ∧ p < stop x
  starts : ∀ m ∈ merged, ∃ x ∈ items, start m = start x
  stops : ∀ m ∈ merged, ∃ x ∈ items, stop m = stop x

variable {start stop join}

section

variable {items merged : List ι} {next : ι}

/-- An interval behind all others. -/
theorem Coalesced.append (h : Coalesced start stop items merged) (hnext : start next < stop next)
    (hbehind : ∀ m ∈ merged, stop m ≤ start next) :
    Coalesced start stop (items ++ [next]) (merged ++ [next]) where
  nonempty m hm := by
    rcases List.mem_append.mp hm with hm | hm
    · exact h.nonempty m hm
    · rwa [List.mem_singleton.mp hm]
  separated := by
    refine List.pairwise_append.mpr ⟨h.separated, List.pairwise_singleton _ _, fun m hm x hx => ?_⟩
    rw [List.mem_singleton.mp hx]
    exact hbehind m hm
  contains x hx := by
    rcases List.mem_append.mp hx with hx | hx
    · obtain ⟨m, hm, hin⟩ := h.contains x hx
      exact ⟨m, List.mem_append_left _ hm, hin⟩
    · rw [List.mem_singleton.mp hx]
      exact ⟨next, by simp, le_rfl, le_rfl⟩
  covered m hm p hlow hhigh := by
    rcases List.mem_append.mp hm with hm | hm
    · obtain ⟨x, hx, hin⟩ := h.covered m hm p hlow hhigh
      exact ⟨x, List.mem_append_left _ hx, hin⟩
    · rw [List.mem_singleton.mp hm] at hlow hhigh
      exact ⟨next, by simp, hlow, hhigh⟩
  starts m hm := by
    rcases List.mem_append.mp hm with hm | hm
    · obtain ⟨x, hx, heq⟩ := h.starts m hm
      exact ⟨x, List.mem_append_left _ hx, heq⟩
    · rw [List.mem_singleton.mp hm]
      exact ⟨next, by simp, rfl⟩
  stops m hm := by
    rcases List.mem_append.mp hm with hm | hm
    · obtain ⟨x, hx, heq⟩ := h.stops m hm
      exact ⟨x, List.mem_append_left _ hx, heq⟩
    · rw [List.mem_singleton.mp hm]
      exact ⟨next, by simp, rfl⟩

variable {before : List ι} {previous union : ι}

/-- An interval that begins inside the last one. -/
theorem Coalesced.joined (h : Coalesced start stop items (before ++ [previous]))
    (hordered : start previous ≤ start next) (hinside : start next < stop previous)
    (hstart : start union = start previous)
    (hstop : stop union = max (stop previous) (stop next)) :
    Coalesced start stop (items ++ [next]) (before ++ [union]) := by
  have hprevious : previous ∈ before ++ [previous] := by simp
  have hbefore : ∀ m ∈ before, m ∈ before ++ [previous] := fun m hm => List.mem_append_left _ hm
  have hle : stop previous ≤ stop union := hstop ▸ le_max_left ..
  refine ⟨fun m hm => ?_, ?_, fun x hx => ?_, fun m hm p hlow hhigh => ?_, fun m hm => ?_,
    fun m hm => ?_⟩
  · rcases List.mem_append.mp hm with hm | hm
    · exact h.nonempty m (hbefore m hm)
    · rw [List.mem_singleton.mp hm, hstart]
      exact (h.nonempty previous hprevious).trans_le hle
  · obtain ⟨hpairwise, -, hlast⟩ := List.pairwise_append.mp h.separated
    refine List.pairwise_append.mpr ⟨hpairwise, List.pairwise_singleton _ _, fun m hm x hx => ?_⟩
    rw [List.mem_singleton.mp hx, hstart]
    exact hlast m hm previous (by simp)
  · rcases List.mem_append.mp hx with hx | hx
    · obtain ⟨m, hm, hlow, hhigh⟩ := h.contains x hx
      rcases List.mem_append.mp hm with hm | hm
      · exact ⟨m, List.mem_append_left _ hm, hlow, hhigh⟩
      · rw [List.mem_singleton.mp hm] at hlow hhigh
        exact ⟨union, by simp, hstart ▸ hlow, hhigh.trans hle⟩
    · rw [List.mem_singleton.mp hx]
      exact ⟨union, by simp, hstart ▸ hordered, hstop ▸ le_max_right ..⟩
  · rcases List.mem_append.mp hm with hm | hm
    · obtain ⟨x, hx, hin⟩ := h.covered m (hbefore m hm) p hlow hhigh
      exact ⟨x, List.mem_append_left _ hx, hin⟩
    · rw [List.mem_singleton.mp hm, hstart] at hlow
      rw [List.mem_singleton.mp hm, hstop] at hhigh
      by_cases hp : p < stop previous
      · obtain ⟨x, hx, hin⟩ := h.covered previous hprevious p hlow hp
        exact ⟨x, List.mem_append_left _ hx, hin⟩
      · refine ⟨next, by simp, hinside.le.trans (not_lt.mp hp), ?_⟩
        exact (lt_max_iff.mp hhigh).resolve_left hp
  · rcases List.mem_append.mp hm with hm | hm
    · obtain ⟨x, hx, heq⟩ := h.starts m (hbefore m hm)
      exact ⟨x, List.mem_append_left _ hx, heq⟩
    · obtain ⟨x, hx, heq⟩ := h.starts previous hprevious
      rw [List.mem_singleton.mp hm]
      exact ⟨x, List.mem_append_left _ hx, hstart.trans heq⟩
  · rcases List.mem_append.mp hm with hm | hm
    · obtain ⟨x, hx, heq⟩ := h.stops m (hbefore m hm)
      exact ⟨x, List.mem_append_left _ hx, heq⟩
    · rw [List.mem_singleton.mp hm, hstop]
      rcases max_choice (stop previous) (stop next) with hmax | hmax
      · obtain ⟨x, hx, heq⟩ := h.stops previous hprevious
        exact ⟨x, List.mem_append_left _ hx, hmax.trans heq⟩
      · exact ⟨next, by simp, hmax⟩

end

variable (start stop join) in
/-- Intervals in the order of their starts are merged to the intervals that they cover. -/
theorem coalesce_coalesced (hstart : ∀ a b, start (join a b) = start a)
    (hstop : ∀ a b, stop (join a b) = max (stop a) (stop b)) (items : List ι)
    (hnonempty : ∀ x ∈ items, start x < stop x)
    (hordered : items.Pairwise fun a b => start a ≤ start b) :
    Coalesced start stop items (coalesce start stop join items) := by
  induction items using List.reverseRecOn with
  | nil => exact ⟨nofun, .nil, nofun, nofun, nofun, nofun⟩
  | append_singleton items next ih =>
    obtain ⟨hitems, -, hlast⟩ := List.pairwise_append.mp hordered
    have hnext := hnonempty next (by simp)
    have h := ih (fun x hx => hnonempty x (by simp [hx])) hitems
    rw [coalesce, List.foldl_append, List.foldl_cons, List.foldl_nil]
    change Coalesced start stop _ (absorb start stop join (coalesce start stop join items) next)
    generalize coalesce start stop join items = merged at h
    have hbefore : ∀ m ∈ merged, start m ≤ start next := by
      intro m hm
      obtain ⟨x, hx, heq⟩ := h.starts m hm
      exact heq ▸ hlast x hx next (by simp)
    unfold absorb
    cases hmerged : merged.getLast? with
    | none =>
      obtain rfl := List.getLast?_eq_none_iff.mp hmerged
      exact h.append hnext nofun
    | some previous =>
      obtain ⟨before, rfl⟩ := List.getLast?_eq_some_iff.mp hmerged
      dsimp only
      split
      · rename_i hinside
        rw [List.dropLast_concat]
        exact h.joined (hbefore previous (by simp)) hinside (hstart ..) (hstop ..)
      · rename_i hbehind
        refine h.append hnext fun m hm => ?_
        -- What stands before the last interval ends before it begins.
        rcases List.mem_append.mp hm with hm | hm
        · have hle := (List.pairwise_append.mp h.separated).2.2 m hm previous (by simp)
          exact hle.trans (hbefore previous (by simp))
        · rw [List.mem_singleton.mp hm]
          exact not_lt.mp hbehind

section

variable {items merged : List ι}

theorem pairwise_related {r : ι → ι → Prop} {l : List ι} (h : l.Pairwise r) {a b : ι} (ha : a ∈ l)
    (hb : b ∈ l) (hne : a ≠ b) : r a b ∨ r b a := by
  let related (a b : ι) : Prop := r a b ∨ r b a
  have : Std.Symm related := ⟨fun _ _ => Or.symm⟩
  have hrelated : l.Pairwise related := h.imp Or.inl
  exact hrelated.forall ha hb hne

/-- Two merged intervals do not share a point. -/
theorem Coalesced.disjoint (h : Coalesced start stop items merged) {m m' : ι} (hm : m ∈ merged)
    (hm' : m' ∈ merged) (hne : m ≠ m') : stop m ≤ start m' ∨ stop m' ≤ start m :=
  pairwise_related h.separated hm hm' hne

end

/-- The intervals of a list, put together for each of the intervals that contain them. -/
theorem flatMap_filter_contained {κ : Type} [DecidableEq ι] {start' stop' : κ → α}
    {items : List ι} {outer : List κ} (hnonempty : ∀ x ∈ items, start x < stop x)
    (hitems : items.Pairwise fun a b => stop a ≤ start b)
    (houter : outer.Pairwise fun a b => stop' a ≤ start' b)
    (hcontains : ∀ x ∈ items, ∃ m ∈ outer, start' m ≤ start x ∧ stop x ≤ stop' m) :
    (outer.flatMap fun m => items.filter fun x => start' m ≤ start x ∧ stop x ≤ stop' m) =
      items := by
  have hpairwise : (outer.flatMap fun m => items.filter fun x =>
      start' m ≤ start x ∧ stop x ≤ stop' m).Pairwise fun a b => stop a ≤ start b := by
    refine List.pairwise_flatMap.mpr ⟨fun m _ => hitems.filter _,
      houter.imp fun {a b} hle x hx y hy => ?_⟩
    have hx := of_decide_eq_true (List.mem_filter.mp hx).2
    have hy := of_decide_eq_true (List.mem_filter.mp hy).2
    exact (hx.2.trans hle).trans hy.1
  have hmem : ∀ x, x ∈ (outer.flatMap fun m => items.filter fun x =>
      start' m ≤ start x ∧ stop x ≤ stop' m) ↔ x ∈ items := by
    intro x
    simp only [List.mem_flatMap, List.mem_filter, decide_eq_true_eq]
    constructor
    · rintro ⟨m, -, hx, -⟩
      exact hx
    · intro hx
      obtain ⟨m, hm, hin⟩ := hcontains x hx
      exact ⟨m, hm, hx, hin⟩
  -- Both lists have the same members, and the order of the intervals is strict.
  have hnodup : ∀ {l : List ι}, (∀ x ∈ l, x ∈ items) → (l.Pairwise fun a b => stop a ≤ start b) →
      l.Nodup := by
    intro l hl hpairwise
    refine hpairwise.imp_of_mem fun {a b} ha hb hle heq => ?_
    subst heq
    exact absurd (hnonempty a (hl a ha)) (not_lt.mpr hle)
  have hperm := (List.perm_ext_iff_of_nodup (hnodup (fun x hx => (hmem x).mp hx) hpairwise)
    (hnodup (fun _ => id) hitems)).mpr hmem
  refine hperm.eq_of_pairwise (fun a b ha hb hab hba => ?_) hpairwise hitems
  have h := hnonempty a ((hmem a).mp ha)
  have h' := hnonempty b hb
  exact absurd (((h.trans_le hab).trans h').trans_le hba) (lt_irrefl _)

end GeneralSearch.Lib
