import Mathlib.Data.List.Sort

/-! Selection of the best elements of a list.  Elements have ranks in a linear order, a smaller
rank is better, and no two elements share one.  A priority queue of bounded size that is offered
one element after the other ends with the best of them. -/

namespace GeneralSearch.Selection

variable {α β : Type} [LinearOrder β] (rank : α → β)

/-- The elements, the best first. -/
def ranked (l : List α) : List α := l.insertionSort fun a b => rank a ≤ rank b

/-- Adds an element to a priority queue whose head is its worst element. -/
def add (queue : List α) (a : α) : List α := queue.orderedInsert (fun x y => rank y ≤ rank x) a

/-- Offers an element to a queue of at most `limit` elements. -/
def offer (limit : ℕ) (queue : List α) (a : α) : List α :=
  if queue.length < limit then add rank queue a
  else match queue with
  | [] => []
  | worst :: rest => if rank a < rank worst then add rank rest a else worst :: rest

variable {rank}

theorem ranked_perm (l : List α) : (ranked rank l).Perm l := List.perm_insertionSort _ l

theorem mem_ranked {l : List α} {a : α} : a ∈ ranked rank l ↔ a ∈ l := List.mem_insertionSort _

@[simp] theorem length_ranked (l : List α) : (ranked rank l).length = l.length :=
  List.length_insertionSort _ l

private instance isTrans_rank : IsTrans α fun a b => rank a ≤ rank b := ⟨fun _ _ _ => le_trans⟩

private instance total_rank : Std.Total fun a b : α => rank a ≤ rank b := ⟨fun _ _ => le_total _ _⟩

private instance isTrans_rank_flip : IsTrans α fun a b => rank b ≤ rank a := ⟨fun _ _ _ h h' => le_trans h' h⟩

private instance total_rank_flip : Std.Total fun a b : α => rank b ≤ rank a := ⟨fun _ _ => le_total _ _⟩

theorem ranked_le (l : List α) : (ranked rank l).Pairwise fun a b => rank a ≤ rank b :=
  List.pairwise_insertionSort _ l

/-- Elements with distinct ranks in order of their ranks. -/
theorem ranked_lt {l : List α} (hd : (l.map rank).Nodup) :
    (ranked rank l).Pairwise fun a b => rank a < rank b := by
  have hne : (ranked rank l).Pairwise fun a b => rank a ≠ rank b :=
    List.pairwise_map.mp (((ranked_perm l).map rank).nodup_iff.mpr hd)
  exact (ranked_le l).imp₂ (fun _ _ hle hne => lt_of_le_of_ne hle hne) hne

/-- The one list of these elements that is strictly in order is the ranked one. -/
theorem ranked_eq {l s : List α} (hs : s.Pairwise fun a b => rank a < rank b) (hp : s.Perm l) :
    ranked rank l = s := by
  refine ((ranked_perm l).trans hp.symm).eq_of_pairwise (fun a b ha hb hab hba => ?_)
    (ranked_le l) (hs.imp le_of_lt)
  have hnodup : (s.map rank).Nodup := List.pairwise_map.mpr (hs.imp ne_of_lt)
  exact List.inj_on_of_nodup_map hnodup (hp.mem_iff.mpr (mem_ranked.mp ha)) hb
    (le_antisymm hab hba)

/-- Ranking and dropping elements commute. -/
theorem ranked_filter (p : α → Bool) {l : List α} (hd : (l.map rank).Nodup) :
    ranked rank (l.filter p) = (ranked rank l).filter p :=
  ranked_eq ((ranked_lt hd).filter p) ((ranked_perm l).filter p)

/-- What stands behind an element of a ranked list. -/
theorem filter_behind {s : List α} (hs : s.Pairwise fun a b => rank a < rank b) {n : ℕ} {a : α}
    (ha : s[n]? = some a) : (s.filter fun b => rank a < rank b) = s.drop (n + 1) := by
  induction s generalizing n with
  | nil => cases ha
  | cons x xs ih =>
    obtain ⟨hx, hxs⟩ := List.pairwise_cons.mp hs
    cases n with
    | zero =>
      cases ha
      rw [List.filter_cons_of_neg (by simp), List.filter_eq_self.mpr (by simpa using hx)]
      rfl
    | succ n =>
      have hlt : rank x < rank a := hx a (List.mem_of_getElem? ha)
      rw [List.filter_cons_of_neg (by simpa using hlt.le), ih hxs ha]
      rfl

/-! ### The bounded queue -/

variable (rank) in
/-- The queue holds the best of the elements that it was offered, the worst of them first. -/
structure Holds (limit : ℕ) (queue l : List α) : Prop where
  sorted : queue.Pairwise fun a b => rank b < rank a
  full : queue.length = min limit l.length
  best : ∃ rest, (queue ++ rest).Perm l ∧ ∀ a ∈ queue, ∀ b ∈ rest, rank a < rank b

theorem add_sorted {queue : List α} {a : α} (hs : queue.Pairwise fun a b => rank b < rank a)
    (hne : ∀ b ∈ queue, rank b ≠ rank a) :
    (add rank queue a).Pairwise fun a b => rank b < rank a := by
  have hperm : (add rank queue a).Perm (a :: queue) := List.perm_orderedInsert _ a queue
  have hle : (add rank queue a).Pairwise fun a b => rank b ≤ rank a :=
    (hs.imp le_of_lt).orderedInsert a queue
  have hdiffer : (a :: queue).Pairwise fun a b => rank a ≠ rank b :=
    List.pairwise_cons.mpr ⟨fun b hb => (hne b hb).symm, hs.imp fun h => h.ne'⟩
  refine hle.imp₂ (fun _ _ hle hne => lt_of_le_of_ne hle (Ne.symm hne)) ?_
  exact (hperm.pairwise_iff Ne.symm).mpr hdiffer

theorem offer_holds {limit : ℕ} (hlimit : 0 < limit) {queue l : List α} {a : α}
    (h : Holds rank limit queue l) (hne : ∀ b ∈ l, rank b ≠ rank a) :
    Holds rank limit (offer rank limit queue a) (l ++ [a]) := by
  obtain ⟨hsorted, hfull, rest, hperm, hbest⟩ := h
  have hqueue : ∀ b ∈ queue, rank b ≠ rank a := fun b hb =>
    hne b (hperm.subset (List.mem_append_left _ hb))
  unfold offer
  split
  · -- There is room, so nothing was left out before.
    rename_i hroom
    have hlen := hperm.length_eq
    rw [List.length_append] at hlen
    obtain rfl : rest = [] := List.length_eq_zero_iff.mp (by omega)
    rw [List.append_nil] at hperm
    have hadd : (add rank queue a).Perm (a :: queue) := List.perm_orderedInsert _ a queue
    refine ⟨add_sorted hsorted hqueue, ?_, [], ?_, by simp⟩
    · simp only [hadd.length_eq, List.length_cons, List.length_append, List.length_nil]
      omega
    · rw [List.append_nil]
      exact hadd.trans ((hperm.cons a).trans (List.perm_append_singleton a l).symm)
  · rename_i hroom
    cases queue with
    | nil => exact absurd hlimit (by simpa using hroom)
    | cons worst queue =>
      obtain ⟨hworst, hsorted'⟩ := List.pairwise_cons.mp hsorted
      dsimp only
      split
      · rename_i hbetter
        have hadd : (add rank queue a).Perm (a :: queue) := List.perm_orderedInsert _ a queue
        refine ⟨add_sorted hsorted' fun b hb => hqueue b (List.mem_cons_of_mem _ hb), ?_,
          worst :: rest, ?_, ?_⟩
        · simp only [hadd.length_eq, List.length_cons, List.length_append,
            List.length_nil] at hfull hroom ⊢
          omega
        · calc (add rank queue a ++ worst :: rest).Perm (a :: (queue ++ worst :: rest)) :=
                hadd.append_right _
            _ |>.Perm (a :: (worst :: queue ++ rest)) := List.perm_middle.cons a
            _ |>.Perm (a :: l) := hperm.cons a
            _ |>.Perm (l ++ [a]) := (List.perm_append_singleton a l).symm
        · intro b hb c hc
          have hbq := hadd.subset hb
          rcases List.mem_cons.mp hbq with rfl | hbq
          · rcases List.mem_cons.mp hc with rfl | hc
            · exact hbetter
            · exact hbetter.trans (hbest worst List.mem_cons_self c hc)
          · rcases List.mem_cons.mp hc with rfl | hc
            · exact hworst b hbq
            · exact hbest b (List.mem_cons_of_mem _ hbq) c hc
      · rename_i hworse
        have hlt : rank worst < rank a :=
          lt_of_le_of_ne (not_lt.mp hworse) (hqueue worst List.mem_cons_self)
        refine ⟨hsorted, ?_, a :: rest, ?_, ?_⟩
        · simp only [List.length_cons, List.length_append, List.length_nil] at hfull hroom ⊢
          omega
        · exact List.perm_middle.trans ((hperm.cons a).trans
            (List.perm_append_singleton a l).symm)
        · intro b hb c hc
          rcases List.mem_cons.mp hc with rfl | hc
          · rcases List.mem_cons.mp hb with rfl | hb
            · exact hlt
            · exact (hworst b hb).trans hlt
          · exact hbest b hb c hc

/-- The queue behind a run of offers. -/
theorem foldl_offer_holds {limit : ℕ} (hlimit : 0 < limit) {queue done l : List α}
    (h : Holds rank limit queue done) (hd : ((done ++ l).map rank).Nodup) :
    Holds rank limit (l.foldl (offer rank limit) queue) (done ++ l) := by
  induction l generalizing queue done with
  | nil => simpa using h
  | cons a l ih =>
    rw [List.append_cons] at hd ⊢
    refine ih (offer_holds hlimit h fun b hb heq => ?_) hd
    rw [List.map_append, List.map_append, List.nodup_append] at hd
    have hnodup := hd.1
    rw [List.nodup_append] at hnodup
    exact hnodup.2.2 _ (List.mem_map_of_mem hb) _ (by simp) heq

/-- What the queue holds, in order, are the first elements of the ranked list. -/
theorem Holds.ranked_eq_take {limit : ℕ} {queue l : List α}
    (h : Holds rank limit queue l) (hd : (l.map rank).Nodup) :
    ranked rank queue = (ranked rank l).take limit := by
  obtain ⟨hsorted, hfull, rest, hperm, hbest⟩ := h
  have hqueue : ranked rank queue = queue.reverse :=
    ranked_eq (List.pairwise_reverse.mpr hsorted) queue.reverse_perm
  have hrest : (rest.map rank).Nodup := by
    have hall := (hperm.map rank).nodup_iff.mpr hd
    rw [List.map_append, List.nodup_append] at hall
    exact hall.2.1
  have hl : ranked rank l = queue.reverse ++ ranked rank rest := by
    refine ranked_eq ?_ ((queue.reverse_perm.append (ranked_perm rest)).trans hperm)
    refine List.pairwise_append.mpr
      ⟨List.pairwise_reverse.mpr hsorted, ranked_lt hrest, fun a ha b hb => ?_⟩
    exact hbest a (List.mem_reverse.mp ha) b (mem_ranked.mp hb)
  rw [hl, hqueue]
  have hlen := hperm.length_eq
  rw [List.length_append] at hlen
  by_cases hlimit : limit ≤ l.length
  · exact (List.take_left' (by rw [List.length_reverse]; omega)).symm
  · obtain rfl : rest = [] := List.length_eq_zero_iff.mp (by omega)
    rw [show ranked rank ([] : List α) = [] from rfl, List.append_nil,
      List.take_of_length_le (by rw [List.length_reverse]; omega)]

/-- A queue that starts empty ends with the best elements. -/
theorem foldl_offer {limit : ℕ} (hlimit : 0 < limit) {l : List α} (hd : (l.map rank).Nodup) :
    ranked rank (l.foldl (offer rank limit) []) = (ranked rank l).take limit ∧
      (l.foldl (offer rank limit) []).length = min limit l.length := by
  have hempty : Holds rank limit [] [] := ⟨.nil, by simp, [], .nil, nofun⟩
  have h : Holds rank limit (l.foldl (offer rank limit) []) ([] ++ l) :=
    foldl_offer_holds hlimit hempty (by simpa using hd)
  exact ⟨h.ranked_eq_take hd, h.full⟩

end GeneralSearch.Selection
