import GeneralSearch.Replication.ReadQueue
import Mathlib.Data.List.Nodup
import Mathlib.Tactic.Tauto

/-! Every admitted read is owned until its future is completed and its permit given back, each exactly
once, however submissions, barriers, cancellations, deadlines, turns and the close interleave. -/

namespace GeneralSearch.Replication

open Lib

variable {R : Type}

/-! ### Requests -/

/-- A minimum is met by progress in its own history. -/
def ReadOptions.Suits (options : ReadOptions) (progress : ReadToken) : Prop :=
  options.policy = .atLeastIndex →
    ∀ minimum ∈ options.minimum, progress.of = minimum.of ∧ minimum.index ≤ progress.index

/-- What a future may be completed with. -/
structure ReadRequest.Allows (r : ReadRequest R) (outcome : ReadOutcome R) : Prop where
  undue : r.captured = true → outcome ≠ .failed .deadlineExceeded
  suits : ∀ value policy progress sequence, outcome = .value value policy progress sequence →
    policy = r.options.policy ∧ r.options.Suits progress

theorem ReadRequest.Allows.observed {r : ReadRequest R} {outcome : ReadOutcome R} {thrown : Thrown}
    (h : r.Allows outcome) : r.Allows (outcome.observed (.thrown thrown)) := by
  cases outcome with
  | value value policy progress sequence =>
    refine ⟨fun _ heq => ?_, fun _ _ _ _ heq => ?_⟩
    · cases heq
    · cases heq
  | failed error => exact h
  | cancelled => exact h

theorem ReadRequest.allows_failed {r : ReadRequest R} (hcaptured : r.captured = false) (error : ReadError) :
    r.Allows (.failed error) := by
  refine ⟨fun h => ?_, fun _ _ _ _ heq => ?_⟩
  · rw [hcaptured] at h
    cases h
  · cases heq

/-- The accounts of a request, whatever its phase. -/
structure ReadRequest.Counts (r : ReadRequest R) : Prop where
  cancelling : r.cancelling = r.cancels + r.ending
  done : 0 < r.returning ∨ r.completionReturned = true ∨ 0 < r.ending → r.result.isSome = true
  completed : r.completed = r.result.isSome.toNat
  invoking : ∀ cut ∈ r.invoking, r.options.Suits cut.token
  completing : ∀ outcome ∈ r.completing, r.Allows outcome
  result : ∀ outcome ∈ r.result, r.Allows outcome

/-- Nothing is under way for the request but its cancellation. -/
structure ReadRequest.Unsettled (r : ReadRequest R) : Prop where
  phase : r.phase ≠ .settling
  invoking : r.invoking = []
  completing : r.completing = []
  returning : r.returning = 0
  completionReturned : r.completionReturned = false

/-- What is under way for the request, by its phase. -/
def ReadRequest.UnderWay (r : ReadRequest R) : Prop :=
  match r.phase with
  | .queued => r.invoking = [] ∧ r.completing = [] ∧ r.returning = 0 ∧
    r.completionReturned = false ∧ r.captured = false
  | .captured => r.invoking.length = 1 ∧ r.completing = [] ∧ r.returning = 0 ∧
    r.completionReturned = false
  | .settling => r.invoking = [] ∧
    r.completing.length + r.returning + r.completionReturned.toNat = 1

variable {r : ReadRequest R} {phase : Phase} {alarm barrierReady preparing cancelled captureSettled : Bool}
  {epoch barrierIndex : ℕ} {capturedNanos : ℤ}

/-- The other fields of a request do not count. -/
theorem ReadRequest.Counts.aside (h : r.Counts) : ReadRequest.Counts { r with
    alarm, epoch, barrierIndex, capturedNanos, barrierReady, preparing, cancelled, captureSettled } where
  cancelling := h.cancelling
  done := h.done
  completed := h.completed
  invoking := h.invoking
  completing o ho := ⟨(h.completing o ho).undue, (h.completing o ho).suits⟩
  result o ho := ⟨(h.result o ho).undue, (h.result o ho).suits⟩

theorem ReadRequest.UnderWay.same {r' : ReadRequest R} (h : r.UnderWay) (hphase : r'.phase = r.phase)
    (hinvoking : r'.invoking = r.invoking) (hcompleting : r'.completing = r.completing)
    (hreturning : r'.returning = r.returning)
    (hreturned : r'.completionReturned = r.completionReturned)
    (hcaptured : r'.captured = r.captured) : r'.UnderWay := by
  rw [ReadRequest.UnderWay, hphase, hinvoking, hcompleting, hreturning, hreturned, hcaptured]
  exact h

/-- A request that waits has nothing under way. -/
theorem ReadRequest.UnderWay.unsettled (h : r.UnderWay) (hphase : r.phase = .queued) :
    r.Unsettled ∧ r.captured = false := by
  rw [ReadRequest.UnderWay, hphase] at h
  refine ⟨⟨?_, h.1, h.2.1, h.2.2.1, h.2.2.2.1⟩, h.2.2.2.2⟩
  rw [hphase]
  simp

theorem ReadRequest.Unsettled.underWay (h : r.Unsettled) (hphase : r.phase = .queued)
    (hcaptured : r.captured = false) : r.UnderWay := by
  rw [ReadRequest.UnderWay, hphase]
  exact ⟨h.invoking, h.completing, h.returning, h.completionReturned, hcaptured⟩

theorem ReadRequest.complete_result {outcome : ReadOutcome R} :
    (r.complete outcome).result.isSome = true := by
  unfold ReadRequest.complete
  split
  · assumption
  · rfl

theorem ReadRequest.Counts.complete (h : r.Counts) {outcome : ReadOutcome R}
    (ho : r.Allows outcome) : (r.complete outcome).Counts := by
  unfold ReadRequest.complete
  split
  · exact h
  · rename_i hnone
    refine ⟨h.cancelling, fun _ => rfl, ?_, h.invoking, fun o hmem => ?_, fun o hmem => ?_⟩
    · show r.completed + 1 = 1
      rw [h.completed, Bool.not_eq_true _ |>.mp hnone]
      rfl
    · exact ⟨(h.completing o hmem).undue, (h.completing o hmem).suits⟩
    · cases hmem
      exact ⟨ho.undue, ho.suits⟩

theorem ReadRequest.UnderWay.complete (h : r.UnderWay) (outcome : ReadOutcome R) :
    (r.complete outcome).UnderWay := by
  unfold ReadRequest.complete
  split
  · exact h
  · exact h.same rfl rfl rfl rfl rfl rfl

theorem ReadRequest.create_counts {options : ReadOptions} {deadline : ℤ} {observation : ℕ} :
    (ReadRequest.create options deadline observation : ReadRequest R).Counts := by
  constructor <;> simp [ReadRequest.create]

theorem ReadRequest.create_underWay {options : ReadOptions} {deadline : ℤ} {observation : ℕ} :
    (ReadRequest.create options deadline observation : ReadRequest R).UnderWay :=
  ⟨rfl, rfl, rfl, rfl, rfl⟩

namespace ReadQueue

/-- A request may be given up. -/
def Spent (r : ReadRequest R) : Prop :=
  r.completionReturned = true ∧ r.cancelling = 0 ∧ r.preparing = false

/-- What holds of the `i`-th request but that it is given up in time. -/
structure Account (q : ReadQueue R) (i : ℕ) : Prop where
  counts : (q.requests i).Counts
  underWay : (q.requests i).UnderWay
  alarmed : i ∈ q.owned → (q.requests i).phase = .queued → (q.requests i).alarm = true ∧
    ∀ outcome ∈ (q.requests i).result, outcome = .cancelled
  released : i ∈ q.released → (q.requests i).completionReturned = true
  outside : i ∉ q.admitted → (q.requests i).phase = .queued

/-- The lists of the queue. -/
structure Lists (q : ReadQueue R) : Prop where
  bound : q.owned.length ≤ q.limit
  nodup : q.admitted.Nodup
  permits : q.admitted.Perm (q.owned ++ q.released)
  created : ∀ i ∈ q.admitted, i < q.created

/-- What holds between two steps. -/
structure Owned (q : ReadQueue R) : Prop extends Lists q where
  account : ∀ i, q.Account i
  kept : ∀ i ∈ q.owned, ¬Spent (q.requests i)

/-- What holds of all but one request. -/
structure Rest (q : ReadQueue R) (i : ℕ) : Prop extends Lists q where
  account : ∀ j, j ≠ i → q.Account j
  kept : ∀ j ∈ q.owned, j ≠ i → ¬Spent (q.requests j)

/-- The request is owned and may be settled. -/
structure Opened (q : ReadQueue R) (i : ℕ) : Prop extends Rest q i where
  owned : i ∈ q.owned
  counts : (q.requests i).Counts
  unsettled : (q.requests i).Unsettled

variable {q q' : ReadQueue R} {i j : ℕ}

theorem Owned.rest (h : Owned q) (i : ℕ) : Rest q i :=
  { h.toLists with account := fun j _ => h.account j, kept := fun j hj _ => h.kept j hj }

theorem Owned.opened (h : Owned q) (hi : i ∈ q.owned) (hphase : (q.requests i).phase = .queued) :
    Opened q i := by
  have hunder := (h.account i).underWay.unsettled hphase
  exact { h.rest i with owned := hi, counts := (h.account i).counts, unsettled := hunder.1 }

theorem Lists.owned_nodup (h : Lists q) : q.owned.Nodup :=
  (List.nodup_append.mp (h.permits.nodup_iff.mp h.nodup)).1

theorem Lists.owned_admitted (h : Lists q) (hi : i ∈ q.owned) : i ∈ q.admitted :=
  h.permits.mem_iff.mpr (List.mem_append_left _ hi)

theorem Lists.not_released (h : Lists q) (hi : i ∈ q.owned) : i ∉ q.released := fun hr =>
  (List.nodup_append.mp (h.permits.nodup_iff.mp h.nodup)).2.2 i hi i hr rfl

/-! ### The surroundings -/

/-- Only what was asked changes. -/
def Asks (q q' : ReadQueue R) : Prop := ∃ n, q' = { q with asked := n }

theorem Asks.refl (q : ReadQueue R) : Asks q q := ⟨q.asked, rfl⟩

theorem Asks.trans {q'' : ReadQueue R} (h : Asks q q') (h' : Asks q' q'') : Asks q q'' := by
  obtain ⟨n, rfl⟩ := h
  obtain ⟨n', rfl⟩ := h'
  exact ⟨n', rfl⟩

theorem Account.asked (h : q.Account i) {n : ℕ} : Account { q with asked := n } i :=
  ⟨h.counts, h.underWay, h.alarmed, h.released, h.outside⟩

theorem Lists.asked (h : Lists q) {n : ℕ} : Lists { q with asked := n } :=
  ⟨h.bound, h.nodup, h.permits, h.created⟩

theorem Owned.asks (h : Owned q) (hq : Asks q q') : Owned q' := by
  obtain ⟨n, rfl⟩ := hq
  exact { h.toLists.asked with account := fun i => (h.account i).asked, kept := h.kept }

theorem Rest.asks (h : Rest q i) (hq : Asks q q') : Rest q' i := by
  obtain ⟨n, rfl⟩ := hq
  exact { h.toLists.asked with account := fun j hj => (h.account j hj).asked, kept := h.kept }

/-- A computation that only asks. -/
def Asking {α : Type} (x : Exec R α) : Prop :=
  ∀ q, Wp x q (fun _ q' => Asks q q') fun _ q' => Asks q q'

theorem asking_peek : Asking (peek (R := R)) := fun q => ⟨q.asked + 1, rfl⟩

theorem Asking.bind {α β : Type} {x : Exec R α} {f : α → Exec R β} (hx : Asking x)
    (hf : ∀ a, Asking (f a)) : Asking (x >>= f) := fun q =>
  Wp.bind (hx q) fun a q' h => (hf a q').mono (fun _ _ h' => h.trans h') fun _ _ h' => h.trans h'

theorem Asking.pure {α : Type} (a : α) : Asking (pure a : Exec R α) := fun q => .refl q

theorem Asking.throw {α : Type} (e : ReadError) : Asking (throw e : Exec R α) := fun q => .refl q

theorem Asking.get : Asking (get : Exec R (ReadQueue R)) := fun q => .refl q

theorem Asking.ite {α : Type} {c : Prop} [Decidable c] {x y : Exec R α} (hx : Asking x)
    (hy : Asking y) : Asking (if c then x else y) := by
  split
  · exact hx
  · exact hy

theorem asking_ask : Asking (ask (R := R)) := by
  refine asking_peek.bind fun answer => ?_
  cases answer.thrown with
  | none => exact .pure _
  | some thrown => exact .throw _

theorem asking_refuse (condition : Prop) [Decidable condition] (error : ReadError) :
    Asking (refuse (R := R) condition error) := .ite (.throw _) (.pure _)

theorem asking_check (i : ℕ) : Asking (check (R := R) i) := by
  refine Asking.get.bind fun q => (asking_refuse _ _).bind fun _ => asking_ask.bind fun _ => ?_
  refine .bind ?_ fun _ => asking_peek.bind fun _ => (asking_refuse _ _).bind fun _ => .pure _
  cases (q.requests i).options.minimum with
  | none => exact .pure _
  | some minimum => exact asking_refuse _ _

theorem asking_ready (i : ℕ) : Asking (ready (R := R) i) := by
  refine Asking.get.bind fun q => .ite (.pure _) (.ite (.pure _) (asking_ask.bind fun _ => ?_))
  dsimp only
  cases (q.requests i).options.minimum with
  | none => exact .throw _
  | some minimum => exact .pure _

/-- Only the surroundings make an observation throw. -/
theorem wp_observe (i : ℕ) (q : ReadQueue R) : Wp (observe i) q (fun _ q' => Asks q q')
    fun e q' => Asks q q' ∧ ∃ thrown, e = .thrown thrown := by
  have hasks : Asks q { q with asked := q.asked + 1 } := ⟨_, rfl⟩
  simp only [observe, ask, peek, wp_bind, wp_get, wp_set, wp_pure, wp_ite]
  refine ⟨fun _ => ?_, fun _ => .refl q⟩
  cases (q.answers q.asked).thrown with
  | none => exact hasks
  | some thrown => exact ⟨hasks, thrown, rfl⟩

/-! ### One request -/

/-- The queue with another state of a request. -/
def put (q : ReadQueue R) (i : ℕ) (r : ReadRequest R) : ReadQueue R :=
  { q with requests := Function.update q.requests i r }

@[simp] theorem put_self (r : ReadRequest R) : (q.put i r).requests i = r := by
  simp [put]

theorem put_ne (r : ReadRequest R) (hj : j ≠ i) : (q.put i r).requests j = q.requests j := by
  simp [put, hj]

@[simp] theorem put_owned (r : ReadRequest R) : (q.put i r).owned = q.owned := rfl

@[simp] theorem put_released (r : ReadRequest R) : (q.put i r).released = q.released := rfl

@[simp] theorem put_admitted (r : ReadRequest R) : (q.put i r).admitted = q.admitted := rfl

@[simp] theorem wp_change {f : ReadRequest R → ReadRequest R} {Q : Unit → ReadQueue R → Prop}
    {E : ReadError → ReadQueue R → Prop} :
    Wp (change i f) q Q E ↔ Q () (q.put i (f (q.requests i))) := Iff.rfl

theorem Rest.put (h : Rest q i) (r : ReadRequest R) : Rest (q.put i r) i where
  bound := h.bound
  nodup := h.nodup
  permits := h.permits
  created := h.created
  account j hj := by
    have hacc := h.account j hj
    refine ⟨?_, ?_, ?_, ?_, ?_⟩ <;> rw [put_ne r hj]
    · exact hacc.counts
    · exact hacc.underWay
    · exact hacc.alarmed
    · exact hacc.released
    · exact hacc.outside
  kept j hj hne := by
    rw [put_ne r hne]
    exact h.kept j hj hne

theorem Rest.all (h : Rest q i) (ha : q.Account i) (hk : i ∈ q.owned → ¬Spent (q.requests i)) :
    Owned q where
  toLists := h.toLists
  account j := by
    by_cases hj : j = i
    · exact hj ▸ ha
    · exact h.account j hj
  kept j hj := by
    by_cases hne : j = i
    · subst hne
      exact hk hj
    · exact h.kept j hj hne

theorem Opened.asks (h : Opened q i) (hq : Asks q q') : Opened q' i := by
  have hrest := h.toRest.asks hq
  obtain ⟨n, rfl⟩ := hq
  exact { hrest with owned := h.owned, counts := h.counts, unsettled := h.unsettled }

/-- What a step may count on while it goes through the owned requests. -/
abbrev Keeps {α : Type} (x : Exec R α) (q : ReadQueue R) : Prop :=
  Wp x q (fun _ q' => Owned q' ∧ q'.owned = q.owned) fun _ _ => False

theorem Opened.settled (h : Opened q i) {r : ReadRequest R} {outcome : ReadOutcome R}
    (ho : (q.requests i).Allows outcome)
    (hr : r = { q.requests i with
      phase := .settling, alarm := false, captureSettled := true, completing := [outcome] }) :
    Owned (q.put i r) := by
  subst hr
  have hu := h.unsettled
  have hc := h.counts
  refine (h.toRest.put _).all ⟨?_, ?_, ?_, ?_, ?_⟩ fun _ => ?_
  · rw [put_self]
    refine ⟨hc.cancelling, hc.done, hc.completed, hc.invoking, fun o hmem => ?_, fun o hmem => ?_⟩
    · cases List.mem_singleton.mp hmem
      exact ⟨ho.undue, ho.suits⟩
    · exact ⟨(hc.result o hmem).undue, (hc.result o hmem).suits⟩
  · rw [put_self]
    refine ⟨hu.invoking, ?_⟩
    simp [hu.returning, hu.completionReturned]
  · rw [put_self]
    intro _ hphase
    cases hphase
  · intro hmem
    exact absurd hmem (h.not_released h.owned)
  · intro hnot
    exact absurd (h.owned_admitted h.owned) hnot
  · rw [put_self]
    intro hspent
    have hreturned : (q.requests i).completionReturned = true := hspent.1
    rw [hu.completionReturned] at hreturned
    cases hreturned

theorem keeps_settle {outcome : ReadOutcome R} (h : Opened q i) (ho : (q.requests i).Allows outcome) :
    Keeps (settle i outcome) q := by
  have hu := h.unsettled
  simp only [settle, wp_bind, wp_get, wp_ite, wp_change]
  refine ⟨fun _ => ?_, fun hphase => absurd hu.phase hphase⟩
  let q1 := q.put i { q.requests i with phase := .settling, alarm := false, captureSettled := true }
  have hfinal : ∀ q2 final, Asks q1 q2 → (q.requests i).Allows final →
      Owned (q2.put i { q2.requests i with completing := (q2.requests i).completing ++ [final] }) ∧
        q2.owned = q.owned := by
    rintro _ final ⟨n, rfl⟩ hallows
    refine ⟨?_, rfl⟩
    have hsettled := (h.settled hallows rfl).asks ⟨n, rfl⟩
    simpa [q1, put, hu.completing] using hsettled
  refine Wp.tryCatch (I := fun e q2 => Asks q1 q2 ∧ ∃ thrown, e = .thrown thrown) ?_ ?_
  · exact wp_bind.mpr ((wp_observe i q1).mono (fun _ q2 h2 => hfinal q2 outcome h2 ho)
      fun _ _ h2 => h2)
  · rintro _ q2 ⟨h2, thrown, rfl⟩
    exact hfinal q2 _ h2 ho.observed

/-- What is done may be given up. -/
theorem keeps_releaseIfComplete (h : Rest q i) (ha : q.Account i) :
    Wp (releaseIfComplete i) q (fun _ q' => Owned q') fun _ q' => Owned q' := by
  simp only [releaseIfComplete, wp_bind, wp_get, wp_ite, wp_modify, wp_pure]
  refine ⟨fun hspent => ?_, fun hkept => h.all ha fun hi hspent => hkept ?_⟩
  · obtain ⟨hreturned, hcancelling, hpreparing, hi⟩ := hspent
    have hgone : ∀ j ∈ q.owned.erase i, j ∈ q.owned ∧ j ≠ i := fun j hj =>
      ⟨List.mem_of_mem_erase hj, fun heq => by
        rw [heq, h.owned_nodup.mem_erase_iff] at hj
        exact hj.1 rfl⟩
    have howned : Owned { q with
        owned := q.owned.erase i, released := q.released ++ [i] } := by
      refine ⟨⟨Nat.le_trans List.length_erase_le h.bound, h.nodup, ?_, h.created⟩, fun j => ?_,
        fun j hj => h.kept j (hgone j hj).1 (hgone j hj).2⟩
      · refine h.permits.trans ((List.Perm.append_right _ (List.perm_cons_erase hi)).trans ?_)
        show (i :: (q.owned.erase i ++ q.released)).Perm (q.owned.erase i ++ (q.released ++ [i]))
        rw [← List.append_assoc]
        exact (List.perm_append_singleton i _).symm
      · by_cases hj : j = i
        · subst hj
          refine ⟨ha.counts, ha.underWay, fun hmem => absurd rfl (hgone j hmem).2, fun _ => hreturned,
            ha.outside⟩
        · have hacc := h.account j hj
          refine ⟨hacc.counts, hacc.underWay, fun hmem => hacc.alarmed (hgone j hmem).1,
            fun hmem => ?_, hacc.outside⟩
          rcases List.mem_append.mp hmem with hmem | hmem
          · exact hacc.released hmem
          · exact absurd (List.mem_singleton.mp hmem) hj
    exact (wp_observe i _).mono (fun _ _ h2 => howned.asks h2) fun _ _ h2 => howned.asks h2.1
  · exact ⟨hspent.1, hspent.2.1, by simp [hspent.2.2], hi⟩

/-! ### All requests -/

theorem Account.fails (h : q.Account i) (hphase : (q.requests i).phase = .queued)
    (error : ReadError) : (q.requests i).Allows (.failed error) :=
  ReadRequest.allows_failed (h.underWay.unsettled hphase).2 error

/-- A request that waits may be failed at any time. -/
theorem Owned.failing (h : Owned q) (hi : i ∈ q.owned) (hphase : (q.requests i).phase = .queued)
    (error : ReadError) : Keeps (settle i (.failed error)) q :=
  keeps_settle (h.opened hi hphase) ((h.account i).fails hphase error)

theorem keeps_recheck (h : Owned q) (hi : i ∈ q.owned) : Keeps (recheck i) q := by
  simp only [recheck, wp_bind, wp_get, wp_ite, wp_pure]
  refine ⟨fun hphase => ?_, fun _ => ⟨h, trivial⟩⟩
  have hthrown : ∀ e q1, Asks q q1 → Wp (do settle i (.failed e); return false) q1
      (fun _ q' => Owned q' ∧ q'.owned = q.owned) fun _ _ => False := by
    rintro e _ ⟨n, rfl⟩
    exact wp_bind.mpr ((h.asks ⟨n, rfl⟩).failing hi hphase e)
  refine Wp.tryCatch (I := fun _ q1 => Asks q q1) ?_ hthrown
  refine Wp.bind (asking_check i q) fun _ q1 h1 => ?_
  simp only [wp_bind, wp_get, wp_ite]
  have howned1 := h.asks h1
  obtain ⟨n, rfl⟩ := h1
  refine ⟨fun _ => ?_, fun _ => ?_⟩
  · exact (howned1.failing hi hphase .cancelled).mono (fun _ _ h2 => h2) fun _ _ h2 => h2.elim
  · refine (asking_ready i _).mono (fun _ q2 h2 => ⟨howned1.asks h2, ?_⟩) fun _ q2 h2 => ?_
    · obtain ⟨n', rfl⟩ := h2
      rfl
    · exact (Asks.trans ⟨n, rfl⟩ h2)

theorem keeps_recheckAll (h : Owned q) {list : List ℕ} (hlist : ∀ i ∈ list, i ∈ q.owned) :
    Keeps (recheckAll list) q := by
  induction list generalizing q with
  | nil => exact ⟨h, rfl⟩
  | cons i rest ih =>
    refine Wp.bind (keeps_recheck h (hlist i (by simp))) fun _ q1 h1 => ?_
    have hrest := ih h1.1 fun j hj => by
      rw [h1.2]
      exact hlist j (by simp [hj])
    exact wp_bind.mpr (hrest.mono (fun _ _ h2 => ⟨h2.1, h2.2.trans h1.2⟩) fun _ _ h2 => h2)

theorem keeps_failQueued (h : Owned q) (hi : i ∈ q.owned) (error : ReadError) :
    Keeps (failQueued error i) q := by
  simp only [failQueued, wp_bind, wp_get, wp_ite, wp_pure]
  exact ⟨fun hphase => h.failing hi hphase error, fun _ => ⟨h, trivial⟩⟩

theorem Owned.turned (h : Owned q) {marker closed : Bool} {turns : ℕ} :
    Owned { q with marker, closed, turns } :=
  ⟨⟨h.bound, h.nodup, h.permits, h.created⟩,
    fun i => ⟨(h.account i).counts, (h.account i).underWay, (h.account i).alarmed,
      (h.account i).released, (h.account i).outside⟩, h.kept⟩

theorem keeps_changedLocked (h : Owned q) : Keeps changedLocked q := by
  simp only [changedLocked, wp_bind, wp_get]
  refine (keeps_recheckAll h fun i hi => hi).mono (fun eligible q1 h1 => ?_) fun _ _ h1 => h1
  simp only [wp_ite, wp_bind, wp_modify, wp_pure]
  refine ⟨fun _ => ?_, fun _ => h1⟩
  have hmarked : Owned { q1 with marker := true } := h1.1.turned
  refine Wp.tryCatch (I := fun _ q2 => Owned q2 ∧ q2.owned = q.owned) ?_ fun e q2 h2 => ?_
  · refine (Wp.bind (asking_ask _) fun _ q2 h2 => ?_).mono (fun _ _ h3 => h3) fun _ q2 h2 => ?_
    · have howned := hmarked.asks h2
      obtain ⟨n, rfl⟩ := h2
      exact ⟨howned.turned, h1.2⟩
    · have howned := hmarked.asks h2
      obtain ⟨n, rfl⟩ := h2
      exact ⟨howned, h1.2⟩
  · simp only [wp_bind, wp_modify, wp_get]
    have hstart : Owned { q2 with marker := false } ∧ q2.owned = q.owned := ⟨h2.1.turned, h2.2⟩
    have hround : ∀ i ∈ q2.owned, ∀ q3 : ReadQueue R, Owned q3 ∧ q3.owned = q.owned →
        Wp (failQueued (infrastructureFailure { q2 with marker := false } e) i) q3
          (fun _ q4 => Owned q4 ∧ q4.owned = q.owned) fun _ _ => False := by
      intro i hi q3 h3
      have hin : i ∈ q3.owned := by
        rw [h3.2, ← h2.2]
        exact hi
      exact (keeps_failQueued h3.1 hin _).mono (fun _ _ h4 => ⟨h4.1, h4.2.trans h3.2⟩)
        fun _ _ h4 => h4
    exact Wp.forM hstart hround

/-! ### Admission -/

theorem keeps_register (h : Opened q i) (hphase : (q.requests i).phase = .queued)
    (hcaptured : (q.requests i).captured = false) (hresult : (q.requests i).result = none) :
    Wp (register i) q (fun _ q' => Owned q') fun _ _ => False := by
  refine Wp.tryCatch (I := fun _ q1 => Opened q1 i ∧ (q1.requests i).captured = false) ?_ ?_
  · refine Wp.bind ((asking_ask q).mono (fun _ _ h1 => h1) fun _ q1 h1 => ?_) fun _ q1 h1 => ?_
    · refine ⟨h.asks h1, ?_⟩
      obtain ⟨n, rfl⟩ := h1
      exact hcaptured
    · have hopened := h.asks h1
      obtain ⟨n, rfl⟩ := h1
      simp only [wp_bind, wp_change]
      have howned : Owned (put { q with asked := n } i { q.requests i with alarm := true }) := by
        have hu := h.unsettled
        have hc := h.counts
        refine (hopened.toRest.put _).all ⟨?_, ?_, ?_, ?_, ?_⟩ fun _ => ?_
        · rw [put_self]
          exact hc.aside
        · rw [put_self]
          exact (hu.underWay hphase hcaptured).same rfl rfl rfl rfl rfl rfl
        · rw [put_self]
          intro _ _
          refine ⟨rfl, fun o ho => ?_⟩
          change o ∈ (q.requests i).result at ho
          rw [hresult] at ho
          cases ho
        · intro hmem
          exact absurd hmem (h.not_released h.owned)
        · intro _
          rw [put_self]
          exact hphase
        · rw [put_self]
          intro hspent
          have hreturned : (q.requests i).completionReturned = true := hspent.1
          rw [hu.completionReturned] at hreturned
          cases hreturned
      have hwaits : ∀ q2, Asks (put { q with asked := n } i { q.requests i with alarm := true }) q2 →
          Opened q2 i ∧ (q2.requests i).captured = false := by
        intro q2 h2
        have hopened2 := (howned.opened h.owned (by rw [put_self]; exact hphase)).asks h2
        obtain ⟨n', rfl⟩ := h2
        refine ⟨hopened2, ?_⟩
        show ((put _ i _).requests i).captured = false
        rw [put_self]
        exact hcaptured
      refine (wp_observe i _).mono (fun _ q2 h2 => ?_) fun _ q2 h2 => hwaits q2 h2.1
      exact (keeps_changedLocked (howned.asks h2)).mono (fun _ _ h3 => h3.1) fun _ _ h3 => h3.elim
  · rintro e q1 ⟨hopened, hnot⟩
    simp only [wp_bind, wp_get]
    exact (keeps_settle hopened (ReadRequest.allows_failed hnot _)).mono (fun _ _ h2 => h2.1) fun _ _ h2 => h2

/-- A request that was never admitted may be completed at once. -/
theorem Owned.outsider (h : Owned q) (hi : i ∉ q.admitted) (hr : r.Counts) (hu : r.UnderWay)
    (hphase : r.phase = .queued) : Owned (q.put i r) := by
  have hnot : i ∉ q.owned ∧ i ∉ q.released := by
    rw [h.permits.mem_iff, List.mem_append, not_or] at hi
    exact hi
  refine ((h.rest i).put r).all ⟨?_, ?_, fun howned => absurd howned hnot.1,
    fun hreleased => absurd hreleased hnot.2, fun _ => ?_⟩ fun howned => absurd howned hnot.1
  · rw [put_self]
    exact hr
  · rw [put_self]
    exact hu
  · rw [put_self]
    exact hphase

theorem Owned.entered (h : Owned q) (hi : i ∉ q.admitted) (hcreated : i < q.created)
    (hroom : q.owned.length < q.limit) (hphase : (q.requests i).phase = .queued) :
    Opened (q.enter i) i := by
  have hnot : i ∉ q.owned ∧ i ∉ q.released := by
    rw [h.permits.mem_iff, List.mem_append, not_or] at hi
    exact hi
  have hmem : ∀ {j : ℕ} {list : List ℕ}, j ≠ i → j ∈ list ++ [i] → j ∈ list := by
    intro j list hj hin
    simpa [hj] using hin
  have hunder := (h.account i).underWay.unsettled hphase
  refine ⟨⟨⟨?_, ?_, ?_, ?_⟩, ?_, ?_⟩, List.mem_append_right _ (by simp), (h.account i).counts,
    hunder.1⟩
  · show (q.owned ++ [i]).length ≤ q.limit
    simp only [List.length_append, List.length_singleton]
    omega
  · exact List.nodup_append.mpr ⟨h.nodup, by simp, fun a ha b hb heq =>
      hi (List.mem_singleton.mp hb ▸ heq ▸ ha)⟩
  · show (q.admitted ++ [i]).Perm ((q.owned ++ [i]) ++ q.released)
    refine (h.permits.append_right [i]).trans ?_
    rw [List.append_assoc, List.append_assoc]
    exact List.perm_append_comm.append_left q.owned
  · intro j hj
    rcases List.mem_append.mp hj with hj | hj
    · exact h.created j hj
    · rw [List.mem_singleton.mp hj]
      exact hcreated
  · intro j hj
    have hacc := h.account j
    exact ⟨hacc.counts, hacc.underWay, fun hin => hacc.alarmed (hmem hj hin), hacc.released,
      fun hout => hacc.outside fun hin => hout (List.mem_append_left _ hin)⟩
  · intro j hin hj
    exact h.kept j (hmem hj hin)

theorem keeps_submit (h : Owned q) {options : ReadOptions} {deadline : ℤ} {observation : ℕ} :
    Wp (submit options deadline observation) q (fun _ q' => Owned q') fun _ q' => Owned q' := by
  simp only [submit, wp_bind, wp_get, wp_modify, wp_change]
  let i := q.created
  let q0 : ReadQueue R := put { q with created := i + 1 } i (.create options deadline observation)
  have hout : i ∉ q.admitted := fun hmem => absurd (h.created i hmem) (Nat.lt_irrefl i)
  have hcreated : Owned { q with created := i + 1 } :=
    ⟨⟨h.bound, h.nodup, h.permits, fun j hj => Nat.lt_succ_of_lt (h.created j hj)⟩,
      fun j => ⟨(h.account j).counts, (h.account j).underWay, (h.account j).alarmed,
        (h.account j).released, (h.account j).outside⟩, h.kept⟩
  have hstart : Owned q0 := hcreated.outsider hout ReadRequest.create_counts
    ReadRequest.create_underWay rfl
  have hself : q0.requests i = .create options deadline observation := put_self _
  refine Wp.tryCatch (I := fun _ q1 => Asks q0 q1) ?_ fun e q1 h1 => ?_
  · refine Wp.bind (asking_check i q0) fun _ q1 h1 => ?_
    simp only [wp_bind, wp_get]
    have howned1 := hstart.asks h1
    obtain ⟨n, rfl⟩ := h1
    simp only [refuse, wp_ite, wp_throw, wp_pure]
    refine ⟨fun _ => ⟨n, rfl⟩, fun hroom => ?_⟩
    refine Wp.mono (asking_peek _) (fun answer q2 h2 => ?_) fun _ _ h2 => Asks.trans ⟨n, rfl⟩ h2
    have howned2 := howned1.asks h2
    obtain ⟨n', rfl⟩ := h2
    refine ⟨fun _ => ⟨n', rfl⟩, fun _ => ?_⟩
    have hopened := howned2.entered hout (Nat.lt_succ_self i) (Nat.lt_of_not_le hroom)
      (by show (q0.requests i).phase = .queued; rw [hself]; rfl)
    refine (keeps_register hopened ?_ ?_ ?_).mono (fun _ _ h3 => h3) fun _ _ h3 => h3.elim
    · show (q0.requests i).phase = .queued
      rw [hself]
      rfl
    · show (q0.requests i).captured = false
      rw [hself]
      rfl
    · show (q0.requests i).result = none
      rw [hself]
      rfl
  · have howned := hstart.asks h1
    obtain ⟨n, rfl⟩ := h1
    rw [wp_change]
    refine howned.outsider hout ?_ ?_ ?_
    · show ReadRequest.Counts { (q0.requests i).complete (.failed e) with captureSettled := true }
      rw [hself]
      exact (ReadRequest.create_counts.complete (ReadRequest.allows_failed rfl e)).aside
    · show ReadRequest.UnderWay { (q0.requests i).complete (.failed e) with captureSettled := true }
      rw [hself]
      have hunder : (ReadRequest.create options deadline observation : ReadRequest R).UnderWay :=
        ReadRequest.create_underWay
      exact (hunder.complete (.failed e)).same rfl rfl rfl rfl rfl rfl
    · show ((q0.requests i).complete (.failed e)).phase = .queued
      rw [hself]
      rfl

/-! ### Barriers, deadlines and cancellations -/

theorem Account.aside (h : q.Account i) : Account (q.put i { q.requests i with
    epoch, barrierIndex, capturedNanos, barrierReady, preparing, cancelled, captureSettled }) i := by
  refine ⟨?_, ?_, ?_, ?_, ?_⟩ <;> rw [put_self]
  · exact h.counts.aside
  · exact h.underWay.same rfl rfl rfl rfl rfl rfl
  · exact h.alarmed
  · exact h.released
  · exact h.outside

/-- A request that waits is not spent. -/
theorem Account.unspent (h : q.Account i) (hphase : (q.requests i).phase = .queued) :
    ¬Spent (q.requests i) := by
  intro hspent
  have hreturned := hspent.1
  rw [(h.underWay.unsettled hphase).1.completionReturned] at hreturned
  cases hreturned

theorem keeps_barrier (h : Owned q) {epoch index : ℕ} :
    Wp (barrier i epoch index) q (fun _ q' => Owned q') fun _ q' => Owned q' := by
  simp only [barrier, wp_bind, wp_change, wp_get, wp_ite]
  have hrest := (h.rest i).put { q.requests i with preparing := false }
  have hacc : Account (q.put i { q.requests i with preparing := false }) i := (h.account i).aside
  refine ⟨fun _ => keeps_releaseIfComplete hrest hacc, fun hqueued => ?_⟩
  rw [not_or, not_not, not_not] at hqueued
  have howned := hrest.all hacc fun _ => hacc.unspent hqueued.2
  simp only [refuse, wp_ite, wp_throw, wp_pure]
  refine ⟨fun _ => howned, fun _ => ?_⟩
  refine (keeps_changedLocked (((howned.rest i).put _).all hacc.aside fun _ => ?_)).mono
    (fun _ _ h1 => h1.1) fun _ _ h1 => h1.elim
  rw [put_self]
  exact hacc.unspent hqueued.2

theorem keeps_reject (h : Owned q) {error : ReadError} : Keeps (reject i error) q := by
  simp only [reject, wp_bind, wp_get, wp_ite, wp_pure]
  exact ⟨fun hqueued => h.failing hqueued.1 hqueued.2 error, fun _ => ⟨h, trivial⟩⟩

/-- The request may be spent before, when it does not wait. -/
theorem keeps_giveUp (h : Rest q i) (ha : q.Account i) (error : ReadError) :
    Wp (do reject i error; releaseIfComplete i) q (fun _ q' => Owned q') fun _ q' => Owned q' := by
  by_cases hphase : (q.requests i).phase = .queued
  · have howned := h.all ha fun _ => ha.unspent hphase
    refine Wp.bind ((keeps_reject howned).mono (fun _ _ h1 => h1) fun _ _ h1 => h1.elim)
      fun _ q1 h1 => ?_
    exact keeps_releaseIfComplete (h1.1.rest i) (h1.1.account i)
  · simp only [reject, wp_bind, wp_get, wp_ite, wp_pure]
    exact ⟨fun hqueued => absurd hqueued.2 hphase, fun _ => keeps_releaseIfComplete h ha⟩

theorem keeps_fail (h : Owned q) {error : ReadError} :
    Wp (fail i error) q (fun _ q' => Owned q') fun _ q' => Owned q' := by
  simp only [fail, wp_bind, wp_change]
  exact wp_bind.mp (keeps_giveUp ((h.rest i).put _) (h.account i).aside error)

theorem keeps_expire (h : Owned q) : Wp (expire i) q (fun _ q' => Owned q') fun _ q' => Owned q' := by
  simp only [expire, wp_bind, wp_get, wp_ite, wp_pure]
  refine ⟨fun hqueued => ?_, fun _ => h⟩
  refine (asking_peek q).mono (fun answer q1 h1 => ?_) fun _ _ h1 => h.asks h1
  have howned := h.asks h1
  obtain ⟨n, rfl⟩ := h1
  exact ⟨fun _ => (howned.failing hqueued.1 hqueued.2 _).mono (fun _ _ h2 => h2.1)
    fun _ _ h2 => h2.elim, fun _ => howned⟩

theorem keeps_cancel (h : Owned q) : Wp (cancel i) q (fun _ q' => Owned q') fun _ q' => Owned q' := by
  simp only [cancel, wp_bind, wp_get, wp_ite, wp_change, wp_pure]
  refine ⟨fun _ => ?_, fun _ => h⟩
  have ha := h.account i
  have hc := ha.counts
  refine ((h.rest i).put _).all ⟨?_, ?_, ?_, ?_, ?_⟩ fun _ => ?_ <;> rw [put_self]
  · refine ⟨?_, hc.done, hc.completed, hc.invoking, fun o ho => ?_, fun o ho => ?_⟩
    · show (q.requests i).cancelling + 1 = (q.requests i).cancels + 1 + (q.requests i).ending
      have hcancelling := hc.cancelling
      omega
    · exact ⟨(hc.completing o ho).undue, (hc.completing o ho).suits⟩
    · exact ⟨(hc.result o ho).undue, (hc.result o ho).suits⟩
  · exact ha.underWay.same rfl rfl rfl rfl rfl rfl
  · exact ha.alarmed
  · exact ha.released
  · exact ha.outside
  · intro hspent
    have hzero : (q.requests i).cancelling + 1 = 0 := hspent.2.1
    omega

theorem keeps_cancelFuture (h : Owned q) :
    Wp (cancelFuture i) q (fun _ q' => Owned q') fun _ q' => Owned q' := by
  simp only [cancelFuture, wp_bind, wp_get, wp_ite, wp_change, wp_pure]
  refine ⟨fun hcancels => ?_, fun _ => h⟩
  have ha := h.account i
  have hallows : (q.requests i).Allows .cancelled := ⟨by simp, by simp⟩
  have hc := ha.counts.complete hallows
  have hsame : ((q.requests i).complete .cancelled).cancelling = (q.requests i).cancelling ∧
      ((q.requests i).complete .cancelled).preparing = (q.requests i).preparing ∧
      ((q.requests i).complete .cancelled).completionReturned = (q.requests i).completionReturned ∧
      ((q.requests i).complete .cancelled).phase = (q.requests i).phase ∧
      ((q.requests i).complete .cancelled).alarm = (q.requests i).alarm := by
    unfold ReadRequest.complete
    split <;> exact ⟨rfl, rfl, rfl, rfl, rfl⟩
  obtain ⟨hcancelling, hpreparing, hreturned, hphase, halarm⟩ := hsame
  refine ((h.rest i).put _).all ⟨?_, ?_, ?_, ?_, ?_⟩ fun hi => ?_ <;> rw [put_self]
  · refine ⟨?_, fun _ => ReadRequest.complete_result, hc.completed, hc.invoking, fun o ho => ?_,
      fun o ho => ?_⟩
    · show ((q.requests i).complete .cancelled).cancelling = (q.requests i).cancels - 1 +
        ((q.requests i).ending + 1)
      have hsum := ha.counts.cancelling
      omega
    · exact ⟨(hc.completing o ho).undue, (hc.completing o ho).suits⟩
    · exact ⟨(hc.result o ho).undue, (hc.result o ho).suits⟩
  · exact (ha.underWay.complete .cancelled).same rfl rfl rfl rfl rfl rfl
  · intro hi hqueued
    obtain ⟨halarmed, hresult⟩ := ha.alarmed hi (hphase.symm.trans hqueued)
    refine ⟨halarm.trans halarmed, fun o ho => ?_⟩
    change o ∈ ((q.requests i).complete .cancelled).result at ho
    unfold ReadRequest.complete at ho
    split at ho
    · exact hresult o ho
    · cases ho
      rfl
  · intro hreleased
    exact hreturned.trans (ha.released hreleased)
  · intro hout
    exact hphase.trans (ha.outside hout)
  · rintro ⟨h1, h2, h3⟩
    exact h.kept i hi ⟨hreturned.symm.trans h1, hcancelling.symm.trans h2, hpreparing.symm.trans h3⟩

theorem keeps_cancelEnd (h : Owned q) :
    Wp (cancelEnd i) q (fun _ q' => Owned q') fun _ q' => Owned q' := by
  simp only [cancelEnd, wp_bind, wp_get, wp_ite, wp_change, wp_pure]
  refine ⟨fun hending => ?_, fun _ => h⟩
  have ha := h.account i
  have hc := ha.counts
  refine wp_bind.mp (keeps_giveUp ((h.rest i).put _) ⟨?_, ?_, ?_, ?_, ?_⟩ .cancelled)
    <;> rw [put_self]
  · refine ⟨?_, fun hdone => ?_, hc.completed, hc.invoking, fun o ho => ?_, fun o ho => ?_⟩
    · show (q.requests i).cancelling - 1 = (q.requests i).cancels + ((q.requests i).ending - 1)
      have hsum := hc.cancelling
      omega
    · exact hc.done (.inr (.inr hending))
    · exact ⟨(hc.completing o ho).undue, (hc.completing o ho).suits⟩
    · exact ⟨(hc.result o ho).undue, (hc.result o ho).suits⟩
  · exact ha.underWay.same rfl rfl rfl rfl rfl rfl
  · exact ha.alarmed
  · exact ha.released
  · exact ha.outside

/-! ### Turns -/

theorem wp_reached {options : ReadOptions} {cut : ReadCut} (q : ReadQueue R) :
    Wp (reached options cut) q (fun fits q' => Asks q q' ∧ (fits = true → options.Suits cut.token))
      fun _ q' => Asks q q' := by
  simp only [reached, wp_ite, wp_pure]
  refine ⟨fun hpolicy => ?_, fun hpolicy => ⟨.refl q, fun _ h => absurd h hpolicy⟩⟩
  cases hminimum : options.minimum with
  | none => exact .refl q
  | some minimum =>
    simp only [compatible, refuse, wp_bind, wp_ite, wp_throw, wp_pure, decide_eq_true_eq]
    refine ⟨fun _ => .refl q, fun hsame => ⟨fun _ => .refl q, fun _ => ⟨.refl q, fun hle => ?_⟩⟩⟩
    intro _ minimum' hmem
    rw [hminimum] at hmem
    cases hmem
    exact ⟨not_not.mp hsame, hle⟩

/-- The request is captured and its invocation is to come. -/
structure Taken (q : ReadQueue R) (i : ℕ) (cut : ReadCut) : Prop extends Opened q i where
  phase : (q.requests i).phase = .captured
  suits : (q.requests i).options.Suits cut.token

theorem Opened.captured (h : Opened q i) {nanos : ℤ}
    (hresult : ∀ outcome ∈ (q.requests i).result, outcome = .cancelled) :
    Opened (q.put i { q.requests i with
      capturedNanos := nanos, phase := .captured, alarm := false, captured := true }) i := by
  have hc := h.counts
  have hu := h.unsettled
  refine { h.toRest.put _ with owned := h.owned, counts := ?_, unsettled := ?_ } <;> rw [put_self]
  · refine ⟨hc.cancelling, hc.done, hc.completed, hc.invoking, fun o ho => ?_, fun o ho => ?_⟩
    · change o ∈ (q.requests i).completing at ho
      rw [hu.completing] at ho
      cases ho
    · cases hresult o ho
      exact ⟨by simp, by simp⟩
  · exact ⟨by simp, hu.invoking, hu.completing, hu.returning, hu.completionReturned⟩

/-- A failure that a turn meets may be what its request fails with. -/
abbrev Fails (i : ℕ) (owned : List ℕ) (e : ReadError) (q : ReadQueue R) : Prop :=
  (Opened q i ∧ q.owned = owned) ∧ (q.requests i).Allows (.failed e)

theorem wp_capture (h : Owned q) (hi : i ∈ q.owned) (hphase : (q.requests i).phase = .queued)
    (dispatchFailure : Option ReadError) : Wp (capture dispatchFailure i) q
      (fun cut q' => q'.owned = q.owned ∧ match cut with
        | some cut => Taken q' i cut
        | none => Owned q') (Fails i q.owned) := by
  -- until the capture nothing changes but what was asked
  have hfails : ∀ e q1, Asks q q1 → Fails i q.owned e q1 := by
    rintro e _ ⟨n, rfl⟩
    exact ⟨⟨(h.asks ⟨n, rfl⟩).opened hi hphase, rfl⟩, (h.account i).fails hphase e⟩
  have hasking : ∀ {α : Type} {x : Exec R α} {q1 : ReadQueue R}, Asking x → Asks q q1 →
      Wp x q1 (fun _ q' => Asks q q') (Fails i q.owned) := fun hx h1 =>
    (hx _).mono (fun _ _ h2 => h1.trans h2) fun e q' h2 => hfails e q' (h1.trans h2)
  refine Wp.bind (P := fun _ q1 => Asks q q1) ?_ fun _ q1 h1 => ?_
  · cases dispatchFailure with
    | none => exact .refl q
    | some e => exact hfails e q (.refl q)
  refine Wp.bind (hasking (asking_check i) h1) fun _ q2 h2 => ?_
  simp only [wp_bind, wp_get, wp_ite, wp_pure]
  refine ⟨fun _ => ?_, fun _ => ?_⟩
  · obtain ⟨n, rfl⟩ := h2
    exact ((h.asks ⟨n, rfl⟩).failing hi hphase .cancelled).mono (fun _ _ h3 => ⟨h3.2, h3.1⟩)
      fun _ _ h3 => h3.elim
  refine (hasking (asking_ready i) h2).mono (fun fits q3 h3 => ?_) fun _ _ h3 => h3
  have hnone : ∀ q', Asks q q' → q'.owned = q.owned ∧ Owned q' := by
    rintro _ ⟨n, rfl⟩
    exact ⟨rfl, h.asks ⟨n, rfl⟩⟩
  refine ⟨fun _ => ?_, fun _ => hnone q3 h3⟩
  refine (hasking asking_ask h3).mono (fun answer q4 h4 => ?_) fun _ _ h4 => h4
  refine (hasking (asking_check i) h4).mono (fun _ q5 h5 => ?_) fun _ _ h5 => h5
  refine (wp_reached q5).mono (fun fits q6 h6 => ?_) fun e q6 h6 => hfails e q6 (h5.trans h6)
  have hq6 := h5.trans h6.1
  refine ⟨fun hfits => ?_, fun _ => hnone q6 hq6⟩
  refine (hasking (asking_check i) hq6).mono (fun nanos q7 h7 => ?_) fun _ _ h7 => h7
  obtain ⟨n5, rfl⟩ := h5
  have hsuits := h6.2 hfits
  obtain ⟨n7, rfl⟩ := h7
  have hopened : Opened (put { q with asked := n7 } i { q.requests i with
      capturedNanos := nanos, phase := .captured, alarm := false, captured := true }) i :=
    ((h.asks ⟨n7, rfl⟩).opened hi hphase).captured ((h.account i).alarmed hi hphase).2
  simp only [wp_change]
  refine (wp_observe i _).mono (fun _ q8 h8 => ?_) ?_
  · have hopened8 := hopened.asks h8
    obtain ⟨n8, rfl⟩ := h8
    refine ⟨rfl, { hopened8.toRest.put _ with
      owned := hi, counts := ?_, unsettled := ?_, phase := ?_, suits := ?_ }⟩ <;> rw [put_self]
    · exact hopened8.counts.aside
    · have hu := hopened8.unsettled
      exact ⟨hu.phase, hu.invoking, hu.completing, hu.returning, hu.completionReturned⟩
    · show ((put _ i _).requests i).phase = .captured
      rw [put_self]
    · show ((put _ i _).requests i).options.Suits _
      rw [put_self]
      exact hsuits
  · rintro _ q8 ⟨h8, thrown, rfl⟩
    have hopened8 := hopened.asks h8
    obtain ⟨n8, rfl⟩ := h8
    exact ⟨⟨hopened8, rfl⟩, by simp, by simp⟩

/-- The turn takes the invocation over. -/
theorem Taken.invoke {cut : ReadCut} (h : Taken q i cut) : Owned (q.put i { q.requests i with
    invoking := (q.requests i).invoking ++ [cut] }) := by
  have hc := h.counts
  have hu := h.unsettled
  refine (h.toRest.put _).all ⟨?_, ?_, ?_, ?_, ?_⟩ fun _ => ?_ <;> rw [put_self]
  · refine ⟨hc.cancelling, hc.done, hc.completed, fun cut' hcut' => ?_, fun o ho => ?_,
      fun o ho => ?_⟩
    · change cut' ∈ (q.requests i).invoking ++ [cut] at hcut'
      rw [hu.invoking] at hcut'
      cases List.mem_singleton.mp hcut'
      exact h.suits
    · exact ⟨(hc.completing o ho).undue, (hc.completing o ho).suits⟩
    · exact ⟨(hc.result o ho).undue, (hc.result o ho).suits⟩
  · rw [ReadRequest.UnderWay, h.phase]
    exact ⟨by simp [hu.invoking], hu.completing, hu.returning, hu.completionReturned⟩
  · intro _ hqueued
    change (q.requests i).phase = .queued at hqueued
    rw [h.phase] at hqueued
    cases hqueued
  · intro hmem
    exact absurd hmem (h.not_released h.owned)
  · intro hout
    exact absurd (h.owned_admitted h.owned) hout
  · intro hspent
    have hreturned : (q.requests i).completionReturned = true := hspent.1
    rw [hu.completionReturned] at hreturned
    cases hreturned

theorem keeps_captureFirst (h : Owned q) {list : List ℕ} (hlist : ∀ i ∈ list, i ∈ q.owned)
    (dispatchFailure : Option ReadError) :
    Wp (captureFirst dispatchFailure list) q (fun _ q' => Owned q') fun _ _ => False := by
  induction list generalizing q with
  | nil => exact h
  | cons i rest ih =>
    have hnext : ∀ q1, Owned q1 → q1.owned = q.owned →
        Wp (captureFirst dispatchFailure rest) q1 (fun _ q' => Owned q') fun _ _ => False :=
      fun q1 h1 howned => ih h1 fun j hj => by
        rw [howned]
        exact hlist j (by simp [hj])
    simp only [captureFirst, wp_bind, wp_get, wp_ite]
    refine ⟨fun hphase => ?_, fun _ => hnext q h rfl⟩
    refine Wp.tryCatch (I := Fails i q.owned) ?_ fun e q1 h1 => ?_
    · refine (wp_capture h (hlist i (by simp)) hphase dispatchFailure).mono (fun cut q1 h1 => ?_)
        fun _ _ h1 => h1
      cases cut with
      | none => exact hnext q1 h1.2 h1.1
      | some cut => exact h1.2.invoke
    · refine Wp.bind ((keeps_settle h1.1.1 h1.2).mono (fun _ _ h2 => h2) fun _ _ h2 => h2)
        fun _ q2 h2 => ?_
      exact hnext q2 h2.1 (h2.2.trans h1.1.2)

theorem keeps_turn (h : Owned q) (dispatchFailure : Option ReadError) :
    Wp (turn dispatchFailure) q (fun _ q' => Owned q') fun _ _ => False := by
  simp only [turn, wp_bind, wp_modify, wp_get]
  have hturned : Owned { q with marker := false, turns := q.turns - 1 } := h.turned
  exact keeps_captureFirst hturned (fun i hi => hi) dispatchFailure

/-- A captured request is owned. -/
theorem Owned.capturing (h : Owned q) (hphase : (q.requests i).phase = .captured) : i ∈ q.owned := by
  have ha := h.account i
  have hunder := ha.underWay
  rw [ReadRequest.UnderWay, hphase] at hunder
  have hadmitted : i ∈ q.admitted := by
    by_contra hout
    rw [ha.outside hout] at hphase
    cases hphase
  rcases List.mem_append.mp (h.permits.mem_iff.mp hadmitted) with hi | hi
  · exact hi
  · have hreturned := ha.released hi
    rw [hunder.2.2.2] at hreturned
    cases hreturned

theorem keeps_invoked (h : Owned q) (result : Except Thrown R) :
    Wp (invoked i result) q (fun _ q' => Owned q') fun _ _ => False := by
  have ha := h.account i
  have hc := ha.counts
  have hunder := ha.underWay
  simp only [invoked, wp_bind, wp_get]
  cases hinvoking : (q.requests i).invoking with
  | nil => exact h
  | cons cut rest =>
    have hphase : (q.requests i).phase = .captured := by
      cases hphase : (q.requests i).phase with
      | captured => rfl
      | queued =>
        rw [ReadRequest.UnderWay, hphase, hinvoking] at hunder
        cases hunder.1
      | settling =>
        rw [ReadRequest.UnderWay, hphase, hinvoking] at hunder
        cases hunder.1
    rw [ReadRequest.UnderWay, hphase, hinvoking] at hunder
    have hrest : rest = [] := by
      have hlength := hunder.1
      rw [List.length_cons] at hlength
      exact List.length_eq_zero_iff.mp (by omega)
    have hopened : Opened (q.put i { q.requests i with invoking := rest }) i := by
      refine { (h.rest i).put _ with
        owned := h.capturing hphase, counts := ?_, unsettled := ?_ } <;> rw [put_self]
      · refine ⟨hc.cancelling, hc.done, hc.completed, fun cut' hcut' => ?_, fun o ho => ?_,
          fun o ho => ?_⟩
        · change cut' ∈ rest at hcut'
          rw [hrest] at hcut'
          cases hcut'
        · exact ⟨(hc.completing o ho).undue, (hc.completing o ho).suits⟩
        · exact ⟨(hc.result o ho).undue, (hc.result o ho).suits⟩
      · refine ⟨?_, hrest, hunder.2.1, hunder.2.2.1, hunder.2.2.2⟩
        show (q.requests i).phase ≠ .settling
        rw [hphase]
        simp
    have hsuits := hc.invoking cut (by simp [hinvoking])
    simp only [wp_bind, wp_change]
    cases result with
    | ok value =>
      refine (keeps_settle hopened ?_).mono (fun _ _ h1 => h1.1) fun _ _ h1 => h1
      rw [put_self]
      refine ⟨by simp, fun _ policy progress _ heq => ?_⟩
      cases heq
      exact ⟨rfl, hsuits⟩
    | error thrown =>
      refine (keeps_settle hopened ?_).mono (fun _ _ h1 => h1.1) fun _ _ h1 => h1
      rw [put_self]
      exact ⟨by simp, by simp⟩

/-! ### Completions -/

theorem keeps_complete (h : Owned q) :
    Wp (complete i) q (fun _ q' => Owned q') fun _ q' => Owned q' := by
  have ha := h.account i
  have hunder := ha.underWay
  simp only [complete, wp_bind, wp_get]
  cases hcompleting : (q.requests i).completing with
  | nil => exact h
  | cons outcome rest =>
    have hphase : (q.requests i).phase = .settling := by
      cases hphase : (q.requests i).phase with
      | settling => rfl
      | queued =>
        rw [ReadRequest.UnderWay, hphase, hcompleting] at hunder
        cases hunder.2.1
      | captured =>
        rw [ReadRequest.UnderWay, hphase, hcompleting] at hunder
        cases hunder.2.1
    rw [ReadRequest.UnderWay, hphase, hcompleting, List.length_cons] at hunder
    have hallows := ha.counts.completing outcome (by simp [hcompleting])
    have hc := ha.counts.complete hallows
    have hsame : ∃ result completed, (q.requests i).complete outcome =
        { q.requests i with result, completed } := by
      unfold ReadRequest.complete
      split
      · exact ⟨_, _, rfl⟩
      · exact ⟨_, _, rfl⟩
    have hdone : ((q.requests i).complete outcome).result.isSome = true :=
      ReadRequest.complete_result
    obtain ⟨result, completed, hsame⟩ := hsame
    rw [hsame] at hc hdone
    simp only [wp_change, hsame]
    refine ((h.rest i).put _).all ⟨?_, ?_, ?_, ?_, ?_⟩ fun hi => ?_ <;> rw [put_self]
    · refine ⟨hc.cancelling, fun _ => hdone, hc.completed, hc.invoking, fun o ho => ?_,
        fun o ho => ?_⟩
      · have hmem : o ∈ (q.requests i).completing := by
          rw [hcompleting]
          exact List.mem_cons_of_mem _ ho
        exact ⟨(hc.completing o hmem).undue, (hc.completing o hmem).suits⟩
      · exact ⟨(hc.result o ho).undue, (hc.result o ho).suits⟩
    · rw [ReadRequest.UnderWay, hphase]
      refine ⟨hunder.1, ?_⟩
      show rest.length + ((q.requests i).returning + 1) + (q.requests i).completionReturned.toNat = 1
      omega
    · intro _ hqueued
      change (q.requests i).phase = .queued at hqueued
      rw [hphase] at hqueued
      cases hqueued
    · exact ha.released
    · exact ha.outside
    · exact h.kept i hi

theorem keeps_returned (h : Owned q) :
    Wp (returned i) q (fun _ q' => Owned q') fun _ q' => Owned q' := by
  have ha := h.account i
  have hc := ha.counts
  have hunder := ha.underWay
  simp only [returned, wp_bind, wp_get, wp_ite, wp_change, wp_pure]
  refine ⟨fun hreturning => ?_, fun _ => h⟩
  have hphase : (q.requests i).phase = .settling := by
    cases hphase : (q.requests i).phase with
    | settling => rfl
    | queued =>
      rw [ReadRequest.UnderWay, hphase] at hunder
      omega
    | captured =>
      rw [ReadRequest.UnderWay, hphase] at hunder
      omega
  rw [ReadRequest.UnderWay, hphase] at hunder
  refine keeps_releaseIfComplete ((h.rest i).put _) ⟨?_, ?_, ?_, ?_, ?_⟩ <;> rw [put_self]
  · refine ⟨hc.cancelling, fun _ => hc.done (.inl hreturning), hc.completed, hc.invoking,
      fun o ho => ?_, fun o ho => ?_⟩
    · exact ⟨(hc.completing o ho).undue, (hc.completing o ho).suits⟩
    · exact ⟨(hc.result o ho).undue, (hc.result o ho).suits⟩
  · rw [ReadRequest.UnderWay, hphase]
    refine ⟨hunder.1, ?_⟩
    show (q.requests i).completing.length + ((q.requests i).returning - 1) + 1 = 1
    omega
  · intro _ hqueued
    change (q.requests i).phase = .queued at hqueued
    rw [hphase] at hqueued
    cases hqueued
  · exact fun _ => rfl
  · exact ha.outside

/-! ### Runs -/

theorem keeps_run (h : Owned q) (l : Label R) :
    Wp (run l) q (fun _ q' => Owned q') fun _ q' => Owned q' := by
  cases l with
  | submit options deadline observation => exact keeps_submit h
  | barrier i epoch index => exact keeps_barrier h
  | fail i error => exact keeps_fail h
  | reject i error => exact (keeps_reject h).mono (fun _ _ h1 => h1.1) fun _ _ h1 => h1.elim
  | expire i => exact keeps_expire h
  | changed => exact (keeps_changedLocked h).mono (fun _ _ h1 => h1.1) fun _ _ h1 => h1.elim
  | turn dispatchFailure =>
    exact (keeps_turn h dispatchFailure).mono (fun _ _ h1 => h1) fun _ _ h1 => h1.elim
  | invoked i result => exact (keeps_invoked h result).mono (fun _ _ h1 => h1) fun _ _ h1 => h1.elim
  | complete i => exact keeps_complete h
  | returned i => exact keeps_returned h
  | cancel i => exact keeps_cancel h
  | cancelFuture i => exact keeps_cancelFuture h
  | cancelEnd i => exact keeps_cancelEnd h
  | close =>
    simp only [run, close, wp_bind, wp_modify]
    exact (keeps_changedLocked h.turned).mono (fun _ _ h1 => h1.1) fun _ _ h1 => h1.elim

theorem owned_create (identity : ReadCut) (pendingBound : ℕ) :
    Owned (create identity pendingBound : ReadQueue R) := by
  refine ⟨⟨Nat.zero_le _, List.nodup_nil, .refl _, by simp [create]⟩, fun i => ?_, by simp [create]⟩
  exact ⟨ReadRequest.create_counts, ReadRequest.create_underWay, by simp [create], by simp [create],
    fun _ => rfl⟩

theorem Owned.after (h : Owned q) (answers : ℕ → Answer) (l : Label R) :
    Owned (q.after answers l) := by
  have hstart : Owned { q with answers, asked := 0 } :=
    ⟨⟨h.bound, h.nodup, h.permits, h.created⟩,
      fun i => ⟨(h.account i).counts, (h.account i).underWay, (h.account i).alarmed,
        (h.account i).released, (h.account i).outside⟩, h.kept⟩
  unfold ReadQueue.after
  split
  · exact (keeps_run hstart l).ok ‹_›
  · exact (keeps_run hstart l).error ‹_›

theorem Reachable.owned (h : Reachable q) : Owned q := by
  induction h with
  | create identity pendingBound => exact owned_create identity pendingBound
  | step _ answers _ ih => exact ih.after answers _

/-- The one thing under way that is to complete the future: the alarm of the deadline, an invocation
or a task of `completions`. -/
def Pursued (r : ReadRequest R) : Prop :=
  r.phase = .queued ∧ r.alarm = true ∨ r.phase = .captured ∧ r.invoking.length = 1 ∨
    r.phase = .settling ∧ r.completing.length = 1

theorem Account.pursued (h : q.Account i) (hi : i ∈ q.owned) (hnone : (q.requests i).result = none) :
    Pursued (q.requests i) := by
  have hunder := h.underWay
  have hdone := h.counts.done
  rw [hnone] at hdone
  cases hphase : (q.requests i).phase with
  | queued => exact .inl ⟨hphase, (h.alarmed hi hphase).1⟩
  | captured =>
    rw [ReadRequest.UnderWay, hphase] at hunder
    exact .inr (.inl ⟨hphase, hunder.1⟩)
  | settling =>
    rw [ReadRequest.UnderWay, hphase] at hunder
    refine .inr (.inr ⟨hphase, ?_⟩)
    have hreturning : (q.requests i).returning = 0 := by
      by_contra hne
      exact absurd (hdone (.inl (by omega))) (by simp)
    have hreturned : (q.requests i).completionReturned = false := by
      by_contra hne
      exact absurd (hdone (.inr (.inl (by simpa using hne)))) (by simp)
    have hsum := hunder.2
    rw [hreturning, hreturned] at hsum
    exact hsum

/-- The queue owns no more than its limit.  A permit is given back once, when its request is owned no
longer, and the future is completed once, not later than that.  A captured request does not fail with
its deadline, a minimum is met in its own history, and what is spent is not owned. -/
theorem reads_owned (h : Reachable q) :
    q.owned.length ≤ q.limit ∧
    (q.admitted.Nodup ∧ ∀ i ∈ q.admitted, q.released.count i = if i ∈ q.owned then 0 else 1) ∧
    (∀ i ∈ q.admitted, (q.requests i).completed ≤ 1 ∧
      (i ∉ q.owned → (q.requests i).completed = 1) ∧
      ((q.requests i).completed = 0 → i ∈ q.owned ∧ Pursued (q.requests i))) ∧
    (∀ i, (q.requests i).captured = true →
      (q.requests i).result ≠ some (.failed .deadlineExceeded)) ∧
    (∀ i value policy progress sequence,
      (q.requests i).result = some (.value value policy progress sequence) →
      (q.requests i).options.policy = .atLeastIndex → ∃ minimum ∈ (q.requests i).options.minimum,
        progress.of = minimum.of ∧ minimum.index ≤ progress.index) ∧
    ((∀ i ∈ q.admitted, Spent (q.requests i)) → q.owned = []) := by
  have howned := h.owned
  have hgone : ∀ i ∈ q.admitted, i ∉ q.owned → i ∈ q.released := fun i hi hnot =>
    (List.mem_append.mp (howned.permits.mem_iff.mp hi)).resolve_left hnot
  have hfuture : ∀ i ∈ q.admitted, i ∉ q.owned → (q.requests i).result.isSome = true :=
    fun i hi hnot => (howned.account i).counts.done
      (.inr (.inl ((howned.account i).released (hgone i hi hnot))))
  refine ⟨howned.bound, ⟨howned.nodup, fun i hi => ?_⟩, fun i hi => ?_, fun i hcaptured hresult => ?_,
    fun i value policy progress sequence hresult hpolicy => ?_, fun hspent => ?_⟩
  · split
    · rename_i hin
      exact List.count_eq_zero_of_not_mem (howned.not_released hin)
    · rename_i hnot
      have hnodup := (List.nodup_append.mp (howned.permits.nodup_iff.mp howned.nodup)).2.1
      exact List.count_eq_one_of_mem hnodup (hgone i hi hnot)
  · have hcompleted := (howned.account i).counts.completed
    refine ⟨?_, fun hnot => ?_, fun hzero => ?_⟩
    · rw [hcompleted]
      exact Bool.toNat_le _
    · rw [hcompleted, hfuture i hi hnot]
      rfl
    · have hnone : (q.requests i).result = none := by
        rw [hcompleted] at hzero
        cases hresult : (q.requests i).result with
        | none => rfl
        | some outcome =>
          rw [hresult] at hzero
          cases hzero
      have hin : i ∈ q.owned := by
        by_contra hnot
        have hsome := hfuture i hi hnot
        rw [hnone] at hsome
        cases hsome
      exact ⟨hin, (howned.account i).pursued hin hnone⟩
  · exact ((howned.account i).counts.result _ hresult).undue hcaptured rfl
  · have hsuits := (((howned.account i).counts.result _ hresult).suits _ _ _ _ rfl).2
    have hvalid := (q.requests i).options.valid
    rw [if_pos hpolicy] at hvalid
    obtain ⟨minimum, hminimum⟩ := Option.isSome_iff_exists.mp hvalid.1
    exact ⟨minimum, hminimum, hsuits hpolicy minimum hminimum⟩
  · rw [List.eq_nil_iff_forall_not_mem]
    intro i hi
    exact howned.kept i hi (hspent i (howned.owned_admitted hi))

instance (q : ReadQueue R) (l : Label R) : Decidable (q.Enabled l) := by
  cases l <;> unfold Enabled <;> infer_instance

/-- The steps that can be taken, one after the other, with the same answers. -/
def play (q : ReadQueue R) (answers : ℕ → Answer) (script : List (Label R)) : ReadQueue R :=
  script.foldl (fun q l => if q.Enabled l then q.after answers l else q) q

theorem Reachable.play (h : Reachable q) (answers : ℕ → Answer) (script : List (Label R)) :
    Reachable (q.play answers script) := by
  induction script generalizing q with
  | nil => exact h
  | cons l script ih =>
    refine ih ?_
    show Reachable (if q.Enabled l then q.after answers l else q)
    split
    · exact h.step answers ‹_›
    · exact h

/-- A read that waits for the first index, is captured at the second one and returns. -/
def waited : ReadQueue ℕ :=
  let cut : ReadCut := ⟨⟨1, 2, 3⟩, 2, 7, 0⟩
  (create cut 3).play (fun _ => ⟨none, 2, cut, true⟩)
    [.submit ⟨.atLeastIndex, some ⟨⟨1, 2, 3⟩, 1⟩, 5, by simp⟩ 10 1, .turn none, .invoked 0 (.ok 42),
      .complete 0, .cancel 0, .returned 0]

theorem reads_owned_waited :
    (waited.admitted = [0] ∧ waited.owned = [] ∧ (waited.requests 0).captured = true ∧
      (waited.requests 0).completed = 1) ∧
    (waited.owned.length ≤ waited.limit ∧
    (waited.admitted.Nodup ∧
      ∀ i ∈ waited.admitted, waited.released.count i = if i ∈ waited.owned then 0 else 1) ∧
    (∀ i ∈ waited.admitted, (waited.requests i).completed ≤ 1 ∧
      (i ∉ waited.owned → (waited.requests i).completed = 1) ∧
      ((waited.requests i).completed = 0 → i ∈ waited.owned ∧ Pursued (waited.requests i))) ∧
    (∀ i, (waited.requests i).captured = true →
      (waited.requests i).result ≠ some (.failed .deadlineExceeded)) ∧
    (∀ i value policy progress sequence,
      (waited.requests i).result = some (.value value policy progress sequence) →
      (waited.requests i).options.policy = .atLeastIndex →
      ∃ minimum ∈ (waited.requests i).options.minimum,
        progress.of = minimum.of ∧ minimum.index ≤ progress.index) ∧
    ((∀ i ∈ waited.admitted, Spent (waited.requests i)) → waited.owned = [])) :=
  ⟨by decide +kernel, reads_owned ((Reachable.create _ 3).play _ _)⟩

end ReadQueue

end GeneralSearch.Replication
