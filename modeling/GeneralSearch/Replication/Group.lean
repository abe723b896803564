import GeneralSearch.Replication.Guards
import GeneralSearch.Replication.Messages
import Mathlib.Tactic.FinCases

/-! The group of three voters: their drivers call them in any order, what they send may be lost,
delayed, repeated and reordered, and a voter may crash at any change of its directory and reopen
it. -/

namespace GeneralSearch.Replication

open Lib

variable {D : Type} {m : Manifest D}

/-! ### Another world around a voter -/

section

variable [DecidableEq D] {sha : Sha m} {W W' : World m} {n : Node}

/-- The directories of the others have grown. -/
theorem Store.Holds.rebase {s : Store m} (h : s.Holds sha W) (hown : (W' s.node).Grows s.disk)
    (hgrows : (W.put s).Grows (W'.put s)) (hlawful : Lawful sha (W'.put s)) : s.Holds sha W' :=
  ⟨hown, hlawful, h.chain.mono hgrows, fun p hp => (h.base p hp).mono hgrows,
    fun p hp => (h.proven p hp).mono hgrows, h.slots, h.live⟩

theorem Secure.rebase {a : Authority m} (h : Secure sha W n a)
    (hown : (W' a.store.node).Grows a.store.disk) (hgrows : (W.put a.store).Grows (W'.put a.store))
    (hlawful : Lawful sha (W'.put a.store)) : Secure sha W' n a :=
  { h with
    store := h.store.rebase hown hgrows hlawful
    actions := fun x hx => (h.actions x hx).mono hgrows
    exchanges := fun p hp => (h.exchanges p hp).mono hgrows
    publication := fun p hp => (h.publication p hp).mono hgrows }

theorem Inv.rebase {a : Authority m} (h : Inv sha W n a)
    (hown : (W' a.store.node).Grows a.store.disk) (hgrows : (W.put a.store).Grows (W'.put a.store))
    (hlawful : Lawful sha (W'.put a.store)) : Inv sha W' n a :=
  { h.toSecure.rebase hown hgrows hlawful with
    campaign := h.campaign
    ownBasis := fun b hb => ⟨(h.ownBasis b hb).1, (h.ownBasis b hb).2.mono hgrows⟩
    selection := fun d hd => by
      obtain ⟨hselected, c, hc, x, y, hxy, hx, hy⟩ := h.selection d hd
      exact ⟨hselected, c, hc, x, y, hxy, hx.mono hgrows, hy.mono hgrows⟩
    recovering := h.recovering
    leading := h.leading
    operating := h.operating
    publishing := h.publishing
    completed := h.completed
    continuation := h.continuation
    starting := h.starting
    candidate := h.candidate }

end

/-! ### Maintenance -/

namespace Protocol

variable [DecidableEq D] {sha : Sha m} {W : World m} {n : Node} {v : Voter m} {bounds : Bounds m}

/-- A generation at the own cut. -/
theorem keeps_installOwn {snapshot : Snapshot m} (h : Inv sha W n v.toAuthority)
    (hback : Backed sha (W.put v.store) snapshot)
    (hindex : snapshot.index = v.store.provenThrough) :
    Keeps sha W n (onStore (Store.installProven sha snapshot)) v := by
  have hmoved : ∀ s, Store.Moves sha W v.store s ∧ (s.provenThrough = v.store.provenThrough ∨
      s.provenThrough = snapshot.index) → Inv sha W n { v.toAuthority with store := s } :=
    fun s hs => h.moves hs.1 fun _ => hs.2.elim (fun h => h) fun h => h.trans hindex
  refine wp_onStore.mpr ?_
  exact (Store.moves_installProven h.store hback).mono (fun _ s hs => hmoved s hs)
    fun _ s hs => hmoved s hs

theorem keeps_checkpoint {application : Bytes} (h : Inv sha W n v.toAuthority) :
    Keeps sha W n (checkpoint sha application) v := by
  unfold checkpoint
  simp only [Store.provenSnapshot, wp_bind, wp_get, wp_onStore, Store.wp_usable, Store.wp_check,
    wp_capacity]
  refine ⟨fun _ => ⟨fun image himage => ⟨fun _ => ?_, fun _ => h⟩, fun _ _ => h⟩, fun _ => h⟩
  obtain ⟨hback, hindex⟩ := h.store.snapshot himage
  exact wp_onStore.mp (keeps_installOwn h hback hindex)

/-- A computation of the driver that hands out what rests on the world. -/
abbrev Hands (sha : Sha m) (W : World m) (n : Node) (x : Exec m (Option (Snapshot m)))
    (v : Voter m) : Prop :=
  Wp x v (fun offered v' => Inv sha W n v'.toAuthority ∧
      ∀ snapshot ∈ offered, Backed sha (W.put v'.store) snapshot)
    fun _ v' => Inv sha W n v'.toAuthority

theorem Keeps.hands {x : Exec m Unit} (h : Keeps sha W n x v) : Hands sha W n (silent x) v :=
  wp_silent.mpr (h.mono (fun _ _ h1 => ⟨h1, by simp⟩) fun _ _ h1 => h1)

theorem hands_cut (h : Inv sha W n v.toAuthority) : Hands sha W n (cut sha) v := by
  unfold cut maintenanceSnapshot
  simp only [wp_bind, wp_get, wp_ite, wp_pure]
  refine ⟨fun _ => ⟨h, by simp⟩, fun _ => ?_⟩
  refine (quiet_proven v).mono (fun through v1 h1 => ?_) fun _ v1 h1 => by rw [h1]; exact h
  have hv1 : Inv sha W n v1.toAuthority := h1 ▸ h
  refine ⟨fun _ => ⟨hv1, by simp⟩, fun _ => ?_⟩
  simp only [Store.provenSnapshot, wp_onStore, Store.wp_usable, Store.wp_check, wp_bind]
  refine ⟨fun _ => ⟨fun image himage => ⟨fun _ => ?_, fun _ => ⟨hv1, by simp⟩⟩, fun _ _ => hv1⟩,
    fun _ => hv1⟩
  obtain ⟨hback, hindex⟩ := hv1.store.snapshot himage
  have hmoved : ∀ s, Store.Moves sha W v1.store s ∧ (s.provenThrough = v1.store.provenThrough ∨
      s.provenThrough = image.index) → Inv sha W n { v1.toAuthority with store := s } :=
    fun s hs => hv1.moves hs.1 fun _ => hs.2.elim (fun h => h) fun h => h.trans hindex
  refine (Store.moves_installProven hv1.store hback).mono (fun _ s hs => ⟨hmoved s hs, ?_⟩)
    fun _ s hs => hmoved s hs
  rintro _ ⟨⟩
  exact hback.mono (hv1.store.world hs.1.node hs.1.grows)

end Protocol

/-- What a call hands to the voter rests on the world. -/
def Event.Holds (sha : Sha m) (W : World m) : Event m → Prop
  | .receive message _ => message.Holds sha W
  | .rejoin _ snapshot => Backed sha W snapshot
  | _ => True

namespace Protocol

variable [DecidableEq D] {sha : Sha m} {W : World m} {n : Node} {v : Voter m} {bounds : Bounds m}

theorem hands_run {e : Event m} (h : Inv sha W n v.toAuthority) (he : e.Holds sha (W.put v.store)) :
    Hands sha W n (run sha bounds e) v := by
  cases e with
  | enableReplicaReads => exact ⟨h, by simp⟩
  | restored application => exact (keeps_restored h).hands
  | checkpoint application => exact (keeps_checkpoint h).hands
  | cut => exact hands_cut h
  | observePromise observed => exact (keeps_observePromise h).hands
  | rejoin ballot snapshot => exact (keeps_rejoin h he).hands
  | frozen ballot => exact (keeps_frozen h).hands
  | start time => exact (keeps_start h).hands
  | reconstructed id application time => exact (keeps_reconstructed h).hands
  | tick time => exact (keeps_tick h).hands
  | transportFailed id time => exact (keeps_transportFailed h).hands
  | transportDeferred id time => exact (keeps_transportDeferred h).hands
  | submit request operation payload time => exact (keeps_submit h).hands
  | published id error time => exact (keeps_published h).hands
  | cancel request time => exact (keeps_cancel h).hands
  | quiesce => exact (keeps_quiesce h).hands
  | receive message time => exact (keeps_receive h he).hands

end Protocol

/-! ### The group -/

def Action.message? : Action m → Option (Message m)
  | .send message => some message
  | _ => none

def Action.publication? : Action m → Option (Publish m)
  | .publish publication => some publication
  | _ => none

/-- A publication that waits among the actions rests on the world. -/
theorem Inv.publication_backed [DecidableEq D] {sha : Sha m} {W : World m} {n : Node}
    {a : Authority m} (h : Inv sha W n a) {p : Publish m}
    (hp : p ∈ a.actions.filterMap Action.publication?) : Backed sha (W.put a.store) p.snapshot := by
  obtain ⟨x, hx, hxp⟩ := List.mem_filterMap.mp hp
  have hholds := h.actions x hx
  cases x with
  | publish publication =>
    cases hxp
    exact hholds
  | _ => cases hxp

/-- The voters, with every message that was sent, every cut that was offered and every publication
that an application was given or that was lost in a crash. -/
structure Group (m : Manifest D) where
  voters : Node → Voter m
  sent : List (Message m)
  offered : List (Snapshot m)
  published : List (Publish m)

namespace Group

/-- What happens: a call of a driver, its taking of the actions, or a crash after which the directory
is opened again. -/
inductive Label (m : Manifest D) where
  | call (v : Node) (e : Event m)
  | drain (v : Node)
  | reopen (v : Node)

/-- The directories of the voters. -/
def world (g : Group m) : World m := fun v => (g.voters v).store.disk

/-- A message that is received was sent, and a cut that is rejoined at was offered. -/
def Delivers (g : Group m) : Event m → Prop
  | .receive message _ => message ∈ g.sent
  | .rejoin _ snapshot => snapshot ∈ g.offered
  | _ => True

/-- Every publication that a voter has emitted. -/
def emitted (g : Group m) : List (Publish m) :=
  g.published ++ (List.finRange 3).flatMap fun v => (g.voters v).actions.filterMap Action.publication?

variable [DecidableEq D] (sha : Sha m) (bounds : Bounds m)

/-- One step.  A driver makes no call while more than 16 actions wait for it. -/
inductive Step : Group m → Label m → Group m → Prop where
  | call {g : Group m} {v : Node} {e : Event m} (supply : Supply)
      (hactions : (g.voters v).actions.length ≤ 16) (he : g.Delivers e) :
      Step g (.call v e) { g with
        voters := Function.update g.voters v ((g.voters v).after sha bounds supply e)
        offered := g.offered ++ ((g.voters v).offered sha bounds supply e).toList }
  | drain {g : Group m} {v : Node} : Step g (.drain v) { g with
        voters := Function.update g.voters v (g.voters v).drained
        sent := g.sent ++ (g.voters v).actions.filterMap Action.message?
        published := g.published ++ (g.voters v).actions.filterMap Action.publication? }
  | reopen {g : Group m} {v : Node} {around : Surroundings} {store : Store m}
      (h : Store.openStore sha v (g.voters v).store.disk around = .ok store) :
      Step g (.reopen v) { g with
        voters := Function.update g.voters v (Voter.create store (g.voters v).trace)
        published := g.published ++ (g.voters v).actions.filterMap Action.publication? }

/-- The groups that can be reached from three new directories. -/
inductive Reachable : Group m → Prop where
  | start {stores : Node → Store m} {around : Node → Surroundings}
      (h : ∀ v, Store.openStore sha v (Disk.genesis m) (around v) = .ok (stores v)) :
      Reachable ⟨fun v => Voter.create (stores v) [], [], [], []⟩
  | step {g g' : Group m} {l : Label m} (h : Reachable g) (hs : Step sha bounds g l g') :
      Reachable g'

/-- What holds of a group between two steps. -/
structure Sound (g : Group m) : Prop where
  attended : ∀ v, Attended sha bounds (g.voters v)
  voters : ∀ v, Inv sha g.world v (g.voters v).toAuthority
  sent : ∀ x ∈ g.sent, x.Holds sha g.world
  offered : ∀ s ∈ g.offered, Backed sha g.world s
  published : ∀ p ∈ g.published, Backed sha g.world p.snapshot

variable {sha bounds} {g g' : Group m} {l : Label m} {v : Node}

omit [DecidableEq D] in
theorem world_put (h : (g.voters v).store.node = v) : g.world.put (g.voters v).store = g.world := by
  unfold World.put
  rw [h]
  exact Function.update_eq_self v g.world

/-- One voter goes on, in a world that has grown by what it wrote. -/
theorem Sound.update (h : g.Sound sha bounds) {a : Voter m} (hattended : Attended sha bounds a)
    (ha : Inv sha g.world v a.toAuthority) {sent : List (Message m)} {offered : List (Snapshot m)}
    {published : List (Publish m)}
    (hsent : ∀ x ∈ sent, x ∈ g.sent ∨ x.Holds sha (g.world.put a.store))
    (hoffered : ∀ s ∈ offered, s ∈ g.offered ∨ Backed sha (g.world.put a.store) s)
    (hpublished : ∀ p ∈ published, p ∈ g.published ∨ Backed sha (g.world.put a.store) p.snapshot) :
    Sound sha bounds { voters := Function.update g.voters v a, sent, offered, published } := by
  have hworld : world { voters := Function.update g.voters v a, sent, offered, published } =
      g.world.put a.store := by
    funext w
    show (Function.update g.voters v a w).store.disk = Function.update g.world _ _ w
    rw [ha.node]
    by_cases hw : w = v
    · rw [hw, Function.update_self, Function.update_self]
    · rw [Function.update_of_ne hw, Function.update_of_ne hw]
      rfl
  have hgrows : g.world.Grows (g.world.put a.store) := .update g.world ha.store.grows
  have hput : ∀ w, w ≠ v → (g.world.put a.store).put (g.voters w).store = g.world.put a.store := by
    intro w hw
    have hdisk : (g.voters w).store.disk = Function.update g.world v a.store.disk w := by
      rw [Function.update_of_ne hw]
      rfl
    unfold World.put
    rw [(h.voters w).node, ha.node, hdisk, Function.update_eq_self]
  refine ⟨fun w => ?_, fun w => ?_, fun x hx => ?_, fun s hs => ?_, fun p hp => ?_⟩
  · show Attended sha bounds (Function.update g.voters v a w)
    by_cases hw : w = v
    · rw [hw, Function.update_self]
      exact hattended
    · rw [Function.update_of_ne hw]
      exact h.attended w
  · rw [hworld]
    show Inv sha _ w (Function.update g.voters v a w).toAuthority
    by_cases hw : w = v
    · rw [hw, Function.update_self]
      have hself : (g.world.put a.store).put a.store = g.world.put a.store := by
        unfold World.put
        rw [Function.update_idem]
      refine ha.rebase ?_ ?_ ?_
      · rw [ha.store.own]
        exact .refl _
      · rw [hself]
        exact fun _ => .refl _
      · rw [hself]
        exact ha.store.lawful
    · rw [Function.update_of_ne hw]
      refine (h.voters w).rebase ?_ ?_ ?_
      · rw [(h.voters w).node]
        unfold World.put
        rw [ha.node, Function.update_of_ne hw]
        exact .refl _
      · rw [hput w hw, world_put (h.voters w).node]
        exact hgrows
      · rw [hput w hw]
        exact ha.store.lawful
  · rw [hworld]
    exact (hsent x hx).elim (fun hold => (h.sent x hold).mono hgrows) id
  · rw [hworld]
    exact (hoffered s hs).elim (fun hold => (h.offered s hold).mono hgrows) id
  · rw [hworld]
    exact (hpublished p hp).elim (fun hold => (h.published p hold).mono hgrows) id

/-- A voter that is opened over its directory, with what it did before. -/
theorem created {W : World m} {store : Store m} {disk : Disk m} {around : Surroundings}
    {trace : List (Mark m)} (hW : Lawful sha W) (hdisk : W v = disk)
    (hopen : Store.openStore sha v disk around = .ok store)
    (htally : ∀ request, Tally trace request 0)
    (hdone : ∀ request index outcome done,
      Mark.completed request index none outcome done ∈ trace → ∃ ballot entry,
        done = some (ballot, entry) ∧ Done sha v disk trace request index ballot entry)
    (hvotes : ∀ row ∈ disk.voted, row.ballot.proposer = some v →
      ∃ request, .proposed request row.entry ∈ trace) :
    Inv sha W v (Voter.create store trace).toAuthority := by
  obtain ⟨hholds, hd, hn, -⟩ := Store.Holds.opened hW hdisk hopen
  refine .of_idle ⟨hn, hholds, ?_, ?_, ?_, htally, ?_, ?_, ?_⟩ ⟨rfl, rfl, rfl, rfl, ?_⟩ ?_
  · simp [Voter.create]
  · simp [Voter.create]
  · simp [Voter.create]
  · intro request index outcome done hmem
    obtain ⟨ballot, entry, heq, h⟩ := hdone request index outcome done hmem
    refine ⟨ballot, entry, heq, ?_⟩
    show Done sha store.node store.disk trace request index ballot entry
    rw [hd, hn]
    exact h
  · intro row hrow howner
    change row ∈ store.disk.voted at hrow
    change row.ballot.proposer = some store.node at howner
    rw [hd] at hrow
    rw [hn] at howner
    exact hvotes row hrow howner
  · simp [Voter.create]
  · simp [Voter.create]
  · simp [Voter.create]

/-- Nothing was ever written. -/
theorem lawful_genesis : Lawful sha (fun _ => Disk.genesis m) := by
  refine ⟨fun v => ?_, fun v => ?_⟩
  · constructor <;> simp [Disk.genesis]
  · constructor <;> simp [Disk.genesis]

theorem sound_start {stores : Node → Store m} {around : Node → Surroundings}
    (h : ∀ v, Store.openStore sha v (Disk.genesis m) (around v) = .ok (stores v)) :
    Sound sha bounds ⟨fun v => Voter.create (stores v) [], [], [], []⟩ := by
  have hworld : world ⟨fun v => Voter.create (stores v) [], [], [], []⟩ =
      fun _ => Disk.genesis m := by
    funext v
    exact (Store.Holds.opened lawful_genesis rfl (h v)).2.1
  refine ⟨fun v => .create (h v) [], fun v => ?_, by simp, by simp, by simp⟩
  rw [hworld]
  refine created lawful_genesis rfl (h v) (fun request => ⟨?_, ?_⟩) (by simp) ?_
  · simp
  · simp
  · simp [Disk.genesis]

theorem Sound.call (h : g.Sound sha bounds) {e : Event m} (supply : Supply)
    (hactions : (g.voters v).actions.length ≤ 16) (he : g.Delivers e) :
    Sound sha bounds { g with
      voters := Function.update g.voters v ((g.voters v).after sha bounds supply e)
      offered := g.offered ++ ((g.voters v).offered sha bounds supply e).toList } := by
  have hinv : Inv sha g.world v ((g.voters v).supplied supply).toAuthority :=
    (h.voters v).sameStore ⟨rfl, rfl, rfl, fun hf => hf⟩
  have hput : g.world.put ((g.voters v).supplied supply).store = g.world :=
    world_put (h.voters v).node
  have hholds : e.Holds sha (g.world.put ((g.voters v).supplied supply).store) := by
    rw [hput]
    cases e with
    | receive message time => exact h.sent message he
    | rejoin ballot snapshot => exact h.offered snapshot he
    | _ => trivial
  have hrun : Protocol.Hands sha g.world v (Protocol.run sha bounds e)
      ((g.voters v).supplied supply) := Protocol.hands_run hinv hholds
  have hafter : Inv sha g.world v ((g.voters v).after sha bounds supply e).toAuthority :=
    Voter.after_of_wp (hrun.mono (fun _ _ h1 => h1.1) fun _ _ h1 => h1)
  refine h.update ((h.attended v).call hactions supply e) hafter (fun x hx => .inl hx)
    (fun s hs => ?_) fun p hp => .inl hp
  rcases List.mem_append.mp hs with hs | hs
  · exact .inl hs
  · exact .inr ((Voter.offered_of_wp hrun (Option.mem_toList.mp hs)).2 s rfl)

theorem Sound.drain (h : g.Sound sha bounds) : Sound sha bounds { g with
    voters := Function.update g.voters v (g.voters v).drained
    sent := g.sent ++ (g.voters v).actions.filterMap Action.message?
    published := g.published ++ (g.voters v).actions.filterMap Action.publication? } := by
  have hinv : Inv sha g.world v (g.voters v).drained.toAuthority :=
    (h.voters v).posts ⟨⟨[], (g.voters v).exchanges, rfl⟩, by simp [Voter.drained],
      (h.voters v).exchanges⟩
  have hactions := (h.voters v).actions
  refine h.update (h.attended v).drain hinv (fun x hx => ?_) (fun s hs => .inl hs) fun p hp => ?_
  · rcases List.mem_append.mp hx with hx | hx
    · exact .inl hx
    · obtain ⟨a, ha, hax⟩ := List.mem_filterMap.mp hx
      have hholds := hactions a ha
      cases a with
      | send message =>
        cases hax
        exact .inr hholds
      | _ => cases hax
  · rcases List.mem_append.mp hp with hp | hp
    · exact .inl hp
    · exact .inr ((h.voters v).publication_backed hp)

theorem Sound.reopen (h : g.Sound sha bounds) {around : Surroundings} {store : Store m}
    (hopen : Store.openStore sha v (g.voters v).store.disk around = .ok store) :
    Sound sha bounds { g with
      voters := Function.update g.voters v (Voter.create store (g.voters v).trace)
      published := g.published ++ (g.voters v).actions.filterMap Action.publication? } := by
  have hv := h.voters v
  have hlawful : Lawful sha g.world := world_put hv.node ▸ hv.store.lawful
  have hcreated : Inv sha g.world v (Voter.create store (g.voters v).trace).toAuthority := by
    have hdone := hv.done
    have hvotes := hv.votes
    rw [hv.node] at hdone hvotes
    refine created hlawful rfl hopen (fun request => ?_) hdone hvotes
    exact ⟨(Nat.le_add_right _ _).trans (hv.tally request).outcomes, (hv.tally request).entries⟩
  refine h.update (.create hopen _) hcreated (fun x hx => .inl hx) (fun s hs => .inl hs)
    fun p hp => ?_
  rcases List.mem_append.mp hp with hp | hp
  · exact .inl hp
  · have hbacked := (h.voters v).publication_backed hp
    have hgrows : g.world.Grows (g.world.put store) := .update g.world hcreated.store.grows
    rw [world_put (h.voters v).node] at hbacked
    exact .inr (hbacked.mono hgrows)

theorem Sound.step (h : g.Sound sha bounds) (hs : Step sha bounds g l g') : g'.Sound sha bounds := by
  cases hs with
  | call supply hactions he => exact h.call supply hactions he
  | drain => exact h.drain
  | reopen hopen => exact h.reopen hopen

theorem Reachable.sound (h : Reachable sha bounds g) : g.Sound sha bounds := by
  induction h with
  | start h => exact sound_start h
  | step _ hs ih => exact ih.step hs

/-! ### Scripts -/

instance (g : Group m) (e : Event m) : Decidable (g.Delivers e) := by
  unfold Delivers
  cases e <;> infer_instance

variable (sha bounds) in
/-- The step, where it can be taken. -/
def take (supply : Supply) (g : Group m) : Label m → Group m
  | .call v e =>
    if (g.voters v).actions.length ≤ 16 ∧ g.Delivers e then { g with
      voters := Function.update g.voters v ((g.voters v).after sha bounds supply e)
      offered := g.offered ++ ((g.voters v).offered sha bounds supply e).toList }
    else g
  | .drain v => { g with
      voters := Function.update g.voters v (g.voters v).drained
      sent := g.sent ++ (g.voters v).actions.filterMap Action.message?
      published := g.published ++ (g.voters v).actions.filterMap Action.publication? }
  | .reopen v =>
    match Store.openStore sha v (g.voters v).store.disk supply.around with
    | .ok store => { g with
      voters := Function.update g.voters v (Voter.create store (g.voters v).trace)
      published := g.published ++ (g.voters v).actions.filterMap Action.publication? }
    | .error _ => g

theorem Reachable.take (h : Reachable sha bounds g) (supply : Supply) (l : Label m) :
    Reachable sha bounds (g.take sha bounds supply l) := by
  cases l with
  | call v e =>
    simp only [Group.take]
    split
    · rename_i hcall
      exact h.step (.call supply hcall.1 hcall.2)
    · exact h
  | drain v => exact h.step .drain
  | reopen v =>
    simp only [Group.take]
    split
    · rename_i store hopen
      exact h.step (.reopen hopen)
    · exact h

variable (sha bounds) in
/-- The steps of a script, each of which may depend on what was sent. -/
def play (supply : Supply) (g : Group m) (script : List (Group m → Label m)) : Group m :=
  script.foldl (fun g l => g.take sha bounds supply (l g)) g

theorem Reachable.play (h : Reachable sha bounds g) (supply : Supply)
    (script : List (Group m → Label m)) : Reachable sha bounds (g.play sha bounds supply script) := by
  induction script generalizing g with
  | nil => exact h
  | cons l script ih => exact ih (h.take supply (l g))

omit [DecidableEq D] in
def call (v : Node) (e : Event m) (_ : Group m) : Label m := .call v e

omit [DecidableEq D] in
def drain (v : Node) (_ : Group m) : Label m := .drain v

omit [DecidableEq D] in
/-- The message that was sent as the `i`-th reaches its recipient. -/
def deliver (i time : ℕ) (g : Group m) : Label m :=
  match g.sent[i]? with
  | some (.request c) => .call c.recipient (.receive (.request c) time)
  | some (.response r) => .call r.recipient (.receive (.response r) time)
  | none => .drain 0

/-- Three voters with empty directories. -/
def fresh : Option (Group emptyManifest) := do
  let a ← (Store.openStore (symbolic _) 0 (Disk.genesis _) calm).toOption
  let b ← (Store.openStore (symbolic _) 1 (Disk.genesis _) calm).toOption
  let c ← (Store.openStore (symbolic _) 2 (Disk.genesis _) calm).toOption
  return ⟨fun v => Voter.create (if v = 0 then a else if v = 1 then b else c) [], [], [], []⟩

theorem fresh_reachable {g : Group emptyManifest} (h : fresh = some g) :
    Reachable (symbolic _) (shortBounds _) g := by
  have hopened : ∀ {v : Node} {store : Store emptyManifest},
      (Store.openStore (symbolic _) v (Disk.genesis _) calm).toOption = some store →
        Store.openStore (symbolic _) v (Disk.genesis _) calm = .ok store := by
    intro v store hstore
    cases heq : Store.openStore (symbolic emptyManifest) v (Disk.genesis _) calm with
    | error e =>
      rw [heq] at hstore
      cases hstore
    | ok s =>
      rw [heq] at hstore
      cases hstore
      rfl
  simp only [fresh, Option.bind_eq_bind, Option.bind_eq_some_iff] at h
  obtain ⟨a, ha, b, hb, c, hc, hg⟩ := h
  cases hg
  refine @Reachable.start _ _ _ _ _ _ (fun _ => calm) fun v => ?_
  fin_cases v
  · exact hopened ha
  · exact hopened hb
  · exact hopened hc

/-- A script over three empty directories. -/
def played (script : List (Group emptyManifest → Label emptyManifest)) :
    Option (Group emptyManifest) :=
  fresh.map fun g => g.play (symbolic _) (shortBounds _) plainSupply script

theorem played_reachable {script : List (Group emptyManifest → Label emptyManifest)}
    {g : Group emptyManifest} (h : played script = some g) :
    Reachable (symbolic _) (shortBounds _) g := by
  obtain ⟨g', hg', rfl⟩ := Option.map_eq_some_iff.mp h
  exact (fresh_reachable hg').play plainSupply script

/-- The third voter is elected by the first one. -/
def elected : List (Group emptyManifest → Label emptyManifest) :=
  [call 2 (.start 0), call 2 (.reconstructed 1 (some []) 1), drain 2,
    call 0 (.start 0), call 0 (.reconstructed 1 (some []) 1), drain 0,
    call 1 (.start 0), call 1 (.reconstructed 1 (some []) 1), drain 1,
    call 2 (.tick 30), drain 2, call 2 (.tick 45), drain 2, deliver 0 46, drain 0, deliver 4 46,
    drain 2, deliver 5 47, drain 0, deliver 6 47, drain 2, call 2 (.tick 48), drain 2,
    deliver 7 48, drain 0, deliver 8 48, drain 2, deliver 9 48, drain 0, deliver 10 48, drain 2,
    call 2 (.reconstructed 9 (some []) 49), drain 2, call 2 (.published 10 false 50), drain 2]

/-- It writes an entry and publishes it. -/
def written : List (Group emptyManifest → Label emptyManifest) :=
  elected ++ [call 2 (.submit 5 9 [] 51), drain 2, deliver 11 51, drain 0, deliver 12 51, drain 2,
    deliver 13 51, drain 0, deliver 14 51, drain 2, call 2 (.reconstructed 13 (some []) 52),
    drain 2, call 2 (.published 14 false 53), drain 2]

end Group

end GeneralSearch.Replication
