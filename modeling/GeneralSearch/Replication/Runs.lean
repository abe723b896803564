import GeneralSearch.Replication.Protocol

/-! What the driver of a voter, `AutomaticRuntime` with `AutomaticRejoin`, calls on it. -/

namespace GeneralSearch.Replication

/-- A call of the driver.  `checkpoint` and `cut` are the two of maintenance that change the
store. -/
inductive Event {D : Type} (m : Manifest D) where
  | enableReplicaReads
  | restored (application : Bytes)
  | checkpoint (application : Bytes)
  | cut
  | observePromise (observed : Ballot)
  | rejoin (ballot : Ballot) (snapshot : Snapshot m)
  | frozen (ballot : Ballot)
  | start (time : ℕ)
  | reconstructed (id : ℕ) (application : Option Bytes) (time : ℕ)
  | tick (time : ℕ)
  | transportFailed (id time : ℕ)
  | transportDeferred (id time : ℕ)
  | submit (request operation : ℕ) (payload : Bytes) (time : ℕ)
  | published (id : ℕ) (error : Bool) (time : ℕ)
  | cancel (request time : ℕ)
  | quiesce
  | receive (message : Message m) (time : ℕ)

/-- What the suppliers of the protocol and the directory of the voter hold ready. -/
structure Supply where
  randomness : ℕ → ℤ
  incarnation : ℕ
  basisId : ℕ
  around : Surroundings

section

variable {D : Type} {m : Manifest D}

def Voter.supplied (v : Voter m) (supply : Supply) : Voter m :=
  { v with
    store := { v.store with around := supply.around }
    randomness := supply.randomness
    incarnation := supply.incarnation
    basisId := supply.basisId }

end

variable {D : Type} [DecidableEq D] {m : Manifest D} (sha : Sha m) (bounds : Bounds m)

namespace Protocol

/-- The end of `AutomaticRuntime.checkpoint`, with the image of the application. -/
def checkpoint (application : Bytes) : Exec m Unit := do
  let snapshot ← onStore (Store.provenSnapshot sha application)
  capacity (Store.generationAvailable (← get).store snapshot = true) "automatic runtime checkpoint"
  onStore (Store.installProven sha snapshot)

/-- The cut that `AutomaticRejoin.cycle` offers to the peers. -/
def cut : Exec m (Option (Snapshot m)) := do
  match ← maintenanceSnapshot sha with
  | none => return none
  | some snapshot =>
    if Store.generationAvailable (← get).store snapshot then
      onStore (Store.installProven sha snapshot)
      return some snapshot
    else return none

/-- A call that offers nothing to the peers. -/
def silent (x : Exec m Unit) : Exec m (Option (Snapshot m)) := do
  x
  return none

/-- A call of the driver, with the snapshot that it offers to the peers. -/
def run : Event m → Exec m (Option (Snapshot m))
  | .enableReplicaReads => silent enableReplicaReads
  | .restored application => silent (restored sha application)
  | .checkpoint application => silent (checkpoint sha application)
  | .cut => cut sha
  | .observePromise observed => silent (observePromise bounds observed)
  | .rejoin ballot snapshot => silent (rejoin sha bounds ballot snapshot)
  | .frozen ballot => silent (frozen sha bounds ballot)
  | .start time => silent (start sha bounds time)
  | .reconstructed id application time => silent (reconstructed sha bounds id application time)
  | .tick time => silent (tick sha bounds time)
  | .transportFailed id time => silent (transportFailed bounds id time)
  | .transportDeferred id time => silent (transportDeferred bounds id time)
  | .submit request operation payload time =>
    silent (submit sha bounds request operation payload time)
  | .published id error time => silent (published sha bounds id error time)
  | .cancel request time => silent (cancel bounds request time)
  | .quiesce => silent (quiesce bounds)
  | .receive message time => silent (receive sha bounds message time)

end Protocol

/-- The voter after a call, which it leaves as it is when it throws. -/
def Voter.after (v : Voter m) (supply : Supply) (e : Event m) : Voter m :=
  match Protocol.run sha bounds e (v.supplied supply) with
  | .ok _ v' => v'
  | .error _ v' => v'

/-- What the call returns to the driver for the peers. -/
def Voter.offered (v : Voter m) (supply : Supply) (e : Event m) : Option (Snapshot m) :=
  match Protocol.run sha bounds e (v.supplied supply) with
  | .ok offered _ => offered
  | .error _ _ => none

variable {sha bounds}

/-- What a call leaves, however it ends, holds of the voter after it. -/
theorem Voter.after_of_wp {v : Voter m} {supply : Supply} {e : Event m} {Q : Voter m → Prop}
    (h : Lib.Wp (Protocol.run sha bounds e) (v.supplied supply) (fun _ v' => Q v')
      fun _ v' => Q v') : Q (v.after sha bounds supply e) := by
  unfold Voter.after
  split
  · exact h.ok ‹_›
  · exact h.error ‹_›

/-- What a call that returns says of its result. -/
theorem Voter.offered_of_wp {v : Voter m} {supply : Supply} {e : Event m}
    {Q : Option (Snapshot m) → Voter m → Prop} {E : Failure → Voter m → Prop}
    (h : Lib.Wp (Protocol.run sha bounds e) (v.supplied supply) Q E) {snapshot : Snapshot m}
    (hs : snapshot ∈ v.offered sha bounds supply e) :
    Q (some snapshot) (v.after sha bounds supply e) := by
  unfold Voter.offered at hs
  unfold Voter.after
  split at hs
  · rename_i offered v' heq
    rw [Option.mem_def] at hs
    exact hs ▸ h.ok heq
  · cases hs

end GeneralSearch.Replication
