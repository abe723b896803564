import GeneralSearch.Lib.Exec
import Mathlib.Data.Int.Notation
import Mathlib.Logic.Function.Basic

/-! `AutomaticReadQueue`: which reads are admitted, captured and completed, and who owns them.  One
step is what runs under the monitor without a break; what runs outside of it is kept with its request
until it is done. -/

namespace GeneralSearch.Replication

open Lib

/-- `ReplicaReadPolicy`. -/
inductive ReadPolicy where
  | leaderStrong | staleAllowed | atLeastIndex
  deriving DecidableEq, Repr

/-- What `AutomaticReadCut.compatible` compares. -/
structure History where
  group : ℕ
  history : ℕ
  manifest : ℕ
  deriving DecidableEq

/-- `ReplicaReadToken`. -/
structure ReadToken where
  of : History
  index : ℕ
  deriving DecidableEq

/-- `AutomaticReadCut`. -/
structure ReadCut where
  of : History
  index : ℕ
  sequence : ℕ
  generation : ℕ
  deriving DecidableEq

def ReadCut.token (cut : ReadCut) : ReadToken := ⟨cut.of, cut.index⟩

/-- `ReplicaReadOptions`. -/
structure ReadOptions where
  policy : ReadPolicy
  minimum : Option ReadToken
  waitTimeoutMillis : ℕ
  valid : if policy = .atLeastIndex then minimum.isSome ∧ waitTimeoutMillis ≤ 60000
    else minimum = none ∧ waitTimeoutMillis = 0

/-- What the surroundings throw. -/
inductive Thrown where
  | rejectedExecution
  | other (code : ℕ)
  deriving DecidableEq

/-- What a read fails with. -/
inductive ReadError where
  | closed | capacityExceeded | deadlineExceeded | cancelled | incompatibleHistory
  | progressNotReached | unexpectedBarrier
  | thrown (thrown : Thrown)
  deriving DecidableEq

/-- How a future is completed; a value comes with its `ReplicaReadResult`. -/
inductive ReadOutcome (R : Type) where
  | value (value : R) (policy : ReadPolicy) (progress : ReadToken) (sequence : ℕ)
  | failed (error : ReadError)
  | cancelled

inductive Phase where
  | queued | captured | settling
  deriving DecidableEq, Repr

/-- `Request` with its future.  The next five fields are what is under way for it outside of the
monitor: its invocations, the tasks of `completions` that have not completed the future and those that
have, and the calls of `cancel` before and after they complete it.  Nothing reads the last two: how
often the future was completed, and whether the request was ever captured. -/
structure ReadRequest (R : Type) where
  options : ReadOptions
  deadline : ℤ
  observation : ℕ
  phase : Phase
  alarm : Bool
  epoch : ℕ
  barrierIndex : ℕ
  capturedNanos : ℤ
  barrierReady : Bool
  preparing : Bool
  cancelled : Bool
  completionReturned : Bool
  cancelling : ℕ
  captureSettled : Bool
  result : Option (ReadOutcome R)
  invoking : List ReadCut
  completing : List (ReadOutcome R)
  returning : ℕ
  cancels : ℕ
  ending : ℕ
  completed : ℕ
  captured : Bool

def ReadRequest.create {R : Type} (options : ReadOptions) (deadline : ℤ) (observation : ℕ) :
    ReadRequest R where
  options := options
  deadline := deadline
  observation := observation
  phase := .queued
  alarm := false
  epoch := 0
  barrierIndex := 0
  capturedNanos := 0
  barrierReady := false
  preparing := options.policy = .leaderStrong
  cancelled := false
  completionReturned := false
  cancelling := 0
  captureSettled := false
  result := none
  invoking := []
  completing := []
  returning := 0
  cancels := 0
  ending := 0
  completed := 0
  captured := false

/-- The completion of a future, which does nothing once it is done. -/
def ReadRequest.complete {R : Type} (outcome : ReadOutcome R) (r : ReadRequest R) : ReadRequest R :=
  if r.result.isSome then r else { r with result := some outcome, completed := r.completed + 1 }

/-- What is left of an outcome when the observation of the settling throws. -/
def ReadOutcome.observed {R : Type} (outcome : ReadOutcome R) (error : ReadError) : ReadOutcome R :=
  match outcome with
  | .value _ _ _ _ => .failed error
  | outcome => outcome

/-- What a call of the surroundings returns, or throws. -/
structure Answer where
  thrown : Option Thrown
  number : ℤ
  cut : ReadCut
  granted : Bool

/-- `AutomaticReadQueue`.  The requests are numbered as they come, and `created` is the number of the
next one.  `turns` are the turns that wait to begin, `answers` what the surroundings answer next.
Nothing reads `admitted` and `released`: whose permit was taken and given back. -/
structure ReadQueue (R : Type) where
  identity : ReadCut
  limit : ℕ
  requests : ℕ → ReadRequest R
  created : ℕ
  owned : List ℕ
  marker : Bool
  closed : Bool
  highWater : ℕ
  turns : ℕ
  answers : ℕ → Answer
  asked : ℕ
  admitted : List ℕ
  released : List ℕ

namespace ReadQueue

variable {R : Type}

abbrev Exec (R α : Type) := EStateM ReadError (ReadQueue R) α

/-- The next answer. -/
def peek : Exec R Answer := do
  let q ← get
  set { q with asked := q.asked + 1 }
  return q.answers q.asked

/-- A call that may throw. -/
def ask : Exec R Answer := do
  let answer ← peek
  match answer.thrown with
  | some thrown => throw (.thrown thrown)
  | none => return answer

def change (i : ℕ) (f : ReadRequest R → ReadRequest R) : Exec R Unit :=
  modify fun q => { q with requests := Function.update q.requests i (f (q.requests i)) }

def refuse (condition : Prop) [Decidable condition] (error : ReadError) : Exec R Unit :=
  if condition then throw error else pure ()

/-- `AutomaticReadCut.compatible`. -/
def compatible (cut : ReadCut) (minimum : ReadToken) : Exec R Unit :=
  refuse (cut.of ≠ minimum.of) .incompatibleHistory

def check (i : ℕ) : Exec R ℤ := do
  let q ← get
  refuse q.closed .closed
  let _ ← ask
  (q.requests i).options.minimum.forM (compatible q.identity)
  let observed := (← peek).number
  refuse ((q.requests i).deadline ≤ observed) .deadlineExceeded
  return observed

def infrastructureFailure (q : ReadQueue R) (error : ReadError) : ReadError :=
  if error = .thrown .rejectedExecution then if q.closed then .closed else .capacityExceeded
  else error

def ready (i : ℕ) : Exec R Bool := do
  let r := (← get).requests i
  if r.options.policy = .leaderStrong then return r.barrierReady
  else if r.options.policy = .staleAllowed ∨ r.options.waitTimeoutMillis = 0 then return true
  else
    let published := (← ask).number
    match r.options.minimum with
    | none => throw (.thrown (.other 0))
    | some minimum => return decide ((minimum.index : ℤ) ≤ published)

def observe (i : ℕ) : Exec R Unit := do
  if ((← get).requests i).observation ≠ 0 then
    let _ ← ask

def settle (i : ℕ) (outcome : ReadOutcome R) : Exec R Unit := do
  if ((← get).requests i).phase ≠ .settling then
    change i fun r => { r with phase := .settling, alarm := false, captureSettled := true }
    let final ← tryCatch (do observe i; return outcome) fun e => return outcome.observed e
    change i fun r => { r with completing := r.completing ++ [final] }

def releaseIfComplete (i : ℕ) : Exec R Unit := do
  let q ← get
  let r := q.requests i
  if r.completionReturned ∧ r.cancelling = 0 ∧ ¬r.preparing ∧ i ∈ q.owned then
    modify fun q => { q with owned := q.owned.erase i, released := q.released ++ [i] }
    observe i

/-- A queued request is failed where it may not wait any longer; whether it is eligible. -/
def recheck (i : ℕ) : Exec R Bool := do
  if ((← get).requests i).phase = .queued then
    tryCatch (do
      let _ ← check i
      if ((← get).requests i).cancelled then
        settle i (.failed .cancelled)
        return false
      else ready i) fun e => do
        settle i (.failed e)
        return false
  else return false

def recheckAll : List ℕ → Exec R Bool
  | [] => return false
  | i :: rest => do
    let eligible ← recheck i
    return eligible || (← recheckAll rest)

def failQueued (error : ReadError) (i : ℕ) : Exec R Unit := do
  if ((← get).requests i).phase = .queued then settle i (.failed error)

def changedLocked : Exec R Unit := do
  let eligible ← recheckAll (← get).owned
  if eligible ∧ ¬(← get).marker then
    modify fun q => { q with marker := true }
    tryCatch (do
      let _ ← ask
      modify fun q => { q with turns := q.turns + 1 }) fun e => do
        modify fun q => { q with marker := false }
        let q ← get
        q.owned.forM (failQueued (q.infrastructureFailure e))

/-- The end of the admission, under the permit. -/
def register (i : ℕ) : Exec R Unit :=
  tryCatch (do
    let _ ← ask
    change i fun r => { r with alarm := true }
    observe i
    changedLocked) fun e => do settle i (.failed ((← get).infrastructureFailure e))

/-- The request is owned from now on. -/
def enter (i : ℕ) (q : ReadQueue R) : ReadQueue R :=
  { q with
    owned := q.owned ++ [i]
    highWater := max q.highWater (q.owned.length + 1)
    admitted := q.admitted ++ [i] }

def submit (options : ReadOptions) (deadline : ℤ) (observation : ℕ) : Exec R Unit := do
  let i := (← get).created
  modify fun q => { q with created := i + 1 }
  change i fun _ => .create options deadline observation
  tryCatch (do
    let _ ← check i
    let q ← get
    refuse (q.limit ≤ q.owned.length) .capacityExceeded
    refuse (¬(← peek).granted) .capacityExceeded
    modify (enter i)
    register i) fun e => change i fun r => { r.complete (.failed e) with captureSettled := true }

/-- `Request.barrier`. -/
def barrier (i epoch index : ℕ) : Exec R Unit := do
  change i fun r => { r with preparing := false }
  let q ← get
  let r := q.requests i
  if i ∉ q.owned ∨ r.phase ≠ .queued then releaseIfComplete i
  else
    refuse (r.options.policy ≠ .leaderStrong ∨ r.barrierReady) .unexpectedBarrier
    change i fun r => { r with epoch := epoch, barrierIndex := index, barrierReady := true }
    changedLocked

/-- `Request.reject`. -/
def reject (i : ℕ) (error : ReadError) : Exec R Unit := do
  let q ← get
  if i ∈ q.owned ∧ (q.requests i).phase = .queued then settle i (.failed error)

/-- `Request.fail`. -/
def fail (i : ℕ) (error : ReadError) : Exec R Unit := do
  change i fun r => { r with preparing := false }
  reject i error
  releaseIfComplete i

def expire (i : ℕ) : Exec R Unit := do
  let q ← get
  if i ∈ q.owned ∧ (q.requests i).phase = .queued then
    if (q.requests i).deadline ≤ (← peek).number then settle i (.failed .deadlineExceeded)

/-- The minimum of a request, against what was captured; whether the request need not wait. -/
def reached (options : ReadOptions) (captured : ReadCut) : Exec R Bool := do
  if options.policy = .atLeastIndex then
    match options.minimum with
    | none => throw (.thrown (.other 0))
    | some minimum =>
      compatible captured minimum
      refuse (captured.index < minimum.index ∧ options.waitTimeoutMillis = 0) .progressNotReached
      return decide (minimum.index ≤ captured.index)
  else return true

/-- The body of the loop of `turn`; what it captures is what the turn invokes. -/
def capture (dispatchFailure : Option ReadError) (i : ℕ) : Exec R (Option ReadCut) := do
  dispatchFailure.forM throw
  let _ ← check i
  if ((← get).requests i).cancelled then
    settle i (.failed .cancelled)
    return none
  else if ← ready i then
    let captured := (← ask).cut
    let _ ← check i
    if ← reached ((← get).requests i).options captured then
      let nanos ← check i
      change i fun r => { r with
        capturedNanos := nanos, phase := .captured, alarm := false, captured := true }
      observe i
      change i fun r => { r with captureSettled := true }
      return some captured
    else return none
  else return none

def captureFirst (dispatchFailure : Option ReadError) : List ℕ → Exec R Unit
  | [] => return
  | i :: rest => do
    if ((← get).requests i).phase = .queued then
      let cut ← tryCatch (capture dispatchFailure i) fun e => do
        settle i (.failed e)
        return none
      match cut with
      | some cut => change i fun r => { r with invoking := r.invoking ++ [cut] }
      | none => captureFirst dispatchFailure rest
    else captureFirst dispatchFailure rest

/-- A turn up to the end of its capture.  What `beforeDispatch` threw is known before the monitor is
entered. -/
def turn (dispatchFailure : Option ReadError) : Exec R Unit := do
  modify fun q => { q with marker := false, turns := q.turns - 1 }
  captureFirst dispatchFailure (← get).owned

/-- The end of an invocation, with what the action returned or what was thrown. -/
def invoked (i : ℕ) (result : Except Thrown R) : Exec R Unit := do
  let r := (← get).requests i
  match r.invoking with
  | [] => return
  | cut :: rest =>
    change i fun r => { r with invoking := rest }
    match result with
    | .ok value => settle i (.value value r.options.policy cut.token cut.sequence)
    | .error thrown => settle i (.failed (.thrown thrown))

/-- A task of `completions` completes the future. -/
def complete (i : ℕ) : Exec R Unit := do
  match ((← get).requests i).completing with
  | [] => return
  | outcome :: rest =>
    change i fun r => { r.complete outcome with completing := rest, returning := r.returning + 1 }

/-- The end of a task of `completions`. -/
def returned (i : ℕ) : Exec R Unit := do
  if 0 < ((← get).requests i).returning then
    change i fun r => { r with returning := r.returning - 1, completionReturned := true }
    releaseIfComplete i

/-- The beginning of `cancel` on the future. -/
def cancel (i : ℕ) : Exec R Unit := do
  if ¬((← get).requests i).result.isSome then
    change i fun r => { r with
      cancelled := true, cancelling := r.cancelling + 1, cancels := r.cancels + 1 }

/-- `super.cancel`. -/
def cancelFuture (i : ℕ) : Exec R Unit := do
  if 0 < ((← get).requests i).cancels then
    change i fun r => { r.complete .cancelled with cancels := r.cancels - 1, ending := r.ending + 1 }

/-- The end of `cancel`. -/
def cancelEnd (i : ℕ) : Exec R Unit := do
  if 0 < ((← get).requests i).ending then
    change i fun r => { r with cancelling := r.cancelling - 1, ending := r.ending - 1 }
    reject i .cancelled
    releaseIfComplete i

def close : Exec R Unit := do
  modify fun q => { q with closed := true }
  changedLocked

/-! ### Runs -/

/-- What may happen next.  The requests that exist are those below `created`. -/
inductive Label (R : Type) where
  | submit (options : ReadOptions) (deadline : ℤ) (observation : ℕ)
  | barrier (i epoch index : ℕ)
  | fail (i : ℕ) (error : ReadError)
  | reject (i : ℕ) (error : ReadError)
  | expire (i : ℕ)
  | changed
  | turn (dispatchFailure : Option ReadError)
  | invoked (i : ℕ) (result : Except Thrown R)
  | complete (i : ℕ)
  | returned (i : ℕ)
  | cancel (i : ℕ)
  | cancelFuture (i : ℕ)
  | cancelEnd (i : ℕ)
  | close

def run : Label R → Exec R Unit
  | .submit options deadline observation => submit options deadline observation
  | .barrier i epoch index => barrier i epoch index
  | .fail i error => fail i error
  | .reject i error => reject i error
  | .expire i => expire i
  | .changed => changedLocked
  | .turn dispatchFailure => turn dispatchFailure
  | .invoked i result => invoked i result
  | .complete i => complete i
  | .returned i => returned i
  | .cancel i => cancel i
  | .cancelFuture i => cancelFuture i
  | .cancelEnd i => cancelEnd i
  | .close => close

/-- The request that a label is about. -/
def Label.about : Label R → Option ℕ
  | .submit _ _ _ | .changed | .turn _ | .close => none
  | .barrier i _ _ | .fail i _ | .reject i _ | .expire i | .invoked i _ | .complete i | .returned i
  | .cancel i | .cancelFuture i | .cancelEnd i => some i

/-- The queue after a step; a step that throws keeps what it has done. -/
def after (q : ReadQueue R) (answers : ℕ → Answer) (l : Label R) : ReadQueue R :=
  match run l { q with answers, asked := 0 } with
  | .ok _ q' => q'
  | .error _ q' => q'

/-- A step is about a request that exists, and a turn was dispatched. -/
def Enabled (q : ReadQueue R) : Label R → Prop
  | .turn _ => 0 < q.turns
  | l => ∀ i ∈ l.about, i < q.created

/-- The queue of a runtime. -/
def create (identity : ReadCut) (pendingBound : ℕ) : ReadQueue R where
  identity := identity
  limit := min 64 (pendingBound - 1)
  requests := fun _ => .create ⟨.staleAllowed, none, 0, by simp⟩ 0 0
  created := 0
  owned := []
  marker := false
  closed := false
  highWater := 0
  turns := 0
  answers := fun _ => ⟨none, 0, identity, true⟩
  asked := 0
  admitted := []
  released := []

/-- The queues that can be reached, whatever the surroundings answer. -/
inductive Reachable : ReadQueue R → Prop where
  | create (identity : ReadCut) (pendingBound : ℕ) : Reachable (create identity pendingBound)
  | step {q : ReadQueue R} (h : Reachable q) (answers : ℕ → Answer) {l : Label R}
      (hl : q.Enabled l) : Reachable (q.after answers l)

end ReadQueue

end GeneralSearch.Replication
