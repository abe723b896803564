import GeneralSearch.Replication.Store

/-! `AutomaticProtocol`: the authority transitions of one voter, over its store.  A handler that
throws keeps what it has changed, as the object of the source does. -/

namespace GeneralSearch.Replication

/-- `AutomaticReplicationState`. -/
inductive State where
  | stopped | starting | follower | candidate | recovering | leaderReady | unavailable | failed
  | closed
  deriving DecidableEq, Repr

/-- `AutomaticReplicationException.Outcome`. -/
inductive Outcome where
  | notApplicable | notSubmitted | indeterminate
  deriving DecidableEq, Repr

inductive Kind where
  | prepare | install | accept | proof | heartbeat
  deriving DecidableEq, Repr

structure Pulse where
  sequence : ℕ
  activated : Bool
  stage : ℕ
  bytes : ℕ
  deriving DecidableEq

def maxActions : ℕ := 32

section

variable {D : Type} (m : Manifest D)

/-- The payload of a request, by its kind. -/
inductive Request where
  | prepare
  | install (bases : List (Basis m))
  | accept (row : Accept D)
  | proof (row : Proof m)
  | heartbeat (pulse : Pulse)
  deriving DecidableEq

/-- The payload of a response, by its kind; `refused` is a response that is not accepted. -/
inductive Response where
  | refused (kind : Kind) (reason : Reason)
  | prepared (basis : Basis m)
  | installed (digest : D)
  | accepted (receipt : D)
  | proven (receipt : D)
  | beaten (sequence : ℕ)
  deriving DecidableEq

/-- A `Message` that is a request. -/
structure Call where
  id : ℕ
  sender : Node
  recipient : Node
  ballot : Ballot
  request : Request m
  deriving DecidableEq

/-- A `Message` that is a response. -/
structure Reply where
  id : ℕ
  sender : Node
  recipient : Node
  ballot : Ballot
  response : Response m
  promised : Ballot
  deriving DecidableEq

inductive Message where
  | request (call : Call m)
  | response (reply : Reply m)
  deriving DecidableEq

/-- `AutomaticStore.Replay`. -/
structure Replay where
  snapshot : Snapshot m
  entries : List (Entry D)
  through : ℕ
  sequence : ℕ

structure Publish where
  id : ℕ
  ballot : Ballot
  snapshot : Snapshot m
  isLocal : Bool

inductive Action where
  | send (message : Message m)
  | reconstruct (id : ℕ) (replay : Replay m)
  | publish (publication : Publish m)
  | completed (request index : ℕ) (reason : Option Reason) (outcome : Outcome)

structure Pending where
  message : Call m
  deadline : ℕ
  attempts : ℕ
  retryAt : ℕ
  admissionDeferred : Bool

structure Operation where
  entry : Entry D
  request : ℕ
  deadline : ℕ
  campaign : Bool
  ownReceipt : Option D
  proof : Option (Proof m)
  issued : Bool
  deriving DecidableEq

/-- What is to run once the application image is at the proven prefix: the `Runnable`s that are
passed to `withImage`, with the variables they capture. -/
inductive Continuation where
  | start
  | campaign (expected : Ballot)
  | prepare (message : Call m)
  | publishLocal (expected : Ballot)
  | publish (committing : Operation m) (expected : Ballot)

/-- What a voter did that can be seen from outside, in this order: the calls of `submit`, the entry
of each operation that is put to the vote (recovery uses the request 0), the publications that
returned without an error, and the outcomes, a successful one with its ballot and its entry.
Nothing reads it. -/
inductive Mark where
  | submitted (request operation : ℕ) (payload : Bytes)
  | proposed (request : ℕ) (entry : Entry D)
  | published (publication : Publish m)
  | completed (request index : ℕ) (reason : Option Reason) (outcome : Outcome)
    (done : Option (Ballot × Entry D))

/-- The leadership policy and the bounds of a group.  The byte bounds are decided by the records
themselves: whether an acceptance fits a frame, two bases fit the staging area, and the input of a
reconstruction fits an image. -/
structure Bounds extends Limits m where
  heartbeatIntervalMillis : ℕ
  minElectionTimeoutMillis : ℕ
  maxElectionTimeoutMillis : ℕ
  operationTimeoutMillis : ℕ
  requestTimeoutMillis : ℕ
  retryBackoffMillis : ℕ
  maxRetryAttempts : ℕ
  framed : Accept D → Bool
  staged : Basis m → Basis m → Bool
  replayed : Snapshot m → List (Entry D) → Bool

/-- The fields of `AutomaticProtocol` that authority depends on. -/
structure Authority where
  store : Store m
  state : State
  fence : Ballot
  campaign : Option Ballot
  ownBasis : Option (Basis m)
  selection : Option (Selection m)
  operation : Option (Operation m)
  publication : Option (Publish m)
  imageContinuation : Option (Continuation m)
  actions : List (Action m)
  exchanges : List (Pending m)
  trace : List (Mark m)

/-- The other fields of `AutomaticProtocol`: clocks, hints and the application image.  `randomness`,
`incarnation` and `basisId` are what its suppliers return next.  Nothing reads the last three fields:
whether the bound of the actions or that of the exchanges of a peer was ever met, the PREPAREs that
were taken in, and those that were answered. -/
structure Schedule where
  replicaReads : Bool
  localRecoveryThrough : ℕ
  durablePromise : Ballot
  quorumPeer : Option Node
  failedQuorumPeer : Option Node
  deferredPreparePeer : Option Node
  preparing : Option (Call m)
  reconstruction : Option (ℕ × Replay m)
  image : Bytes
  imageIndex : Option ℕ
  publishedIndex : ℕ
  lastProven : ℕ
  now : ℕ
  maxEpoch : ℕ
  serial : ℕ
  electionAt : ℕ
  heartbeatAt : ℕ
  campaignDeadline : ℕ
  heartbeatSequence : ℕ
  progress : ℕ
  lastHeartbeat : ℕ
  lastStage : ℕ
  lastProgress : ℕ
  randomness : ℕ → ℤ
  incarnation : ℕ
  basisId : ℕ
  tripped : Bool
  received : List (Call m)
  replied : List (Call m)

/-- `AutomaticProtocol`. -/
structure Voter extends Authority m, Schedule m

end

section

variable {D : Type} {m : Manifest D}

def Request.kind : Request m → Kind
  | .prepare => .prepare
  | .install _ => .install
  | .accept _ => .accept
  | .proof _ => .proof
  | .heartbeat _ => .heartbeat

def Response.kind : Response m → Kind
  | .refused kind _ => kind
  | .prepared _ => .prepare
  | .installed _ => .install
  | .accepted _ => .accept
  | .proven _ => .proof
  | .beaten _ => .heartbeat

/-- A `Send` of a request. -/
def Action.isCall : Action m → Bool
  | .send (.request _) => true
  | _ => false

def State.inactive (s : State) : Bool :=
  s = .stopped || s = .starting || s = .failed || s = .closed

/-- The other members in the order of the manifest. -/
def peers (v : Node) : List Node := [0, 1, 2].filter (· ≠ v)

/-- The voters of a proof in the order of their names. -/
def namesOrdered (m : Manifest D) (v w : Node) : List Node :=
  if m.order w < m.order v then [w, v] else [v, w]

end

section

variable {D : Type} [DecidableEq D] {m : Manifest D} (sha : Sha m)

namespace Store

/-! What the protocol reads of a store; a quarantined store answers nothing. -/

/-- `promised`. -/
def promiseOf : Exec m Ballot := do
  usable
  return (← get).promise

/-- `status`, of which the protocol reads `provenThrough`. -/
def status : Exec m ℕ := do
  usable
  return (← get).provenThrough

/-- `head`: the end of the proven prefix. -/
def head : Exec m (ℕ × ℕ × D) := do
  usable
  let s ← get
  match s.epochAt s.provenThrough, s.digestAt sha s.provenThrough with
  | some epoch, some digest => return (s.provenThrough, epoch, digest)
  | _, _ =>
    modify fun s => { s with failed := true }
    throw ⟨.storageFailure, "cannot read proven head"⟩

/-- `replay`. -/
def replay (bounds : Bounds m) : Exec m (Replay m) := do
  usable
  let s ← get
  let entries := (s.accepted.take s.proven.length).map fun slot => slot.latest.entry
  capacity (bounds.replayed s.base entries = true) "application reconstruction input bound"
  return ⟨s.base, entries, s.provenThrough, s.applicationSequence⟩

/-- `provenSnapshot`. -/
def provenSnapshot (application : Bytes) : Exec m (Snapshot m) := do
  usable
  check fun s => s.snapshot sha application

end Store

namespace Protocol

/-- A computation on a voter. -/
abbrev Exec (m : Manifest D) (α : Type) := EStateM Failure (Voter m) α

/-- A computation on the store of a voter. -/
def onStore {α : Type} (x : Store.Exec m α) : Exec m α := fun v =>
  match x v.store with
  | .ok a s => .ok a { v with store := s }
  | .error e s => .error e { v with store := s }

/-- A computation that reads no state. -/
def lift {α : Type} (x : Except Failure α) : Exec m α := fun v =>
  match x with
  | .ok a => .ok a v
  | .error e => .error e v

/-- The dereference of a field that is null. -/
def nullPointer : Failure := ⟨.integrityFailure, "NullPointerException"⟩

variable (bounds : Bounds m)

def nextEpoch (observed : ℕ) (rank : Node) : Except Failure ℕ := do
  capacity (1 ≤ observed) "campaign epoch/rank"
  let round := if observed = 1 then 0 else (observed - 2) / 3 + 1
  capacity (round * 3 + (rank + 2) ≤ maxLong) "campaign epoch exhausted"
  return round * 3 + (rank + 2)

def nextId : Exec m ℕ := do
  capacity ((← get).serial < maxLong) "protocol identity exhausted"
  modify fun v => { v with serial := v.serial + 1 }
  return (← get).serial

def progress : Exec m Unit := do
  capacity ((← get).progress < maxLong) "recovery progress exhausted"
  modify fun v => { v with progress := v.progress + 1 }

def after (millis : ℕ) : Exec m ℕ := do
  capacity ((← get).now + millis ≤ maxLong) "protocol clock exhausted"
  return (← get).now + millis

def clock (value : ℕ) : Exec m Unit := do
  need ((← get).now ≤ value) "monotonic elapsed clock"
  modify fun v => { v with now := value }

def room : Exec m Unit := do
  capacity ((← get).actions.length ≤ maxActions - 8) "protocol action backpressure"

/-- A `capacity` that is only there to be never met. -/
def guarded (condition : Prop) [Decidable condition] (message : String) : Exec m Unit := do
  modify fun v => { v with tripped := v.tripped || !decide condition }
  capacity condition message

def emit (action : Action m) : Exec m Unit := do
  guarded ((← get).actions.length < maxActions) "protocol action bound"
  modify fun v => { v with actions := v.actions ++ [action] }

def mark (x : Mark m) : Exec m Unit :=
  modify fun v => { v with trace := v.trace ++ [x] }

/-- A `Completed` action. -/
def complete (request index : ℕ) (reason : Option Reason) (outcome : Outcome)
    (done : Option (Ballot × Entry D)) : Exec m Unit := do
  emit (.completed request index reason outcome)
  mark (.completed request index reason outcome done)

def proven : Exec m ℕ := do
  let through ← onStore Store.status
  modify fun v => { v with lastProven := through }
  return through

def armElection : Exec m Unit := do
  let width := bounds.maxElectionTimeoutMillis - bounds.minElectionTimeoutMillis + 1
  let draw := ((← get).randomness 0 % (width : ℤ)).toNat
  modify fun v => { v with randomness := fun n => v.randomness (n + 1) }
  let at' ← after (bounds.minElectionTimeoutMillis + draw)
  modify fun v => { v with electionAt := at' }

/-! ### Giving up -/

/-- The `Completed` of an operation of a client that is given up. -/
def indeterminate (reason : Reason) : Exec m Unit := do
  match (← get).operation with
  | none => return
  | some op =>
    if op.campaign then return
    else
      complete op.request 0 (some reason) (if op.issued then .indeterminate else .notSubmitted) none

def abandon (reason : Reason) : Exec m Unit := do
  modify fun v => { v with
    failedQuorumPeer := if v.state = .recovering ∧ v.quorumPeer.isSome ∧
        (reason = .quorumUnavailable ∨ reason = .deadlineExceeded) then v.quorumPeer
      else v.failedQuorumPeer
    deferredPreparePeer := none }
  indeterminate reason
  modify fun v => { v with
    operation := none, campaign := none, ownBasis := none, selection := none, quorumPeer := none
    imageContinuation := none, exchanges := []
    actions := v.actions.filter fun a => !a.isCall
    campaignDeadline := maxLong, heartbeatAt := maxLong, state := .unavailable }
  armElection bounds

def fail (reason : Reason) : Exec m Unit := do
  abandon bounds reason
  modify fun v => { v with state := .failed, electionAt := maxLong }

/-! ### Exchanges -/

def send (peer : Node) (request : Request m) : Exec m Unit := do
  let v ← get
  guarded ((v.exchanges.filter fun p => p.message.recipient = peer).length < 2)
    "two control exchanges per peer"
  let id ← nextId
  match v.campaign with
  | none => throw nullPointer
  | some ballot =>
    let message : Call m := ⟨id, v.store.node, peer, ballot, request⟩
    let deadline ← after bounds.requestTimeoutMillis
    modify fun v => { v with exchanges := v.exchanges ++ [⟨message, deadline, 1, maxLong, false⟩] }
    emit (.send (.request message))

def reply (request : Call m) (response : Response m) : Exec m Unit := do
  let v ← get
  emit (.send (.response
    ⟨request.id, v.store.node, request.sender, request.ballot, response, v.durablePromise⟩))
  modify fun v => { v with
    replied := if request.request.kind = .prepare then v.replied ++ [request] else v.replied }

def exchange? (v : Voter m) (id : ℕ) : Option (Pending m) :=
  v.exchanges.find? fun p => p.message.id = id

def removeExchange (id : ℕ) : Exec m Unit :=
  modify fun v => { v with exchanges := v.exchanges.filter fun p => p.message.id ≠ id }

/-- The deferred PREPARE, or the end of the campaign. -/
def prepareFailed : Exec m Unit := do
  let v ← get
  if v.exchanges.any fun p => p.message.request.kind = .prepare then return
  else
    match v.deferredPreparePeer with
    | none => abandon bounds .quorumUnavailable
    | some peer =>
      if v.state = .candidate ∧ v.campaign.isSome ∧ v.now < v.campaignDeadline then
        modify fun v => { v with deferredPreparePeer := none }
        send bounds peer .prepare
      else abandon bounds .quorumUnavailable

def exchangeFailed (id : ℕ) : Exec m Unit := do
  match exchange? (← get) id with
  | none => return
  | some pending =>
    removeExchange id
    match pending.message.request.kind with
    | .heartbeat => return
    | .prepare => prepareFailed bounds
    | _ => abandon bounds .quorumUnavailable

/-! ### The application image -/

/-- A publication of the proven prefix with the current image. -/
def publish (ballot : Ballot) (isLocal : Bool) : Exec m Unit := do
  let id ← nextId
  let snapshot ← onStore (Store.provenSnapshot sha (← get).image)
  let publication : Publish m := ⟨id, ballot, snapshot, isLocal⟩
  modify fun v => { v with publication := some publication }
  emit (.publish publication)

/-- The basis at a new ballot is frozen before anything is sent. -/
def campaignReady (expected : Ballot) : Exec m Unit := do
  let v ← get
  if v.campaign = some expected then
    let basis ← onStore (Store.prepare sha bounds.toLimits expected v.store.node v.image v.basisId)
    modify fun v => { v with ownBasis := some basis }
    let promised ← onStore Store.promiseOf
    modify fun v => { v with
      durablePromise := promised, deferredPreparePeer := v.failedQuorumPeer }
    let v ← get
    (peers v.store.node).forM fun peer =>
      if some peer = v.deferredPreparePeer then return else send bounds peer .prepare
  else return

def prepareReady (message : Call m) : Exec m Unit := do
  let v ← get
  if v.preparing = some message ∧ v.fence = message.ballot then
    tryCatch (do
      let basis ←
        onStore (Store.prepare sha bounds.toLimits message.ballot message.sender v.image v.basisId)
      let promised ← onStore Store.promiseOf
      modify fun v => { v with durablePromise := promised, preparing := none }
      armElection bounds
      reply message (.prepared basis)) fun e => do
        modify fun v => { v with preparing := none }
        fail bounds e.reason
        reply message (.refused .prepare e.reason)
  else return

/-- The body of a continuation. -/
def resume : Continuation m → Exec m Unit
  | .start => do
    onStore (Store.resumeCheckpoint sha (← get).image)
    modify fun v => { v with state := .follower }
    armElection bounds
  | .campaign expected => campaignReady sha bounds expected
  | .prepare message => prepareReady sha bounds message
  | .publishLocal expected => do
    let v ← get
    if v.campaign = none ∧ v.preparing = none ∧ v.fence = expected ∧
        (v.state = .follower ∨ v.state = .unavailable) then
      publish sha expected true
    else return
  | .publish committing expected => do
    let v ← get
    if v.operation = some committing ∧ v.campaign = some expected ∧ v.fence = expected then
      publish sha expected false
      progress
    else return

def withImage (continuation : Continuation m) : Exec m Unit := do
  modify fun v => { v with imageContinuation := some continuation }
  let through ← proven
  let v ← get
  if v.imageIndex = some through then
    modify fun v => { v with imageContinuation := none }
    resume sha bounds continuation
  else if v.reconstruction.isNone then
    let id ← nextId
    let replay ← onStore (Store.replay bounds)
    modify fun v => { v with reconstruction := some (id, replay) }
    emit (.reconstruct id replay)
  else return

/-! ### Events of the driver -/

def drain : Exec m (List (Action m)) := do
  let actions := (← get).actions
  modify fun v => { v with actions := [] }
  return actions

def enableReplicaReads : Exec m Unit :=
  modify fun v => { v with replicaReads := true }

def restored (application : Bytes) : Exec m Unit := do
  need ((← get).state = .stopped) "initial restoration precedes start"
  let snapshot ← onStore (Store.provenSnapshot sha application)
  modify fun v => { v with
    image := application, imageIndex := some snapshot.index, publishedIndex := snapshot.index }

def maintenanceCurrent (v : Voter m) (ballot : Ballot) : Bool :=
  !v.state.inactive && decide (v.fence = ballot) && decide (v.durablePromise = ballot)

def maintenanceSnapshot : Exec m (Option (Snapshot m)) := do
  let v ← get
  if v.state ≠ .leaderReady ∨ v.operation.isSome ∨ v.publication.isSome ∨
      v.reconstruction.isSome then return none
  else
    let through ← proven
    if v.imageIndex ≠ some through ∨ v.publishedIndex ≠ through then return none
    else return some (← onStore (Store.provenSnapshot sha v.image))

def observePromise (observed : Ballot) : Exec m Unit := do
  if (← get).fence.epoch < observed.epoch then
    modify fun v => { v with maxEpoch := max v.maxEpoch observed.epoch }
    abandon bounds .staleEpoch
    modify fun v => { v with fence := observed }
  else return

def rejoin (ballot : Ballot) (snapshot : Snapshot m) : Exec m Unit := do
  let v ← get
  need (maintenanceCurrent v ballot = true ∧ v.campaign = none ∧ v.preparing = none ∧
    v.reconstruction.isNone ∧ v.publication.isNone) "rejoin requires quiescent current follower"
  onStore (Store.installProven sha snapshot)
  modify fun v => { v with imageIndex := none }
  let _ ← proven
  modify fun v => { v with
    localRecoveryThrough := if v.replicaReads then max v.localRecoveryThrough snapshot.index
      else v.localRecoveryThrough }
  armElection bounds

/-- `frozen`: the basis of the current ballot again. -/
def frozen (ballot : Ballot) : Exec m Unit := do
  let v ← get
  need (maintenanceCurrent v ballot = true) "frozen basis no longer current"
  match ballot.proposer with
  | none => throw ⟨.integrityFailure, "prepare requester"⟩
  | some proposer =>
    let _ ← onStore (Store.prepare sha bounds.toLimits ballot proposer [] v.basisId)

def start (time : ℕ) : Exec m Unit := do
  clock time
  room
  need ((← get).state = .stopped) "protocol already started"
  modify fun v => { v with state := .starting }
  withImage sha bounds .start

/-- `reconstructed`; `application` is what the application returned, none for an error. -/
def reconstructed (id : ℕ) (application : Option Bytes) (time : ℕ) : Exec m Unit := do
  clock time
  room
  match (← get).reconstruction with
  | none => throw ⟨.integrityFailure, "unknown application reconstruction"⟩
  | some (id', replay) =>
    need (id' = id) "unknown application reconstruction"
    modify fun v => { v with reconstruction := none }
    let v ← get
    if v.state = .closed ∨ v.state = .failed then return
    else
      match application with
      | none => fail bounds .storageFailure
      | some image =>
        capacity (image.length ≤ 67108864) "application image bound"
        modify fun v => { v with
          image := image, imageIndex := some replay.through, imageContinuation := none }
        match v.imageContinuation with
        | none => return
        | some next => tryCatch (withImage sha bounds next) fun e => fail bounds e.reason

def beginCampaign : Exec m Unit :=
  tryCatch (do
    let promised ← onStore Store.promiseOf
    let v ← get
    let value ← lift (nextEpoch (max v.maxEpoch promised.epoch) v.store.node)
    need (v.incarnation ≠ 0 ∧ v.incarnation ≠ promised.incarnation) "fresh campaign incarnation"
    if h : 1 < value ∧ v.incarnation ≠ 0 then
      let ballot : Ballot := ⟨value, v.incarnation, .inr h⟩
      modify fun v => { v with
        campaign := some ballot, fence := ballot, maxEpoch := value, state := .candidate
        progress := 1 }
      let deadline ← after bounds.operationTimeoutMillis
      modify fun v => { v with campaignDeadline := deadline, electionAt := maxLong }
      let beat ← after bounds.heartbeatIntervalMillis
      modify fun v => { v with heartbeatAt := beat }
      withImage sha bounds (.campaign ballot)
    else throw ⟨.integrityFailure, "ballot identity"⟩) fun e => fail bounds e.reason

/-- One exchange in the loop of `tick`: its deadline, or its next attempt. -/
def tickExchange (id : ℕ) : Exec m Unit := do
  let v ← get
  match exchange? v id with
  | none => return
  | some pending =>
    if pending.deadline ≤ v.now then exchangeFailed bounds id
    else if pending.retryAt ≤ v.now then
      modify fun v => { v with exchanges := v.exchanges.map fun p =>
        if p.message.id = id then { p with
          retryAt := maxLong
          attempts := if p.admissionDeferred then p.attempts else p.attempts + 1
          admissionDeferred := false } else p }
      emit (.send (.request pending.message))
    else return

def beat : Exec m Unit := do
  let v ← get
  if v.campaign.isSome ∧ v.heartbeatAt ≤ v.now then
    capacity (v.heartbeatSequence < maxLong) "heartbeat sequence exhausted"
    modify fun v => { v with heartbeatSequence := v.heartbeatSequence + 1 }
    (peers v.store.node).forM fun peer => do
      let v ← get
      if v.exchanges.any fun p => p.message.recipient = peer ∧
          p.message.request.kind = .heartbeat then return
      else
        send bounds peer (.heartbeat ⟨v.heartbeatSequence, v.state = .leaderReady, v.progress, 0⟩)
    let at' ← after bounds.heartbeatIntervalMillis
    modify fun v => { v with heartbeatAt := at' }
  else return

/-- The materialisation of the proven prefix for replica reads. -/
def tickReads : Exec m Unit := do
  let v ← get
  if v.replicaReads ∧ (v.state = .follower ∨ v.state = .unavailable) ∧ v.campaign = none ∧
      v.preparing = none ∧ v.operation.isNone ∧ v.publication.isNone ∧ v.reconstruction.isNone then
    let through ← proven
    if v.publishedIndex < through then
      modify fun v => { v with imageIndex := none }
      withImage sha bounds (.publishLocal v.fence)
    else return
  else return

/-- The operation or the campaign has passed its deadline. -/
def expired (v : Voter m) : Bool :=
  v.operation.any (fun op => decide (op.deadline ≤ v.now)) ||
    (v.campaign.isSome && decide (v.state ≠ .leaderReady) && decide (v.campaignDeadline ≤ v.now))

/-- The deadlines in `tick`. -/
def tickDeadline : Exec m Unit := do
  if expired (← get) then abandon bounds .deadlineExceeded else return

/-- The election timer in `tick`. -/
def tickElection : Exec m Unit := do
  let v ← get
  if v.campaign = none ∧ v.preparing = none ∧ v.publication.isNone ∧ v.electionAt ≤ v.now then
    beginCampaign sha bounds
  else return

def tick (time : ℕ) : Exec m Unit := do
  clock time
  room
  if (← get).state.inactive then return
  else
    tickDeadline bounds
    ((← get).exchanges.map fun p => p.message.id).forM (tickExchange bounds)
    beat bounds
    tickElection sha bounds
    tickReads sha bounds

/-- A retry of the same message within its deadline. -/
def retry (id : ℕ) : Exec m Unit := do
  let at' ← after bounds.retryBackoffMillis
  modify fun v => { v with exchanges := v.exchanges.map fun p =>
    if p.message.id = id then { p with retryAt := min p.deadline at' } else p }

/-- The next attempt counts as none, also where the retry throws. -/
def defer (id : ℕ) : Exec m Unit :=
  modify fun v => { v with exchanges := v.exchanges.map fun p =>
    if p.message.id = id then { p with admissionDeferred := true } else p }

def transportFailed (id time : ℕ) : Exec m Unit := do
  clock time
  room
  match exchange? (← get) id with
  | none => return
  | some pending =>
    if pending.deadline ≤ (← get).now ∨ bounds.maxRetryAttempts < pending.attempts then
      exchangeFailed bounds id
    else retry bounds id

def transportDeferred (id time : ℕ) : Exec m Unit := do
  clock time
  room
  match exchange? (← get) id with
  | none => return
  | some pending =>
    if pending.deadline ≤ (← get).now then exchangeFailed bounds id
    else
      defer id
      retry bounds id

/-! ### Proposals -/

/-- `fresh`: an entry of the current campaign after the proven prefix. -/
def fresh (operation : ℕ) (payload : Bytes) : Exec m (Entry D) := do
  let (cut, epoch, digest) ← onStore (Store.head sha)
  match (← get).campaign with
  | none => throw nullPointer
  | some c =>
    if h : (2 ≤ c.epoch ∧ c.incarnation ≠ 0) ∧ (1 ≤ operation ∧ operation ≤ 10) ∧
        epoch ≤ c.epoch ∧ (operation ≤ 8 ∨ payload = []) then
      return {
        originEpoch := c.epoch
        originIncarnation := c.incarnation
        index := cut + 1
        operation
        previousEpoch := epoch
        previousDigest := digest
        payload
        origin := h.1
        kind := h.2.1
        predecessor := ⟨Nat.le_add_left 1 cut, h.2.2.1⟩
        empty := h.2.2.2 }
    else throw ⟨.integrityFailure, "entry semantics"⟩

def commit (entry : Entry D) (request : ℕ) (recovery : Bool) : Exec m Unit := do
  let v ← get
  match v.campaign with
  | none => throw ⟨.integrityFailure, "current serialized proposal"⟩
  | some c =>
    need (c = v.fence) "current serialized proposal"
    let promised ← onStore Store.promiseOf
    need (c = promised ∧ v.operation.isNone) "current serialized proposal"
    if h : entry.originEpoch ≤ c.epoch then
      let row : Accept D := ⟨c, entry, h⟩
      capacity (bounds.framed row = true) "proposal frame bound"
      let deadline ← after bounds.operationTimeoutMillis
      modify fun v => { v with
        operation := some ⟨entry, request, deadline, recovery, none, none, true⟩ }
      mark (.proposed request entry)
      let receipt ← onStore (Store.acceptRow sha bounds.toLimits row)
      modify fun v => { v with
        operation := v.operation.map fun op => { op with ownReceipt := some receipt } }
      progress
      match v.quorumPeer with
      | none => throw nullPointer
      | some peer => send bounds peer (.accept row)
    else throw ⟨.integrityFailure, "acceptance origin/identity"⟩

/-- `payload` and `operation` are those of a client. -/
def submit (request operation : ℕ) (payload : Bytes) (time : ℕ) : Exec m Unit := do
  mark (.submitted request operation payload)
  clock time
  room
  need (0 < request ∧ 1 ≤ operation ∧ operation ≤ 9) "logical request identity/operation"
  let v ← get
  if v.state ≠ .leaderReady ∨ v.operation.isSome ∨ v.publication.isSome then
    complete request 0
      (some (if v.state = .leaderReady then .capacityExceeded else .notReady)) .notSubmitted none
  else
    tryCatch (do
      let entry ← fresh sha operation payload
      commit sha bounds entry request false) fun e => do
        if (← get).operation.isNone then complete request 0 (some e.reason) .notSubmitted none
        else fail bounds e.reason

def accepted (sender : Node) (receipt : D) : Exec m Unit := do
  let v ← get
  match v.operation, v.campaign with
  | some op, some c =>
    need (op.proof.isNone ∧ v.quorumPeer = some sender) "entry acknowledgement phase"
    let digest := sha.entry op.entry
    need (receipt = sha.receipt .acceptAck sender c op.entry.index digest)
      "entry acknowledgement receipt"
    let voters := namesOrdered m v.store.node sender
    if h : 1 < c.epoch ∧ 2 ≤ voters.length ∧
        voters.Pairwise (fun v w => m.order v < m.order w) ∧
        op.ownReceipt = some (sha.receipt .acceptAck v.store.node c op.entry.index digest) then
      let row : Proof m := {
        ballot := c
        index := op.entry.index
        entryDigest := digest
        previousDigest := op.entry.previousDigest
        voters
        live := h.1
        positive := op.entry.predecessor.1
        quorum := h.2.1
        ordered := h.2.2.1 }
      modify fun v => { v with operation := some { op with proof := some row } }
      let _ ← onStore (Store.proveRow sha bounds.toLimits row)
      let _ ← proven
      progress
      send bounds sender (.proof row)
    else throw ⟨.integrityFailure, "accept receipt digest/domain"⟩
  | _, _ => throw ⟨.integrityFailure, "entry acknowledgement phase"⟩

def proved (sender : Node) (receipt : D) : Exec m Unit := do
  let v ← get
  match v.operation, v.campaign with
  | some op, some c =>
    match op.proof with
    | none => throw ⟨.integrityFailure, "proof acknowledgement phase"⟩
    | some proof =>
      need (v.quorumPeer = some sender) "proof acknowledgement phase"
      need (receipt = sha.receipt .proofAck sender c op.entry.index (sha.proof proof))
        "proof acknowledgement receipt"
      withImage sha bounds (.publish op c)
  | _, _ => throw ⟨.integrityFailure, "proof acknowledgement phase"⟩

/-- The recovery operation of a campaign is done: another one when it carried an older entry, else
the leader is ready. -/
def activated (op : Operation m) (ballot : Ballot) : Exec m Unit := do
  if op.entry.operation ≠ 9 ∨ op.entry.originEpoch ≠ ballot.epoch ∨
      op.entry.originIncarnation ≠ ballot.incarnation then
    let entry ← fresh sha 9 []
    commit sha bounds entry 0 true
  else
    modify fun v => { v with
      state := .leaderReady, failedQuorumPeer := none, campaignDeadline := maxLong
      heartbeatAt := v.now }
    progress

/-- `published` of a publication of a leader. -/
def publishedLeader (completed : Publish m) : Exec m Unit := do
  let v ← get
  match v.operation with
  | none => return
  | some op =>
    if v.campaign ≠ some completed.ballot ∨ v.fence ≠ completed.ballot then return
    else
      let promised ← onStore Store.promiseOf
      if promised ≠ completed.ballot then return
      else if op.deadline ≤ v.now ∨ op.campaign ∧ v.campaignDeadline ≤ v.now then
        abandon bounds .deadlineExceeded
      else
        modify fun v => { v with operation := none, publishedIndex := completed.snapshot.index }
        if op.campaign then activated sha bounds op completed.ballot
        else
          complete op.request completed.snapshot.index none .notApplicable
            (some (completed.ballot, op.entry))

/-- `published`; `error` says that the application threw. -/
def published (id : ℕ) (error : Bool) (time : ℕ) : Exec m Unit := do
  clock time
  room
  match (← get).publication with
  | none => throw ⟨.integrityFailure, "unknown publication"⟩
  | some completed =>
    need (completed.id = id) "unknown publication"
    modify fun v => { v with publication := none }
    let v ← get
    if v.state = .closed ∨ v.state = .failed then return
    else if error then fail bounds .storageFailure
    else
      mark (.published completed)
      if completed.isLocal then
        need (v.publishedIndex ≤ completed.snapshot.index)
          "local publication outside verified prefix"
        let through ← proven
        need (completed.snapshot.index ≤ through) "local publication outside verified prefix"
        modify fun v => { v with publishedIndex := completed.snapshot.index }
      else publishedLeader sha bounds completed

def cancel (request time : ℕ) : Exec m Unit := do
  clock time
  room
  if (← get).operation.any fun op => !op.campaign && decide (op.request = request) then
    abandon bounds .notReady
  else return

def quiesce : Exec m Unit := do
  room
  if (← get).state = .closed then return
  else
    (match (← get).preparing with
      | none => return
      | some message => do
        reply message (.refused .prepare .closed)
        modify fun v => { v with preparing := none })
    abandon bounds .closed
    modify fun v => { v with state := .closed, electionAt := maxLong }

/-! ### Messages -/

def adopt (chosen : Selection m) : Exec m Bool := do
  let through ← proven
  if through < chosen.snapshot.index then
    onStore Store.usable
    if Store.generationAvailable (← get).store chosen.snapshot then
      onStore (Store.installSelected sha)
      modify fun v => { v with imageIndex := none }
      let _ ← proven
      return true
    else return false
  else return true

/-- A new fence, which ends what was done under the old one. -/
def raiseFence (ballot : Ballot) : Exec m Unit := do
  abandon bounds .staleEpoch
  modify fun v => { v with
    fence := ballot, maxEpoch := max v.maxEpoch ballot.epoch
    lastHeartbeat := 0, lastStage := 0, lastProgress := 0 }
  match (← get).preparing with
  | none => return
  | some old =>
    reply old (.refused .prepare .staleEpoch)
    modify fun v => { v with preparing := none }

def prepare (message : Call m) : Exec m Unit := do
  let v ← get
  if message.ballot.epoch < v.fence.epoch then reply message (.refused .prepare .staleEpoch)
  else
    need (message.ballot.epoch ≠ v.fence.epoch ∨ message.ballot = v.fence)
      "changed same-epoch request"
    (if v.fence.epoch < message.ballot.epoch then raiseFence bounds message.ballot else return)
    if (← get).preparing.isSome then reply message (.refused .prepare .capacityExceeded)
    else
      modify fun v => { v with state := .follower, preparing := some message }
      withImage sha bounds (.prepare message)

def heartbeat (message : Call m) (pulse : Pulse) : Exec m Unit := do
  need (0 < pulse.sequence) "heartbeat counters"
  let v ← get
  (if v.lastHeartbeat < pulse.sequence then do
    modify fun v => { v with lastHeartbeat := pulse.sequence }
    if pulse.activated ∨ v.lastStage < pulse.stage ∨
        pulse.stage = v.lastStage ∧ v.lastProgress < pulse.bytes then
      modify fun v => { v with lastStage := pulse.stage, lastProgress := pulse.bytes }
      armElection bounds
    else return
  else return)
  reply message (.beaten pulse.sequence)

/-- INSTALL at the current ballot. -/
def installRequest (message : Call m) (bases : List (Basis m)) : Exec m Unit := do
  let v ← get
  need (bases.length = 2 ∧ bases.any (fun b => b.node = v.store.node) = true)
    "install quorum excludes local voter"
  let _ ← lift (select sha message.ballot bases)
  let frozen ←
    onStore (Store.prepare sha bounds.toLimits message.ballot message.sender [] v.basisId)
  need (bases.any (fun b => b.node = v.store.node ∧ b = frozen) = true)
    "installation substituted local frozen basis"
  let chosen ← onStore (Store.selectBases sha bases)
  if ← adopt sha chosen then reply message (.installed (sha.selected chosen.record))
  else reply message (.refused .install .capacityExceeded)

/-- The requests of the current proposer. -/
def perform (message : Call m) : Exec m Unit :=
  match message.request with
  | .prepare => prepare sha bounds message
  | request => do
    let v ← get
    if v.fence ≠ message.ballot then reply message (.refused request.kind .staleEpoch)
    else
      let promised ← onStore Store.promiseOf
      if promised ≠ message.ballot then reply message (.refused request.kind .staleEpoch)
      else
        match request with
        | .prepare => return
        | .install bases => installRequest sha bounds message bases
        | .accept row => do
          need (row.ballot = message.ballot) "accept envelope ballot"
          let receipt ← onStore (Store.acceptRow sha bounds.toLimits row)
          reply message (.accepted receipt)
        | .proof row => do
          need (row.ballot = message.ballot) "proof envelope ballot"
          let receipt ← onStore (Store.proveRow sha bounds.toLimits row)
          let _ ← proven
          reply message (.proven receipt)
        | .heartbeat pulse => heartbeat bounds message pulse

/-- The first promise quorum of a campaign selects its prefix and its value. -/
def prepared (sender : Node) (basis : Basis m) : Exec m Unit := do
  let v ← get
  if v.state = .candidate then
    need (sender = basis.node) "basis responder binding"
    match v.ownBasis with
    | none => throw nullPointer
    | some own =>
      capacity (bounds.staged own basis = true) "prepare quorum image bound"
      let chosen ← onStore (Store.selectBases sha [own, basis])
      modify fun v => { v with
        selection := some chosen, quorumPeer := some sender, deferredPreparePeer := none
        exchanges := v.exchanges.filter fun p => p.message.request.kind ≠ .prepare }
      if ← adopt sha chosen then
        modify fun v => { v with state := .recovering }
        progress
        send bounds sender (.install chosen.bases)
      else abandon bounds .capacityExceeded
  else return

/-- The other voter of the quorum has the selected prefix: the carried value or a no-op is put to
the vote. -/
def installed (digest : D) : Exec m Unit := do
  let v ← get
  need (v.state = .recovering) "selected installation binding"
  match v.selection with
  | none => throw nullPointer
  | some chosen =>
    need (sha.selected chosen.record = digest) "selected installation binding"
    progress
    match chosen.sourceAcceptance with
    | none => do
      let entry ← fresh sha 9 []
      commit sha bounds entry 0 true
    | some carried => commit sha bounds carried.entry 0 true

/-- An accepted response to a request of the current campaign. -/
def acknowledged (request : Call m) (sender : Node) : Response m → Exec m Unit
  | .refused _ _ => return
  | .prepared basis => prepared sha bounds sender basis
  | .installed digest => installed sha bounds digest
  | .accepted receipt => accepted sha bounds sender receipt
  | .proven receipt => proved sha bounds sender receipt
  | .beaten sequence =>
    match request.request with
    | .heartbeat pulse => need (sequence = pulse.sequence) "heartbeat response sequence"
    | _ => throw nullPointer

def Response.accepted? : Response m → Bool
  | .refused _ _ => false
  | _ => true

def response (r : Reply m) : Exec m Unit := do
  match exchange? (← get) r.id with
  | none => return
  | some pending =>
    let request := pending.message
    need (request.recipient = r.sender ∧ request.request.kind = r.response.kind ∧
      request.ballot = r.ballot) "uncorrelated protocol response"
    let v ← get
    if pending.deadline ≤ v.now then exchangeFailed bounds r.id
    else if expired v then abandon bounds .deadlineExceeded
    else if v.fence.epoch < r.promised.epoch then
      modify fun v => { v with maxEpoch := max v.maxEpoch r.promised.epoch }
      abandon bounds .staleEpoch
      modify fun v => { v with fence := r.promised }
    else if Response.accepted? r.response = false then exchangeFailed bounds r.id
    else
      need (r.promised = r.ballot) "acknowledgement promise differs"
      removeExchange r.id
      if v.campaign ≠ some r.ballot then return
      else
        let promised ← onStore Store.promiseOf
        if promised ≠ r.ballot then return
        else tryCatch (acknowledged sha bounds request r.sender r.response) fun e =>
          fail bounds e.reason

/-- The checks of `receive` that requests and responses share. -/
def endpoint (sender recipient : Node) (id : ℕ) (ballot : Ballot) : Exec m Unit := do
  let v ← get
  need (sender ∈ peers v.store.node ∧ recipient = v.store.node ∧ 0 < id)
    "protocol endpoint/correlation"
  need (1 < ballot.epoch) "live protocol ballot required"

def receive (message : Message m) (time : ℕ) : Exec m Unit := do
  clock time
  room
  match message with
  | .response r => do
    endpoint r.sender r.recipient r.id r.ballot
    response sha bounds r
  | .request call => do
    endpoint call.sender call.recipient call.id call.ballot
    need (some call.sender = call.ballot.proposer) "request sender is not proposer"
    modify fun v => { v with
      received := if call.request.kind = .prepare then v.received ++ [call] else v.received }
    if (← get).state.inactive then reply call (.refused call.request.kind .notReady)
    else
      tryCatch (perform sha bounds call) fun e => do
        (if e.reason = .storageFailure ∨ (← get).store.failed then fail bounds e.reason else return)
        reply call (.refused call.request.kind e.reason)

end Protocol

/-- The constructor of `AutomaticProtocol` over an opened store. -/
def Voter.create (store : Store m) (trace : List (Mark m)) : Voter m where
  store := store
  state := .stopped
  fence := store.promise
  campaign := none
  ownBasis := none
  selection := none
  operation := none
  publication := none
  imageContinuation := none
  actions := []
  exchanges := []
  trace := trace
  replicaReads := false
  localRecoveryThrough := 0
  durablePromise := store.promise
  quorumPeer := none
  failedQuorumPeer := none
  deferredPreparePeer := none
  preparing := none
  reconstruction := none
  image := []
  imageIndex := none
  publishedIndex := 0
  lastProven := store.provenThrough
  now := 0
  maxEpoch := store.promise.epoch
  serial := 0
  electionAt := maxLong
  heartbeatAt := maxLong
  campaignDeadline := maxLong
  heartbeatSequence := 0
  progress := 0
  lastHeartbeat := 0
  lastStage := 0
  lastProgress := 0
  randomness := fun _ => 0
  incarnation := 0
  basisId := 0
  tripped := false
  received := []
  replied := []

end

end GeneralSearch.Replication
