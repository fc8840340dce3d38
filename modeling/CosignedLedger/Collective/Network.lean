import CosignedLedger.Collective.Basic

/-!
# The network of a collective

A call runs the handler at an address; a stream is served step by step. Serving sides that have
something new to look at are woken, and run one after the other, each until it must wait, when a
requester has to wait.
-/

namespace CosignedLedger.Collective

def register (c : Collective) (address : Address) (handler : Handler) : Collective :=
  { c with handlers := (address, handler) :: c.handlers.filter (·.1 ≠ address) }

def unregister (c : Collective) (address : Address) : Collective :=
  { c with handlers := c.handlers.filter (·.1 ≠ address) }

def resetNetwork (c : Collective) (streamBuffer : Nat) : Collective :=
  { c with handlers := [], capacity := max streamBuffer 1 }

def lookup (c : Collective) (address : Address) : Except TransportError Handler :=
  match c.handlers.lookup address with
  | some handler => .ok handler
  | none => .error (.unreachable address)

/-- Calls the handler at an address; its error comes back as a text. -/
def call (c : Collective) (crypto : Crypto) (receiver : Address) (message : Message) :
    Except TransportError (Option Message) × Collective :=
  match c.lookup receiver with
  | .error e => (.error e, c)
  | .ok handler =>
    let (result, c) := c.process crypto handler.node message
    (result.mapError fun e => .remote e.message, c)

def propagateTo (crypto : Crypto) (genesis : Bytes) :
    List Address → Collective → List (Address × String) × Collective
  | [], c => ([], c)
  | address :: rest, c =>
    let (result, c) := c.call crypto address (.propagateGenesis genesis)
    let (failures, c) := propagateTo crypto genesis rest c
    match result with
    | .ok _ => (failures, c)
    | .error e => ((address, e.message) :: failures, c)

def propagate {α : Type} [Authority α] (c : Collective) (crypto : Crypto) (authority : α)
    (genesis : Block) : Except ReplicationError Unit × Collective :=
  let addresses := (Authority.members authority).map (·.address)
  match propagateTo crypto (Block.format.write genesis) addresses c with
  | ([], c) => (.ok (), c)
  | (failures, c) => (.error (.propagation failures), c)

def wake (c : Collective) (id : Nat) : Collective :=
  if id ∈ c.woken then c else { c with woken := c.woken ++ [id] }

def openStream (c : Collective) (client server : Address) :
    Except TransportError Nat × Collective :=
  match c.lookup server with
  | .error e => (.error e, c)
  | .ok handler =>
    let id := c.streams.length
    let streams := c.streams ++ [Stream.start client server handler c.capacity]
    (.ok id, ({ c with streams } : Collective).wake id)

def settleStream (c : Collective) (id : Nat) : Collective :=
  match c.streams[id]? with
  | none => c
  | some before =>
    let after := before.settle (c.node before.handler.node).store
    let c := { c with streams := c.streams.set id after }
    match before.outcome?, after.outcome? with
    | none, some result =>
      if before.handler.observed then { c with outcomes := c.outcomes ++ [result] } else c
    | _, _ => c

/-- Lets the serving sides that are woken run in turn until they must wait. -/
def settle (c : Collective) : Collective :=
  c.woken.foldl settleStream { c with woken := [] }

/-- How the observed streams have ended, after those that can go on have done so. -/
def endings (c : Collective) : List (Except ReplicationError Unit) × Collective :=
  let c := c.settle
  (c.outcomes, c)

def enqueue (c : Collective) (id : Nat) (message : Message) (receiver : Address) :
    Except TransportError Unit × Collective :=
  match c.streams[id]? with
  | none => (.error .closed, c)
  | some s =>
    match s.send message receiver with
    | .error e => (.error e, c)
    | .ok s => (.ok (), ({ c with streams := c.streams.set id s } : Collective).wake id)

def send (c : Collective) (id : Nat) (message : Message) (receiver : Address) :
    Except TransportError Unit × Collective :=
  let (result, c) := c.enqueue id message receiver
  (result, c.settle)

def take? (c : Collective) (id : Nat) : Option (Frame × Collective) := do
  let s ← c.streams[id]?
  let (frame, s) ← s.take?
  return (frame, ({ c with streams := c.streams.set id s } : Collective).wake id)

/-- Nothing more can come out of a stream than what is in its queue. -/
def isReleased (c : Collective) (id : Nat) : Bool :=
  match c.streams[id]? with
  | some s => s.released
  | none => true

/-- The next frame of a stream. If there is none yet, the serving sides run; if there will be none,
the stream is closed. -/
def receive (c : Collective) (id : Nat) : Frame × Collective :=
  match c.take? id with
  | some taken => taken
  | none =>
    if c.isReleased id then (.error .closed, c)
    else
      let c := c.settle
      (c.take? id).getD (.error .closed, c)

def modifyStream (c : Collective) (id : Nat) (f : Stream → Stream) : Collective :=
  ({ c with streams := c.streams.modify id f } : Collective).wake id

def dropSender (c : Collective) (id : Nat) : Collective :=
  (c.modifyStream id fun s => { s with senderOpen := false }).settle

def dropReceiver (c : Collective) (id : Nat) : Collective :=
  (c.modifyStream id fun s => { s with receiverOpen := false }).settle

def closeStream (c : Collective) (id : Nat) : Collective :=
  c.modifyStream id fun s => { s with senderOpen := false, receiverOpen := false }

/-- Takes frames from a stream into the ledger of a node, at most `frames` of them. -/
def receiveAll (crypto : Crypto) (id stream : Nat) :
    (frames : Nat) → Progress → Collective → Except ReplicationError Progress × Collective
  -- Nothing comes after all that a stream can bring, so that it is closed by then.
  | 0, p, c => (.error (.incomplete p.target p.received .closed), c)
  | frames + 1, p, c =>
    let (frame, c) := c.receive stream
    let limit := (c.node id).settings.maxBlockSize
    match c.act id fun l => p.receive Storage.log crypto limit frame l with
    | (.error e, c) => (.error e, c)
    | (.ok (p, true), c) => (.ok p, c)
    | (.ok (p, false), c) => receiveAll crypto id stream frames p c

/-- How many frames a stream can bring: one a stored block, and one for its end. -/
def frameBound (c : Collective) (stream : Nat) : Nat :=
  match c.streams[stream]? with
  | some s => (c.node s.handler.node).store.size + 2
  | none => 1

def catchUp (c : Collective) (crypto : Crypto) (id : Nat) (client server : Address)
    (target : Digest) : Except ReplicationError Progress × Collective :=
  match c.openStream client server with
  | (.error e, c) => (.error (.transport e), c)
  | (.ok stream, c) =>
    match c.enqueue stream (.blockRequest target) server with
    | (.error e, c) => (.error (.transport e), c.closeStream stream)
    | (.ok (), c) =>
      let (result, c) := receiveAll crypto id stream (c.frameBound stream) (.start target) c
      (result, c.closeStream stream)

end CosignedLedger.Collective
