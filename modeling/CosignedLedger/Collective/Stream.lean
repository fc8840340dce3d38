import CosignedLedger.Replication.Serving

/-!
# Streams between participants

Two queues of bounded length between a requester and a serving side, which is cancelled when the
requester lets go of its half. An error of the serving side is the last thing that it sends.
-/

namespace CosignedLedger

structure Handler where
  node : Nat
  observed : Bool
deriving DecidableEq

structure Stream where
  client : Address
  server : Address
  handler : Handler
  capacity : Nat
  requests : List (Address × Message)
  responses : List Frame
  senderOpen : Bool
  receiverOpen : Bool
  serving : Serving
  /-- The serving side has let go of the stream. -/
  released : Bool

namespace Stream

def start (client server : Address) (handler : Handler) (capacity : Nat) : Stream :=
  ⟨client, server, handler, capacity, [], [], true, true, .awaiting, false⟩

def hasRoom (s : Stream) : Bool := s.responses.length < s.capacity

def outcome? (s : Stream) : Option (Except ReplicationError Unit) :=
  match s.serving with
  | .ended result => some result
  | _ => none

/-- One step of the serving side, whose blocks are in `store`; nothing if it must wait. -/
def step (store : Store) (s : Stream) : Option Stream :=
  match s.serving with
  | .awaiting =>
    if !s.receiverOpen then some { s with serving := .failed .cancelled }
    else match s.requests with
      | request :: rest => some { s with requests := rest, serving := .receive (.ok request) }
      | [] =>
        if s.senderOpen then none else some { s with serving := .receive (.error .closed) }
  | .sending request index block response =>
    if !s.receiverOpen then some { s with serving := .failed .cancelled }
    else if s.hasRoom then
      some { s with
        responses := s.responses ++ [.ok (s.server, response)]
        serving := .sent (.ok ()) (.sending request index block response) }
    else none
  | .ended result =>
    if s.released then none
    else match result with
      | .ok () => some { s with released := true }
      | .error e =>
        if !s.receiverOpen then some { s with released := true }
        else if s.hasRoom then
          some { s with responses := s.responses ++ [.error (.remote e.message)], released := true }
        else none
  | serving => some { s with serving := serving.step store (!s.receiverOpen) }

def runSteps (store : Store) : (steps : Nat) → Stream → Stream
  | 0, s => s
  | steps + 1, s =>
    match s.step store with
    | none => s
    | some s => runSteps store steps s

/-- Steps of the serving side until it must wait: four at most for each stored block, and a few
to begin and to end. -/
def settle (store : Store) (s : Stream) : Stream :=
  s.runSteps store (4 * store.size + 8)

/-- Puts a message for the serving side into its queue. Nobody takes it after serving has ended,
and nobody else can be reached through the stream. -/
def send (message : Message) (receiver : Address) (s : Stream) : Except TransportError Stream :=
  if receiver ≠ s.server then .error (.unreachable receiver)
  else if s.outcome?.isSome ∨ s.capacity ≤ s.requests.length then .error .closed
  else .ok { s with requests := s.requests ++ [(s.client, message)] }

def take? (s : Stream) : Option (Frame × Stream) :=
  match s.responses with
  | [] => none
  | frame :: rest => some (frame, { s with responses := rest })

end Stream

end CosignedLedger
