import CosignedLedger.Replication.Error

/-!
# Serving blocks

The serving side of a stream waits for one request and then sends every block from the first to the
requested one, each with the chain that proves it. Each look at the store is a step of its own,
before which other blocks may be stored; `Serving.run` takes all steps on a store that stays as it
is. A fired cancellation is noticed while waiting and before each block.
-/

namespace CosignedLedger

structure BlockRequest where
  requester : Address
  target : Digest
deriving DecidableEq

inductive Serving where
  | awaiting
  /-- The block at `index` comes next, if there is one. -/
  | checking (request : BlockRequest) (index : Nat)
  /-- There is a block at `index`. -/
  | reading (request : BlockRequest) (index : Nat)
  | proving (request : BlockRequest) (index : Nat) (block : Block)
  | sending (request : BlockRequest) (index : Nat) (block : Block) (response : Message)
  | ended (result : Except ReplicationError Unit)

namespace Serving

def failed (e : ReplicationError) : Serving := ended (.error e)

def receive : Frame → Serving
  | .error cause => failed (.protocol (.noRequest cause))
  | .ok (requester, .blockRequest target) => checking ⟨requester, target⟩ 0
  | .ok (_, other) => failed (.protocol (.expectedRequest other.kind))

/-- The response for a stored block: the first block alone, any other with its chain. -/
def response (store : Store) (block : Block) : Except ReplicationError Message := do
  let chain ← if block.isGenesis then pure none
    else ((store.chainTo block.hash).map some).mapError .chain
  (packResponse block chain).mapError .ofCodec

/-- One step that waits for nobody. -/
def step (store : Store) (cancelled : Bool) : Serving → Serving
  | checking request index =>
    if cancelled then failed .cancelled
    else if store.size ≤ index then failed (.notFound request.target store.size)
    else reading request index
  | reading request index =>
    match store.read index with
    | .error e => failed (.read index e)
    | .ok block => proving request index block
  | proving request index block =>
    match response store block with
    | .error e => failed e
    | .ok message => sending request index block message
  | s => s

def sent (attempt : Except TransportError Unit) : Serving → Serving
  | sending request index block _ =>
    match attempt with
    | .error e => failed (.send index e)
    | .ok () => if block.hash = request.target then ended (.ok ()) else checking request (index + 1)
  | s => s

theorem sent_cases (attempt : Except TransportError Unit) (request : BlockRequest) (index : Nat)
    (block : Block) (response : Message) :
    (∃ result, sent attempt (sending request index block response) = ended result) ∨
      sent attempt (sending request index block response) = checking request (index + 1) := by
  cases attempt with
  | error e => exact .inl ⟨_, rfl⟩
  | ok _ =>
    simp only [sent]
    split
    · exact .inl ⟨_, rfl⟩
    · exact .inr rfl

/-- How the other side meets one offered response: whether it fires the cancellation, and whether
it takes the response, refuses it, or does neither until the stream is cancelled. -/
structure Reception where
  cancels : Bool
  attempt : Option (Except TransportError Unit)

def Looks : Serving → Prop
  | checking _ _ | reading _ _ | proving _ _ _ => True
  | _ => False

/-- How many steps the end is away at most, on a store that stays as it is. -/
def distance (store : Store) : Serving → Nat
  | checking _ index => 4 * (store.size - index) + 1
  | reading _ index => 4 * (store.size - index - 1) + 4
  | proving _ index _ => 4 * (store.size - index - 1) + 3
  | sending _ index _ _ => 4 * (store.size - index - 1) + 2
  | awaiting | ended _ => 0

theorem distance_step_lt (store : Store) (cancelled : Bool) {s : Serving} (h : s.Looks) :
    (s.step store cancelled).distance store < s.distance store := by
  cases s with
  | checking request index =>
    simp only [step]
    split
    · exact Nat.succ_pos _
    · split
      · exact Nat.succ_pos _
      · simp only [distance]
        omega
  | reading request index =>
    simp only [step]
    split
    · exact Nat.succ_pos _
    · exact Nat.lt_succ_self _
  | proving request index block =>
    simp only [step]
    split
    · exact Nat.succ_pos _
    · exact Nat.lt_succ_self _
  | _ => exact h.elim

theorem distance_sent_lt (store : Store) (attempt : Except TransportError Unit)
    (request : BlockRequest) (index : Nat) (block : Block) (response : Message) :
    (sent attempt (sending request index block response)).distance store <
      (sending request index block response).distance store := by
  rcases sent_cases attempt request index block response with ⟨result, h⟩ | h <;>
    simp only [h, distance] <;> omega

/-- Serves to the end while nobody else stores blocks: what is sent, and the result. The response
for the block at an index is met with `meet index`. What never comes, be it a request or somebody
who takes the response, is waited for until the stream is cancelled. -/
def run (store : Store) (meet : Nat → Reception) (cancelled : Bool) :
    Serving → List (Address × Message) × Except ReplicationError Unit
  | awaiting => ([], .error .cancelled)
  | checking request index => run store meet cancelled (step store cancelled (checking request index))
  | reading request index => run store meet cancelled (step store cancelled (reading request index))
  | proving request index block =>
    run store meet cancelled (step store cancelled (proving request index block))
  | sending request index block response =>
    if cancelled then ([], .error .cancelled)
    else
      match (meet index).attempt with
      | none => ([], .error .cancelled)
      | some attempt =>
        let served := run store meet (meet index).cancels
          (sent attempt (sending request index block response))
        match attempt with
        | .ok () => ((request.requester, response) :: served.1, served.2)
        | .error _ => served
  | ended result => ([], result)
termination_by s => s.distance store
decreasing_by
  · exact distance_step_lt store cancelled (by trivial)
  · exact distance_step_lt store cancelled (by trivial)
  · exact distance_step_lt store cancelled (by trivial)
  · exact distance_sent_lt ..

/-- Serves a stream whose first frame is `first`, if one arrives. -/
def serve (store : Store) (meet : Nat → Reception) (first : Option Frame) :
    List (Address × Message) × Except ReplicationError Unit :=
  match first with
  | none => run store meet false awaiting
  | some frame => run store meet false (receive frame)

end Serving

end CosignedLedger
