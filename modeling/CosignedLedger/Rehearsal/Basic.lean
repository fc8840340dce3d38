import CosignedLedger.Chain.Sample
import CosignedLedger.Collective.Network
import CosignedLedger.Rehearsal.Error

/-!
# Rehearsals

A rehearsal plays the whole life of a ledger in one process: a leader makes the blocks, sends the
first to the members of its authority, and a node that has missed everything catches up and proves
the last. With a seed every rehearsal makes the same blocks, so that one can go on from a log.
-/

namespace CosignedLedger

structure RehearsalReport where
  head : Digest
  height : Nat
  authorities : Nat
  followers : Nat
  proofLinks : Nat
  caughtUp : Progress
deriving DecidableEq

namespace Rehearsal

/-- A step of a rehearsal: it acts on the collective, and may end the rehearsal. -/
abbrev Stage (α : Type) : Type := ExceptT Failure (StateM Collective) α

namespace Stage
variable {ε α : Type}

def attempt (explain : ε → RehearsalError) (action : Collective → Except ε α × Collective) :
    Stage α :=
  ExceptT.mk fun c =>
    let (result, c) := action c
    (result.mapError fun e => .error (explain e), c)

def ofExcept (explain : ε → RehearsalError) (result : Except ε α) : Stage α :=
  attempt explain fun c => (result, c)

/-- A lookup, which panics if nothing is there. -/
def lookup (found : Except OutOfBounds α) : Stage α :=
  ExceptT.mk fun c => (found.mapError .panic, c)

def modify (change : Collective → Collective) : Stage Unit :=
  ExceptT.mk fun c => (.ok (), change c)

end Stage

structure Team (Key : Type) where
  signer : Signer Key
  roster : Roster

variable {Key : Type}

def memberAddress (epoch position : Nat) : Address := ⟨s!"node-{epoch}-{position}"⟩

/-- How many epochs there are up to the block at index `blocks`, in words of 64 bits. -/
def epochCount (rotation blocks : UInt64) : UInt64 :=
  UInt64.ofNat (epochOf rotation.toNat blocks.toNat) + 1

/-- The members of an epoch. Without a seed, the material for the key of the member at a position
is `entropy epoch position`. -/
def team (scheme : Scheme Key) (entropy : Nat → Nat → Bytes) (s : Settings) (epoch : Nat) :
    Except CryptoError (Team Key) := do
  let positions := List.range s.nodes
  let signer ← match s.seed with
    | some seed =>
      Signer.ofSeed scheme (seed + UInt64.ofNat epoch) (positions.map (memberAddress epoch))
    | none =>
      Signer.generate scheme (positions.map fun i => (memberAddress epoch i, entropy epoch i))
  return ⟨signer, signer.roster scheme⟩

def teams (scheme : Scheme Key) (entropy : Nat → Nat → Bytes) (s : Settings) :
    (count epoch : Nat) → Except RehearsalError (List (Team Key))
  | 0, _ => .ok []
  | count + 1, epoch => do
    let first ← (team scheme entropy s epoch).mapError (.authority epoch)
    let rest ← teams scheme entropy s count (epoch + 1)
    return first :: rest

/-- The team that the block at `index` records. -/
def teamAt (teams : List (Team Key)) (s : Settings) (index : Nat) :
    Except OutOfBounds (Team Key) :=
  elementAt teams (epochOf s.rotation.toNat index)

def startLeader (crypto : Crypto) (s : Settings) (teams : List (Team Key)) :
    Stage (Nat × Team Key × Block) := do
  let leader ← .attempt .leaderStore (·.openNode s.node (.memory []))
  let first ← .lookup (teamAt teams s 0)
  let genesis ← .attempt .genesis
    (·.createGenesis crypto leader first.roster (Bytes.ofText "genesis"))
  .modify (·.register (memberAddress 0 0) ⟨leader, false⟩)
  return (leader, first, genesis)

def startFollowers (s : Settings) : List Member → Stage Unit
  | [] => pure ()
  | member :: rest => do
    let follower ← .attempt .followerStore (·.openNode s.node (.memory []))
    .modify (·.register member.address ⟨follower, false⟩)
    startFollowers s rest

def produceBlock (scheme : Scheme Key) (s : Settings) (teams : List (Team Key)) (leader : Nat)
    (index : Nat) : Stage Unit := do
  let next ← .lookup (teamAt teams s index)
  let draft ← .attempt .draft
    (·.nextBlock scheme.crypto leader next.roster (Bytes.ofText s!"block-{index}"))
  let signing ← .lookup (teamAt teams s (index - 1))
  let signature ← .ofExcept (.signature index) (signing.signer.sign scheme draft.hash.bytes)
  .attempt (.append index) (·.insert leader (draft.withSignature signature))

def produce (scheme : Scheme Key) (s : Settings) (teams : List (Team Key)) (leader : Nat) :
    (count index : Nat) → Stage Unit
  | 0, _ => pure ()
  | count + 1, index => do
    produceBlock scheme s teams leader index
    produce scheme s teams leader count (index + 1)

def openLagging (s : Settings) : Stage Nat :=
  match s.node.dataFolder with
  | none => .attempt .laggingStore (·.openNode s.node (.memory []))
  | some folder => do
    .attempt (.blockLog folder) (·.prepare (.fileIn folder))
    .attempt .laggingStore (·.addNode s.node (.fileIn folder))

/-- Lets a store prove a block from its first block on, and gives the number of links. -/
def proveHead (crypto : Crypto) (store : Store) (head : Digest) : Except RehearsalError Nat := do
  let proof ← (store.chainTo head).mapError .headUnproven
  match store.genesis? with
  | none => .error .noGenesis
  | some genesis =>
    (store.verifyTo crypto proof genesis.hash head).result.mapError .proofRejected
    return proof.length

def stages (scheme : Scheme Key) (entropy : Nat → Nat → Bytes) (s : Settings) :
    Stage RehearsalReport := do
  let crypto := scheme.crypto
  .ofExcept .settings s.validate
  let teams ← .ofExcept id (teams scheme entropy s (epochCount s.rotation s.blocks).toNat 0)
  let (leader, first, genesis) ← startLeader crypto s teams
  let others := first.roster.excluding (memberAddress 0 0)
  startFollowers s (Authority.members others)
  .attempt .propagation (·.propagate crypto others genesis)
  produce scheme s teams leader s.blocks.toNat 1
  let leaderStore := ((← get).node leader).store
  match leaderStore.last? with
  | none => throw (.error .emptyLeader)
  | some head =>
    let lagging ← openLagging s
    let caughtUp ← .attempt .catchUp
      (·.catchUp crypto lagging ⟨"lagging"⟩ (memberAddress 0 0) head.hash)
    let laggingStore := ((← get).node lagging).store
    let proofLinks ← .ofExcept id (proveHead crypto laggingStore head.hash)
    if laggingStore.size ≠ leaderStore.size then
      throw (.error (.lengthsDiffer laggingStore.size leaderStore.size))
    else
      return ⟨head.hash, head.index, teams.length, Authority.size others, proofLinks, caughtUp⟩

/-- Plays a rehearsal on a disk: what comes of it, and the disk afterwards. -/
def run (scheme : Scheme Key) (entropy : Nat → Nat → Bytes) (s : Settings) (disk : Disk) :
    Except Failure RehearsalReport × Disk :=
  let (result, c) := (stages scheme entropy s).run.run (.start disk s.node.streamBuffer)
  (result, c.disk)

end Rehearsal

end CosignedLedger
