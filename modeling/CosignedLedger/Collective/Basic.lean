import CosignedLedger.Collective.Stream
import CosignedLedger.Replication.CatchUp
import CosignedLedger.Settings
import CosignedLedger.Store.Disk

/-!
# A collective in one process

The nodes, the disk they share, the handlers at addresses, and the streams between them. A node is
named by its number, and stays when nobody refers to it.
-/

namespace CosignedLedger

structure Node where
  settings : NodeSettings
  store : Store
  storage : Storage

instance : Inhabited Node := ⟨⟨.default, .empty, .memory []⟩⟩

structure Collective where
  disk : Disk
  nodes : List Node
  handlers : List (Address × Handler)
  capacity : Nat
  streams : List Stream
  /-- The streams whose serving side has something new to look at, the longest waiting first. -/
  woken : List Nat
  /-- How the observed streams have ended so far, in order. -/
  outcomes : List (Except ReplicationError Unit)
  calls : Calls

namespace Collective

def start (disk : Disk) (streamBuffer : Nat) : Collective :=
  ⟨disk, [], [], max streamBuffer 1, [], [], [], .none⟩

def node (c : Collective) (id : Nat) : Node := c.nodes[id]?.getD default

def ledger (c : Collective) (id : Nat) : Ledger (Storage × Disk) :=
  ⟨(c.node id).store, (c.node id).storage, c.disk⟩

def setLedger (c : Collective) (id : Nat) (l : Ledger (Storage × Disk)) : Collective :=
  { c with
    nodes := c.nodes.modify id fun n => { n with store := l.store, storage := l.medium.1 }
    disk := l.medium.2 }

def addCalls (c : Collective) (calls : Calls) : Collective := { c with calls := c.calls + calls }

def act {ε α : Type} (c : Collective) (id : Nat)
    (action : Ledger (Storage × Disk) → Acted (Storage × Disk) ε α) : Except ε α × Collective :=
  let acted := action (c.ledger id)
  (acted.result, (c.setLedger id acted.ledger).addCalls acted.calls)

def prepare (c : Collective) (storage : Storage) : Except StoreError Unit × Collective :=
  let (result, disk) := storage.prepare c.disk
  (result, { c with disk })

/-- Adds a node over a storage that is ready, with all blocks in it. -/
def addNode (c : Collective) (settings : NodeSettings) (storage : Storage) :
    Except StoreError Nat × Collective :=
  match Ledger.openStore Storage.log (storage, c.disk) with
  | (.error e, _, disk) => (.error e, { c with disk })
  | (.ok store, storage, disk) =>
    (.ok c.nodes.length, { c with disk, nodes := c.nodes ++ [⟨settings, store, storage⟩] })

def openNode (c : Collective) (settings : NodeSettings) (storage : Storage) :
    Except StoreError Nat × Collective :=
  match c.prepare storage with
  | (.error e, c) => (.error e, c)
  | (.ok (), c) => c.addNode settings storage

def openOnDisk (c : Collective) (settings : NodeSettings) : Except StoreError Nat × Collective :=
  match settings.dataFolder with
  | none => (.error (.log .noFolder), c)
  | some folder => c.openNode settings (.fileIn folder)

def insert (c : Collective) (id : Nat) (b : Block) : Except StoreError Unit × Collective :=
  let (result, l) := (c.ledger id).insert Storage.log b
  (result, c.setLedger id l)

def createGenesis (c : Collective) (crypto : Crypto) (id : Nat) (authority : Roster)
    (payload : Bytes) : Except StoreError Block × Collective :=
  let b := Block.genesis crypto authority payload
  let (result, c) := (c.addCalls Block.draftCalls).insert id b
  (result.map fun _ => b, c)

/-- The unsigned block that comes next at a node, which is not stored yet. -/
def nextBlock (c : Collective) (crypto : Crypto) (id : Nat) (authority : Roster)
    (payload : Bytes) : Except StoreError Block × Collective :=
  match (c.node id).store.last? with
  | none => (.error (.notFound 0), c)
  | some head =>
    (.ok (Block.draft crypto (head.header.index + 1) head.hash authority payload),
      c.addCalls Block.draftCalls)

def process (c : Collective) (crypto : Crypto) (id : Nat) (message : Message) :
    Except ReplicationError (Option Message) × Collective :=
  c.act id fun l => l.process Storage.log crypto (c.node id).settings.maxBlockSize message

def acceptGenesis (c : Collective) (crypto : Crypto) (id : Nat) (bytes : Bytes) :
    Except ReplicationError Unit × Collective :=
  c.act id fun l => l.acceptGenesis Storage.log crypto (c.node id).settings.maxBlockSize bytes

def catchUpWith (c : Collective) (crypto : Crypto) (id : Nat) (target : Digest)
    (frames : List Frame) : Except ReplicationError Progress × Collective :=
  c.act id fun l =>
    (Progress.start target).receiveAll Storage.log crypto (c.node id).settings.maxBlockSize l frames

end Collective

end CosignedLedger
