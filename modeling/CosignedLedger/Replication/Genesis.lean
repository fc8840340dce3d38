import CosignedLedger.Replication.Error
import CosignedLedger.Store.Log

/-!
# Installing the first block

A participant takes its first block from anyone, but only once.
-/

namespace CosignedLedger

structure Acted (μ ε α : Type) where
  result : Except ε α
  ledger : Ledger μ
  calls : Calls

def compareGenesis (stored received : Block) : Except ReplicationError Unit :=
  if stored.hash = received.hash then .ok ()
  else .error (.conflict 0 stored.hash received.hash)

namespace Ledger
variable {μ : Type}

/-- Inserts a first block. If another has been stored since the ledger was looked at, the two are
compared. -/
def insertGenesis (log : BlockLog μ) (b : Block) (l : Ledger μ) :
    Except ReplicationError Unit × Ledger μ :=
  match l.insert log b with
  | (.ok (), l) => (.ok (), l)
  | (.error (.outOfOrder _ _), l) | (.error (.duplicate _ _), l) =>
    match l.store.genesis? with
    | some stored => (compareGenesis stored b, l)
    | none => (.error (.protocol .genesisVanished), l)
  | (.error e, l) => (.error (.store e), l)

/-- Installs the first block that `bytes` encode. -/
def acceptGenesis (log : BlockLog μ) (c : Crypto) (limit : Nat) (bytes : Bytes) (l : Ledger μ) :
    Acted μ ReplicationError Unit :=
  let decoded := decodeBlock c limit bytes
  match decoded.result with
  | .error e => ⟨.error (.ofCodec e), l, decoded.calls⟩
  | .ok b =>
    if b.isGenesis then
      match l.store.genesis? with
      | some stored => ⟨compareGenesis stored b, l, decoded.calls⟩
      | none =>
        let (result, l) := l.insertGenesis log b
        ⟨result, l, decoded.calls⟩
    else ⟨.error (.protocol (.genesisIndex b.index)), l, decoded.calls⟩

/-- Answers a call: only first blocks are taken, and nothing is replied. -/
def process (log : BlockLog μ) (c : Crypto) (limit : Nat) (message : Message) (l : Ledger μ) :
    Acted μ ReplicationError (Option Message) :=
  match message with
  | .propagateGenesis genesis =>
    let acted := l.acceptGenesis log c limit genesis
    ⟨acted.result.map fun _ => none, acted.ledger, acted.calls⟩
  | other => ⟨.error (.protocol (.unsupported other.kind)), l, .none⟩

end Ledger

end CosignedLedger
