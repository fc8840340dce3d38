import CosignedLedger.Bounds
import CosignedLedger.Replication.Error
import CosignedLedger.Settings

/-!
# Rehearsal errors

The text of an error says what was being done, and then why it failed, down to the first cause. A
panic is no error: it is what the lookup of a team past the last one ends in.
-/

namespace CosignedLedger

inductive RehearsalError where
  | settings (error : SettingsError)
  | authority (epoch : Nat) (error : CryptoError)
  | leaderStore (error : StoreError)
  | genesis (error : StoreError)
  | followerStore (error : StoreError)
  | propagation (error : ReplicationError)
  | draft (error : StoreError)
  | signature (index : Nat) (error : CryptoError)
  | append (index : Nat) (error : StoreError)
  | emptyLeader
  | blockLog (folder : String) (error : StoreError)
  | laggingStore (error : StoreError)
  | catchUp (error : ReplicationError)
  | headUnproven (error : ChainError)
  | noGenesis
  | proofRejected (error : ChainError)
  | lengthsDiffer (lagging leader : Nat)
deriving DecidableEq

namespace RehearsalError

def trace : RehearsalError → List String
  | settings error => [error.message]
  | authority epoch error => [s!"Failed to create authority {epoch}", error.message]
  | leaderStore error => ["Failed to open leader store", error.message]
  | genesis error => ["Failed to create genesis", error.message]
  | followerStore error => ["Failed to open follower store", error.message]
  | propagation error => "Genesis propagation failed" :: error.trace
  | draft error => ["Failed to seal block", error.message]
  | signature index error => [s!"Failed to sign block {index}", error.message]
  | append index error => [s!"Failed to store block {index}", error.message]
  | emptyLeader => ["Leader chain is empty"]
  | blockLog folder error => [s!"Failed to open block log in {folder}", error.message]
  | laggingStore error => ["Failed to open lagging node", error.message]
  | catchUp error => "Catch-up from leader failed" :: error.trace
  | headUnproven error => "Lagging node cannot prove the head" :: error.trace
  | noGenesis => ["Lagging node has no genesis"]
  | proofRejected error => "Head proof does not verify" :: error.trace
  | lengthsDiffer lagging leader => [s!"lagging node holds {lagging} block(s), leader {leader}"]

def message (e : RehearsalError) : String := ": ".intercalate e.trace

end RehearsalError

/-- How a rehearsal ends without a report. -/
inductive Rehearsal.Failure where
  | error (error : RehearsalError)
  | panic (fault : OutOfBounds)
deriving DecidableEq

end CosignedLedger
