import CosignedLedger.Chain.Build
import CosignedLedger.Codec

/-!
# Replication errors

What can go wrong when participants exchange blocks. `ReplicationError.trace` lists the message of an
error and of those behind it that are causes of their own.
-/

namespace CosignedLedger

inductive ProtocolFault where
  | genesisIndex (index : Nat)
  | genesisVanished
  | unsupported (kind : String)
  | noRequest (cause : TransportError)
  | expectedRequest (kind : String)
  | expectedResponse (kind : String)
  | genesisWithChain
  | chainRequired (index : Nat)
  | noChain (index : Nat)
  | beforeGenesis (index : Nat)
  | signatureDiffers (index : Nat)
  | other (text : String)
deriving DecidableEq

def ProtocolFault.message : ProtocolFault → String
  | genesisIndex index => s!"genesis must have index 0, got {index}"
  | genesisVanished => "genesis vanished after concurrent insert"
  | unsupported kind => s!"unsupported message {kind}"
  | noRequest cause => s!"stream ended before a block request: {cause.message}"
  | expectedRequest kind => s!"expected BlockRequest, got {kind}"
  | expectedResponse kind => s!"expected BlockResponse, got {kind}"
  | genesisWithChain => "genesis response carries a chain"
  | chainRequired index => s!"chain required for block {index}"
  | noChain index => s!"block {index} has no chain"
  | beforeGenesis index => s!"block {index} arrived before genesis"
  | signatureDiffers index => s!"signature of block {index} differs from its proof"
  | other text => text

inductive ReplicationError where
  | decode (error : CodecError)
  | conflict (index : Nat) (stored received : Digest)
  | protocol (fault : ProtocolFault)
  | read (index : Nat) (error : StoreError)
  | send (index : Nat) (error : TransportError)
  | notFound (target : Digest) (horizon : Nat)
  | chain (error : ChainError)
  | store (error : StoreError)
  | incomplete (target : Digest) (received : Nat) (cause : TransportError)
  | cancelled
  | transport (error : TransportError)
  | propagation (failures : List (Address × String))
deriving DecidableEq

namespace ReplicationError

def message : ReplicationError → String
  | decode error => s!"Decode error: {error.message}"
  | conflict index stored received =>
    s!"Conflict at index {index}: stored {stored}, received {received}"
  | protocol fault => s!"Protocol error: {fault.message}"
  | read index error => s!"Failed to read block {index}: {error.message}"
  | send index error => s!"Failed to send block {index}: {error.message}"
  | notFound target horizon => s!"Target {target} not found within {horizon} stored blocks"
  | chain error => s!"Chain error: {error.message}"
  | store error => s!"Store error: {error.message}"
  | incomplete target received cause =>
    s!"Catch-up to {target} incomplete after {received} block(s): {cause.message}"
  | cancelled => "Cancelled"
  | transport error => s!"Transport error: {error.message}"
  | propagation failures => s!"Genesis propagation failed for {failures.length} member(s)"

/-- A block without its chain is a fault of the protocol; anything else is one of decoding. -/
def ofCodec : CodecError → ReplicationError
  | .missingChain index => protocol (.chainRequired index)
  | error => decode error

def trace (e : ReplicationError) : List String :=
  e.message :: match e with
    | read _ error => [error.message]
    | send _ error => [error.message]
    | chain error => error.trace
    | store error => [error.message]
    | transport error => [error.message]
    | _ => []

end ReplicationError

end CosignedLedger
