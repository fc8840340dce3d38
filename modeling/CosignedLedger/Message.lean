import CosignedLedger.Digest
import CosignedLedger.Roster

/-!
# Messages

What participants send each other. Blocks and chains travel encoded.
-/

namespace CosignedLedger

inductive Message where
  | propagateGenesis (genesis : Bytes)
  | blockRequest (target : Digest)
  | blockResponse (block : Bytes) (chain : Option Bytes)
deriving DecidableEq

def Message.kind : Message → String
  | propagateGenesis _ => "PropagateGenesis"
  | blockRequest _ => "BlockRequest"
  | blockResponse _ _ => "BlockResponse"

inductive TransportError where
  | unreachable (address : Address)
  | closed
  /-- The other side failed, with this text. -/
  | remote (text : String)
deriving DecidableEq

def TransportError.message : TransportError → String
  | unreachable address => s!"Address unreachable: {address.name}"
  | closed => "Stream closed"
  | remote text => s!"Remote error: {text}"

/-- What one attempt to receive gives: a message and its sender, or an error. -/
abbrev Frame := Except TransportError (Address × Message)

end CosignedLedger
