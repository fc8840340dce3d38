import CosignedLedger.Block

/-!
# Chains of links

A link carries trust from one block to a later one: the later block's header and hash, and a
signature over that hash by the authority that the earlier block records.
-/

namespace CosignedLedger

structure Link where
  source : Digest
  target : Digest
  header : Header
  authority : Roster
  signature : Bytes
deriving DecidableEq

structure Chain where
  links : List Link
deriving DecidableEq, Inhabited

namespace Chain

def length (c : Chain) : Nat := c.links.length

def isEmpty (c : Chain) : Bool := c.links.isEmpty

def last? (c : Chain) : Option Link := c.links.getLast?

def target? (c : Chain) : Option Digest := c.last?.map (·.target)

/-- The position of the last link, in words of 64 bits. -/
def lastPosition (c : Chain) : UInt64 := UInt64.ofNat c.length - 1

end Chain

end CosignedLedger
