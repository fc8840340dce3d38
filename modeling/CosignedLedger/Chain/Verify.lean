import CosignedLedger.Chain.Build

/-!
# Verifying chains

Verification starts from a stored block and follows the links one by one, each from the hash, the
height and the authority reached. The first link that cannot be followed is reported by position.
-/

namespace CosignedLedger

/-- How far trust has been carried. -/
structure Trust where
  authority : Roster
  hash : Digest
  height : Nat
deriving DecidableEq

namespace Trust

def ofHeader (header : Header) (hash : Digest) : Trust :=
  ⟨header.authority, hash, header.index.toNat⟩

def ofBlock (b : Block) : Trust := ofHeader b.header b.hash

/-- Carries trust over one link. -/
def follow (c : Crypto) (t : Trust) (link : Link) : Metered LinkFault Trust :=
  if link.source ≠ t.hash then .fail .wrongStart
  else if link.authority ≠ t.authority then .fail .wrongAuthority
  else if link.header.index.toNat ≤ t.height then .fail .staleIndex
  else do
    let hash ← c.runHash link.header.canonicalBytes
    if hash ≠ link.target then .fail .wrongHash
    else
      let key ← (c.runAggregate link.authority).mapError .crypto
      (c.runVerify key link.target.bytes link.signature).mapError .crypto
      return ofHeader link.header link.target

def followAll (c : Crypto) (position : Nat) (t : Trust) : List Link → Metered ChainError Trust
  | [] => pure t
  | link :: links => do
    let t ← (t.follow c link).mapError (.invalidProof position)
    followAll c (position + 1) t links

end Trust

namespace Store

/-- The hash that a chain proves, starting from the stored block `anchor`. -/
def verify (s : Store) (c : Crypto) (chain : Chain) (anchor : Digest) :
    Metered ChainError Digest :=
  if chain.isEmpty then .fail .emptyChain
  else do
    let block ← .ofExcept (s.lookup anchor)
    let reached ← (Trust.ofBlock block).followAll c 0 chain.links
    return reached.hash

/-- Whether a chain leads from `anchor` to `target`; the empty chain leads nowhere else than to
its anchor. -/
def verifyTo (s : Store) (c : Crypto) (chain : Chain) (anchor target : Digest) :
    Metered ChainError Unit :=
  if chain.isEmpty then
    if anchor = target then pure () else .fail .emptyChain
  else do
    let reached ← s.verify c chain anchor
    if reached ≠ target then
      .fail (.invalidProof chain.lastPosition.toNat (.wrongEnd reached target))
    else pure ()

end Store

end CosignedLedger
