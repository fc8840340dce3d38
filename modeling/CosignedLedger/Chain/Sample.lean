import CosignedLedger.Crypto.Signer
import CosignedLedger.Block
import CosignedLedger.Bounds

/-!
# Sample ledgers

A fully signed run of blocks for trying things out. The authority changes every `rotation` blocks,
or never if that is zero, and a block is signed by the authority that the one before it records.
-/

namespace CosignedLedger

/-- The number of rotations before the block at `index`. -/
def epochOf (rotation index : Nat) : Nat :=
  if rotation = 0 then 0 else index / rotation

/-- Why a sample is not made: a signer fails, or the lookup of one panics. -/
inductive ProductionError where
  | crypto (error : CryptoError)
  | panic (fault : OutOfBounds)
deriving DecidableEq

def ProductionError.message : ProductionError → String
  | crypto error => error.message
  | panic fault => fault.message

structure Sample (Key : Type) where
  signers : List (Signer Key)
  blocks : List Block

namespace Sample
variable {Key : Type}

def authoritySize : Nat := 3

def signer (scheme : Scheme Key) (epoch : Nat) : Except CryptoError (Signer Key) :=
  Signer.ofSeed scheme (UInt64.ofNat epoch)
    ((List.range authoritySize).map fun i => ⟨s!"member-{epoch}-{i}"⟩)

/-- How many epochs the first `count` blocks reach into. -/
def epochs (rotation count : Nat) : Nat :=
  if count = 0 then 0 else epochOf rotation (count - 1) + 1

def signerAt (signers : List (Signer Key)) (rotation index : Nat) :
    Except ProductionError (Signer Key) :=
  (elementAt signers (epochOf rotation index)).mapError .panic

def block (scheme : Scheme Key) (signers : List (Signer Key)) (rotation index : Nat)
    (previous? : Option Block) : Except ProductionError Block := do
  let authority := (← signerAt signers rotation index).roster scheme
  let payload := Bytes.ofText s!"block-{index}"
  match previous? with
  | none => return .genesis scheme.crypto authority payload
  | some previous =>
    let draft := Block.draft scheme.crypto (UInt64.ofNat index) previous.hash authority payload
    let signing ← signerAt signers rotation (index - 1)
    let signature ← (signing.sign scheme draft.hash.bytes).mapError .crypto
    return draft.withSignature signature

def blocksFrom (scheme : Scheme Key) (signers : List (Signer Key)) (rotation : Nat) :
    (count index : Nat) → (previous? : Option Block) → Except ProductionError (List Block)
  | 0, _, _ => .ok []
  | count + 1, index, previous? => do
    let b ← block scheme signers rotation index previous?
    let rest ← blocksFrom scheme signers rotation count (index + 1) (some b)
    return b :: rest

def build (scheme : Scheme Key) (count rotation : Nat) : Except ProductionError (Sample Key) := do
  let signers ← ((List.range (epochs rotation count)).mapM (signer scheme)).mapError .crypto
  let blocks ← blocksFrom scheme signers rotation count 0 none
  return ⟨signers, blocks⟩

end Sample

end CosignedLedger
