import CosignedLedger.Chain.Basic
import CosignedLedger.Store.Basic

/-!
# Building chains

The chain between two stored blocks has a link for every block after the first whose authority is
another than that of the block before it, and a last link for the block it leads to.
-/

namespace CosignedLedger

inductive LinkFault where
  | wrongStart
  | wrongAuthority
  | staleIndex
  | wrongHash
  | crypto (error : CryptoError)
  | wrongEnd (reached expected : Digest)
  | wrongSigner (index : Nat)
  | other (text : String)
deriving DecidableEq

def LinkFault.message : LinkFault → String
  | wrongStart => "link does not start at the trusted block"
  | wrongAuthority => "signing roster is not the trusted authority"
  | staleIndex => "index does not advance"
  | wrongHash => "header does not hash to link target"
  | crypto error => error.message
  | wrongEnd reached expected => s!"chain ends at {reached.short}, expected {expected.short}"
  | wrongSigner index => s!"block {index} is not signed by the authority of block {index - 1}"
  | other text => text

inductive ChainError where
  | notFound (hash : Digest)
  | invalidProof (position : Nat) (fault : LinkFault)
  | emptyChain
  | missingSignature (index : Nat)
  | invalidRange (source target : Nat)
  | store (error : StoreError)
deriving DecidableEq

namespace ChainError

def message : ChainError → String
  | notFound hash => s!"Block not found: {hash}"
  | invalidProof position fault => s!"Invalid proof at link {position}: {fault.message}"
  | emptyChain => "Empty chain"
  | missingSignature index => s!"Missing signature on block {index}"
  | invalidRange source target => s!"Invalid range: {source} > {target}"
  | store error => s!"Store error: {error.message}"

def trace : ChainError → List String
  | store error => [message (store error), error.message]
  | error => [error.message]

end ChainError

namespace Store

def lookup (s : Store) (hash : Digest) : Except ChainError Block :=
  (s.readByHash hash).mapError fun
    | .hashNotFound hash => .notFound hash
    | error => .store error

/-- The links for `count` blocks from `index` on, the last of which is `target`. Trust has been
carried up to the block with hash `anchor`, and `previous` is the block before `index`. -/
def links (s : Store) (target : Block) :
    (count index : Nat) → (anchor : Digest) → (previous : Block) → Except ChainError (List Link)
  | 0, _, _, _ => .ok []
  | count + 1, index, anchor, previous => do
    let block ← if count = 0 then .ok target else (s.read index).mapError .store
    if count = 0 ∨ block.authority ≠ previous.authority then
      match block.signature with
      | none => .error (.missingSignature index)
      | some signature =>
        let rest ← links s target count (index + 1) block.hash block
        return ⟨anchor, block.hash, block.header, previous.authority, signature⟩ :: rest
    else links s target count (index + 1) anchor block

/-- The chain from one stored block to another that does not come before it. -/
def chainBetween (s : Store) (source target : Digest) : Except ChainError Chain := do
  let first ← s.lookup source
  let last ← s.lookup target
  if last.index < first.index then .error (.invalidRange first.index last.index)
  else
    let links ← s.links last (last.index - first.index) (first.index + 1) first.hash first
    return ⟨links⟩

def chainTo (s : Store) (target : Digest) : Except ChainError Chain :=
  match s.genesis? with
  | none => .error (.notFound target)
  | some genesis => s.chainBetween genesis.hash target

end Store

end CosignedLedger
