import CosignedLedger.Crypto.Basic
import CosignedLedger.Hash.Sha256

/-!
# Collective signers

A signer holds the keys of all members of a roster and makes the signature that they would agree on.
Keys made from a seed depend on the seed and the member's address alone.
-/

namespace CosignedLedger

structure Scheme (Key : Type) where
  crypto : Crypto
  /-- The key that thirty-two bytes of material determine. -/
  keyOfMaterial : Bytes → Except CryptoError Key
  publicKey : Key → Bytes
  sign : List Key → Bytes → Except CryptoError Bytes

structure Signer (Key : Type) where
  members : List (Address × Key)

namespace Signer
variable {Key : Type}

def generate (scheme : Scheme Key) : List (Address × Bytes) → Except CryptoError (Signer Key)
  | [] => .ok ⟨[]⟩
  | (address, material) :: rest => do
    let key ← scheme.keyOfMaterial material
    let signer ← generate scheme rest
    return ⟨(address, key) :: signer.members⟩

/-- The material for one member: the seed and the first bytes of the address's hash. -/
def seedMaterial (seed : UInt64) (address : Address) : Bytes :=
  Bytes.ofNatLE 8 seed.toNat ++ (Sha256.hash (Bytes.ofText address.name)).bytes.take 24

def ofSeed (scheme : Scheme Key) (seed : UInt64) (addresses : List Address) :
    Except CryptoError (Signer Key) :=
  generate scheme (addresses.map fun a => (a, seedMaterial seed a))

def size (s : Signer Key) : Nat := s.members.length

def roster (scheme : Scheme Key) (s : Signer Key) : Roster :=
  ⟨s.members.map fun m => ⟨m.1, scheme.publicKey m.2⟩⟩

def sign (scheme : Scheme Key) (s : Signer Key) (message : Bytes) : Except CryptoError Bytes :=
  scheme.sign (s.members.map (·.2)) message

def signFirst (scheme : Scheme Key) (s : Signer Key) (count : Nat) (message : Bytes) :
    Except CryptoError Bytes :=
  scheme.sign ((s.members.take count).map (·.2)) message

end Signer

end CosignedLedger
