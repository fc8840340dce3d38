import CosignedLedger.Crypto.Error
import CosignedLedger.Digest
import CosignedLedger.Metered
import CosignedLedger.Roster

/-!
# Collective cryptography

What a ledger needs of cryptography: a hash, one key for a whole authority, and the verification of
a signature under it. The rest of the library holds for any three such functions.
-/

namespace CosignedLedger

/-- The combined public key of an authority, as its cryptography writes it. -/
structure AggregateKey where
  bytes : Bytes
deriving DecidableEq

structure Crypto where
  hash : Bytes → Digest
  aggregateKey : List Member → Except CryptoError AggregateKey
  verify : (key : AggregateKey) → (message signature : Bytes) → Except CryptoError Unit

namespace Crypto

def runHash {ε : Type} (c : Crypto) (bytes : Bytes) : Metered ε Digest :=
  ⟨.ok (c.hash bytes), ⟨1, 0, 0⟩⟩

def runAggregate {α : Type} [Authority α] (c : Crypto) (authority : α) :
    Metered CryptoError AggregateKey :=
  ⟨c.aggregateKey (Authority.members authority), ⟨0, 1, 0⟩⟩

def runVerify (c : Crypto) (key : AggregateKey) (message signature : Bytes) :
    Metered CryptoError Unit :=
  ⟨c.verify key message signature, ⟨0, 0, 1⟩⟩

/-- The signature verifies over the message under the combined key of the authority. -/
def Accepts {α : Type} [Authority α] (c : Crypto) (authority : α) (message signature : Bytes) :
    Prop :=
  ∃ key, c.aggregateKey (Authority.members authority) = .ok key ∧
    c.verify key message signature = .ok ()

end Crypto

end CosignedLedger
