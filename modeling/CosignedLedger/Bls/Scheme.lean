import CosignedLedger.Bls.Signature
import CosignedLedger.Crypto.Signer

/-!
# BLS as a collective scheme

SHA-256 for hashing, and BLS keys and signatures whose sums speak for a whole roster.
-/

namespace CosignedLedger.Bls

def parseKeys (keys : List Bytes) : Except CryptoError (List PublicKey) :=
  keys.mapM PublicKey.ofBytes?

/-- The combined key of the members: every key is parsed before any is combined. -/
def aggregateKey (members : List Member) : Except CryptoError AggregateKey := do
  let keys ← parseKeys (members.map (·.publicKey))
  let sum ← PublicKey.aggregate keys
  return ⟨sum.toBytes⟩

def verify (key : AggregateKey) (message signature : Bytes) : Except CryptoError Unit := do
  let key ← PublicKey.ofBytes? key.bytes
  let signature ← Signature.ofBytes? signature
  key.verify message signature

def sign (keys : List SecretKey) (message : Bytes) : Except CryptoError Bytes := do
  let point := HashToCurve.hash domainTag message
  let sum ← Signature.aggregate (keys.map (·.signPoint point))
  return sum.toBytes

def scheme : Scheme SecretKey where
  crypto := ⟨Sha256.hash, aggregateKey, verify⟩
  keyOfMaterial := SecretKey.ofMaterial
  publicKey key := key.publicKey.toBytes
  sign := sign

end CosignedLedger.Bls
