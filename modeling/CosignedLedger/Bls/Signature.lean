import CosignedLedger.Bls.Encoding
import CosignedLedger.Bls.HashToCurve
import CosignedLedger.Bls.Pairing
import CosignedLedger.Crypto.Error
import CosignedLedger.Hash.Hkdf

/-!
# BLS signatures

Keys in the first group and signatures in the second. A parsed one is a point of its curve; that it
lies in the subgroup is checked when it is aggregated or verified.
-/

namespace CosignedLedger.Bls

def domainTag : Bytes := Bytes.ofText "BLS_SIG_BLS12381G2_XMD:SHA-256_SSWU_RO_POP_"

def publicKeySize : Nat := 48

def signatureSize : Nat := 96

/-- A multiple of the generator's order is no secret: `0 < scalar < groupOrder` for every key
that `ofBytes?` accepts. -/
structure SecretKey where
  scalar : Nat

structure PublicKey where
  point : G1
deriving DecidableEq

structure Signature where
  point : G2
deriving DecidableEq

namespace SecretKey

/-- Candidates for the secret from successive hashes of the salt, until one is not zero. No
second candidate is ever needed in practice; `attempts` bounds the search. -/
def derive (material : Bytes) : (attempts : Nat) → (salt : Bytes) → Option SecretKey
  | 0, _ => none
  | attempts + 1, salt =>
    let salt := (Sha256.hash salt).bytes
    let key := Hkdf.extract salt (material ++ [0])
    let scalar := Bytes.toNatBE (Hkdf.expand key (Bytes.ofNatBE 2 48) 48) % groupOrder
    if scalar = 0 then derive material attempts salt else some ⟨scalar⟩

def ofMaterial (material : Bytes) : Except CryptoError SecretKey :=
  match derive material 256 (Bytes.ofText "BLS-SIG-KEYGEN-SALT-") with
  | some key => .ok key
  | none => .error (.keyGenerationFailed "no nonzero secret")

def ofBytes? (bytes : Bytes) : Except CryptoError SecretKey :=
  let scalar := Bytes.toNatBE bytes
  if scalar = 0 ∨ groupOrder ≤ scalar then .error .invalidPrivateKey else .ok ⟨scalar⟩

def publicKey (key : SecretKey) : PublicKey := ⟨generator.smul key.scalar⟩

def signPoint (key : SecretKey) (point : G2) : Signature := ⟨point.smul key.scalar⟩

def sign (key : SecretKey) (message : Bytes) : Signature :=
  key.signPoint (HashToCurve.hash domainTag message)

end SecretKey

namespace PublicKey

def toBytes (key : PublicKey) : Bytes := G1.toBytes key.point

def ofBytes? (bytes : Bytes) : Except CryptoError PublicKey :=
  if bytes.length ≠ publicKeySize then .error (.wrongLength publicKeySize bytes.length)
  else match G1.ofBytes? bytes with
    | some point => .ok ⟨point⟩
    | none => .error .invalidPublicKey

/-- A key proper: a point of the subgroup other than infinity. -/
def isValid (key : PublicKey) : Bool :=
  key.point ≠ .infinity && G1.inSubgroup key.point

def aggregate (keys : List PublicKey) : Except CryptoError PublicKey :=
  if keys.isEmpty then .error .emptyKeys
  else if keys.all isValid then .ok ⟨Affine.sum (keys.map (·.point))⟩
  else .error .aggregationFailed

def verify (key : PublicKey) (message : Bytes) (signature : Signature) : Except CryptoError Unit :=
  if G2.inSubgroup signature.point && key.isValid
      && Pairing.productIsOne
        [(key.point, HashToCurve.hash domainTag message), (generator.neg, signature.point)]
  then .ok ()
  else .error .verificationFailed

end PublicKey

namespace Signature

def toBytes (signature : Signature) : Bytes := G2.toBytes signature.point

def ofBytes? (bytes : Bytes) : Except CryptoError Signature :=
  if bytes.length ≠ signatureSize then .error (.wrongLength signatureSize bytes.length)
  else match G2.ofBytes? bytes with
    | some point => .ok ⟨point⟩
    | none => .error .invalidSignature

def aggregate (signatures : List Signature) : Except CryptoError Signature :=
  if signatures.isEmpty then .error .emptySignatures
  else if signatures.all (G2.inSubgroup ·.point) then
    .ok ⟨Affine.sum (signatures.map (·.point))⟩
  else .error .aggregationFailed

end Signature

end CosignedLedger.Bls
