/-!
# Key and signature errors

What can be wrong with a key, a signature or an aggregation, and the text for each.
-/

namespace CosignedLedger

inductive CryptoError where
  | wrongLength (expected actual : Nat)
  | verificationFailed
  | invalidPublicKey
  | invalidPrivateKey
  | invalidSignature
  | keyGenerationFailed (cause : String)
  | aggregationFailed
  | invalidInput (cause : String)
deriving DecidableEq, Repr

namespace CryptoError

def emptyKeys : CryptoError := .invalidInput "empty key list"

def emptySignatures : CryptoError := .invalidInput "empty signature list"

def message : CryptoError → String
  | wrongLength expected actual => s!"Invalid length: expected {expected}, got {actual}"
  | verificationFailed => "Signature verification failed"
  | invalidPublicKey => "Invalid public key"
  | invalidPrivateKey => "Invalid private key"
  | invalidSignature => "Invalid signature"
  | keyGenerationFailed cause => s!"Key generation failed: {cause}"
  | aggregationFailed => "BLS aggregation failed"
  | invalidInput cause => s!"Invalid input: {cause}"

end CryptoError

end CosignedLedger
