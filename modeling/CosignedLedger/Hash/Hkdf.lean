import CosignedLedger.Hash.Sha256

/-!
# Key derivation

HMAC and HKDF over SHA-256.
-/

namespace CosignedLedger

namespace Hmac

def blockKey (key : Bytes) : Bytes :=
  let key := if 64 < key.length then (Sha256.hash key).bytes else key
  key ++ List.replicate (64 - key.length) 0

def code (key message : Bytes) : Bytes :=
  let key := blockKey key
  let inner := (Sha256.hash (key.map (· ^^^ 0x36) ++ message)).bytes
  (Sha256.hash (key.map (· ^^^ 0x5c) ++ inner)).bytes

end Hmac

namespace Hkdf

def extract (salt material : Bytes) : Bytes := Hmac.code salt material

def expandBlocks (key info : Bytes) : (count : Nat) → (number : Nat) → (last : Bytes) → Bytes
  | 0, _, _ => []
  | count + 1, number, last =>
    let block := Hmac.code key (last ++ info ++ [UInt8.ofNat number])
    block ++ expandBlocks key info count (number + 1) block

def expand (key info : Bytes) (length : Nat) : Bytes :=
  (expandBlocks key info ((length + 31) / 32) 1 []).take length

end Hkdf

end CosignedLedger
