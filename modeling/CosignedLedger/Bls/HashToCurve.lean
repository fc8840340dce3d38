import CosignedLedger.Bls.Endomorphism
import CosignedLedger.Hash.Sha256

/-!
# Hashing to the curve of signatures

The suite `BLS12381G2_XMD:SHA-256_SSWU_RO_`: two field elements from a message, each mapped to an
isogenous curve, and the sum of their images multiplied into the subgroup.
-/

namespace CosignedLedger.Bls.HashToCurve

def expandBlocks (first tag : Bytes) : (count number : Nat) → (last : Bytes) → Bytes
  | 0, _, _ => []
  | count + 1, number, last =>
    let block := (Sha256.hash (Bytes.xor first last ++ UInt8.ofNat number :: tag)).bytes
    block ++ expandBlocks first tag count (number + 1) block

/-- `32 * count` uniform bytes from a message, under a domain separation tag. -/
def expandMessage (tag message : Bytes) (count : Nat) : Bytes :=
  let tag := tag ++ [UInt8.ofNat tag.length]
  let first := (Sha256.hash (List.replicate 64 0 ++ message
    ++ Bytes.ofNatBE 2 (32 * count) ++ 0 :: tag)).bytes
  expandBlocks first tag count 1 (List.replicate 32 0)

def fieldElements (tag message : Bytes) : Fp2 × Fp2 :=
  let bytes := expandMessage tag message 8
  let coordinate (i : Nat) : Fp := Fp.ofNat (Bytes.toNatBE ((bytes.drop (64 * i)).take 64))
  (⟨coordinate 0, coordinate 1⟩, ⟨coordinate 2, coordinate 3⟩)

/-- The coefficients of the isogenous curve `y² = x³ + a x + b`. -/
def isogenousA : Fp2 := ⟨0, Fp.ofNat 240⟩

def isogenousB : Fp2 := ⟨Fp.ofNat 1012, Fp.ofNat 1012⟩

def stepZ : Fp2 := ⟨-Fp.ofNat 2, -Fp.ofNat 1⟩

def isogenousRhs (x : Fp2) : Fp2 := (square x + isogenousA) * x + isogenousB

/-- A point of the isogenous curve for every field element: of two candidates for `x`, the first
whose right-hand side is a square, with the root whose sign is that of `t`. -/
def mapToIsogenous (t : Fp2) : Fp2 × Fp2 :=
  let zt := stepZ * square t
  let d := square zt + zt
  let x1 := if d = 0 then isogenousB * (stepZ * isogenousA)⁻¹
    else -isogenousB * isogenousA⁻¹ * (1 + d⁻¹)
  let x2 := zt * x1
  let (x, y) := match (isogenousRhs x1).sqrt? with
    | some y => (x1, y)
    | none => (x2, (isogenousRhs x2).sqrt?.getD 0)
  (x, if y.isOdd = t.isOdd then y else -y)

def evaluate (coefficients : List (Nat × Nat)) (x : Fp2) : Fp2 :=
  coefficients.foldr (fun c acc => acc * x + ⟨Fp.ofNat c.1, Fp.ofNat c.2⟩) 0

def xNumerator : List (Nat × Nat) :=
  [(0x5c759507e8e333ebb5b7a9a47d7ed8532c52d39fd3a042a88b58423c50ae15d5c2638e343d9c71c6238aaaaaaaa97d6,
    0x5c759507e8e333ebb5b7a9a47d7ed8532c52d39fd3a042a88b58423c50ae15d5c2638e343d9c71c6238aaaaaaaa97d6),
   (0, 0x11560bf17baa99bc32126fced787c88f984f87adf7ae0c7f9a208c6b4f20a4181472aaa9cb8d555526a9ffffffffc71a),
   (0x11560bf17baa99bc32126fced787c88f984f87adf7ae0c7f9a208c6b4f20a4181472aaa9cb8d555526a9ffffffffc71e,
    0x8ab05f8bdd54cde190937e76bc3e447cc27c3d6fbd7063fcd104635a790520c0a395554e5c6aaaa9354ffffffffe38d),
   (0x171d6541fa38ccfaed6dea691f5fb614cb14b4e7f4e810aa22d6108f142b85757098e38d0f671c7188e2aaaaaaaa5ed1, 0)]

def xDenominator : List (Nat × Nat) :=
  [(0, 0x1a0111ea397fe69a4b1ba7b6434bacd764774b84f38512bf6730d2a0f6b0f6241eabfffeb153ffffb9feffffffffaa63),
   (0xc, 0x1a0111ea397fe69a4b1ba7b6434bacd764774b84f38512bf6730d2a0f6b0f6241eabfffeb153ffffb9feffffffffaa9f),
   (1, 0)]

def yNumerator : List (Nat × Nat) :=
  [(0x1530477c7ab4113b59a4c18b076d11930f7da5d4a07f649bf54439d87d27e500fc8c25ebf8c92f6812cfc71c71c6d706,
    0x1530477c7ab4113b59a4c18b076d11930f7da5d4a07f649bf54439d87d27e500fc8c25ebf8c92f6812cfc71c71c6d706),
   (0, 0x5c759507e8e333ebb5b7a9a47d7ed8532c52d39fd3a042a88b58423c50ae15d5c2638e343d9c71c6238aaaaaaaa97be),
   (0x11560bf17baa99bc32126fced787c88f984f87adf7ae0c7f9a208c6b4f20a4181472aaa9cb8d555526a9ffffffffc71c,
    0x8ab05f8bdd54cde190937e76bc3e447cc27c3d6fbd7063fcd104635a790520c0a395554e5c6aaaa9354ffffffffe38f),
   (0x124c9ad43b6cf79bfbf7043de3811ad0761b0f37a1e26286b0e977c69aa274524e79097a56dc4bd9e1b371c71c718b10, 0)]

def yDenominator : List (Nat × Nat) :=
  [(0x1a0111ea397fe69a4b1ba7b6434bacd764774b84f38512bf6730d2a0f6b0f6241eabfffeb153ffffb9feffffffffa8fb,
    0x1a0111ea397fe69a4b1ba7b6434bacd764774b84f38512bf6730d2a0f6b0f6241eabfffeb153ffffb9feffffffffa8fb),
   (0, 0x1a0111ea397fe69a4b1ba7b6434bacd764774b84f38512bf6730d2a0f6b0f6241eabfffeb153ffffb9feffffffffa9d3),
   (0x12, 0x1a0111ea397fe69a4b1ba7b6434bacd764774b84f38512bf6730d2a0f6b0f6241eabfffeb153ffffb9feffffffffaa99),
   (1, 0)]

/-- The image of a point of the isogenous curve on the curve of signatures; the points where a
denominator vanishes go to infinity. -/
def isogeny (x y : Fp2) : G2 :=
  let xd := evaluate xDenominator x
  let yd := evaluate yDenominator x
  if xd = 0 || yd = 0 then .infinity
  else
    let i := (xd * yd)⁻¹
    .point (evaluate xNumerator x * yd * i) (y * evaluate yNumerator x * xd * i)

def hash (tag message : Bytes) : G2 :=
  let (t0, t1) := fieldElements tag message
  let image (t : Fp2) : G2 := let (x, y) := mapToIsogenous t; isogeny x y
  G2.clearCofactor (image t0) (image t1)

end CosignedLedger.Bls.HashToCurve
