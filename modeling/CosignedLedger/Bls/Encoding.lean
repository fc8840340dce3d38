import CosignedLedger.Bls.Curve

/-!
# Compressed points

A point is written as its `x` coordinate, most significant byte first and the imaginary part before
the real one, with three flags in the top bits of the first byte.
-/

namespace CosignedLedger.Bls

structure PointFlags where
  compressed : Bool
  infinite : Bool
  large : Bool

namespace PointFlags

def ofByte (b : UInt8) : PointFlags :=
  ⟨b &&& 0x80 ≠ 0, b &&& 0x40 ≠ 0, b &&& 0x20 ≠ 0⟩

def toByte (f : PointFlags) : UInt8 :=
  (if f.compressed then 0x80 else 0) ||| (if f.infinite then 0x40 else 0)
    ||| (if f.large then 0x20 else 0)

def mark (f : PointFlags) : Bytes → Bytes
  | [] => []
  | b :: bytes => (b ||| f.toByte) :: bytes

def split : Bytes → Option (PointFlags × Bytes)
  | [] => none
  | b :: bytes => some (ofByte b, (b &&& 0x1f) :: bytes)

end PointFlags

def Fp.toBytes (a : Fp) : Bytes := Bytes.ofNatBE 48 a.val

def Fp.ofBytes? (bytes : Bytes) : Option Fp :=
  let n := Bytes.toNatBE bytes
  if h : n < fieldOrder then some ⟨n, h⟩ else none

def Fp2.toBytes (a : Fp2) : Bytes := a.im.toBytes ++ a.re.toBytes

def Fp2.ofBytes? (bytes : Bytes) : Option Fp2 := do
  let im ← Fp.ofBytes? (bytes.take 48)
  let re ← Fp.ofBytes? (bytes.drop 48)
  return ⟨re, im⟩

/-- Reads a compressed point, given how to read its `x` coordinate and how to choose `y`. -/
def decompress {F : Type} (coordinate? : Bytes → Option F) (root? : Bool → F → Option F)
    (bytes : Bytes) : Option (Affine F) := do
  let (flags, rest) ← PointFlags.split bytes
  if !flags.compressed then none
  else if flags.infinite then
    if flags.large || rest.any (· ≠ 0) then none else some .infinity
  else
    let x ← coordinate? rest
    let y ← root? flags.large x
    return .point x y

namespace G1

def toBytes : G1 → Bytes
  | .infinity => PointFlags.mark ⟨true, true, false⟩ (List.replicate 48 0)
  | .point x y => PointFlags.mark ⟨true, false, y.isLarge⟩ x.toBytes

/-- The `y` coordinate with the given flag at `x`. No point of the group has `x` zero, although
two points of the curve have. -/
def root? (large : Bool) (x : Fp) : Option Fp := do
  let y ← Fp.sqrt? (square x * x + curveB1)
  if x = 0 then none
  return if y.isLarge = large then y else -y

/-- The curve point that `bytes` compress, which need not lie in the subgroup. -/
def ofBytes? (bytes : Bytes) : Option G1 :=
  decompress Fp.ofBytes? root? bytes

end G1

namespace G2

def toBytes : G2 → Bytes
  | .infinity => PointFlags.mark ⟨true, true, false⟩ (List.replicate 96 0)
  | .point x y => PointFlags.mark ⟨true, false, y.isLarge⟩ x.toBytes

def root? (large : Bool) (x : Fp2) : Option Fp2 := do
  let y ← Fp2.sqrt? (square x * x + curveB2)
  return if y.isLarge = large then y else -y

def ofBytes? (bytes : Bytes) : Option G2 :=
  decompress Fp2.ofBytes? root? bytes

end G2

end CosignedLedger.Bls
