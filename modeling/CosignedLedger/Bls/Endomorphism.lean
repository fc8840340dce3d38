import CosignedLedger.Bls.Curve

/-!
# Endomorphisms of the curves

Each curve has an endomorphism that is cheap to evaluate and multiplies the points of the subgroup
of prime order by a power of the curve parameter `x`, by which that subgroup is recognised.
-/

namespace CosignedLedger.Bls

namespace G1

def unityRoot : Fp := Fp.ofNat
  0x5f19672fdf76ce51ba69c6076a0f77eaddb3a93be6f89688de17d813620a00022e01fffffffefffe

def inSubgroup (P : G1) : Bool :=
  let P := Jacobian.ofAffine P
  let image : Jacobian Fp := ⟨P.x * unityRoot, P.y, P.z⟩
  image.same P.smulParameter.smulParameter.neg

end G1

namespace G2

def twistX : Fp2 := (pow Fp2.nonResidue ((fieldOrder - 1) / 3))⁻¹

def twistY : Fp2 := (pow Fp2.nonResidue ((fieldOrder - 1) / 2))⁻¹

/-- The Frobenius endomorphism of the curve over the larger field, seen on this one. -/
def psi (P : Jacobian Fp2) : Jacobian Fp2 := ⟨P.x.conj * twistX, P.y.conj * twistY, P.z.conj⟩

def inSubgroup (P : G2) : Bool :=
  let P := Jacobian.ofAffine P
  (psi P).same P.smulParameter.neg

/-- The multiple of the sum of two points by `x² - x - 1`, with the multiple of its image by
`x - 1` and of its second image by two. It lies in the subgroup, and is the multiple of the sum by
a fixed number. -/
def clearCofactor (P Q : G2) : G2 :=
  let P := (Jacobian.ofAffine P).add (Jacobian.ofAffine Q)
  let xP := P.smulParameter.neg
  let image := psi P
  let x := (xP.add image).smulParameter.neg
  ((((psi (psi P.dbl)).add image.neg).add x).add (xP.add P).neg).toAffine

end G2

end CosignedLedger.Bls
