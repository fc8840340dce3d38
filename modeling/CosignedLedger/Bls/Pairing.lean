import CosignedLedger.Bls.Curve
import CosignedLedger.Bls.Tower

/-!
# Pairings

The optimal ate pairing of BLS12-381. `productIsOne` runs all pairings of a product through one
Miller loop and raises the result to an exponent that makes it a root of unity.
-/

namespace CosignedLedger.Bls.Pairing

/-- The value at a point of a line through a curve point, as coefficients for `1`, `x` and `y`. -/
structure Line where
  free : Fp2
  x : Fp2
  y : Fp2

def Line.mulAt (l : Line) (x y : Fp) (f : Fp12) : Fp12 :=
  f.mulLine l.free (Fp2.scale x l.x) (Fp2.scale y l.y)

def tangent (t : Jacobian Fp2) : Jacobian Fp2 × Line :=
  let xx := square t.x
  let yy := square t.y
  let yyyy := square yy
  let s := double (square (yy + t.x) - xx - yyyy)
  let m := xx + xx + xx
  let mm := square m
  let zz := square t.z
  let x := mm - double s
  let z := square (t.z + t.y) - yy - zz
  let y := (s - x) * m - double (double (double yyyy))
  (⟨x, y, z⟩,
    { free := square (t.x + m) - xx - mm - double (double yy)
      x := -double (m * zz)
      y := double (z * zz) })

def chord (t : Jacobian Fp2) (qx qy : Fp2) : Jacobian Fp2 × Line :=
  let zz := square t.z
  let yy := square qy
  let h := zz * qx - t.x
  let hh := square h
  let i := double (double hh)
  let j := i * h
  let r := (square (qy + t.z) - yy - zz) * zz - double t.y
  let v := i * t.x
  let x := square r - j - double v
  let z := square (t.z + h) - zz - hh
  let y := (v - x) * r - double (t.y * j)
  (⟨x, y, z⟩,
    { free := double (r * qx) - (square (qy + z) - yy - square z)
      x := -double r
      y := double z })

/-- One pairing under way: where the line is evaluated, the fixed point, and its multiple. -/
structure Leg where
  px : Fp
  py : Fp
  qx : Fp2
  qy : Fp2
  t : Jacobian Fp2

def Leg.of? : G1 × G2 → Option Leg
  | (.point px py, .point qx qy) => some ⟨px, py, qx, qy, ⟨qx, qy, 1⟩⟩
  | _ => none

def doubleLeg (f : Fp12) (leg : Leg) : Fp12 × Leg :=
  let (t, line) := tangent leg.t
  (line.mulAt leg.px leg.py f, { leg with t })

def addLeg (f : Fp12) (leg : Leg) : Fp12 × Leg :=
  let (t, line) := chord leg.t leg.qx leg.qy
  (line.mulAt leg.px leg.py f, { leg with t })

def stepLegs (step : Fp12 → Leg → Fp12 × Leg) (f : Fp12) : List Leg → Fp12 × List Leg
  | [] => (f, [])
  | leg :: legs =>
    let (f, leg) := step f leg
    let (f, legs) := stepLegs step f legs
    (f, leg :: legs)

/-- The Miller loop over the bits of the parameter below its first, most significant first. -/
def millerSteps : (bits : List Bool) → Fp12 → List Leg → Fp12
  | [], f, _ => f
  | bit :: bits, f, legs =>
    let (f, legs) := stepLegs doubleLeg (square f) legs
    if bit then
      let (f, legs) := stepLegs addLeg f legs
      millerSteps bits f legs
    else millerSteps bits f legs

def miller (pairs : List (G1 × G2)) : Fp12 :=
  (millerSteps parameterBits 1 (pairs.filterMap Leg.of?)).conj

/-- The power by the curve parameter, for elements whose conjugate is their inverse and that
`Fp12.squareUnitary` squares. -/
def powParameter (a : Fp12) : Fp12 :=
  (repeatBits (· * ·) Fp12.squareUnitary a parameterBits).conj

/-- Raises to three times the exponent `(p¹² - 1) / r`, first by its factor `(p⁶ - 1) (p² + 1)`. -/
def finalPower (f : Fp12) : Fp12 :=
  let f := f.conj * f⁻¹
  let m := f.frobenius.frobenius * f
  let a := powParameter m * m.conj
  let a := powParameter a * a.conj
  let b := powParameter a * a.frobenius
  let c := powParameter (powParameter b) * b.frobenius.frobenius * b.conj
  c * m.squareUnitary * m

def productIsOne (pairs : List (G1 × G2)) : Bool :=
  finalPower (miller pairs) = 1

end CosignedLedger.Bls.Pairing
