import CosignedLedger.Bls.Field

/-!
# Curve points

Points of the curves `y² = x³ + b`, over either field. Sums are computed on Jacobian triples, where
`(x, y, z)` stands for `(x / z², y / z³)`, and for the point at infinity if `z = 0`.
-/

namespace CosignedLedger.Bls

inductive Affine (F : Type) where
  | infinity
  | point (x y : F)
deriving DecidableEq

structure Jacobian (F : Type) where
  x : F
  y : F
  z : F

variable {F : Type} [FieldOps F]

namespace Jacobian

def infinity : Jacobian F := ⟨1, 1, 0⟩

def isInfinity (P : Jacobian F) : Bool := P.z = 0

def ofAffine : Affine F → Jacobian F
  | .infinity => infinity
  | .point x y => ⟨x, y, 1⟩

@[specialize] def toAffine (P : Jacobian F) : Affine F :=
  if P.z = 0 then .infinity
  else
    let i := P.z⁻¹
    let i2 := square i
    .point (P.x * i2) (P.y * i2 * i)

@[specialize] def dbl (P : Jacobian F) : Jacobian F :=
  let a := square P.x
  let b := square P.y
  let c := square b
  let d := double (square (P.x + b) - a - c)
  let e := a + a + a
  let x := square e - double d
  let y := e * (d - x) - double (double (double c))
  ⟨x, y, double (P.y * P.z)⟩

@[specialize] def add (P Q : Jacobian F) : Jacobian F :=
  if P.z = 0 then Q
  else if Q.z = 0 then P
  else
    let z1 := square P.z
    let z2 := square Q.z
    let u1 := P.x * z2
    let u2 := Q.x * z1
    let s1 := P.y * Q.z * z2
    let s2 := Q.y * P.z * z1
    if u1 = u2 then
      if s1 = s2 then dbl P else infinity
    else
      let h := u2 - u1
      let i := square (double h)
      let j := h * i
      let r := double (s2 - s1)
      let v := u1 * i
      let x := square r - j - double v
      ⟨x, r * (v - x) - double (s1 * j), (square (P.z + Q.z) - z1 - z2) * h⟩

def neg (P : Jacobian F) : Jacobian F := ⟨P.x, -P.y, P.z⟩

@[specialize] def smul (k : Nat) (P : Jacobian F) : Jacobian F :=
  repeatTimes infinity add dbl P k

@[specialize] def smulParameter (P : Jacobian F) : Jacobian F :=
  repeatBits add dbl P parameterBits

@[specialize] def same (P Q : Jacobian F) : Bool := (P.add Q.neg).isInfinity

end Jacobian

namespace Affine

def neg : Affine F → Affine F
  | infinity => infinity
  | point x y => point x (-y)

@[specialize] def smul (k : Nat) (P : Affine F) : Affine F :=
  ((Jacobian.ofAffine P).smul k).toAffine

@[specialize] def sum (Ps : List (Affine F)) : Affine F :=
  (Ps.foldl (fun S P => S.add (Jacobian.ofAffine P)) Jacobian.infinity).toAffine

end Affine

/-- A point of the curve that holds keys. -/
abbrev G1 := Affine Fp

/-- A point of the curve that holds signatures. -/
abbrev G2 := Affine Fp2

def curveB1 : Fp := Fp.ofNat 4

def curveB2 : Fp2 := ⟨Fp.ofNat 4, Fp.ofNat 4⟩

def generator : G1 := .point
  (Fp.ofNat 0x17f1d3a73197d7942695638c4fa9ac0fc3688c4f9774b905a14e3a3f171bac586c55e83ff97a1aeffb3af00adb22c6bb)
  (Fp.ofNat 0x08b3f481e3aaa0f1a09e30ed741d8ae4fcf5e095d5d00af600db18cb2c04b3edd03cc744a2888ae40caa232946c5e7e1)

end CosignedLedger.Bls
