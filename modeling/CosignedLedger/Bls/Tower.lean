import CosignedLedger.Bls.Field

/-!
# The field of pairings

The extension of degree twelve, built in two steps over `Fp2`: `Fp6` adjoins a cube root `v` of
`1 + u`, and `Fp12` a square root `w` of `v`. `Fp12.frobenius` is the power by the characteristic.
-/

namespace CosignedLedger.Bls

/-- The element `c0 + c1 * v + c2 * v²`. -/
structure Fp6 where
  c0 : Fp2
  c1 : Fp2
  c2 : Fp2
deriving DecidableEq

namespace Fp6

@[noinline] protected def add (a b : Fp6) : Fp6 := ⟨a.c0 + b.c0, a.c1 + b.c1, a.c2 + b.c2⟩

@[noinline] protected def sub (a b : Fp6) : Fp6 := ⟨a.c0 - b.c0, a.c1 - b.c1, a.c2 - b.c2⟩

@[noinline] protected def mul (a b : Fp6) : Fp6 :=
  let m0 := a.c0 * b.c0
  let m1 := a.c1 * b.c1
  let m2 := a.c2 * b.c2
  ⟨m0 + Fp2.mulNonResidue ((a.c1 + a.c2) * (b.c1 + b.c2) - m1 - m2),
    (a.c0 + a.c1) * (b.c0 + b.c1) - m0 - m1 + Fp2.mulNonResidue m2,
    (a.c0 + a.c2) * (b.c0 + b.c2) - m0 - m2 + m1⟩

@[noinline] protected def inv (a : Fp6) : Fp6 :=
  let t0 := square a.c0 - Fp2.mulNonResidue (a.c1 * a.c2)
  let t1 := Fp2.mulNonResidue (square a.c2) - a.c0 * a.c1
  let t2 := square a.c1 - a.c0 * a.c2
  let i := (a.c0 * t0 + Fp2.mulNonResidue (a.c2 * t1 + a.c1 * t2))⁻¹
  ⟨t0 * i, t1 * i, t2 * i⟩

instance : FieldOps Fp6 where
  add := Fp6.add
  sub := Fp6.sub
  mul := Fp6.mul
  square a := Fp6.mul a a
  neg a := ⟨-a.c0, -a.c1, -a.c2⟩
  zero := ⟨0, 0, 0⟩
  one := ⟨1, 0, 0⟩
  inv := Fp6.inv
  decEq := inferInstance

def mulV (a : Fp6) : Fp6 := ⟨Fp2.mulNonResidue a.c2, a.c0, a.c1⟩

def scale (k : Fp2) (a : Fp6) : Fp6 := ⟨k * a.c0, k * a.c1, k * a.c2⟩

@[noinline] def mulLinear (a : Fp6) (b0 b1 : Fp2) : Fp6 :=
  let m0 := a.c0 * b0
  let m1 := a.c1 * b1
  ⟨m0 + Fp2.mulNonResidue (a.c2 * b1), (a.c0 + a.c1) * (b0 + b1) - m0 - m1, a.c2 * b0 + m1⟩

end Fp6

/-- The element `c0 + c1 * w`. -/
structure Fp12 where
  c0 : Fp6
  c1 : Fp6
deriving DecidableEq

namespace Fp12

@[noinline] protected def mul (a b : Fp12) : Fp12 :=
  let m0 := a.c0 * b.c0
  let m1 := a.c1 * b.c1
  ⟨m0 + m1.mulV, (a.c0 + a.c1) * (b.c0 + b.c1) - m0 - m1⟩

@[noinline] protected def square (a : Fp12) : Fp12 :=
  let m := a.c0 * a.c1
  ⟨(a.c0 + a.c1) * (a.c0 + a.c1.mulV) - m - m.mulV, m + m⟩

def mulLine (a : Fp12) (b0 b1 b2 : Fp2) : Fp12 :=
  let m0 := a.c0.mulLinear b0 b1
  let m1 := (a.c1.scale b2).mulV
  ⟨m0 + m1.mulV, (a.c0 + a.c1).mulLinear b0 (b1 + b2) - m0 - m1⟩

@[noinline] protected def inv (a : Fp12) : Fp12 :=
  let i := (square a.c0 - (square a.c1).mulV)⁻¹
  ⟨a.c0 * i, -a.c1 * i⟩

instance : FieldOps Fp12 where
  add a b := ⟨a.c0 + b.c0, a.c1 + b.c1⟩
  sub a b := ⟨a.c0 - b.c0, a.c1 - b.c1⟩
  mul := Fp12.mul
  square := Fp12.square
  neg a := ⟨-a.c0, -a.c1⟩
  zero := ⟨0, 0⟩
  one := ⟨1, 0⟩
  inv := Fp12.inv
  decEq := inferInstance

def conj (a : Fp12) : Fp12 := ⟨a.c0, -a.c1⟩

/-- The square of `a + b * s`, where the square of `s` is `1 + u`. -/
@[noinline] def squareQuartic (a b : Fp2) : Fp2 × Fp2 :=
  let aa := square a
  let bb := square b
  (aa + Fp2.mulNonResidue bb, square (a + b) - aa - bb)

def tripleLess (a b : Fp2) : Fp2 := double (a - b) + a

def tripleMore (a b : Fp2) : Fp2 := double (a + b) + a

/-- The square of an element that is one when raised to `p⁴ - p² + 1`: a third of the work of
other squares, since such an element is known from half of its coefficients. -/
def squareUnitary (a : Fp12) : Fp12 :=
  let (a0, a1) := squareQuartic a.c0.c0 a.c1.c1
  let (b0, b1) := squareQuartic a.c1.c0 a.c0.c2
  let (c0, c1) := squareQuartic a.c0.c1 a.c1.c2
  ⟨⟨tripleLess a0 a.c0.c0, tripleLess b0 a.c0.c1, tripleLess c0 a.c0.c2⟩,
    ⟨tripleMore (Fp2.mulNonResidue c1) a.c1.c0, tripleMore a1 a.c1.c1, tripleMore b1 a.c1.c2⟩⟩

def frobeniusUnit : Fp2 := pow Fp2.nonResidue ((fieldOrder - 1) / 6)

def frobeniusUnit2 : Fp2 := square frobeniusUnit

def frobeniusUnit3 : Fp2 := frobeniusUnit2 * frobeniusUnit

def frobeniusUnit4 : Fp2 := square frobeniusUnit2

def frobeniusUnit5 : Fp2 := frobeniusUnit4 * frobeniusUnit

def frobenius (a : Fp12) : Fp12 :=
  ⟨⟨a.c0.c0.conj, a.c0.c1.conj * frobeniusUnit2, a.c0.c2.conj * frobeniusUnit4⟩,
    ⟨a.c1.c0.conj * frobeniusUnit, a.c1.c1.conj * frobeniusUnit3, a.c1.c2.conj * frobeniusUnit5⟩⟩

end Fp12

end CosignedLedger.Bls
