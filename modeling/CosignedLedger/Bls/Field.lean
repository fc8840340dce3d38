import CosignedLedger.Bytes

/-!
# Fields of BLS12-381

The prime field `Fp`, its quadratic extension `Fp2` by a square root `u` of minus one, and powers in
either, which are computed as multiples of points are: as copies combined by `repeatTimes`.
-/

namespace CosignedLedger.Bls

/-- The field's characteristic, a prime that is three modulo four. -/
def fieldOrder : Nat :=
  0x1a0111ea397fe69a4b1ba7b6434bacd764774b84f38512bf6730d2a0f6b0f6241eabfffeb153ffffb9feffffffffaaab

def groupOrder : Nat :=
  0x73eda753299d7d483339d80809a1d80553bda402fffe5bfeffffffff00000001

theorem fieldOrder_pos : 0 < fieldOrder := by decide

class FieldOps (F : Type) extends Add F, Sub F, Mul F, Neg F, Zero F, One F, Inv F where
  square : F → F
  decEq : DecidableEq F

export FieldOps (square)

instance {F : Type} [FieldOps F] : DecidableEq F := FieldOps.decEq

section
variable {A : Type}

@[specialize] def successive (combine : A → A → A) (step : A) : (count : Nat) → (a : A) → List A
  | 0, _ => []
  | count + 1, a => a :: successive combine step count (combine a step)

/-- What `k` copies come to, by the hexadecimal digits of `k`: `table` holds what fewer than
sixteen copies come to, `unit` is what no copies come to, and `digits` bounds the number of
digits. -/
@[specialize] def repeatDigits (unit : A) (combine : A → A → A) (twice : A → A)
    (table : Array A) : (digits : Nat) → (k : Nat) → A
  | 0, _ => unit
  | digits + 1, k =>
    let a := twice (twice (twice (twice (repeatDigits unit combine twice table digits (k / 16)))))
    combine a (table[k % 16]?.getD unit)

@[specialize] def repeatTimes (unit : A) (combine : A → A → A) (twice : A → A) (a : A) (k : Nat) :
    A :=
  repeatDigits unit combine twice (successive combine a 16 unit).toArray (k.log2 / 4 + 1) k

/-- What as many copies of `a` come to as binary digits say. The most significant digit, a one, is
left out; the next stands first. -/
@[specialize] def repeatBits (combine : A → A → A) (twice : A → A) (a : A) (bits : List Bool) :
    A :=
  bits.foldl (fun b bit => if bit then combine (twice b) a else twice b) a

end

section
variable {F : Type} [FieldOps F]

@[specialize] def double (a : F) : F := a + a

@[specialize] def pow (a : F) (e : Nat) : F := repeatTimes 1 (· * ·) square a e

end

def lowerBits (n : Nat) : List Bool :=
  (List.range n.log2).reverse.map n.testBit

/-- The absolute value of the parameter of the family of curves, which is negative. -/
def parameter : Nat := 0xd201000000010000

def parameterBits : List Bool := lowerBits parameter

/-- A residue modulo the field's characteristic. -/
structure Fp where
  val : Nat
  isLt : val < fieldOrder
deriving DecidableEq

namespace Fp

def ofNat (n : Nat) : Fp := ⟨n % fieldOrder, Nat.mod_lt _ fieldOrder_pos⟩

/-- The coefficient of `a` in a combination of `a` and `b` that makes their greatest common
divisor, modulo the characteristic; `fuel` bounds the number of divisions. -/
def invertWith : (fuel : Nat) → (a b x y : Nat) → Nat
  | 0, _, _, x, _ => x
  | fuel + 1, a, b, x, y =>
    if b = 0 then x
    else invertWith fuel b (a % b) y ((x + (fieldOrder - y) * (a / b)) % fieldOrder)

@[noinline] protected def inv (a : Fp) : Fp := ofNat (invertWith 1000 a.val fieldOrder 1 0)

@[noinline] protected def add (a b : Fp) : Fp :=
  let sum := a.val + b.val
  if h : sum < fieldOrder then ⟨sum, h⟩
  else
    ⟨sum - fieldOrder, by
      have ha := a.isLt
      have hb := b.isLt
      show a.val + b.val - fieldOrder < fieldOrder
      omega⟩

@[noinline] protected def sub (a b : Fp) : Fp :=
  if h : b.val ≤ a.val then ⟨a.val - b.val, Nat.lt_of_le_of_lt (Nat.sub_le ..) a.isLt⟩
  else
    ⟨a.val + fieldOrder - b.val, by
      have hb := b.isLt
      omega⟩

instance : FieldOps Fp where
  add := Fp.add
  sub := Fp.sub
  mul a b := ofNat (a.val * b.val)
  square a := ofNat (a.val * a.val)
  neg a := Fp.sub (ofNat 0) a
  zero := ofNat 0
  one := ofNat 1
  inv := Fp.inv
  decEq := inferInstance

instance : Inhabited Fp := ⟨0⟩

def sqrt? (a : Fp) : Option Fp :=
  let s := pow a ((fieldOrder + 1) / 4)
  if square s = a then some s else none

def isLarge (a : Fp) : Bool := (fieldOrder - 1) / 2 < a.val

def isOdd (a : Fp) : Bool := a.val % 2 = 1

end Fp

structure Fp2 where
  re : Fp
  im : Fp
deriving DecidableEq

namespace Fp2

def conj (a : Fp2) : Fp2 := ⟨a.re, -a.im⟩

def norm (a : Fp2) : Fp := square a.re + square a.im

def scale (k : Fp) (a : Fp2) : Fp2 := ⟨k * a.re, k * a.im⟩

@[noinline] protected def add (a b : Fp2) : Fp2 := ⟨a.re + b.re, a.im + b.im⟩

@[noinline] protected def sub (a b : Fp2) : Fp2 := ⟨a.re - b.re, a.im - b.im⟩

@[noinline] protected def mul (a b : Fp2) : Fp2 :=
  ⟨Fp.ofNat (a.re.val * b.re.val + (fieldOrder - a.im.val) * b.im.val),
    Fp.ofNat (a.re.val * b.im.val + a.im.val * b.re.val)⟩

@[noinline] protected def square (a : Fp2) : Fp2 :=
  ⟨Fp.ofNat ((a.re.val + a.im.val) * (a.re.val + (fieldOrder - a.im.val))),
    Fp.ofNat ((a.re.val + a.re.val) * a.im.val)⟩

@[noinline] protected def inv (a : Fp2) : Fp2 := scale (norm a)⁻¹ (conj a)

instance : FieldOps Fp2 where
  add := Fp2.add
  sub := Fp2.sub
  mul := Fp2.mul
  square := Fp2.square
  neg a := ⟨-a.re, -a.im⟩
  zero := ⟨0, 0⟩
  one := ⟨1, 0⟩
  inv := Fp2.inv
  decEq := inferInstance

instance : Inhabited Fp2 := ⟨0⟩

/-- The residue `1 + u`, neither a square nor a cube, on which the larger fields are built. -/
def nonResidue : Fp2 := ⟨1, 1⟩

def mulNonResidue (a : Fp2) : Fp2 := ⟨a.re - a.im, a.re + a.im⟩

def half : Fp := Fp.ofNat ((fieldOrder + 1) / 2)

def rootWithRealPart (a : Fp2) (x : Fp) : Option Fp2 :=
  if x = 0 then (Fp.sqrt? (-a.re)).map (⟨0, ·⟩) else some ⟨x, a.im * (x + x)⁻¹⟩

/-- A square root, if there is one: the real part squares to half the sum of the argument's real
part and a root of its norm. -/
def sqrt? (a : Fp2) : Option Fp2 := do
  let n ← Fp.sqrt? a.norm
  let x ← (Fp.sqrt? ((a.re + n) * half)).or (Fp.sqrt? ((a.re - n) * half))
  let root ← rootWithRealPart a x
  if square root = a then some root else none

def isLarge (a : Fp2) : Bool :=
  if a.im = 0 then a.re.isLarge else a.im.isLarge

/-- The sign used when hashing to the curve: the parity of the first nonzero part. -/
def isOdd (a : Fp2) : Bool :=
  if a.re = 0 then a.im.isOdd else a.re.isOdd

end Fp2

end CosignedLedger.Bls
