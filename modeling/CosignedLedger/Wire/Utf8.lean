import CosignedLedger.Bytes

/-!
# Faults in UTF-8

Where a byte string stops being UTF-8. One that ends inside a character is incomplete, not wrong.
-/

namespace CosignedLedger

structure Utf8Fault where
  index : Nat
  /-- How many bytes are wrong; nothing if the string ends inside a character. -/
  wrong : Option Nat
deriving DecidableEq

namespace Utf8Fault

def message (f : Utf8Fault) : String :=
  match f.wrong with
  | some count => s!"invalid utf-8 sequence of {count} bytes from index {f.index}"
  | none => s!"incomplete utf-8 byte sequence from index {f.index}"

def isContinuation (b : UInt8) : Bool := 0x80 ≤ b && b ≤ 0xBF

def width (b : UInt8) : Nat :=
  if b < 0x80 then 1
  else if 0xC2 ≤ b && b ≤ 0xDF then 2
  else if 0xE0 ≤ b && b ≤ 0xEF then 3
  else if 0xF0 ≤ b && b ≤ 0xF4 then 4
  else 0

/-- The second bytes that may follow a first byte: neither an overlong form, nor a surrogate, nor
a code point past the last. -/
def isSecond (first second : UInt8) : Bool :=
  let low := if first = 0xE0 then 0xA0 else if first = 0xF0 then 0x90 else 0x80
  let high := if first = 0xED then 0x9F else if first = 0xF4 then 0x8F else 0xBF
  low ≤ second && second ≤ high

def matched (first : UInt8) (width : Nat) (rest : Bytes) : Nat :=
  match rest.take (width - 1) with
  | [] => 0
  | second :: rest => if isSecond first second then 1 + (rest.takeWhile isContinuation).length else 0

def find (index : Nat) (bytes : Bytes) : Utf8Fault :=
  match bytes with
  | [] => ⟨index, none⟩
  | first :: rest =>
    let needed := width first
    let count := matched first needed rest
    if needed = 0 then ⟨index, some 1⟩
    else if count + 1 = needed then find (index + needed) (rest.drop count)
    else if count = rest.length then ⟨index, none⟩
    else ⟨index, some (count + 1)⟩
termination_by bytes.length
decreasing_by simp only [List.length_drop, List.length_cons]; omega

end Utf8Fault

end CosignedLedger
