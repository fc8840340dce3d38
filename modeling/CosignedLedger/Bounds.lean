/-!
# Lookups by position

A lookup past the end of a list is no error that the program answers with: it panics.
-/

namespace CosignedLedger

structure OutOfBounds where
  length : Nat
  index : Nat
deriving DecidableEq

def OutOfBounds.message (fault : OutOfBounds) : String :=
  s!"index out of bounds: the len is {fault.length} but the index is {fault.index}"

variable {α : Type} {as : List α} {index : Nat} {a : α}

def elementAt (as : List α) (index : Nat) : Except OutOfBounds α :=
  match as[index]? with
  | some a => .ok a
  | none => .error ⟨as.length, index⟩

theorem elementAt_eq_ok_iff : elementAt as index = .ok a ↔ as[index]? = some a := by
  unfold elementAt
  cases as[index]? <;> simp

theorem elementAt_of_length_le (h : as.length ≤ index) :
    elementAt as index = .error ⟨as.length, index⟩ := by
  rw [elementAt, List.getElem?_eq_none h]

end CosignedLedger
