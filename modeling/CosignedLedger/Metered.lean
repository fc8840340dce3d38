/-!
# Metered results

A computation that can fail and that counts how often it has used the cryptography. A failing step
ends the computation; its calls count.
-/

namespace CosignedLedger

structure Calls where
  hashes : Nat
  aggregations : Nat
  verifications : Nat
deriving DecidableEq, Inhabited

namespace Calls

def none : Calls := ⟨0, 0, 0⟩

instance : Add Calls :=
  ⟨fun a b => ⟨a.hashes + b.hashes, a.aggregations + b.aggregations,
    a.verifications + b.verifications⟩⟩

end Calls

structure Metered (ε α : Type) where
  result : Except ε α
  calls : Calls

namespace Metered
variable {ε ε' α β : Type}

def ofExcept (r : Except ε α) : Metered ε α := ⟨r, .none⟩

def fail (e : ε) : Metered ε α := ofExcept (.error e)

def mapError (f : ε → ε') (x : Metered ε α) : Metered ε' α :=
  ⟨x.result.mapError f, x.calls⟩

instance : Monad (Metered ε) where
  pure a := ofExcept (.ok a)
  bind x f :=
    match x.result with
    | .error e => ⟨.error e, x.calls⟩
    | .ok a => ⟨(f a).result, x.calls + (f a).calls⟩

@[simp] theorem result_pure (a : α) : (pure a : Metered ε α).result = .ok a := rfl

@[simp] theorem result_fail (e : ε) : (fail e : Metered ε α).result = .error e := rfl

@[simp] theorem result_ofExcept (r : Except ε α) : (ofExcept r).result = r := rfl

@[simp] theorem result_mapError (f : ε → ε') (x : Metered ε α) :
    (mapError f x).result = x.result.mapError f := rfl

@[simp] theorem result_bind (x : Metered ε α) (f : α → Metered ε β) :
    (x >>= f).result = x.result >>= fun a => (f a).result := by
  cases x with
  | mk result calls => cases result <;> rfl

end Metered

end CosignedLedger
