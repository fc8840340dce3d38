import CosignedLedger.Metered

/-!
# Results of steps

When a computation of several steps succeeds, and with which intermediate answers, or where it
fails: for `Except`, and for the results of `Metered` computations.

* `Except.mapM_eq_ok_iff`, `Except.mapM_eq_error_iff`: the same step for each element of a list.
-/

namespace CosignedLedger

namespace Except
variable {ε ε' α β : Type}

theorem bind_eq_ok {x : Except ε α} {f : α → Except ε β} {b : β} :
    x >>= f = .ok b ↔ ∃ a, x = .ok a ∧ f a = .ok b := by
  cases x with
  | error e => simp [bind, Except.bind]
  | ok a => simp [bind, Except.bind]

theorem bind_eq_error {x : Except ε α} {f : α → Except ε β} {e : ε} :
    x >>= f = .error e ↔ x = .error e ∨ ∃ a, x = .ok a ∧ f a = .error e := by
  cases x with
  | error e' => simp [bind, Except.bind]
  | ok a => simp [bind, Except.bind]

theorem pure_eq_ok {a b : α} : (pure a : Except ε α) = .ok b ↔ a = b := by
  simp [pure, Except.pure]

@[simp] theorem mapError_ok (f : ε → ε') (a : α) : (.ok a : Except ε α).mapError f = .ok a := rfl

@[simp] theorem mapError_error (f : ε → ε') (e : ε) :
    (.error e : Except ε α).mapError f = .error (f e) := rfl

theorem mapError_eq_ok {x : Except ε α} {f : ε → ε'} {a : α} :
    x.mapError f = .ok a ↔ x = .ok a := by
  cases x <;> simp

theorem map_eq_ok {x : Except ε α} {f : α → β} {b : β} :
    x.map f = .ok b ↔ ∃ a, x = .ok a ∧ f a = b := by
  cases x <;> simp [Except.map]

def error? : Except ε α → Option ε
  | .ok _ => none
  | .error e => some e

/-! ### Several steps in a row -/

theorem mapM_cons (f : α → Except ε β) (a : α) (as : List α) :
    (a :: as).mapM f = f a >>= fun b => (as.mapM f).map (b :: ·) := by
  rw [List.mapM_cons]
  rfl

theorem mapM_eq_ok_iff {f : α → Except ε β} {as : List α} {bs : List β} :
    as.mapM f = .ok bs ↔ as.map f = bs.map .ok := by
  induction as generalizing bs with
  | nil => cases bs <;> simp [pure, Except.pure]
  | cons a as ih =>
    rw [mapM_cons, bind_eq_ok]
    simp only [map_eq_ok, ih]
    cases bs with
    | nil => simp
    | cons b bs => simp [eq_comm]

theorem mapM_eq_error_iff {f : α → Except ε β} {as : List α} {e : ε} :
    as.mapM f = .error e ↔ as.findSome? (fun a => error? (f a)) = some e := by
  induction as with
  | nil => simp [pure, Except.pure]
  | cons a as ih =>
    rw [mapM_cons, List.findSome?_cons]
    cases f a with
    | error e' => simp [error?, bind, Except.bind]
    | ok b =>
      have hnone : error? (.ok b : Except ε β) = none := rfl
      rw [hnone, ← ih]
      cases as.mapM f <;> simp [bind, Except.bind, Except.map]

theorem exists_mapM {f : α → Except ε β} {as : List α} (h : ∀ a ∈ as, ∃ b, f a = .ok b) :
    ∃ bs, as.mapM f = .ok bs := by
  cases hresult : as.mapM f with
  | ok bs => exact ⟨bs, rfl⟩
  | error e =>
    obtain ⟨a, ha, hfailed⟩ := List.exists_of_findSome?_eq_some (mapM_eq_error_iff.1 hresult)
    obtain ⟨b, hb⟩ := h a ha
    rw [hb] at hfailed
    cases hfailed

end Except

end CosignedLedger
