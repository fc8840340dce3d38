import CosignedLedger.Proofs.Replication.Interleaving

/-!
# Serving without others

`Serving.serve` looks at its store as often as it needs to and lets nobody come between. It is one
of the runs in which a request is served in small steps: one with no events of others.

* `Service.exists_iterate_step`: enough looks come to what one step does at once.
* `Service.ComesTo`, `Service.comesTo_run`: what events without others can lead to.
* `Service.exists_events_serve`: they lead to what `Serving.serve` gives.
-/

namespace CosignedLedger.Service
variable {μ : Type} (log : BlockLog μ) {v : Service μ}

/-- The building of a chain begins with the proof of its block. -/
def Ready (v : Service μ) : Prop :=
  ∀ r i b, v.serving = .proving r i b → v.tracing = .opening

theorem run_replicate_work (n : Nat) (v : Service μ) :
    v.run log (List.replicate n .work) = work^[n] v := by
  induction n generalizing v with
  | zero => rfl
  | succ n ih => exact ih v.work

theorem work_frame (v : Service μ) :
    v.work.ledger = v.ledger ∧ v.work.cancelled = v.cancelled ∧ v.work.sent = v.sent := by
  unfold work
  split
  · split
    · exact ⟨rfl, rfl, rfl⟩
    · split <;> exact ⟨rfl, rfl, rfl⟩
  · exact ⟨rfl, rfl, rfl⟩

theorem iterate_work_frame (n : Nat) (v : Service μ) :
    (work^[n] v).ledger = v.ledger ∧ (work^[n] v).cancelled = v.cancelled ∧
      (work^[n] v).sent = v.sent := by
  induction n generalizing v with
  | zero => exact ⟨rfl, rfl, rfl⟩
  | succ n ih =>
    obtain ⟨hledger, hcancelled, hsent⟩ := work_frame v
    obtain ⟨hledger', hcancelled', hsent'⟩ := ih v.work
    rw [Function.iterate_succ_apply]
    exact ⟨hledger'.trans hledger, hcancelled'.trans hcancelled, hsent'.trans hsent⟩

section Proving
variable {r : BlockRequest} {i : Nat} {b : Block} {chain : Except ChainError Chain}

theorem work_of_done (hserving : v.serving = .proving r i b) (hgenesis : b.isGenesis = false)
    (hdone : v.tracing = .done chain) : v.work.serving = .prove r i b chain := by
  simp [work, hserving, hgenesis, hdone]

theorem work_of_not_done (hserving : v.serving = .proving r i b) (hgenesis : b.isGenesis = false)
    (hdone : ∀ chain, v.tracing ≠ .done chain) :
    v.work = { v with tracing := v.tracing.step v.ledger.store b.hash } := by
  simp only [work, hserving, hgenesis, Bool.false_eq_true, if_false]

theorem exists_iterate_prove {n : Nat} (hserving : v.serving = .proving r i b)
    (hgenesis : b.isGenesis = false)
    (hdone : (Tracing.step v.ledger.store b.hash)^[n] v.tracing = .done chain) :
    ∃ k, (work^[k] v).serving = .prove r i b chain := by
  induction n generalizing v with
  | zero => exact ⟨1, work_of_done hserving hgenesis hdone⟩
  | succ n ih =>
    by_cases hended : ∃ result, v.tracing = .done result
    · obtain ⟨result, hresult⟩ := hended
      rw [hresult, Function.iterate_fixed rfl] at hdone
      cases hdone
      exact ⟨1, work_of_done hserving hgenesis hresult⟩
    · have hwork := work_of_not_done hserving hgenesis fun chain h => hended ⟨chain, h⟩
      rw [Function.iterate_succ_apply] at hdone
      obtain ⟨k, hk⟩ := ih (v := v.work) (by rw [hwork, hserving]) (by rw [hwork]; exact hdone)
      exact ⟨k + 1, hk⟩

end Proving

/-- On a store that stays as it is, enough looks come to what one step does at once. -/
theorem exists_iterate_step (hready : v.Ready) : ∃ n,
    (work^[n] v).serving = v.serving.step v.ledger.store v.cancelled ∧ (work^[n] v).Ready := by
  by_cases hproving : ∃ r i b, v.serving = .proving r i b
  · obtain ⟨r, i, b, hserving⟩ := hproving
    have hended : ∀ w : Service μ, w.serving = v.serving.step v.ledger.store v.cancelled → w.Ready := by
      intro w hw r' i' b' hw'
      rw [hw, hserving] at hw'
      simp only [Serving.step] at hw'
      split at hw' <;> cases hw'
    suffices ∃ n, (work^[n] v).serving = v.serving.step v.ledger.store v.cancelled by
      obtain ⟨n, hn⟩ := this
      exact ⟨n, hn, hended _ hn⟩
    cases hgenesis : b.isGenesis with
    | true => exact ⟨1, by simp [work, hserving, hgenesis]⟩
    | false =>
      obtain ⟨n, hn⟩ : Tracing.opening.Finishes v.ledger.store b.hash := Tracing.finishes_opening
      rw [← hready r i b hserving] at hn
      obtain ⟨k, hk⟩ := exists_iterate_prove hserving hgenesis hn
      exact ⟨k, by rw [hk, hserving, Serving.step_proving hgenesis, hready r i b hserving]; rfl⟩
  · have hwork : v.work =
        { v with serving := v.serving.step v.ledger.store v.cancelled, tracing := .opening } := by
      unfold work
      split
      · rename_i r i b hserving
        exact absurd ⟨r, i, b, hserving⟩ hproving
      · rfl
    exact ⟨1, by rw [Function.iterate_one, hwork], by
      rw [Function.iterate_one, hwork]
      exact fun _ _ _ _ => rfl⟩

/-- An offer that ends like this, and the cancellation if it fires with it. -/
def offered (attempt : Except TransportError Unit) (cancels : Bool) : List Event :=
  .offer attempt :: if cancels then [.cancel] else []

section Sending
variable {r : BlockRequest} {i : Nat} {b : Block} {m : Message}
  (attempt : Except TransportError Unit) (cancels : Bool)

theorem insert_not_mem_offered (a : Block) : Event.insert a ∉ offered attempt cancels := by
  unfold offered
  split <;> simp

theorem run_offered (hserving : v.serving = .sending r i b m) (hcancelled : v.cancelled = false) :
    v.run log (offered attempt cancels) =
      { v with
        serving := .sent attempt (.sending r i b m)
        cancelled := cancels
        sent := v.sent ++ match attempt with
          | .ok () => [(r.requester, m)]
          | .error _ => [] } := by
  cases cancels <;> cases attempt <;> simp [offered, run, step, offer, hserving, hcancelled]

variable {attempt} in
theorem ready_of_sent (hserving : v.serving = .sent attempt (.sending r i b m)) : v.Ready := by
  intro r' i' b' h
  rw [hserving] at h
  rcases Serving.sent_cases attempt r i b m with ⟨result, h'⟩ | h' <;> rw [h'] at h <;> cases h

end Sending

/-- Events in which nobody else stores a block can lead to this end. -/
def ComesTo (v : Service μ) (sent : List (Address × Message))
    (result : Except ReplicationError Unit) : Prop :=
  ∃ events, (∀ b, Event.insert b ∉ events) ∧ (v.run log events).sent = sent ∧
    (v.run log events).serving = .ended result

section ComesTo
variable {log} {sent : List (Address × Message)} {result : Except ReplicationError Unit}

theorem ComesTo.of_run {first : List Event} (hfirst : ∀ b, Event.insert b ∉ first)
    (h : (v.run log first).ComesTo log sent result) : v.ComesTo log sent result := by
  obtain ⟨events, hevents, hsent, hserving⟩ := h
  rw [← run_append] at hsent hserving
  exact ⟨first ++ events, fun b => by simp [hfirst b, hevents b], hsent, hserving⟩

theorem ComesTo.of_work (k : Nat) (h : (work^[k] v).ComesTo log sent result) :
    v.ComesTo log sent result := by
  rw [← run_replicate_work log] at h
  exact h.of_run (by simp [List.mem_replicate])

end ComesTo

theorem comesTo_cancelled {r : BlockRequest} {i : Nat} {b : Block} {m : Message}
    (hserving : v.serving = .sending r i b m) (hcancelled : v.cancelled = true) :
    v.ComesTo log v.sent (.error .cancelled) :=
  ⟨[.offer (.ok ())], by simp, by simp [run, step, offer, hserving, hcancelled],
    by simp [run, step, offer, hserving, hcancelled, Serving.failed]⟩

theorem comesTo_run (meet : Nat → Serving.Reception) (hready : v.Ready)
    (hbegun : v.serving ≠ .awaiting) :
    v.ComesTo log (v.sent ++ (Serving.run v.ledger.store meet v.cancelled v.serving).1)
      (Serving.run v.ledger.store meet v.cancelled v.serving).2 := by
  -- The induction is on the distance of serving from its end.
  induction hdistance : v.serving.distance v.ledger.store using Nat.strongRecOn generalizing v with
  | ind d ih =>
    subst hdistance
    by_cases hlooks : v.serving.Looks
    · obtain ⟨k, hk, hready'⟩ := exists_iterate_step hready
      obtain ⟨hledger, hcancelled, hsent⟩ := iterate_work_frame k v
      have hcomes := ih _ (Serving.distance_step_lt v.ledger.store v.cancelled hlooks)
        (v := work^[k] v) hready' (hk ▸ Serving.step_ne_awaiting hbegun v.cancelled)
        (by rw [hk, hledger])
      rw [hk, hledger, hcancelled, hsent] at hcomes
      rw [Serving.run_of_looks hlooks]
      exact hcomes.of_work k
    cases hserving : v.serving with
    | awaiting => exact absurd hserving hbegun
    | ended result =>
      rw [Serving.run_ended, List.append_nil]
      exact ⟨[], by simp, rfl, hserving⟩
    | sending r i b m =>
      rw [Serving.run]
      cases hcancelled : v.cancelled with
      | true => simpa using comesTo_cancelled log hserving hcancelled
      | false =>
        cases hattempt : (meet i).attempt with
        | none =>
          -- A requester that never takes the response cancels in the end.
          have hcomes := comesTo_cancelled log (v := { v with cancelled := true }) hserving rfl
          have hfires : (v.run log [.cancel]).ComesTo log v.sent (.error .cancelled) := hcomes
          simpa using hfires.of_run (by simp)
        | some attempt =>
          have hoffered := run_offered log attempt (meet i).cancels hserving hcancelled
          have hsent : (v.run log (offered attempt (meet i).cancels)).serving =
              .sent attempt (.sending r i b m) := by rw [hoffered]
          have hlt := Serving.distance_sent_lt v.ledger.store attempt r i b m
          rw [← hserving] at hlt
          have hcomes := (ih _ hlt (ready_of_sent hsent)
            (hsent ▸ Serving.sent_ne_awaiting attempt r i b m)
            (by rw [hoffered, hserving])).of_run (insert_not_mem_offered attempt (meet i).cancels)
          rw [hoffered] at hcomes
          cases attempt <;> simpa using hcomes
    | _ => exact absurd (hserving ▸ trivial) hlooks

/-- `Serving.serve` comes to what some run comes to in which nobody else stores blocks. -/
theorem exists_events_serve (l : Ledger μ) (request : BlockRequest)
    (meet : Nat → Serving.Reception) :
    ∃ events, (∀ b, Event.insert b ∉ events) ∧
      ((start l request).run log events).sent =
        (Serving.serve l.store meet
          (some (.ok (request.requester, .blockRequest request.target)))).1 ∧
      ((start l request).run log events).serving = .ended
        (Serving.serve l.store meet
          (some (.ok (request.requester, .blockRequest request.target)))).2 :=
  comesTo_run log meet (v := start l request) (fun _ _ _ h => nomatch h) nofun

end CosignedLedger.Service
