import CosignedLedger.Proofs.Chain.Completeness
import CosignedLedger.Replication.Serving

/-!
# What is served

The serving side sends one response for each block up to the requested one.

* `Serving.response_eq_ok_iff`: what the response for a block is.
* `Serving.Answers`: the responses from a block on up to the requested one.
* `Serving.run_answers`: a requester that takes every response is sent these, and no others.
* `Serving.exists_answers`: they exist for every stored block if all blocks have responses.
-/

namespace CosignedLedger

namespace Serving
variable {s : Store} {target : Digest}

theorem response_eq_ok_iff {b : Block} {m : Message} : response s b = .ok m ↔
    (b.isGenesis = true ∧ m = .blockResponse (Block.format.write b) none) ∨
    (b.isGenesis = false ∧ ∃ chain, s.chainTo b.hash = .ok chain ∧
      m = .blockResponse (Block.format.write b) (some (Chain.format.write chain))) := by
  unfold response
  cases hgenesis : b.isGenesis with
  | true =>
    simp [packResponse, hgenesis, pure, Except.pure, bind, Except.bind, eq_comm]
  | false =>
    cases s.chainTo b.hash with
    | error e => simp [Except.map, bind, Except.bind]
    | ok chain =>
      simp [packResponse, hgenesis, Except.map, bind, Except.bind, eq_comm]

theorem exists_eq_blockResponse {b : Block} {m : Message} (h : response s b = .ok m) :
    ∃ chain, m = .blockResponse (Block.format.write b) chain := by
  rcases response_eq_ok_iff.1 h with ⟨_, hm⟩ | ⟨_, chain, _, hm⟩
  · exact ⟨_, hm⟩
  · exact ⟨_, hm⟩

/-- The responses for the blocks from `index` on up to the one with the hash `target`. -/
inductive Answers (s : Store) (target : Digest) : (index : Nat) → List Message → Prop where
  | last {i : Nat} {b : Block} {m : Message} :
      s.blocks[i]? = some b → response s b = .ok m → b.hash = target → Answers s target i [m]
  | next {i : Nat} {b : Block} {m : Message} {ms : List Message} :
      s.blocks[i]? = some b → response s b = .ok m → b.hash ≠ target →
      Answers s target (i + 1) ms → Answers s target i (m :: ms)

/-! ### Running alone -/

theorem step_ne_awaiting {serving : Serving} (h : serving ≠ .awaiting) (cancelled : Bool) :
    serving.step s cancelled ≠ .awaiting := by
  intro hstep
  cases serving with
  | checking r i =>
    simp only [step] at hstep
    split at hstep
    · cases hstep
    · split at hstep <;> cases hstep
  | reading r i =>
    simp only [step] at hstep
    split at hstep <;> cases hstep
  | proving r i b =>
    simp only [step] at hstep
    split at hstep <;> cases hstep
  | _ => exact h hstep

theorem sent_ne_awaiting (attempt : Except TransportError Unit) (r : BlockRequest) (i : Nat)
    (b : Block) (m : Message) : sent attempt (sending r i b m) ≠ .awaiting := by
  intro hsent
  rcases sent_cases attempt r i b m with ⟨result, h⟩ | h <;> rw [hsent] at h <;> cases h

section Run
variable {meet : Nat → Reception} {cancelled : Bool} {r : BlockRequest} {i : Nat} {b : Block}
  {m : Message}

theorem run_of_looks {serving : Serving} (h : serving.Looks) :
    run s meet cancelled serving = run s meet cancelled (serving.step s cancelled) := by
  cases serving with
  | checking r i => rw [run]
  | reading r i => rw [run]
  | proving r i b => rw [run]
  | _ => exact h.elim

theorem run_stored (hb : s.blocks[i]? = some b) :
    run s meet false (checking r i) = run s meet false (proving r i b) := by
  have hlt : i < s.size := (List.getElem?_eq_some_iff.1 hb).1
  have hchecking : step s false (checking r i) = reading r i := by
    simp [step, Nat.not_le.2 hlt]
  have hreading : step s false (reading r i) = proving r i b := by
    simp [step, Store.read_eq_ok_iff.2 hb]
  rw [run, hchecking, run, hreading]

theorem run_answered (hb : s.blocks[i]? = some b) (hm : response s b = .ok m) :
    run s meet false (checking r i) = run s meet false (sending r i b m) := by
  rw [run_stored hb, run]
  simp only [step, hm]

theorem run_taken {cancels : Bool} (hmeet : meet i = ⟨cancels, some (.ok ())⟩) :
    run s meet false (sending r i b m) =
      let rest := run s meet cancels (sent (.ok ()) (sending r i b m))
      ((r.requester, m) :: rest.1, rest.2) := by
  rw [run]
  simp [hmeet]

theorem run_ended (result : Except ReplicationError Unit) :
    run s meet cancelled (ended result) = ([], result) := by
  rw [run]

end Run

/-- A requester that takes every response and never cancels. -/
def willing : Nat → Reception := fun _ => ⟨false, some (.ok ())⟩

theorem run_answers {requester : Address} {i : Nat} {ms : List Message} (h : Answers s target i ms) :
    run s willing false (checking ⟨requester, target⟩ i) = (ms.map (requester, ·), .ok ()) := by
  induction h with
  | last hb hm htarget =>
    rw [run_answered hb hm, run_taken rfl]
    simp only [sent, if_pos htarget, run_ended, List.map_cons, List.map_nil]
  | next hb hm htarget _ ih =>
    rw [run_answered hb hm, run_taken rfl]
    simp only [sent, if_neg htarget, ih, List.map_cons]

theorem exists_answers (hs : s.Coherent) (hm : ∀ b ∈ s.blocks, ∃ m, response s b = .ok m) {t : Nat}
    {b : Block} (hb : s.blocks[t]? = some b) :
    ∀ (count : Nat) {i : Nat}, i + count = t →
      ∃ ms, Answers s b.hash i ms ∧ ms.length = count + 1 := by
  intro count
  induction count with
  | zero =>
    rintro i rfl
    obtain ⟨m, hm⟩ := hm b (List.mem_of_getElem? hb)
    exact ⟨[m], .last hb hm rfl, rfl⟩
  | succ count ih =>
    intro i hi
    obtain ⟨ms, hms, hlength⟩ := ih (i := i + 1) (by omega)
    obtain ⟨a, ha⟩ := Store.exists_block_of_le hb (show i ≤ t by omega)
    have ha' := List.mem_of_getElem? ha
    obtain ⟨m, hm⟩ := hm a ha'
    have hne : a.hash ≠ b.hash := by
      intro heq
      have hab := hs.eq_of_hash_eq ha' (List.mem_of_getElem? hb) heq
      have hai := hs.position ha
      rw [hab, hs.position hb] at hai
      omega
    exact ⟨m :: ms, .next ha hm hne hms, by simp [hlength]⟩

theorem serve_answers (hs : s.Coherent) (hm : ∀ b ∈ s.blocks, ∃ m, response s b = .ok m) {t : Nat}
    {b : Block} (hb : s.blocks[t]? = some b) (requester : Address) :
    ∃ ms, Answers s b.hash 0 ms ∧ ms.length = t + 1 ∧
      serve s willing (some (.ok (requester, .blockRequest b.hash))) =
        (ms.map (requester, ·), .ok ()) := by
  obtain ⟨ms, hms, hlength⟩ := exists_answers hs hm hb t (i := 0) (by omega)
  exact ⟨ms, hms, hlength, run_answers hms⟩

end Serving

end CosignedLedger
