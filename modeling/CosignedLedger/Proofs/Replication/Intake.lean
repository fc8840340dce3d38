import CosignedLedger.Proofs.Replication.Growth
import CosignedLedger.Proofs.Transparent

/-!
# Nodes fed by peers

A node may run any number of catch-ups at once, each fed by a peer that sends what it likes, and
first blocks are sent to it besides. What happens to the node is a list of events, in whatever
order the responses arrive.

* `Intake.step`, `Intake.run`: what an event does, and what a list of them does.
* `Intake.run_frames`: a single catch-up that is fed all its frames is `Progress.receiveAll`.
* `Intake.run_authorised`: whatever happens, the stored blocks stay authorised, and each event adds
  one block at most and changes none.
-/

namespace CosignedLedger

/-- A node with the catch-ups that it has begun; one that has returned has no progress. -/
structure Intake (μ : Type) where
  ledger : Ledger μ
  streams : List (Option Progress)

namespace Intake

def start {μ : Type} (medium : μ) : Intake μ := ⟨⟨.empty, medium⟩, []⟩

inductive Event where
  /-- Another catch-up begins. -/
  | request (target : Digest)
  /-- A catch-up receives a message, or learns that none will come. -/
  | frame (stream : Nat) (frame : Frame)
  /-- Someone sends what may be a first block. -/
  | genesis (bytes : Bytes)

variable {μ : Type} (log : BlockLog μ) (c : Crypto) (limit : Nat)

def step (n : Intake μ) : Event → Intake μ
  | .request target => { n with streams := n.streams ++ [some (.start target)] }
  | .frame stream frame =>
    match n.streams[stream]? with
    | some (some p) =>
      let acted := p.receive log c limit frame n.ledger
      let next := match acted.result with
        | .ok (p, false) => some p
        | _ => none
      ⟨acted.ledger, n.streams.set stream next⟩
    | _ => n
  | .genesis bytes => { n with ledger := (n.ledger.acceptGenesis log c limit bytes).ledger }

def run (n : Intake μ) (events : List Event) : Intake μ := events.foldl (step log c limit) n

theorem run_frames_of_over {n : Intake μ} {stream : Nat} (h : n.streams[stream]? = some none)
    (frames : List Frame) : n.run log c limit (frames.map (.frame stream)) = n := by
  induction frames with
  | nil => rfl
  | cons frame frames ih =>
    have hstep : n.step log c limit (.frame stream frame) = n := by simp [step, h]
    simp only [run, List.map_cons, List.foldl_cons, hstep]
    exact ih

/-- A catch-up that nothing else comes between leaves what it leaves on its own. -/
theorem run_frames {n : Intake μ} {stream : Nat} {p : Progress}
    (h : n.streams[stream]? = some (some p)) (frames : List Frame) :
    (n.run log c limit (frames.map (.frame stream))).ledger =
      (p.receiveAll log c limit n.ledger frames).ledger := by
  induction frames generalizing n p with
  | nil => rfl
  | cons frame frames ih =>
    have hlt := (List.getElem?_eq_some_iff.1 h).1
    have hrun : n.run log c limit ((frame :: frames).map (.frame stream)) =
        (n.step log c limit (.frame stream frame)).run log c limit (frames.map (.frame stream)) :=
      rfl
    rw [hrun]
    simp only [step, h, Progress.receiveAll]
    cases hresult : (p.receive log c limit frame n.ledger).result with
    | error e =>
      rw [run_frames_of_over log c limit]
      simp [hlt]
    | ok taken =>
      obtain ⟨p', reached⟩ := taken
      cases reached with
      | true =>
        rw [run_frames_of_over log c limit]
        simp [hlt]
      | false =>
        refine ih ?_
        simp [hlt]

theorem step_grows (n : Intake μ) (event : Event) :
    n.ledger.store.Grows c (n.step log c limit event).ledger.store := by
  cases event with
  | request target => exact .same
  | frame stream frame =>
    simp only [step]
    split
    · exact Progress.receive_grows log c limit frame _ _
    · exact .same
  | genesis bytes => exact n.ledger.acceptGenesis_grows log limit c bytes

theorem run_indexed_authorised {n : Intake μ} (hindexed : n.ledger.store.Indexed)
    (hauthorised : Authorised c n.ledger.store.blocks) (events : List Event) :
    (n.run log c limit events).ledger.store.Indexed ∧
      Authorised c (n.run log c limit events).ledger.store.blocks := by
  induction events generalizing n with
  | nil => exact ⟨hindexed, hauthorised⟩
  | cons event events ih =>
    have hgrows := n.step_grows log c limit event
    exact ih (hgrows.indexed hindexed) (hgrows.authorised hindexed hauthorised)

theorem run_start_authorised (medium : μ) (events : List Event) :
    Authorised c ((start medium).run log c limit events).ledger.store.blocks :=
  (run_indexed_authorised log c limit Store.indexed_empty .nil events).2

/-- **No peer can add an unauthorised block.** From a store that is empty or holds authorised
blocks, with every position right as in all stores that can be reached, after any events at all the
blocks are authorised, and the next event adds one block at the end or none. -/
theorem run_authorised {n : Intake μ} (hindexed : n.ledger.store.Indexed)
    (hauthorised : Authorised c n.ledger.store.blocks) (events : List Event) :
    Authorised c (n.run log c limit events).ledger.store.blocks ∧
      ∀ event, ∃ new : Option Block,
        ((n.run log c limit events).step log c limit event).ledger.store.blocks =
          (n.run log c limit events).ledger.store.blocks ++ new.toList :=
  ⟨(run_indexed_authorised log c limit hindexed hauthorised events).2,
    fun event => ((n.run log c limit events).step_grows log c limit event).blocks_eq⟩

open Transparent in
/-- A peer hands over a block that comes next, and someone else sends bytes that are no block. -/
theorem run_authorised_rotated :
    let b := next rotated (one 2) [14]
    let chain := ((rotated.publish b).chainTo b.hash).toOption.getD ⟨[]⟩
    let response := Message.blockResponse (Block.format.write b) (some (Chain.format.write chain))
    let node : Intake (List Block) := ⟨⟨rotated, rotated.blocks⟩, []⟩
    let events : List Event := [.request b.hash, .frame 0 (.ok (⟨"a"⟩, response)), .genesis []]
    let after := node.run .inMemory crypto 1000 events
    after.ledger.store.blocks = rotated.blocks ++ [b] ∧
      Authorised crypto after.ledger.store.blocks ∧
      ∀ event, ∃ new : Option Block,
        (after.step .inMemory crypto 1000 event).ledger.store.blocks =
          after.ledger.store.blocks ++ new.toList :=
  ⟨by decide +kernel,
    run_authorised .inMemory crypto 1000 rotated_reachable.coherent.indexed rotated_authorised _⟩

end Intake

end CosignedLedger
