import CosignedLedger.Collective.Stream
import CosignedLedger.Proofs.Replication.Answers
import CosignedLedger.Proofs.Replication.Growth

/-!
# Passing blocks on

Whoever holds the first blocks of a list and is sent blocks of that list, whatever the order and
the proofs, goes on to hold its first blocks; and whoever holds some of them and serves a stream
sends blocks of the list and no others.

* `Message.TakenFrom`, `Frame.TakenFrom`: messages that hand over no other blocks than those of a
  list.
* `Store.Draws`: a store that stays as it is or takes the next block of the list.
* `Progress.receive_draws`, `Ledger.acceptGenesis_draws`: what either way in does.
* `Stream.Relays`, `Stream.settle_relays`: what the serving side puts into a stream.
-/

namespace CosignedLedger

/-- A response hands over one of the blocks. -/
def Message.TakenFrom (blocks : List Block) : Message → Prop
  | .blockResponse bytes _ => ∃ b ∈ blocks, bytes = Block.format.write b
  | _ => True

def Frame.TakenFrom (blocks : List Block) : Frame → Prop
  | .ok (_, m) => m.TakenFrom blocks
  | .error _ => True

theorem Message.TakenFrom.mono {blocks blocks' : List Block} {m : Message}
    (h : m.TakenFrom blocks) (hblocks : blocks ⊆ blocks') : m.TakenFrom blocks' := by
  cases m with
  | blockResponse bytes chain =>
    obtain ⟨b, hb, hbytes⟩ := h
    exact ⟨b, hblocks hb, hbytes⟩
  | _ => exact h

theorem Frame.TakenFrom.mono {blocks blocks' : List Block} {frame : Frame}
    (h : Frame.TakenFrom blocks frame) (hblocks : blocks ⊆ blocks') :
    Frame.TakenFrom blocks' frame := by
  cases frame with
  | error cause => exact h
  | ok sent => exact Message.TakenFrom.mono h hblocks

theorem eq_of_decodeBlock_write {c : Crypto} {limit : Nat} (hlimit : limit < Bytes.capacity 8)
    {a b : Block} (h : (decodeBlock c limit (Block.format.write b)).result = .ok a) : a = b := by
  obtain ⟨hfit, hdecode, _⟩ := decodeBlock_eq_ok_iff.1 h
  rw [Block.format_exact.decode_write (Nat.lt_of_le_of_lt hfit hlimit)] at hdecode
  cases hdecode
  rfl

namespace Store
variable {blocks : List Block} {s s' : Store}

/-- The store stays as it is, or takes in the block that comes next in the list. -/
inductive Draws (blocks : List Block) (s : Store) : Store → Prop where
  | same : Draws blocks s s
  | next {b : Block} : s.blocks ++ [b] <+: blocks → Draws blocks s (s.publish b)

namespace Draws

theorem isPrefix (h : s.Draws blocks s') (hs : s.blocks <+: blocks) : s'.blocks <+: blocks := by
  cases h with
  | same => exact hs
  | next hnext => exact hnext

theorem eq_of_blocks_eq (h : s.Draws blocks s') (hs : s.blocks = blocks) : s' = s := by
  cases h with
  | same => rfl
  | next hnext =>
    have hle := hnext.length_le
    rw [hs, List.length_append, List.length_singleton] at hle
    omega

end Draws

/-- A block of the list that may come next in the store comes next in the list. -/
theorem Admits.isPrefix {b : Block} (hb : s.Admits b) (hblocks : Consecutive blocks)
    (hs : s.blocks <+: blocks) (hmem : b ∈ blocks) : s.blocks ++ [b] <+: blocks := by
  obtain ⟨i, hi⟩ := List.getElem?_of_mem hmem
  obtain rfl : i = s.blocks.length := by rw [← hblocks.position hi, hb.index, size]
  have htake : blocks.take (s.blocks.length + 1) = s.blocks ++ [b] := by
    rw [List.take_add_one, hi, ← List.prefix_iff_eq_take.1 hs]
    rfl
  rw [← htake]
  exact List.take_prefix _ _

end Store

section Receiving
variable {μ : Type} (log : BlockLog μ) (c : Crypto) {limit : Nat} {blocks : List Block}
  {l : Ledger μ}

theorem Ledger.insert_draws {b : Block} (hblocks : Consecutive blocks)
    (hl : l.store.blocks <+: blocks) (hb : b ∈ blocks) :
    l.store.Draws blocks (l.insert log b).2.store := by
  obtain ⟨hadmits, medium, _, hinsert⟩ | ⟨e, medium, hinsert, _⟩ := insert_cases log b l
  · rw [hinsert]
    exact .next (hadmits.isPrefix hblocks hl hb)
  · rw [hinsert]
    exact .same

theorem Ledger.draws_of_decoded (hlimit : limit < Bytes.capacity 8) (hblocks : Consecutive blocks)
    (hl : l.store.blocks <+: blocks) {b : Block} (hb : b ∈ blocks) {l' : Ledger μ}
    (hstep : l' = l ∨ ∃ a, (decodeBlock c limit (Block.format.write b)).result = .ok a ∧
      l' = (l.insert log a).2) :
    l.store.Draws blocks l'.store := by
  obtain rfl | ⟨a, hdecode, rfl⟩ := hstep
  · exact .same
  · rw [eq_of_decodeBlock_write hlimit hdecode]
    exact insert_draws log hblocks hl hb

theorem Ledger.accept_draws (hlimit : limit < Bytes.capacity 8) (hblocks : Consecutive blocks)
    (hl : l.store.blocks <+: blocks) {b : Block} (hb : b ∈ blocks) (chain : Option Bytes) :
    l.store.Draws blocks (l.accept log c limit (Block.format.write b) chain).ledger.store := by
  refine draws_of_decoded log c hlimit hblocks hl hb ?_
  obtain hsame | ⟨a, hdecode, _, hinsert⟩ :=
    accept_cases log limit c (Block.format.write b) chain l
  · exact .inl hsame
  · exact .inr ⟨a, hdecode, hinsert⟩

theorem Ledger.acceptGenesis_draws (hlimit : limit < Bytes.capacity 8)
    (hblocks : Consecutive blocks) (hl : l.store.blocks <+: blocks) {b : Block} (hb : b ∈ blocks) :
    l.store.Draws blocks (l.acceptGenesis log c limit (Block.format.write b)).ledger.store := by
  refine draws_of_decoded log c hlimit hblocks hl hb ?_
  obtain hsame | ⟨a, hdecode, _, hinsert⟩ :=
    acceptGenesis_cases log limit c (Block.format.write b) l
  · exact .inl hsame
  · exact .inr ⟨a, hdecode, hinsert⟩

theorem Progress.receive_draws (hlimit : limit < Bytes.capacity 8) (hblocks : Consecutive blocks)
    (hl : l.store.blocks <+: blocks) {frame : Frame} (hframe : Frame.TakenFrom blocks frame)
    (p : Progress) : l.store.Draws blocks (p.receive log c limit frame l).ledger.store := by
  unfold receive
  split
  · exact .same
  · rename_i bytes chain
    obtain ⟨b, hb, rfl⟩ := hframe
    exact l.accept_draws log c hlimit hblocks hl hb chain
  · exact .same

end Receiving

section Serving
variable {blocks blocks' : List Block} {store : Store}

def Serving.Relays (blocks : List Block) : Serving → Prop
  | .proving _ _ b => b ∈ blocks
  | .sending _ _ _ response => response.TakenFrom blocks
  | _ => True

theorem Serving.Relays.mono {s : Serving} (h : s.Relays blocks) (hblocks : blocks ⊆ blocks') :
    s.Relays blocks' := by
  cases s with
  | proving request index b => exact hblocks h
  | sending request index b response => exact Message.TakenFrom.mono h hblocks
  | _ => exact h

theorem Serving.step_relays {s : Serving} (hstore : store.blocks ⊆ blocks) (cancelled : Bool)
    (h : s.Relays blocks) : (s.step store cancelled).Relays blocks := by
  cases s with
  | checking request index =>
    simp only [step]
    split
    · trivial
    · split <;> trivial
  | reading request index =>
    simp only [step]
    split
    · trivial
    · rename_i b hread
      exact hstore (List.mem_of_getElem? (Store.read_eq_ok_iff.1 hread))
  | proving request index b =>
    simp only [step]
    split
    · trivial
    · rename_i m hresponse
      obtain ⟨chain, rfl⟩ := exists_eq_blockResponse hresponse
      exact ⟨b, h, rfl⟩
  | _ => exact h

namespace Stream

/-- All that is on its way to the requester, or about to be, are blocks of the list. -/
structure Relays (blocks : List Block) (s : Stream) : Prop where
  responses : ∀ frame ∈ s.responses, Frame.TakenFrom blocks frame
  serving : s.serving.Relays blocks

theorem Relays.mono {s : Stream} (h : s.Relays blocks) (hblocks : blocks ⊆ blocks') :
    s.Relays blocks' :=
  ⟨fun frame hframe => (h.responses frame hframe).mono hblocks, h.serving.mono hblocks⟩

theorem start_relays (blocks : List Block) (client server : Address) (handler : Handler)
    (capacity : Nat) : (start client server handler capacity).Relays blocks :=
  ⟨fun frame hframe => by simp [start] at hframe, trivial⟩

theorem Relays.append {s : Stream} (h : s.Relays blocks) {frame : Frame}
    (hframe : Frame.TakenFrom blocks frame) :
    ∀ frame' ∈ s.responses ++ [frame], Frame.TakenFrom blocks frame' := by
  intro frame' hframe'
  rcases List.mem_append.1 hframe' with hframe' | hframe'
  · exact h.responses frame' hframe'
  · rw [List.mem_singleton.1 hframe']
    exact hframe

theorem sent_relays (attempt : Except TransportError Unit) (s : Serving) (h : s.Relays blocks) :
    (Serving.sent attempt s).Relays blocks := by
  cases s with
  | sending request index b response =>
    simp only [Serving.sent]
    split
    · trivial
    · split <;> trivial
  | _ => exact h

theorem receive_relays (frame : Frame) : (Serving.receive frame).Relays blocks := by
  unfold Serving.receive
  split <;> trivial

/-- The serving side offers what it has read in its own store, passes on what it offers, and ends
with an error at most. -/
theorem step_relays {s s' : Stream} (hstore : store.blocks ⊆ blocks) (h : s.Relays blocks)
    (hstep : s.step store = some s') : s'.Relays blocks := by
  unfold step at hstep
  split at hstep
  · -- It waits for a request.
    split at hstep
    · cases hstep
      exact ⟨h.responses, trivial⟩
    · split at hstep
      · cases hstep
        exact ⟨h.responses, receive_relays _⟩
      · split at hstep
        · cases hstep
        · cases hstep
          exact ⟨h.responses, receive_relays (.error .closed)⟩
  · -- It offers a response.
    rename_i request index b response hserving
    have hresponse : (Serving.sending request index b response).Relays blocks :=
      hserving ▸ h.serving
    split at hstep
    · cases hstep
      exact ⟨h.responses, trivial⟩
    · split at hstep
      · cases hstep
        exact ⟨h.append hresponse, sent_relays (.ok ()) _ hresponse⟩
      · cases hstep
  · -- It has ended and may have an error to tell.
    split at hstep
    · cases hstep
    · split at hstep
      · cases hstep
        exact ⟨h.responses, h.serving⟩
      · split at hstep
        · cases hstep
          exact ⟨h.responses, h.serving⟩
        · split at hstep
          · cases hstep
            exact ⟨h.append trivial, h.serving⟩
          · cases hstep
  · -- It looks at its store.
    cases hstep
    exact ⟨h.responses, Serving.step_relays hstore _ h.serving⟩

theorem runSteps_relays (hstore : store.blocks ⊆ blocks) {steps : Nat} {s : Stream}
    (h : s.Relays blocks) : (s.runSteps store steps).Relays blocks := by
  induction steps generalizing s with
  | zero => exact h
  | succ steps ih =>
    simp only [runSteps]
    split
    · exact h
    · rename_i s' hstep
      exact ih (step_relays hstore h hstep)

theorem settle_relays (hstore : store.blocks ⊆ blocks) {s : Stream} (h : s.Relays blocks) :
    (s.settle store).Relays blocks :=
  runSteps_relays hstore h

end Stream

end Serving

end CosignedLedger
