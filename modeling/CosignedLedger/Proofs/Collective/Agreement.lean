import CosignedLedger.Proofs.Collective.Led
import CosignedLedger.Proofs.Transparent

/-!
# Agreement under one leader

One node of a collective makes blocks and spreads the first of them. All others start without any
and get theirs from the leader or from each other, by first blocks that are sent to them and by
catching up, in whatever order, with logs that fail and streams that are cut off. None of them ever
holds anything but the first blocks of the leader.

* `Fleet`, `Fleet.step`, `Fleet.run`: a collective with the catch-ups that have begun, what an event
  does to it, and what a list of events does. A catch-up is one event, or goes on from frame to frame
  while other things happen.
* `Fleet.step_led`: what one event keeps.
* `Fleet.run_agrees`: after any events, every node holds the first blocks of the leader.
-/

namespace CosignedLedger

structure CatchUp where
  node : Nat
  stream : Nat
  progress : Progress

/-- A collective with the catch-ups that have begun; those that have returned have left nothing. -/
structure Fleet where
  collective : Collective
  underway : List (Option CatchUp)

namespace Collective

def stepStream (c : Collective) (id : Nat) : Collective :=
  match c.streams[id]? with
  | none => c
  | some s =>
    match s.step (c.node s.handler.node).store with
    | none => c
    | some s => { c with streams := c.streams.set id s }

/-- The leader sends its first block to the members that a view lists. -/
def spread (c : Collective) (crypto : Crypto) (leader : Nat) (view : Roster.View) : Collective :=
  match (c.node leader).store.genesis? with
  | none => c
  | some genesis => (c.propagate crypto view genesis).2

theorem Led.stepStream {c : Collective} {leader : Nat} {blocks : List Block}
    (h : c.Led leader blocks) (id : Nat) : (c.stepStream id).Led leader blocks := by
  unfold Collective.stepStream
  split
  · exact h
  · rename_i s hs
    split
    · exact h
    · rename_i s' hstep
      have hstore := h.following s.handler.node
      exact h.setStream id (Stream.step_relays hstore.subset (h.relays_of_getElem? hs) hstep)

theorem Led.spread {c : Collective} {leader : Nat} {blocks : List Block}
    (h : c.Led leader blocks) (crypto : Crypto) (view : Roster.View) :
    (c.spread crypto leader view).Led leader blocks := by
  unfold Collective.spread
  split
  · exact h
  · rename_i genesis hgenesis
    rw [Store.genesis?_eq, h.leading] at hgenesis
    exact h.propagate crypto view (List.mem_of_getElem? hgenesis)

end Collective

namespace Fleet

/-- What can happen: the leader makes blocks and sends the first of them around, addresses come and
go, and nodes catch up, in one go or frame by frame. What a node writes its log to may change at any
time, as when it fills up or is repaired. -/
inductive Event where
  | create (authority : Roster) (payload : Bytes)
  | append (b : Block)
  | spread (view : Roster.View)
  | register (address : Address) (handler : Handler)
  | unregister (address : Address)
  | catchUp (node : Nat) (client server : Address) (target : Digest)
  /-- A node asks for blocks and will take the responses later. -/
  | request (node : Nat) (client server : Address) (target : Digest)
  /-- The serving side of a stream takes a step. -/
  | serve (stream : Nat)
  /-- A catch-up takes the next frame of its stream, if there is one. -/
  | take (catchUp : Nat)
  | cut (catchUp : Nat) (cause : TransportError)
  | medium (node : Nat) (storage : Storage) (disk : Disk)

/-- A catch-up takes a frame. It goes on, or it returns and lets go of its stream. -/
def deliver (f : Fleet) (crypto : Crypto) (i : Nat) (u : CatchUp) (frame : Frame) : Fleet :=
  let limit := (f.collective.node u.node).settings.maxBlockSize
  match f.collective.act u.node fun l => u.progress.receive Storage.log crypto limit frame l with
  | (.ok (p, false), c) => ⟨c, f.underway.set i (some { u with progress := p })⟩
  | (_, c) => ⟨c.closeStream u.stream, f.underway.set i none⟩

def beginCatchUp (f : Fleet) (node : Nat) (client server : Address) (target : Digest) : Fleet :=
  match f.collective.openStream client server with
  | (.error _, c) => { f with collective := c }
  | (.ok stream, c) =>
    match c.enqueue stream (.blockRequest target) server with
    | (.error _, c) => { f with collective := c.closeStream stream }
    | (.ok (), c) => ⟨c, f.underway ++ [some ⟨node, stream, .start target⟩]⟩

def step (crypto : Crypto) (leader : Nat) (f : Fleet) : Event → Fleet
  | .create authority payload =>
    { f with collective := (f.collective.createGenesis crypto leader authority payload).2 }
  | .append b => { f with collective := (f.collective.insert leader b).2 }
  | .spread view => { f with collective := f.collective.spread crypto leader view }
  | .register address handler => { f with collective := f.collective.register address handler }
  | .unregister address => { f with collective := f.collective.unregister address }
  | .catchUp node client server target =>
    { f with collective := (f.collective.catchUp crypto node client server target).2 }
  | .request node client server target => f.beginCatchUp node client server target
  | .serve stream => { f with collective := f.collective.stepStream stream }
  | .take i =>
    match f.underway[i]? with
    | some (some u) =>
      match f.collective.take? u.stream with
      | none => f
      | some (frame, c) => { f with collective := c }.deliver crypto i u frame
    | _ => f
  | .cut i cause =>
    match f.underway[i]? with
    | some (some u) => f.deliver crypto i u (.error cause)
    | _ => f
  | .medium node storage disk =>
    let l : Ledger (Storage × Disk) := ⟨(f.collective.node node).store, storage, disk⟩
    { f with collective := f.collective.setLedger node l }

def run (crypto : Crypto) (leader : Nat) (f : Fleet) (events : List Event) : Fleet :=
  events.foldl (step crypto leader) f

/-- The leader has any store that can be reached, such as the empty one, all other stores are empty,
and no stream is open. -/
structure Fresh (leader : Nat) (f : Fleet) : Prop where
  reachable : (f.collective.node leader).store.Reachable
  others : ∀ id, id ≠ leader → (f.collective.node id).store = .empty
  limits : ∀ n ∈ f.collective.nodes, n.settings.maxBlockSize < UInt64.size
  streams : f.collective.streams = []

section
variable {crypto : Crypto} {leader : Nat} {f : Fleet} {blocks : List Block}

theorem Fresh.led (h : f.Fresh leader) :
    f.collective.Led leader (f.collective.node leader).store.blocks where
  leading := rfl
  reachable := h.reachable
  following := by
    intro id
    by_cases hid : id = leader
    · exact hid ▸ List.prefix_refl _
    · rw [h.others id hid]
      exact List.nil_prefix
  limited := by
    intro id
    rw [Collective.node]
    cases hnode : f.collective.nodes[id]? with
    | none => decide
    | some n => exact h.limits n (List.mem_of_getElem? hnode)
  streams := by
    rw [h.streams]
    exact fun s hs => absurd hs List.not_mem_nil

theorem deliver_led (h : f.collective.Led leader blocks) (i : Nat) (u : CatchUp) {frame : Frame}
    (hframe : Frame.TakenFrom blocks frame) :
    (f.deliver crypto i u frame).collective.Led leader blocks := by
  have htaken := h.take crypto u.node hframe u.progress
  unfold deliver
  dsimp only
  split
  · rename_i heq
    exact htaken.of_eq heq
  · rename_i heq
    exact (htaken.of_eq heq).closeStream u.stream

theorem beginCatchUp_led (h : f.collective.Led leader blocks) (node : Nat) (client server : Address)
    (target : Digest) : (f.beginCatchUp node client server target).collective.Led leader blocks := by
  have hopen := h.openStream client server
  unfold beginCatchUp
  split
  · rename_i heq
    exact hopen.of_eq heq
  · rename_i stream opened heq
    have hsend := (hopen.of_eq heq).enqueue stream (.blockRequest target) server
    split
    · rename_i heq
      exact (hsend.of_eq heq).closeStream stream
    · rename_i heq
      exact hsend.of_eq heq

/-- After an event the leader holds its blocks and perhaps more, and the others the first of them. -/
theorem step_led (crypto : Crypto) (h : f.collective.Led leader blocks) (event : Event) :
    ∃ blocks', blocks <+: blocks' ∧ (f.step crypto leader event).collective.Led leader blocks' := by
  have hsame : (f.step crypto leader event).collective.Led leader blocks →
      ∃ blocks', blocks <+: blocks' ∧
        (f.step crypto leader event).collective.Led leader blocks' :=
    fun h => ⟨blocks, List.prefix_refl _, h⟩
  cases event with
  | create authority payload =>
    have hcalls : (f.collective.addCalls Block.draftCalls).Led leader blocks :=
      h.of_nodes_eq rfl h.streams
    exact hcalls.insert (Block.genesis crypto authority payload)
  | append b => exact h.insert b
  | spread view => exact hsame (h.spread crypto view)
  | register address handler => exact hsame (h.of_nodes_eq rfl h.streams)
  | unregister address => exact hsame (h.of_nodes_eq rfl h.streams)
  | catchUp node client server target => exact hsame (h.catchUp crypto node client server target)
  | request node client server target => exact hsame (beginCatchUp_led h node client server target)
  | serve stream => exact hsame (h.stepStream stream)
  | take i =>
    refine hsame ?_
    simp only [step]
    split
    · rename_i u _
      split
      · exact h
      · rename_i frame c htake
        obtain ⟨hframe, hc⟩ := h.take? htake
        exact deliver_led (f := { f with collective := c }) hc i u hframe
    · exact h
  | cut i cause =>
    refine hsame ?_
    simp only [step]
    split
    · rename_i u _
      exact deliver_led h i u trivial
    · exact h
  | medium node storage disk => exact hsame (h.setLedger .same)

theorem run_led (crypto : Crypto) (h : f.collective.Led leader blocks) (events : List Event) :
    ∃ blocks', blocks <+: blocks' ∧ (f.run crypto leader events).collective.Led leader blocks' := by
  induction events generalizing f blocks with
  | nil => exact ⟨blocks, List.prefix_refl _, h⟩
  | cons event events ih =>
    obtain ⟨blocks', hgrown, hstep⟩ := step_led crypto h event
    obtain ⟨blocks'', hgrown', hrun⟩ := ih hstep
    exact ⟨blocks'', hgrown.trans hgrown', hrun⟩

/-- **All nodes agree with their leader.** Whatever happens in a collective whose blocks are all made
by one leader, at every moment each node holds the first blocks of the leader. -/
theorem run_agrees (crypto : Crypto) (h : f.Fresh leader) (events : List Event) :
    let after := (f.run crypto leader events).collective
    ∀ id, (after.node id).store.blocks <+: (after.node leader).store.blocks := by
  intro after id
  obtain ⟨blocks, _, hled⟩ := run_led crypto h.led events
  rw [hled.leading]
  exact hled.following id

end

section Three
open Transparent

def three : Fleet := ⟨{ Collective.start .empty 2 with nodes := [default, default, default] }, []⟩

/-- The first follower is sent the first block and catches up from the leader. The second asks the
first for the same blocks, while the leader goes on, and its log is full after one of them. -/
def course : List Event :=
  let target := (rotated.blocks[2]?.map (·.hash)).getD .zero
  let serving := List.replicate 8 (Event.serve 1)
  let members : Roster := ⟨[⟨⟨"early"⟩, []⟩, ⟨⟨"late"⟩, []⟩]⟩
  [.create (one 1) [10], .register ⟨"leader"⟩ ⟨0, false⟩, .register ⟨"early"⟩ ⟨1, false⟩,
    .spread (members.excluding ⟨"leader"⟩)] ++
  ((rotated.blocks.drop 1).take 2).map .append ++
  [.catchUp 1 ⟨"early"⟩ ⟨"leader"⟩ target, .medium 2 (.failing 1) .empty,
    .request 2 ⟨"late"⟩ ⟨"early"⟩ target] ++
  serving ++ [.take 0] ++ (rotated.blocks.drop 3).map .append ++ serving ++ [.take 0]

theorem three_fresh : three.Fresh 0 where
  reachable := .empty
  others := by
    intro id _
    show (Collective.node _ id).store = .empty
    match id with
    | 0 | 1 | 2 => rfl
    | _ + 3 => rfl
  limits := by decide
  streams := rfl

theorem run_agrees_three :
    three.Fresh 0 ∧
    (three.run crypto 0 course).collective.nodes.map (·.store.size) = [4, 3, 1] ∧
    ∀ id, ((three.run crypto 0 course).collective.node id).store.blocks <+:
      ((three.run crypto 0 course).collective.node 0).store.blocks :=
  ⟨three_fresh, by decide +kernel, run_agrees crypto three_fresh course⟩

end Three

end Fleet

end CosignedLedger
