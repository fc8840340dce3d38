import CosignedLedger.Collective.Network
import CosignedLedger.Proofs.Replication.Relaying

/-!
# Collectives with one leader

In a collective where one node makes all blocks, every node holds the first of them, and every
stream brings nothing else. Here is what each action on a collective does to this.

* `Collective.Led`: the leader holds the blocks, every node holds the first of them, and all that
  streams bring is taken from them.
* `Collective.Led.act`, `Collective.Led.insert`: what a node is sent, and what the leader stores.
* `Collective.Led.propagate`, `Collective.Led.receive`, `Collective.Led.catchUp`: what the network
  does.
-/

namespace CosignedLedger.Collective
variable {leader id : Nat} {blocks : List Block} {c c' : Collective}

/-- The leader holds the blocks, and all others hold the first of them and may be sent the rest. A
limit on the size of a block is a number of 64 bits. -/
structure Led (leader : Nat) (blocks : List Block) (c : Collective) : Prop where
  leading : (c.node leader).store.blocks = blocks
  reachable : (c.node leader).store.Reachable
  following : ∀ id, (c.node id).store.blocks <+: blocks
  limited : ∀ id, (c.node id).settings.maxBlockSize < Bytes.capacity 8
  streams : ∀ s ∈ c.streams, s.Relays blocks

theorem node_setLedger (c : Collective) (id j : Nat) (l : Ledger (Storage × Disk)) :
    (c.setLedger id l).node j = c.node j ∨
    id = j ∧ (c.setLedger id l).node j =
      { c.node j with store := l.store, storage := l.medium.1 } := by
  by_cases hj : id = j
  · subst hj
    cases hnode : c.nodes[id]? with
    | none =>
      left
      simp [node, setLedger, hnode]
    | some n =>
      right
      simp [node, setLedger, hnode]
  · left
    simp [node, setLedger, hj]

theorem node_setLedger_self (h : id < c.nodes.length) (l : Ledger (Storage × Disk)) :
    (c.setLedger id l).node id = { c.node id with store := l.store, storage := l.medium.1 } := by
  simp [node, setLedger, h]

namespace Led

theorem consecutive (h : c.Led leader blocks) : Consecutive blocks :=
  h.leading ▸ h.reachable.coherent.toConsecutive

theorem of_nodes_eq (h : c.Led leader blocks) (hnodes : c'.nodes = c.nodes)
    (hstreams : ∀ s ∈ c'.streams, s.Relays blocks) : c'.Led leader blocks := by
  have hnode : c'.node = c.node := by
    funext id
    rw [node, node, hnodes]
  refine ⟨?_, ?_, ?_, ?_, hstreams⟩
  · rw [hnode]
    exact h.leading
  · rw [hnode]
    exact h.reachable
  · rw [hnode]
    exact h.following
  · rw [hnode]
    exact h.limited

theorem of_eq {α : Type} {acted : α × Collective} {result : α} (h : acted.2.Led leader blocks)
    (heq : acted = (result, c')) : c'.Led leader blocks := by
  rwa [heq] at h

/-- A node draws on the blocks; the leader has them all, so nothing becomes of that. -/
theorem setLedger (h : c.Led leader blocks) {l : Ledger (Storage × Disk)}
    (hl : (c.node id).store.Draws blocks l.store) : (c.setLedger id l).Led leader blocks := by
  have hstore : ∀ j, ((c.setLedger id l).node j).store = (c.node j).store ∨
      (c.node j).store.Draws blocks ((c.setLedger id l).node j).store := by
    intro j
    obtain hsame | ⟨rfl, hnew⟩ := node_setLedger c id j l
    · exact .inl (by rw [hsame])
    · right
      rw [hnew]
      exact hl
  have hleader : ((c.setLedger id l).node leader).store = (c.node leader).store := by
    rcases hstore leader with hsame | hdraws
    · exact hsame
    · exact hdraws.eq_of_blocks_eq h.leading
  refine ⟨hleader ▸ h.leading, hleader ▸ h.reachable, ?_, ?_, h.streams⟩
  · intro j
    rcases hstore j with hsame | hdraws
    · rw [hsame]
      exact h.following j
    · exact hdraws.isPrefix (h.following j)
  · intro j
    obtain hsame | ⟨rfl, hnew⟩ := node_setLedger c id j l
    · rw [hsame]
      exact h.limited j
    · rw [hnew]
      exact h.limited id

theorem act {ε α : Type} (h : c.Led leader blocks)
    {action : Ledger (Storage × Disk) → Acted (Storage × Disk) ε α}
    (haction : (c.node id).store.Draws blocks (action (c.ledger id)).ledger.store) :
    (c.act id action).2.Led leader blocks :=
  (h.setLedger haction).of_nodes_eq rfl (h.setLedger haction).streams

theorem extend (h : c.Led leader blocks) {l : Ledger (Storage × Disk)} (hl : l.store.Reachable)
    (hgrown : blocks <+: l.store.blocks) :
    ∃ blocks', blocks <+: blocks' ∧ (c.setLedger leader l).Led leader blocks' := by
  have hleader := node_setLedger c leader leader l
  have hblocks : blocks <+: ((c.setLedger leader l).node leader).store.blocks := by
    obtain hsame | ⟨_, hnew⟩ := hleader
    · rw [hsame]
      exact h.leading ▸ List.prefix_refl _
    · rwa [hnew]
  refine ⟨_, hblocks, rfl, ?_, ?_, ?_, fun s hs => (h.streams s hs).mono hblocks.subset⟩
  · obtain hsame | ⟨_, hnew⟩ := hleader
    · rw [hsame]
      exact h.reachable
    · rwa [hnew]
  · intro j
    obtain hsame | ⟨rfl, _⟩ := node_setLedger c leader j l
    · rw [hsame]
      exact (h.following j).trans hblocks
    · exact List.prefix_refl _
  · intro j
    obtain hsame | ⟨_, hnew⟩ := node_setLedger c leader j l
    · rw [hsame]
      exact h.limited j
    · rw [hnew]
      exact h.limited j

theorem insert (h : c.Led leader blocks) (b : Block) :
    ∃ blocks', blocks <+: blocks' ∧ (c.insert leader b).2.Led leader blocks' := by
  have hgrown : blocks <+: ((c.ledger leader).insert Storage.log b).2.store.blocks := by
    rw [← h.leading]
    obtain ⟨_, medium, _, hinsert⟩ | ⟨e, medium, hinsert, _⟩ :=
      Ledger.insert_cases Storage.log b (c.ledger leader)
    · rw [hinsert]
      exact List.prefix_append _ _
    · rw [hinsert]
      exact List.prefix_refl _
  exact h.extend (Ledger.reachable_insert h.reachable) hgrown

theorem process (h : c.Led leader blocks) (crypto : Crypto) {b : Block} (hb : b ∈ blocks) :
    (c.process crypto id (.propagateGenesis (Block.format.write b))).2.Led leader blocks :=
  h.act (Ledger.acceptGenesis_draws (l := c.ledger id) Storage.log crypto (h.limited id)
    h.consecutive (h.following id) hb)

theorem call (h : c.Led leader blocks) (crypto : Crypto) (receiver : Address) {b : Block}
    (hb : b ∈ blocks) :
    (c.call crypto receiver (.propagateGenesis (Block.format.write b))).2.Led leader blocks := by
  unfold Collective.call
  split
  · exact h
  · exact h.process crypto hb

theorem propagateTo (crypto : Crypto) {b : Block} (hb : b ∈ blocks) (addresses : List Address)
    (h : c.Led leader blocks) :
    (Collective.propagateTo crypto (Block.format.write b) addresses c).2.Led leader blocks := by
  induction addresses generalizing c with
  | nil => exact h
  | cons address addresses ih =>
    have hrest := ih (h.call crypto address hb)
    unfold Collective.propagateTo
    dsimp only
    split <;> exact hrest

theorem propagate {α : Type} [Authority α] (h : c.Led leader blocks) (crypto : Crypto)
    (authority : α) {b : Block} (hb : b ∈ blocks) :
    (c.propagate crypto authority b).2.Led leader blocks := by
  have hall := propagateTo crypto hb ((Authority.members authority).map (·.address)) h
  unfold Collective.propagate
  dsimp only
  split
  · rename_i heq
    exact hall.of_eq heq
  · rename_i heq
    exact hall.of_eq heq

/-! ### Streams -/

theorem wake (h : c.Led leader blocks) (id : Nat) : (c.wake id).Led leader blocks := by
  unfold Collective.wake
  split
  · exact h
  · exact h.of_nodes_eq rfl h.streams

theorem withStreams (h : c.Led leader blocks) {streams : List Stream}
    (hstreams : ∀ s ∈ streams, s.Relays blocks) :
    ({ c with streams } : Collective).Led leader blocks :=
  h.of_nodes_eq rfl hstreams

theorem setStream (h : c.Led leader blocks) (id : Nat) {s : Stream} (hs : s.Relays blocks) :
    ({ c with streams := c.streams.set id s } : Collective).Led leader blocks := by
  refine h.withStreams ?_
  intro s' hs'
  rcases List.mem_or_eq_of_mem_set hs' with hs' | rfl
  · exact h.streams s' hs'
  · exact hs

theorem relays_of_getElem? (h : c.Led leader blocks) {s : Stream} (hs : c.streams[id]? = some s) :
    s.Relays blocks :=
  h.streams s (List.mem_of_getElem? hs)

theorem openStream (h : c.Led leader blocks) (client server : Address) :
    (c.openStream client server).2.Led leader blocks := by
  unfold Collective.openStream
  split
  · exact h
  · rename_i handler _
    refine (h.withStreams ?_).wake c.streams.length
    intro s hs
    rcases List.mem_append.1 hs with hs | hs
    · exact h.streams s hs
    · rw [List.mem_singleton.1 hs]
      exact Stream.start_relays blocks client server handler c.capacity

theorem enqueue (h : c.Led leader blocks) (id : Nat) (message : Message) (receiver : Address) :
    (c.enqueue id message receiver).2.Led leader blocks := by
  unfold Collective.enqueue
  split
  · exact h
  · rename_i s hs
    split
    · exact h
    · rename_i s' hsend
      refine (h.setStream id ?_).wake id
      unfold Stream.send at hsend
      split at hsend
      · cases hsend
      · split at hsend
        · cases hsend
        · cases hsend
          exact ⟨(h.relays_of_getElem? hs).responses, (h.relays_of_getElem? hs).serving⟩

theorem settleStream (h : c.Led leader blocks) (id : Nat) :
    (c.settleStream id).Led leader blocks := by
  unfold Collective.settleStream
  split
  · exact h
  · rename_i s hs
    have hstore := h.following s.handler.node
    have hset := h.setStream id
      (Stream.settle_relays hstore.subset (h.relays_of_getElem? hs))
    dsimp only
    split
    · split
      · exact hset.of_nodes_eq rfl hset.streams
      · exact hset
    · exact hset

theorem settle (h : c.Led leader blocks) : c.settle.Led leader blocks := by
  have hfold : ∀ (ids : List Nat) {c : Collective}, c.Led leader blocks →
      (ids.foldl Collective.settleStream c).Led leader blocks := by
    intro ids
    induction ids with
    | nil => exact fun h => h
    | cons id ids ih => exact fun h => ih (h.settleStream id)
  exact hfold c.woken (h.of_nodes_eq rfl h.streams)

theorem take? (h : c.Led leader blocks) {frame : Frame} (htake : c.take? id = some (frame, c')) :
    Frame.TakenFrom blocks frame ∧ c'.Led leader blocks := by
  simp only [Collective.take?, Option.bind_eq_bind, Option.bind_eq_some_iff, Prod.exists,
    Option.pure_def, Option.some.injEq, Prod.mk.injEq] at htake
  obtain ⟨s, hs, frame', s', htaken, rfl, rfl⟩ := htake
  have hrelays := h.relays_of_getElem? hs
  unfold Stream.take? at htaken
  split at htaken
  · cases htaken
  · rename_i head rest hresponses
    have hmem : ∀ frame ∈ head :: rest, Frame.TakenFrom blocks frame :=
      hresponses ▸ hrelays.responses
    cases htaken
    refine ⟨hmem _ (List.mem_cons_self ..), (h.setStream id ?_).wake id⟩
    exact ⟨fun frame hframe => hmem frame (List.mem_cons_of_mem _ hframe), hrelays.serving⟩

theorem receive (h : c.Led leader blocks) (id : Nat) :
    Frame.TakenFrom blocks (c.receive id).1 ∧ (c.receive id).2.Led leader blocks := by
  unfold Collective.receive
  split
  · rename_i taken htake
    exact h.take? htake
  · split
    · exact ⟨trivial, h⟩
    · dsimp only
      cases htake : c.settle.take? id with
      | none => exact ⟨trivial, h.settle⟩
      | some taken => exact h.settle.take? htake

theorem modifyStream (h : c.Led leader blocks) (id : Nat) {f : Stream → Stream}
    (hf : ∀ s : Stream, s.Relays blocks → (f s).Relays blocks) :
    (c.modifyStream id f).Led leader blocks := by
  refine (h.withStreams ?_).wake id
  intro s hs
  obtain ⟨j, hj⟩ := List.getElem?_of_mem hs
  simp only [List.getElem?_modify] at hj
  obtain ⟨s', hs', rfl⟩ := Option.map_eq_some_iff.1 hj
  have hrelays := h.relays_of_getElem? hs'
  split
  · exact hf s' hrelays
  · exact hrelays

theorem closeStream (h : c.Led leader blocks) (id : Nat) :
    (c.closeStream id).Led leader blocks :=
  h.modifyStream id fun _ hs => ⟨hs.responses, hs.serving⟩

/-! ### Catching up -/

/-- A node takes a frame that hands over no other blocks than those of the leader. -/
theorem take (h : c.Led leader blocks) (crypto : Crypto) (id : Nat) {frame : Frame}
    (hframe : Frame.TakenFrom blocks frame) (p : Progress) :
    (c.act id fun l => p.receive Storage.log crypto (c.node id).settings.maxBlockSize frame
      l).2.Led leader blocks :=
  h.act (Progress.receive_draws (l := c.ledger id) Storage.log crypto (h.limited id) h.consecutive
    (h.following id) hframe p)

theorem receiveAll (crypto : Crypto) (id stream : Nat) {frames : Nat} {p : Progress}
    (h : c.Led leader blocks) :
    (Collective.receiveAll crypto id stream frames p c).2.Led leader blocks := by
  induction frames generalizing c p with
  | zero => exact h
  | succ frames ih =>
    obtain ⟨hframe, hreceived⟩ := h.receive stream
    have htaken := hreceived.take crypto id hframe p
    unfold Collective.receiveAll
    dsimp only
    split
    · rename_i heq
      exact htaken.of_eq heq
    · rename_i heq
      exact htaken.of_eq heq
    · rename_i heq
      exact ih (htaken.of_eq heq)

theorem catchUp (h : c.Led leader blocks) (crypto : Crypto) (id : Nat) (client server : Address)
    (target : Digest) : (c.catchUp crypto id client server target).2.Led leader blocks := by
  have hopen := h.openStream client server
  unfold Collective.catchUp
  split
  · rename_i heq
    exact hopen.of_eq heq
  · rename_i stream opened heq
    have hsend := (hopen.of_eq heq).enqueue stream (.blockRequest target) server
    split
    · rename_i heq
      exact (hsend.of_eq heq).closeStream stream
    · rename_i heq
      exact (receiveAll crypto id stream (hsend.of_eq heq)).closeStream stream

end Led

end CosignedLedger.Collective
