import CosignedLedger.Proofs.Collective.Led
import CosignedLedger.Proofs.Replication.Buffering

/-!
# Catching up in a collective

When no other stream is open, a node that catches up takes the frames that its request brings and
nothing else. What the collective does for it, waking and settling, only moves frames from those
that are owed into the queue.

* `Collective.Joined`: a collective with one open stream, and what that stream owes.
* `Collective.Joined.receive`: the node is given the next frame, or told that there is none.
* `Collective.catchUp_outcome`: what a catch-up comes to.
* `Collective.catchUp_completes`: it comes to the target if the other node is an honest peer.
-/

namespace CosignedLedger.Collective
variable {c c' : Collective} {id node : Nat} {store : Store} {s : Stream} {rest : List Frame}
  {n : Nat}

/-- One stream is open, to a node with these blocks. Its serving side has been woken or has to
wait. -/
structure Joined (c : Collective) (node : Nat) (store : Store) (s : Stream) (rest : List Frame)
    (n : Nat) : Prop where
  streams : c.streams = [s]
  served : s.handler.node = node
  store_eq : (c.node node).store = store
  live : s.Live
  owes : s.Owes store rest n
  bounded : n ≤ 4 * store.size + 8
  woken : c.woken = [0] ∨ c.woken = [] ∧ s.step store = none

structure SameNodes (c c' : Collective) : Prop where
  nodes : c'.nodes = c.nodes
  disk : c'.disk = c.disk

theorem SameNodes.node_eq (h : SameNodes c c') (id : Nat) : c'.node id = c.node id := by
  rw [node, node, h.nodes]

theorem SameNodes.ledger_eq (h : SameNodes c c') (id : Nat) : c'.ledger id = c.ledger id := by
  rw [ledger, ledger, h.node_eq, h.disk]

theorem settleStream_sameNodes (c : Collective) (id : Nat) : SameNodes c (c.settleStream id) := by
  unfold settleStream
  split
  · exact ⟨rfl, rfl⟩
  · dsimp only
    split
    · split <;> exact ⟨rfl, rfl⟩
    · exact ⟨rfl, rfl⟩

theorem closeStream_sameNodes (c : Collective) (id : Nat) : SameNodes c (c.closeStream id) := by
  unfold closeStream modifyStream wake
  split <;> exact ⟨rfl, rfl⟩

theorem settleStream_streams (hs : c.streams = [s]) :
    (c.settleStream 0).streams = [s.settle (c.node s.handler.node).store] ∧
      (c.settleStream 0).woken = c.woken := by
  unfold settleStream
  rw [hs]
  dsimp only [List.getElem?_cons_zero]
  split
  · split <;> exact ⟨rfl, rfl⟩
  · exact ⟨rfl, rfl⟩

namespace Joined

theorem take? (h : c.Joined node store s rest n) {frame : Frame} {frames : List Frame}
    (hresponses : s.responses = frame :: frames) :
    ∃ c', c.take? 0 = some (frame, c') ∧ SameNodes c c' ∧
      c'.Joined node store { s with responses := frames } rest n := by
  refine ⟨({ c with streams := [{ s with responses := frames }] } : Collective).wake 0, ?_, ?_, ?_⟩
  · simp [Collective.take?, h.streams, Stream.take?, hresponses]
  · unfold wake
    split <;> exact ⟨rfl, rfl⟩
  · -- Taking a frame wakes the serving side, which now has room.
    have hwoken : (({ c with streams := [{ s with responses := frames }] } : Collective).wake 0) =
        { c with streams := [{ s with responses := frames }], woken := [0] } := by
      unfold wake
      rcases h.woken with hwoken | ⟨hwoken, _⟩ <;> simp [hwoken]
    rw [hwoken]
    exact ⟨rfl, h.served, h.store_eq, ⟨h.live.receiverOpen, h.live.capacity⟩,
      h.owes.withResponses frames, h.bounded, .inl rfl⟩

theorem settle (h : c.Joined node store s rest n) :
    SameNodes c c.settle ∧ ∃ s' new rest' n', c.settle.Joined node store s' rest' n' ∧
      rest = new ++ rest' ∧ s'.responses = s.responses ++ new ∧ s'.step store = none := by
  rcases h.woken with hwoken | ⟨hwoken, hwaits⟩
  · have hsettle : c.settle = settleStream { c with woken := [] } 0 := by
      simp only [Collective.settle, hwoken, List.foldl_cons, List.foldl_nil]
    have hsettled := settleStream_sameNodes { c with woken := [] } 0
    have hsame : SameNodes c c.settle := hsettle ▸ ⟨hsettled.nodes, hsettled.disk⟩
    obtain ⟨hstreams, hwoken'⟩ :=
      settleStream_streams (c := { c with woken := [] }) (s := s) h.streams
    have hstore : (({ c with woken := [] } : Collective).node s.handler.node).store = store := by
      rw [h.served]
      exact h.store_eq
    rw [← hsettle] at hstreams hwoken'
    rw [hstore] at hstreams
    obtain ⟨new, rest', n', hrest, hresponses, hlive, howes, hn, hwaits⟩ :=
      Stream.runSteps_owes h.live h.owes h.bounded
    exact ⟨hsame, s.settle store, new, rest', n',
      { streams := hstreams
        served := by rw [Stream.settle, (Stream.runSteps_keeps _).2, h.served]
        store_eq := by rw [hsame.node_eq, h.store_eq]
        live := hlive
        owes := howes
        bounded := Nat.le_trans hn h.bounded
        woken := .inr ⟨hwoken', hwaits⟩ },
      hrest, hresponses, hwaits⟩
  · have hsettle : c.settle = c := by
      simp only [Collective.settle, hwoken, List.foldl_nil]
      cases c
      cases hwoken
      rfl
    rw [hsettle]
    exact ⟨⟨rfl, rfl⟩, s, [], rest, n, h, rfl, (List.append_nil _).symm, hwaits⟩

theorem receive (h : c.Joined node store s rest n) :
    ∃ c' s' rest' n', SameNodes c c' ∧ c'.Joined node store s' rest' n' ∧
      ((s.responses ++ rest = [] ∧ c.receive 0 = (.error .closed, c')) ∨
        ∃ frame, s.responses ++ rest = frame :: (s'.responses ++ rest') ∧
          c.receive 0 = (frame, c')) := by
  cases hresponses : s.responses with
  | cons frame frames =>
    obtain ⟨c', htake, hsame, hjoined⟩ := h.take? hresponses
    refine ⟨c', _, rest, n, hsame, hjoined, .inr ⟨frame, rfl, ?_⟩⟩
    simp only [Collective.receive, htake]
  | nil =>
    have htake : c.take? 0 = none := by simp [Collective.take?, h.streams, Stream.take?, hresponses]
    have hreleased : c.isReleased 0 = s.released := by simp [isReleased, h.streams]
    cases hreleased' : s.released with
    | true =>
      refine ⟨c, s, rest, n, ⟨rfl, rfl⟩, h, .inl ⟨?_, ?_⟩⟩
      · rw [h.owes.of_released hreleased', List.nil_append]
      · simp only [Collective.receive, htake, hreleased, hreleased', if_true]
    | false =>
      obtain ⟨hsame, s', new, rest', n', hjoined, hrest, hresponses', hwaits⟩ := h.settle
      have hreceive : c.receive 0 = (c.settle.take? 0).getD (.error .closed, c.settle) := by
        simp only [Collective.receive, htake, hreleased, hreleased', Bool.false_eq_true, if_false]
      rw [hresponses, List.nil_append] at hresponses'
      subst hrest
      cases new with
      | nil =>
        -- It waits although its queue is empty, so it has let go of the stream.
        have hroom := hjoined.live.hasRoom hresponses'
        obtain ⟨_, rfl⟩ := Stream.not_blocked hjoined.live hjoined.owes hroom hwaits
        refine ⟨c.settle, s', [], n', hsame, hjoined, .inl ⟨rfl, ?_⟩⟩
        have hnone : c.settle.take? 0 = none := by
          simp [Collective.take?, hjoined.streams, Stream.take?, hresponses']
        rw [hreceive, hnone]
        rfl
      | cons frame frames =>
        obtain ⟨c', htake', hsame', hjoined'⟩ := hjoined.take? hresponses'
        refine ⟨c', _, rest', n', ⟨hsame'.nodes.trans hsame.nodes, hsame'.disk.trans hsame.disk⟩,
          hjoined', .inr ⟨frame, rfl, ?_⟩⟩
        rw [hreceive, htake']
        rfl

theorem act {ε α : Type} (h : c.Joined node store s rest n) (hid : id < c.nodes.length)
    (hne : node ≠ id) (action : Ledger (Storage × Disk) → Acted (Storage × Disk) ε α) :
    (c.act id action).1 = (action (c.ledger id)).result ∧
      (c.act id action).2.ledger id = (action (c.ledger id)).ledger ∧
      (c.act id action).2.Joined node store s rest n ∧
      (c.act id action).2.nodes.length = c.nodes.length ∧
      ((c.act id action).2.node id).settings = (c.node id).settings := by
  have hnode : ∀ j, (c.act id action).2.node j =
      (c.setLedger id (action (c.ledger id)).ledger).node j := fun _ => rfl
  have hnew := node_setLedger_self hid (action (c.ledger id)).ledger
  have hserver : (c.setLedger id (action (c.ledger id)).ledger).node node = c.node node := by
    obtain hsame | ⟨heq, _⟩ := node_setLedger c id node (action (c.ledger id)).ledger
    · exact hsame
    · exact absurd heq.symm hne
  refine ⟨rfl, ?_, ⟨h.streams, h.served, ?_, h.live, h.owes, h.bounded, h.woken⟩, ?_, ?_⟩
  · rw [ledger, hnode, hnew]
    rfl
  · rw [hnode, hserver, h.store_eq]
  · simp [Collective.act, setLedger, addCalls]
  · rw [hnode, hnew]

/-- Taking frames from the stream comes to what taking those that are queued and owed does, and
leaves the serving side its blocks. -/
theorem receiveAll (crypto : Crypto) (h : c.Joined node store s rest n) (hid : id < c.nodes.length)
    (hne : node ≠ id) {limit : Nat} (hlimit : (c.node id).settings.maxBlockSize = limit)
    {frames : Nat} (hframes : (s.responses ++ rest).length < frames) (p : Progress) :
    (Collective.receiveAll crypto id 0 frames p c).1 =
        (p.outcome Storage.log crypto limit (c.ledger id) (s.responses ++ rest)).1 ∧
      (Collective.receiveAll crypto id 0 frames p c).2.ledger id =
        (p.outcome Storage.log crypto limit (c.ledger id) (s.responses ++ rest)).2 ∧
      ((Collective.receiveAll crypto id 0 frames p c).2.node node).store = store := by
  induction frames generalizing c s rest n p with
  | zero => omega
  | succ frames ih =>
    rw [Collective.receiveAll]
    obtain ⟨c', s', rest', n', hsame, hjoined, htaken⟩ := h.receive
    have hid' : id < c'.nodes.length := hsame.nodes ▸ hid
    have hlimit' : (c'.node id).settings.maxBlockSize = limit := by rw [hsame.node_eq, hlimit]
    rcases htaken with ⟨hnone, hreceive⟩ | ⟨frame, hnext, hreceive⟩
    · obtain ⟨_, hledger, hjoined', _⟩ := hjoined.act hid' hne fun l =>
        p.receive Storage.log crypto (c'.node id).settings.maxBlockSize (.error .closed) l
      rw [hnone, hreceive]
      exact ⟨rfl, hledger.trans (hsame.ledger_eq id), hjoined'.store_eq⟩
    · obtain ⟨hresult, hledger, hjoined', hlength, hsettings⟩ := hjoined.act hid' hne fun l =>
        p.receive Storage.log crypto (c'.node id).settings.maxBlockSize frame l
      rw [hlimit'] at hresult hledger hjoined' hlength hsettings
      rw [hsame.ledger_eq] at hresult hledger
      rw [hnext, List.length_cons] at hframes
      rw [hnext, Progress.outcome_cons, hreceive]
      dsimp only
      rw [hlimit']
      generalize c'.act id (fun l => p.receive Storage.log crypto limit frame l) = acted at *
      obtain ⟨result, c''⟩ := acted
      dsimp only at hresult hledger hjoined' hlength hsettings
      rw [← hresult, ← hledger]
      cases result with
      | error e => exact ⟨rfl, rfl, hjoined'.store_eq⟩
      | ok taken =>
        obtain ⟨p', reached⟩ := taken
        cases reached with
        | true => exact ⟨rfl, rfl, hjoined'.store_eq⟩
        | false =>
          exact ih hjoined' (by omega) (by rw [hsettings, hlimit']) (by omega) p'

end Joined

/-- **A catch-up takes the frames that its request brings.** Its result, and the ledger that it
leaves, are those of taking them one by one; the other node keeps its blocks. -/
theorem catchUp_outcome (crypto : Crypto) (hstreams : c.streams = []) (hwoken : c.woken = [])
    (hcapacity : 0 < c.capacity) {server : Address} {handler : Handler}
    (hserver : c.lookup server = .ok handler) (hid : id < c.nodes.length) (hne : handler.node ≠ id)
    (client : Address) (target : Digest) :
    let outcome := (Progress.start target).outcome Storage.log crypto
      (c.node id).settings.maxBlockSize (c.ledger id)
      (Serving.frames (c.node handler.node).store client server target)
    (c.catchUp crypto id client server target).1 = outcome.1 ∧
      (c.catchUp crypto id client server target).2.ledger id = outcome.2 ∧
      ((c.catchUp crypto id client server target).2.node handler.node).store =
        (c.node handler.node).store := by
  let opened : Collective :=
    { c with streams := [.requested client server handler c.capacity target], woken := [0] }
  obtain ⟨n, howes, hn⟩ :=
    Stream.requested_owes (c.node handler.node).store client server handler c.capacity target
  have hjoined : opened.Joined handler.node (c.node handler.node).store
      (.requested client server handler c.capacity target)
      (Serving.frames (c.node handler.node).store client server target) n :=
    ⟨rfl, rfl, rfl, ⟨rfl, hcapacity⟩, howes, by omega, .inl rfl⟩
  have hopen : c.openStream client server = (.ok 0,
      { c with streams := [.start client server handler c.capacity], woken := [0] }) := by
    simp [openStream, hserver, hstreams, hwoken, wake]
  have henqueue : ({ c with streams := [.start client server handler c.capacity], woken := [0] } :
      Collective).enqueue 0 (.blockRequest target) server = (.ok (), opened) := by
    have hsend : (Stream.start client server handler c.capacity).send (.blockRequest target) server =
        .ok (.requested client server handler c.capacity target) := by
      simp [Stream.send, Stream.start, Stream.requested, Stream.outcome?, Nat.ne_of_gt hcapacity]
    simp [enqueue, hsend, wake, opened]
  have hframes : (Serving.frames (c.node handler.node).store client server target).length <
      opened.frameBound 0 := by
    obtain ⟨_, _, _, hlength⟩ :=
      Serving.exists_yields_frames (c.node handler.node).store client server target
    show _ < (c.node handler.node).store.size + 2
    omega
  have hreceived := hjoined.receiveAll crypto hid hne rfl hframes (.start target)
  have hclose := closeStream_sameNodes
    (receiveAll crypto id 0 (opened.frameBound 0) (.start target) opened).2 0
  simp only [catchUp, hopen, henqueue]
  rw [hclose.ledger_eq, hclose.node_eq]
  exact hreceived

/-- A node that holds the first blocks of an honest peer, and whose log takes those up to the
target, comes to hold these. -/
theorem catchUp_completes (crypto : Crypto) (hstreams : c.streams = []) (hwoken : c.woken = [])
    (hcapacity : 0 < c.capacity) {server : Address} {handler : Handler}
    (hserver : c.lookup server = .ok handler) (hid : id < c.nodes.length) (hne : handler.node ≠ id)
    (hserve : (c.node handler.node).store.Serveable crypto (c.node id).settings.maxBlockSize)
    {m : Nat} (hfollows : (c.node id).store.Follows (c.node handler.node).store m) {t : Nat}
    (hlog : (c.ledger id).Takes Storage.log (c.node handler.node).store (t + 1)) {b : Block}
    (hb : (c.node handler.node).store.blocks[t]? = some b) (client : Address) :
    (c.catchUp crypto id client server b.hash).1 =
        .ok ⟨b.hash, t + 1, t + 1 - m, min m (t + 1)⟩ ∧
      ((c.catchUp crypto id client server b.hash).2.node id).store.Follows
        (c.node handler.node).store (max m (t + 1)) ∧
      ((c.catchUp crypto id client server b.hash).2.node handler.node).store =
        (c.node handler.node).store ∧
      (c.catchUp crypto id client server b.hash).2.disk =
        ((c.ledger id).fill Storage.log (c.node handler.node).store (t + 1)).2.2 := by
  obtain ⟨hresult, hledger, hkept⟩ := catchUp_outcome crypto hstreams hwoken hcapacity hserver hid hne
    client b.hash
  obtain ⟨ms, hms, hlength, hframes⟩ := hserve.exists_frames hb client server
  obtain ⟨htaken, hmedium, hheld, _⟩ := Progress.receiveAll_appends Storage.log hserve server
    (p := .start b.hash) hms (l := c.ledger id) hfollows (Nat.zero_le m)
  have hsize : (c.ledger id).store.size = m := hfollows.size_eq
  rw [Ledger.Takes, Ledger.fill, hsize] at hlog
  rw [hframes, Progress.outcome] at hresult hledger
  rw [hlength, Nat.zero_add] at htaken hmedium hheld
  rw [hlog] at htaken
  have hstore := congrArg Ledger.store hledger
  have hdisk := congrArg (·.medium.2) hledger
  refine ⟨?_, ?_, hkept, ?_⟩
  · have hinserted : t + 1 - min m (t + 1) = t + 1 - m := by omega
    rw [hresult, ← hinserted]
    exact htaken.trans (congrArg Except.ok (Progress.advance_start ..))
  · have hfollows' := hheld hlog
    rwa [← hstore] at hfollows'
  · rw [Ledger.fill, hsize, ← hmedium]
    exact hdisk

end CosignedLedger.Collective
