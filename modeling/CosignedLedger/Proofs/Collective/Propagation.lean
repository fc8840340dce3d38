import CosignedLedger.Proofs.Collective.Offering

/-!
# Sending a first block to everyone

A propagation calls every address of a roster, in order and as often as it is listed, whatever comes
of the calls before. Every call comes to what it would come to alone: a node that has been sent the
block, or beside which another one has, replies as it would have done before. So no failure of one
member shows at another one, and sending the block once more changes nothing.

* `Collective.Spread`: some nodes have been sent the block, and nothing else has happened.
* `Collective.Spread.process`, `Collective.Spread.call`, `Collective.Spread.callAll`: one more call,
  at a node, at an address, and at all of a list of addresses.
* `Collective.Propagates`: the calls, the failures among them, and what they leave.
* `Collective.propagate_reaches`: so it is with every propagation, and with the same one again.
-/

namespace CosignedLedger.Collective

section
variable {c c' c'' : Collective} {crypto : Crypto} {g : Block} {id : Nat} {told : List Nat}

/-! ### One call after the other -/

/-- Some nodes of a collective have been sent the block, and nothing else has happened. -/
structure Spread (c : Collective) (crypto : Crypto) (g : Block) (told : List Nat)
    (c' : Collective) : Prop where
  handlers : c'.handlers = c.handlers
  length : c'.nodes.length = c.nodes.length
  node : ∀ id, c'.node id = if id ∈ told then c.informed crypto g id else c.node id
  disk : ∃ logged : List Nat, logged.Nodup ∧ (∀ id ∈ logged, id ∈ told ∧ c.Hosts id) ∧
    c'.disk = c.diskAfter g logged

theorem Spread.start (c : Collective) (crypto : Crypto) (g : Block) : c.Spread crypto g [] c where
  handlers := rfl
  length := rfl
  node _ := by simp
  disk := ⟨[], List.nodup_nil, fun _ hid => by simp at hid, rfl⟩

theorem Spread.lookup_eq (h : c.Spread crypto g told c') (address : Address) :
    c'.lookup address = c.lookup address := by
  rw [lookup, lookup, h.handlers]

namespace Spread

theorem awaits_iff (h : c.Spread crypto g told c') (hc : c.Hospitable g) (hid : c.Hosts id) :
    c'.Awaits crypto g id ↔ id ∉ told ∧ c.Awaits crypto g id := by
  by_cases htold : id ∈ told
  · have hnode : c'.node id = c.informed crypto g id := by rw [h.node, if_pos htold]
    refine iff_of_false (fun hawaits => ?_) fun hboth => hboth.1 htold
    by_cases hbefore : c.Awaits crypto g id
    · have hempty := hawaits.empty
      rw [hnode, informed_of_awaits hc hid hbefore] at hempty
      exact Store.empty_ne_publish g hempty.symm
    · rw [Awaits, hnode, informed_of_not_awaits hc hbefore] at hawaits
      exact hbefore hawaits
  · have hnode : c'.node id = c.node id := by rw [h.node, if_neg htold]
    simp [Awaits, hnode, htold]

theorem node_of_not_awaits (h : c.Spread crypto g told c') (hc : c.Hospitable g) (hid : c.Hosts id)
    (hnot : ¬c'.Awaits crypto g id) : c'.node id = c.informed crypto g id := by
  rw [h.node]
  split
  · rfl
  · rename_i htold
    rw [h.awaits_iff hc hid] at hnot
    rw [informed_of_not_awaits hc fun hawaits => hnot ⟨htold, hawaits⟩]

theorem snoc (h : c.Spread crypto g told c') (hhandlers : c''.handlers = c'.handlers)
    (hlength : c''.nodes.length = c'.nodes.length)
    (hnode : c''.node id = c.informed crypto g id)
    (hothers : ∀ j, id ≠ j → c''.node j = c'.node j)
    (hdisk : ∃ logged : List Nat, logged.Nodup ∧ (∀ j ∈ logged, j ∈ told ++ [id] ∧ c.Hosts j) ∧
      c''.disk = c.diskAfter g logged) : c.Spread crypto g (told ++ [id]) c'' where
  handlers := hhandlers.trans h.handlers
  length := hlength.trans h.length
  node j := by
    by_cases hj : id = j
    · subst hj
      rw [hnode, if_pos (by simp)]
    · rw [hothers j hj, h.node]
      simp [Ne.symm hj]
  disk := hdisk

/-- A node answers the same whether others have been sent the block before it or not, and also if
it has been sent the block itself; then nothing changes any more. -/
theorem process (h : c.Spread crypto g told c') (hc : c.Hospitable g) (hid : c.Hosts id) :
    (c'.process crypto id (offering g)).1 = (c.process crypto id (offering g)).1 ∧
      c.Spread crypto g (told ++ [id]) (c'.process crypto id (offering g)).2 ∧
      (id ∈ told → SameNodes c' (c'.process crypto id (offering g)).2) := by
  have hlength : (c'.process crypto id (offering g)).2.nodes.length = c'.nodes.length :=
    List.length_modify _ _ _
  obtain ⟨logged, hnodup, hlogged, hdisk⟩ := h.disk
  by_cases hawaits : c'.Awaits crypto g id
  · obtain ⟨htold, hbefore⟩ := (h.awaits_iff hc hid).1 hawaits
    have hnode : c'.node id = c.node id := by rw [h.node, if_neg htold]
    -- The node has not logged the block, so its log can still take it.
    have hnew : (id :: logged).Nodup :=
      List.nodup_cons.2 ⟨fun hmem => htold (hlogged id hmem).1, hnodup⟩
    have hhosts : ∀ j ∈ id :: logged, c.Hosts j := by
      intro j hj
      rcases List.mem_cons.1 hj with rfl | hj
      · exact hid
      · exact (hlogged j hj).2
    have htakes : (Storage.log.append g ((c'.node id).storage, c'.disk)).1 = .ok () := by
      rw [hnode, hdisk]
      exact hc.takes id logged hnew hhosts
    obtain ⟨hresult, hself, hothers, hafter⟩ :=
      process_of_awaits hawaits (h.length ▸ hc.within id hid) htakes
    obtain ⟨hfirst, _⟩ := process_of_awaits hbefore (hc.within id hid) (hc.takes_first hid)
    refine ⟨hresult.trans hfirst.symm, h.snoc rfl hlength ?_ hothers ⟨logged ++ [id], ?_, ?_, ?_⟩,
      fun hmem => absurd hmem htold⟩
    · rw [hself, informed_of_awaits hc hid hbefore, hnode,
        Storage.append_storage g (c.node id).storage c'.disk c.disk]
    · exact (List.perm_append_singleton id logged).nodup_iff.2 hnew
    · intro j hj
      rcases List.mem_append.1 hj with hj | hj
      · exact ⟨List.mem_append_left _ (hlogged j hj).1, (hlogged j hj).2⟩
      · rw [List.mem_singleton.1 hj]
        exact ⟨by simp, hid⟩
    · rw [hafter, hnode, hdisk, diskAfter, diskAfter, List.foldl_append]
      rfl
  · have hnode := h.node_of_not_awaits hc hid hawaits
    have hreachable : (c'.node id).store.Reachable := hnode ▸ informed_reachable hc hid
    have hlimited : (c'.node id).settings.maxBlockSize < Bytes.capacity 8 := by
      rw [hnode, informed_settings hc hid]
      exact hc.limited id
    obtain ⟨hresult, hsame⟩ := process_of_not_awaits hreachable hlimited hawaits
    refine ⟨?_, h.snoc rfl hlength ?_ ?_ ⟨logged, hnodup, ?_, hsame.disk.trans hdisk⟩,
      fun _ => hsame⟩
    · rw [hresult, process_eq_reply hc hid, hnode, reply_informed hc hid]
    · rw [hsame.node_eq, hnode]
    · exact fun j _ => hsame.node_eq j
    · exact fun j hj => ⟨List.mem_append_left _ (hlogged j hj).1, (hlogged j hj).2⟩

end Spread

/-! ### All calls -/

def callAt (crypto : Crypto) (message : Message) (address : Address) :
    StateM Collective (Address × Except TransportError (Option Message)) := fun c =>
  let (result, c) := c.call crypto address message
  ((address, result), c)

def callAll (crypto : Crypto) (message : Message) (addresses : List Address) :
    StateM Collective (List (Address × Except TransportError (Option Message))) :=
  addresses.mapM (callAt crypto message)

def failure? : Address × Except TransportError (Option Message) → Option (Address × String)
  | (_, .ok _) => none
  | (address, .error e) => some (address, e.message)

theorem callAll_cons (message : Message) (address : Address) (rest : List Address) (c : Collective) :
    (callAll crypto message (address :: rest)).run c =
      ((address, (c.call crypto address message).1) ::
          ((callAll crypto message rest).run (c.call crypto address message).2).1,
        ((callAll crypto message rest).run (c.call crypto address message).2).2) := by
  rw [callAll, List.mapM_cons]
  rfl

theorem propagateTo_eq (addresses : List Address) (c : Collective) :
    propagateTo crypto (Block.format.write g) addresses c =
      (((callAll crypto (offering g) addresses).run c).1.filterMap failure?,
        ((callAll crypto (offering g) addresses).run c).2) := by
  induction addresses generalizing c with
  | nil => rfl
  | cons address rest ih =>
    rw [callAll_cons, propagateTo]
    dsimp only
    rw [← offering, ih]
    rcases c.call crypto address (offering g) with ⟨result, c'⟩
    cases result <;> rfl

def nodesAt (c : Collective) (addresses : List Address) : List Nat :=
  addresses.filterMap fun address => (c.lookup address).toOption.map (·.node)

theorem mem_nodesAt {addresses : List Address} :
    id ∈ c.nodesAt addresses ↔
      ∃ address ∈ addresses, ∃ handler, c.lookup address = .ok handler ∧ handler.node = id := by
  simp only [nodesAt, List.mem_filterMap]
  refine exists_congr fun address => and_congr_right fun _ => ?_
  cases c.lookup address <;> simp [Except.toOption]

theorem nodesAt_cons (address : Address) (rest : List Address) :
    c.nodesAt (address :: rest) = c.nodesAt [address] ++ c.nodesAt rest := by
  rw [nodesAt, ← List.singleton_append, List.filterMap_append]
  rfl

namespace Spread

theorem call (h : c.Spread crypto g told c') (hc : c.Hospitable g) (address : Address) :
    (c'.call crypto address (offering g)).1 = (c.call crypto address (offering g)).1 ∧
      c.Spread crypto g (told ++ c.nodesAt [address]) (c'.call crypto address (offering g)).2 ∧
      ((∀ id ∈ c.nodesAt [address], id ∈ told) →
        SameNodes c' (c'.call crypto address (offering g)).2) := by
  simp only [Collective.call, h.lookup_eq]
  cases hlookup : c.lookup address with
  | error e =>
    have hnodes : c.nodesAt [address] = [] := by simp [nodesAt, hlookup, Except.toOption]
    rw [hnodes, List.append_nil]
    exact ⟨rfl, h, fun _ => ⟨rfl, rfl⟩⟩
  | ok handler =>
    have hnodes : c.nodesAt [address] = [handler.node] := by
      simp [nodesAt, hlookup, Except.toOption]
    obtain ⟨hresult, hspread, hsame⟩ := h.process hc ⟨address, handler, hlookup, rfl⟩
    dsimp only
    rw [hnodes, hresult]
    exact ⟨rfl, hspread, fun htold => hsame (htold _ (List.mem_singleton_self _))⟩

theorem callAll (h : c.Spread crypto g told c') (hc : c.Hospitable g) (addresses : List Address) :
    ((callAll crypto (offering g) addresses).run c').1 =
        addresses.map (fun address => (address, (c.call crypto address (offering g)).1)) ∧
      c.Spread crypto g (told ++ c.nodesAt addresses)
        ((callAll crypto (offering g) addresses).run c').2 ∧
      ((∀ id ∈ c.nodesAt addresses, id ∈ told) →
        SameNodes c' ((callAll crypto (offering g) addresses).run c').2) := by
  induction addresses generalizing c' told with
  | nil =>
    refine ⟨rfl, ?_, fun _ => ⟨rfl, rfl⟩⟩
    show c.Spread crypto g (told ++ []) c'
    rwa [List.append_nil]
  | cons address rest ih =>
    obtain ⟨hresult, hspread, hsame⟩ := h.call hc address
    obtain ⟨hresults, hspread', hsame'⟩ := ih hspread
    rw [callAll_cons, nodesAt_cons, ← List.append_assoc, hresults, hresult]
    refine ⟨rfl, hspread', fun htold => ?_⟩
    have hfirst := hsame fun id hid => htold id (List.mem_append_left _ hid)
    have hrest := hsame' fun id hid =>
      List.mem_append_left _ (htold id (List.mem_append_right _ hid))
    exact ⟨hrest.nodes.trans hfirst.nodes, hrest.disk.trans hfirst.disk⟩

end Spread

/-! ### The whole of a propagation -/

/-- Why an address does not take the block, if there is a reason: nobody answers there, or the node
that does cannot take the block in. -/
def refusal? (c : Collective) (crypto : Crypto) (g : Block) (address : Address) : Option String :=
  match c.lookup address with
  | .error e => some e.message
  | .ok handler =>
    match (c.acceptGenesis crypto handler.node (Block.format.write g)).1 with
    | .ok () => none
    | .error e => some (TransportError.remote e.message).message

/-- The addresses that do not take the block, each as often as it is listed, with the reason. -/
def refusals (c : Collective) (crypto : Crypto) (g : Block) (addresses : List Address) :
    List (Address × String) :=
  addresses.filterMap fun address => (c.refusal? crypto g address).map (address, ·)

theorem mem_refusals {addresses : List Address} {address : Address} {reason : String}
    (hlisted : address ∈ addresses) (h : c.refusal? crypto g address = some reason) :
    (address, reason) ∈ c.refusals crypto g addresses :=
  List.mem_filterMap.2 ⟨address, hlisted, by rw [h]; rfl⟩

theorem failure?_call (c : Collective) (crypto : Crypto) (g : Block) (address : Address) :
    failure? (address, (c.call crypto address (offering g)).1) =
      (c.refusal? crypto g address).map (address, ·) := by
  have hprocess : ∀ id, (c.process crypto id (offering g)).1 =
      (c.acceptGenesis crypto id (Block.format.write g)).1.map fun _ => none := fun _ => rfl
  cases hlookup : c.lookup address with
  | error e => simp [call, refusal?, hlookup, failure?]
  | ok handler =>
    simp only [call, refusal?, hlookup, hprocess]
    cases (c.acceptGenesis crypto handler.node (Block.format.write g)).1 <;> rfl

theorem filterMap_failure? (c : Collective) (crypto : Crypto) (g : Block)
    (addresses : List Address) :
    (addresses.map fun address =>
      (address, (c.call crypto address (offering g)).1)).filterMap failure? =
        c.refusals crypto g addresses := by
  rw [List.filterMap_map, refusals]
  exact List.filterMap_congr fun address _ => failure?_call c crypto g address

/-- What a propagation comes to for the node that answers at one of the addresses. -/
inductive Receives (c : Collective) (g : Block) (failures : List (Address × String))
    (address : Address) (id : Nat) (after : Collective) : Prop where
  | stores : (c.node id).store = .empty → (after.node id).store = Store.empty.publish g →
      Receives c g failures address id after
  | holds {stored : Block} : (c.node id).store.genesis? = some stored → stored.hash = g.hash →
      after.node id = c.node id → Receives c g failures address id after
  | refuses {reason : String} : (address, reason) ∈ failures → after.node id = c.node id →
      Receives c g failures address id after

theorem Spread.receives (h : c.Spread crypto g told c') (hc : c.Hospitable g)
    {addresses : List Address} {address : Address} {handler : Handler}
    (hlisted : address ∈ addresses) (hlookup : c.lookup address = .ok handler)
    (htold : handler.node ∈ told) :
    Receives c g (c.refusals crypto g addresses) address handler.node c' := by
  have hid : c.Hosts handler.node := ⟨address, handler, hlookup, rfl⟩
  have hnode : c'.node handler.node = c.informed crypto g handler.node := by
    rw [h.node, if_pos htold]
  by_cases hawaits : c.Awaits crypto g handler.node
  · refine .stores hawaits.empty ?_
    rw [hnode, informed_of_awaits hc hid hawaits]
  · have hsame := hnode.trans (informed_of_not_awaits hc hawaits)
    cases hreply : (c.node handler.node).reply crypto g with
    | error e =>
      have hrefusal : c.refusal? crypto g address =
          some (TransportError.remote e.message).message := by
        simp only [refusal?, hlookup, acceptGenesis_eq_reply hc hid, hreply]
      exact .refuses (mem_refusals hlisted hrefusal) hsame
    | ok _ =>
      obtain ⟨b, htaken | ⟨hdecode, stored, hstored, hhash⟩⟩ :=
        (hc.reachable handler.node).awaits_or_holds hreply
      · obtain rfl := eq_of_decodeBlock_write (hc.limited handler.node) htaken.decoded
        exact absurd htaken hawaits
      · obtain rfl := eq_of_decodeBlock_write (hc.limited handler.node) hdecode
        exact .holds hstored hhash hsame

/-- The calls of a propagation, the failures among them, and what they leave. -/
structure Propagates (c : Collective) (crypto : Crypto) (g : Block) (addresses : List Address)
    (failures : List (Address × String)) (after : Collective) : Prop where
  /-- Each address is called as often as it is listed, in order, with what comes of it alone. -/
  called : (callAll crypto (offering g) addresses).run c =
    (addresses.map fun address => (address, (c.call crypto address (offering g)).1), after)
  /-- The failures are the calls that have failed. -/
  failed : failures = (addresses.map fun address =>
    (address, (c.call crypto address (offering g)).1)).filterMap failure?
  /-- They are the addresses where nobody answers, or where the block is not taken in. -/
  refused : failures = c.refusals crypto g addresses
  received : ∀ address ∈ addresses, ∀ handler, c.lookup address = .ok handler →
    Receives c g failures address handler.node after
  others : ∀ id ∉ c.nodesAt addresses, after.node id = c.node id

theorem Spread.propagates (hc : c.Hospitable g) (crypto : Crypto) (addresses : List Address) :
    Propagates c crypto g addresses (c.refusals crypto g addresses)
      ((Collective.callAll crypto (offering g) addresses).run c).2 := by
  obtain ⟨hresults, hspread, _⟩ := (Spread.start c crypto g).callAll hc addresses
  rw [List.nil_append] at hspread
  exact
    { called := by
        rw [← hresults]
        rfl
      failed := (filterMap_failure? c crypto g addresses).symm
      refused := rfl
      received := fun address hlisted handler hlookup => hspread.receives hc hlisted hlookup
        (mem_nodesAt.2 ⟨address, hlisted, handler, hlookup, rfl⟩)
      others := fun id hid => by rw [hspread.node, if_neg hid] }

theorem propagate_eq {α : Type} [Authority α] (c : Collective) (crypto : Crypto) (authority : α)
    (g : Block) :
    let called := (callAll crypto (offering g) ((Authority.members authority).map (·.address))).run c
    let failures := called.1.filterMap failure?
    c.propagate crypto authority g =
      (if failures = [] then .ok () else .error (.propagation failures), called.2) := by
  dsimp only
  rw [propagate, propagateTo_eq]
  generalize ((callAll crypto (offering g) _).run c).1.filterMap failure? = failures
  cases failures <;> rfl

/-- Once some nodes have been sent the block, a propagation still fails with what they and the others
refused before. -/
theorem Spread.propagate {α : Type} [Authority α] (h : c.Spread crypto g told c')
    (hc : c.Hospitable g) (authority : α) :
    let addresses := (Authority.members authority).map (·.address)
    let failures := c.refusals crypto g addresses
    c'.propagate crypto authority g =
      (if failures = [] then .ok () else .error (.propagation failures),
        ((Collective.callAll crypto (offering g) addresses).run c').2) := by
  intro addresses failures
  rw [propagate_eq, (h.callAll hc _).1, filterMap_failure?]

/-- **A propagation reaches every member once, and can be repeated.** Every address is called as
often as it is listed, in order, whatever comes of the others. Then each node that answers holds the
block, held one with its hash before, or is among the failures; those are the calls that failed, and
there is an error exactly if there are some. Nobody else is changed. The same propagation again gives
the same result and changes no node and nothing on the disk. -/
theorem propagate_reaches {α : Type} [Authority α] (hc : c.Hospitable g) (crypto : Crypto)
    (authority : α) :
    let addresses := (Authority.members authority).map (·.address)
    let failures := c.refusals crypto g addresses
    let result : Except ReplicationError Unit :=
      if failures = [] then .ok () else .error (.propagation failures)
    let after := (c.propagate crypto authority g).2
    let again := after.propagate crypto authority g
    (c.propagate crypto authority g).1 = result ∧
      Propagates c crypto g addresses failures after ∧
      again.1 = result ∧ SameNodes after again.2 := by
  intro addresses failures result
  have hstart := Spread.start c crypto g
  obtain ⟨_, hspread, _⟩ := hstart.callAll hc addresses
  obtain ⟨_, _, hsame⟩ := hspread.callAll hc addresses
  rw [hstart.propagate hc authority]
  dsimp only
  rw [hspread.propagate hc authority]
  exact ⟨rfl, Spread.propagates hc crypto addresses, rfl,
    hsame fun id hid => List.mem_append_right _ hid⟩

end

section Mixed
open Transparent

def first : Block := Block.genesis crypto (one 1) [10]

/-- A leader, a node without blocks that answers at two addresses, one with another first block, one
that decodes next to nothing, and one that keeps its blocks in a file. -/
def mixed : Collective :=
  let disk := (Disk.empty.openFile "blocks.log").2
  let node (store : Store) (storage : Storage) : Node := ⟨.default, store, storage⟩
  { Collective.start disk 1 with
    nodes := [node (Store.empty.publish first) (.memory [first]), node .empty (.failing 1),
      node (Store.empty.publish { first with hash := .fill 7 }) (.memory []),
      { node .empty (.memory []) with settings := ⟨1, 10, none⟩ }, node .empty (.file "blocks.log")]
    handlers := [(⟨"leader"⟩, ⟨0, false⟩), (⟨"empty"⟩, ⟨1, false⟩), (⟨"alias"⟩, ⟨1, false⟩),
      (⟨"other"⟩, ⟨2, false⟩), (⟨"small"⟩, ⟨3, false⟩), (⟨"disk"⟩, ⟨4, false⟩)] }

/-- The members of a roster with one of them twice and one that is not registered. -/
def members : Roster :=
  ⟨["empty", "missing", "alias", "leader", "other", "small", "disk", "empty"].map fun name =>
    ⟨⟨name⟩, []⟩⟩

theorem mixed_keeps : ∃ location contents, mixed.disk.Keeps "blocks.log" location contents :=
  have hopen : Disk.empty.openFile "blocks.log" = (.ok ["blocks.log"], mixed.disk) := by
    decide +kernel
  ⟨_, _, Disk.keeps_of_openFile hopen⟩

theorem mixed_hospitable : mixed.Hospitable first := by
  have hhosts : ∀ id, mixed.Hosts id → id < 5 := by
    rintro id ⟨address, handler, hlookup, rfl⟩
    have hall : ∀ entry ∈ mixed.handlers, entry.2.node < 5 := by decide
    exact hall _ (mem_handlers_of_lookup hlookup)
  refine hospitable_of_open hhosts ?_ ?_ ?_ rfl (by unfold Record.Fits; decide +kernel)
  · intro id
    match id with
    | 0 | 2 => exact .publish .empty (Store.check_empty_of_linked rfl rfl)
    | 1 | 3 | 4 | _ + 5 => exact .empty
  · intro id
    match id with
    | 0 | 1 | 2 | 3 | 4 => decide
    | id + 5 =>
      show NodeSettings.default.maxBlockSize < Bytes.capacity 8
      decide
  · intro id hid
    match id, hhosts id hid with
    | 0, _ | 2, _ | 3, _ => trivial
    | 1, _ => exact Nat.one_pos
    | 4, _ => exact mixed_keeps

/-- Three of the eight calls fail, and the other five come through all the same. -/
theorem propagate_reaches_mixed :
    let addresses := (Authority.members members).map (·.address)
    let failures := mixed.refusals crypto first addresses
    let result : Except ReplicationError Unit :=
      if failures = [] then .ok () else .error (.propagation failures)
    let after := (mixed.propagate crypto members first).2
    let again := after.propagate crypto members first
    mixed.Hospitable first ∧ failures.map (·.1.name) = ["missing", "other", "small"] ∧
      (mixed.propagate crypto members first).1 = result ∧
      Propagates mixed crypto first addresses failures after ∧
      again.1 = result ∧ SameNodes after again.2 :=
  ⟨mixed_hospitable, by decide +kernel, propagate_reaches mixed_hospitable crypto _⟩

end Mixed

end CosignedLedger.Collective
