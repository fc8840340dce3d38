import CosignedLedger.Proofs.Collective.CatchingUp
import CosignedLedger.Proofs.Replication.Installation
import CosignedLedger.Proofs.Store.Files

/-!
# Offering a first block to one node

A node to which a block is offered as a first one either takes it, which only an empty store does, or
is left as it is. What it replies is decided by its store alone as long as its log works, and it
would reply the same if it were asked again.

* `Store.reply`: what is replied with a store, and `Store.Awaits`: when the block is taken.
* `Collective.Hospitable`: every log takes the block, whichever nodes have taken it before.
* `Collective.hospitable_of_open`: so it is if all logs are open and the disk has no limit.
* `Collective.process_of_awaits`, `Collective.process_of_not_awaits`: the two outcomes of a call.
* `Collective.reply_informed`: the reply does not change when the block has been offered.
-/

namespace CosignedLedger

namespace Store
variable {s : Store} {crypto : Crypto} {limit : Nat} {bytes : Bytes} {b : Block}

/-- What is replied to the bytes of a first block by whoever has this store, if the log takes
whatever the store admits. -/
def reply (s : Store) (crypto : Crypto) (limit : Nat) (bytes : Bytes) :
    Except ReplicationError Unit :=
  match (decodeBlock crypto limit bytes).result with
  | .error e => .error (.ofCodec e)
  | .ok b =>
    if b.index ≠ 0 then .error (.protocol (.genesisIndex b.index))
    else match s.genesis? with
      | some stored =>
        if stored.hash = b.hash then .ok () else .error (.conflict 0 stored.hash b.hash)
      | none =>
        if b.previousHash = .zero then .ok ()
        else .error (.store (.linkage 0 .zero b.previousHash))

/-- The store is empty, and the bytes are those of a block that it takes for its first one. -/
structure Awaits (s : Store) (crypto : Crypto) (limit : Nat) (bytes : Bytes) (b : Block) :
    Prop where
  empty : s = .empty
  decoded : (decodeBlock crypto limit bytes).result = .ok b
  index : b.index = 0
  previous : b.previousHash = .zero

theorem Awaits.reply (h : s.Awaits crypto limit bytes b) : s.reply crypto limit bytes = .ok () := by
  simp [Store.reply, h.decoded, h.index, h.empty, h.previous, genesis?, Store.empty]

theorem Awaits.reply_publish (h : s.Awaits crypto limit bytes b) :
    (Store.empty.publish b).reply crypto limit bytes = .ok () := by
  simp [Store.reply, h.decoded, h.index, genesis?, Store.empty, publish]

/-- The reply is no error only to a block that is taken or whose hash is that of the first block. -/
theorem Reachable.awaits_or_holds (hs : s.Reachable) (h : s.reply crypto limit bytes = .ok ()) :
    ∃ b, s.Awaits crypto limit bytes b ∨ (decodeBlock crypto limit bytes).result = .ok b ∧
      ∃ stored, s.genesis? = some stored ∧ stored.hash = b.hash := by
  unfold Store.reply at h
  split at h
  · cases h
  · rename_i b hdecode
    refine ⟨b, ?_⟩
    split at h
    · cases h
    · rename_i hindex
      split at h
      · rename_i stored hstored
        split at h
        · rename_i hhash
          exact .inr ⟨hdecode, stored, hstored, hhash⟩
        · cases h
      · rename_i hnone
        split at h
        · rename_i hprevious
          exact .inl ⟨hs.eq_empty hnone, hdecode, Decidable.of_not_not hindex, hprevious⟩
        · cases h

end Store

namespace Ledger
variable {μ : Type} {crypto : Crypto} {limit : Nat} {l : Ledger μ} {bytes : Bytes} {b : Block}

theorem process_of_awaits (log : BlockLog μ) (hl : l.store.Awaits crypto limit bytes b)
    (htakes : (log.append b l.medium).1 = .ok ()) :
    (l.process log crypto limit (.propagateGenesis bytes)).result = .ok none ∧
      (l.process log crypto limit (.propagateGenesis bytes)).ledger =
        ⟨Store.empty.publish b, (log.append b l.medium).2⟩ := by
  have hreachable : l.store.Reachable := hl.empty ▸ .empty
  have hprocess := process_processes log crypto limit hreachable (.propagateGenesis bytes)
  have hmeets := hprocess.meets ⟨bytes, rfl, hl.decoded, hl.index⟩
  generalize (l.process log crypto limit (.propagateGenesis bytes)).result = result at hmeets ⊢
  generalize (l.process log crypto limit (.propagateGenesis bytes)).ledger = l' at hmeets ⊢
  cases hmeets with
  | installed _ _ happend => exact ⟨rfl, by rw [happend]⟩
  | same hstored _ | conflict hstored _ =>
    rw [hl.empty] at hstored
    cases hstored
  | unlinked _ hprevious => exact absurd hl.previous hprevious
  | unlogged _ _ happend _ | vanished _ _ happend _ =>
    rw [happend] at htakes
    cases htakes

theorem process_of_not_awaits (log : BlockLog μ) (hl : l.store.Reachable)
    (hnot : ∀ b, ¬l.store.Awaits crypto limit bytes b) :
    (l.process log crypto limit (.propagateGenesis bytes)).result =
        (l.store.reply crypto limit bytes).map (fun _ => none) ∧
      (l.process log crypto limit (.propagateGenesis bytes)).ledger = l := by
  have hprocess := process_processes log crypto limit hl (.propagateGenesis bytes)
  generalize (l.process log crypto limit (.propagateGenesis bytes)).result = result at hprocess ⊢
  generalize (l.process log crypto limit (.propagateGenesis bytes)).ledger = l' at hprocess ⊢
  cases hprocess with
  | unsupported hother => exact absurd rfl (hother bytes)
  | undecoded hdecode => simp [Store.reply, hdecode, Except.map]
  | later hdecode hindex => simp [Store.reply, hdecode, hindex, Except.map]
  | @first _ b _ _ hdecode hindex hmeets =>
    cases hmeets with
    | same hstored hhash => simp [Store.reply, hdecode, hindex, hstored, hhash, Except.map]
    | conflict hstored hhash => simp [Store.reply, hdecode, hindex, hstored, hhash, Except.map]
    | unlinked hempty hprevious =>
      simp [Store.reply, hdecode, hindex, hempty, hprevious, Store.genesis?, Store.empty, Except.map]
    | unlogged hempty hprevious _ _ | vanished hempty hprevious _ _ | installed hempty hprevious _ =>
      exact absurd ⟨hempty, hdecode, hindex, hprevious⟩ (hnot b)

end Ledger

theorem Storage.append_storage (b : Block) (s : Storage) (d d' : Disk) :
    (Storage.log.append b (s, d)).2.1 = (Storage.log.append b (s, d')).2.1 := by
  cases s <;> rfl

/-- What the node replies to the block as a first one, as long as its log works. -/
def Node.reply (n : Node) (crypto : Crypto) (g : Block) : Except ReplicationError Unit :=
  n.store.reply crypto n.settings.maxBlockSize (Block.format.write g)

namespace Collective
variable {c c' c'' : Collective} {crypto : Crypto} {g : Block} {id : Nat} {told : List Nat}

theorem setLedger_ledger (c : Collective) (id : Nat) : c.setLedger id (c.ledger id) = c := by
  have hnodes : c.nodes.modify id (fun n => { n with
      store := (c.ledger id).store, storage := (c.ledger id).medium.1 }) = c.nodes := by
    refine List.ext_getElem? fun j => ?_
    rw [List.getElem?_modify]
    by_cases hj : id = j
    · subst hj
      cases hnode : c.nodes[id]? with
      | none => rfl
      | some n => simp [ledger, node, hnode]
    · simp [hj]
  rw [setLedger, hnodes]
  rfl

/-! ### Hosts -/

def Hosts (c : Collective) (id : Nat) : Prop :=
  ∃ address handler, c.lookup address = .ok handler ∧ handler.node = id

theorem mem_handlers_of_lookup {address : Address} {handler : Handler}
    (h : c.lookup address = .ok handler) : (address, handler) ∈ c.handlers := by
  unfold lookup at h
  split at h
  · rename_i hfound
    cases h
    obtain ⟨before, later, hsplit, _⟩ := List.lookup_eq_some_iff.1 hfound
    rw [hsplit]
    exact List.mem_append_right _ List.mem_cons_self
  · cases h

/-- The disk after the logs of some nodes have taken a block, one after the other. -/
def diskAfter (c : Collective) (b : Block) (ids : List Nat) : Disk :=
  ids.foldl (fun d id => (Storage.log.append b ((c.node id).storage, d)).2.2) c.disk

theorem open_diskAfter {s : Storage} (h : s.Open c.disk) (hlimit : c.disk.limit = none)
    (ids : List Nat) : s.Open (c.diskAfter g ids) ∧ (c.diskAfter g ids).limit = none := by
  rw [diskAfter]
  generalize c.disk = d at h hlimit ⊢
  induction ids generalizing d with
  | nil => exact ⟨h, hlimit⟩
  | cons id ids ih =>
    obtain ⟨hopen, hsame⟩ := h.beside g (c.node id).storage
    rw [List.foldl_cons]
    exact ih _ hopen (hsame.trans hlimit)

/-- Every handler answers for a node whose log takes the block, whichever of the others have
taken it already. -/
structure Hospitable (c : Collective) (g : Block) : Prop where
  within : ∀ id, c.Hosts id → id < c.nodes.length
  reachable : ∀ id, (c.node id).store.Reachable
  limited : ∀ id, (c.node id).settings.maxBlockSize < Bytes.capacity 8
  takes : ∀ (id : Nat) (before : List Nat), (id :: before).Nodup → (∀ j ∈ id :: before, c.Hosts j) →
    (Storage.log.append g ((c.node id).storage, c.diskAfter g before)).1 = .ok ()

theorem Hospitable.takes_first (hc : c.Hospitable g) (hid : c.Hosts id) :
    (Storage.log.append g ((c.node id).storage, c.disk)).1 = .ok () :=
  hc.takes id [] (by simp) fun _ hj => List.mem_singleton.1 hj ▸ hid

/-- Open logs are hospitable: what one node writes leaves the logs of the others open. -/
theorem hospitable_of_open (hwithin : ∀ id, c.Hosts id → id < c.nodes.length)
    (hreachable : ∀ id, (c.node id).store.Reachable)
    (hlimited : ∀ id, (c.node id).settings.maxBlockSize < Bytes.capacity 8)
    (hopen : ∀ id, c.Hosts id → (c.node id).storage.Open c.disk) (hlimit : c.disk.limit = none)
    (hg : Record.Fits g) : c.Hospitable g where
  within := hwithin
  reachable := hreachable
  limited := hlimited
  takes id before _ hhosts := by
    obtain ⟨hafter, hsame⟩ :=
      open_diskAfter (g := g) (hopen id (hhosts id List.mem_cons_self)) hlimit before
    exact hafter.append hsame hg

/-! ### One call -/

def offering (g : Block) : Message := .propagateGenesis (Block.format.write g)

/-- What a node is after it alone has been sent the block. -/
def informed (c : Collective) (crypto : Crypto) (g : Block) (id : Nat) : Node :=
  (c.process crypto id (offering g)).2.node id

def Awaits (c : Collective) (crypto : Crypto) (g : Block) (id : Nat) : Prop :=
  (c.node id).store.Awaits crypto (c.node id).settings.maxBlockSize (Block.format.write g) g

theorem process_of_awaits (h : c.Awaits crypto g id) (hid : id < c.nodes.length)
    (htakes : (Storage.log.append g ((c.node id).storage, c.disk)).1 = .ok ()) :
    (c.process crypto id (offering g)).1 = .ok none ∧
      (c.process crypto id (offering g)).2.node id =
        { c.node id with
          store := Store.empty.publish g
          storage := (Storage.log.append g ((c.node id).storage, c.disk)).2.1 } ∧
      (∀ j, id ≠ j → (c.process crypto id (offering g)).2.node j = c.node j) ∧
      (c.process crypto id (offering g)).2.disk =
        (Storage.log.append g ((c.node id).storage, c.disk)).2.2 := by
  obtain ⟨hresult, hledger⟩ := Ledger.process_of_awaits (l := c.ledger id) Storage.log h htakes
  have hset : ∀ j, (c.process crypto id (offering g)).2.node j = (c.setLedger id
      ⟨Store.empty.publish g, (Storage.log.append g (c.ledger id).medium).2⟩).node j := by
    intro j
    rw [← hledger]
    rfl
  refine ⟨hresult, ?_, fun j hj => ?_, congrArg (·.medium.2) hledger⟩
  · rw [hset, node_setLedger_self hid]
    rfl
  · rw [hset]
    obtain hsame | ⟨heq, _⟩ := node_setLedger c id j
      ⟨Store.empty.publish g, (Storage.log.append g (c.ledger id).medium).2⟩
    · exact hsame
    · exact absurd heq hj

theorem process_of_not_awaits (hreachable : (c.node id).store.Reachable)
    (hlimited : (c.node id).settings.maxBlockSize < Bytes.capacity 8) (h : ¬c.Awaits crypto g id) :
    (c.process crypto id (offering g)).1 = ((c.node id).reply crypto g).map (fun _ => none) ∧
      SameNodes c (c.process crypto id (offering g)).2 := by
  have hnot : ∀ b, ¬(c.node id).store.Awaits crypto (c.node id).settings.maxBlockSize
      (Block.format.write g) b := by
    intro b hb
    obtain rfl := eq_of_decodeBlock_write hlimited hb.decoded
    exact h hb
  obtain ⟨hresult, hledger⟩ :=
    Ledger.process_of_not_awaits (l := c.ledger id) Storage.log hreachable hnot
  have hset : c.setLedger id ((c.ledger id).process Storage.log crypto
      (c.node id).settings.maxBlockSize (offering g)).ledger = c := by
    rw [offering, hledger, setLedger_ledger]
  have hnodes := congrArg nodes hset
  have hdisk := congrArg disk hset
  exact ⟨hresult, hnodes, hdisk⟩

theorem informed_of_not_awaits (hc : c.Hospitable g) (h : ¬c.Awaits crypto g id) :
    c.informed crypto g id = c.node id :=
  (process_of_not_awaits (hc.reachable id) (hc.limited id) h).2.node_eq id

theorem informed_of_awaits (hc : c.Hospitable g) (hid : c.Hosts id) (h : c.Awaits crypto g id) :
    c.informed crypto g id = { c.node id with
      store := Store.empty.publish g
      storage := (Storage.log.append g ((c.node id).storage, c.disk)).2.1 } :=
  (process_of_awaits h (hc.within id hid) (hc.takes_first hid)).2.1

theorem process_eq_reply (hc : c.Hospitable g) (hid : c.Hosts id) :
    (c.process crypto id (offering g)).1 = ((c.node id).reply crypto g).map (fun _ => none) := by
  by_cases h : c.Awaits crypto g id
  · obtain ⟨hresult, _⟩ :=
      process_of_awaits h (hc.within id hid) (hc.takes_first hid)
    rw [hresult, Node.reply, Store.Awaits.reply h]
    rfl
  · exact (process_of_not_awaits (hc.reachable id) (hc.limited id) h).1

theorem acceptGenesis_eq_reply (hc : c.Hospitable g) (hid : c.Hosts id) :
    (c.acceptGenesis crypto id (Block.format.write g)).1 = (c.node id).reply crypto g := by
  have hprocess : (c.process crypto id (offering g)).1 =
      (c.acceptGenesis crypto id (Block.format.write g)).1.map fun _ => none := rfl
  rw [process_eq_reply hc hid] at hprocess
  generalize (c.acceptGenesis crypto id (Block.format.write g)).1 = result at hprocess ⊢
  generalize (c.node id).reply crypto g = reply at hprocess ⊢
  cases result with
  | error e =>
    cases reply with
    | error e' => exact congrArg Except.error (Except.error.inj hprocess).symm
    | ok _ => cases hprocess
  | ok _ =>
    cases reply with
    | error e' => cases hprocess
    | ok _ => rfl

/-- A node would answer the same if it were asked again. -/
theorem reply_informed (hc : c.Hospitable g) (hid : c.Hosts id) :
    (c.informed crypto g id).reply crypto g = (c.node id).reply crypto g := by
  by_cases h : c.Awaits crypto g id
  · rw [informed_of_awaits hc hid h, Node.reply, Node.reply, Store.Awaits.reply h]
    exact Store.Awaits.reply_publish h
  · rw [informed_of_not_awaits hc h]

theorem informed_reachable (hc : c.Hospitable g) (hid : c.Hosts id) :
    (c.informed crypto g id).store.Reachable := by
  by_cases h : c.Awaits crypto g id
  · rw [informed_of_awaits hc hid h]
    exact .publish .empty (Store.check_empty_of_linked h.index h.previous)
  · rw [informed_of_not_awaits hc h]
    exact hc.reachable id

theorem informed_settings (hc : c.Hospitable g) (hid : c.Hosts id) :
    (c.informed crypto g id).settings = (c.node id).settings := by
  by_cases h : c.Awaits crypto g id
  · rw [informed_of_awaits hc hid h]
  · rw [informed_of_not_awaits hc h]

end Collective

end CosignedLedger
