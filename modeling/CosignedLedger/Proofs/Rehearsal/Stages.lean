import CosignedLedger.Proofs.Collective.Led
import CosignedLedger.Rehearsal.Basic

/-!
# Stages of a rehearsal

How stages follow each other, and the first of them: the leader and the other members of the first
team open with nothing stored, and the first block reaches all of them.

* `Rehearsal.Stage.Gives`: how a stage ends; `Rehearsal.Stage.Gives.bind` joins two of them.
* `Rehearsal.Gathering`: some members are open, and each holds nothing or the first block.
* `Rehearsal.startLeader_gives`, `Rehearsal.startFollowers_gives`, `Rehearsal.propagate_gives`: it
  begins with the leader, and every member that opens or is sent the block keeps it.
-/

namespace CosignedLedger

namespace Rehearsal.Stage
variable {α β ε : Type} {c c' c'' : Collective} {a : α} {b : β}

/-- The stage ends with this answer and leaves this collective. -/
def Gives (stage : Stage α) (c : Collective) (a : α) (c' : Collective) : Prop :=
  stage.run.run c = (.ok a, c')

theorem Gives.bind {first : Stage α} {rest : α → Stage β} (hfirst : first.Gives c a c')
    (hrest : (rest a).Gives c' b c'') : (first >>= rest).Gives c b c'' := by
  unfold Gives at *
  rw [ExceptT.run_bind, StateT.run_bind, hfirst]
  exact hrest

theorem gives_pure (a : α) (c : Collective) : (pure a : Stage α).Gives c a c := rfl

theorem gives_get (c : Collective) : (get : Stage Collective).Gives c c c := rfl

theorem gives_modify (change : Collective → Collective) (c : Collective) :
    (modify change).Gives c () (change c) := rfl

theorem gives_attempt {explain : ε → RehearsalError}
    {action : Collective → Except ε α × Collective} (h : action c = (.ok a, c')) :
    (attempt explain action).Gives c a c' := by
  show ((action c).1.mapError _, (action c).2) = _
  rw [h]
  rfl

theorem gives_ofExcept {explain : ε → RehearsalError} {result : Except ε α} (h : result = .ok a)
    (c : Collective) : (ofExcept explain result).Gives c a c :=
  gives_attempt (by rw [h])

theorem gives_lookup {found : Except OutOfBounds α} (h : found = .ok a) (c : Collective) :
    (lookup found).Gives c a c := by
  rw [h]
  rfl

end Rehearsal.Stage

namespace Collective

theorem lookup_register (c : Collective) (address other : Address) (handler : Handler) :
    (c.register address handler).lookup other =
      if other = address then .ok handler else c.lookup other := by
  have hfilter : other ≠ address → ∀ handlers : List (Address × Handler),
      (handlers.filter (·.1 ≠ address)).lookup other = handlers.lookup other := by
    intro hother handlers
    induction handlers with
    | nil => rfl
    | cons entry rest ih =>
      obtain ⟨a, h⟩ := entry
      by_cases ha : a = address
      · have hne : (other == a) = false := by simpa [ha] using hother
        rw [List.filter_cons_of_neg (by simp [ha]), ih, List.lookup_cons, hne]
      · rw [List.filter_cons_of_pos (by simp [ha]), List.lookup_cons, List.lookup_cons, ih]
  by_cases hother : other = address
  · subst hother
    simp [Collective.lookup, register]
  · have hlookup := hfilter hother c.handlers
    have hne : (other == address) = false := by simpa using hother
    simp only [Collective.lookup, register, List.lookup_cons, hne, hlookup, if_neg hother]

end Collective

/-! ### Gathering -/

namespace Rehearsal

def freshNode (s : Settings) : Node := ⟨s.node, .empty, .memory []⟩

theorem openNode_gives (explain : StoreError → RehearsalError) (s : Settings) (c : Collective) :
    (Stage.attempt explain (·.openNode s.node (.memory []))).Gives c c.nodes.length
      { c with nodes := c.nodes ++ [freshNode s] } :=
  Stage.gives_attempt rfl

def holdingNode (s : Settings) (genesis : Block) : Node :=
  ⟨s.node, Store.empty.publish genesis, .memory [genesis]⟩

/-- The leader can be reached, no stream is open, and the disk is the given one. -/
structure Ready (disk : Disk) (c : Collective) : Prop where
  serves : c.lookup (memberAddress 0 0) = .ok ⟨0, false⟩
  streams : c.streams = []
  woken : c.woken = []
  capacity : 0 < c.capacity
  disk_eq : c.disk = disk

theorem Ready.of_eq {disk : Disk} {c c' : Collective} (h : Ready disk c)
    (hhandlers : c'.handlers = c.handlers) (hstreams : c'.streams = c.streams)
    (hwoken : c'.woken = c.woken) (hcapacity : c'.capacity = c.capacity)
    (hdisk : c'.disk = c.disk) : Ready disk c' := by
  refine ⟨?_, hstreams ▸ h.streams, hwoken ▸ h.woken, hcapacity ▸ h.capacity, hdisk ▸ h.disk_eq⟩
  rw [Collective.lookup, hhandlers]
  exact h.serves

/-- The members open one after the other and are sent the first block. -/
structure Gathering (s : Settings) (genesis : Block) (disk : Disk) (c : Collective) : Prop
    extends Ready disk c where
  nodes : ∀ n ∈ c.nodes, n = freshNode s ∨ n = holdingNode s genesis
  leader : c.nodes[0]? = some (holdingNode s genesis)
  within : ∀ address handler, c.lookup address = .ok handler → handler.node < c.nodes.length

/-- A first block as an empty store admits it. -/
structure Opening (crypto : Crypto) (s : Settings) (genesis : Block) : Prop where
  index : genesis.index = 0
  previous : genesis.previousHash = .zero
  hashed : genesis.Hashed crypto
  fits : (Block.format.write genesis).length ≤ s.node.maxBlockSize
  word : s.node.maxBlockSize < UInt64.size

section Gathering
variable {crypto : Crypto} {s : Settings} {genesis : Block} {disk : Disk} {c : Collective}

theorem Opening.admits (h : Opening crypto s genesis) : Store.empty.Admits genesis where
  index := h.index
  fresh := rfl
  previous := h.previous
  nonzero hpositive := by
    rw [h.index] at hpositive
    exact absurd hpositive (Nat.lt_irrefl 0)

theorem Opening.insert (h : Opening crypto s genesis) (disk : Disk) :
    (⟨.empty, .memory [], disk⟩ : Ledger (Storage × Disk)).insert Storage.log genesis =
      (.ok (), ⟨Store.empty.publish genesis, .memory [genesis], disk⟩) :=
  Ledger.insert_of_admits h.admits rfl

theorem Opening.acceptGenesis (h : Opening crypto s genesis) {n : Node}
    (hn : n = freshNode s ∨ n = holdingNode s genesis) (disk : Disk) :
    let acted := (⟨n.store, n.storage, disk⟩ : Ledger (Storage × Disk)).acceptGenesis Storage.log
      crypto s.node.maxBlockSize (Block.format.write genesis)
    acted.result = .ok () ∧
      acted.ledger = ⟨Store.empty.publish genesis, .memory [genesis], disk⟩ := by
  have hdecode := decodeBlock_write h.hashed h.fits h.word
  have hgenesis : genesis.isGenesis = true := by simp [Block.isGenesis, h.index]
  unfold Ledger.acceptGenesis
  dsimp only
  rw [hdecode]
  dsimp only
  rw [if_pos hgenesis]
  rcases hn with rfl | rfl
  · have hinsert := h.insert disk
    simp only [freshNode, Store.genesis?, Store.empty, List.head?_nil, Ledger.insertGenesis]
    rw [show (⟨⟨[], []⟩, (.memory [], disk)⟩ : Ledger (Storage × Disk)).insert Storage.log genesis = _
      from hinsert]
    exact ⟨rfl, rfl⟩
  · simp only [holdingNode, Store.genesis?, Store.publish, Store.empty, List.nil_append,
      List.head?_cons, compareGenesis, if_true]
    exact ⟨trivial, trivial⟩

theorem Gathering.setNode (h : Gathering s genesis disk c) (id : Nat) {l : Ledger (Storage × Disk)}
    (hl : l = ⟨Store.empty.publish genesis, .memory [genesis], disk⟩) :
    Gathering s genesis disk (c.setLedger id l) := by
  -- Only the settings of a node are kept, and these are the same for all.
  have hchanged : ∀ n ∈ c.nodes,
      ({ n with store := l.store, storage := l.medium.1 } : Node) = holdingNode s genesis := by
    intro n hn
    rw [hl]
    rcases h.nodes n hn with rfl | rfl <;> rfl
  have hdisk : (c.setLedger id l).disk = c.disk := by
    rw [h.disk_eq, hl]
    rfl
  refine ⟨h.toReady.of_eq rfl rfl rfl rfl hdisk, ?_, ?_, ?_⟩
  · intro n hn
    obtain ⟨j, hj⟩ := List.getElem?_of_mem hn
    simp only [Collective.setLedger, List.getElem?_modify] at hj
    obtain ⟨n', hn', rfl⟩ := Option.map_eq_some_iff.1 hj
    split
    · exact .inr (hchanged n' (List.mem_of_getElem? hn'))
    · exact h.nodes n' (List.mem_of_getElem? hn')
  · simp only [Collective.setLedger, List.getElem?_modify, h.leader]
    split
    · exact congrArg some (hchanged _ (List.mem_of_getElem? h.leader))
    · rfl
  · intro address handler hlookup
    have hlt := h.within address handler hlookup
    simpa [Collective.setLedger] using hlt

theorem Gathering.call (h : Gathering s genesis disk c) (hopening : Opening crypto s genesis)
    {address : Address} {handler : Handler} (hlookup : c.lookup address = .ok handler) :
    ∃ c', c.call crypto address (.propagateGenesis (Block.format.write genesis)) =
        (.ok none, c') ∧ Gathering s genesis disk c' ∧ c'.handlers = c.handlers := by
  obtain ⟨n, hn⟩ : ∃ n, c.nodes[handler.node]? = some n :=
    ⟨_, List.getElem?_eq_getElem (h.within address handler hlookup)⟩
  have hnode : c.node handler.node = n := by rw [Collective.node, hn, Option.getD_some]
  have hkind := h.nodes n (List.mem_of_getElem? hn)
  have hlimit : n.settings = s.node := by rcases hkind with rfl | rfl <;> rfl
  obtain ⟨hresult, hledger⟩ := hopening.acceptGenesis hkind c.disk
  have haccept : (c.ledger handler.node).acceptGenesis Storage.log crypto
      (c.node handler.node).settings.maxBlockSize (Block.format.write genesis) =
      (⟨n.store, n.storage, c.disk⟩ : Ledger (Storage × Disk)).acceptGenesis Storage.log crypto
        s.node.maxBlockSize (Block.format.write genesis) := by
    rw [Collective.ledger, hnode, hlimit]
  refine ⟨(c.process crypto handler.node (.propagateGenesis (Block.format.write genesis))).2, ?_, ?_,
    rfl⟩
  · simp only [Collective.call, hlookup, Collective.process, Collective.act, Ledger.process, haccept,
      hresult]
    rfl
  · simp only [Collective.process, Collective.act, Ledger.process, haccept, hledger]
    have hset := h.setNode handler.node
      (l := ⟨Store.empty.publish genesis, .memory [genesis], c.disk⟩) (by rw [h.disk_eq])
    exact ⟨hset.toReady.of_eq rfl rfl rfl rfl rfl, hset.nodes, hset.leader, hset.within⟩

theorem Gathering.propagateTo (h : Gathering s genesis disk c) (hopening : Opening crypto s genesis)
    (addresses : List Address)
    (hlookup : ∀ a ∈ addresses, ∃ handler, c.lookup a = .ok handler) :
    ∃ c', Collective.propagateTo crypto (Block.format.write genesis) addresses c = ([], c') ∧
      Gathering s genesis disk c' := by
  induction addresses generalizing c with
  | nil => exact ⟨c, rfl, h⟩
  | cons address rest ih =>
    obtain ⟨handler, hhandler⟩ := hlookup address (List.mem_cons_self ..)
    -- Nobody is registered meanwhile, so those that come later are still to be reached.
    obtain ⟨c₁, hcall, h₁, hhandlers⟩ := h.call hopening hhandler
    have hlookup₁ : ∀ a ∈ rest, ∃ handler, c₁.lookup a = .ok handler := by
      intro a ha
      obtain ⟨handler, hhandler⟩ := hlookup a (List.mem_cons_of_mem _ ha)
      exact ⟨handler, by rw [Collective.lookup, hhandlers]; exact hhandler⟩
    obtain ⟨c₂, hrest, h₂⟩ := ih h₁ hlookup₁
    exact ⟨c₂, by simp only [Collective.propagateTo, hcall, hrest], h₂⟩

theorem Gathering.join (h : Gathering s genesis disk c) {address : Address}
    (haddress : address ≠ memberAddress 0 0) :
    Gathering s genesis disk
      (({ c with nodes := c.nodes ++ [freshNode s] } : Collective).register address
        ⟨c.nodes.length, false⟩) := by
  refine ⟨⟨?_, h.streams, h.woken, h.capacity, h.disk_eq⟩, ?_, ?_, ?_⟩
  · rw [Collective.lookup_register, if_neg haddress.symm]
    exact h.serves
  · intro n hn
    rcases List.mem_append.1 hn with hn | hn
    · exact h.nodes n hn
    · exact .inl (List.mem_singleton.1 hn)
  · have hlt := (List.getElem?_eq_some_iff.1 h.leader).1
    show (c.nodes ++ [freshNode s])[0]? = _
    rw [List.getElem?_append_left hlt, h.leader]
  · intro other handler hlookup
    rw [Collective.lookup_register] at hlookup
    show handler.node < (c.nodes ++ [freshNode s]).length
    rw [List.length_append, List.length_singleton]
    split at hlookup
    · cases hlookup
      exact Nat.lt_succ_self _
    · exact Nat.lt_succ_of_lt (h.within other handler hlookup)

theorem startLeader_gives {Key : Type} {teams : List (Team Key)} {first : Team Key}
    (hfirst : teamAt teams s 0 = .ok first)
    (h : Opening crypto s (.genesis crypto first.roster (Bytes.ofText "genesis"))) (disk : Disk)
    (streamBuffer : Nat) :
    ∃ c, (startLeader crypto s teams).Gives (.start disk streamBuffer)
        (0, first, .genesis crypto first.roster (Bytes.ofText "genesis")) c ∧
      Gathering s (.genesis crypto first.roster (Bytes.ofText "genesis")) disk c := by
  generalize hgenesis : Block.genesis crypto first.roster (Bytes.ofText "genesis") = genesis at h
  let opened : Collective := { Collective.start disk streamBuffer with nodes := [freshNode s] }
  let made : Collective := (opened.addCalls Block.draftCalls).setLedger 0
    ⟨Store.empty.publish genesis, .memory [genesis], disk⟩
  have hopen : (Stage.attempt RehearsalError.leaderStore
      (·.openNode s.node (.memory []))).Gives (.start disk streamBuffer) 0 opened :=
    openNode_gives _ s _
  have hmake : (Stage.attempt RehearsalError.genesis
      (·.createGenesis crypto 0 first.roster (Bytes.ofText "genesis"))).Gives opened genesis made := by
    refine Stage.gives_attempt ?_
    have hinsert : ((opened.addCalls Block.draftCalls).ledger 0).insert Storage.log genesis = _ :=
      h.insert disk
    simp only [Collective.createGenesis, Collective.insert, hgenesis, hinsert]
    rfl
  refine ⟨made.register (memberAddress 0 0) ⟨0, false⟩, ?_, ?_⟩
  · refine hopen.bind ((Stage.gives_lookup hfirst _).bind (hmake.bind ?_))
    exact (Stage.gives_modify _ _).bind (Stage.gives_pure _ _)
  have hlookup : ∀ address, made.lookup address = .error (.unreachable address) := fun _ => rfl
  refine ⟨⟨?_, rfl, rfl, ?_, rfl⟩, ?_, rfl, ?_⟩
  · rw [Collective.lookup_register, if_pos rfl]
  · show 0 < max streamBuffer 1
    omega
  · intro n hn
    exact .inr (List.mem_singleton.1 hn)
  · intro address handler haddress
    rw [Collective.lookup_register, hlookup] at haddress
    split at haddress
    · cases haddress
      exact Nat.one_pos
    · cases haddress

theorem startFollowers_gives (h : Gathering s genesis disk c) {members : List Member}
    (hmembers : ∀ m ∈ members, m.address ≠ memberAddress 0 0) :
    ∃ c', (startFollowers s members).Gives c () c' ∧ Gathering s genesis disk c' ∧
      (∀ a, (∃ handler, c.lookup a = .ok handler) → ∃ handler, c'.lookup a = .ok handler) ∧
      ∀ m ∈ members, ∃ handler, c'.lookup m.address = .ok handler := by
  induction members generalizing c with
  | nil => exact ⟨c, Stage.gives_pure () c, h, fun _ ha => ha, fun m hm => by simp at hm⟩
  | cons member rest ih =>
    have hjoined := h.join (hmembers member (List.mem_cons_self ..))
    obtain ⟨c', hgives, hgathering, hkept, hregistered⟩ :=
      ih hjoined fun m hm => hmembers m (List.mem_cons_of_mem _ hm)
    refine ⟨c', (openNode_gives _ s c).bind (.bind (Stage.gives_modify _ _) hgives), hgathering, ?_, ?_⟩
    · rintro a ⟨handler, hhandler⟩
      refine hkept a ?_
      rw [Collective.lookup_register]
      split
      · exact ⟨_, rfl⟩
      · exact ⟨handler, hhandler⟩
    · intro m hm
      rcases List.mem_cons.1 hm with rfl | hm
      · refine hkept _ ?_
        rw [Collective.lookup_register, if_pos rfl]
        exact ⟨_, rfl⟩
      · exact hregistered m hm

theorem propagate_gives {α : Type} [Authority α] (h : Gathering s genesis disk c)
    (hopening : Opening crypto s genesis) (others : α)
    (hlookup : ∀ m ∈ Authority.members others, ∃ handler, c.lookup m.address = .ok handler) :
    ∃ c', (Stage.attempt RehearsalError.propagation (·.propagate crypto others genesis)).Gives
        c () c' ∧
      Gathering s genesis disk c' := by
  have haddresses : ∀ a ∈ (Authority.members others).map (·.address),
      ∃ handler, c.lookup a = .ok handler := by
    intro a ha
    obtain ⟨m, hm, rfl⟩ := List.mem_map.1 ha
    exact hlookup m hm
  obtain ⟨c', hall, hgathering⟩ := h.propagateTo hopening _ haddresses
  exact ⟨c', Stage.gives_attempt (by simp only [Collective.propagate, hall]), hgathering⟩

end Gathering

end Rehearsal

end CosignedLedger
