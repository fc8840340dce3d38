import CosignedLedger.Proofs.Chain.Length
import CosignedLedger.Proofs.Collective.CatchingUp
import CosignedLedger.Proofs.Rehearsal.Production
import CosignedLedger.Proofs.Store.Files
import CosignedLedger.Proofs.Transparent

/-!
# The report of a rehearsal

A rehearsal that can be played ends well, and its settings decide what it reports. The leader makes
the blocks of the course. The node that has missed everything takes all of them from the leader, and
proves the last one with a link for each epoch on the way.

* `Rehearsal.proveHead_eq`: how many links a proof has.
* `Rehearsal.Leading.caughtUp`: the late node ends with the store of the leader.
* `Rehearsal.Course.stages_gives`: what a rehearsal comes to, whatever its late node is opened with.
* `Rehearsal.run_completes`: the whole of a rehearsal.
-/

namespace CosignedLedger.Rehearsal

/-- What a rehearsal reports if its last block is `head`. -/
def reportOf (s : Settings) (head : Block) : RehearsalReport :=
  let blocks := s.blocks.toNat
  let rotation := s.rotation.toNat
  { head := head.hash
    height := blocks
    authorities := if rotation = 0 then 1 else blocks / rotation + 1
    followers := s.nodes - 1
    proofLinks := if blocks = 0 then 0 else if rotation = 0 then 1
      else (blocks + rotation - 1) / rotation
    caughtUp := ⟨head.hash, blocks + 1, blocks + 1, 0⟩ }

/-- What a rehearsal reports if its late node has held the first blocks. -/
def reportFrom (s : Settings) (head : Block) (held : Nat) : RehearsalReport :=
  { reportOf s head with
    caughtUp := ⟨head.hash, s.blocks.toNat + 1, s.blocks.toNat + 1 - held, held⟩ }

/-! ### The late node -/

theorem proveHead_eq {crypto : Crypto} {store : Store} {epoch : Nat → Nat} (hs : store.Reachable)
    (hauthorised : Authorised crypto store.blocks) (hepochs : store.Epochs epoch) {i : Nat}
    {b : Block} (hb : store.blocks[i]? = some b) :
    proveHead crypto store b.hash =
      .ok (if i = 0 then 0 else epoch (i - 1) - epoch 0 + 1) := by
  obtain ⟨g, hg⟩ := Store.exists_block_of_le hb (Nat.zero_le i)
  obtain ⟨chain, hchain, hverifies⟩ := Store.chainBetween_verifies hs.coherent
    (fun b hb => (hauthorised.hashed b hb).header) hauthorised.signed hg hb (Nat.zero_le i)
  have hproof : store.chainTo b.hash = .ok chain := by rw [Store.chainTo_eq hg, hchain]
  have hlength := hepochs.length_chainTo hs.coherent hb hproof
  have hgenesis : store.genesis? = some g := by rw [Store.genesis?_eq, hg]
  obtain ⟨hverify, _⟩ := hverifies store hs (List.mem_of_getElem? hg)
  unfold proveHead
  rw [hproof, hgenesis, ← hlength]
  simp only [Except.mapError_ok, Except.bind_eq_ok, Except.mapError_eq_ok, Except.pure_eq_ok]
  exact ⟨chain, rfl, (), hverify, rfl⟩

variable {Key : Type} {scheme : Scheme Key} {entropy : Nat → Nat → Bytes} {seed : UInt64}
  {s : Settings} {all : List (Team Key)} {blocks : List Block} {disk : Disk} {c : Collective}

theorem openLagging_gives (hmemory : s.node.dataFolder = none) (c : Collective) :
    (openLagging s).Gives c c.nodes.length { c with nodes := c.nodes ++ [freshNode s] } := by
  unfold openLagging
  rw [hmemory]
  exact openNode_gives _ s c

theorem Leading.all_blocks (h : Leading blocks blocks.length disk c) :
    (c.node 0).store.blocks = blocks := by
  rw [h.blocks_eq, List.take_length]

theorem Leading.serveable (h : Leading blocks blocks.length disk c)
    (hcourse : course scheme s entropy = .ok blocks)
    (hplayable : Playable scheme entropy seed s) (hauthorised : Authorised scheme.crypto blocks) :
    (c.node 0).store.Serveable scheme.crypto s.node.maxBlockSize where
  reachable := h.reachable
  authorised := by
    rw [h.all_blocks]
    exact hauthorised
  word := hplayable.word
  blockFits := by
    rw [h.all_blocks]
    exact hplayable.blocksFit blocks hcourse
  chainFits := by
    have hreplay := h.reachable.replay
    rw [h.all_blocks] at hreplay ⊢
    exact hplayable.chainsFit blocks _ hcourse hreplay

/-- A node that holds the first blocks takes the others from the leader, and ends with the same
store. Its medium is that of its log after these have been appended. -/
theorem Leading.resumed {crypto : Crypto} (h : Leading blocks blocks.length disk c) (late : Node)
    (disk' : Disk) (hserve : (c.node 0).store.Serveable crypto late.settings.maxBlockSize) {m : Nat}
    (hfollows : late.store.Follows (c.node 0).store m) {t : Nat} {head : Block}
    (hhead : blocks[t]? = some head) (hlast : blocks.length = t + 1)
    (hlog : (⟨late.store, late.storage, disk'⟩ : Ledger (Storage × Disk)).Takes Storage.log
      (c.node 0).store (t + 1)) (client : Address) :
    ∃ c', (Stage.attempt RehearsalError.catchUp
        (·.catchUp crypto c.nodes.length client (memberAddress 0 0) head.hash)).Gives
        { c with disk := disk', nodes := c.nodes ++ [late] } ⟨head.hash, t + 1, t + 1 - m, m⟩ c' ∧
      (c'.node c.nodes.length).store = (c.node 0).store ∧
      (c'.node 0).store = (c.node 0).store ∧
      c'.disk = ((⟨late.store, late.storage, disk'⟩ : Ledger (Storage × Disk)).fill Storage.log
        (c.node 0).store (t + 1)).2.2 := by
  let opened : Collective := { c with disk := disk', nodes := c.nodes ++ [late] }
  have hleader : opened.node 0 = c.node 0 := by
    rw [Collective.node, Collective.node, List.getElem?_append_left h.present]
  have hlate : opened.node c.nodes.length = late := by
    simp [Collective.node, opened]
  have hledger : opened.ledger c.nodes.length = ⟨late.store, late.storage, disk'⟩ := by
    rw [Collective.ledger, hlate]
  have hpresent : c.nodes.length < opened.nodes.length := by simp [opened]
  have hhead' : (c.node 0).store.blocks[t]? = some head := by
    rw [h.all_blocks, hhead]
  have hm : m ≤ t + 1 := by
    have hwithin := hfollows.within
    rw [Store.size, h.all_blocks] at hwithin
    omega
  have hserver : opened.lookup (memberAddress 0 0) = .ok ⟨0, false⟩ := h.serves
  rw [← hlate] at hserve hfollows
  rw [← hledger] at hlog ⊢
  rw [← hleader] at hserve hfollows hlog hhead' ⊢
  obtain ⟨hresult, hheld, hkept, hdisk⟩ := Collective.catchUp_completes crypto (c := opened) h.streams
    h.woken h.capacity hserver hpresent (Nat.ne_of_lt h.present) hserve hfollows hlog hhead' client
  rw [Nat.min_eq_left hm] at hresult
  refine ⟨_, Stage.gives_attempt (Prod.ext hresult rfl), ?_, hkept, hdisk⟩
  refine hheld.reachable.eq_of_blocks_eq (hleader ▸ h.reachable) ?_
  rw [hheld.blocks_eq, hleader, h.all_blocks, List.take_of_length_le (by omega)]

theorem Leading.caughtUp {crypto : Crypto} (h : Leading blocks blocks.length disk c)
    (hserve : (c.node 0).store.Serveable crypto s.node.maxBlockSize) {t : Nat} {head : Block}
    (hhead : blocks[t]? = some head) (hlast : blocks.length = t + 1) (client : Address) :
    ∃ c', (Stage.attempt RehearsalError.catchUp
        (·.catchUp crypto c.nodes.length client (memberAddress 0 0) head.hash)).Gives
        { c with nodes := c.nodes ++ [freshNode s] } ⟨head.hash, t + 1, t + 1, 0⟩ c' ∧
      (c'.node c.nodes.length).store = (c.node 0).store ∧
      (c'.node 0).store = (c.node 0).store := by
  have hfollows : (freshNode s).store.Follows (c.node 0).store 0 :=
    ⟨.empty, by rw [List.take_zero]; rfl, Nat.zero_le _⟩
  have hlog : (⟨(freshNode s).store, (freshNode s).storage, c.disk⟩ : Ledger (Storage × Disk)).Takes
      Storage.log (c.node 0).store (t + 1) := by
    rw [Ledger.Takes, Ledger.fill]
    show (Storage.log.appendAll _ (.memory [], c.disk)).1 = .ok ()
    rw [Storage.appendAll_memory]
  obtain ⟨c', hgives, hsame, hkept, _⟩ :=
    h.resumed (freshNode s) c.disk hserve hfollows hhead hlast hlog client
  exact ⟨c', hgives, hsame, hkept⟩

/-! ### The whole -/

theorem Leading.proves (h : Leading blocks blocks.length disk c)
    (hmade : Course scheme entropy s all blocks) (hauthorised : Authorised scheme.crypto blocks)
    (hnodes : 0 < s.nodes) {head : Block} (hhead : blocks[s.blocks.toNat]? = some head) :
    proveHead scheme.crypto (c.node 0).store head.hash = .ok (reportOf s head).proofLinks := by
  have hblocks := h.all_blocks
  have hepochs := hmade.epochs hnodes hblocks
  rw [← hblocks] at hauthorised hhead
  rw [proveHead_eq h.reachable hauthorised hepochs hhead, links_eq]
  rfl

theorem Course.reportOf_eq (h : Course scheme entropy s all blocks) {first : Team Key}
    (hfirst : teamAt all s 0 = .ok first) {head : Block}
    (hhead : blocks[s.blocks.toNat]? = some head) :
    (⟨head.hash, head.index, all.length,
      Authority.size (first.roster.excluding (memberAddress 0 0)), (reportOf s head).proofLinks,
      ⟨head.hash, s.blocks.toNat + 1, s.blocks.toNat + 1, 0⟩⟩ : RehearsalReport) =
      reportOf s head := by
  have hepoch : epochOf s.rotation.toNat 0 = 0 := by
    unfold epochOf
    split
    · rfl
    · exact Nat.zero_div _
  have hteam := h.members _ first (teamAt_eq_ok_iff.1 hfirst)
  rw [hepoch] at hteam
  have hcount : all.length =
      if s.rotation.toNat = 0 then 1 else s.blocks.toNat / s.rotation.toNat + 1 := by
    rw [h.count, epochOf]
    split <;> rfl
  rw [h.position hhead, size_others scheme entropy hteam, hcount]
  rfl

/-- Up to its late node, a rehearsal makes the blocks of the course. It ends well if this node opens
beside the others and comes to have the store of the leader. -/
theorem Course.stages_gives (h : Course scheme entropy s all blocks) (hvalid : s.validate = .ok ())
    (hauthorised : Authorised scheme.crypto blocks) (hstorable : Storable blocks)
    (hword : s.node.maxBlockSize < UInt64.size)
    (hfits : ∀ b ∈ blocks, (Block.format.write b).length ≤ s.node.maxBlockSize)
    (hnodes : 0 < s.nodes) (disk : Disk) :
    ∃ head c, blocks[s.blocks.toNat]? = some head ∧ Leading blocks blocks.length disk c ∧
      ∀ held opened c', (openLagging s).Gives c c.nodes.length opened →
        (Stage.attempt RehearsalError.catchUp (·.catchUp scheme.crypto c.nodes.length ⟨"lagging"⟩
          (memberAddress 0 0) head.hash)).Gives opened (reportFrom s head held).caughtUp c' →
        (c'.node c.nodes.length).store = (c.node 0).store →
        (stages scheme entropy s).Gives (.start disk s.node.streamBuffer) (reportFrom s head held)
          c' := by
  have hlength := h.length_eq
  obtain ⟨head, hhead⟩ : ∃ head, blocks[s.blocks.toNat]? = some head :=
    ⟨_, List.getElem?_eq_getElem (by omega)⟩
  obtain ⟨first, hfirst, hgenesis⟩ := h.first
  have hmember := List.mem_of_getElem? hgenesis
  have hopening : Opening scheme.crypto s (firstBlock scheme first) :=
    ⟨rfl, rfl, h.hashed _ hmember, hfits _ hmember, hword⟩
  -- Up to the first block every node counts, and from there on only the leader does.
  obtain ⟨c₁, hleader, h₁⟩ := startLeader_gives hfirst hopening disk s.node.streamBuffer
  obtain ⟨c₂, hfollowers, h₂, _, hregistered⟩ :=
    startFollowers_gives h₁ fun m hm => address_ne_of_mem_excluding hm
  obtain ⟨c₃, hpropagated, h₃⟩ := propagate_gives h₂ hopening
    (first.roster.excluding (memberAddress 0 0)) hregistered
  have hcount : 0 + 1 + s.blocks.toNat = blocks.length := by omega
  obtain ⟨c₄, hproduced, h₄⟩ := produce_gives h hstorable (h₃.leading hgenesis hopening)
    (Nat.le_of_eq hcount)
  rw [hcount] at h₄
  have hlast : (c₄.node 0).store.last? = some head := by
    rw [Store.last?, h₄.all_blocks, List.getLast?_eq_getElem?, hlength, Nat.add_sub_cancel, hhead]
  refine ⟨head, c₄, hhead, h₄, ?_⟩
  intro held opened c' hopened hcaught hsame
  have hproof := h₄.proves h hauthorised hnodes hhead
  rw [← hsame] at hproof
  refine (Stage.gives_ofExcept hvalid _).bind ?_
  refine (Stage.gives_ofExcept h.teams_eq _).bind ?_
  refine hleader.bind (hfollowers.bind (hpropagated.bind (hproduced.bind ?_)))
  refine (Stage.gives_get c₄).bind ?_
  simp only [hlast]
  refine hopened.bind (hcaught.bind ?_)
  refine (Stage.gives_get c').bind ((Stage.gives_ofExcept hproof c').bind ?_)
  rw [if_neg (by rw [hsame]; exact fun hne => hne rfl), reportFrom, ← h.reportOf_eq hfirst hhead]
  exact Stage.gives_pure _ c'

/-- **A rehearsal that can be played ends well.** It reports the last of the blocks that the leader
has made, the number of authorities, of followers and of links in the proof, and that the late node
has taken every block. -/
theorem run_completes (h : Playable scheme entropy seed s) (disk : Disk) :
    ∃ blocks head c, course scheme s entropy = .ok blocks ∧
      blocks.length = s.blocks.toNat + 1 ∧ blocks[s.blocks.toNat]? = some head ∧
      (stages scheme entropy s).Gives (.start disk s.node.streamBuffer) (reportOf s head) c ∧
      run scheme entropy s disk = (.ok (reportOf s head), c.disk) ∧
      (c.node 0).store.blocks = blocks := by
  obtain ⟨all, blocks, hcourse, hmade⟩ := h.exists_course
  have hauthorised := hmade.authorised h hcourse
  obtain ⟨head, c, hhead, hleading, hends⟩ := hmade.stages_gives h.valid hauthorised
    (hmade.storable h hcourse) h.word (h.blocksFit blocks hcourse) h.nodes_pos disk
  obtain ⟨c', hcaught, hsame, hkept⟩ := hleading.caughtUp
    (hleading.serveable hcourse h hauthorised) hhead hmade.length_eq ⟨"lagging"⟩
  have hstages := hends 0 _ c' (openLagging_gives h.inMemory c) hcaught hsame
  refine ⟨blocks, head, c', hcourse, hmade.length_eq, hhead, hstages, ?_,
    hkept ▸ hleading.all_blocks⟩
  unfold run
  rw [hstages]
  rfl

def short : Settings := ⟨2, 3, 2, some 7, "info", ⟨1, 1000, none⟩⟩

/-- With a cryptography to see through it can be worked out whether a rehearsal can be played. -/
theorem playable_of_course {s : Settings} (hvalid : s.validate = .ok ()) (hseeded : s.seed = some 7)
    (hmemory : s.node.dataFolder = none)
    (hepochs : epochOf s.rotation.toNat s.blocks.toNat + 1 < UInt64.size)
    (hword : s.node.maxBlockSize < UInt64.size)
    (hfacts : ((course Transparent.scheme s fun _ _ => []).toOption.all fun blocks =>
      decide (blocks.map (·.hash)).Nodup &&
      blocks.all (fun b =>
        !b.hash.isZero && decide ((Block.format.write b).length ≤ s.node.maxBlockSize)) &&
      (Store.replay blocks).toOption.all fun store => blocks.all fun b =>
        (store.chainTo b.hash).toOption.all fun chain =>
          decide ((Chain.format.write chain).length ≤ s.node.maxBlockSize)) = true) :
    Playable Transparent.scheme (fun _ _ => []) 7 s := by
  have hblocks : ∀ blocks, course Transparent.scheme s (fun _ _ => []) = .ok blocks →
      (blocks.map (·.hash)).Nodup ∧
      (∀ b ∈ blocks, b.hash.isZero = false ∧
        (Block.format.write b).length ≤ s.node.maxBlockSize) ∧
      ∀ store, Store.replay blocks = .ok store → ∀ b ∈ blocks, ∀ chain,
        store.chainTo b.hash = .ok chain →
          (Chain.format.write chain).length ≤ s.node.maxBlockSize := by
    intro blocks hcourse
    simp only [hcourse, Except.toOption, Option.all_some, Bool.and_eq_true, decide_eq_true_eq,
      List.all_eq_true, Bool.not_eq_true'] at hfacts
    obtain ⟨⟨hdistinct, hblocks⟩, hchains⟩ := hfacts
    refine ⟨hdistinct, hblocks, ?_⟩
    intro store hstore b hb chain hchain
    rw [hstore] at hchains
    have hfits := List.all_eq_true.1 hchains b hb
    rw [hchain] at hfits
    simpa using hfits
  exact
    { valid := hvalid
      seeded := hseeded
      inMemory := hmemory
      epochs := hepochs
      word := hword
      keys := fun _ _ _ _ => ⟨_, rfl⟩
      signs := by
        intro epoch members hteam message
        obtain ⟨_, signer, _, _, rfl⟩ := exists_generate_of_team _ _ hteam
        exact Transparent.accepts_signer signer message
      distinct := fun blocks hcourse => (hblocks blocks hcourse).1
      nonzero := fun blocks hcourse b hb => ((hblocks blocks hcourse).2.1 b hb).1
      blocksFit := fun blocks hcourse b hb => ((hblocks blocks hcourse).2.1 b hb).2
      chainsFit := fun blocks store hcourse => (hblocks blocks hcourse).2.2 store }

theorem short_playable : Playable Transparent.scheme (fun _ _ => []) 7 short :=
  playable_of_course rfl rfl rfl (by decide) (by decide) (by decide +kernel)

/-- Two authorities, one follower, and a proof of two links. -/
theorem run_completes_short :
    Playable Transparent.scheme (fun _ _ => []) 7 short ∧
    ∃ blocks head c, course Transparent.scheme short (fun _ _ => []) = .ok blocks ∧
      blocks.length = 4 ∧ blocks[3]? = some head ∧
      (stages Transparent.scheme (fun _ _ => []) short).Gives (.start .empty 1)
        ⟨head.hash, 3, 2, 1, 2, ⟨head.hash, 4, 4, 0⟩⟩ c ∧
      run Transparent.scheme (fun _ _ => []) short .empty =
        (.ok ⟨head.hash, 3, 2, 1, 2, ⟨head.hash, 4, 4, 0⟩⟩, c.disk) ∧
      (c.node 0).store.blocks = blocks :=
  ⟨short_playable, run_completes short_playable .empty⟩

end CosignedLedger.Rehearsal
