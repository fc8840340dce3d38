import CosignedLedger.Proofs.Rehearsal.Course
import CosignedLedger.Proofs.Rehearsal.Stages
import CosignedLedger.Proofs.Store.Refinement

/-!
# Producing the blocks

The leader goes on from the first block to all others. Each of them is the next block of the course,
and its store takes it, since the hashes of the course are told apart.

* `Rehearsal.Leading`: how far the leader has come.
* `Rehearsal.produceBlock_gives`, `Rehearsal.produce_gives`: one more block, and all of them.
-/

namespace CosignedLedger.Rehearsal

/-- The leader keeps its blocks in memory and has made the first `k`. -/
structure Leading (blocks : List Block) (k : Nat) (disk : Disk) (c : Collective) : Prop
    extends Ready disk c where
  present : 0 < c.nodes.length
  storage : ∃ stored, (c.node 0).storage = .memory stored
  reachable : (c.node 0).store.Reachable
  blocks_eq : (c.node 0).store.blocks = blocks.take k

variable {Key : Type} {scheme : Scheme Key} {entropy : Nat → Nat → Bytes} {seed : UInt64}
  {s : Settings} {all : List (Team Key)} {blocks : List Block} {genesis : Block} {disk : Disk}
  {c : Collective} {k : Nat}

theorem Gathering.leading (h : Gathering s genesis disk c) (hfirst : blocks[0]? = some genesis)
    (hopening : Opening scheme.crypto s genesis) : Leading blocks 1 disk c := by
  have hnode : c.node 0 = holdingNode s genesis := by
    rw [Collective.node, h.leader, Option.getD_some]
  refine ⟨h.toReady, (List.getElem?_eq_some_iff.1 h.leader).1, ?_, ?_, ?_⟩
  · rw [hnode]
    exact ⟨_, rfl⟩
  · rw [hnode]
    exact .publish .empty (Store.check_eq_ok_iff.2 hopening.admits)
  · rw [hnode, List.take_add_one, hfirst]
    rfl

theorem Course.storable (h : Course scheme entropy s all blocks)
    (hplayable : Playable scheme entropy seed s) (hcourse : course scheme s entropy = .ok blocks) :
    Storable blocks where
  toConsecutive := (h.authorised hplayable hcourse).toConsecutive
  nonzero := by
    intro i b hb _ hzero
    have hnonzero := hplayable.nonzero blocks hcourse b (List.mem_of_getElem? hb)
    simp [Digest.isZero, hzero] at hnonzero

theorem Leading.nextBlock (h : Leading blocks (k + 1) disk c) (hstorable : Storable blocks) {a : Block}
    (ha : blocks[k]? = some a) (next : Team Key) :
    c.nextBlock scheme.crypto 0 next.roster (Bytes.ofText s!"block-{k + 1}") =
      (.ok (draftAfter scheme next (k + 1) a), c.addCalls Block.draftCalls) := by
  have hlast : (c.node 0).store.last? = some a := by
    rw [Store.last?, h.blocks_eq, List.take_add_one, ha, Option.toList_some, List.getLast?_concat]
  have hindex : a.header.index = UInt64.ofNat k := by
    rw [← hstorable.position ha, Block.index, UInt64.ofNat_toNat]
  have hnext : a.header.index + 1 = UInt64.ofNat (k + 1) := by
    rw [hindex, UInt64.ofNat_add]
    rfl
  rw [Collective.nextBlock, hlast]
  dsimp only
  rw [hnext, draftAfter]

theorem Leading.insert (h : Leading blocks k disk c) (hstorable : Storable blocks) {b : Block}
    (hb : blocks[k]? = some b) :
    ∃ c', c.insert 0 b = (.ok (), c') ∧ Leading blocks (k + 1) disk c' := by
  obtain ⟨stored, hstorage⟩ := h.storage
  have hadmits : (c.ledger 0).store.Admits b :=
    h.reachable.coherent.admits_iff_continues.2 (h.blocks_eq ▸ hstorable.continues hb)
  have hmedium : (c.ledger 0).medium = (.memory stored, c.disk) := by rw [← hstorage]; rfl
  have happend : Storage.log.append b (c.ledger 0).medium =
      (.ok (), .memory (stored ++ [b]), c.disk) := by
    rw [hmedium]
    rfl
  have hinsert := Ledger.insert_of_admits hadmits (by rw [happend])
  rw [happend] at hinsert
  refine ⟨c.setLedger 0 ⟨(c.ledger 0).store.publish b, .memory (stored ++ [b]), c.disk⟩,
    by rw [Collective.insert, hinsert], h.toReady.of_eq rfl rfl rfl rfl rfl, ?_, ?_, ?_, ?_⟩
  · simpa [Collective.setLedger] using h.present
  · rw [Collective.node_setLedger_self h.present]
    exact ⟨_, rfl⟩
  · rw [Collective.node_setLedger_self h.present]
    exact h.reachable.publish (Store.check_eq_ok_iff.2 hadmits)
  · rw [Collective.node_setLedger_self h.present, List.take_add_one, hb]
    exact congrArg (· ++ [b]) h.blocks_eq

theorem produceBlock_gives (hcourse : Course scheme entropy s all blocks)
    (hstorable : Storable blocks) (h : Leading blocks (k + 1) disk c) {b : Block}
    (hb : blocks[k + 1]? = some b) :
    ∃ c', (produceBlock scheme s all 0 (k + 1)).Gives c () c' ∧ Leading blocks (k + 2) disk c' := by
  obtain ⟨a, next, signing, signature, ha, hnext, hsigning, hsignature, rfl⟩ := hcourse.made hb
  have hcounted : Leading blocks (k + 1) disk (c.addCalls Block.draftCalls) :=
    ⟨h.toReady.of_eq rfl rfl rfl rfl rfl, h.present, h.storage, h.reachable, h.blocks_eq⟩
  obtain ⟨c', hinsert, h'⟩ := hcounted.insert hstorable hb
  have hdraft : (Stage.attempt RehearsalError.draft (·.nextBlock scheme.crypto 0 next.roster
      (Bytes.ofText s!"block-{k + 1}"))).Gives c (draftAfter scheme next (k + 1) a)
        (c.addCalls Block.draftCalls) := Stage.gives_attempt (h.nextBlock hstorable ha next)
  refine ⟨c', ?_, h'⟩
  refine (Stage.gives_lookup hnext c).bind (hdraft.bind ?_)
  refine (Stage.gives_lookup hsigning _).bind ?_
  exact (Stage.gives_ofExcept hsignature _).bind (Stage.gives_attempt hinsert)

theorem produce_gives (hcourse : Course scheme entropy s all blocks) (hstorable : Storable blocks)
    {count : Nat} (h : Leading blocks (k + 1) disk c) (hcount : k + 1 + count ≤ blocks.length) :
    ∃ c', (produce scheme s all 0 count (k + 1)).Gives c () c' ∧
      Leading blocks (k + 1 + count) disk c' := by
  -- The induction is on the blocks that are left; the leader goes on by one each time.
  induction count generalizing k c with
  | zero => exact ⟨c, Stage.gives_pure () c, h⟩
  | succ count ih =>
    obtain ⟨b, hb⟩ : ∃ b, blocks[k + 1]? = some b := ⟨_, List.getElem?_eq_getElem (by omega)⟩
    obtain ⟨c₁, hblock, h₁⟩ := produceBlock_gives hcourse hstorable h hb
    obtain ⟨c₂, hrest, h₂⟩ := ih h₁ (by omega)
    have hcount' : k + 1 + (count + 1) = k + 1 + 1 + count := by omega
    exact ⟨c₂, hblock.bind hrest, hcount' ▸ h₂⟩

end CosignedLedger.Rehearsal
