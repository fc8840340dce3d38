import CosignedLedger.Proofs.Chain.Completeness
import Mathlib.Logic.Function.Iterate

/-!
# Chains in a store that grows

The chain to a block depends on the blocks up to it and on nothing that is stored later. So it does
not matter when the blocks for a chain are read: each may be read at another time, with other blocks
stored in between.

* `Store.AgreeUpTo`: two stores with the same blocks up to an index.
* `Store.chainTo_congr`: they have the same chains up to there.
* `Tracing`, `Tracing.step`: building a chain by reading one block at a time.
* `Tracing.result_step`, `Tracing.finishes_opening`: on a store that stays as it is this comes to
  `Store.chainTo`.
* `Tracing.Sound`: what it comes to does not change while the store grows.
-/

namespace CosignedLedger

namespace Store
variable {s s' : Store} {b : Block} {i : Nat}

def AgreeUpTo (s s' : Store) (i : Nat) : Prop := ∀ j, j ≤ i → s.blocks[j]? = s'.blocks[j]?

theorem agreeUpTo_of_prefix (hgrown : s.blocks <+: s'.blocks) (hi : i < s.blocks.length) :
    s.AgreeUpTo s' i := by
  intro j hj
  obtain ⟨new, hnew⟩ := hgrown
  rw [← hnew, List.getElem?_append_left (by omega)]

theorem read_congr {j : Nat} (h : s.blocks[j]? = s'.blocks[j]?) : s.read j = s'.read j := by
  rw [read, read, h]

theorem links_congr {target : Block} (count : Nat) {index : Nat} {anchor : Digest}
    {previous : Block} (h : ∀ j, j + 1 < index + count → s.read j = s'.read j) :
    s.links target count index anchor previous = s'.links target count index anchor previous := by
  induction count generalizing index anchor previous with
  | zero => rfl
  | succ count ih =>
    have hrest : ∀ (anchor : Digest) (previous : Block),
        s.links target count (index + 1) anchor previous =
          s'.links target count (index + 1) anchor previous :=
      fun anchor previous => ih fun j hj => h j (by omega)
    have htowards : s.towards target count index = s'.towards target count index := by
      unfold towards
      split
      · rfl
      · rw [h index (by omega)]
    cases hblock : s.towards target count index with
    | error e =>
      rw [links_of_towards_error hblock, links_of_towards_error (htowards ▸ hblock)]
    | ok block =>
      rw [links_of_towards hblock, links_of_towards (htowards ▸ hblock), hrest, hrest]

theorem chainTo_congr (hs : s.Coherent) (hs' : s'.Coherent) (hb : s.blocks[i]? = some b)
    (h : s.AgreeUpTo s' i) : s.chainTo b.hash = s'.chainTo b.hash := by
  obtain ⟨g, hg⟩ := exists_block_of_le hb (Nat.zero_le i)
  have hb' : s'.blocks[i]? = some b := by rw [← h i (Nat.le_refl i), hb]
  have hg' : s'.blocks[0]? = some g := by rw [← h 0 (Nat.zero_le i), hg]
  rw [chainTo_eq hg, chainTo_eq hg', chainBetween_eq hs hg hb (Nat.zero_le i),
    chainBetween_eq hs' hg' hb' (Nat.zero_le i), links_congr]
  exact fun j hj => read_congr (h j (by omega))

end Store

/-- How far the building of a chain from the first block has come. -/
inductive Tracing where
  /-- The first block has not been looked at. -/
  | opening
  /-- The chain starts at this hash. -/
  | anchoring (anchor : Digest)
  /-- The block that the chain starts from has been found. -/
  | aiming (first : Block)
  /-- There are `count` blocks left, from `index` on; these links have been made before. -/
  | linking (last : Block) (count index : Nat) (anchor : Digest) (previous : Block)
      (made : List Link)
  | done (result : Except ChainError Chain)

namespace Tracing
variable {s s' : Store} {b : Block} {i : Nat}

/-- One look at the store, and what follows from it. -/
def step (s : Store) (target : Digest) : Tracing → Tracing
  | opening =>
    match s.genesis? with
    | none => done (.error (.notFound target))
    | some genesis => anchoring genesis.hash
  | anchoring anchor =>
    match s.lookup anchor with
    | .error e => done (.error e)
    | .ok first => aiming first
  | aiming first =>
    match s.lookup target with
    | .error e => done (.error e)
    | .ok last =>
      if last.index < first.index then done (.error (.invalidRange first.index last.index))
      else linking last (last.index - first.index) (first.index + 1) first.hash first []
  | linking _ 0 _ _ _ made => done (.ok ⟨made⟩)
  | linking last (count + 1) index anchor previous made =>
    match s.towards last count index with
    | .error e => done (.error e)
    | .ok block =>
      if count = 0 ∨ block.authority ≠ previous.authority then
        match block.signature with
        | none => done (.error (.missingSignature index))
        | some signature =>
          let link : Link := ⟨anchor, block.hash, block.header, previous.authority, signature⟩
          linking last count (index + 1) block.hash block (made ++ [link])
      else linking last count (index + 1) anchor block made
  | done result => done result

def result (s : Store) (target : Digest) : Tracing → Except ChainError Chain
  | opening => s.chainTo target
  | anchoring anchor => s.chainBetween anchor target
  | aiming first =>
    match s.lookup target with
    | .error e => .error e
    | .ok last =>
      if last.index < first.index then .error (.invalidRange first.index last.index)
      else (s.links last (last.index - first.index) (first.index + 1) first.hash first).map Chain.mk
  | linking last count index anchor previous made =>
    (s.links last count index anchor previous).map fun links => ⟨made ++ links⟩
  | done result => result

theorem result_step (s : Store) (target : Digest) (w : Tracing) :
    (w.step s target).result s target = w.result s target := by
  cases w with
  | opening =>
    simp only [step, result, Store.chainTo]
    cases s.genesis? <;> rfl
  | anchoring anchor =>
    simp only [step, result, Store.chainBetween]
    cases s.lookup anchor with
    | error e => rfl
    | ok first =>
      simp only [bind, Except.bind]
      cases s.lookup target with
      | error e => rfl
      | ok last =>
        dsimp only
        split
        · rfl
        · cases s.links last (last.index - first.index) (first.index + 1) first.hash first <;> rfl
  | aiming first =>
    cases hlast : s.lookup target with
    | error e => simp only [step, result, hlast]
    | ok last =>
      by_cases hrange : last.index < first.index
      · simp only [step, result, hlast, if_pos hrange]
      · simp only [step, result, hlast, if_neg hrange, List.nil_append]
  | linking last count index anchor previous made =>
    cases count with
    | zero => simp [step, result, Store.links, Except.map]
    | succ count =>
      cases hblock : s.towards last count index with
      | error e =>
        simp only [step, result, hblock, Store.links_of_towards_error hblock]
        rfl
      | ok block =>
        by_cases hcut : count = 0 ∨ block.authority ≠ previous.authority
        · simp only [step, result, hblock, Store.links_of_towards hblock, if_pos hcut]
          cases block.signature with
          | none => rfl
          | some signature =>
            cases hrest : s.links last count (index + 1) block.hash block <;>
              simp [hrest, Except.map]
        · simp only [step, result, hblock, Store.links_of_towards hblock, if_neg hcut]
  | done r => rfl

def Finishes (s : Store) (target : Digest) (w : Tracing) : Prop :=
  ∃ n, (step s target)^[n] w = done (w.result s target)

section Finishes
variable {target : Digest} {w : Tracing}

theorem Finishes.of_step (h : (w.step s target).Finishes s target) : w.Finishes s target := by
  obtain ⟨n, hn⟩ := h
  exact ⟨n + 1, by rw [Function.iterate_succ_apply, hn, result_step]⟩

theorem finishes_done (r : Except ChainError Chain) : (done r).Finishes s target := ⟨0, rfl⟩

theorem finishes_linking (last : Block) (count : Nat) (index : Nat) (anchor : Digest)
    (previous : Block) (made : List Link) :
    (linking last count index anchor previous made).Finishes s target := by
  induction count generalizing index anchor previous made with
  | zero => exact .of_step (finishes_done _)
  | succ count ih =>
    refine .of_step ?_
    rw [step]
    split
    · exact finishes_done _
    · split
      · split
        · exact finishes_done _
        · exact ih _ _ _ _
      · exact ih _ _ _ _

theorem finishes_aiming (first : Block) : (aiming first).Finishes s target := by
  refine .of_step ?_
  rw [step]
  split
  · exact finishes_done _
  · split
    · exact finishes_done _
    · exact finishes_linking _ _ _ _ _ _

theorem finishes_anchoring (anchor : Digest) : (anchoring anchor).Finishes s target := by
  refine .of_step ?_
  rw [step]
  split
  · exact finishes_done _
  · exact finishes_aiming _

theorem finishes_opening : opening.Finishes s target := by
  refine .of_step ?_
  rw [step]
  split
  · exact finishes_done _
  · exact finishes_anchoring _

end Finishes

/-- The building of the chain to the block at `i` can have come this far. -/
def Stands (s : Store) (b : Block) (i : Nat) : Tracing → Prop
  | anchoring anchor => ∃ g, s.blocks[0]? = some g ∧ anchor = g.hash
  | aiming first => s.blocks[0]? = some first
  | linking last count index _ _ _ => last = b ∧ index + count = i + 1
  | _ => True

theorem Stands.congr {w : Tracing} (hw : w.Stands s b i) (h : s.AgreeUpTo s' i) :
    w.Stands s' b i := by
  have hfirst := h 0 (Nat.zero_le i)
  cases w with
  | anchoring anchor =>
    obtain ⟨g, hg, hanchor⟩ := hw
    exact ⟨g, hfirst ▸ hg, hanchor⟩
  | aiming first => exact hfirst.symm.trans hw
  | _ => exact hw

theorem Stands.step {w : Tracing} (hs : s.Coherent) (hb : s.blocks[i]? = some b)
    (hw : w.Stands s b i) : (w.step s b.hash).Stands s b i := by
  have hlast := hs.lookup_hash (List.mem_of_getElem? hb)
  cases w with
  | opening =>
    obtain ⟨g, hg⟩ := Store.exists_block_of_le hb (Nat.zero_le i)
    simp only [Tracing.step, Store.genesis?_eq, hg]
    exact ⟨g, hg, rfl⟩
  | anchoring anchor =>
    obtain ⟨g, hg, rfl⟩ := hw
    simp only [Tracing.step, hs.lookup_hash (List.mem_of_getElem? hg)]
    exact hg
  | aiming first =>
    have hfirst : first.index = 0 := hs.position hw
    have hindex : b.index = i := hs.position hb
    simp only [Tracing.step, hlast, if_neg (show ¬b.index < first.index by omega)]
    exact ⟨rfl, by omega⟩
  | linking last count index anchor previous made =>
    cases count with
    | zero => trivial
    | succ count =>
      obtain ⟨rfl, hcount⟩ := hw
      rw [Tracing.step]
      have hnext : ∀ anchor previous made,
          (linking last count (index + 1) anchor previous made).Stands s last i :=
        fun _ _ _ => ⟨rfl, by omega⟩
      split
      · trivial
      · split
        · split
          · trivial
          · exact hnext _ _ _
        · exact hnext _ _ _
  | done r => trivial

theorem result_congr {w : Tracing} (hs : s.Coherent) (hs' : s'.Coherent)
    (hb : s.blocks[i]? = some b) (h : s.AgreeUpTo s' i) (hw : w.Stands s b i) :
    w.result s b.hash = w.result s' b.hash := by
  have hb' : s'.blocks[i]? = some b := by rw [← h i (Nat.le_refl i), hb]
  have hfirst := h 0 (Nat.zero_le i)
  have hread : ∀ j, j < i → s.read j = s'.read j :=
    fun j hj => Store.read_congr (h j (Nat.le_of_lt hj))
  cases w with
  | opening => exact Store.chainTo_congr hs hs' hb h
  | anchoring anchor =>
    obtain ⟨g, hg, rfl⟩ := hw
    have hchain := Store.chainTo_congr hs hs' hb h
    rwa [Store.chainTo_eq hg, Store.chainTo_eq (hfirst ▸ hg)] at hchain
  | aiming first =>
    have hindex : first.index = 0 := hs.position hw
    have hb_index : b.index = i := hs.position hb
    simp only [result, hs.lookup_hash (List.mem_of_getElem? hb),
      hs'.lookup_hash (List.mem_of_getElem? hb')]
    rw [Store.links_congr]
    exact fun j hj => hread j (by omega)
  | linking last count index anchor previous made =>
    obtain ⟨rfl, hcount⟩ := hw
    simp only [result]
    rw [Store.links_congr]
    exact fun j hj => hread j (by omega)
  | done r => rfl

/-- The building of the chain to the block at `i` comes to the chain that the store has now. -/
structure Sound (s : Store) (b : Block) (i : Nat) (w : Tracing) : Prop where
  stands : w.Stands s b i
  result_eq : w.result s b.hash = s.chainTo b.hash

namespace Sound
variable {w : Tracing}

theorem opening : Tracing.opening.Sound s b i := ⟨trivial, rfl⟩

theorem step (hs : s.Coherent) (hb : s.blocks[i]? = some b) (hw : w.Sound s b i) :
    (w.step s b.hash).Sound s b i where
  stands := hw.stands.step hs hb
  result_eq := by rw [result_step, hw.result_eq]

/-- It comes to the same when other blocks are stored meanwhile. -/
theorem congr (hs : s.Coherent) (hs' : s'.Coherent) (hb : s.blocks[i]? = some b)
    (h : s.AgreeUpTo s' i) (hw : w.Sound s b i) : w.Sound s' b i where
  stands := hw.stands.congr h
  result_eq := by
    rw [← result_congr hs hs' hb h hw.stands, hw.result_eq, Store.chainTo_congr hs hs' hb h]

end Sound

end Tracing

end CosignedLedger
