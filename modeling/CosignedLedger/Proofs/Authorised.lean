import CosignedLedger.Proofs.Codec
import CosignedLedger.Proofs.Store.Coherent

/-!
# Authorised blocks

Blocks are authorised if they follow each other, have the hashes that they state, and every block
past the first is signed by the authority that the block before it records.
-/

namespace CosignedLedger

/-- The block carries a signature over its hash by the authority that `previous` records. -/
def Block.SignedAfter (c : Crypto) (b previous : Block) : Prop :=
  ∃ signature, b.signature = some signature ∧
    c.Accepts previous.authority b.hash.bytes signature

theorem getElem?_of_take {α : Type} {as : List α} {n i : Nat} {a : α}
    (h : (as.take n)[i]? = some a) : as[i]? = some a := by
  rw [List.getElem?_take] at h
  split at h
  · exact h
  · cases h

/-- Every block past the first is signed by the authority of the block before it. -/
def SignedInTurn (c : Crypto) (blocks : List Block) : Prop :=
  ∀ {i : Nat} {a b : Block}, blocks[i]? = some a → blocks[i + 1]? = some b → b.SignedAfter c a

structure Authorised (c : Crypto) (blocks : List Block) : Prop extends Consecutive blocks where
  hashed : ∀ b ∈ blocks, b.Hashed c
  signed : SignedInTurn c blocks

namespace Authorised
variable {c : Crypto} {blocks : List Block}

theorem nil : Authorised c [] where
  toConsecutive := .nil
  hashed b hb := by simp at hb
  signed h := by simp at h

theorem append (h : Authorised c blocks) {b : Block} (hconsecutive : Consecutive (blocks ++ [b]))
    (hhashed : b.Hashed c) (hsigned : ∀ a, blocks.getLast? = some a → b.SignedAfter c a) :
    Authorised c (blocks ++ [b]) where
  toConsecutive := hconsecutive
  hashed := by
    intro b' hb'
    rcases List.mem_append.1 hb' with hb' | hb'
    · exact h.hashed b' hb'
    · rw [List.mem_singleton.1 hb']
      exact hhashed
  signed := by
    intro i a b' ha hb
    have hi : i < blocks.length := by
      have := (List.getElem?_eq_some_iff.1 hb).1
      simp only [List.length_append, List.length_singleton] at this
      omega
    rw [List.getElem?_append_left hi] at ha
    by_cases hlast : i + 1 < blocks.length
    · rw [List.getElem?_append_left hlast] at hb
      exact h.signed ha hb
    · rw [List.getElem?_append_right (by omega), List.getElem?_singleton, if_pos (by omega)] at hb
      cases hb
      refine hsigned a ?_
      rw [List.getLast?_eq_getElem?, show blocks.length - 1 = i by omega]
      exact ha

theorem take (h : Authorised c blocks) (n : Nat) : Authorised c (blocks.take n) where
  position hb := h.position (getElem?_of_take hb)
  first hb := h.first (getElem?_of_take hb)
  linked ha hb := h.linked (getElem?_of_take ha) (getElem?_of_take hb)
  distinct := by
    rw [List.map_take]
    exact h.distinct.sublist (List.take_sublist n _)
  hashed b hb := h.hashed b (List.mem_of_mem_take hb)
  signed ha hb := h.signed (getElem?_of_take ha) (getElem?_of_take hb)

end Authorised

end CosignedLedger
