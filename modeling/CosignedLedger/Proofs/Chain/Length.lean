import CosignedLedger.Proofs.Chain.Shape

/-!
# The length of a chain

Where the authorities of blocks are numbered by epochs that begin one after the other, a chain from
the first block has one link for each epoch that begins before its target, and a last one for the
target.

* `Store.Epochs`: the authority changes just where the next epoch begins.
* `Store.Epochs.length_stops`, `Store.Epochs.length_chainTo`: how many stops and links there are.
-/

namespace CosignedLedger.Store
variable {s : Store} {epoch : Nat → Nat}

/-- The epoch of each block: the next one begins where the authority changes. -/
structure Epochs (s : Store) (epoch : Nat → Nat) : Prop where
  changes : ∀ {i : Nat} {a b : Block}, s.blocks[i]? = some a → s.blocks[i + 1]? = some b →
    (b.authority ≠ a.authority ↔ epoch (i + 1) ≠ epoch i)
  succ : ∀ i, epoch (i + 1) = epoch i ∨ epoch (i + 1) = epoch i + 1

namespace Epochs

theorem mono (h : s.Epochs epoch) (i k : Nat) : epoch i ≤ epoch (i + k) := by
  induction k with
  | zero => exact Nat.le_refl _
  | succ k ih =>
    have hsucc := h.succ (i + k)
    rw [Nat.add_assoc] at hsucc
    omega

theorem length_stops (h : s.Epochs epoch) {j : Nat} {b : Block} (hb : s.blocks[j]? = some b) :
    ∀ (count : Nat) {i : Nat}, i + (count + 1) = j →
      (s.stops i j).length = epoch (i + count) - epoch i + 1 := by
  intro count
  -- The induction is on the number of blocks before the target.
  induction count with
  | zero =>
    rintro i rfl
    rw [stops_of_stop (by omega) (.inl rfl), stops_self]
    simp
  | succ count ih =>
    intro i hcount
    obtain ⟨x, hx⟩ := exists_block_of_le hb (show i ≤ j by omega)
    obtain ⟨y, hy⟩ := exists_block_of_le hb (show i + 1 ≤ j by omega)
    have hchanges := (changesAt_succ_iff hx hy).trans (h.changes hx hy)
    have hrest := ih (show i + 1 + (count + 1) = j by omega)
    have hmono := h.mono (i + 1) count
    have hsucc := h.succ i
    rw [show i + 1 + count = i + (count + 1) by omega] at hrest hmono
    by_cases hchange : s.ChangesAt (i + 1)
    · have hnext := hchanges.1 hchange
      rw [stops_of_stop (by omega) (.inr hchange), List.length_cons, hrest]
      omega
    · have hsame : epoch (i + 1) = epoch i := Decidable.not_not.1 (mt hchanges.2 hchange)
      rw [stops_of_pass (by omega) (not_or.2 ⟨by omega, hchange⟩), hrest, hsame]

theorem length_chainTo (h : s.Epochs epoch) (hs : s.Coherent) {j : Nat} {b : Block} {chain : Chain}
    (hb : s.blocks[j]? = some b) (hchain : s.chainTo b.hash = .ok chain) :
    chain.length = if j = 0 then 0 else epoch (j - 1) - epoch 0 + 1 := by
  obtain ⟨g, hg⟩ := exists_block_of_le hb (Nat.zero_le j)
  rw [chainTo_eq hg, chainBetween_eq_ok_iff hs hg hb (Nat.zero_le j)] at hchain
  rw [Chain.length, hchain.length_eq]
  cases j with
  | zero => rw [stops_self]; rfl
  | succ j =>
    have hlength := h.length_stops hb j (Nat.zero_add (j + 1))
    rwa [Nat.zero_add] at hlength

end Epochs

end CosignedLedger.Store
