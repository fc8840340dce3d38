import CosignedLedger.Proofs.Outcome
import CosignedLedger.Store.Log

/-!
# Coherent stores

What the store keeps in step: its list of blocks and the positions by hash.

* `Consecutive`: blocks that follow each other from the first on, with hashes of their own.
* `Store.check_eq_ok_iff`: when a block may come next.
* `Store.Reachable`: the stores that opening and inserting give (`Ledger.reachable_openStore`,
  `Ledger.reachable_insert`).
* `Store.Reachable.coherent`: such a store is consecutive and finds every block by its hash, and
  only the first block may have the zero hash.
-/

namespace CosignedLedger

structure Consecutive (blocks : List Block) : Prop where
  position : ∀ {i : Nat} {b : Block}, blocks[i]? = some b → b.index = i
  first : ∀ {b : Block}, blocks[0]? = some b → b.previousHash = .zero
  linked : ∀ {i : Nat} {a b : Block}, blocks[i]? = some a → blocks[i + 1]? = some b →
    b.previousHash = a.hash
  distinct : (blocks.map (·.hash)).Nodup

namespace Consecutive
variable {blocks : List Block}

theorem nil : Consecutive [] where
  position h := by simp at h
  first h := by simp at h
  linked h := by simp at h
  distinct := List.nodup_nil

theorem append (h : Consecutive blocks) {b : Block} (hindex : b.index = blocks.length)
    (hprevious : b.previousHash = (blocks.getLast?.map (·.hash)).getD .zero)
    (hfresh : ∀ a ∈ blocks, a.hash ≠ b.hash) : Consecutive (blocks ++ [b]) where
  position := by
    intro i b' hi
    rw [List.getElem?_append] at hi
    split at hi
    · exact h.position hi
    · rw [List.getElem?_singleton] at hi
      split at hi
      · cases hi
        omega
      · cases hi
  first := by
    intro b' hi
    cases blocks with
    | nil =>
      cases hi
      exact hprevious
    | cons a as => exact h.first hi
  linked := by
    intro i a b' ha hb
    have hi : i < blocks.length := by
      have := (List.getElem?_eq_some_iff.1 hb).1
      simp only [List.length_append, List.length_singleton] at this
      omega
    rw [List.getElem?_append_left hi] at ha
    by_cases hlast : i + 1 < blocks.length
    · rw [List.getElem?_append_left hlast] at hb
      exact h.linked ha hb
    · have hi' : i = blocks.length - 1 := by omega
      rw [List.getElem?_append_right (by omega), List.getElem?_singleton, if_pos (by omega)] at hb
      cases hb
      rw [hprevious, List.getLast?_eq_getElem?, ← hi', ha]
      rfl
  distinct := by
    rw [List.map_append, List.nodup_append]
    refine ⟨h.distinct, by simp, ?_⟩
    intro x hx y hy
    simp only [List.map_cons, List.map_nil, List.mem_singleton] at hy
    obtain ⟨a, ha, rfl⟩ := List.mem_map.1 hx
    rw [hy]
    exact hfresh a ha

theorem eq_of_hash_eq (h : Consecutive blocks) {a b : Block} (ha : a ∈ blocks) (hb : b ∈ blocks)
    (hhash : a.hash = b.hash) : a = b := by
  obtain ⟨i, hi⟩ := List.getElem?_of_mem ha
  obtain ⟨j, hj⟩ := List.getElem?_of_mem hb
  have hi' : (blocks.map (·.hash))[i]? = some a.hash := by simp [hi]
  have hj' : (blocks.map (·.hash))[j]? = some a.hash := by simp [hj, hhash]
  have hij : i = j :=
    (List.getElem?_inj (List.getElem?_eq_some_iff.1 hi').1 h.distinct).1 (hi'.trans hj'.symm)
  rw [hij, hj] at hi
  cases hi
  rfl

end Consecutive

namespace Store
variable {s : Store} {b : Block}

theorem read_eq_ok_iff {i : Nat} : s.read i = .ok b ↔ s.blocks[i]? = some b := by
  unfold read
  cases s.blocks[i]? <;> simp

theorem genesis?_eq : s.genesis? = s.blocks[0]? := by
  rw [genesis?, List.head?_eq_getElem?]

theorem exists_block_of_le {i j : Nat} (hb : s.blocks[j]? = some b) (hij : i ≤ j) :
    ∃ a, s.blocks[i]? = some a :=
  ⟨_, List.getElem?_eq_getElem (Nat.lt_of_le_of_lt hij (List.getElem?_eq_some_iff.1 hb).1)⟩

/-- A block may come next: it has the next index, a hash that is new, the hash of the last block as
the one before it and, past the first block, no zero hash. -/
structure Admits (s : Store) (b : Block) : Prop where
  index : b.index = s.size
  fresh : s.indexOf? b.hash = none
  previous : b.previousHash = s.lastHash
  nonzero : 0 < b.index → b.hash ≠ .zero

theorem check_eq_ok_iff : s.check b = .ok () ↔ s.Admits b := by
  unfold check
  constructor
  · intro h
    split at h
    · cases h
    · rename_i hindex
      split at h
      · cases h
      · rename_i hfresh
        split at h
        · cases h
        · rename_i hprevious
          split at h
          · cases h
          · rename_i hzero
            refine ⟨Decidable.not_not.1 hindex, hfresh, Decidable.not_not.1 hprevious, ?_⟩
            intro hpos heq
            exact hzero ⟨hpos, by simp [Digest.isZero, heq]⟩
  · intro h
    rw [if_neg (Decidable.not_not.2 h.index), h.fresh]
    dsimp only
    rw [if_neg (Decidable.not_not.2 h.previous), if_neg]
    rintro ⟨hpos, hzero⟩
    exact h.nonzero hpos (by simpa [Digest.isZero] using hzero)

/-- The positions lead to every stored hash and nowhere else. -/
def Indexed (s : Store) : Prop :=
  ∀ hash : Digest, s.indexOf? hash = s.blocks.findIdx? (·.hash = hash)

theorem indexed_empty : empty.Indexed := fun _ => rfl

theorem Indexed.fresh_iff (h : s.Indexed) {hash : Digest} :
    s.indexOf? hash = none ↔ ∀ b ∈ s.blocks, b.hash ≠ hash := by
  simp [h hash, List.findIdx?_eq_none_iff]

theorem Indexed.publish (h : s.Indexed) (hfresh : s.indexOf? b.hash = none) :
    (s.publish b).Indexed := by
  intro hash
  have hlookup : (s.publish b).indexOf? hash =
      if hash = b.hash then some s.size else s.indexOf? hash := by
    simp only [indexOf?, Store.publish, List.lookup_cons]
    split <;> simp_all
  rw [hlookup, Store.publish, List.findIdx?_append]
  split
  · rename_i heq
    subst heq
    rw [← h, hfresh]
    simp [List.findIdx?_cons, size]
  · rename_i hne
    rw [h]
    simp [List.findIdx?_cons, Ne.symm hne]

/-- What storing blocks one by one keeps. -/
structure Coherent (s : Store) : Prop extends Consecutive s.blocks where
  indexed : s.Indexed
  nonzero : ∀ {i : Nat} {b : Block}, s.blocks[i]? = some b → 0 < i → b.hash ≠ .zero

namespace Coherent

theorem empty : Store.empty.Coherent where
  toConsecutive := .nil
  indexed := indexed_empty
  nonzero h := by simp [Store.empty] at h

theorem publish (h : s.Coherent) (hb : s.Admits b) : (s.publish b).Coherent where
  toConsecutive :=
    h.toConsecutive.append hb.index hb.previous ((h.indexed.fresh_iff).1 hb.fresh)
  indexed := h.indexed.publish hb.fresh
  nonzero := by
    intro i b' hi hpos
    simp only [Store.publish, List.getElem?_append] at hi
    split at hi
    · exact h.nonzero hi hpos
    · rw [List.getElem?_singleton] at hi
      split at hi
      · cases hi
        exact hb.nonzero (by rw [hb.index, size]; omega)
      · cases hi

theorem readByHash_eq_ok_iff (h : s.Coherent) {hash : Digest} :
    s.readByHash hash = .ok b ↔ b ∈ s.blocks ∧ b.hash = hash := by
  unfold readByHash
  rw [h.indexed hash]
  constructor
  · intro hread
    cases hfind : s.blocks.findIdx? (·.hash = hash) with
    | none => simp [hfind] at hread
    | some i =>
      obtain ⟨hi, heq, _⟩ := List.findIdx?_eq_some_iff_getElem.1 hfind
      simp only [hfind, Option.bind_some, List.getElem?_eq_getElem hi, Except.ok.injEq] at hread
      subst hread
      exact ⟨List.getElem_mem hi, by simpa using heq⟩
  · rintro ⟨hb, rfl⟩
    cases hfind : s.blocks.findIdx? (·.hash = b.hash) with
    | none =>
      rw [List.findIdx?_eq_none_iff] at hfind
      simpa using hfind b hb
    | some i =>
      obtain ⟨hi, heq, _⟩ := List.findIdx?_eq_some_iff_getElem.1 hfind
      have : s.blocks[i] = b := h.eq_of_hash_eq (List.getElem_mem hi) hb (by simpa using heq)
      simp [List.getElem?_eq_getElem hi, this]

theorem readByHash_hash (h : s.Coherent) (hb : b ∈ s.blocks) : s.readByHash b.hash = .ok b :=
  h.readByHash_eq_ok_iff.2 ⟨hb, rfl⟩

end Coherent

/-- The stores that storing admitted blocks one by one gives. -/
inductive Reachable : Store → Prop where
  | empty : Reachable empty
  | publish {s : Store} {b : Block} : Reachable s → s.check b = .ok () → Reachable (s.publish b)

theorem Reachable.coherent (h : s.Reachable) : s.Coherent := by
  induction h with
  | empty => exact .empty
  | publish _ hcheck ih => exact ih.publish (check_eq_ok_iff.1 hcheck)

theorem Reachable.replayFrom {bs : List Block} {s' : Store} (h : s.Reachable)
    (hreplay : s.replayFrom bs = .ok s') : s'.Reachable := by
  induction bs generalizing s with
  | nil =>
    cases hreplay
    exact h
  | cons b bs ih =>
    simp only [Store.replayFrom] at hreplay
    split at hreplay
    · cases hreplay
    · rename_i hcheck
      exact ih (h.publish hcheck) hreplay

theorem replayFrom_append {bs bs' : List Block} :
    s.replayFrom (bs ++ bs') = s.replayFrom bs >>= fun s' => s'.replayFrom bs' := by
  induction bs generalizing s with
  | nil => rfl
  | cons b bs ih =>
    simp only [List.cons_append, Store.replayFrom]
    cases s.check b with
    | error e => rfl
    | ok _ => exact ih

theorem Reachable.replay (h : s.Reachable) : Store.replay s.blocks = .ok s := by
  induction h with
  | empty => rfl
  | @publish s b _ hcheck ih =>
    rw [Store.replay] at ih ⊢
    simp only [Store.publish, replayFrom_append, ih, bind, Except.bind, Store.replayFrom, hcheck]

theorem Reachable.eq_of_blocks_eq {s' : Store} (h : s.Reachable) (h' : s'.Reachable)
    (hblocks : s.blocks = s'.blocks) : s = s' := by
  have hreplay := h.replay
  rw [hblocks, h'.replay] at hreplay
  exact (Except.ok.inj hreplay).symm

/-- The first blocks of a store make up a store. -/
theorem Reachable.exists_take (h : s.Reachable) (n : Nat) :
    ∃ s' : Store, s'.Reachable ∧ s'.blocks = s.blocks.take n := by
  induction h with
  | empty => exact ⟨.empty, .empty, List.take_nil.symm⟩
  | @publish s b hs hcheck ih =>
    by_cases hn : n ≤ s.blocks.length
    · obtain ⟨s', hs', hblocks⟩ := ih
      refine ⟨s', hs', ?_⟩
      rw [hblocks, Store.publish, List.take_append_of_le_length hn]
    · refine ⟨s.publish b, hs.publish hcheck, ?_⟩
      rw [List.take_of_length_le]
      simp only [Store.publish, List.length_append, List.length_singleton]
      omega

end Store

namespace Ledger
variable {μ : Type} {log : BlockLog μ}

theorem reachable_openStore {medium medium' : μ} {s : Store}
    (h : openStore log medium = (.ok s, medium')) : s.Reachable := by
  unfold openStore at h
  split at h
  · cases h
  · rw [Prod.mk.injEq] at h
    exact Store.Reachable.empty.replayFrom h.1

/-- An insertion publishes an admitted block that the log has taken, or leaves the store as it is;
in the second case nothing but a failed append can have touched the medium. -/
theorem insert_cases (log : BlockLog μ) (b : Block) (l : Ledger μ) :
    (l.store.Admits b ∧ ∃ medium, log.append b l.medium = (.ok (), medium) ∧
      l.insert log b = (.ok (), ⟨l.store.publish b, medium⟩)) ∨
    ∃ e medium, l.insert log b = (.error e, ⟨l.store, medium⟩) ∧
      (medium = l.medium ∨ log.append b l.medium = (.error e, medium)) := by
  unfold insert
  cases hcheck : l.store.check b with
  | error e => exact .inr ⟨e, l.medium, rfl, .inl rfl⟩
  | ok _ =>
    cases happend : log.append b l.medium with
    | mk result medium =>
      cases result with
      | error e => exact .inr ⟨e, medium, rfl, .inr rfl⟩
      | ok _ => exact .inl ⟨Store.check_eq_ok_iff.1 hcheck, medium, rfl, rfl⟩

theorem insert_of_admits {b : Block} {l : Ledger μ} (hb : l.store.Admits b)
    (happend : (log.append b l.medium).1 = .ok ()) :
    l.insert log b = (.ok (), ⟨l.store.publish b, (log.append b l.medium).2⟩) := by
  unfold insert
  rw [Store.check_eq_ok_iff.2 hb]
  cases hresult : log.append b l.medium with
  | mk result medium =>
    rw [hresult] at happend
    cases happend
    rfl

theorem insert_of_append_error {b : Block} {l : Ledger μ} {e : StoreError} {medium : μ}
    (hb : l.store.Admits b) (happend : log.append b l.medium = (.error e, medium)) :
    l.insert log b = (.error e, ⟨l.store, medium⟩) := by
  unfold insert
  rw [Store.check_eq_ok_iff.2 hb, happend]

theorem reachable_insert {b : Block} {l : Ledger μ} (h : l.store.Reachable) :
    (l.insert log b).2.store.Reachable := by
  obtain ⟨hb, medium, _, hinsert⟩ | ⟨e, medium, hinsert, _⟩ := insert_cases log b l
  · rw [hinsert]
    exact h.publish (Store.check_eq_ok_iff.2 hb)
  · rw [hinsert]
    exact h

end Ledger

end CosignedLedger
