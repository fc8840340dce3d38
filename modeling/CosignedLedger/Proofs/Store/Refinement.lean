import CosignedLedger.Proofs.Store.Coherent
import CosignedLedger.Proofs.Transparent

/-!
# The store as a list

Seen from outside, a store over any log is the list of the blocks that were loaded and then
inserted with success. Its answers are those of the list, and whether a block is stored is decided
by the list and the log.

* `Storable`, `Block.Continues`: lists that a store can hold, and what may come after one.
* `Store.Shows`: a store whose every answer is that of a list; `Store.Coherent.shows`.
* `Store.exists_reachable_take`: there is a store for the first part of such a list.
* `BlockLog.appendAll`: what becomes of a log to which several blocks are appended.
* `Ledger.insert_eq_ok_iff`: when an insertion succeeds.
* `Ledger.insertAll`, `Ledger.insertAll_blocks`: a run of insertions and the blocks that it leaves.
* `Ledger.Lists`, `Ledger.insertAll_lists`: a ledger behaves as a list whatever is inserted and
  whenever the log fails.
-/

namespace CosignedLedger

/-- Blocks that a store can hold: they follow each other, and only the first of them may have the
zero hash. -/
structure Storable (blocks : List Block) : Prop extends Consecutive blocks where
  nonzero : ∀ {i : Nat} {b : Block}, blocks[i]? = some b → 0 < i → b.hash ≠ .zero

structure Block.Continues (b : Block) (blocks : List Block) : Prop where
  index : b.index = blocks.length
  fresh : ∀ a ∈ blocks, a.hash ≠ b.hash
  previous : b.previousHash = (blocks.getLast?.map (·.hash)).getD .zero
  nonzero : 0 < b.index → b.hash ≠ .zero

theorem Storable.continues {blocks : List Block} (h : Storable blocks) {k : Nat} {b : Block}
    (hb : blocks[k]? = some b) : b.Continues (blocks.take k) where
  index := by
    have hk := (List.getElem?_eq_some_iff.1 hb).1
    rw [h.position hb, List.length_take, Nat.min_eq_left (Nat.le_of_lt hk)]
  fresh := by
    intro a ha heq
    obtain ⟨i, hi⟩ := List.getElem?_of_mem ha
    rw [List.getElem?_take] at hi
    split at hi
    · rename_i hik
      have hab := h.eq_of_hash_eq (List.mem_of_getElem? hi) (List.mem_of_getElem? hb) heq
      have hindex := h.position hi
      rw [hab, h.position hb] at hindex
      exact absurd hindex (Nat.ne_of_gt hik)
    · cases hi
  previous := by
    cases k with
    | zero => exact h.first hb
    | succ k =>
      have hk := (List.getElem?_eq_some_iff.1 hb).1
      have ha : blocks[k]? = some blocks[k] := List.getElem?_eq_getElem (by omega)
      rw [List.take_add_one, ha, Option.toList_some, List.getLast?_concat]
      exact h.linked ha hb
  nonzero := by
    rw [h.position hb]
    exact h.nonzero hb

namespace Store
variable {s : Store} {b : Block}

/-- Whatever the store is asked, it answers as the list of blocks would. -/
structure Shows (s : Store) (blocks : List Block) : Prop where
  size : s.size = blocks.length
  genesis? : s.genesis? = blocks.head?
  last? : s.last? = blocks.getLast?
  read : ∀ i : Nat, s.read i = blocks[i]?.elim (.error (.notFound i)) .ok
  indexOf? : ∀ {hash : Digest} {i : Nat},
    s.indexOf? hash = some i ↔ ∃ b, blocks[i]? = some b ∧ b.hash = hash
  readByHash : ∀ {hash : Digest} {b : Block},
    s.readByHash hash = .ok b ↔ ∃ i : Nat, blocks[i]? = some b ∧ b.hash = hash
  missing : ∀ {hash : Digest}, (∀ b ∈ blocks, b.hash ≠ hash) →
    s.indexOf? hash = none ∧ s.readByHash hash = .error (.hashNotFound hash)

namespace Coherent

theorem storable (h : s.Coherent) : Storable s.blocks where
  toConsecutive := h.toConsecutive
  nonzero := h.nonzero

theorem indexOf?_eq_some_iff (h : s.Coherent) {hash : Digest} {i : Nat} :
    s.indexOf? hash = some i ↔ ∃ b, s.blocks[i]? = some b ∧ b.hash = hash := by
  rw [h.indexed hash]
  constructor
  · intro hfind
    obtain ⟨hi, heq, _⟩ := List.findIdx?_eq_some_iff_getElem.1 hfind
    exact ⟨s.blocks[i], List.getElem?_eq_getElem hi, by simpa using heq⟩
  · rintro ⟨b, hb, rfl⟩
    cases hfind : s.blocks.findIdx? (·.hash = b.hash) with
    | none =>
      rw [List.findIdx?_eq_none_iff] at hfind
      simpa using hfind b (List.mem_of_getElem? hb)
    | some j =>
      obtain ⟨hj, heq, _⟩ := List.findIdx?_eq_some_iff_getElem.1 hfind
      have hab : s.blocks[j] = b :=
        h.eq_of_hash_eq (List.getElem_mem hj) (List.mem_of_getElem? hb) (by simpa using heq)
      rw [← h.position hb, ← hab, h.position (List.getElem?_eq_getElem hj)]

theorem shows (h : s.Coherent) : s.Shows s.blocks where
  size := rfl
  genesis? := rfl
  last? := rfl
  read := by
    intro i
    unfold Store.read
    cases s.blocks[i]? <;> rfl
  indexOf? := h.indexOf?_eq_some_iff
  readByHash := by
    intro hash b
    rw [h.readByHash_eq_ok_iff, List.mem_iff_getElem?]
    exact exists_and_right.symm
  missing := by
    intro hash hmissing
    have hnone : s.indexOf? hash = none := h.indexed.fresh_iff.2 hmissing
    exact ⟨hnone, by rw [Store.readByHash, hnone]; rfl⟩

/-- What the positions and the last block decide is decided by the list. -/
theorem admits_iff_continues (h : s.Coherent) : s.Admits b ↔ b.Continues s.blocks := by
  constructor
  · intro hb
    exact ⟨hb.index, h.indexed.fresh_iff.1 hb.fresh, hb.previous, hb.nonzero⟩
  · intro hb
    exact ⟨hb.index, h.indexed.fresh_iff.2 hb.fresh, hb.previous, hb.nonzero⟩

end Coherent

theorem exists_reachable_take {blocks : List Block} (h : Storable blocks) (n : Nat) :
    ∃ s : Store, s.Reachable ∧ s.blocks = blocks.take n := by
  induction n with
  | zero => exact ⟨.empty, .empty, rfl⟩
  | succ n ih =>
    obtain ⟨s, hs, hblocks⟩ := ih
    cases hb : blocks[n]? with
    | none =>
      refine ⟨s, hs, ?_⟩
      rw [hblocks, List.take_add_one, hb, Option.toList_none, List.append_nil]
    | some b =>
      have hadmits : s.Admits b := hs.coherent.admits_iff_continues.2 (hblocks ▸ h.continues hb)
      refine ⟨s.publish b, hs.publish (check_eq_ok_iff.2 hadmits), ?_⟩
      rw [Store.publish, hblocks, List.take_add_one, hb, Option.toList_some]

theorem blocks_of_replayFrom {bs : List Block} {s' : Store} (h : s.replayFrom bs = .ok s') :
    s'.blocks = s.blocks ++ bs := by
  induction bs generalizing s with
  | nil =>
    cases h
    rw [List.append_nil]
  | cons b bs ih =>
    simp only [replayFrom] at h
    split at h
    · cases h
    · rw [ih h, publish, List.append_assoc]
      rfl

end Store

namespace BlockLog
variable {μ : Type} {log : BlockLog μ}

def appendAll (log : BlockLog μ) : List Block → μ → Except StoreError Unit × μ
  | [], medium => (.ok (), medium)
  | b :: bs, medium =>
    match log.append b medium with
    | (.error e, medium) => (.error e, medium)
    | (.ok (), medium) => log.appendAll bs medium

theorem appendAll_of_ok {bs : List Block}
    (h : ∀ b ∈ bs, ∀ medium, (log.append b medium).1 = .ok ()) (medium : μ) :
    (log.appendAll bs medium).1 = .ok () := by
  induction bs generalizing medium with
  | nil => rfl
  | cons b bs ih =>
    have happend := h b List.mem_cons_self medium
    rw [appendAll]
    cases hresult : log.append b medium with
    | mk result medium' =>
      rw [hresult] at happend
      cases happend
      exact ih (fun b' hb' => h b' (List.mem_cons_of_mem b hb')) medium'

end BlockLog

namespace Ledger
variable {μ : Type} {log : BlockLog μ}

theorem load_of_openStore {medium opened : μ} {s : Store}
    (h : openStore log medium = (.ok s, opened)) : (log.load medium).1 = .ok s.blocks := by
  unfold openStore at h
  split at h
  · cases h
  · rename_i blocks medium' hload
    rw [Prod.mk.injEq] at h
    rw [hload, Store.blocks_of_replayFrom h.1]
    rfl

theorem insert_eq_ok_iff {b : Block} {l : Ledger μ} :
    (l.insert log b).1 = .ok () ↔ l.store.Admits b ∧ (log.append b l.medium).1 = .ok () := by
  constructor
  · intro h
    obtain ⟨hb, medium, happend, _⟩ | ⟨e, medium, hinsert, _⟩ := insert_cases log b l
    · exact ⟨hb, by rw [happend]⟩
    · rw [hinsert] at h
      cases h
  · rintro ⟨hb, happend⟩
    rw [insert_of_admits hb happend]

/-- An insertion adds the block at the end exactly if it succeeds. -/
theorem insert_blocks (log : BlockLog μ) (b : Block) (l : Ledger μ) :
    (l.insert log b).2.store.blocks =
      if (l.insert log b).1.isOk then l.store.blocks ++ [b] else l.store.blocks := by
  obtain ⟨_, medium, _, hinsert⟩ | ⟨e, medium, hinsert, _⟩ := insert_cases log b l
  · rw [hinsert]
    rfl
  · rw [hinsert]
    rfl

variable (log) in
/-- Inserts blocks one after the other, whether or not the ones before were taken, and gives the
result of each. -/
def insertAll : List Block → Ledger μ → List (Except StoreError Unit) × Ledger μ
  | [], l => ([], l)
  | b :: bs, l =>
    let (result, l) := l.insert log b
    let (results, l) := insertAll bs l
    (result :: results, l)

def taken (bs : List Block) (results : List (Except StoreError Unit)) : List Block :=
  ((bs.zip results).filter (·.2.isOk)).map (·.1)

theorem taken_cons (b : Block) (bs : List Block) (result : Except StoreError Unit)
    (results : List (Except StoreError Unit)) :
    taken (b :: bs) (result :: results) =
      (if result.isOk then [b] else []) ++ taken bs results := by
  cases h : result.isOk <;> simp [taken, h]

theorem reachable_insertAll (log : BlockLog μ) (bs : List Block) {l : Ledger μ}
    (h : l.store.Reachable) :
    (insertAll log bs l).2.store.Reachable := by
  induction bs generalizing l with
  | nil => exact h
  | cons b bs ih => exact ih (reachable_insert h)

theorem insertAll_blocks (log : BlockLog μ) (bs : List Block) (l : Ledger μ) :
    (insertAll log bs l).2.store.blocks = l.store.blocks ++ taken bs (insertAll log bs l).1 := by
  induction bs generalizing l with
  | nil => exact (List.append_nil _).symm
  | cons b bs ih =>
    simp only [insertAll, ih, insert_blocks, taken_cons]
    cases (l.insert log b).1.isOk <;> simp

theorem length_taken_insertAll (log : BlockLog μ) (bs : List Block) (l : Ledger μ) :
    (taken bs (insertAll log bs l).1).length = (insertAll log bs l).1.countP Except.isOk := by
  induction bs generalizing l with
  | nil => rfl
  | cons b bs ih =>
    simp only [insertAll, taken_cons, List.length_append, ih, List.countP_cons]
    cases (l.insert log b).1.isOk <;> simp [Nat.add_comm]

/-- The ledger behaves as a list of blocks: the store shows it, and a block that continues it and is
accepted by the log comes at its end, while any other leaves it as it is. -/
structure Lists (log : BlockLog μ) (l : Ledger μ) (blocks : List Block) : Prop where
  storable : Storable blocks
  shows : l.store.Shows blocks
  insert_ok : ∀ b : Block,
    (l.insert log b).1 = .ok () ↔ b.Continues blocks ∧ (log.append b l.medium).1 = .ok ()
  insert_shows : ∀ b : Block,
    (l.insert log b).2.store.Shows (if (l.insert log b).1.isOk then blocks ++ [b] else blocks)

theorem lists_of_reachable {l : Ledger μ} (h : l.store.Reachable) :
    l.Lists log l.store.blocks where
  storable := h.coherent.storable
  shows := h.coherent.shows
  insert_ok b := by rw [← h.coherent.admits_iff_continues, insert_eq_ok_iff]
  insert_shows b := by
    rw [← insert_blocks]
    exact (reachable_insert h).coherent.shows

/-- **A store is the list of its blocks.** Whatever is inserted into a store that was opened over a
log, and whenever the log fails, the ledger behaves as the list of the loaded blocks and then those
that were taken. -/
theorem insertAll_lists {medium opened : μ} {s : Store}
    (hopen : openStore log medium = (.ok s, opened)) (bs : List Block) :
    ∃ loaded, (log.load medium).1 = .ok loaded ∧
      let run := insertAll log bs ⟨s, opened⟩
      run.2.Lists log (loaded ++ taken bs run.1) ∧
      run.2.store.size = loaded.length + run.1.countP Except.isOk := by
  refine ⟨s.blocks, load_of_openStore hopen, ?_⟩
  have hreachable : (insertAll log bs ⟨s, opened⟩).2.store.Reachable :=
    reachable_insertAll log bs (reachable_openStore hopen)
  have hblocks := insertAll_blocks log bs ⟨s, opened⟩
  dsimp only at hblocks ⊢
  rw [← hblocks]
  refine ⟨lists_of_reachable hreachable, ?_⟩
  rw [Store.size, hblocks, List.length_append, length_taken_insertAll]

open Transparent in
/-- A log with room for two blocks fails at the third, after which the fourth is out of order. -/
theorem insertAll_lists_failing :
    openStore .failing 2 = (.ok .empty, 2) ∧
    let run := insertAll .failing rotated.blocks ⟨.empty, 2⟩
    run.1 = [.ok (), .ok (), .error (.log .full), .error (.outOfOrder 2 3)] ∧
    ∃ loaded, (BlockLog.failing.load 2).1 = .ok loaded ∧
      run.2.Lists .failing (loaded ++ taken rotated.blocks run.1) ∧
      run.2.store.size = loaded.length + run.1.countP Except.isOk :=
  ⟨rfl, rfl, insertAll_lists rfl rotated.blocks⟩

end Ledger

end CosignedLedger
