import CosignedLedger.Proofs.Store.Refinement
import CosignedLedger.Store.Disk

/-!
# Replaying is inserting

A store is opened by replaying its log, and it grows by insertions that are checked and logged one
by one. These are two ways to the same store. Inserting the blocks that a log has loaded into an
empty store, over a log that takes everything, succeeds or fails where opening does, with the same
error, and gives a store with the same answers.

* `BlockLog.Willing`: a log that takes every block.
* `Store.replayFrom_eq_insertAll`: replaying blocks comes to what inserting them comes to.
* `Ledger.AnswersLike`, `Ledger.answersLike_of_store_eq`: two ledgers, whatever their logs, that
  cannot be told apart.
* `Ledger.openStore_inserts`: opening a log, and opening again what a log in memory has taken.
-/

namespace CosignedLedger

/-- The log takes whatever is appended to it. -/
def BlockLog.Willing {μ : Type} (log : BlockLog μ) : Prop :=
  ∀ (b : Block) (medium : μ), (log.append b medium).1 = .ok ()

theorem BlockLog.willing_inMemory : BlockLog.inMemory.Willing := fun _ _ => rfl

namespace Ledger
variable {μ ν : Type} {log : BlockLog μ} {log' : BlockLog ν}

theorem insert_result (log : BlockLog μ) (b : Block) (l : Ledger μ) :
    (l.insert log b).1 = l.store.check b >>= fun _ => (log.append b l.medium).1 := by
  unfold insert
  cases l.store.check b with
  | error e => rfl
  | ok _ =>
    cases log.append b l.medium with
    | mk result medium => cases result <;> rfl

theorem store_insert (log : BlockLog μ) (b : Block) (l : Ledger μ) :
    (l.insert log b).2.store =
      if (l.insert log b).1.isOk then l.store.publish b else l.store := by
  obtain ⟨_, medium, _, hinsert⟩ | ⟨e, medium, hinsert, _⟩ := insert_cases log b l
  · rw [hinsert]
    rfl
  · rw [hinsert]
    rfl

theorem insert_of_willing (hlog : log.Willing) (b : Block) (l : Ledger μ) :
    (l.insert log b).1 = l.store.check b := by
  rw [insert_result, hlog]
  cases l.store.check b <;> rfl

end Ledger

/-- Replaying blocks gives the store that inserting them gives, or the error of the first insertion
that fails. -/
theorem Store.replayFrom_eq_insertAll {μ : Type} {log : BlockLog μ} (hlog : log.Willing)
    (bs : List Block) (l : Ledger μ) :
    l.store.replayFrom bs =
      match (Ledger.insertAll log bs l).1.findSome? Except.error? with
      | some e => .error e
      | none => .ok (Ledger.insertAll log bs l).2.store := by
  induction bs generalizing l with
  | nil => rfl
  | cons b bs ih =>
    have hresult := Ledger.insert_of_willing hlog b l
    have hstore := Ledger.store_insert log b l
    simp only [Ledger.insertAll, Store.replayFrom, List.findSome?_cons, hresult]
    cases hcheck : l.store.check b with
    | error e => rfl
    | ok _ =>
      -- The block is published by both, and the rest is replayed from there.
      rw [hresult, hcheck] at hstore
      have hrest := ih (l.insert log b).2
      rw [hstore] at hrest
      exact hrest

namespace Ledger
variable {μ ν : Type} {log : BlockLog μ} {log' : BlockLog ν} {l : Ledger μ} {l' : Ledger ν}

/-- Whatever the two ledgers are asked they answer alike, and whatever is inserted into them comes to
the same, unless one of their logs refuses what the other one takes. -/
structure AnswersLike (log : BlockLog μ) (l : Ledger μ) (log' : BlockLog ν) (l' : Ledger ν) :
    Prop where
  read : ∀ i, l.store.read i = l'.store.read i
  readByHash : ∀ hash, l.store.readByHash hash = l'.store.readByHash hash
  indexOf? : ∀ hash, l.store.indexOf? hash = l'.store.indexOf? hash
  size : l.store.size = l'.store.size
  last? : l.store.last? = l'.store.last?
  genesis? : l.store.genesis? = l'.store.genesis?
  check : ∀ b, l.store.check b = l'.store.check b
  insert : ∀ b, (log.append b l.medium).1 = (log'.append b l'.medium).1 →
    (l.insert log b).1 = (l'.insert log' b).1
  insertAll : ∀ bs, (∀ b ∈ bs, ∀ medium medium',
      (log.append b medium).1 = (log'.append b medium').1) →
    (insertAll log bs l).1 = (insertAll log' bs l').1

theorem insert_congr {b : Block} (hstore : l.store = l'.store)
    (hlogs : (log.append b l.medium).1 = (log'.append b l'.medium).1) :
    (l.insert log b).1 = (l'.insert log' b).1 ∧
      (l.insert log b).2.store = (l'.insert log' b).2.store := by
  have hresult : (l.insert log b).1 = (l'.insert log' b).1 := by
    rw [insert_result, insert_result, hstore, hlogs]
  exact ⟨hresult, by rw [store_insert, store_insert, hresult, hstore]⟩

theorem insertAll_congr {bs : List Block} (hstore : l.store = l'.store)
    (hlogs : ∀ b ∈ bs, ∀ medium medium', (log.append b medium).1 = (log'.append b medium').1) :
    (insertAll log bs l).1 = (insertAll log' bs l').1 := by
  induction bs generalizing l l' with
  | nil => rfl
  | cons b bs ih =>
    obtain ⟨hresult, hnext⟩ := insert_congr hstore (hlogs b List.mem_cons_self l.medium l'.medium)
    have hrest := ih hnext fun x hx => hlogs x (List.mem_cons_of_mem b hx)
    simp only [insertAll]
    rw [hresult, hrest]

/-- Nothing that can be seen of a ledger is kept in its log, but for what the log refuses. -/
theorem answersLike_of_store_eq (hstore : l.store = l'.store) : AnswersLike log l log' l' where
  read i := by rw [hstore]
  readByHash hash := by rw [hstore]
  indexOf? hash := by rw [hstore]
  size := by rw [hstore]
  last? := by rw [hstore]
  genesis? := by rw [hstore]
  check b := by rw [hstore]
  insert _ hlogs := (insert_congr hstore hlogs).1
  insertAll _ hlogs := insertAll_congr hstore hlogs

theorem openStore_of_load {medium opened : μ} {bs : List Block}
    (hload : log.load medium = (.ok bs, opened)) :
    openStore log medium = (Store.replay bs, opened) := by
  rw [openStore, hload]

theorem medium_insert_inMemory (b : Block) {l : Ledger (List Block)} (h : l.medium = l.store.blocks) :
    (l.insert .inMemory b).2.medium = (l.insert .inMemory b).2.store.blocks := by
  obtain ⟨_, medium, happend, hinsert⟩ | ⟨e, medium, hinsert, hmedium | happend⟩ :=
    insert_cases .inMemory b l
  · cases happend
    rw [hinsert, h]
    rfl
  · rw [hinsert, hmedium, h]
  · cases happend

theorem medium_insertAll_inMemory (bs : List Block) {l : Ledger (List Block)}
    (h : l.medium = l.store.blocks) :
    (insertAll .inMemory bs l).2.medium = (insertAll .inMemory bs l).2.store.blocks := by
  induction bs generalizing l with
  | nil => exact h
  | cons b bs ih => exact ih (medium_insert_inMemory b h)

theorem openStore_insertAll_inMemory {blocks kept : List Block} {s : Store}
    (hopen : openStore .inMemory blocks = (.ok s, kept)) (bs : List Block) :
    let run := insertAll .inMemory bs ⟨s, kept⟩
    openStore .inMemory run.2.medium = (.ok run.2.store, run.2.medium) := by
  intro run
  have hloads : ∀ held : List Block,
      openStore .inMemory held = (Store.replay held, held) := fun _ => openStore_of_load rfl
  have hkept : kept = s.blocks := by
    rw [hloads, Prod.mk.injEq] at hopen
    rw [← hopen.2, Store.blocks_of_replayFrom hopen.1]
    rfl
  have hmedium : run.2.medium = run.2.store.blocks := medium_insertAll_inMemory bs hkept
  have hreachable : run.2.store.Reachable :=
    reachable_insertAll .inMemory bs (reachable_openStore hopen)
  rw [hloads, hmedium, hreachable.replay]

/-- **Replaying is inserting.** A log opens exactly if its blocks can all be inserted, one by one,
into an empty store over a log that takes everything. Then the two stores cannot be told apart, now
or later; otherwise opening fails with the error of the first insertion that does. And whatever was
inserted into a store over a log in memory, opening that log again gives a store that cannot be told
apart from it. -/
theorem openStore_inserts {medium opened : μ} {bs : List Block}
    (hload : log.load medium = (.ok bs, opened)) (hlog' : log'.Willing) (start : ν) :
    let run := insertAll log' bs ⟨.empty, start⟩
    ((∃ s, openStore log medium = (.ok s, opened)) ↔ ∀ result ∈ run.1, result = .ok ()) ∧
    (∀ s, openStore log medium = (.ok s, opened) → AnswersLike log ⟨s, opened⟩ log' run.2) ∧
    (∀ e, openStore log medium = (.error e, opened) ↔
      run.1.findSome? Except.error? = some e) ∧
    ∀ (blocks kept : List Block) (s : Store), openStore .inMemory blocks = (.ok s, kept) →
      ∀ more, let run := insertAll .inMemory more ⟨s, kept⟩
      ∃ s', openStore .inMemory run.2.medium = (.ok s', run.2.medium) ∧
        AnswersLike .inMemory ⟨s', run.2.medium⟩ .inMemory run.2 := by
  intro run
  have hreplay : Store.replay bs = match run.1.findSome? Except.error? with
      | some e => .error e
      | none => .ok run.2.store := Store.replayFrom_eq_insertAll hlog' bs ⟨.empty, start⟩
  have hnone : run.1.findSome? Except.error? = none ↔ ∀ result ∈ run.1, result = .ok () := by
    rw [List.findSome?_eq_none_iff]
    refine forall₂_congr fun result _ => ?_
    cases result <;> simp [Except.error?]
  rw [openStore_of_load hload, ← hnone, hreplay]
  refine ⟨?_, ?_, ?_, ?_⟩
  · cases run.1.findSome? Except.error? <;> simp
  · intro s hs
    refine answersLike_of_store_eq ?_
    cases hfirst : run.1.findSome? Except.error? with
    | none =>
      rw [hfirst, Prod.mk.injEq, Except.ok.injEq] at hs
      exact hs.1.symm
    | some e =>
      rw [hfirst] at hs
      cases hs
  · intro e
    cases run.1.findSome? Except.error? <;> simp
  · intro blocks kept s hopen more
    exact ⟨_, openStore_insertAll_inMemory hopen more, answersLike_of_store_eq rfl⟩

open Transparent in
/-- A log with all blocks opens. Without the third one it fails where the last one is inserted. -/
theorem openStore_inserts_gapped :
    let gapped := rotated.blocks.eraseIdx 2
    BlockLog.inMemory.Willing ∧
    (∀ bs, Storage.log.load (.memory bs, .empty) = (.ok bs, .memory bs, .empty)) ∧
    (∃ s, openStore Storage.log (.memory rotated.blocks, .empty) =
      (.ok s, .memory rotated.blocks, .empty)) ∧
    (insertAll .inMemory gapped ⟨.empty, []⟩).1 = [.ok (), .ok (), .error (.outOfOrder 2 3)] ∧
    openStore Storage.log (.memory gapped, .empty) =
      (.error (.outOfOrder 2 3), .memory gapped, .empty) := by
  intro gapped
  have hload : ∀ bs, Storage.log.load (.memory bs, .empty) = (.ok bs, .memory bs, .empty) :=
    fun _ => rfl
  obtain ⟨hopens, _⟩ :=
    openStore_inserts (hload rotated.blocks) BlockLog.willing_inMemory []
  obtain ⟨_, _, hfails, _⟩ := openStore_inserts (hload gapped) BlockLog.willing_inMemory []
  have hall : (insertAll .inMemory rotated.blocks ⟨.empty, []⟩).1 =
      [.ok (), .ok (), .ok (), .ok ()] := rfl
  have hthird : (insertAll .inMemory gapped ⟨.empty, []⟩).1 =
      [.ok (), .ok (), .error (.outOfOrder 2 3)] := rfl
  refine ⟨BlockLog.willing_inMemory, hload, hopens.2 ?_, hthird, (hfails _).2 ?_⟩
  · rw [hall]
    simp
  · rw [hthird]
    rfl

end Ledger

end CosignedLedger
