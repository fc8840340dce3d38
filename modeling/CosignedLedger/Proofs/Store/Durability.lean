import CosignedLedger.Proofs.Store.Coherent
import CosignedLedger.Proofs.Store.Records

/-!
# What a file of records keeps

A store over a file of records is opened, blocks are inserted, some writes fail half-way, and the
process crashes now and then while it appends. Whatever happens in whatever order, opening the file
again gives the blocks that were kept: those whose insertion has succeeded, and one that a crash
has caught only if all of its record had been written by then.

* `RecordWriter.stopping`, `RecordWriter.cut`: writes at the end that fail, or that a crash cuts.
* `Session.step`, `Session.run`: what an event does, and what a list of them does.
* `Session.Sound`: the file holds the records of the kept blocks, and after a crash perhaps a part
  of one more; whoever runs holds the kept blocks.
* `Session.run_durable`: after any events the file opens with the kept blocks, and an insertion
  that fails has changed neither the store nor the file.
-/

namespace CosignedLedger

namespace RecordWriter

def stopping (stop : Option (FileFault × Nat)) : RecordWriter := fun contents record =>
  match stop with
  | none => (.ok (), contents ++ record)
  | some (fault, count) => (.error fault, contents ++ record.take count)

/-- Writes at the end what a crash lets through. -/
def cut (count : Nat) : RecordWriter := fun contents record =>
  (.ok (), contents ++ record.take count)

theorem upTo_eq_stopping (limit : Option Nat) (contents record : Bytes) :
    ∃ stop, upTo limit contents record = stopping stop contents record := by
  cases limit with
  | none => exact ⟨none, rfl⟩
  | some limit =>
    by_cases h : contents.length + record.length ≤ limit
    · exact ⟨none, by simp only [upTo, if_pos h, stopping]⟩
    · exact ⟨some (.tooLarge, limit - contents.length), by simp only [upTo, if_neg h, stopping]⟩

end RecordWriter

namespace Ledger
variable {path : String} {b : Block}

theorem insert_records_cases (path : String) (write : RecordWriter) (b : Block) (l : Ledger Bytes) :
    (l.store.Admits b ∧ Record.Fits b ∧ l.insert (.records path write) b =
      match write l.medium (Record.ofBlock b) with
      | (.ok (), contents) => (.ok (), ⟨l.store.publish b, contents⟩)
      | (.error fault, written) =>
        (.error (.log (.file path fault)), ⟨l.store, written.take l.medium.length⟩)) ∨
    ∃ e, l.insert (.records path write) b = (.error e, l) := by
  unfold insert
  cases hcheck : l.store.check b with
  | error e => exact .inr ⟨e, rfl⟩
  | ok _ =>
    by_cases hb : Record.Fits b
    · refine .inl ⟨Store.check_eq_ok_iff.1 hcheck, hb, ?_⟩
      simp only [BlockLog.records, BlockLog.appendRecord, if_neg (Nat.not_le.2 hb), Record.ofBlock]
      cases write l.medium (Record.frame (Block.format.write b)) with
      | mk result written => cases result <;> rfl
    · refine .inr ⟨.log (.recordTooLarge (Block.format.write b).length), ?_⟩
      simp only [BlockLog.records, BlockLog.appendRecord, if_pos (Nat.not_lt.1 hb)]

/-- A write that stops half-way is cut back, so a failed insertion has changed nothing. -/
theorem insert_stopping_cases (path : String) (stop : Option (FileFault × Nat)) (b : Block)
    (l : Ledger Bytes) :
    (l.store.Admits b ∧ Record.Fits b ∧ l.insert (.records path (.stopping stop)) b =
      (.ok (), ⟨l.store.publish b, l.medium ++ Record.ofBlock b⟩)) ∨
    ∃ e, l.insert (.records path (.stopping stop)) b = (.error e, l) := by
  obtain ⟨hb, hfits, hinsert⟩ | hnothing := insert_records_cases path (.stopping stop) b l
  · cases stop with
    | none => exact .inl ⟨hb, hfits, hinsert⟩
    | some stop =>
      refine .inr ⟨.log (.file path stop.1), ?_⟩
      rw [hinsert]
      simp only [RecordWriter.stopping, List.take_left' rfl]
  · exact .inr hnothing

theorem insert_cut_cases (path : String) (count : Nat) (b : Block) (l : Ledger Bytes) :
    (l.store.Admits b ∧ Record.Fits b ∧ (l.insert (.records path (.cut count)) b).2.medium =
      l.medium ++ (Record.ofBlock b).take count) ∨
    (l.insert (.records path (.cut count)) b).2.medium = l.medium := by
  obtain ⟨hb, hfits, hinsert⟩ | ⟨e, hinsert⟩ := insert_records_cases path (.cut count) b l
  · exact .inl ⟨hb, hfits, by rw [hinsert]; rfl⟩
  · exact .inr (by rw [hinsert])

theorem openStore_ofBlocks {write : RecordWriter} {store : Store} (hstore : store.Reachable)
    (hfits : ∀ b ∈ store.blocks, Record.Fits b) {rest : Bytes} (hrest : Record.split? rest = none) :
    openStore (.records path write) (Record.ofBlocks store.blocks ++ rest) =
      (.ok store, Record.ofBlocks store.blocks) := by
  simp only [openStore, BlockLog.records, BlockLog.loadRecords_ofBlocks hfits hrest, hstore.replay]

end Ledger

/-- A file with the store over it, if a process runs. The blocks that have to be there when the
file is opened again are noted beside them. -/
structure Session where
  contents : Bytes
  running : Option Store
  kept : List Block

namespace Session

inductive Event where
  /-- An insertion, whose write may stop half-way. -/
  | insert (b : Block) (stop : Option (FileFault × Nat))
  /-- The process ends, if one runs, and another opens the file. -/
  | reopen
  /-- The process dies while it inserts, with so many bytes of the record written. -/
  | crash (b : Block) (count : Nat)

def start : Session := ⟨[], some .empty, []⟩

variable (path : String)

def step (s : Session) : Event → Session
  | .insert b stop =>
    match s.running with
    | none => s
    | some store =>
      let (result, l) := (Ledger.mk store s.contents).insert (.records path (.stopping stop)) b
      let kept := match result with
        | .ok () => s.kept ++ [b]
        | .error _ => s.kept
      ⟨l.medium, some l.store, kept⟩
  | .reopen =>
    let (result, contents) := Ledger.openStore (.records path (.stopping none)) s.contents
    ⟨contents, result.toOption, s.kept⟩
  | .crash b count =>
    match s.running with
    | none => s
    | some store =>
      let contents := ((Ledger.mk store s.contents).insert (.records path (.cut count)) b).2.medium
      let kept := if contents = s.contents ++ Record.ofBlock b then s.kept ++ [b] else s.kept
      ⟨contents, none, kept⟩

def run (s : Session) (events : List Event) : Session := events.foldl (step path) s

/-- The kept blocks make up `store`. The file holds their records and then no complete one, and if
a process runs, nothing follows the records and the process holds `store`. -/
structure Sound (s : Session) (store : Store) : Prop where
  reachable : store.Reachable
  blocks_eq : store.blocks = s.kept
  fits : ∀ b ∈ s.kept, Record.Fits b
  contents : ∃ rest, s.contents = Record.ofBlocks s.kept ++ rest ∧ Record.split? rest = none
  running : s.running = none ∨ s.running = some store ∧ s.contents = Record.ofBlocks s.kept

variable {path} {s : Session} {store : Store}

theorem Sound.openStore (h : s.Sound store) {write : RecordWriter} :
    Ledger.openStore (.records path write) s.contents = (.ok store, Record.ofBlocks s.kept) := by
  obtain ⟨rest, hcontents, hrest⟩ := h.contents
  rw [hcontents, ← h.blocks_eq]
  exact Ledger.openStore_ofBlocks h.reachable (h.blocks_eq ▸ h.fits) hrest

theorem sound_start : start.Sound .empty where
  reachable := .empty
  blocks_eq := rfl
  fits b hb := by simp [start] at hb
  contents := ⟨[], rfl, rfl⟩
  running := .inr ⟨rfl, rfl⟩

theorem Sound.append {b : Block} (h : s.Sound store) (hcontents : s.contents = Record.ofBlocks s.kept)
    (hb : store.Admits b) (hfits : Record.Fits b) {running : Option Store}
    (hrunning : running = none ∨ running = some (store.publish b)) :
    (Session.mk (s.contents ++ Record.ofBlock b) running (s.kept ++ [b])).Sound (store.publish b) := by
  have hcontents' : s.contents ++ Record.ofBlock b = Record.ofBlocks (s.kept ++ [b]) := by
    rw [hcontents, Record.ofBlocks_append]
  refine ⟨h.reachable.publish (Store.check_eq_ok_iff.2 hb), ?_, ?_, ⟨[], ?_, rfl⟩, ?_⟩
  · rw [Store.publish, h.blocks_eq]
  · intro b' hb'
    rcases List.mem_append.1 hb' with hb' | hb'
    · exact h.fits b' hb'
    · rw [List.mem_singleton.1 hb']
      exact hfits
  · rw [hcontents', List.append_nil]
  · exact hrunning.imp_right fun hrunning => ⟨hrunning, hcontents'⟩

/-- Without a process, anything that is no complete record may follow. -/
theorem Sound.crash (h : s.Sound store) (hcontents : s.contents = Record.ofBlocks s.kept)
    {rest : Bytes} (hrest : Record.split? rest = none) :
    (Session.mk (s.contents ++ rest) none s.kept).Sound store where
  reachable := h.reachable
  blocks_eq := h.blocks_eq
  fits := h.fits
  contents := ⟨rest, by rw [hcontents], hrest⟩
  running := .inl rfl

theorem Sound.reopen (h : s.Sound store) :
    (Session.mk (Record.ofBlocks s.kept) (some store) s.kept).Sound store where
  reachable := h.reachable
  blocks_eq := h.blocks_eq
  fits := h.fits
  contents := ⟨[], by rw [List.append_nil], rfl⟩
  running := .inr ⟨rfl, rfl⟩

theorem append_ne_append_ofBlock {contents part : Bytes} {b : Block}
    (hpart : part.length < (Record.ofBlock b).length) :
    contents ++ part ≠ contents ++ Record.ofBlock b := by
  intro heq
  rw [List.append_cancel_left heq] at hpart
  exact Nat.lt_irrefl _ hpart

theorem step_insert_sound (path : String) (h : s.Sound store) (b : Block)
    (stop : Option (FileFault × Nat)) : ∃ store', (s.step path (.insert b stop)).Sound store' := by
  simp only [step]
  rcases h.running with hrunning | ⟨hrunning, hcontents⟩
  · rw [hrunning]
    exact ⟨store, h⟩
  · simp only [hrunning]
    obtain ⟨hb, hfits, hinsert⟩ | ⟨e, hinsert⟩ :=
      Ledger.insert_stopping_cases path stop b ⟨store, s.contents⟩
    · rw [hinsert]
      exact ⟨_, h.append hcontents hb hfits (.inr rfl)⟩
    · rw [hinsert]
      dsimp only
      rw [← hrunning]
      exact ⟨store, h⟩

/-- What a crash leaves of a record is either all of it or no complete record. -/
theorem step_crash_sound (path : String) (h : s.Sound store) (b : Block) (count : Nat) :
    ∃ store', (s.step path (.crash b count)).Sound store' := by
  simp only [step]
  rcases h.running with hrunning | ⟨hrunning, hcontents⟩
  · rw [hrunning]
    exact ⟨store, h⟩
  · simp only [hrunning]
    obtain ⟨hb, hfits, hmedium⟩ | hmedium := Ledger.insert_cut_cases path count b ⟨store, s.contents⟩
    · rw [hmedium]
      by_cases hcount : count < (Record.ofBlock b).length
      · have hpart : ((Record.ofBlock b).take count).length < (Record.ofBlock b).length := by
          rw [List.length_take]
          omega
        rw [if_neg (append_ne_append_ofBlock hpart)]
        exact ⟨store, h.crash hcontents (Record.split?_take_ofBlock hfits hcount)⟩
      · -- All of the record was written, though the process did not live to say so.
        rw [List.take_of_length_le (Nat.not_lt.1 hcount), if_pos rfl]
        exact ⟨_, h.append hcontents hb hfits (.inl rfl)⟩
    · -- The block was refused, so nothing has been written.
      have hpart : ([] : Bytes).length < (Record.ofBlock b).length := by
        rw [Record.length_ofBlock, List.length_nil]
        omega
      have hne := @append_ne_append_ofBlock s.contents _ _ hpart
      have hsound := h.crash hcontents Record.split?_nil
      rw [List.append_nil] at hne hsound
      rw [hmedium, if_neg hne]
      exact ⟨store, hsound⟩

theorem step_sound (path : String) (h : s.Sound store) (event : Event) :
    ∃ store', (s.step path event).Sound store' := by
  cases event with
  | insert b stop => exact step_insert_sound path h b stop
  | reopen =>
    simp only [step, h.openStore]
    exact ⟨store, h.reopen⟩
  | crash b count => exact step_crash_sound path h b count

theorem run_sound (path : String) (h : s.Sound store) (events : List Event) :
    ∃ store', (s.run path events).Sound store' := by
  induction events generalizing s store with
  | nil => exact ⟨store, h⟩
  | cons event events ih =>
    obtain ⟨store', h'⟩ := step_sound path h event
    exact ih h'

/-- **What is kept is found again.** After any events from an empty file on, the file opens with
exactly the kept blocks, as the running process holds them; and an insertion there succeeds or
leaves both the store and the file as they are. -/
theorem run_durable (path : String) (write : RecordWriter) (events : List Event) :
    let s := start.run path events
    (∃ store contents, Ledger.openStore (.records path write) s.contents = (.ok store, contents) ∧
      store.blocks = s.kept ∧ (s.running = none ∨ s.running = some store)) ∧
    ∀ (store : Store) (b : Block) (stop : Option (FileFault × Nat)),
      let inserted := (Ledger.mk store s.contents).insert (.records path (.stopping stop)) b
      inserted.1 = .ok () ∨ inserted.2 = ⟨store, s.contents⟩ := by
  obtain ⟨store, hsound⟩ := run_sound path sound_start events
  have hrunning := hsound.running.imp_right fun h => h.1
  refine ⟨⟨store, _, hsound.openStore, hsound.blocks_eq, hrunning⟩, ?_⟩
  intro store b stop
  obtain ⟨_, _, hinsert⟩ | ⟨e, hinsert⟩ :=
    Ledger.insert_stopping_cases path stop b ⟨store, (start.run path events).contents⟩
  · exact .inl (by rw [hinsert])
  · exact .inr (by rw [hinsert])

end Session

end CosignedLedger
