import CosignedLedger.Proofs.Transparent
import CosignedLedger.Replication.Genesis
import CosignedLedger.Store.Disk
import Mathlib.Data.List.Basic

/-!
# How a store gets its first block

A handler is called with one message after the other. Into an empty store the first one that brings
a first block is taken, and from then on nothing changes any more: the same block again is
acknowledged, and any other is refused.

* `StoreError.Raced`, `BlockLog.OwnFaults`: errors that an insertion in between would cause, and
  logs that do not fail with those of the store.
* `Ledger.Processes`, `Ledger.process_processes`: every outcome of a call.
* `Ledger.Installs`, `Ledger.Answers`: what is true of each call.
* `Ledger.processAll`, `Ledger.Idle`: a history of calls, and one in which nothing is installed.
* `Ledger.processAll_installs_once`: any history.
-/

namespace CosignedLedger

/-- Such an error is what an insertion gives if another one has come in between. -/
def StoreError.Raced : StoreError → Prop
  | .outOfOrder _ _ | .duplicate _ _ => True
  | _ => False

namespace BlockLog
variable {μ : Type}

/-- Whatever fails is a fault of the log. -/
def OwnFaults (log : BlockLog μ) : Prop :=
  ∀ b medium e, (log.append b medium).1 = .error e → ∃ fault, e = .log fault

theorem OwnFaults.not_raced {log : BlockLog μ} (h : log.OwnFaults) {b : Block} {medium : μ}
    {e : StoreError} (he : (log.append b medium).1 = .error e) : ¬e.Raced := by
  obtain ⟨fault, rfl⟩ := h b medium e he
  exact id

theorem ownFaults_inMemory : inMemory.OwnFaults := by
  intro b blocks e he
  cases he

theorem ownFaults_failing : failing.OwnFaults := by
  intro b room e he
  cases room with
  | zero =>
    cases he
    exact ⟨_, rfl⟩
  | succ room => cases he

theorem ownFaults_records (path : String) (write : RecordWriter) :
    (records path write).OwnFaults := by
  intro b contents e he
  simp only [records, appendRecord] at he
  split at he
  · cases he
    exact ⟨_, rfl⟩
  · split at he
    · cases he
    · cases he
      exact ⟨_, rfl⟩

theorem ownFaults_onDisk (text : String) : (onDisk text).OwnFaults := by
  intro b d e he
  simp only [onDisk, inFile] at he
  split at he
  · cases he
    exact ⟨_, rfl⟩
  · exact ownFaults_records text (.upTo d.limit) b _ e he

end BlockLog

theorem Storage.ownFaults_log : Storage.log.OwnFaults := by
  rintro b ⟨storage, d⟩ e he
  cases storage with
  | memory blocks => exact BlockLog.ownFaults_inMemory b blocks e he
  | failing room => exact BlockLog.ownFaults_failing b room e he
  | file path => exact BlockLog.ownFaults_onDisk path b d e he

namespace Store
variable {s : Store} {b : Block}

theorem Reachable.eq_empty (h : s.Reachable) (hnone : s.genesis? = none) : s = .empty := by
  rw [genesis?, List.head?_eq_none_iff] at hnone
  exact h.eq_of_blocks_eq .empty hnone

theorem empty_ne_publish (b : Block) : Store.empty ≠ Store.empty.publish b := by
  intro h
  cases congrArg Store.blocks h

theorem check_empty_of_linked (hindex : b.index = 0) (hprevious : b.previousHash = .zero) :
    Store.empty.check b = .ok () :=
  check_eq_ok_iff.2
    { index := hindex
      fresh := rfl
      previous := hprevious
      nonzero := fun hpos => absurd hindex (Nat.ne_of_gt hpos) }

theorem check_empty_of_unlinked (hindex : b.index = 0) (hprevious : b.previousHash ≠ .zero) :
    Store.empty.check b = .error (.linkage 0 .zero b.previousHash) := by
  have hsize : Store.empty.size = 0 := rfl
  have hfresh : Store.empty.indexOf? b.hash = none := rfl
  have hlast : Store.empty.lastHash = .zero := rfl
  simp [check, hindex, hsize, hfresh, hlast, hprevious]

end Store

namespace Ledger
variable {μ : Type} {log : BlockLog μ} {c : Crypto} {limit : Nat} {l l' : Ledger μ}
  {message : Message} {b : Block}

/-- Every outcome for a first block, with the ledger that it leaves. -/
inductive Meets (log : BlockLog μ) (l : Ledger μ) (b : Block) :
    Except ReplicationError (Option Message) → Ledger μ → Prop where
  | same {stored : Block} : l.store.genesis? = some stored → stored.hash = b.hash →
      Meets log l b (.ok none) l
  | conflict {stored : Block} : l.store.genesis? = some stored → stored.hash ≠ b.hash →
      Meets log l b (.error (.conflict 0 stored.hash b.hash)) l
  | unlinked : l.store = .empty → b.previousHash ≠ .zero →
      Meets log l b (.error (.store (.linkage 0 .zero b.previousHash))) l
  | unlogged {e : StoreError} {medium : μ} : l.store = .empty → b.previousHash = .zero →
      log.append b l.medium = (.error e, medium) → ¬e.Raced →
      Meets log l b (.error (.store e)) ⟨l.store, medium⟩
  | vanished {e : StoreError} {medium : μ} : l.store = .empty → b.previousHash = .zero →
      log.append b l.medium = (.error e, medium) → e.Raced →
      Meets log l b (.error (.protocol .genesisVanished)) ⟨l.store, medium⟩
  | installed {medium : μ} : l.store = .empty → b.previousHash = .zero →
      log.append b l.medium = (.ok (), medium) →
      Meets log l b (.ok none) ⟨Store.empty.publish b, medium⟩

inductive Processes (log : BlockLog μ) (c : Crypto) (limit : Nat) (l : Ledger μ) :
    Message → Except ReplicationError (Option Message) → Ledger μ → Prop where
  | unsupported {message : Message} : (∀ bytes, message ≠ .propagateGenesis bytes) →
      Processes log c limit l message (.error (.protocol (.unsupported message.kind))) l
  | undecoded {bytes : Bytes} {e : CodecError} : (decodeBlock c limit bytes).result = .error e →
      Processes log c limit l (.propagateGenesis bytes) (.error (.ofCodec e)) l
  | later {bytes : Bytes} {b : Block} : (decodeBlock c limit bytes).result = .ok b → b.index ≠ 0 →
      Processes log c limit l (.propagateGenesis bytes)
        (.error (.protocol (.genesisIndex b.index))) l
  | first {bytes : Bytes} {b : Block} {result : Except ReplicationError (Option Message)}
      {l' : Ledger μ} : (decodeBlock c limit bytes).result = .ok b → b.index = 0 →
      l.Meets log b result l' → Processes log c limit l (.propagateGenesis bytes) result l'

theorem insertGenesis_of_raced {e : StoreError} (hinsert : l.insert log b = (.error e, l'))
    (hraced : e.Raced) (hnone : l'.store.genesis? = none) :
    l.insertGenesis log b = (.error (.protocol .genesisVanished), l') := by
  unfold insertGenesis
  rw [hinsert]
  cases e with
  | outOfOrder _ _ => simp only [hnone]
  | duplicate _ _ => simp only [hnone]
  | _ => exact absurd hraced id

theorem insertGenesis_of_error {e : StoreError} (hinsert : l.insert log b = (.error e, l'))
    (hraced : ¬e.Raced) : l.insertGenesis log b = (.error (.store e), l') := by
  unfold insertGenesis
  rw [hinsert]
  cases e with
  | outOfOrder _ _ => exact absurd trivial hraced
  | duplicate _ _ => exact absurd trivial hraced
  | _ => rfl

/-- Into an empty store: the block does not name zero as the hash before it, the log fails, or the
block is installed. -/
theorem insertGenesis_meets (hindex : b.index = 0) (hempty : l.store = .empty) :
    l.Meets log b ((l.insertGenesis log b).1.map fun _ => none) (l.insertGenesis log b).2 := by
  by_cases hprevious : b.previousHash = .zero
  · have hadmits : l.store.Admits b := by
      rw [← Store.check_eq_ok_iff, hempty]
      exact Store.check_empty_of_linked hindex hprevious
    rcases happend : log.append b l.medium with ⟨result, medium⟩
    cases result with
    | ok _ =>
      have hinsert := insert_of_admits hadmits (by rw [happend])
      rw [happend, hempty] at hinsert
      rw [insertGenesis, hinsert]
      exact .installed hempty hprevious happend
    | error e =>
      have hinsert := insert_of_append_error hadmits happend
      by_cases hraced : e.Raced
      · rw [insertGenesis_of_raced hinsert hraced (by rw [hempty]; rfl)]
        exact .vanished hempty hprevious happend hraced
      · rw [insertGenesis_of_error hinsert hraced]
        exact .unlogged hempty hprevious happend hraced
  · have hinsert : l.insert log b = (.error (.linkage 0 .zero b.previousHash), l) := by
      rw [insert, hempty, Store.check_empty_of_unlinked hindex hprevious]
    rw [insertGenesis_of_error hinsert id]
    exact .unlinked hempty hprevious

theorem acceptGenesis_processes (hl : l.store.Reachable) (bytes : Bytes) :
    l.Processes log c limit (.propagateGenesis bytes)
      ((l.acceptGenesis log c limit bytes).result.map fun _ => none)
      (l.acceptGenesis log c limit bytes).ledger := by
  unfold acceptGenesis
  dsimp only
  cases hdecode : (decodeBlock c limit bytes).result with
  | error e => exact .undecoded hdecode
  | ok b =>
    dsimp only
    split
    · rename_i hgenesis
      have hindex : b.index = 0 := by simpa [Block.isGenesis] using hgenesis
      refine .first hdecode hindex ?_
      cases hstored : l.store.genesis? with
      | some stored =>
        simp only [compareGenesis]
        by_cases hhash : stored.hash = b.hash
        · rw [if_pos hhash]
          exact .same hstored hhash
        · rw [if_neg hhash]
          exact .conflict hstored hhash
      | none => exact insertGenesis_meets hindex (hl.eq_empty hstored)
    · rename_i hgenesis
      have hindex : b.index ≠ 0 := by simpa [Block.isGenesis] using hgenesis
      exact .later hdecode hindex

theorem process_processes (log : BlockLog μ) (c : Crypto) (limit : Nat) (hl : l.store.Reachable)
    (message : Message) :
    l.Processes log c limit message (l.process log c limit message).result
      (l.process log c limit message).ledger := by
  cases message with
  | propagateGenesis bytes => exact acceptGenesis_processes hl bytes
  | blockRequest target => exact .unsupported (by simp)
  | blockResponse block chain => exact .unsupported (by simp)

def Brings (c : Crypto) (limit : Nat) (message : Message) (b : Block) : Prop :=
  ∃ bytes, message = .propagateGenesis bytes ∧ (decodeBlock c limit bytes).result = .ok b ∧
    b.index = 0

/-- The message brings a block that an empty store takes, and the log takes it as well. -/
structure Installs (log : BlockLog μ) (c : Crypto) (limit : Nat) (l : Ledger μ) (message : Message)
    (b : Block) : Prop where
  brings : Brings c limit message b
  previous : b.previousHash = .zero
  logged : (log.append b l.medium).1 = .ok ()

section Outcome
variable {result : Except ReplicationError (Option Message)}

theorem Processes.meets (h : l.Processes log c limit message result l')
    (hb : Brings c limit message b) : l.Meets log b result l' := by
  obtain ⟨bytes, rfl, hdecode, hindex⟩ := hb
  cases h with
  | unsupported hother => exact absurd rfl (hother bytes)
  | undecoded hdecode' =>
    rw [hdecode] at hdecode'
    cases hdecode'
  | later hdecode' hlater =>
    rw [hdecode] at hdecode'
    cases hdecode'
    exact absurd hindex hlater
  | first hdecode' _ hmeets =>
    rw [hdecode] at hdecode'
    cases hdecode'
    exact hmeets

theorem Meets.of_stored {stored : Block} (hstored : l.store.genesis? = some stored)
    (h : l.Meets log b result l') :
    l' = l ∧ result =
      if stored.hash = b.hash then .ok none else .error (.conflict 0 stored.hash b.hash) := by
  have hnonempty : l.store ≠ .empty := by
    intro hempty
    rw [hempty] at hstored
    cases hstored
  cases h with
  | same hstored' hhash =>
    rw [hstored] at hstored'
    cases hstored'
    exact ⟨rfl, (if_pos hhash).symm⟩
  | conflict hstored' hhash =>
    rw [hstored] at hstored'
    cases hstored'
    exact ⟨rfl, (if_neg hhash).symm⟩
  | unlinked hempty _ => exact absurd hempty hnonempty
  | unlogged hempty _ _ _ => exact absurd hempty hnonempty
  | vanished hempty _ _ _ => exact absurd hempty hnonempty
  | installed hempty _ _ => exact absurd hempty hnonempty

theorem Meets.of_empty (hempty : l.store = .empty) (h : l.Meets log b result l') :
    (b.previousHash = .zero ∧ (log.append b l.medium).1 = .ok ()) ∧ result = .ok none ∧
        l'.store = Store.empty.publish b ∨
      ¬(b.previousHash = .zero ∧ (log.append b l.medium).1 = .ok ()) ∧ (∃ e, result = .error e) ∧
        l'.store = .empty := by
  have hnone : l.store.genesis? = none := by
    rw [hempty]
    rfl
  cases h with
  | same hstored _ =>
    rw [hnone] at hstored
    cases hstored
  | conflict hstored _ =>
    rw [hnone] at hstored
    cases hstored
  | unlinked _ hprevious => exact .inr ⟨fun h => hprevious h.1, ⟨_, rfl⟩, hempty⟩
  | unlogged _ _ happend _ => exact .inr ⟨by simp [happend], ⟨_, rfl⟩, hempty⟩
  | vanished _ _ happend _ => exact .inr ⟨by simp [happend], ⟨_, rfl⟩, hempty⟩
  | installed _ hprevious happend => exact .inl ⟨⟨hprevious, by rw [happend]⟩, rfl, rfl⟩

namespace Processes
variable (h : l.Processes log c limit message result l')
include h

theorem store_of_error {e : ReplicationError} (he : result = .error e) : l'.store = l.store := by
  subst he
  cases h with
  | first _ _ hmeets => cases hmeets <;> rfl
  | _ => rfl

theorem store_of_stored {stored : Block} (hstored : l.store.genesis? = some stored) :
    l'.store = l.store := by
  cases h with
  | first _ _ hmeets => rw [(hmeets.of_stored hstored).1]
  | _ => rfl

theorem store_of_idle (hempty : l.store = .empty)
    (hidle : ∀ b, ¬l.Installs log c limit message b) : l'.store = .empty := by
  cases h with
  | first hdecode hindex hmeets =>
    rcases hmeets.of_empty hempty with ⟨⟨hprevious, hlogged⟩, _⟩ | ⟨_, _, hstill⟩
    · exact absurd ⟨⟨_, rfl, hdecode, hindex⟩, hprevious, hlogged⟩ (hidle _)
    · exact hstill
  | _ => exact hempty

theorem store_of_installs (hempty : l.store = .empty)
    (hinstalls : l.Installs log c limit message b) :
    l'.store = Store.empty.publish b := by
  rcases (h.meets hinstalls.brings).of_empty hempty with ⟨_, _, hstore⟩ | ⟨hnot, _⟩
  · exact hstore
  · exact absurd ⟨hinstalls.previous, hinstalls.logged⟩ hnot

theorem result_of_conflict {stored : Block} (hb : Brings c limit message b)
    (hstored : l.store.genesis? = some stored) (hhash : stored.hash ≠ b.hash) :
    result = .error (.conflict 0 stored.hash b.hash) := by
  rw [((h.meets hb).of_stored hstored).2, if_neg hhash]

theorem exists_brings_of_ok {reply : Option Message}
    (hresult : result = .ok reply) : reply = none ∧ ∃ b, Brings c limit message b ∧
      (l.store = .empty ∧ l'.store = Store.empty.publish b ∨
        ∃ stored, l.store.genesis? = some stored ∧ stored.hash = b.hash) := by
  subst hresult
  cases h with
  | @first bytes b _ _ hdecode hindex hmeets =>
    cases hmeets with
    | @same stored hstored hhash =>
      exact ⟨rfl, b, ⟨bytes, rfl, hdecode, hindex⟩, .inr ⟨stored, hstored, hhash⟩⟩
    | installed hempty _ _ => exact ⟨rfl, b, ⟨bytes, rfl, hdecode, hindex⟩, .inl ⟨hempty, rfl⟩⟩

theorem ok_of_brings (hb : Brings c limit message b)
    (hway : l.store = .empty ∧ l'.store = Store.empty.publish b ∨
      ∃ stored, l.store.genesis? = some stored ∧ stored.hash = b.hash) : result = .ok none := by
  rcases hway with ⟨hempty, hstore⟩ | ⟨stored, hstored, hhash⟩
  · rcases (h.meets hb).of_empty hempty with ⟨_, hok, _⟩ | ⟨_, _, hstill⟩
    · exact hok
    · rw [hstill] at hstore
      exact absurd hstore (Store.empty_ne_publish b)
  · rw [((h.meets hb).of_stored hstored).2, if_pos hhash]

theorem exists_raced (hresult : result = .error (.protocol .genesisVanished)) :
    ∃ b e, Brings c limit message b ∧ (log.append b l.medium).1 = .error e ∧ e.Raced := by
  cases h with
  | unsupported _ => cases hresult
  | @undecoded _ e _ => cases e <;> cases hresult
  | later _ _ => cases hresult
  | @first bytes b _ _ hdecode hindex hmeets =>
    cases hmeets with
    | vanished _ _ happend hraced =>
      exact ⟨b, _, ⟨bytes, rfl, hdecode, hindex⟩, by rw [happend], hraced⟩
    | _ => cases hresult

theorem reachable (hl : l.store.Reachable) : l'.store.Reachable := by
  cases h with
  | first _ hindex hmeets =>
    cases hmeets with
    | installed _ hprevious _ =>
      exact .publish .empty (Store.check_empty_of_linked hindex hprevious)
    | _ => exact hl
  | _ => exact hl

end Processes

/-- What is true of one call. -/
structure Answers (log : BlockLog μ) (c : Crypto) (limit : Nat) (l : Ledger μ) (message : Message)
    (result : Except ReplicationError (Option Message)) (l' : Ledger μ) : Prop where
  /-- It is acknowledged if it brings a first block that is installed or whose hash is stored. -/
  ok_iff : ∀ reply, result = .ok reply ↔ reply = none ∧ ∃ b, Brings c limit message b ∧
    (l.store = .empty ∧ l'.store = Store.empty.publish b ∨
      ∃ stored, l.store.genesis? = some stored ∧ stored.hash = b.hash)
  conflict : ∀ b stored, Brings c limit message b → l.store.genesis? = some stored →
    stored.hash ≠ b.hash → result = .error (.conflict 0 stored.hash b.hash)
  error : ∀ e, result = .error e → l'.store = l.store
  /-- Only the log itself can make it seem that another block has been inserted in between. -/
  vanished : result = .error (.protocol .genesisVanished) →
    ∃ b e, Brings c limit message b ∧ (log.append b l.medium).1 = .error e ∧ e.Raced

theorem Processes.answers (h : l.Processes log c limit message result l') :
    l.Answers log c limit message result l' where
  ok_iff reply := by
    constructor
    · intro hresult
      exact h.exists_brings_of_ok hresult
    · rintro ⟨rfl, b, hb, hway⟩
      exact h.ok_of_brings hb hway
  conflict _ _ hb hstored hhash := h.result_of_conflict hb hstored hhash
  error _ he := h.store_of_error he
  vanished hresult := h.exists_raced hresult

end Outcome

/-- An insertion into an empty store can only seem to have been overtaken if the log says so. -/
theorem append_of_raced (hindex : b.index = 0) (hempty : l.store = .empty) {e : StoreError}
    (he : (l.insert log b).1 = .error e) (hraced : e.Raced) :
    (log.append b l.medium).1 = .error e := by
  unfold insert at he
  rw [hempty] at he
  by_cases hprevious : b.previousHash = .zero
  · rw [Store.check_empty_of_linked hindex hprevious] at he
    rcases happend : log.append b l.medium with ⟨result, medium⟩
    rw [happend] at he
    cases result with
    | ok _ => cases he
    | error e' => exact he
  · rw [Store.check_empty_of_unlinked hindex hprevious] at he
    cases he
    exact absurd hraced id

/-! ### Histories -/

section Histories
variable (log c limit)

def processAll (l : Ledger μ) (messages : List Message) : Ledger μ :=
  messages.foldl (fun l message => (l.process log c limit message).ledger) l

def Idle (l : Ledger μ) : List Message → Prop
  | [] => True
  | message :: messages => (∀ b, ¬l.Installs log c limit message b) ∧
      Idle (l.process log c limit message).ledger messages

variable {log c limit} {messages : List Message}

theorem processAll_append (before later : List Message) :
    l.processAll log c limit (before ++ later) =
      (l.processAll log c limit before).processAll log c limit later :=
  List.foldl_append

theorem reachable_processAll (log : BlockLog μ) (c : Crypto) (limit : Nat)
    (hl : l.store.Reachable) (messages : List Message) :
    (l.processAll log c limit messages).store.Reachable := by
  induction messages generalizing l with
  | nil => exact hl
  | cons message messages ih => exact ih ((process_processes log c limit hl message).reachable hl)

theorem processAll_of_stored (hl : l.store.Reachable) {stored : Block}
    (hstored : l.store.genesis? = some stored) (messages : List Message) :
    (l.processAll log c limit messages).store = l.store := by
  induction messages generalizing l with
  | nil => rfl
  | cons message messages ih =>
    have hprocess := process_processes log c limit hl message
    have hsame := hprocess.store_of_stored hstored
    rw [← hsame] at hstored ⊢
    exact ih (hprocess.reachable hl) hstored

theorem processAll_of_idle (hl : l.store.Reachable) (hempty : l.store = .empty)
    (hidle : l.Idle log c limit messages) :
    (l.processAll log c limit messages).store = .empty := by
  induction messages generalizing l with
  | nil => exact hempty
  | cons message messages ih =>
    obtain ⟨hnone, hidle⟩ := hidle
    have hprocess := process_processes log c limit hl message
    exact ih (hprocess.reachable hl) (hprocess.store_of_idle hempty hnone) hidle

theorem idle_or_installs (log : BlockLog μ) (c : Crypto) (limit : Nat) (l : Ledger μ)
    (messages : List Message) :
    l.Idle log c limit messages ∨ ∃ before message later b,
      messages = before ++ message :: later ∧ l.Idle log c limit before ∧
        (l.processAll log c limit before).Installs log c limit message b := by
  induction messages generalizing l with
  | nil => exact .inl trivial
  | cons message messages ih =>
    by_cases hinstalls : ∃ b, l.Installs log c limit message b
    · obtain ⟨b, hinstalls⟩ := hinstalls
      exact .inr ⟨[], message, messages, b, rfl, trivial, hinstalls⟩
    · have hnone := not_exists.1 hinstalls
      rcases ih (l.process log c limit message).ledger with
        hidle | ⟨before, message', later, b, rfl, hidle, hinstalls'⟩
      · exact .inl ⟨hnone, hidle⟩
      · exact .inr ⟨message :: before, message', later, b, rfl, ⟨hnone, hidle⟩, hinstalls'⟩

theorem processAll_of_installs (hl : l.store.Reachable) (hempty : l.store = .empty)
    {before later : List Message} (hidle : l.Idle log c limit before)
    (hinstalls : (l.processAll log c limit before).Installs log c limit message b) :
    (l.processAll log c limit (before ++ message :: later)).store = Store.empty.publish b := by
  have hbefore := reachable_processAll log c limit hl before
  have hprocess := process_processes log c limit hbefore message
  have hstore := hprocess.store_of_installs (processAll_of_idle hl hempty hidle) hinstalls
  generalize hnext : (l.processAll log c limit before).process log c limit message = next at *
  have hstored : next.ledger.store.genesis? = some b := by
    rw [hstore]
    rfl
  have hkept : (next.ledger.processAll log c limit later).store = next.ledger.store :=
    processAll_of_stored (hprocess.reachable hbefore) hstored later
  rw [processAll_append, ← hstore, ← hkept, ← hnext]
  rfl

/-- What becomes of a ledger whose handler is called with these messages. -/
structure History (log : BlockLog μ) (c : Crypto) (limit : Nat) (l : Ledger μ)
    (messages : List Message) (after : Ledger μ) : Prop where
  kept : ∀ stored, l.store.genesis? = some stored → after.store = l.store
  waits : l.store = .empty → l.Idle log c limit messages → after.store = .empty
  installed : l.store = .empty → ∀ before message later b, messages = before ++ message :: later →
    l.Idle log c limit before →
    (l.processAll log c limit before).Installs log c limit message b →
    after.store = Store.empty.publish b
  idle_or_installs : l.Idle log c limit messages ∨ ∃ before message later b,
    messages = before ++ message :: later ∧ l.Idle log c limit before ∧
      (l.processAll log c limit before).Installs log c limit message b
  /-- The next call. -/
  answers : ∀ message, after.Answers log c limit message
    (after.process log c limit message).result (after.process log c limit message).ledger
  /-- No insertion in the next call seems to have been overtaken. -/
  undisputed : log.OwnFaults →
    (∀ message, (after.process log c limit message).result ≠ .error (.protocol .genesisVanished)) ∧
    ∀ b e, b.index = 0 → after.store = .empty → (after.insert log b).1 = .error e → ¬e.Raced

/-- **A first block is installed once.** Whatever messages a handler is called with, a store that
holds a block never changes. An empty store stays empty until a message brings a first block that
names zero as the hash before it and that the log takes; from then on it holds that block and no
other. Every call is acknowledged or refused as the store then requires, and one that is refused
leaves it as it is. -/
theorem processAll_installs_once (log : BlockLog μ) (c : Crypto) (limit : Nat)
    (hl : l.store.Reachable) (messages : List Message) :
    History log c limit l messages (l.processAll log c limit messages) := by
  have hprocess :=
    process_processes log c limit (reachable_processAll log c limit hl messages)
  exact
    { kept := fun _ hstored => processAll_of_stored hl hstored messages
      waits := fun hempty hidle => processAll_of_idle hl hempty hidle
      installed := by
        rintro hempty before message later b rfl hidle hinstalls
        exact processAll_of_installs hl hempty hidle hinstalls
      idle_or_installs := idle_or_installs log c limit l messages
      answers := fun message => (hprocess message).answers
      undisputed := by
        intro hlog
        constructor
        · intro message hresult
          obtain ⟨b, e, _, hlogged, hraced⟩ := (hprocess message).exists_raced hresult
          exact hlog.not_raced hlogged hraced
        · intro b e hindex hempty he hraced
          exact hlog.not_raced (append_of_raced hindex hempty he hraced) hraced }

open Transparent in
/-- Of two blocks with index zero one names another block as the one before it. It is not installed
when it comes first, and it is in conflict with the other one afterwards. -/
theorem processAll_installs_once_linked :
    let l : Ledger Nat := ⟨.empty, 1⟩
    let first := Block.genesis crypto (one 1) [10]
    let linked := Block.draft crypto 0 (.fill 7) (one 1) [10]
    let propagate (b : Block) := Message.propagateGenesis (Block.format.write b)
    let messages := [propagate linked, propagate first, propagate first]
    let after := l.processAll .failing crypto 1000 messages
    l.store.Reachable ∧ BlockLog.failing.OwnFaults ∧ after.store = Store.empty.publish first ∧
      (after.process .failing crypto 1000 (propagate linked)).result =
        .error (.conflict 0 first.hash linked.hash) ∧
      History .failing crypto 1000 l messages after :=
  ⟨.empty, BlockLog.ownFaults_failing, by decide +kernel, by decide +kernel,
    processAll_installs_once .failing crypto 1000 .empty _⟩

end Histories

end Ledger

end CosignedLedger
