import CosignedLedger.Proofs.Replication.Completion

/-!
# Catching up after interruptions

A catch-up may fail at any response: the stream ends, something else arrives than what the peer has
sent, or the log refuses a block. What has been stored until then stays, and it is always a front
part of the blocks of the peer. A later catch-up passes over it and ends where it would have ended
without the interruptions.

* `Broken`: what may arrive in place of a response.
* `Progress.receiveAll_broken`: what a catch-up leaves that meets it.
* `Attempt`, `Attempt.Fails`: a catch-up that is cut short, and how.
* `Attempt.resumed_completes`: any number of these, and then one that is not.
-/

namespace CosignedLedger

/-- What ends a catch-up when it arrives in place of a response of the server. -/
inductive Broken (c : Crypto) (limit : Nat) (server : Store) : Frame → Prop where
  /-- The stream is closed, or the peer has failed. -/
  | lost (cause : TransportError) : Broken c limit server (.error cause)
  | unexpected {peer : Address} {m : Message} :
      (∀ block chain, m ≠ .blockResponse block chain) → Broken c limit server (.ok (peer, m))
  | undecodable {peer : Address} {block : Bytes} {chain : Option Bytes} {e : CodecError} :
      (decodeBlock c limit block).result = .error e →
      Broken c limit server (.ok (peer, .blockResponse block chain))
  | unproven {peer : Address} {block bytes : Bytes} {b g : Block} :
      (decodeBlock c limit block).result = .ok b → b.isGenesis = false →
      server.genesis? = some g →
      (∀ chain, decodeChain limit bytes = .ok chain →
        (server.verifyTo c chain g.hash b.hash).result ≠ .ok ()) →
      Broken c limit server (.ok (peer, .blockResponse block (some bytes)))

namespace Store
variable {s s' server : Store} {c : Crypto} {limit k : Nat}

theorem verifyTo_congr {anchor : Digest} (h : s.lookup anchor = s'.lookup anchor) (c : Crypto)
    (chain : Chain) (target : Digest) :
    s.verifyTo c chain anchor target = s'.verifyTo c chain anchor target := by
  simp only [verifyTo, verify, h]

theorem Follows.lookup_eq (h : s.Follows server k) (hserver : server.Coherent) {b : Block}
    (hb : b ∈ s.blocks) : s.lookup b.hash = server.lookup b.hash := by
  have hb' : b ∈ server.blocks := by
    rw [h.blocks_eq] at hb
    exact List.mem_of_mem_take hb
  rw [lookup_eq_ok_iff.2 (h.reachable.coherent.readByHash_hash hb),
    lookup_eq_ok_iff.2 (hserver.readByHash_hash hb')]

/-- A chain that the server would not accept is not accepted by whoever holds its first blocks. -/
theorem Follows.judge_unproven (h : s.Follows server k) (hserver : server.Coherent) {b g : Block}
    (hg : server.genesis? = some g) {bytes : Bytes}
    (hbytes : ∀ chain, decodeChain limit bytes = .ok chain →
      (server.verifyTo c chain g.hash b.hash).result ≠ .ok ()) (verdict : Verdict) :
    (s.judge c limit b (some bytes)).result ≠ .ok verdict := by
  intro hjudge
  cases judges_of_judge hjudge with
  | @proven _ chain g' _ _ hchain hs hverify _ =>
    rw [genesis?_eq] at hs hg
    have hpos : 0 < k := by
      have hlt := (List.getElem?_eq_some_iff.1 hs).1
      have hsize := h.size_eq
      rw [size] at hsize
      omega
    obtain rfl : g' = g := by
      rw [h.getElem?_eq hpos, hg] at hs
      exact (Option.some.inj hs).symm
    rw [verifyTo_congr (h.lookup_eq hserver (List.mem_of_getElem? hs))] at hverify
    exact hbytes chain hchain hverify

end Store

section Interrupted
variable {μ : Type} {server : Store} {c : Crypto} {limit i k : Nat}

namespace Progress

theorem receive_broken (log : BlockLog μ) (hserver : server.Coherent) {l : Ledger μ}
    (hl : l.store.Follows server k) {frame : Frame} (hbroken : Broken c limit server frame)
    (p : Progress) :
    (∃ e, (p.receive log c limit frame l).result = .error e) ∧
      (p.receive log c limit frame l).ledger = l := by
  have hrefused : ∀ {block : Bytes} {chain : Option Bytes},
      (∀ b, (decodeBlock c limit block).result = .ok b →
        ∀ verdict, (l.store.judge c limit b chain).result ≠ .ok verdict) →
      ∀ peer, (∃ e, (p.receive log c limit (.ok (peer, .blockResponse block chain)) l).result =
          .error e) ∧
        (p.receive log c limit (.ok (peer, .blockResponse block chain)) l).ledger = l := by
    intro block chain h peer
    obtain ⟨⟨e, he⟩, hledger⟩ := l.accept_of_refused log h
    refine ⟨⟨e, ?_⟩, hledger⟩
    simp only [receive, he, Except.map]
  cases hbroken with
  | lost cause => exact ⟨⟨_, rfl⟩, rfl⟩
  | @unexpected peer m hm =>
    cases m with
    | blockResponse block chain => exact absurd rfl (hm block chain)
    | propagateGenesis _ => exact ⟨⟨_, rfl⟩, rfl⟩
    | blockRequest _ => exact ⟨⟨_, rfl⟩, rfl⟩
  | @undecodable peer block chain e hdecode =>
    refine hrefused (fun b hb => ?_) peer
    rw [hdecode] at hb
    cases hb
  | @unproven peer block bytes b g hdecode _ hg hbytes =>
    refine hrefused (fun b' hb' => ?_) peer
    rw [hdecode] at hb'
    cases hb'
    exact hl.judge_unproven hserver hg hbytes

/-- What a catch-up leaves whose stream is broken before the response for the target. The log may
refuse a block before that. -/
theorem receiveAll_broken (log : BlockLog μ) (hserver : server.Serveable c limit) (peer : Address)
    {p : Progress} {ms : List Message} (hms : Serving.Answers server p.target i ms) {l : Ledger μ}
    (hl : l.store.Follows server k) (hik : i ≤ k) {n : Nat} (hn : n < ms.length) {frame : Frame}
    (hbroken : Broken c limit server frame) (later : List Frame) :
    let taken := p.receiveAll log c limit l
      ((ms.map fun m => .ok (peer, m)).take n ++ frame :: later)
    (∃ e, taken.result = .error e) ∧ ∃ k', k ≤ k' ∧ taken.ledger.store.Follows server k' := by
  generalize htarget : p.target = target at hms
  induction n generalizing p l k i ms with
  | zero =>
    obtain ⟨⟨e, he⟩, hledger⟩ := receive_broken log hserver.reachable.coherent hl hbroken p
    obtain ⟨hresult, hledger'⟩ := receiveAll_cons_error he later
    simp only [List.take_zero, List.nil_append]
    rw [hresult, hledger', hledger]
    exact ⟨⟨e, rfl⟩, k, Nat.le_refl k, hl⟩
  | succ n ih =>
    cases hms with
    | last _ _ _ => simp at hn
    | @next _ b m ms hb hm hhash hms =>
      rw [List.length_cons] at hn
      have hn' : n < ms.length := by omega
      simp only [List.map_cons, List.take_succ_cons, List.cons_append]
      rcases Nat.lt_or_eq_of_le hik with hlt | rfl
      · obtain ⟨hresult, hledger⟩ := receive_held log hserver hl hb hlt hm peer p
        rw [htarget, decide_eq_false hhash] at hresult
        obtain ⟨hresult', hledger'⟩ := receiveAll_cons_onward hresult
          ((ms.map fun m => .ok (peer, m)).take n ++ frame :: later)
        rw [hresult', hledger', hledger]
        exact ih (p := p.count .known) hl hlt hn' htarget hms
      · obtain ⟨_, hresult, hfollows⟩ | ⟨e, _, hresult, hfollows⟩ :=
          receive_next_cases log hserver hl hb hm peer p
        · rw [htarget, decide_eq_false hhash] at hresult
          obtain ⟨hresult', hledger'⟩ := receiveAll_cons_onward hresult
            ((ms.map fun m => .ok (peer, m)).take n ++ frame :: later)
          obtain ⟨he, k', hk', hheld⟩ :=
            ih (p := p.count .fresh) hfollows (Nat.le_refl _) hn' htarget hms
          rw [hresult', hledger']
          exact ⟨he, k', by omega, hheld⟩
        · obtain ⟨hresult', hledger'⟩ := receiveAll_cons_error hresult
            ((ms.map fun m => .ok (peer, m)).take n ++ frame :: later)
          rw [hresult', hledger']
          exact ⟨⟨_, rfl⟩, i, Nat.le_refl i, hfollows⟩

end Progress

/-- One call to catch up: the log as it behaves meanwhile, the hash that is asked for, and the
frames that arrive. -/
structure Attempt (μ : Type) where
  log : BlockLog μ
  target : Digest
  frames : List Frame

namespace Attempt

def run (c : Crypto) (limit : Nat) (a : Attempt μ) (l : Ledger μ) :
    Acted μ ReplicationError Progress :=
  (Progress.start a.target).receiveAll a.log c limit l a.frames

def after (c : Crypto) (limit : Nat) (attempts : List (Attempt μ)) (l : Ledger μ) : Ledger μ :=
  attempts.foldl (fun l a => (a.run c limit l).ledger) l

theorem after_append (c : Crypto) (limit : Nat) (first rest : List (Attempt μ)) (l : Ledger μ) :
    after c limit (first ++ rest) l = after c limit rest (after c limit first l) :=
  List.foldl_append

/-- An attempt that gets all that the server sends for a block. -/
def whole (log : BlockLog μ) (server : Store) (client peer : Address) (b : Block) : Attempt μ :=
  ⟨log, b.hash, Serving.frames server client peer b.hash⟩

/-- How an attempt to catch up to a block of the server is cut short before the response for it has
been taken. -/
inductive Fails (c : Crypto) (limit : Nat) (server : Store) (l : Ledger μ) : Attempt μ → Prop where
  /-- After some responses there comes something else, whether or not the log takes all blocks. -/
  | broken {log : BlockLog μ} {t n : Nat} {b : Block} {client peer : Address} {frame : Frame}
      {later : List Frame} :
      server.blocks[t]? = some b → n ≤ t → Broken c limit server frame →
      Fails c limit server l
        ⟨log, b.hash, (Serving.frames server client peer b.hash).take n ++ frame :: later⟩
  | refused {log : BlockLog μ} {t : Nat} {b : Block} {client peer : Address} :
      server.blocks[t]? = some b → ¬ l.Takes log server (t + 1) →
      Fails c limit server l (whole log server client peer b)

def AllFail (c : Crypto) (limit : Nat) (server : Store) (l : Ledger μ)
    (attempts : List (Attempt μ)) : Prop :=
  ∀ (i : Nat) (a : Attempt μ), attempts[i]? = some a →
    a.Fails c limit server (after c limit (attempts.take i) l)

section
variable {l : Ledger μ} {attempts : List (Attempt μ)}

/-- However an attempt is cut short, it fails and loses nothing. -/
theorem Fails.run (hserver : server.Serveable c limit) (hl : l.store.Follows server k)
    {a : Attempt μ} (h : a.Fails c limit server l) :
    (∃ e, (a.run c limit l).result = .error e) ∧
      ∃ k', k ≤ k' ∧ (a.run c limit l).ledger.store.Follows server k' := by
  cases h with
  | @broken log t n b client peer frame later hb hn hbroken =>
    obtain ⟨ms, hms, hlength, hframes⟩ := hserver.exists_frames hb client peer
    rw [hframes]
    exact Progress.receiveAll_broken log hserver peer (p := .start b.hash) hms hl (Nat.zero_le k)
      (by omega) hbroken later
  | @refused log t b client peer hb hrefused =>
    obtain ⟨ms, hms, hlength, hframes⟩ := hserver.exists_frames hb client peer
    obtain ⟨hresult, _, _, hfollows⟩ :=
      Progress.receiveAll_appends log hserver peer (p := .start b.hash) hms hl (Nat.zero_le k)
    rw [whole, hframes]
    refine ⟨?_, hfollows⟩
    rw [Ledger.Takes, Ledger.fill, hl.size_eq] at hrefused
    rw [hlength, Nat.zero_add] at hresult
    cases happended : (log.appendAll (server.between k (t + 1)) l.medium).1 with
    | ok _ => exact absurd happended hrefused
    | error e =>
      rw [happended] at hresult
      exact ⟨_, hresult⟩

theorem whole_run (hserver : server.Serveable c limit) (hl : l.store.Follows server k)
    {log : BlockLog μ} {t : Nat} {b : Block} (hb : server.blocks[t]? = some b)
    (hlog : l.Takes log server (t + 1)) (client peer : Address) :
    let run := (whole log server client peer b).run c limit l
    run.result = .ok ⟨b.hash, t + 1, t + 1 - min k (t + 1), min k (t + 1)⟩ ∧
      run.ledger.store.Follows server (max k (t + 1)) := by
  obtain ⟨ms, hms, hlength, hframes⟩ := hserver.exists_frames hb client peer
  obtain ⟨hresult, _, hfollows, _⟩ :=
    Progress.receiveAll_appends log hserver peer (p := .start b.hash) hms hl (Nat.zero_le k)
  rw [Ledger.Takes, Ledger.fill, hl.size_eq] at hlog
  rw [hlength, Nat.zero_add] at hresult hfollows
  rw [hlog] at hresult
  rw [whole, hframes]
  exact ⟨hresult.trans (congrArg Except.ok (Progress.advance_start ..)), hfollows hlog⟩

theorem AllFail.follows (hserver : server.Serveable c limit) (hl : l.store.Follows server k)
    (h : AllFail c limit server l attempts) (n : Nat) :
    ∃ k', k ≤ k' ∧ (after c limit (attempts.take n) l).store.Follows server k' := by
  -- The induction is on the number of attempts that have been made.
  induction n with
  | zero => exact ⟨k, Nat.le_refl k, hl⟩
  | succ n ih =>
    obtain ⟨before, hbefore, hheld⟩ := ih
    rw [List.take_add_one, after_append]
    cases ha : attempts[n]? with
    | none => exact ⟨before, hbefore, hheld⟩
    | some a =>
      obtain ⟨_, k', hk', hfollows⟩ := (h n a ha).run hserver hheld
      exact ⟨k', by omega, hfollows⟩

/-- **Interrupted and resumed comes to the same as uninterrupted.** Attempts to catch up that are cut
short each fail and leave a front part of the blocks of the server, at least as long as before. An
attempt that gets everything then ends at its target. If nothing after the target has been stored
meanwhile, what is stored in the end is what this attempt alone would have left. -/
theorem resumed_completes (hserver : server.Serveable c limit) (hl : l.store.Follows server k)
    (hfail : AllFail c limit server l attempts) {log : BlockLog μ} {t : Nat} {b : Block}
    (hb : server.blocks[t]? = some b)
    (hlog : (after c limit attempts l).Takes log server (t + 1)) (client peer : Address) :
    let last := whole log server client peer b
    let resumed := last.run c limit (after c limit attempts l)
    (∀ i a, attempts[i]? = some a →
      let before := after c limit (attempts.take i) l
      (∃ e, (a.run c limit before).result = .error e) ∧
        ∃ k', before.store.size ≤ k' ∧ (a.run c limit before).ledger.store.Follows server k') ∧
    ∃ held, k ≤ held ∧ (after c limit attempts l).store.Follows server held ∧
      resumed.result = .ok ⟨b.hash, t + 1, t + 1 - min held (t + 1), min held (t + 1)⟩ ∧
      resumed.ledger.store.blocks = server.blocks.take (max held (t + 1)) ∧
      ((∀ j, t < j → j < held → j < k) → l.Takes log server (t + 1) →
        (∃ p, (last.run c limit l).result = .ok p) ∧
          resumed.ledger.store = (last.run c limit l).ledger.store) := by
  intro last resumed
  constructor
  · intro i a ha before
    obtain ⟨_, _, hheld⟩ := hfail.follows hserver hl i
    have hrun := (hfail i a ha).run hserver hheld
    rwa [← hheld.size_eq] at hrun
  · obtain ⟨held, hk, hheld⟩ := hfail.follows hserver hl attempts.length
    rw [List.take_length] at hheld
    obtain ⟨hresult, hfollows⟩ := whole_run hserver hheld hb hlog client peer
    refine ⟨held, hk, hheld, hresult, hfollows.blocks_eq, fun hnone halone => ?_⟩
    obtain ⟨hresult', hfollows'⟩ := whole_run hserver hl hb halone client peer
    have hmax : max held (t + 1) = max k (t + 1) := by
      have := hnone (held - 1)
      omega
    refine ⟨⟨_, hresult'⟩, hfollows.reachable.eq_of_blocks_eq hfollows'.reachable ?_⟩
    rw [hfollows.blocks_eq, hfollows'.blocks_eq, hmax]

open Transparent in
/-- A stream that is closed after two responses, a log that is full, and bytes that are no block. -/
theorem resumed_completes_rotated :
    let b := rotated.blocks.get ⟨3, by decide⟩
    let frames := Serving.frames rotated ⟨"client"⟩ ⟨"peer"⟩ b.hash
    let attempts : List (Attempt Nat) := [
      ⟨.failing, b.hash, frames.take 2 ++ [.error .closed]⟩,
      whole .failing rotated ⟨"client"⟩ ⟨"peer"⟩ b,
      ⟨.failing, b.hash, frames.take 1 ++ [.ok (⟨"peer"⟩, .blockResponse [] none)]⟩]
    let log : BlockLog Nat := ⟨fun room => (.ok [], room), fun _ room => (.ok (), room)⟩
    let resumed := (whole log rotated ⟨"client"⟩ ⟨"peer"⟩ b).run crypto 1000
      (after crypto 1000 attempts ⟨.empty, 2⟩)
    AllFail crypto 1000 rotated ⟨.empty, 2⟩ attempts ∧
      resumed.result = .ok ⟨b.hash, 4, 2, 2⟩ ∧
      resumed.ledger.store.blocks = rotated.blocks.take 4 := by
  intro b frames attempts log resumed
  have hb : rotated.blocks[3]? = some b := by decide +kernel
  have hfollows : Store.empty.Follows rotated 0 :=
    { reachable := .empty, blocks_eq := rfl, within := Nat.zero_le _ }
  have hfull : ¬ (after crypto 1000 (attempts.take 1) ⟨.empty, 2⟩).Takes .failing rotated 4 := by
    have hrefused : (BlockLog.failing.appendAll (rotated.between 2 4) 0).1 ≠ .ok () := nofun
    have hleft : (after crypto 1000 (attempts.take 1) ⟨.empty, 2⟩).store.size = 2 ∧
        (after crypto 1000 (attempts.take 1) ⟨.empty, 2⟩).medium = 0 := by decide +kernel
    rwa [Ledger.Takes, Ledger.fill, hleft.1, hleft.2]
  have hundecodable : ∃ e, (decodeBlock crypto 1000 []).result = .error e := ⟨_, rfl⟩
  obtain ⟨e, hundecodable⟩ := hundecodable
  have hfail : AllFail crypto 1000 rotated ⟨.empty, 2⟩ attempts := by
    intro i a ha
    match i with
    | 0 =>
      cases ha
      exact .broken hb (by omega) (.lost .closed)
    | 1 =>
      cases ha
      exact .refused hb hfull
    | 2 =>
      cases ha
      exact .broken hb (by omega) (.undecodable hundecodable)
    | i + 3 => cases ha
  have hlog : (after crypto 1000 attempts ⟨.empty, 2⟩).Takes log rotated 4 :=
    BlockLog.appendAll_of_ok (fun _ _ _ => rfl) _
  have hsize : (after crypto 1000 attempts ⟨.empty, 2⟩).store.size = 2 := by decide +kernel
  obtain ⟨_, held, _, hheld, hresult, hblocks, _⟩ :=
    resumed_completes rotated_serveable hfollows hfail hb hlog ⟨"client"⟩ ⟨"peer"⟩
  rw [← hheld.size_eq, hsize] at hresult hblocks
  have hall : max 2 (3 + 1) = 4 := by decide
  refine ⟨hfail, hresult, ?_⟩
  rw [hblocks, hall]

end

end Attempt

end Interrupted

end CosignedLedger
