import CosignedLedger.Proofs.Replication.Judgement
import CosignedLedger.Proofs.Replication.Remaining
import CosignedLedger.Proofs.Store.Refinement

/-!
# Catching up with an honest peer

A peer whose blocks are authorised and whose responses are within the limit serves what catching up
takes. Serving and catching up meet in `Serving.Answers`: one side sends such responses, and the
other, by induction on them, ends with the peer's blocks up to the target.

* `Store.Serveable`: a store that an honest peer serves.
* `Store.Follows`: a store that holds the first blocks of another.
* `Store.Follows.judge`: how a response is judged by such a store.
* `Ledger.accept_of_known`, `Ledger.accept_of_fresh`, `Ledger.accept_of_refused`: what a judgement
  leads to, whatever the log does.
* `Progress.receiveAll_appends`: what taking all responses comes to over any log.
* `Progress.receiveAll_answers`: what it leaves over a log that takes every block.
* `Progress.serve_completes`: serving and catching up together.
-/

namespace CosignedLedger

namespace Store
variable {s server : Store} {c : Crypto} {limit k : Nat}

/-- Past the first block there is a chain from it, which is accepted wherever the first block is
stored, ends with the signature of the block and names the authority before it. -/
theorem exists_proof (hs : server.Reachable) (ha : Authorised c server.blocks) {b : Block} {i : Nat}
    (hb : server.blocks[i + 1]? = some b) :
    ∃ chain link before, server.chainTo b.hash = .ok chain ∧
      (∀ (s : Store) (g : Block), s.Reachable → server.blocks[0]? = some g → g ∈ s.blocks →
        (s.verifyTo c chain g.hash b.hash).result = .ok ()) ∧
      chain.last? = some link ∧ server.blocks[i]? = some before ∧
      b.signature = some link.signature ∧ link.authority = before.authority := by
  obtain ⟨g, hg⟩ := exists_block_of_le hb (Nat.zero_le _)
  obtain ⟨chain, hchain, hverifies⟩ := chainBetween_verifies hs.coherent
    (fun b hb => (ha.hashed b hb).header) ha.signed hg hb (Nat.zero_le _)
  obtain ⟨link, before, hlast⟩ := chainBetween_last hs.coherent hg hb (Nat.zero_le _) hchain
  refine ⟨chain, link, before, by rw [chainTo_eq hg, hchain], fun s g' hs hg' hmem => ?_, hlast⟩
  rw [hg] at hg'
  cases hg'
  exact (hverifies s hs hmem).1

/-- A store that can be reached, whose blocks are authorised, and whose blocks and chains from the
first block are within the limit when they are written. -/
structure Serveable (c : Crypto) (limit : Nat) (s : Store) : Prop where
  reachable : s.Reachable
  authorised : Authorised c s.blocks
  word : limit < UInt64.size
  blockFits : ∀ b ∈ s.blocks, (Block.format.write b).length ≤ limit
  chainFits : ∀ b ∈ s.blocks, ∀ chain, s.chainTo b.hash = .ok chain →
    (Chain.format.write chain).length ≤ limit

namespace Serveable

theorem decodeBlock (h : server.Serveable c limit) {b : Block} (hb : b ∈ server.blocks) :
    (decodeBlock c limit (Block.format.write b)).result = .ok b :=
  decodeBlock_write (h.authorised.hashed b hb) (h.blockFits b hb) h.word

theorem isGenesis_eq (h : server.Serveable c limit) {b : Block} {i : Nat}
    (hb : server.blocks[i]? = some b) : b.isGenesis = decide (i = 0) := by
  rw [Block.isGenesis, h.authorised.position hb]

theorem response_first (h : server.Serveable c limit) {b : Block}
    (hb : server.blocks[0]? = some b) :
    Serving.response server b = .ok (.blockResponse (Block.format.write b) none) :=
  Serving.response_eq_ok_iff.2 (.inl ⟨h.isGenesis_eq hb, rfl⟩)

theorem response_later (h : server.Serveable c limit) {b : Block} {i : Nat}
    (hb : server.blocks[i + 1]? = some b) :
    ∃ chain, Serving.response server b =
        .ok (.blockResponse (Block.format.write b) (some (Chain.format.write chain))) ∧
      decodeChain limit (Chain.format.write chain) = .ok chain ∧
      server.chainTo b.hash = .ok chain := by
  obtain ⟨chain, _, _, hto, _⟩ := exists_proof h.reachable h.authorised hb
  have hfits := h.chainFits b (List.mem_of_getElem? hb) chain hto
  exact ⟨chain, Serving.response_eq_ok_iff.2 (.inr ⟨h.isGenesis_eq hb, chain, hto, rfl⟩),
    decodeChain_write hfits h.word, hto⟩

theorem exists_response (h : server.Serveable c limit) {b : Block} (hb : b ∈ server.blocks) :
    ∃ m, Serving.response server b = .ok m := by
  obtain ⟨i, hi⟩ := List.getElem?_of_mem hb
  cases i with
  | zero => exact ⟨_, h.response_first hi⟩
  | succ i =>
    obtain ⟨chain, hm, _⟩ := h.response_later hi
    exact ⟨_, hm⟩

theorem exists_frames (h : server.Serveable c limit) {b : Block} {t : Nat}
    (hb : server.blocks[t]? = some b) (client peer : Address) :
    ∃ ms, Serving.Answers server b.hash 0 ms ∧ ms.length = t + 1 ∧
      Serving.frames server client peer b.hash = ms.map fun m => .ok (peer, m) :=
  Serving.frames_answers h.reachable.coherent (fun _ hb => h.exists_response hb) hb client peer

end Serveable

def between (server : Store) (k n : Nat) : List Block := (server.blocks.take n).drop k

theorem between_of_le {n : Nat} (h : n ≤ k) : server.between k n = [] := by
  rw [between, List.drop_eq_nil_iff, List.length_take]
  omega

theorem between_of_getElem? {n : Nat} {b : Block} (hb : server.blocks[k]? = some b) (hk : k < n) :
    server.between k n = b :: server.between (k + 1) n := by
  have hlt : k < (server.blocks.take n).length := by
    have := (List.getElem?_eq_some_iff.1 hb).1
    rw [List.length_take]
    omega
  have hget : (server.blocks.take n)[k] = b := by
    rw [← Option.some_inj, ← List.getElem?_eq_getElem hlt, List.getElem?_take, if_pos hk, hb]
  rw [between, List.drop_eq_getElem_cons hlt, hget, between]

theorem compare_self (b : Block) : compare b b = .ok .known := by
  rw [compare, if_pos rfl]

/-- What becomes of the block at `i` when the first `k` are stored. -/
def verdictAt (i k : Nat) : Verdict := if i < k then .known else .fresh

/-- The store holds the first `k` blocks of the other one and no more. -/
structure Follows (s server : Store) (k : Nat) : Prop where
  reachable : s.Reachable
  blocks_eq : s.blocks = server.blocks.take k
  within : k ≤ server.size

namespace Follows

theorem size_eq (h : s.Follows server k) : s.size = k := by
  have := h.within
  simp only [size] at this
  rw [size, h.blocks_eq, List.length_take]
  omega

theorem getElem?_eq (h : s.Follows server k) {i : Nat} (hi : i < k) :
    s.blocks[i]? = server.blocks[i]? := by
  rw [h.blocks_eq, List.getElem?_take, if_pos hi]

theorem admits (h : s.Follows server k) (hserver : server.Coherent) {b : Block}
    (hb : server.blocks[k]? = some b) : s.Admits b := by
  have hcontinues := hserver.storable.continues hb
  rw [← h.blocks_eq] at hcontinues
  exact h.reachable.coherent.admits_iff_continues.2 hcontinues

theorem publish (h : s.Follows server k) (hserver : server.Coherent) {b : Block}
    (hb : server.blocks[k]? = some b) : (s.publish b).Follows server (k + 1) where
  reachable := h.reachable.publish (check_eq_ok_iff.2 (h.admits hserver hb))
  blocks_eq := by
    rw [Store.publish, h.blocks_eq, List.take_add_one, hb]
    rfl
  within := (List.getElem?_eq_some_iff.1 hb).1

theorem judgeGenesis (h : s.Follows server k) {b : Block} (hb : server.blocks[0]? = some b) :
    s.judgeGenesis b none = .ok (verdictAt 0 k) := by
  unfold Store.judgeGenesis verdictAt
  rw [genesis?_eq]
  by_cases hk : 0 < k
  · rw [h.getElem?_eq hk, hb, if_pos hk]
    exact compare_self b
  · have hnone : s.blocks[0]? = none := by
      rw [h.blocks_eq, Nat.eq_zero_of_not_pos hk, List.take_zero]
      rfl
    rw [hnone, if_neg hk]
    rfl

theorem judgeProven (h : s.Follows server k) {b before : Block} {chain : Chain} {link : Link}
    {i : Nat} (hindex : b.index = i + 1) (hik : i + 1 ≤ k) (hb : server.blocks[i + 1]? = some b)
    (hbefore : server.blocks[i]? = some before) (hlast : chain.last? = some link)
    (hsignature : b.signature = some link.signature) (hauthority : link.authority = before.authority) :
    s.judgeProven b chain = .ok (verdictAt (i + 1) k) := by
  have hread : s.read i = .ok before := by
    rw [read_eq_ok_iff, h.getElem?_eq hik, hbefore]
  unfold Store.judgeProven verdictAt
  rw [if_neg (by simp [hlast, hsignature]), hindex, Nat.add_sub_cancel]
  by_cases hlt : i + 1 < k
  · rw [read_eq_ok_iff.2 ((h.getElem?_eq hlt).trans hb), if_pos hlt]
    exact compare_self b
  · have hnone : s.read (i + 1) = .error (.notFound (i + 1)) := by
      rw [read, List.getElem?_eq_none]
      have hsize := h.size_eq
      rw [size] at hsize
      omega
    rw [hnone, if_neg hlt]
    simp only [hread]
    rw [if_neg (by simp [hlast, hauthority])]

theorem judge_later (h : s.Follows server k) (hserver : server.Reachable)
    (ha : Authorised c server.blocks) {b : Block} {i : Nat} (hb : server.blocks[i + 1]? = some b)
    (hik : i + 1 ≤ k) {chain : Chain} (hto : server.chainTo b.hash = .ok chain) {bytes : Bytes}
    (hdecode : decodeChain limit bytes = .ok chain) :
    (s.judge c limit b (some bytes)).result = .ok (verdictAt (i + 1) k) := by
  obtain ⟨chain', link, before, hto', hverifies, hlast, hbefore, hsignature, hauthority⟩ :=
    exists_proof hserver ha hb
  rw [hto] at hto'
  cases hto'
  -- The chain starts at the first block, which is stored since `i + 1 ≤ k`.
  obtain ⟨g, hg⟩ := exists_block_of_le hb (Nat.zero_le _)
  have hg' : s.blocks[0]? = some g := by rw [h.getElem?_eq (by omega), hg]
  have hgenesis : s.genesis? = some g := by rw [genesis?_eq, hg']
  have hverify := hverifies s g h.reachable hg (List.mem_of_getElem? hg')
  have hindex : b.index = i + 1 := ha.position hb
  have hproven := h.judgeProven hindex hik hb hbefore hlast hsignature hauthority
  rw [Store.judge, if_neg (by simp [Block.isGenesis, hindex])]
  simp only [Metered.result_bind, Metered.result_ofExcept, Metered.result_mapError, hdecode,
    hgenesis, Except.bind_eq_ok, Except.mapError_eq_ok]
  exact ⟨chain, rfl, (), hverify, hproven⟩

theorem judge (h : s.Follows server k) (hserver : server.Serveable c limit) {b : Block} {i : Nat}
    (hb : server.blocks[i]? = some b) (hik : i ≤ k) {bytes : Bytes} {chain : Option Bytes}
    (hm : Serving.response server b = .ok (.blockResponse bytes chain)) :
    (s.judge c limit b chain).result = .ok (verdictAt i k) := by
  cases i with
  | zero =>
    rw [hserver.response_first hb] at hm
    cases hm
    have hgenesis : b.isGenesis = true := hserver.isGenesis_eq hb
    rw [Store.judge, if_pos hgenesis]
    exact h.judgeGenesis hb
  | succ i =>
    obtain ⟨chain, hm', hdecode, hto⟩ := hserver.response_later hb
    rw [hm'] at hm
    cases hm
    exact h.judge_later hserver.reachable hserver.authorised hb hik hto hdecode

end Follows

end Store

theorem Transparent.rotated_serveable : rotated.Serveable crypto 1000 where
  reachable := rotated_reachable
  authorised := rotated_authorised
  word := by decide
  blockFits := by decide +kernel
  chainFits := by
    intro b hb chain hchain
    have hfits : ∀ b ∈ rotated.blocks, ((rotated.chainTo b.hash).toOption.all fun chain =>
        (Chain.format.write chain).length ≤ 1000) = true := by decide +kernel
    simpa [hchain, Except.toOption] using hfits b hb

section CatchUp
variable {μ : Type} {log : BlockLog μ} {server : Store} {c : Crypto} {limit i k : Nat} {b : Block}

namespace Ledger

/-- What comes of appending the blocks of the server that the ledger lacks, up to an index. -/
def fill (log : BlockLog μ) (server : Store) (n : Nat) (l : Ledger μ) : Except StoreError Unit × μ :=
  log.appendAll (server.between l.store.size n) l.medium

def Takes (log : BlockLog μ) (server : Store) (n : Nat) (l : Ledger μ) : Prop :=
  (l.fill log server n).1 = .ok ()

section Accept
variable {block : Bytes} {chain : Option Bytes} {l : Ledger μ}

theorem result_judged {verdict : Verdict} (hdecode : (decodeBlock c limit block).result = .ok b)
    (hjudge : (l.store.judge c limit b chain).result = .ok verdict) :
    (do
      let b ← (decodeBlock c limit block).mapError ReplicationError.ofCodec
      let verdict ← l.store.judge c limit b chain
      return (b, verdict) : Metered ReplicationError (Block × Verdict)).result =
        .ok (b, verdict) := by
  simp only [Metered.result_bind, Metered.result_mapError, Metered.result_pure,
    Except.bind_eq_ok, Except.mapError_eq_ok]
  exact ⟨b, hdecode, _, hjudge, rfl⟩

theorem accept_of_known (log : BlockLog μ) (hdecode : (decodeBlock c limit block).result = .ok b)
    (hjudge : (l.store.judge c limit b chain).result = .ok .known) :
    (l.accept log c limit block chain).result = .ok (b, .known) ∧
      (l.accept log c limit block chain).ledger = l := by
  unfold accept
  dsimp only
  rw [result_judged hdecode hjudge]
  exact ⟨rfl, rfl⟩

theorem accept_of_fresh (log : BlockLog μ) (hdecode : (decodeBlock c limit block).result = .ok b)
    (hjudge : (l.store.judge c limit b chain).result = .ok .fresh) :
    (l.accept log c limit block chain).result =
        ((l.insert log b).1.mapError ReplicationError.store).map (fun _ => (b, Verdict.fresh)) ∧
      (l.accept log c limit block chain).ledger = (l.insert log b).2 := by
  unfold accept
  dsimp only
  rw [result_judged hdecode hjudge]
  dsimp only
  cases l.insert log b with
  | mk result l' => cases result <;> exact ⟨rfl, rfl⟩

/-- A block that is not decoded, or not judged, changes nothing and is an error. -/
theorem accept_of_refused (log : BlockLog μ)
    (h : ∀ b, (decodeBlock c limit block).result = .ok b →
      ∀ verdict, (l.store.judge c limit b chain).result ≠ .ok verdict) :
    (∃ e, (l.accept log c limit block chain).result = .error e) ∧
      (l.accept log c limit block chain).ledger = l := by
  have haccepts := l.accept_accepts log c limit block chain
  generalize (l.accept log c limit block chain).result = result at haccepts ⊢
  generalize (l.accept log c limit block chain).ledger = l' at haccepts ⊢
  cases haccepts with
  | undecoded _ => exact ⟨⟨_, rfl⟩, rfl⟩
  | refused _ _ => exact ⟨⟨_, rfl⟩, rfl⟩
  | known hdecode hjudge => exact absurd hjudge (h _ hdecode _)
  | unstored hdecode hjudge _ => exact absurd hjudge (h _ hdecode _)
  | fresh hdecode hjudge _ _ => exact absurd hjudge (h _ hdecode _)

end Accept

end Ledger

namespace Progress

section Frames
variable {p p' : Progress} {l : Ledger μ} {frame : Frame}

theorem receiveAll_cons_error {e : ReplicationError}
    (h : (p.receive log c limit frame l).result = .error e) (frames : List Frame) :
    (p.receiveAll log c limit l (frame :: frames)).result = .error e ∧
      (p.receiveAll log c limit l (frame :: frames)).ledger =
        (p.receive log c limit frame l).ledger := by
  simp only [receiveAll, h, and_self]

theorem receiveAll_cons_reached (h : (p.receive log c limit frame l).result = .ok (p', true))
    (frames : List Frame) :
    (p.receiveAll log c limit l (frame :: frames)).result = .ok p' ∧
      (p.receiveAll log c limit l (frame :: frames)).ledger =
        (p.receive log c limit frame l).ledger := by
  simp only [receiveAll, h, and_self]

theorem receiveAll_cons_onward (h : (p.receive log c limit frame l).result = .ok (p', false))
    (frames : List Frame) :
    let rest := p'.receiveAll log c limit (p.receive log c limit frame l).ledger frames
    (p.receiveAll log c limit l (frame :: frames)).result = rest.result ∧
      (p.receiveAll log c limit l (frame :: frames)).ledger = rest.ledger := by
  simp only [receiveAll, h, and_self]

end Frames

section Response
variable (log) {l : Ledger μ} {m : Message}

theorem receive_held (hserver : server.Serveable c limit) (hl : l.store.Follows server k)
    (hb : server.blocks[i]? = some b) (hik : i < k) (hm : Serving.response server b = .ok m)
    (peer : Address) (p : Progress) :
    (p.receive log c limit (.ok (peer, m)) l).result = .ok (p.count .known, b.hash = p.target) ∧
      (p.receive log c limit (.ok (peer, m)) l).ledger = l := by
  obtain ⟨chain, rfl⟩ := Serving.exists_eq_blockResponse hm
  have hjudge := hl.judge hserver hb (Nat.le_of_lt hik) hm
  rw [Store.verdictAt, if_pos hik] at hjudge
  obtain ⟨hresult, hledger⟩ :=
    Ledger.accept_of_known log (hserver.decodeBlock (List.mem_of_getElem? hb)) hjudge
  unfold receive
  dsimp only
  rw [hresult]
  exact ⟨rfl, hledger⟩

theorem receive_next (hserver : server.Serveable c limit) (hl : l.store.Follows server k)
    (hb : server.blocks[k]? = some b) (hm : Serving.response server b = .ok m)
    (peer : Address) (p : Progress) :
    (p.receive log c limit (.ok (peer, m)) l).result =
        ((l.insert log b).1.mapError ReplicationError.store).map
          (fun _ => (p.count .fresh, decide (b.hash = p.target))) ∧
      (p.receive log c limit (.ok (peer, m)) l).ledger = (l.insert log b).2 := by
  obtain ⟨chain, rfl⟩ := Serving.exists_eq_blockResponse hm
  have hjudge := hl.judge hserver hb (Nat.le_refl k) hm
  rw [Store.verdictAt, if_neg (Nat.lt_irrefl k)] at hjudge
  obtain ⟨hresult, hledger⟩ :=
    Ledger.accept_of_fresh log (hserver.decodeBlock (List.mem_of_getElem? hb)) hjudge
  unfold receive
  dsimp only
  rw [hresult]
  refine ⟨?_, hledger⟩
  cases (l.insert log b).1 <;> rfl

/-- Either the next block is stored, or the log has refused it and all blocks stay as they are. -/
theorem receive_next_cases (hserver : server.Serveable c limit) (hl : l.store.Follows server k)
    (hb : server.blocks[k]? = some b) (hm : Serving.response server b = .ok m)
    (peer : Address) (p : Progress) :
    let received := p.receive log c limit (.ok (peer, m)) l
    (log.append b l.medium = (.ok (), received.ledger.medium) ∧
      received.result = .ok (p.count .fresh, b.hash = p.target) ∧
      received.ledger.store.Follows server (k + 1)) ∨
    ∃ e, log.append b l.medium = (.error e, received.ledger.medium) ∧
      received.result = .error (.store e) ∧ received.ledger.store.Follows server k := by
  obtain ⟨hresult, hledger⟩ := receive_next log hserver hl hb hm peer p
  have hserver' := hserver.reachable.coherent
  have hadmits := hl.admits hserver' hb
  dsimp only
  rw [hresult, hledger]
  cases happend : log.append b l.medium with
  | mk appended medium =>
    cases appended with
    | ok _ =>
      have hinsert := Ledger.insert_of_admits hadmits (by rw [happend])
      rw [happend] at hinsert
      rw [hinsert]
      exact .inl ⟨rfl, rfl, hl.publish hserver' hb⟩
    | error e =>
      have hinsert := Ledger.insert_of_append_error hadmits happend
      rw [hinsert]
      exact .inr ⟨e, rfl, rfl, hl⟩

end Response

/-- The progress after `n` more responses, from that for the block at `i` on, if the first `k`
blocks were stored. -/
def advance (p : Progress) (i k n : Nat) : Progress :=
  ⟨p.target, p.received + n, p.inserted + (i + n - k), p.skipped + (min k (i + n) - i)⟩

theorem advance_zero (p : Progress) (hik : i ≤ k) : p.advance i k 0 = p := by
  simp only [advance, Nat.add_zero, Nat.min_eq_right hik, Nat.sub_self, Nat.sub_eq_zero_of_le hik]

theorem advance_known (p : Progress) (hik : i < k) (n : Nat) :
    (p.count .known).advance (i + 1) k n = p.advance i k (n + 1) := by
  simp only [advance, count, mk.injEq, true_and]
  omega

theorem advance_fresh (p : Progress) (n : Nat) :
    (p.count .fresh).advance (k + 1) (k + 1) n = p.advance k k (n + 1) := by
  simp only [advance, count, mk.injEq, true_and]
  omega

theorem advance_start (h : Digest) (k n : Nat) :
    (start h).advance 0 k n = ⟨h, n, n - min k n, min k n⟩ := by
  simp only [advance, start, mk.injEq, true_and]
  omega

/-- Taking all responses comes to appending the blocks that are missing to the log. The induction is
on the responses; what it carries is that the blocks up to the next response are stored. -/
theorem receiveAll_appends (log : BlockLog μ) (hserver : server.Serveable c limit) (peer : Address)
    {p : Progress} {ms : List Message} (hms : Serving.Answers server p.target i ms) {l : Ledger μ}
    (hl : l.store.Follows server k) (hik : i ≤ k) :
    let appended := log.appendAll (server.between k (i + ms.length)) l.medium
    let taken := p.receiveAll log c limit l (ms.map fun m => .ok (peer, m))
    taken.result = (appended.1.mapError ReplicationError.store).map
        (fun _ => p.advance i k ms.length) ∧
      taken.ledger.medium = appended.2 ∧
      (appended.1 = .ok () → taken.ledger.store.Follows server (max k (i + ms.length))) ∧
      ∃ k', k ≤ k' ∧ taken.ledger.store.Follows server k' := by
  generalize htarget : p.target = target at hms
  induction hms generalizing p l k with
  | @last i b m hb hm hhash =>
    simp only [List.map_cons, List.map_nil, List.length_singleton]
    rcases Nat.lt_or_eq_of_le hik with hlt | rfl
    · obtain ⟨hresult, hledger⟩ := receive_held log hserver hl hb hlt hm peer p
      rw [htarget, hhash, decide_eq_true rfl] at hresult
      obtain ⟨hresult', hledger'⟩ := receiveAll_cons_reached hresult []
      rw [hresult', hledger', hledger, Store.between_of_le hlt, ← p.advance_known hlt,
        advance_zero _ hlt]
      exact ⟨rfl, rfl, fun _ => by rwa [Nat.max_eq_left hlt], k, Nat.le_refl k, hl⟩
    · rw [Store.between_of_getElem? hb (Nat.lt_succ_self i), Store.between_of_le (Nat.le_refl _)]
      obtain ⟨happend, hresult, hfollows⟩ | ⟨e, happend, hresult, hfollows⟩ :=
        receive_next_cases log hserver hl hb hm peer p
      · rw [htarget, hhash, decide_eq_true rfl] at hresult
        obtain ⟨hresult', hledger'⟩ := receiveAll_cons_reached hresult []
        rw [hresult', hledger', BlockLog.appendAll, happend, ← p.advance_fresh,
          advance_zero _ (Nat.le_refl _), Nat.max_eq_right (Nat.le_succ i)]
        exact ⟨rfl, rfl, fun _ => hfollows, i + 1, Nat.le_succ i, hfollows⟩
      · obtain ⟨hresult', hledger'⟩ := receiveAll_cons_error hresult []
        rw [hresult', hledger', BlockLog.appendAll, happend]
        exact ⟨rfl, rfl, fun h => (by cases h), i, Nat.le_refl i, hfollows⟩
  | @next i b m ms hb hm hhash _ ih =>
    have hlast : i + (m :: ms).length = i + 1 + ms.length := by
      simp only [List.length_cons]
      omega
    simp only [List.map_cons]
    rw [hlast, List.length_cons]
    rcases Nat.lt_or_eq_of_le hik with hlt | rfl
    · obtain ⟨hresult, hledger⟩ := receive_held log hserver hl hb hlt hm peer p
      rw [htarget, decide_eq_false hhash] at hresult
      obtain ⟨hresult', hledger'⟩ := receiveAll_cons_onward hresult (ms.map fun m => .ok (peer, m))
      rw [hresult', hledger', hledger, ← p.advance_known hlt]
      exact ih hl hlt htarget
    · rw [Store.between_of_getElem? hb (by omega)]
      obtain ⟨happend, hresult, hfollows⟩ | ⟨e, happend, hresult, hfollows⟩ :=
        receive_next_cases log hserver hl hb hm peer p
      · rw [htarget, decide_eq_false hhash] at hresult
        obtain ⟨hresult', hledger'⟩ :=
          receiveAll_cons_onward hresult (ms.map fun m => .ok (peer, m))
        rw [hresult', hledger', BlockLog.appendAll, happend, ← p.advance_fresh]
        have hmax : max i (i + 1 + ms.length) = max (i + 1) (i + 1 + ms.length) := by omega
        obtain ⟨htaken, hmedium, hall, k', hk', hheld⟩ :=
          ih (p := p.count .fresh) hfollows (Nat.le_refl _) htarget
        rw [hmax]
        exact ⟨htaken, hmedium, hall, k', by omega, hheld⟩
      · obtain ⟨hresult', hledger'⟩ :=
          receiveAll_cons_error hresult (ms.map fun m => .ok (peer, m))
        rw [hresult', hledger', BlockLog.appendAll, happend]
        exact ⟨rfl, rfl, fun h => (by cases h), i, Nat.le_refl i, hfollows⟩

theorem receiveAll_answers (hlog : ∀ b medium, (log.append b medium).1 = .ok ())
    (hserver : server.Serveable c limit) (peer : Address) {p : Progress} {ms : List Message}
    (hms : Serving.Answers server p.target i ms) {l : Ledger μ} (hl : l.store.Follows server k)
    (hik : i ≤ k) :
    (p.receiveAll log c limit l (ms.map fun m => .ok (peer, m))).result =
        .ok (p.advance i k ms.length) ∧
      (p.receiveAll log c limit l (ms.map fun m => .ok (peer, m))).ledger.store.Follows server
        (max k (i + ms.length)) := by
  obtain ⟨hresult, _, hfollows, _⟩ := receiveAll_appends log hserver peer hms hl hik
  have happended : (log.appendAll (server.between k (i + ms.length)) l.medium).1 = .ok () :=
    BlockLog.appendAll_of_ok (fun b _ medium => hlog b medium) l.medium
  rw [happended] at hresult
  exact ⟨hresult, hfollows happended⟩

/-- **Catching up with an honest peer ends exactly at the target.** The peer serves a request for
the block at `t`; whoever holds the first `m` blocks and can log more takes all the responses,
skips those for blocks that are there and stores the others. -/
theorem serve_completes (hlog : ∀ b medium, (log.append b medium).1 = .ok ())
    (hserver : server.Serveable c limit) {l : Ledger μ} {m : Nat} (hl : l.store.Follows server m)
    {t : Nat} (hb : server.blocks[t]? = some b) (client peer : Address) :
    let served := Serving.serve server Serving.willing (some (.ok (client, .blockRequest b.hash)))
    let caught := (start b.hash).receiveAll log c limit l (served.1.map fun r => .ok (peer, r.2))
    served.2 = .ok () ∧
      caught.result = .ok ⟨b.hash, t + 1, t + 1 - min m (t + 1), min m (t + 1)⟩ ∧
      caught.ledger.store.blocks = server.blocks.take (max m (t + 1)) := by
  obtain ⟨ms, hms, hlength, hserve⟩ := Serving.serve_answers hserver.reachable.coherent
    (fun _ hb => hserver.exists_response hb) hb client
  obtain ⟨hresult, hfollows⟩ := receiveAll_answers hlog hserver peer (p := start b.hash) hms hl
    (Nat.zero_le m)
  have hframes : (ms.map (client, ·)).map (fun r => (.ok (peer, r.2) : Frame)) =
      ms.map fun m => .ok (peer, m) := by
    rw [List.map_map]
    rfl
  simp only [hserve, hframes, hresult, hlength, Nat.zero_add] at hfollows ⊢
  exact ⟨trivial, congrArg Except.ok (advance_start ..), hfollows.blocks_eq⟩

open Transparent in
/-- Whoever holds the first block only is taken over two changes of the authority to the last. -/
theorem serve_completes_rotated :
    ∃ b, rotated.blocks[3]? = some b ∧
      let request : Frame := .ok (⟨"client"⟩, .blockRequest b.hash)
      let served := Serving.serve rotated Serving.willing (some request)
      let caught := (start b.hash).receiveAll .inMemory crypto 1000
        ⟨build [(one 1, [10])], []⟩ (served.1.map fun r => .ok (⟨"peer"⟩, r.2))
      served.2 = .ok () ∧ caught.result = .ok ⟨b.hash, 4, 3, 1⟩ ∧
        caught.ledger.store.blocks = rotated.blocks.take 4 := by
  have hfollows : (build [(one 1, [10])]).Follows rotated 1 :=
    { reachable := build_reachable (by decide)
      blocks_eq := rfl
      within := by decide }
  obtain ⟨b, hb⟩ : ∃ b, rotated.blocks[3]? = some b := ⟨_, rfl⟩
  have hlog : ∀ b medium, (BlockLog.inMemory.append b medium).1 = .ok () := fun _ _ => rfl
  exact ⟨b, hb, serve_completes (l := ⟨build [(one 1, [10])], []⟩) hlog rotated_serveable hfollows
    hb ⟨"client"⟩ ⟨"peer"⟩⟩

end Progress

end CatchUp

end CosignedLedger
