import CosignedLedger.Proofs.Collective.Offering
import CosignedLedger.Proofs.Replication.Limits

/-!
# Blocks of one's own making

A node hashes the blocks that it makes, but does not look at their size; the limit is one on what is
decoded. So a block that a node has made and stored is decoded again with the limit of the node if
it is within it, and otherwise is refused for its size, by every peer with the same limit. Within
the limit a peer takes the first block when it holds none, and a later one in a catch-up when it
holds the blocks before, the authority of the last one has signed, and the proof is within the limit
as well.

* `Block.reread`: what decoding makes of a block that is written.
* `Ledger.process_of_oversized`, `Ledger.accept_of_oversized`: a block beyond the limit at a peer.
* `Ledger.accept_of_next`: a block within it, with its proof.
* `Travels`: all that can become of a block at peers with one limit.
* `Store.Admits.travels`, `Collective.created_travels`: whatever is made and stored travels.
-/

namespace CosignedLedger

section
variable {μ : Type} {crypto : Crypto} {limit : Nat} {b : Block}

/-- What decoding within a limit makes of a block that is written. -/
def Block.reread (limit : Nat) (b : Block) : Except CodecError Block :=
  let size := (Block.format.write b).length
  if size ≤ limit then .ok b else .error (.tooLarge size limit)

theorem decodeBlock_oversized (c : Crypto) {bytes : Bytes} (hsize : limit < bytes.length) :
    (decodeBlock c limit bytes).result = .error (.tooLarge bytes.length limit) := by
  simp only [decodeBlock, Metered.result_bind, Metered.result_ofExcept,
    Format.decodeWithin_eq_tooLarge hsize]
  rfl

theorem decodeBlock_reread (hb : b.Hashed crypto) (hlimit : limit < Bytes.capacity 8) :
    (decodeBlock crypto limit (Block.format.write b)).result = b.reread limit := by
  unfold Block.reread
  dsimp only
  split
  · rename_i hfit
    exact decodeBlock_write hb hfit hlimit
  · rename_i hlarge
    exact decodeBlock_oversized crypto (Nat.not_le.1 hlarge)

namespace Ledger

/-! ### At a peer -/

theorem process_of_oversized (crypto : Crypto) (log : BlockLog μ) (l : Ledger μ) {bytes : Bytes}
    (hsize : limit < bytes.length) :
    (l.process log crypto limit (.propagateGenesis bytes)).result =
        .error (.ofCodec (.tooLarge bytes.length limit)) ∧
      (l.process log crypto limit (.propagateGenesis bytes)).ledger = l := by
  simp [process, acceptGenesis, decodeBlock_oversized crypto hsize, Except.map]

theorem accept_of_oversized (crypto : Crypto) (log : BlockLog μ) (l : Ledger μ) {bytes : Bytes}
    (hsize : limit < bytes.length) (chain : Option Bytes) :
    (l.accept log crypto limit bytes chain).result =
        .error (.ofCodec (.tooLarge bytes.length limit)) ∧
      (l.accept log crypto limit bytes chain).ledger = l := by
  have hdecode := decodeBlock_oversized crypto hsize
  have haccepts := l.accept_accepts log crypto limit bytes chain
  generalize (l.accept log crypto limit bytes chain).result = result at haccepts ⊢
  generalize (l.accept log crypto limit bytes chain).ledger = l' at haccepts ⊢
  cases haccepts with
  | undecoded herror =>
    rw [hdecode] at herror
    cases herror
    exact ⟨rfl, rfl⟩
  | refused hok _ | known hok _ | unstored hok _ _ | fresh hok _ _ _ =>
    rw [hdecode] at hok
    cases hok

/-- A block within the limit is stored by a peer that holds the blocks before it, if the authority of
the last one has signed it and its proof is within the limit. -/
theorem accept_of_next (log : BlockLog μ) {l : Ledger μ} (hlimit : limit < Bytes.capacity 8)
    (hreachable : l.store.Reachable) (hadmits : l.store.Admits b)
    (hauthorised : Authorised crypto (l.store.publish b).blocks) (hlater : 0 < b.index)
    (hfit : (Block.format.write b).length ≤ limit) {chain : Chain}
    (hchain : (l.store.publish b).chainTo b.hash = .ok chain)
    (hchainFit : (Chain.format.write chain).length ≤ limit)
    (htakes : (log.append b l.medium).1 = .ok ()) :
    (l.accept log crypto limit (Block.format.write b) (some (Chain.format.write chain))).result =
        .ok (b, .fresh) ∧
      (l.accept log crypto limit (Block.format.write b) (some (Chain.format.write chain))).ledger =
        ⟨l.store.publish b, (log.append b l.medium).2⟩ := by
  have hserver : (l.store.publish b).Reachable :=
    hreachable.publish (Store.check_eq_ok_iff.2 hadmits)
  have hlast : (l.store.publish b).blocks[l.store.size]? = some b :=
    List.getElem?_concat_length
  have hfollows : l.store.Follows (l.store.publish b) l.store.size :=
    { reachable := hreachable
      blocks_eq := List.take_left.symm
      within := by simp [Store.size, Store.publish] }
  obtain ⟨i, hi⟩ : ∃ i, l.store.size = i + 1 :=
    ⟨l.store.size - 1, by have := hadmits.index; omega⟩
  have hdecode := decodeBlock_write
    (hauthorised.hashed b (List.mem_of_getElem? hlast)) hfit hlimit
  rw [hi] at hlast hfollows
  have hjudge := hfollows.judge_later hserver hauthorised hlast (Nat.le_refl _) hchain
    (decodeChain_write hchainFit hlimit)
  rw [Store.verdictAt, if_neg (Nat.lt_irrefl _)] at hjudge
  obtain ⟨hresult, hledger⟩ := accept_of_fresh log hdecode hjudge
  rw [insert_of_admits hadmits htakes] at hresult hledger
  exact ⟨hresult, hledger⟩

end Ledger

/-- What can become of a block that was stored after the blocks of a store, at peers with the limit of
the node that stored it. -/
structure Travels (crypto : Crypto) (limit : Nat) (s : Store) (b : Block) : Prop where
  /-- It is decoded to itself, or is too large. -/
  decoded : (decodeBlock crypto limit (Block.format.write b)).result = b.reread limit
  /-- If it is too large, no peer takes it, in either way. -/
  refused : limit < (Block.format.write b).length →
    ∀ {μ : Type} (log : BlockLog μ) (l : Ledger μ) (chain : Option Bytes),
      let fault := ReplicationError.ofCodec (.tooLarge (Block.format.write b).length limit)
      let sent := l.process log crypto limit (.propagateGenesis (Block.format.write b))
      let served := l.accept log crypto limit (Block.format.write b) chain
      sent.result = .error fault ∧ sent.ledger = l ∧ served.result = .error fault ∧ served.ledger = l
  /-- If it is the first block and not too large, a peer without blocks takes it. -/
  installed : (Block.format.write b).length ≤ limit → b.index = 0 →
    ∀ {μ : Type} (log : BlockLog μ) (l : Ledger μ), l.store = .empty →
      (log.append b l.medium).1 = .ok () →
      let sent := l.process log crypto limit (.propagateGenesis (Block.format.write b))
      sent.result = .ok none ∧ sent.ledger = ⟨Store.empty.publish b, (log.append b l.medium).2⟩
  /-- If it is a later one and neither it nor its proof is too large, a peer with the blocks before it
  takes it, as long as all of them are authorised. -/
  proven : (Block.format.write b).length ≤ limit → 0 < b.index → s.Reachable →
    Authorised crypto (s.publish b).blocks → ∃ chain, (s.publish b).chainTo b.hash = .ok chain ∧
      ((Chain.format.write chain).length ≤ limit →
        ∀ {μ : Type} (log : BlockLog μ) (l : Ledger μ), l.store = s →
          (log.append b l.medium).1 = .ok () →
          let bytes := Chain.format.write chain
          let served := l.accept log crypto limit (Block.format.write b) (some bytes)
          served.result = .ok (b, .fresh) ∧
            served.ledger = ⟨s.publish b, (log.append b l.medium).2⟩)

theorem Store.Admits.travels {s : Store} (hadmits : s.Admits b) (hb : b.Hashed crypto)
    (hlimit : limit < Bytes.capacity 8) : Travels crypto limit s b where
  decoded := decodeBlock_reread hb hlimit
  refused hlarge _ log l chain := by
    obtain ⟨hsent, hkept⟩ := l.process_of_oversized crypto log hlarge
    obtain ⟨hserved, hkept'⟩ := l.accept_of_oversized crypto log hlarge chain
    exact ⟨hsent, hkept, hserved, hkept'⟩
  installed hfit hindex _ log l hempty htakes := by
    have hsize : s.size = 0 := by rw [← hadmits.index, hindex]
    have hprevious : b.previousHash = .zero := by
      rw [hadmits.previous, lastHash, last?, List.length_eq_zero_iff.1 hsize]
      rfl
    exact Ledger.process_of_awaits log
      ⟨hempty, decodeBlock_write hb hfit hlimit, hindex, hprevious⟩ htakes
  proven hfit hlater hs hauthorised := by
    obtain ⟨i, hi⟩ : ∃ i, s.size = i + 1 := ⟨s.size - 1, by have := hadmits.index; omega⟩
    have hlast : (s.publish b).blocks[i + 1]? = some b := by
      rw [← hi]
      exact List.getElem?_concat_length
    obtain ⟨chain, _, _, hchain, _⟩ :=
      exists_proof (hs.publish (check_eq_ok_iff.2 hadmits)) hauthorised hlast
    refine ⟨chain, hchain, fun hchainFit _ log l hstore htakes => ?_⟩
    subst hstore
    exact Ledger.accept_of_next log hlimit hs hadmits hauthorised hlater hfit hchain hchainFit htakes

namespace Collective
variable {c c' : Collective} {id : Nat}

theorem insert_ok (hid : id < c.nodes.length) (h : c.insert id b = (.ok (), c')) :
    (c.node id).store.Admits b ∧ (c'.node id).store = (c.node id).store.publish b := by
  simp only [insert] at h
  obtain ⟨hadmits, medium, _, hinsert⟩ | ⟨e, medium, hinsert, _⟩ :=
    Ledger.insert_cases Storage.log b (c.ledger id)
  · rw [hinsert] at h
    cases h
    rw [node_setLedger_self hid]
    exact ⟨hadmits, rfl⟩
  · rw [hinsert] at h
    cases h

/-- **A block that a node makes and stores travels as far as its size lets it.** Whatever the roster,
the payload and the signature: the first block that a node creates, and any block that is drafted
after the last one, signed with any bytes and stored, is the last one in the store, and a peer with
the same limit decodes it to itself unless it is too large. -/
theorem created_travels (crypto : Crypto) (hid : id < c.nodes.length)
    (hlimit : (c.node id).settings.maxBlockSize < Bytes.capacity 8) :
    let limit := (c.node id).settings.maxBlockSize
    let before := (c.node id).store
    (∀ (authority : Roster) (payload : Bytes) (b : Block) (after : Collective),
      c.createGenesis crypto id authority payload = (.ok b, after) →
        (after.node id).store = before.publish b ∧ Travels crypto limit before b) ∧
    ∀ (earlier later : Collective) (maker : Nat) (authority : Roster) (payload : Bytes)
      (draft : Block) (signature : Bytes) (after : Collective),
      earlier.nextBlock crypto maker authority payload = (.ok draft, later) →
      c.insert id (draft.withSignature signature) = (.ok (), after) →
        (after.node id).store = before.publish (draft.withSignature signature) ∧
          Travels crypto limit before (draft.withSignature signature) := by
  refine ⟨?_, ?_⟩
  · intro authority payload b after h
    have hinsert : (c.addCalls Block.draftCalls).insert id (Block.genesis crypto authority payload) =
        (.ok (), after) ∧ Block.genesis crypto authority payload = b := by
      simp only [createGenesis] at h
      rcases hresult : (c.addCalls Block.draftCalls).insert id
          (Block.genesis crypto authority payload) with ⟨result, c'⟩
      rw [hresult] at h
      cases result with
      | error e => cases h
      | ok _ =>
        cases h
        exact ⟨rfl, rfl⟩
    obtain ⟨hstored, rfl⟩ := hinsert
    obtain ⟨hadmits, hstore⟩ := insert_ok (c := c.addCalls Block.draftCalls) hid hstored
    exact ⟨hstore, hadmits.travels ⟨rfl, rfl⟩ hlimit⟩
  · intro earlier later maker authority payload draft signature after hdraft hstored
    have hhashed : (draft.withSignature signature).Hashed crypto := by
      unfold nextBlock at hdraft
      split at hdraft
      · cases hdraft
      · cases hdraft
        exact ⟨rfl, rfl⟩
    obtain ⟨hadmits, hstore⟩ := insert_ok hid hstored
    exact ⟨hstore, hadmits.travels hhashed hlimit⟩

end Collective

end

namespace Collective
open Transparent

/-- One node that decodes what has at most 250 bytes, with some blocks in its store. -/
def small (store : Store) : Collective :=
  { Collective.start .empty 1 with nodes := [⟨⟨1, 250, none⟩, store, .memory []⟩] }

def opening : Block := Block.genesis crypto (one 1) [10]

def opened : Collective := small (Store.empty.publish opening)

def following (payload signature : Bytes) : Block :=
  (Block.draft crypto 1 opening.hash (one 1) payload).withSignature signature

/-- A first block, and one after it that has been signed with a single byte, are small enough. -/
theorem created_travels_small :
    let created := (small .empty).createGenesis crypto 0 (one 1) [10]
    let drafted := opened.nextBlock crypto 0 (one 1) [11]
    let stored := opened.insert 0 (following [11] [7])
    0 < (small .empty).nodes.length ∧ 0 < opened.nodes.length ∧ 250 < Bytes.capacity 8 ∧
      created.1 = .ok opening ∧ drafted.1.map (·.withSignature [7]) = .ok (following [11] [7]) ∧
      stored.1 = .ok () ∧ (created.2.node 0).store = Store.empty.publish opening ∧
      Travels crypto 250 .empty opening ∧
      (stored.2.node 0).store = (Store.empty.publish opening).publish (following [11] [7]) ∧
      Travels crypto 250 (Store.empty.publish opening) (following [11] [7]) := by
  have hlimit : 250 < Bytes.capacity 8 := by decide
  have hsmall : 0 < (small .empty).nodes.length := by decide
  have hopened : 0 < opened.nodes.length := by decide
  obtain ⟨hfirst, _⟩ := created_travels crypto hsmall hlimit
  obtain ⟨_, hnext⟩ := created_travels crypto hopened hlimit
  have hcreated := hfirst (one 1) [10] opening _ rfl
  have hstored := hnext opened _ 0 (one 1) [11] _ [7] _ rfl rfl
  exact ⟨hsmall, hopened, hlimit, rfl, rfl, rfl, hcreated.1, hcreated.2, hstored.1, hstored.2⟩

/-- A payload of 200 bytes makes a first block and a later one that the node stores and that neither
it nor a peer with its limit decodes. And a block that is small enough but signed with a single byte
is stored, and refused by a peer with the same blocks before it, for its proof. -/
theorem created_refused :
    let large := List.replicate 200 (0 : UInt8)
    let created := (small .empty).createGenesis crypto 0 (one 1) large
    let first := Block.genesis crypto (one 1) large
    let stored := opened.insert 0 (following large [7])
    let unsigned := opened.insert 0 (following [11] [7])
    let chain := ((unsigned.2.node 0).store.chainTo (following [11] [7]).hash).toOption.getD ⟨[]⟩
    let peer : Ledger (List Block) := ⟨Store.empty.publish opening, []⟩
    (created.1 = .ok first ∧ (created.2.node 0).store.last? = some first ∧
      (decodeBlock crypto 250 (Block.format.write first)).result = .error (.tooLarge 339 250)) ∧
    (stored.1 = .ok () ∧ (stored.2.node 0).store.last? = some (following large [7]) ∧
      (decodeBlock crypto 250 (Block.format.write (following large [7]))).result =
        .error (.tooLarge 348 250)) ∧
    unsigned.1 = .ok () ∧ (unsigned.2.node 0).store.last? = some (following [11] [7]) ∧
      (decodeBlock crypto 250 (Block.format.write (following [11] [7]))).result =
        .ok (following [11] [7]) ∧
      (peer.accept .inMemory crypto 250 (Block.format.write (following [11] [7]))
        (some (Chain.format.write chain))).result.map (·.1) =
          .error (.chain (.invalidProof 0 (.crypto .verificationFailed))) := by
  decide +kernel

end Collective

end CosignedLedger
