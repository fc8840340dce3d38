import CosignedLedger.Proofs.Outcome
import CosignedLedger.Proofs.Store.Coherent
import CosignedLedger.Replication.CatchUp

/-!
# What taking a response can come to

A received block is judged by what came with it and by the blocks around its index, and stored if it
is judged fresh. Each outcome is listed here once, with all that must hold for it.

* `Store.Compares`: a block against the one in its place.
* `Store.JudgesProven`: a block whose chain has been verified.
* `Store.Judges`, `Store.judge_judges`: any block.
* `Ledger.Accepts`, `Ledger.accept_accepts`: a response, with the ledger that it leaves.
-/

namespace CosignedLedger

namespace Store
variable {s : Store} {c : Crypto} {limit : Nat} {b : Block}

inductive Compares (stored received : Block) : Except ReplicationError Verdict → Prop where
  | known : stored.hash = received.hash → Compares stored received (.ok .known)
  | conflict : stored.hash ≠ received.hash →
      Compares stored received (.error (.conflict stored.index stored.hash received.hash))

theorem compare_compares (stored received : Block) :
    Compares stored received (compare stored received) := by
  unfold compare
  split
  · rename_i h
    exact .known h
  · rename_i h
    exact .conflict h

inductive JudgesProven (s : Store) (b : Block) (chain : Chain) :
    Except ReplicationError Verdict → Prop where
  | signature : b.signature ≠ chain.last?.map (·.signature) →
      JudgesProven s b chain (.error (.protocol (.signatureDiffers b.index)))
  | stored {stored : Block} {result : Except ReplicationError Verdict} :
      b.signature = chain.last?.map (·.signature) → s.blocks[b.index]? = some stored →
      Compares stored b result → JudgesProven s b chain result
  | signer {previous : Block} :
      b.signature = chain.last?.map (·.signature) → s.blocks[b.index]? = none →
      s.blocks[b.index - 1]? = some previous →
      chain.last?.map (·.authority) ≠ some previous.authority →
      JudgesProven s b chain
        (.error (.chain (.invalidProof chain.lastPosition.toNat (.wrongSigner b.index))))
  | fresh : b.signature = chain.last?.map (·.signature) → s.blocks[b.index]? = none →
      (∀ previous, s.blocks[b.index - 1]? = some previous →
        chain.last?.map (·.authority) = some previous.authority) →
      JudgesProven s b chain (.ok .fresh)

theorem read_eq_error_iff {i : Nat} {e : StoreError} :
    s.read i = .error e ↔ s.blocks[i]? = none ∧ e = .notFound i := by
  unfold read
  cases s.blocks[i]? with
  | none => simp [eq_comm]
  | some b => simp

theorem judgeProven_judges (s : Store) (b : Block) (chain : Chain) :
    s.JudgesProven b chain (s.judgeProven b chain) := by
  unfold judgeProven
  split
  · rename_i hsignature
    exact .signature hsignature
  rename_i hsignature
  have hsignature := Decidable.not_not.1 hsignature
  split
  · rename_i stored hstored
    exact .stored hsignature (read_eq_ok_iff.1 hstored) (compare_compares stored b)
  rename_i hnew
  have hnew := (read_eq_error_iff.1 hnew).1
  split
  · rename_i previous hprevious
    have hprevious := read_eq_ok_iff.1 hprevious
    split
    · rename_i hauthority
      exact .signer hsignature hnew hprevious hauthority
    · rename_i hauthority
      refine .fresh hsignature hnew ?_
      intro previous' hprevious'
      rw [hprevious] at hprevious'
      cases hprevious'
      exact Decidable.not_not.1 hauthority
  · rename_i hnone
    refine .fresh hsignature hnew ?_
    intro previous hprevious
    rw [(read_eq_error_iff.1 hnone).1] at hprevious
    cases hprevious

inductive Judges (s : Store) (c : Crypto) (limit : Nat) (b : Block) :
    Option Bytes → Except ReplicationError Verdict → Prop where
  | withChain {bytes : Bytes} : b.isGenesis = true →
      Judges s c limit b (some bytes) (.error (.protocol .genesisWithChain))
  | genesis {stored : Block} {result : Except ReplicationError Verdict} : b.isGenesis = true →
      s.genesis? = some stored → Compares stored b result → Judges s c limit b none result
  | trusted : b.isGenesis = true → s.genesis? = none → Judges s c limit b none (.ok .fresh)
  | noChain : b.isGenesis = false → Judges s c limit b none (.error (.protocol (.noChain b.index)))
  | undecoded {bytes : Bytes} {e : CodecError} : b.isGenesis = false →
      decodeChain limit bytes = .error e → Judges s c limit b (some bytes) (.error (.ofCodec e))
  | beforeGenesis {bytes : Bytes} {chain : Chain} : b.isGenesis = false →
      decodeChain limit bytes = .ok chain → s.genesis? = none →
      Judges s c limit b (some bytes) (.error (.protocol (.beforeGenesis b.index)))
  | unproven {bytes : Bytes} {chain : Chain} {genesis : Block} {e : ChainError} :
      b.isGenesis = false → decodeChain limit bytes = .ok chain → s.genesis? = some genesis →
      (s.verifyTo c chain genesis.hash b.hash).result = .error e →
      Judges s c limit b (some bytes) (.error (.chain e))
  | proven {bytes : Bytes} {chain : Chain} {genesis : Block}
      {result : Except ReplicationError Verdict} :
      b.isGenesis = false → decodeChain limit bytes = .ok chain → s.genesis? = some genesis →
      (s.verifyTo c chain genesis.hash b.hash).result = .ok () →
      s.JudgesProven b chain result → Judges s c limit b (some bytes) result

theorem judgeGenesis_judges (s : Store) (c : Crypto) (limit : Nat) (chain : Option Bytes)
    (hgenesis : b.isGenesis = true) : s.Judges c limit b chain (s.judgeGenesis b chain) := by
  unfold judgeGenesis
  cases chain with
  | some bytes => exact .withChain hgenesis
  | none =>
    rw [if_neg (by simp)]
    cases hstored : s.genesis? with
    | none => exact .trusted hgenesis hstored
    | some stored => exact .genesis hgenesis hstored (compare_compares stored b)

/-- **Every judgement is one of these.** -/
theorem judge_judges (s : Store) (c : Crypto) (limit : Nat) (b : Block) (chain : Option Bytes) :
    s.Judges c limit b chain (s.judge c limit b chain).result := by
  unfold judge
  split
  · rename_i hgenesis
    exact judgeGenesis_judges s c limit chain hgenesis
  rename_i hgenesis
  have hgenesis := Bool.eq_false_iff.2 hgenesis
  cases chain with
  | none => exact .noChain hgenesis
  | some bytes =>
    simp only [Metered.result_bind, Metered.result_ofExcept]
    cases hdecode : decodeChain limit bytes with
    | error e => exact .undecoded hgenesis hdecode
    | ok chain =>
      simp only [Except.mapError_ok, bind, Except.bind]
      cases hstored : s.genesis? with
      | none => exact .beforeGenesis hgenesis hdecode hstored
      | some genesis =>
        simp only [Metered.mapError]
        cases hverify : (s.verifyTo c chain genesis.hash b.hash).result with
        | error e => exact .unproven hgenesis hdecode hstored hverify
        | ok _ => exact .proven hgenesis hdecode hstored hverify (judgeProven_judges s b chain)

theorem judges_of_judge {chain : Option Bytes} {result : Except ReplicationError Verdict}
    (h : (s.judge c limit b chain).result = result) : s.Judges c limit b chain result := by
  rw [← h]
  exact judge_judges s c limit b chain

end Store

namespace Ledger
variable {μ : Type} {log : BlockLog μ} {c : Crypto} {limit : Nat} {block : Bytes}
  {chain : Option Bytes} {l : Ledger μ}

inductive Accepts (log : BlockLog μ) (c : Crypto) (limit : Nat) (block : Bytes)
    (chain : Option Bytes) (l : Ledger μ) :
    Except ReplicationError (Block × Verdict) → Ledger μ → Prop where
  | undecoded {e : CodecError} : (decodeBlock c limit block).result = .error e →
      Accepts log c limit block chain l (.error (.ofCodec e)) l
  | refused {b : Block} {e : ReplicationError} : (decodeBlock c limit block).result = .ok b →
      (l.store.judge c limit b chain).result = .error e →
      Accepts log c limit block chain l (.error e) l
  | known {b : Block} : (decodeBlock c limit block).result = .ok b →
      (l.store.judge c limit b chain).result = .ok .known →
      Accepts log c limit block chain l (.ok (b, .known)) l
  | unstored {b : Block} {e : StoreError} {medium : μ} :
      (decodeBlock c limit block).result = .ok b →
      (l.store.judge c limit b chain).result = .ok .fresh →
      l.insert log b = (.error e, ⟨l.store, medium⟩) →
      Accepts log c limit block chain l (.error (.store e)) ⟨l.store, medium⟩
  | fresh {b : Block} {medium : μ} :
      (decodeBlock c limit block).result = .ok b →
      (l.store.judge c limit b chain).result = .ok .fresh →
      l.store.Admits b → log.append b l.medium = (.ok (), medium) →
      Accepts log c limit block chain l (.ok (b, .fresh)) ⟨l.store.publish b, medium⟩

theorem accept_accepts (log : BlockLog μ) (c : Crypto) (limit : Nat) (block : Bytes)
    (chain : Option Bytes) (l : Ledger μ) :
    l.Accepts log c limit block chain (l.accept log c limit block chain).result
      (l.accept log c limit block chain).ledger := by
  unfold accept
  dsimp only
  cases hdecode : (decodeBlock c limit block).result with
  | error e =>
    simp only [Metered.result_mapError, hdecode, Except.mapError_error, bind]
    exact .undecoded hdecode
  | ok b =>
    simp only [Metered.result_mapError, hdecode, Except.mapError_ok, bind]
    rcases hjudge : (l.store.judge c limit b chain).result with e | verdict
    · exact .refused hdecode hjudge
    · cases verdict with
      | known => exact .known hdecode hjudge
      | fresh =>
        simp only [Metered.result_pure]
        obtain ⟨hadmits, medium, happend, hinsert⟩ | ⟨e, medium, hinsert, _⟩ :=
          insert_cases log b l
        · rw [hinsert]
          exact .fresh hdecode hjudge hadmits happend
        · rw [hinsert]
          exact .unstored hdecode hjudge hinsert

end Ledger

end CosignedLedger
