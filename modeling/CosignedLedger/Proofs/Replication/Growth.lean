import CosignedLedger.Proofs.Authorised
import CosignedLedger.Proofs.Chain.Trust
import CosignedLedger.Proofs.Replication.Judgement

/-!
# What peers can add to a store

Whatever a peer sends, a store takes in at most one block at a time, and only a block that comes
next and that the authority of the last block has signed. A peer may send a proof that passes over
the last block or ends in another authority; the block is then refused because of what is stored.

* `Store.Grows`: a store and what it may have become.
* `Store.signedAfter_of_judge`: the signature of a block that is judged fresh.
* `Ledger.accept_cases`, `Ledger.acceptGenesis_cases`: what either way in can come to.
* `Ledger.accept_grows`, `Ledger.acceptGenesis_grows`, `Progress.receive_grows`: every way in.
* `Store.Grows.authorised`: growing keeps the blocks authorised.
-/

namespace CosignedLedger

namespace Store
variable {s s' : Store} {c : Crypto}

/-- The store stays as it is, or takes in one block that may come next, has the hashes that it
states and is signed by the authority of the last block. -/
inductive Grows (c : Crypto) (s : Store) : Store → Prop where
  | same : Grows c s s
  | block {b : Block} : s.Admits b → b.Hashed c →
      (∀ previous, s.last? = some previous → b.SignedAfter c previous) → Grows c s (s.publish b)

namespace Grows

theorem indexed (h : s.Grows c s') (hs : s.Indexed) : s'.Indexed := by
  cases h with
  | same => exact hs
  | block hb _ _ => exact hs.publish hb.fresh

theorem blocks_eq (h : s.Grows c s') : ∃ new : Option Block, s'.blocks = s.blocks ++ new.toList := by
  cases h with
  | same => exact ⟨none, by simp⟩
  | @block b _ _ _ => exact ⟨some b, rfl⟩

theorem authorised (h : s.Grows c s') (hs : s.Indexed) (ha : Authorised c s.blocks) :
    Authorised c s'.blocks := by
  cases h with
  | same => exact ha
  | block hb hhashed hsigned =>
    have hfresh := hs.fresh_iff.1 hb.fresh
    exact ha.append (ha.toConsecutive.append hb.index hb.previous hfresh) hhashed hsigned

end Grows

theorem Admits.last?_of_isGenesis {b : Block} (hb : s.Admits b) (hgenesis : b.isGenesis = true) :
    s.last? = none := by
  have hsize : s.size = 0 := by
    rw [← hb.index]
    simpa [Block.isGenesis] using hgenesis
  rw [last?, List.length_eq_zero_iff.1 hsize]
  rfl

/-- A block past the first that is judged fresh and may come next is signed by the authority of the
last block: its signature is the one its proof ends with, and the proof's last authority is the one
stored just before the block. -/
theorem JudgesProven.signedAfter {b : Block} {chain : Chain} {anchor : Digest}
    (h : s.JudgesProven b chain (.ok .fresh))
    (hproof : (s.verifyTo c chain anchor b.hash).result = .ok ()) (hb : s.Admits b)
    {previous : Block} (hprevious : s.last? = some previous) : b.SignedAfter c previous := by
  have hread : s.blocks[b.index - 1]? = some previous := by
    rw [hb.index, size, ← List.getLast?_eq_getElem?]
    exact hprevious
  cases h with
  | stored _ _ hcompares => cases hcompares
  | fresh hsignature _ hauthority =>
    obtain ⟨link, hlast, hlink⟩ := Option.map_eq_some_iff.1 (hauthority previous hread)
    rw [hlast, Option.map_some] at hsignature
    refine ⟨link.signature, hsignature, ?_⟩
    -- The links before the last one do not matter: what was accepted under the last one is a
    -- signature over the hash of the block.
    rcases verifyTo_eq_ok_iff.1 hproof with ⟨hnil, _⟩ | ⟨_, _, t, _, hleads, hhash⟩
    · rw [Chain.last?, hnil] at hlast
      cases hlast
    · obtain ⟨rfl, haccepts⟩ := hleads.last hlast
      have htarget : link.target = b.hash := hhash
      rwa [hlink, htarget] at haccepts

theorem signedAfter_of_judge {limit : Nat} {b : Block} {chain : Option Bytes}
    (hfresh : (s.judge c limit b chain).result = .ok .fresh) (hb : s.Admits b) {previous : Block}
    (hprevious : s.last? = some previous) : b.SignedAfter c previous := by
  cases judges_of_judge hfresh with
  | genesis _ _ hcompares => cases hcompares
  | trusted hgenesis _ =>
    rw [hb.last?_of_isGenesis hgenesis] at hprevious
    cases hprevious
  | proven _ _ _ hproof hproven => exact hproven.signedAfter hproof hb hprevious

end Store

namespace Ledger
variable {μ : Type} (log : BlockLog μ) {c : Crypto} (limit : Nat)

theorem insert_grows {b : Block} {l : Ledger μ} (hhashed : b.Hashed c)
    (hsigned : l.store.Admits b → ∀ previous, l.store.last? = some previous →
      b.SignedAfter c previous) :
    l.store.Grows c (l.insert log b).2.store := by
  obtain ⟨hb, medium, _, hinsert⟩ | ⟨e, medium, hinsert, _⟩ := insert_cases log b l
  · rw [hinsert]
    exact .block hb hhashed (hsigned hb)
  · rw [hinsert]
    exact .same

/-- Taking a response leaves the ledger as it is, or comes to inserting the decoded block after it
has been judged fresh. -/
theorem accept_cases (c : Crypto) (block : Bytes) (chain : Option Bytes) (l : Ledger μ) :
    (l.accept log c limit block chain).ledger = l ∨
    ∃ b, (decodeBlock c limit block).result = .ok b ∧
      (l.store.judge c limit b chain).result = .ok .fresh ∧
      (l.accept log c limit block chain).ledger = (l.insert log b).2 := by
  have haccepts := l.accept_accepts log c limit block chain
  generalize (l.accept log c limit block chain).result = result at haccepts
  generalize (l.accept log c limit block chain).ledger = l' at haccepts ⊢
  cases haccepts with
  | undecoded _ => exact .inl rfl
  | refused _ _ => exact .inl rfl
  | known _ _ => exact .inl rfl
  | unstored hdecode hjudge hinsert => exact .inr ⟨_, hdecode, hjudge, by rw [hinsert]⟩
  | fresh hdecode hjudge hadmits happend =>
    refine .inr ⟨_, hdecode, hjudge, ?_⟩
    rw [insert_of_admits hadmits (by rw [happend]), happend]

theorem accept_grows (c : Crypto) (block : Bytes) (chain : Option Bytes) (l : Ledger μ) :
    l.store.Grows c (l.accept log c limit block chain).ledger.store := by
  obtain hsame | ⟨b, hdecode, hfresh, hinsert⟩ := accept_cases log limit c block chain l
  · rw [hsame]
    exact .same
  · obtain ⟨_, _, hhashed⟩ := decodeBlock_eq_ok_iff.1 hdecode
    rw [hinsert]
    exact insert_grows log hhashed fun hb _ hprevious => Store.signedAfter_of_judge hfresh hb hprevious

theorem insertGenesis_ledger (b : Block) (l : Ledger μ) :
    (l.insertGenesis log b).2 = (l.insert log b).2 := by
  unfold insertGenesis
  split
  · rename_i h
    rw [h]
  · rename_i h
    rw [h]
    dsimp only
    split <;> rfl
  · rename_i h
    rw [h]
    dsimp only
    split <;> rfl
  · rename_i h
    rw [h]

theorem acceptGenesis_cases (c : Crypto) (bytes : Bytes) (l : Ledger μ) :
    (l.acceptGenesis log c limit bytes).ledger = l ∨
    ∃ b, (decodeBlock c limit bytes).result = .ok b ∧ b.isGenesis = true ∧
      (l.acceptGenesis log c limit bytes).ledger = (l.insert log b).2 := by
  unfold acceptGenesis
  dsimp only
  split
  · exact .inl rfl
  · rename_i b hdecode
    split
    · rename_i hgenesis
      split
      · exact .inl rfl
      · exact .inr ⟨b, hdecode, hgenesis, insertGenesis_ledger log b l⟩
    · exact .inl rfl

theorem acceptGenesis_grows (c : Crypto) (bytes : Bytes) (l : Ledger μ) :
    l.store.Grows c (l.acceptGenesis log c limit bytes).ledger.store := by
  obtain hsame | ⟨b, hdecode, hgenesis, hinsert⟩ := acceptGenesis_cases log limit c bytes l
  · rw [hsame]
    exact .same
  · obtain ⟨_, _, hhashed⟩ := decodeBlock_eq_ok_iff.1 hdecode
    rw [hinsert]
    refine insert_grows log hhashed fun hb previous hprevious => ?_
    rw [hb.last?_of_isGenesis hgenesis] at hprevious
    cases hprevious

end Ledger

theorem Progress.receive_grows {μ : Type} (log : BlockLog μ) (c : Crypto) (limit : Nat)
    (frame : Frame) (p : Progress) (l : Ledger μ) :
    l.store.Grows c (p.receive log c limit frame l).ledger.store := by
  unfold receive
  split
  · exact .same
  · exact l.accept_grows log limit c _ _
  · exact .same

end CosignedLedger
