import CosignedLedger.Proofs.Canonical
import CosignedLedger.Proofs.Chain.FirstFault
import CosignedLedger.Proofs.Replication.Judgement

/-!
# Which link a rejection names

A rejected chain is reported with the position of a link. Verification follows the links, or looks
at the last one when there is one, so the position is that of a link. A response is judged further,
against what is stored, and if its signer is wrong the last link is named, whether or not the chain
has any. The empty chain gets as far as this in one case, in which the position, counted in words,
wraps around.

* `Chain.lastPosition_lt_iff`: the last position is that of a link unless there is none.
* `Store.verify_position`, `Store.verifyTo_position`: rejections by verification.
* `Store.Hollow`: the one case.
* `Store.Judges.position`, `Store.judge_of_hollow`: rejections of a response.
* `Ledger.Positions`, `Ledger.rejection_positions`: all of them.
-/

namespace CosignedLedger

theorem Header.index_eq_of_canonicalBytes_eq {h h' : Header}
    (heq : h.canonicalBytes = h'.canonicalBytes) : h.index = h'.index := by
  simp only [canonicalBytes, List.append_assoc] at heq
  obtain ⟨hindex, _⟩ := List.append_inj heq (by simp)
  exact UInt64.toNat_inj.1 (@Bytes.ofNatLE_inj 8 _ _ h.index.toNat_lt h'.index.toNat_lt hindex)

theorem Chain.lastPosition_lt_iff {chain : Chain} :
    chain.lastPosition.toNat < chain.length ↔ chain.links ≠ [] := by
  have hlength : chain.length = 0 ↔ chain.links = [] := List.length_eq_zero_iff
  have hlast : chain.lastPosition.toNat =
      (18446744073709551615 + chain.length % 18446744073709551616) % 18446744073709551616 := by
    simp only [lastPosition, UInt64.toNat_sub, UInt64.toNat_ofNat]
    rfl
  rw [hlast, ne_eq, ← hlength]
  omega

namespace Store
variable {s : Store} {c : Crypto} {chain : Chain} {anchor target : Digest} {p : Nat}
  {fault : LinkFault}

theorem lookup_ne_invalidProof : s.lookup anchor ≠ .error (.invalidProof p fault) := by
  unfold lookup readByHash
  split <;> simp

theorem verify_position
    (h : (s.verify c chain anchor).result = .error (.invalidProof p fault)) : p < chain.length := by
  by_cases hchain : chain.links = []
  · simp [verify, Chain.isEmpty, hchain] at h
  cases hanchor : s.lookup anchor with
  | error e =>
    simp only [verify, Chain.isEmpty, List.isEmpty_iff, hchain, if_false, Metered.result_bind,
      Metered.result_ofExcept, hanchor, Except.bind_eq_error] at h
    obtain h | ⟨_, h, _⟩ := h
    · rw [h] at hanchor
      exact absurd hanchor lookup_ne_invalidProof
    · cases h
  | ok b =>
    have hanchor := lookup_eq_ok_iff.1 hanchor
    rcases Trust.leads_or_breaks c (.ofBlock b) chain.links with ⟨t, hleads⟩ | ⟨q, hbreaks⟩
    · rw [verify_of_leads hanchor hchain hleads] at h
      cases h
    · obtain ⟨_, _, _, hverify, _⟩ := verify_of_breaksAt hanchor hbreaks
      rw [hverify] at h
      cases h
      obtain ⟨_, _, _, hlink, _⟩ := hbreaks
      exact (List.getElem?_eq_some_iff.1 hlink).1

theorem verifyTo_position
    (h : (s.verifyTo c chain anchor target).result = .error (.invalidProof p fault)) :
    p < chain.length := by
  unfold verifyTo at h
  split at h
  · split at h <;> cases h
  · rename_i hempty
    have hchain : chain.links ≠ [] := by simpa [Chain.isEmpty] using hempty
    simp only [Metered.result_bind, Except.bind_eq_error] at h
    obtain h | ⟨reached, _, h⟩ := h
    · exact verify_position h
    · split at h
      · cases h
        exact Chain.lastPosition_lt_iff.2 hchain
      · cases h

/-- The block is the next one and carries no signature, the chain with it is empty, and the hash of
the block is that of the first stored one, which the empty chain leads to. -/
structure Hollow (s : Store) (b : Block) (chain : Chain) : Prop where
  empty : chain.links = []
  unsigned : b.signature = none
  later : 0 < b.index
  next : b.index = s.size
  hash : s.genesis?.map (·.hash) = some b.hash

section Judge
variable {limit : Nat} {b : Block} {bytes : Bytes}

theorem JudgesProven.position (hlater : 0 < b.index)
    (hproof : s.genesis?.map (·.hash) = some anchor)
    (hverify : (s.verifyTo c chain anchor b.hash).result = .ok ())
    (h : s.JudgesProven b chain (.error (.chain (.invalidProof p fault)))) :
    p < chain.length ∨ s.Hollow b chain := by
  cases h with
  | stored _ _ hcompares => cases hcompares
  | @signer previous hsignature hnew hprevious _ =>
    by_cases hchain : chain.links = []
    · rcases verifyTo_eq_ok_iff.1 hverify with ⟨_, rfl⟩ | ⟨hlinks, _⟩
      · have hsize := List.getElem?_eq_none_iff.1 hnew
        have hlt := (List.getElem?_eq_some_iff.1 hprevious).1
        refine .inr
          { empty := hchain
            unsigned := ?_
            later := hlater
            next := by simp only [size]; omega
            hash := hproof }
        rw [hsignature, Chain.last?, hchain]
        rfl
      · exact absurd hchain hlinks
    · exact .inl (Chain.lastPosition_lt_iff.2 hchain)

/-- A response that is rejected for a link comes with a chain, and the link is one of that chain
unless the response is hollow. -/
theorem Judges.position {received : Option Bytes}
    (h : s.Judges c limit b received (.error (.chain (.invalidProof p fault)))) :
    0 < b.index ∧ ∃ bytes chain, received = some bytes ∧ decodeChain limit bytes = .ok chain ∧
      (p < chain.length ∨ s.Hollow b chain) := by
  have hlater : b.isGenesis = false → 0 < b.index := by
    intro hgenesis
    simp only [Block.isGenesis, decide_eq_false_iff_not] at hgenesis
    omega
  generalize hresult : (Except.error (.chain (.invalidProof p fault)) :
    Except ReplicationError Verdict) = result at h
  cases h with
  | genesis _ _ hcompares =>
    cases hcompares <;> cases hresult
  | @undecoded _ e _ _ => cases e <;> cases hresult
  | unproven hgenesis hdecode _ hverify =>
    cases hresult
    exact ⟨hlater hgenesis, _, _, rfl, hdecode, .inl (verifyTo_position hverify)⟩
  | proven hgenesis hdecode hstored hverify hproven =>
    subst hresult
    refine ⟨hlater hgenesis, _, _, rfl, hdecode, ?_⟩
    exact hproven.position (hlater hgenesis) (by rw [hstored]; rfl) hverify
  | _ => cases hresult

/-- A hollow response is rejected for a link, and its position is as large as a word can be. -/
theorem judge_of_hollow (hdecode : decodeChain limit bytes = .ok chain) (h : s.Hollow b chain) :
    (s.judge c limit b (some bytes)).result =
      .error (.chain (.invalidProof (UInt64.size - 1) (.wrongSigner b.index))) := by
  obtain ⟨genesis, hgenesis, hhash⟩ := Option.map_eq_some_iff.1 h.hash
  have hlater := h.later
  have hnext := h.next
  simp only [size] at hnext
  have hfirst : b.isGenesis = false := by
    simp only [Block.isGenesis, decide_eq_false_iff_not]
    omega
  have hverify : (s.verifyTo c chain genesis.hash b.hash).result = .ok () :=
    verifyTo_eq_ok_iff.2 (.inl ⟨h.empty, hhash⟩)
  have hnew : s.read b.index = .error (.notFound b.index) :=
    read_eq_error_iff.2 ⟨List.getElem?_eq_none (Nat.le_of_eq hnext.symm), rfl⟩
  obtain ⟨previous, hprevious⟩ : ∃ previous, s.read (b.index - 1) = .ok previous :=
    ⟨_, read_eq_ok_iff.2 (List.getElem?_eq_getElem (by omega))⟩
  have hlast : chain.last? = none := by rw [Chain.last?, h.empty, List.getLast?_nil]
  have hposition : chain.lastPosition.toNat = UInt64.size - 1 := by
    rw [Chain.lastPosition, Chain.length, h.empty]
    rfl
  have hproven : s.judgeProven b chain =
      .error (.chain (.invalidProof (UInt64.size - 1) (.wrongSigner b.index))) := by
    simp only [judgeProven, h.unsigned, hlast, hnew, hprevious, Option.map_none, hposition]
    simp
  simp only [judge, hfirst, Bool.false_eq_true, if_false, Metered.result_ofExcept,
    Metered.result_mapError, hdecode, Except.mapError_ok, hgenesis, hverify, hproven, bind]

/-- Where the first block has the hash of its header, the header of a hollow response collides with
it, since they have different indices. -/
theorem Hollow.collide (h : s.Hollow b chain) (hs : s.Coherent) (hb : b.Hashed c) {genesis : Block}
    (hgenesis : s.genesis? = some genesis)
    (hhashed : c.hash genesis.header.canonicalBytes = genesis.hash) :
    genesis.header.Collide c b.header := by
  have hhash : genesis.hash = b.hash := by simpa [hgenesis] using h.hash
  constructor
  · intro heq
    have hindex : genesis.index = b.index :=
      congrArg UInt64.toNat (Header.index_eq_of_canonicalBytes_eq heq)
    rw [genesis?_eq] at hgenesis
    have hposition := hs.position hgenesis
    have hlater := h.later
    omega
  · rw [hhashed, hhash, hb.header]

end Judge

end Store

namespace Ledger
variable {μ : Type} {log : BlockLog μ} {c : Crypto} {limit : Nat} {l : Ledger μ} {block : Bytes}

theorem Accepts.judges {received : Option Bytes} {e : ChainError} {l' : Ledger μ}
    (h : l.Accepts log c limit block received (.error (.chain e)) l') :
    ∃ b, (decodeBlock c limit block).result = .ok b ∧
      l.store.Judges c limit b received (.error (.chain e)) := by
  generalize hresult : (Except.error (.chain e) : Except ReplicationError (Block × Verdict)) =
    result at h
  cases h with
  | @undecoded cause _ => cases cause <;> cases hresult
  | refused hdecode hjudge =>
    cases hresult
    exact ⟨_, hdecode, Store.judges_of_judge hjudge⟩
  | _ => cases hresult

variable (log) in
theorem accept_of_judge_error {received : Option Bytes} {b : Block} {e : ReplicationError}
    (hdecode : (decodeBlock c limit block).result = .ok b)
    (hjudge : (l.store.judge c limit b received).result = .error e) :
    (l.accept log c limit block received).result = .error e := by
  unfold accept
  simp only [Metered.result_mapError, hdecode, Except.mapError_ok, hjudge, bind]

/-- Where the rejections of a ledger point. -/
structure Positions (log : BlockLog μ) (c : Crypto) (limit : Nat) (l : Ledger μ) : Prop where
  verify : ∀ chain anchor p fault,
    (l.store.verify c chain anchor).result = .error (.invalidProof p fault) → p < chain.length
  verifyTo : ∀ chain anchor target p fault,
    (l.store.verifyTo c chain anchor target).result = .error (.invalidProof p fault) →
      p < chain.length
  accept : ∀ block received p fault,
    (l.accept log c limit block received).result = .error (.chain (.invalidProof p fault)) →
      ∃ b bytes chain, (decodeBlock c limit block).result = .ok b ∧ 0 < b.index ∧
        received = some bytes ∧ decodeChain limit bytes = .ok chain ∧
        (p < chain.length ∨ l.store.Hollow b chain)
  /-- Every hollow response is rejected for a link that is not there. -/
  hollow : ∀ block b bytes chain, (decodeBlock c limit block).result = .ok b →
    decodeChain limit bytes = .ok chain → l.store.Hollow b chain →
      (l.accept log c limit block (some bytes)).result =
        .error (.chain (.invalidProof (UInt64.size - 1) (.wrongSigner b.index)))
  /-- There is none where the first block has the hash of its header, as long as headers do not
  collide. -/
  collide : ∀ block b chain genesis, (decodeBlock c limit block).result = .ok b →
    l.store.Hollow b chain → l.store.genesis? = some genesis →
    c.hash genesis.header.canonicalBytes = genesis.hash → genesis.header.Collide c b.header

/-- **A rejection names a link of the chain, but for one slip.** Verification always does, whatever
is stored. So does taking a response, unless the response is hollow: then there is no link, and the
position is that before the first one, which wraps around. -/
theorem rejection_positions (log : BlockLog μ) (c : Crypto) (limit : Nat) (hl : l.store.Reachable) :
    l.Positions log c limit where
  verify _ _ _ _ h := Store.verify_position h
  verifyTo _ _ _ _ _ h := Store.verifyTo_position h
  accept block received p fault h := by
    have haccepts := l.accept_accepts log c limit block received
    rw [h] at haccepts
    obtain ⟨b, hdecode, hjudges⟩ := haccepts.judges
    obtain ⟨hlater, bytes, chain, hreceived, hchain, hposition⟩ := hjudges.position
    exact ⟨b, bytes, chain, hdecode, hlater, hreceived, hchain, hposition⟩
  hollow _ _ _ _ hdecode hchain hhollow :=
    accept_of_judge_error log hdecode (Store.judge_of_hollow hchain hhollow)
  collide _ _ _ _ hdecode hhollow hgenesis hhashed :=
    hhollow.collide hl.coherent (decodeBlock_eq_ok_iff.1 hdecode).2.2 hgenesis hhashed

section Disguised
open Transparent

def stray : Block := .draft crypto 1 (.fill 7) (one 1) [11]

/-- A store whose only block goes by the hash of that one. -/
def disguised : Store :=
  Store.empty.publish { Block.genesis crypto (one 1) [10] with hash := stray.hash }

theorem disguised_reachable : disguised.Reachable := .publish .empty (by decide +kernel)

theorem disguised_hollow : disguised.Hollow stray ⟨[]⟩ where
  empty := rfl
  unsigned := rfl
  later := by decide
  next := rfl
  hash := rfl

theorem rejection_positions_disguised :
    disguised.Reachable ∧ disguised.Hollow stray ⟨[]⟩ ∧
      (⟨disguised, []⟩ : Ledger (List Block)).Positions .inMemory crypto 1000 :=
  ⟨disguised_reachable, disguised_hollow,
    rejection_positions .inMemory crypto 1000 disguised_reachable⟩

/-- Sent with the empty chain, the block is rejected for link 18446744073709551615 of that chain. -/
theorem accept_disguised :
    let l : Ledger (List Block) := ⟨disguised, []⟩
    let block := Block.format.write stray
    let bytes := Chain.format.write ⟨[]⟩
    ∃ chain p fault, l.store.Reachable ∧ decodeChain 1000 bytes = .ok chain ∧
      (l.accept .inMemory crypto 1000 block (some bytes)).result =
        .error (.chain (.invalidProof p fault)) ∧ p = 18446744073709551615 ∧ ¬p < chain.length := by
  have hblock : (decodeBlock crypto 1000 (Block.format.write stray)).result = .ok stray := by
    decide +kernel
  have hchain : decodeChain 1000 (Chain.format.write ⟨[]⟩) = .ok ⟨[]⟩ := by decide +kernel
  have hresult := accept_of_judge_error .inMemory (l := ⟨disguised, []⟩) hblock
    (Store.judge_of_hollow hchain disguised_hollow)
  exact ⟨⟨[]⟩, _, _, disguised_reachable, hchain, hresult, rfl, by decide⟩

end Disguised

end Ledger

end CosignedLedger
