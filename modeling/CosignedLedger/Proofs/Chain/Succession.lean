import CosignedLedger.Chain.Sample
import CosignedLedger.Proofs.Authorised
import CosignedLedger.Proofs.Chain.Length
import Mathlib.Data.List.Basic

/-!
# Authorities that succeed each other

Sample ledgers and rehearsals make their blocks in the same way. An epoch has members of its own,
which are told from those of other epochs by their numbered addresses. Each block records the
authority of its epoch, and past the first it is a draft after the block before it with a signature
beside it.

* `epochOf_mono`, `epochOf_succ`: how epochs follow each other; `links_eq` counts those that begin
  before a block.
* `numbered_inj`: a name with two numbers in it tells them.
* `Signer.generate_addresses`, `Signer.exists_generate`: a signer has a key for each address.
* `Drafted`: blocks that are made one after the other; `Drafted.authorised` says when they are
  authorised, and `Drafted.epochs` where the authority changes.
-/

namespace CosignedLedger

/-! ### Epochs -/

theorem epochOf_zero (rotation : Nat) : epochOf rotation 0 = 0 := by
  unfold epochOf
  split
  · rfl
  · exact Nat.zero_div rotation

theorem epochOf_mono (rotation : Nat) {i j : Nat} (hij : i ≤ j) :
    epochOf rotation i ≤ epochOf rotation j := by
  unfold epochOf
  split
  · exact Nat.le_refl 0
  · exact Nat.div_le_div_right hij

theorem epochOf_succ (rotation i : Nat) :
    epochOf rotation (i + 1) = epochOf rotation i ∨
      epochOf rotation (i + 1) = epochOf rotation i + 1 := by
  unfold epochOf
  split
  · exact .inl rfl
  · rw [Nat.succ_div]
    split
    · exact .inr rfl
    · exact .inl rfl

/-- One for each epoch that begins before the block at `index`, and one for the block itself. -/
theorem links_eq (rotation index : Nat) :
    (if index = 0 then 0 else epochOf rotation (index - 1) - epochOf rotation 0 + 1) =
      if index = 0 then 0 else if rotation = 0 then 1
        else (index + rotation - 1) / rotation := by
  unfold epochOf
  by_cases hindex : index = 0
  · rw [if_pos hindex, if_pos hindex]
  · rw [if_neg hindex, if_neg hindex]
    by_cases hrotation : rotation = 0
    · rw [if_pos hrotation, if_pos hrotation, if_pos hrotation]
    · have hsum : index + rotation - 1 = index - 1 + rotation := by omega
      rw [if_neg hrotation, if_neg hrotation, if_neg hrotation, Nat.zero_div, Nat.sub_zero, hsum,
        Nat.add_div_right _ (Nat.pos_of_ne_zero hrotation)]

/-! ### Signers -/

theorem numbered_inj {stem : String} {m m' n n' : Nat} :
    stem ++ toString m ++ "-" ++ toString n = stem ++ toString m' ++ "-" ++ toString n' ↔
      m = m' ∧ n = n' := by
  refine ⟨fun h => ?_, fun ⟨hm, hn⟩ => by rw [hm, hn]⟩
  -- No digit is a dash, so that the dash after the first number is the first one.
  have hdash : ∀ n : Nat, '-' ∉ Nat.toDigits 10 n := fun n hn =>
    absurd (Nat.isDigit_of_mem_toDigits (by decide) (by decide) hn) (by decide)
  have hinj : ∀ {m n : Nat}, Nat.toDigits 10 m = Nat.toDigits 10 n → m = n := by
    intro m n hmn
    rw [← Nat.ofDigitChars_ten_toDigits (n := m), hmn, Nat.ofDigitChars_ten_toDigits]
  have htext := congrArg String.toList h
  simp only [String.toList_append, Nat.toString_eq_repr, Nat.toList_repr,
    List.append_assoc] at htext
  have hnumbers : Nat.toDigits 10 m ++ '-' :: Nat.toDigits 10 n =
      Nat.toDigits 10 m' ++ '-' :: Nat.toDigits 10 n' := List.append_cancel_left htext
  obtain ⟨hm, _, hn⟩ := (List.append_cons_inj_of_notMem (hdash m) (hdash n)).1 hnumbers
  exact ⟨hinj hm, hinj hn⟩

namespace Signer
variable {Key : Type} (scheme : Scheme Key)

theorem generate_addresses {material : List (Address × Bytes)} {signer : Signer Key}
    (h : generate scheme material = .ok signer) :
    signer.members.map (·.1) = material.map (·.1) := by
  induction material generalizing signer with
  | nil =>
    cases h
    rfl
  | cons first rest ih =>
    obtain ⟨address, bytes⟩ := first
    simp only [generate, Except.bind_eq_ok, Except.pure_eq_ok] at h
    obtain ⟨key, _, rest, hrest, rfl⟩ := h
    rw [List.map_cons, List.map_cons, ih hrest]

theorem exists_generate {material : List (Address × Bytes)}
    (h : ∀ m ∈ material, ∃ key, scheme.keyOfMaterial m.2 = .ok key) :
    ∃ signer, generate scheme material = .ok signer := by
  induction material with
  | nil => exact ⟨_, rfl⟩
  | cons first rest ih =>
    obtain ⟨address, bytes⟩ := first
    obtain ⟨key, hkey⟩ := h _ (List.mem_cons_self ..)
    obtain ⟨signer, hsigner⟩ := ih fun m hm => h m (List.mem_cons_of_mem _ hm)
    exact ⟨⟨(address, key) :: signer.members⟩, by
      simp only [generate, Except.bind_eq_ok, Except.pure_eq_ok]
      exact ⟨key, hkey, signer, hsigner, rfl⟩⟩

theorem roster_addresses (signer : Signer Key) :
    (signer.roster scheme).members.map (·.address) = signer.members.map (·.1) := by
  rw [roster, List.map_map]
  rfl

/-- All members together sign whatever they are given, and their roster stands for it. -/
def Vouches (signer : Signer Key) : Prop :=
  ∀ message, ∃ signature, signer.sign scheme message = .ok signature ∧
    scheme.crypto.Accepts (signer.roster scheme) message signature

end Signer

/-! ### Blocks -/

/-- Blocks that are made one after the other. Each records the roster of the signer of its epoch,
and past the first it is signed by the signer of the block before it. -/
structure Drafted {Key : Type} (scheme : Scheme Key) (signers : List (Signer Key)) (rotation : Nat)
    (blocks : List Block) : Prop where
  first : ∀ {b : Block}, blocks[0]? = some b → ∃ s payload,
    signers[epochOf rotation 0]? = some s ∧ b = .genesis scheme.crypto (s.roster scheme) payload
  next : ∀ {i : Nat} {a b : Block}, blocks[i]? = some a → blocks[i + 1]? = some b →
    ∃ s signing payload signature, signers[epochOf rotation (i + 1)]? = some s ∧
      signers[epochOf rotation i]? = some signing ∧
      let draft := Block.draft scheme.crypto (UInt64.ofNat (i + 1)) a.hash (s.roster scheme) payload
      signing.sign scheme draft.hash.bytes = .ok signature ∧ b = draft.withSignature signature

namespace Drafted
variable {Key : Type} {scheme : Scheme Key} {signers : List (Signer Key)} {rotation i : Nat}
  {blocks : List Block} {a b : Block}

theorem exists_before (hb : blocks[i + 1]? = some b) : ∃ a, blocks[i]? = some a :=
  ⟨_, List.getElem?_eq_getElem
    (Nat.lt_of_succ_lt (List.getElem?_eq_some_iff.1 hb).1)⟩

theorem take (h : Drafted scheme signers rotation blocks) (n : Nat) :
    Drafted scheme signers rotation (blocks.take n) where
  first hb := h.first (getElem?_of_take hb)
  next ha hb := h.next (getElem?_of_take ha) (getElem?_of_take hb)

theorem recorded (h : Drafted scheme signers rotation blocks) (hb : blocks[i]? = some b) :
    ∃ s, signers[epochOf rotation i]? = some s ∧ b.authority = s.roster scheme := by
  cases i with
  | zero =>
    obtain ⟨s, payload, hs, rfl⟩ := h.first hb
    exact ⟨s, hs, rfl⟩
  | succ i =>
    obtain ⟨a, ha⟩ := exists_before hb
    obtain ⟨s, signing, payload, signature, hs, _, _, rfl⟩ := h.next ha hb
    exact ⟨s, hs, rfl⟩

theorem hashed (h : Drafted scheme signers rotation blocks) :
    ∀ b ∈ blocks, b.Hashed scheme.crypto := by
  intro b hb
  obtain ⟨i, hi⟩ := List.getElem?_of_mem hb
  cases i with
  | zero =>
    obtain ⟨s, payload, _, rfl⟩ := h.first hi
    exact ⟨rfl, rfl⟩
  | succ i =>
    obtain ⟨a, ha⟩ := exists_before hi
    obtain ⟨s, signing, payload, signature, _, _, _, rfl⟩ := h.next ha hi
    exact ⟨rfl, rfl⟩

theorem position (h : Drafted scheme signers rotation blocks)
    (hlength : blocks.length ≤ UInt64.size) (hb : blocks[i]? = some b) : b.index = i := by
  cases i with
  | zero =>
    obtain ⟨s, payload, _, rfl⟩ := h.first hb
    rfl
  | succ i =>
    obtain ⟨a, ha⟩ := exists_before hb
    have hi : i + 1 < blocks.length := (List.getElem?_eq_some_iff.1 hb).1
    obtain ⟨s, signing, payload, signature, _, _, _, rfl⟩ := h.next ha hb
    exact UInt64.toNat_ofNat_of_lt' (Nat.lt_of_lt_of_le hi hlength)

theorem previous_first (h : Drafted scheme signers rotation blocks) (hb : blocks[0]? = some b) :
    b.previousHash = .zero := by
  obtain ⟨s, payload, _, rfl⟩ := h.first hb
  rfl

theorem unsigned_first (h : Drafted scheme signers rotation blocks) (hb : blocks[0]? = some b) :
    b.signature = none := by
  obtain ⟨s, payload, _, rfl⟩ := h.first hb
  rfl

theorem linked (h : Drafted scheme signers rotation blocks) (ha : blocks[i]? = some a)
    (hb : blocks[i + 1]? = some b) : b.previousHash = a.hash := by
  obtain ⟨s, signing, payload, signature, _, _, _, rfl⟩ := h.next ha hb
  rfl

theorem signedInTurn (h : Drafted scheme signers rotation blocks)
    (hsigns : ∀ s ∈ signers, s.Vouches scheme) : SignedInTurn scheme.crypto blocks := by
  intro i a b ha hb
  obtain ⟨recorded, hrecorded, hauthority⟩ := h.recorded ha
  obtain ⟨s, signing, payload, signature, _, hsigning, hsignature, rfl⟩ := h.next ha hb
  rw [hrecorded] at hsigning
  cases hsigning
  obtain ⟨signature', hsignature', haccepts⟩ := hsigns recorded (List.mem_of_getElem? hrecorded) _
  rw [hsignature] at hsignature'
  cases hsignature'
  exact ⟨signature, rfl, hauthority ▸ haccepts⟩

/-- What the making of the blocks leaves open is whether their hashes differ. -/
theorem authorised (h : Drafted scheme signers rotation blocks)
    (hlength : blocks.length ≤ UInt64.size) (hdistinct : (blocks.map (·.hash)).Nodup)
    (hsigns : ∀ s ∈ signers, s.Vouches scheme) : Authorised scheme.crypto blocks where
  position := h.position hlength
  first := h.previous_first
  linked := h.linked
  distinct := hdistinct
  hashed := h.hashed
  signed := h.signedInTurn hsigns

/-- Where rosters tell epochs apart, the authority changes just where the next epoch begins. -/
theorem epochs {store : Store} (h : Drafted scheme signers rotation store.blocks)
    (hrosters : ∀ {m n : Nat} {s s' : Signer Key}, signers[m]? = some s → signers[n]? = some s' →
      s.roster scheme = s'.roster scheme → m = n) : store.Epochs (epochOf rotation) where
  changes := by
    intro i a b ha hb
    obtain ⟨s, hs, hauthority⟩ := h.recorded ha
    obtain ⟨s', hs', hauthority'⟩ := h.recorded hb
    rw [hauthority, hauthority', not_iff_not]
    refine ⟨hrosters hs' hs, fun hepoch => ?_⟩
    rw [hepoch, hs] at hs'
    cases hs'
    rfl
  succ := epochOf_succ rotation

end Drafted

end CosignedLedger
