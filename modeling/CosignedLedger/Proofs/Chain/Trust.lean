import CosignedLedger.Chain.Verify
import CosignedLedger.Proofs.Codec
import CosignedLedger.Proofs.Store.Coherent

/-!
# What verification accepts

Following links is a function that meters its calls and stops at the first fault. Here is when it
succeeds.

* `Trust.Carries`: what one link has to be.
* `Trust.Leads`: links that carry trust one after the other.
* `Store.verify_eq_ok_iff`, `Store.verifyTo_eq_ok_iff`: verification accepts exactly the chains
  that lead from the anchor to the hash.
-/

namespace CosignedLedger

namespace Trust
variable {c : Crypto} {t t' : Trust} {link : Link} {links : List Link}

/-- The link starts where trust has got to, goes higher, and is signed by the trusted authority. -/
structure Carries (c : Crypto) (t : Trust) (link : Link) : Prop where
  source : link.source = t.hash
  authority : link.authority = t.authority
  higher : t.height < link.header.index.toNat
  hashed : c.hash link.header.canonicalBytes = link.target
  signed : c.Accepts link.authority link.target.bytes link.signature

theorem follow_eq_ok_iff :
    (t.follow c link).result = .ok t' ↔ t.Carries c link ∧ t' = .ofHeader link.header link.target := by
  unfold follow
  constructor
  · intro h
    split at h
    · cases h
    · rename_i hsource
      split at h
      · cases h
      · rename_i hauthority
        split at h
        · cases h
        · rename_i hhigher
          simp only [Metered.result_bind, Crypto.result_runHash, Except.bind_eq_ok,
            Except.ok.injEq, exists_eq_left'] at h
          split at h
          · cases h
          · rename_i hhashed
            simp only [Metered.result_bind, Metered.result_mapError, Metered.result_pure,
              Crypto.result_runAggregate, Crypto.result_runVerify, Except.bind_eq_ok,
              Except.mapError_eq_ok, Except.ok.injEq] at h
            obtain ⟨key, hkey, _, hverify, rfl⟩ := h
            exact ⟨⟨Decidable.not_not.1 hsource, Decidable.not_not.1 hauthority,
              Nat.not_le.1 hhigher, Decidable.not_not.1 hhashed, key, hkey, hverify⟩, rfl⟩
  · rintro ⟨⟨hsource, hauthority, hhigher, hhashed, key, hkey, hverify⟩, rfl⟩
    rw [if_neg (Decidable.not_not.2 hsource), if_neg (Decidable.not_not.2 hauthority),
      if_neg (Nat.not_le.2 hhigher)]
    simp only [Metered.result_bind, Crypto.result_runHash, Except.bind_eq_ok, Except.ok.injEq,
      exists_eq_left']
    rw [if_neg (Decidable.not_not.2 hhashed)]
    simp only [Metered.result_bind, Metered.result_mapError, Metered.result_pure,
      Crypto.result_runAggregate, Crypto.result_runVerify, Except.bind_eq_ok,
      Except.mapError_eq_ok]
    exact ⟨key, hkey, (), hverify, trivial⟩

/-- The links carry trust from `t` to `t'`, each on from where the one before it has led. -/
inductive Leads (c : Crypto) : Trust → List Link → Trust → Prop where
  | nil {t : Trust} : Leads c t [] t
  | cons {t t' : Trust} {link : Link} {links : List Link} :
      t.Carries c link → Leads c (ofHeader link.header link.target) links t' →
      Leads c t (link :: links) t'

theorem followAll_eq_ok_iff {position : Nat} :
    (t.followAll c position links).result = .ok t' ↔ t.Leads c links t' := by
  induction links generalizing t position with
  | nil =>
    simp only [followAll, Metered.result_pure, Except.ok.injEq]
    constructor
    · rintro rfl
      exact .nil
    · intro h
      cases h
      rfl
  | cons link links ih =>
    simp only [followAll, Metered.result_bind, Metered.result_mapError, Except.bind_eq_ok,
      Except.mapError_eq_ok, follow_eq_ok_iff, ih]
    constructor
    · rintro ⟨t, ⟨hlink, rfl⟩, hlinks⟩
      exact .cons hlink hlinks
    · intro h
      cases h with
      | cons hlink hlinks => exact ⟨_, ⟨hlink, rfl⟩, hlinks⟩

theorem Leads.last (h : t.Leads c links t') (hlast : links.getLast? = some link) :
    t' = .ofHeader link.header link.target ∧
      c.Accepts link.authority link.target.bytes link.signature := by
  induction h with
  | nil => simp at hlast
  | @cons t t' first rest hfirst hrest ih =>
    cases rest with
    | nil =>
      cases hlast
      cases hrest
      exact ⟨rfl, hfirst.signed⟩
    | cons second rest =>
      rw [List.getLast?_cons_cons] at hlast
      exact ih hlast

end Trust

namespace Store
variable {s : Store} {c : Crypto} {chain : Chain} {anchor target : Digest} {b : Block}

theorem lookup_eq_ok_iff {hash : Digest} : s.lookup hash = .ok b ↔ s.readByHash hash = .ok b :=
  Except.mapError_eq_ok

/-- The chain leads from the stored block with the hash `anchor` to the hash `target`. -/
def Proves (s : Store) (c : Crypto) (chain : Chain) (anchor target : Digest) : Prop :=
  ∃ b t, s.readByHash anchor = .ok b ∧ (Trust.ofBlock b).Leads c chain.links t ∧ t.hash = target

theorem verify_eq_ok_iff : (s.verify c chain anchor).result = .ok target ↔
    chain.links ≠ [] ∧ s.Proves c chain anchor target := by
  unfold verify Proves
  split
  · rename_i hempty
    have : chain.links = [] := by simpa [Chain.isEmpty] using hempty
    simp [this]
  · rename_i hempty
    have : chain.links ≠ [] := by simpa [Chain.isEmpty] using hempty
    simp only [Metered.result_bind, Metered.result_ofExcept, Metered.result_pure,
      Except.bind_eq_ok, lookup_eq_ok_iff, Trust.followAll_eq_ok_iff, Except.ok.injEq, ne_eq,
      this, not_false_eq_true, true_and, exists_and_left]

theorem verifyTo_eq_ok_iff : (s.verifyTo c chain anchor target).result = .ok () ↔
    chain.links = [] ∧ anchor = target ∨ chain.links ≠ [] ∧ s.Proves c chain anchor target := by
  unfold verifyTo
  split
  · rename_i hempty
    have : chain.links = [] := by simpa [Chain.isEmpty] using hempty
    split <;> simp_all
  · rename_i hempty
    have : chain.links ≠ [] := by simpa [Chain.isEmpty] using hempty
    simp only [Metered.result_bind, Except.bind_eq_ok, verify_eq_ok_iff, this, false_and, false_or,
      ne_eq, not_false_eq_true, true_and]
    constructor
    · rintro ⟨reached, hproves, h⟩
      split at h
      · cases h
      · rename_i heq
        rw [← Decidable.not_not.1 heq]
        exact hproves
    · intro hproves
      exact ⟨target, hproves, by simp⟩

end Store

end CosignedLedger
