import CosignedLedger.Proofs.Chain.Shape

/-!
# Every chain that is built verifies

The builder makes a link where neighbouring blocks record different authorities; the verifier
carries an authority from link to link. Each link starts at a block that records the authority that
has signed it, so the trust in that block is carried on by it (`Store.Connects.carries`), and the
links over all stops carry trust from the first block to the target (`Store.Connected.leads`). From
this follows `Store.chainBetween_verifies`.
-/

namespace CosignedLedger

namespace Store
variable {s : Store} {c : Crypto}

theorem chainBetween_last (hs : s.Coherent) {i j : Nat} {a b : Block} (ha : s.blocks[i]? = some a)
    (hb : s.blocks[j + 1]? = some b) (hij : i ≤ j) {chain : Chain}
    (hchain : s.chainBetween a.hash b.hash = .ok chain) :
    ∃ link before, chain.last? = some link ∧ s.blocks[j]? = some before ∧
      b.signature = some link.signature ∧ link.authority = before.authority := by
  rw [chainBetween_eq_ok_iff hs ha hb (by omega)] at hchain
  obtain ⟨link, _, hlast, hlink⟩ := hchain.last (getLast?_stops (by omega))
  obtain ⟨before, hbefore, hauthority⟩ := hlink.signer
  obtain ⟨b', hb', _, _, hsignature⟩ := hlink.target
  rw [hb] at hb'
  cases hb'
  exact ⟨link, before, hlast, hbefore, hsignature, hauthority⟩

section
variable (hs : s.Coherent) (hhashed : ∀ b ∈ s.blocks, c.hash b.header.canonicalBytes = b.hash)
  (hsigned : SignedInTurn c s.blocks) {p k : Nat} {start b : Block}
include hs hhashed hsigned

/-- The signature of a block that is signed in turn is by the authority of the block before it,
which the block that its link starts from records as well. -/
theorem Connects.carries {link : Link} (h : s.Connects p k link) (hstart : s.blocks[p]? = some start)
    (hb : s.blocks[k]? = some b) :
    (Trust.ofBlock start).Carries c link ∧ Trust.ofHeader link.header link.target = .ofBlock b := by
  obtain ⟨hforward, ⟨x, hx, hsource, hauthority⟩, ⟨y, hy, htarget, hheader, hsignature⟩,
    z, hz, hsigner⟩ := h
  rw [hstart] at hx
  rw [hb] at hy
  cases hx
  cases hy
  have hk : k - 1 + 1 = k := by omega
  obtain ⟨signature, hsome, haccepts⟩ := hsigned hz (hk ▸ hb)
  rw [hsignature] at hsome
  cases hsome
  have hlow : start.index = p := hs.position hstart
  have hhigh : b.index = k := hs.position hb
  refine ⟨⟨hsource, hauthority, ?_, ?_, ?_⟩, ?_⟩
  · rw [hheader]
    show start.index < b.index
    omega
  · rw [hheader, htarget]
    exact hhashed b (List.mem_of_getElem? hb)
  · rw [hsigner, htarget]
    exact haccepts
  · rw [hheader, htarget]
    rfl

theorem Connected.leads {ks : List Nat} {links : List Link} (h : s.Connected p ks links)
    (hstart : s.blocks[p]? = some start) (hlast : (p :: ks).getLast? = some k)
    (hb : s.blocks[k]? = some b) : (Trust.ofBlock start).Leads c links (.ofBlock b) := by
  induction h generalizing start with
  | nil =>
    rw [List.getLast?_singleton] at hlast
    cases hlast
    rw [hstart] at hb
    cases hb
    exact .nil
  | @cons p q ks link links hlink _ ih =>
    obtain ⟨x, hx, _⟩ := hlink.target
    obtain ⟨hcarries, hreached⟩ := hlink.carries hs hhashed hsigned hstart hx
    rw [List.getLast?_cons_cons] at hlast
    exact .cons hcarries (hreached ▸ ih hx hlast)

theorem chainBetween_leads {i j : Nat} {a b : Block} (ha : s.blocks[i]? = some a)
    (hb : s.blocks[j]? = some b) (hij : i ≤ j) :
    ∃ chain, s.chainBetween a.hash b.hash = .ok chain ∧
      (Trust.ofBlock a).Leads c chain.links (.ofBlock b) ∧ (chain.links = [] ↔ i = j) := by
  rcases chainBetween_cases hs ha hb hij with ⟨links, hlinks, hconnected⟩ | ⟨k, hfirst, _⟩
  · have hlast : (i :: s.stops i j).getLast? = some j := by
      rcases Nat.lt_or_eq_of_le hij with hlt | rfl
      · rw [List.getLast?_cons, getLast?_stops hlt]
        rfl
      · rw [stops_self]
        rfl
    exact ⟨⟨links⟩, hlinks, hconnected.leads hs hhashed hsigned ha hlast hb,
      hconnected.eq_nil_iff.trans (stops_eq_nil_iff hij)⟩
  · obtain ⟨hlow, hhigh, _⟩ := mem_stops.1 hfirst.mem
    obtain ⟨x, hx⟩ := exists_block_of_le hb (show k - 1 ≤ j by omega)
    obtain ⟨y, hy⟩ := exists_block_of_le hb hhigh
    have hk : k - 1 + 1 = k := by omega
    obtain ⟨signature, hsignature, _⟩ := hsigned hx (hk ▸ hy)
    exact absurd ⟨y, signature, hy, hsignature⟩ hfirst.unsigned

end

theorem verifyTo_of_leads {s : Store} (hs : s.Coherent) {a : Block} (ha : a ∈ s.blocks)
    {chain : Chain} {t : Trust} (hleads : (Trust.ofBlock a).Leads c chain.links t) :
    (s.verifyTo c chain a.hash t.hash).result = .ok () ∧
      (chain.links ≠ [] → (s.verify c chain a.hash).result = .ok t.hash) := by
  have hproves : s.Proves c chain a.hash t.hash := ⟨a, t, hs.readByHash_hash ha, hleads, rfl⟩
  refine ⟨verifyTo_eq_ok_iff.2 ?_, fun hne => verify_eq_ok_iff.2 ⟨hne, hproves⟩⟩
  by_cases hempty : chain.links = []
  · rw [hempty] at hleads
    cases hleads
    exact .inl ⟨hempty, rfl⟩
  · exact .inr ⟨hempty, hproves⟩

theorem chainBetween_verifies (hs : s.Coherent)
    (hhashed : ∀ b ∈ s.blocks, c.hash b.header.canonicalBytes = b.hash)
    (hsigned : SignedInTurn c s.blocks) {i j : Nat} {a b : Block} (ha : s.blocks[i]? = some a)
    (hb : s.blocks[j]? = some b) (hij : i ≤ j) :
    ∃ chain, s.chainBetween a.hash b.hash = .ok chain ∧
      ∀ s' : Store, s'.Reachable → a ∈ s'.blocks →
        (s'.verifyTo c chain a.hash b.hash).result = .ok () ∧
        (i < j → (s'.verify c chain a.hash).result = .ok b.hash) := by
  obtain ⟨chain, hchain, hleads, hempty⟩ := chainBetween_leads hs hhashed hsigned ha hb hij
  refine ⟨chain, hchain, fun s' hs' ha' => ?_⟩
  obtain ⟨hto, hverify⟩ := verifyTo_of_leads hs'.coherent ha' hleads
  exact ⟨hto, fun hlt => hverify fun h => absurd (hempty.1 h) (Nat.ne_of_lt hlt)⟩

/-- **Every chain that is built verifies.** Between any two blocks of a store whose blocks are
signed in turn there is a chain, and every store that holds the first of them accepts it as a
proof of the other. The same goes for the chain from the first block of all. -/
theorem built_chains_verify (hs : s.Reachable)
    (hhashed : ∀ b ∈ s.blocks, c.hash b.header.canonicalBytes = b.hash)
    (hsigned : SignedInTurn c s.blocks) {i j : Nat} {a b : Block} (ha : s.blocks[i]? = some a)
    (hb : s.blocks[j]? = some b) (hij : i ≤ j) :
    (∃ chain, s.chainBetween a.hash b.hash = .ok chain ∧
      ∀ s' : Store, s'.Reachable → a ∈ s'.blocks →
        (s'.verifyTo c chain a.hash b.hash).result = .ok () ∧
        (i < j → (s'.verify c chain a.hash).result = .ok b.hash)) ∧
    ∃ chain g, s.genesis? = some g ∧ s.chainTo b.hash = .ok chain ∧
      ∀ s' : Store, s'.Reachable → g ∈ s'.blocks →
        (s'.verifyTo c chain g.hash b.hash).result = .ok () ∧
        (0 < j → (s'.verify c chain g.hash).result = .ok b.hash) := by
  refine ⟨chainBetween_verifies hs.coherent hhashed hsigned ha hb hij, ?_⟩
  obtain ⟨g, hg⟩ := exists_block_of_le hb (Nat.zero_le j)
  obtain ⟨chain, hchain, hverifies⟩ :=
    chainBetween_verifies hs.coherent hhashed hsigned hg hb (Nat.zero_le j)
  refine ⟨chain, g, ?_, ?_, hverifies⟩
  · rw [genesis?_eq, hg]
  · rw [chainTo_eq hg, hchain]

open Transparent in
/-- The authority changes and changes back on the way. -/
theorem built_chains_verify_rotated :
    rotated.blocks.map (·.authority) = [one 1, one 1, one 2, one 1] ∧
    ∃ a b chain, rotated.blocks[0]? = some a ∧ rotated.blocks[3]? = some b ∧
      rotated.chainBetween a.hash b.hash = .ok chain ∧
      (rotated.verifyTo crypto chain a.hash b.hash).result = .ok () ∧
      (rotated.verify crypto chain a.hash).result = .ok b.hash := by
  refine ⟨by decide, ?_⟩
  obtain ⟨a, ha⟩ : ∃ a, rotated.blocks[0]? = some a := ⟨_, rfl⟩
  obtain ⟨b, hb⟩ : ∃ b, rotated.blocks[3]? = some b := ⟨_, rfl⟩
  obtain ⟨⟨chain, hchain, hverifies⟩, _⟩ := built_chains_verify rotated_reachable
    (fun b hb => (rotated_authorised.hashed b hb).header) rotated_authorised.signed ha hb (by decide)
  obtain ⟨hto, hverify⟩ := hverifies rotated rotated_reachable (List.mem_of_getElem? ha)
  exact ⟨a, b, chain, ha, hb, hchain, hto, hverify (by decide)⟩

open Transparent in
theorem rotated_chainBetween {i j : Nat} {a b : Block} (ha : rotated.blocks[i]? = some a)
    (hb : rotated.blocks[j]? = some b) (hij : i < j) :
    ∃ chain, rotated.chainBetween a.hash b.hash = .ok chain ∧
      (rotated.verify crypto chain a.hash).result = .ok b.hash := by
  obtain ⟨chain, hchain, hverifies⟩ := chainBetween_verifies rotated_reachable.coherent
    (fun b hb => (rotated_authorised.hashed b hb).header) rotated_authorised.signed ha hb
    (Nat.le_of_lt hij)
  exact ⟨chain, hchain, (hverifies rotated rotated_reachable (List.mem_of_getElem? ha)).2 hij⟩

end Store

end CosignedLedger
