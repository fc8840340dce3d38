import CosignedLedger.Proofs.Chain.Completeness

/-!
# The first fault of a chain

Verification follows the links until one does not carry trust on, reports the position of that
link, and has used the cryptography for the links up to it and for no others.

* `Calls.Begun`: the calls for a number of links and for the beginning of one more.
* `Trust.BreaksAt`: the link that does not carry trust on from where those before it have led.
* `Trust.leads_or_breaks`: links lead to their end, or there is such a link among them.
* `Store.JudgesLinks`, `Store.verify_judges_links`: when verification accepts, where else it stops,
  and what it has used.
-/

namespace CosignedLedger

namespace Calls

def each (n : Nat) : Calls := ⟨n, n, n⟩

/-- The calls for `n` links, and for another one as far as they go: it is hashed first, then its
keys are combined, then its signature is verified. -/
structure Begun (n : Nat) (calls : Calls) : Prop where
  verified : n ≤ calls.verifications
  aggregated : calls.verifications ≤ calls.aggregations
  hashed : calls.aggregations ≤ calls.hashes
  within : calls.hashes ≤ n + 1

@[simp] theorem none_add (calls : Calls) : none + calls = calls := by
  show (⟨0 + _, 0 + _, 0 + _⟩ : Calls) = calls
  simp only [Nat.zero_add]

@[simp] theorem add_none (calls : Calls) : calls + none = calls := rfl

theorem Begun.zero : Begun 0 none := by constructor <;> decide

theorem each_one_add (n : Nat) : each 1 + each n = each (n + 1) := by
  show (⟨1 + n, 1 + n, 1 + n⟩ : Calls) = ⟨n + 1, n + 1, n + 1⟩
  rw [Nat.add_comm]

theorem Begun.succ {n : Nat} {calls : Calls} (h : calls.Begun n) :
    (each 1 + calls).Begun (n + 1) where
  verified := by have := h.verified; show n + 1 ≤ 1 + _; omega
  aggregated := Nat.add_le_add_left h.aggregated 1
  hashed := Nat.add_le_add_left h.hashed 1
  within := by have := h.within; show 1 + _ ≤ n + 1 + 1; omega

end Calls

namespace Trust
variable {c : Crypto} {t t' : Trust} {link : Link} {links : List Link}

theorem follow_of_carries (h : t.Carries c link) :
    t.follow c link = ⟨.ok (.ofHeader link.header link.target), .each 1⟩ := by
  obtain ⟨hsource, hauthority, hhigher, hhashed, key, hkey, hverify⟩ := h
  unfold follow
  rw [if_neg (Decidable.not_not.2 hsource), if_neg (Decidable.not_not.2 hauthority),
    if_neg (Nat.not_le.2 hhigher)]
  simp only [bind, Crypto.runHash, Crypto.runAggregate, Crypto.runVerify, Metered.mapError, hhashed,
    hkey, hverify, ne_eq, not_true_eq_false, if_false, Except.mapError_ok]
  rfl

/-- Whatever the outcome, the calls come in their order and none is made after a refusal. -/
theorem follow_begun (c : Crypto) (t : Trust) (link : Link) : (t.follow c link).calls.Begun 0 := by
  unfold follow
  split
  · exact .zero
  · split
    · exact .zero
    · split
      · exact .zero
      · simp only [bind, Crypto.runHash, Crypto.runAggregate, Crypto.runVerify, Metered.mapError]
        by_cases hhashed : c.hash link.header.canonicalBytes = link.target
        · simp only [hhashed, ne_eq, not_true_eq_false, if_false]
          cases c.aggregateKey (Authority.members link.authority) with
          | error e =>
            show Calls.Begun 0 ⟨1, 1, 0⟩
            constructor <;> decide
          | ok key =>
            simp only [Except.mapError_ok]
            cases c.verify key link.target.bytes link.signature with
            | error e =>
              show Calls.Begun 0 ⟨1, 1, 1⟩
              constructor <;> decide
            | ok _ =>
              show Calls.Begun 0 ⟨1, 1, 1⟩
              constructor <;> decide
        · simp only [hhashed, ne_eq, not_false_eq_true, if_true]
          show Calls.Begun 0 ⟨1, 0, 0⟩
          constructor <;> decide

/-- The link at `p` is the first that does not carry trust on: the links before it lead somewhere,
and there it is refused. -/
def BreaksAt (c : Crypto) (t : Trust) (links : List Link) (p : Nat) : Prop :=
  ∃ reached link, t.Leads c (links.take p) reached ∧ links[p]? = some link ∧
    ¬reached.Carries c link

theorem BreaksAt.ne_nil {p : Nat} (h : t.BreaksAt c links p) : links ≠ [] := by
  obtain ⟨_, _, _, hlink, _⟩ := h
  rintro rfl
  cases hlink

theorem breaksAt_cons_succ {p : Nat} (h : t.Carries c link) :
    t.BreaksAt c (link :: links) (p + 1) ↔
      (ofHeader link.header link.target).BreaksAt c links p := by
  unfold BreaksAt
  constructor
  · rintro ⟨reached, next, hleads, hnext, hrefused⟩
    cases hleads with
    | cons _ hleads => exact ⟨reached, next, hleads, hnext, hrefused⟩
  · rintro ⟨reached, next, hleads, hnext, hrefused⟩
    exact ⟨reached, next, .cons h hleads, hnext, hrefused⟩

theorem followAll_cons_of_carries (position : Nat) (h : t.Carries c link) :
    t.followAll c position (link :: links) =
      let rest := (ofHeader link.header link.target).followAll c (position + 1) links
      ⟨rest.result, .each 1 + rest.calls⟩ := by
  simp only [followAll, follow_of_carries h, Metered.mapError, bind, Except.mapError_ok]

theorem followAll_cons_of_not_carries (position : Nat) (h : ¬t.Carries c link) :
    ∃ fault, ∀ links, t.followAll c position (link :: links) =
      ⟨.error (.invalidProof position fault), (t.follow c link).calls⟩ := by
  cases hresult : (t.follow c link).result with
  | error fault =>
    refine ⟨fault, fun links => ?_⟩
    simp only [followAll, Metered.mapError, bind, hresult, Except.mapError_error]
  | ok t' => exact absurd (follow_eq_ok_iff.1 hresult).1 h

theorem leads_or_breaks (c : Crypto) (t : Trust) (links : List Link) :
    (∃ t', t.Leads c links t') ∨ ∃ p, t.BreaksAt c links p := by
  induction links generalizing t with
  | nil => exact .inl ⟨t, .nil⟩
  | cons link links ih =>
    by_cases hcarries : t.Carries c link
    · rcases ih (ofHeader link.header link.target) with ⟨t', hleads⟩ | ⟨p, hbreaks⟩
      · exact .inl ⟨t', .cons hcarries hleads⟩
      · exact .inr ⟨p + 1, (breaksAt_cons_succ hcarries).2 hbreaks⟩
    · exact .inr ⟨0, t, link, .nil, rfl, hcarries⟩

theorem followAll_of_leads (h : t.Leads c links t') (position : Nat) :
    t.followAll c position links = ⟨.ok t', .each links.length⟩ := by
  induction h generalizing position with
  | nil => rfl
  | cons hcarries _ ih =>
    simp only [followAll_cons_of_carries position hcarries, ih, Calls.each_one_add,
      List.length_cons]

/-- The links up to the first fault decide what is reported and which calls are made; whatever else
follows them makes no difference. -/
theorem followAll_of_breaksAt {p : Nat} (h : t.BreaksAt c links p) (position : Nat) :
    ∃ fault calls, calls.Begun p ∧ ∀ rest,
      t.followAll c position (links.take (p + 1) ++ rest) =
        ⟨.error (.invalidProof (position + p) fault), calls⟩ := by
  induction p generalizing t links position with
  | zero =>
    obtain ⟨_, link, hleads, hlink, hrefused⟩ := h
    cases hleads
    cases links with
    | nil => cases hlink
    | cons first links =>
      cases hlink
      obtain ⟨fault, hall⟩ := followAll_cons_of_not_carries position hrefused
      exact ⟨fault, _, follow_begun c t link, fun rest => hall rest⟩
  | succ p ih =>
    cases links with
    | nil =>
      obtain ⟨_, _, _, hlink, _⟩ := h
      cases hlink
    | cons first links =>
      have hcarries : t.Carries c first := by
        obtain ⟨_, _, hleads, _, _⟩ := h
        cases hleads with
        | cons hcarries _ => exact hcarries
      obtain ⟨fault, calls, hbegun, hrest⟩ :=
        ih ((breaksAt_cons_succ hcarries).1 h) (position + 1)
      refine ⟨fault, .each 1 + calls, hbegun.succ, fun rest => ?_⟩
      rw [List.take_succ_cons, List.cons_append, followAll_cons_of_carries position hcarries, hrest,
        Nat.add_assoc, Nat.add_comm 1]

end Trust

namespace Store
variable {s : Store} {c : Crypto} {chain : Chain} {anchor : Digest} {b : Block}

theorem verify_eq (hanchor : s.readByHash anchor = .ok b) (hchain : chain.links ≠ []) :
    s.verify c chain anchor =
      let followed := (Trust.ofBlock b).followAll c 0 chain.links
      ⟨followed.result.map (·.hash), followed.calls⟩ := by
  have hempty : chain.isEmpty = false := by simpa [Chain.isEmpty] using hchain
  simp only [verify, hempty, lookup_eq_ok_iff.2 hanchor, bind, Metered.ofExcept,
    Bool.false_eq_true, if_false, Calls.none_add]
  cases ((Trust.ofBlock b).followAll c 0 chain.links).result with
  | error e => rfl
  | ok t => rfl

theorem target?_of_leads {t : Trust} (hchain : chain.links ≠ [])
    (h : (Trust.ofBlock b).Leads c chain.links t) : chain.target? = some t.hash := by
  obtain ⟨link, hlast⟩ := Option.isSome_iff_exists.1 (List.getLast?_isSome.2 hchain)
  rw [Chain.target?, Chain.last?, hlast, (h.last hlast).1]
  rfl

theorem verify_of_leads (hanchor : s.readByHash anchor = .ok b) (hchain : chain.links ≠ [])
    {t : Trust} (h : (Trust.ofBlock b).Leads c chain.links t) :
    s.verify c chain anchor = ⟨.ok t.hash, .each chain.length⟩ := by
  rw [verify_eq hanchor hchain, Trust.followAll_of_leads h]
  rfl

theorem verify_of_breaksAt (hanchor : s.readByHash anchor = .ok b) {p : Nat}
    (h : (Trust.ofBlock b).BreaksAt c chain.links p) :
    ∃ fault calls, calls.Begun p ∧ s.verify c chain anchor = ⟨.error (.invalidProof p fault), calls⟩ ∧
      ∀ rest, s.verify c ⟨chain.links.take (p + 1) ++ rest⟩ anchor =
        ⟨.error (.invalidProof p fault), calls⟩ := by
  obtain ⟨fault, calls, hbegun, hall⟩ := Trust.followAll_of_breaksAt h 0
  have hstops : ∀ rest, s.verify c ⟨chain.links.take (p + 1) ++ rest⟩ anchor =
      ⟨.error (.invalidProof p fault), calls⟩ := by
    intro rest
    rw [verify_eq hanchor (by simp [h.ne_nil]), hall, Nat.zero_add]
    rfl
  refine ⟨fault, calls, hbegun, ?_, hstops⟩
  have hself := hstops (chain.links.drop (p + 1))
  rwa [List.take_append_drop] at hself

/-- Verification from a block on is decided link by link, and nothing else plays a part in it. -/
structure JudgesLinks (s : Store) (c : Crypto) (chain : Chain) (anchor : Digest) (b : Block) :
    Prop where
  /-- A chain is accepted if each link carries trust on from where those before it have led. -/
  accepts : ∀ hash, (s.verify c chain anchor).result = .ok hash ↔
    (∃ t, (Trust.ofBlock b).Leads c chain.links t) ∧ chain.target? = some hash
  /-- Otherwise the position of the first link that does not is reported. -/
  rejects : ∀ p, (∃ fault, (s.verify c chain anchor).result = .error (.invalidProof p fault)) ↔
    (Trust.ofBlock b).BreaksAt c chain.links p
  reports : ∀ e, (s.verify c chain anchor).result = .error e → ∃ p fault, e = .invalidProof p fault
  acceptedCalls : ∀ hash, (s.verify c chain anchor).result = .ok hash →
    (s.verify c chain anchor).calls = .each chain.length
  rejectedCalls : ∀ p fault, (s.verify c chain anchor).result = .error (.invalidProof p fault) →
    (s.verify c chain anchor).calls.Begun p
  /-- The links after that one may be any others. -/
  stops : ∀ p fault, (s.verify c chain anchor).result = .error (.invalidProof p fault) → ∀ rest,
    s.verify c ⟨chain.links.take (p + 1) ++ rest⟩ anchor = s.verify c chain anchor
  /-- So may the blocks of the store, apart from the one that the chain starts from. -/
  anywhere : ∀ s' : Store, s'.readByHash anchor = .ok b →
    s'.verify c chain anchor = s.verify c chain anchor

theorem judgesLinks_of_leads (hanchor : s.readByHash anchor = .ok b) (hchain : chain.links ≠ [])
    {t : Trust} (hleads : (Trust.ofBlock b).Leads c chain.links t) :
    s.JudgesLinks c chain anchor b := by
  have hverify := verify_of_leads hanchor hchain hleads
  have hunbroken : ∀ p, ¬(Trust.ofBlock b).BreaksAt c chain.links p := by
    intro p hbreaks
    obtain ⟨_, _, _, herror, _⟩ := verify_of_breaksAt hanchor hbreaks
    rw [hverify] at herror
    cases herror
  have hok : ∀ e, (s.verify c chain anchor).result ≠ .error e := by
    intro e herror
    rw [hverify] at herror
    cases herror
  exact
    { accepts := by
        intro hash
        rw [hverify, target?_of_leads hchain hleads]
        simp only [Except.ok.injEq, Option.some.injEq]
        exact ⟨fun h => ⟨⟨t, hleads⟩, h⟩, fun h => h.2⟩
      rejects := fun p => ⟨fun ⟨_, h⟩ => absurd h (hok _), fun h => absurd h (hunbroken p)⟩
      reports := fun e h => absurd h (hok e)
      acceptedCalls := fun _ _ => by rw [hverify]
      rejectedCalls := fun _ _ h => absurd h (hok _)
      stops := fun _ _ h => absurd h (hok _)
      anywhere := fun s' hanchor' => by rw [verify_of_leads hanchor' hchain hleads, hverify] }

theorem judgesLinks_of_breaksAt (hanchor : s.readByHash anchor = .ok b) (hchain : chain.links ≠ [])
    {p : Nat} (hbreaks : (Trust.ofBlock b).BreaksAt c chain.links p) :
    s.JudgesLinks c chain anchor b := by
  obtain ⟨fault, calls, hbegun, hverify, hstops⟩ := verify_of_breaksAt hanchor hbreaks
  have hresult : ∀ e, (s.verify c chain anchor).result = .error e → e = .invalidProof p fault := by
    intro e h
    rw [hverify] at h
    cases h
    rfl
  have hfailed : ∀ hash, (s.verify c chain anchor).result ≠ .ok hash := by
    intro hash h
    rw [hverify] at h
    cases h
  have hfirst : ∀ q, (Trust.ofBlock b).BreaksAt c chain.links q → q = p := by
    intro q hbreaks'
    obtain ⟨_, _, _, hverify', _⟩ := verify_of_breaksAt hanchor hbreaks'
    have h := hresult _ (by rw [hverify'])
    cases h
    rfl
  have hbroken : ¬∃ t, (Trust.ofBlock b).Leads c chain.links t := by
    rintro ⟨t, hleads⟩
    exact hfailed t.hash (by rw [verify_of_leads hanchor hchain hleads])
  exact
    { accepts := fun hash => ⟨fun h => absurd h (hfailed hash), fun h => absurd h.1 hbroken⟩
      rejects := by
        intro q
        constructor
        · rintro ⟨_, h⟩
          cases hresult _ h
          exact hbreaks
        · intro h
          rw [hfirst q h]
          exact ⟨fault, by rw [hverify]⟩
      reports := fun e h => ⟨p, fault, hresult e h⟩
      acceptedCalls := fun hash h => absurd h (hfailed hash)
      rejectedCalls := by
        intro q fault' h
        cases hresult _ h
        rw [hverify]
        exact hbegun
      stops := by
        intro q fault' h rest
        cases hresult _ h
        rw [hstops, hverify]
      anywhere := fun s' hanchor' => by rw [verify_eq hanchor hchain, verify_eq hanchor' hchain] }

/-- **A chain is judged link by link.** Verification from a stored block accepts a chain exactly if
every link carries trust on, and otherwise reports the first that does not; it uses the cryptography
for the links up to there, and nothing that comes after them or is stored elsewhere matters. -/
theorem verify_judges_links (hanchor : s.readByHash anchor = .ok b) (hchain : chain.links ≠ []) :
    s.JudgesLinks c chain anchor b := by
  rcases Trust.leads_or_breaks c (.ofBlock b) chain.links with ⟨t, hleads⟩ | ⟨p, hbreaks⟩
  · exact judgesLinks_of_leads hanchor hchain hleads
  · exact judgesLinks_of_breaksAt hanchor hchain hbreaks

open Transparent in
/-- The second link of a chain has lost its signature: it is reported, and only its signature has
not been accepted. -/
theorem verify_judges_links_forged :
    let chain := (rotated.blocks[3]?.bind fun b => (rotated.chainTo b.hash).toOption).getD ⟨[]⟩
    let forged : Chain := ⟨chain.links.modify 1 fun link => { link with signature := [] }⟩
    ∃ g, rotated.readByHash g.hash = .ok g ∧ forged.links ≠ [] ∧
      (rotated.verify crypto forged g.hash).result =
        .error (.invalidProof 1 (.crypto .verificationFailed)) ∧
      (rotated.verify crypto forged g.hash).calls = ⟨2, 2, 2⟩ ∧
      rotated.JudgesLinks crypto forged g.hash g := by
  intro chain forged
  obtain ⟨g, hg⟩ : ∃ g, rotated.blocks[0]? = some g := ⟨_, rfl⟩
  have hanchor := rotated_reachable.coherent.readByHash_hash (List.mem_of_getElem? hg)
  have hforged : forged.links ≠ [] := by decide +kernel
  refine ⟨g, hanchor, hforged, ?_, ?_, verify_judges_links hanchor hforged⟩
  · cases hg
    rfl
  · cases hg
    decide +kernel

end Store

end CosignedLedger
