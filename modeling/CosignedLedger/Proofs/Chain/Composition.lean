import CosignedLedger.Proofs.Chain.FirstFault
import CosignedLedger.Proofs.Chain.Shape

/-!
# Chains in a row

Of two chains, the second may start at the block that the first leads to. Here is what the two come
to in a row: when they are built, and when they are verified.

* `Store.Connected.append`, `Store.Connected.pass`: links over the stops up to a block and from
  there on, if the block in the middle is a stop of the whole, and if it is not.
* `Store.chainBetween_composes`: the chain over a block in the middle, from the chains up to it and
  from there on.
* `Trust.followAll_append`: links in a row carry trust as far as the second ones do from where the
  first ones end.
* `Store.verify_composes`: two chains in a row are accepted if each of them is, and the first fault
  of the second one is reported behind all links of the first.
-/

namespace CosignedLedger

namespace Store
variable {s : Store} {i j k p : Nat} {a b c : Block} {ks ks' : List Nat}
  {links links' : List Link}

/-! ### Building -/

/-- The stops up to a block in the middle and from there on are those of the whole, but for the
block itself, which the whole passes unless it records a new authority. -/
theorem stops_through (hjk : j < k) : ∀ (count : Nat) {i : Nat}, i + (count + 1) = j →
    ∃ front, s.stops i j = front ++ [j] ∧
      s.stops i k = front ++ if s.ChangesAt j then j :: s.stops j k else s.stops j k := by
  intro count
  induction count with
  | zero =>
    rintro i rfl
    refine ⟨[], by rw [stops_of_stop (by omega) (.inl rfl), stops_self]; rfl, ?_⟩
    rw [List.nil_append, Nat.zero_add]
    split
    · rename_i hchange
      exact stops_of_stop (by omega) (.inr hchange)
    · rename_i hpass
      refine stops_of_pass (by omega) ?_
      rintro (h | h)
      · omega
      · exact hpass h
  | succ count ih =>
    intro i hcount
    obtain ⟨front, hup, hwhole⟩ := ih (i := i + 1) (by omega)
    by_cases hchange : s.ChangesAt (i + 1)
    · refine ⟨(i + 1) :: front, ?_, ?_⟩
      · rw [stops_of_stop (by omega) (.inr hchange), hup]
        rfl
      · rw [stops_of_stop (by omega) (.inr hchange), hwhole]
        rfl
    · have hpass : ∀ n, i + 1 < n → ¬(i + 1 = n ∨ s.ChangesAt (i + 1)) := by
        rintro n hn (h | h)
        · omega
        · exact hchange h
      refine ⟨front, ?_, ?_⟩
      · rw [stops_of_pass (by omega) (hpass j (by omega)), hup]
      · rw [stops_of_pass (by omega) (hpass k (by omega)), hwhole]

namespace Connected

theorem append (h : s.Connected p (ks ++ [j]) links) (h' : s.Connected j ks' links') :
    s.Connected p (ks ++ j :: ks') (links ++ links') := by
  induction ks generalizing p links with
  | nil =>
    cases h with
    | cons hlink hlinks =>
      cases hlinks
      exact .cons hlink h'
  | cons k ks ih =>
    cases h with
    | cons hlink hlinks => exact .cons hlink (ih hlinks)

/-- Where the authority stays the same, the signer of the next link is trusted at the stop before
already, so the link can start there. -/
theorem pass (hj : ¬s.ChangesAt j) (h : s.Connected p (ks ++ [j]) links)
    (h' : s.Connected j (k :: ks') links') :
    ∃ front removed next rest, links = front ++ [removed] ∧ links' = next :: rest ∧
      s.Connected p (ks ++ k :: ks') (front ++ { next with source := removed.source } :: rest) := by
  induction ks generalizing p links with
  | nil =>
    cases h with
    | @cons _ _ _ removed _ hremoved hlinks =>
      cases hlinks
      cases h' with
      | @cons _ _ _ next rest hnext hrest =>
        refine ⟨[], removed, next, rest, rfl, rfl, .cons ?_ hrest⟩
        obtain ⟨a, ha, hsource, hauthority⟩ := hremoved.source
        obtain ⟨b, hb, _, hsigned⟩ := hnext.source
        obtain ⟨x, hx, hsigner⟩ := hremoved.signer
        have hsame : b.authority = x.authority := by
          simpa [ChangesAt, hb, hx] using hj
        exact
          { forward := Nat.lt_trans hremoved.forward hnext.forward
            source := ⟨a, ha, hsource, hsigned.trans (hsame.trans (hsigner.symm.trans hauthority))⟩
            target := hnext.target
            signer := hnext.signer }
  | cons q ks ih =>
    cases h with
    | @cons _ _ _ link _ hlink hlinks =>
      obtain ⟨front, removed, next, rest, rfl, hnext, hconnected⟩ := ih hlinks
      exact ⟨link :: front, removed, next, rest, rfl, hnext, .cons hlink hconnected⟩

end Connected

/-- **Built chains compose.** The chain over a block in the middle is the chain up to it and the chain
from there on in a row, if the block records a new authority. If it does not, the last link of the
first chain is left out, and the first link of the second one starts where that one did. -/
theorem chainBetween_composes (hs : s.Reachable) (ha : s.blocks[i]? = some a)
    (hb : s.blocks[j]? = some b) (hc : s.blocks[k]? = some c) (hij : i < j) (hjk : j < k)
    {first second : Chain} (hfirst : s.chainBetween a.hash b.hash = .ok first)
    (hsecond : s.chainBetween b.hash c.hash = .ok second) :
    ∃ third, s.chainBetween a.hash c.hash = .ok third ∧
      (s.ChangesAt j → third.links = first.links ++ second.links ∧
        third.length = first.length + second.length) ∧
      (¬s.ChangesAt j → ∃ front removed next rest,
        first.links = front ++ [removed] ∧ second.links = next :: rest ∧
        third.links = front ++ { next with source := removed.source } :: rest ∧
        third.length + 1 = first.length + second.length) := by
  have hs := hs.coherent
  rw [chainBetween_eq_ok_iff hs ha hb (Nat.le_of_lt hij)] at hfirst
  rw [chainBetween_eq_ok_iff hs hb hc (Nat.le_of_lt hjk)] at hsecond
  have hthird : ∀ {links}, s.Connected i (s.stops i k) links →
      s.chainBetween a.hash c.hash = .ok ⟨links⟩ :=
    (chainBetween_eq_ok_iff hs ha hc (Nat.le_of_lt (Nat.lt_trans hij hjk))).2
  obtain ⟨front, hup, hwhole⟩ := stops_through (s := s) hjk (j - i - 1) (i := i) (by omega)
  rw [hup] at hfirst
  by_cases hchange : s.ChangesAt j
  · rw [if_pos hchange] at hwhole
    rw [hwhole] at hthird
    exact ⟨_, hthird (hfirst.append hsecond), fun _ => ⟨rfl, List.length_append⟩,
      fun hpass => absurd hchange hpass⟩
  · rw [if_neg hchange] at hwhole
    have hstops : s.stops j k ≠ [] := fun h => Nat.ne_of_lt hjk ((stops_eq_nil_iff (by omega)).1 h)
    obtain ⟨q, ks, hks⟩ := List.exists_cons_of_ne_nil hstops
    rw [hks] at hwhole hsecond
    rw [hwhole] at hthird
    obtain ⟨links, removed, next, rest, hremoved, hnext, hconnected⟩ := hfirst.pass hchange hsecond
    refine ⟨_, hthird hconnected, fun h => absurd h hchange,
      fun _ => ⟨links, removed, next, rest, hremoved, hnext, rfl, ?_⟩⟩
    simp only [Chain.length, hremoved, hnext, List.length_append, List.length_cons, List.length_nil]
    omega

open Transparent in
theorem chainBetween_composes_rotated :
    ∃ g a b c, ∃ toA fromA toB fromB whole : Chain,
      rotated.blocks = [g, a, b, c] ∧ rotated.chainBetween g.hash c.hash = .ok whole ∧
      rotated.chainBetween g.hash a.hash = .ok toA ∧
      rotated.chainBetween a.hash c.hash = .ok fromA ∧
      whole.length + 1 = toA.length + fromA.length ∧
      rotated.chainBetween g.hash b.hash = .ok toB ∧
      rotated.chainBetween b.hash c.hash = .ok fromB ∧
      whole.links = toB.links ++ fromB.links := by
  obtain ⟨g, hg⟩ : ∃ g, rotated.blocks[0]? = some g := ⟨_, rfl⟩
  obtain ⟨a, ha⟩ : ∃ a, rotated.blocks[1]? = some a := ⟨_, rfl⟩
  obtain ⟨b, hb⟩ : ∃ b, rotated.blocks[2]? = some b := ⟨_, rfl⟩
  obtain ⟨c, hc⟩ : ∃ c, rotated.blocks[3]? = some c := ⟨_, rfl⟩
  obtain ⟨toA, htoA, _⟩ := rotated_chainBetween hg ha (by decide)
  obtain ⟨fromA, hfromA, _⟩ := rotated_chainBetween ha hc (by decide)
  obtain ⟨toB, htoB, _⟩ := rotated_chainBetween hg hb (by decide)
  obtain ⟨fromB, hfromB, _⟩ := rotated_chainBetween hb hc (by decide)
  obtain ⟨whole, hwhole, _, hpass⟩ :=
    chainBetween_composes rotated_reachable hg ha hc (by decide) (by decide) htoA hfromA
  obtain ⟨whole', hwhole', hchange, _⟩ :=
    chainBetween_composes rotated_reachable hg hb hc (by decide) (by decide) htoB hfromB
  rw [hwhole] at hwhole'
  cases hwhole'
  obtain ⟨_, _, _, _, _, _, _, hlength⟩ := hpass (by decide +kernel)
  refine ⟨g, a, b, c, toA, fromA, toB, fromB, whole, ?_, hwhole, htoA, hfromA, hlength, htoB, hfromB,
    (hchange (by decide +kernel)).1⟩
  cases hg
  cases ha
  cases hb
  cases hc
  rfl

end Store

/-! ### Verifying -/

/-- The same error, with links in front of the chain that it is about. -/
def ChainError.behind (count : Nat) : ChainError → ChainError
  | invalidProof position fault => invalidProof (count + position) fault
  | error => error

theorem ChainError.behind_eq_invalidProof_iff {count position : Nat} {fault : LinkFault}
    {e : ChainError} :
    e.behind count = .invalidProof (count + position) fault ↔ e = .invalidProof position fault := by
  cases e <;> simp [behind]

namespace Trust
variable {c : Crypto} {t t' : Trust} {links links' : List Link}

theorem followAll_behind (c : Crypto) (t : Trust) (count position : Nat) (links : List Link) :
    (t.followAll c (count + position) links).result =
      (t.followAll c position links).result.mapError (.behind count) := by
  induction links generalizing t position with
  | nil => rfl
  | cons link links ih =>
    simp only [followAll, Metered.result_bind, Metered.result_mapError]
    cases (t.follow c link).result with
    | error fault => rfl
    | ok reached => exact ih reached (position + 1)

theorem followAll_append (h : t.Leads c links t') (position : Nat) :
    (t.followAll c position (links ++ links')).result =
      (t'.followAll c (position + links.length) links').result := by
  induction h generalizing position with
  | nil => rfl
  | cons hcarries _ ih =>
    rw [List.cons_append, followAll_cons_of_carries position hcarries]
    simp only [ih, List.length_cons]
    rw [Nat.add_assoc, Nat.add_comm 1]

end Trust

namespace Store
variable {s : Store} {c : Crypto} {first second : Chain} {anchor : Digest} {a : Block}

theorem verify_append_of_error (hanchor : s.readByHash anchor = .ok a) (hfirst : first.links ≠ [])
    {e : ChainError} (he : (s.verify c first anchor).result = .error e) (links : List Link) :
    (s.verify c ⟨first.links ++ links⟩ anchor).result = .error e := by
  rcases Trust.leads_or_breaks c (.ofBlock a) first.links with ⟨t, hleads⟩ | ⟨p, hbreaks⟩
  · rw [verify_of_leads hanchor hfirst hleads] at he
    cases he
  · obtain ⟨fault, calls, _, hverify, hstops⟩ := verify_of_breaksAt hanchor hbreaks
    have hbehind := hstops (first.links.drop (p + 1) ++ links)
    rw [← List.append_assoc, List.take_append_drop] at hbehind
    rw [hbehind, ← he, hverify]

/-- Trust carried by the links of a chain and trust in a stored block with the same header come to
the same. -/
theorem verify_append_of_ok (hanchor : s.readByHash anchor = .ok a) (hfirst : first.links ≠ [])
    (hsecond : second.links ≠ []) {m : Digest} {b : Block} {link : Link}
    (hm : (s.verify c first anchor).result = .ok m) (hb : s.readByHash m = .ok b) (hhash : b.hash = m)
    (hlast : first.last? = some link) (hheader : b.header = link.header) :
    (s.verify c ⟨first.links ++ second.links⟩ anchor).result =
      (s.verify c second m).result.mapError (.behind first.length) := by
  obtain ⟨_, a', t, ha', hleads, rfl⟩ := verify_eq_ok_iff.1 hm
  rw [hanchor] at ha'
  cases ha'
  obtain rfl : t = .ofBlock b := by
    rw [(hleads.last hlast).1] at hhash ⊢
    rw [Trust.ofBlock, hheader, hhash]
    rfl
  rw [verify_eq hanchor (by simp [hfirst]), verify_eq hb hsecond]
  simp only [Trust.followAll_append hleads]
  rw [Nat.add_comm, Trust.followAll_behind]
  cases ((Trust.ofBlock b).followAll c 0 second.links).result <;> rfl

/-- **Verification composes.** If the first of two chains is refused, so are both in a row. If it is
accepted and the block that it leads to is stored, both in a row are judged as the second is from
there, and a fault of the second is reported behind the links of the first. -/
theorem verify_composes (hanchor : s.readByHash anchor = .ok a) (hfirst : first.links ≠ [])
    (hsecond : second.links ≠ []) :
    (∀ e, (s.verify c first anchor).result = .error e →
      (s.verify c ⟨first.links ++ second.links⟩ anchor).result = .error e) ∧
    ∀ m b link, (s.verify c first anchor).result = .ok m → s.readByHash m = .ok b → b.hash = m →
      first.last? = some link → b.header = link.header →
      (∀ target, (s.verify c ⟨first.links ++ second.links⟩ anchor).result = .ok target ↔
        (s.verify c second m).result = .ok target) ∧
      ∀ position fault, (s.verify c second m).result = .error (.invalidProof position fault) ↔
        (s.verify c ⟨first.links ++ second.links⟩ anchor).result =
          .error (.invalidProof (first.length + position) fault) := by
  refine ⟨fun e he => verify_append_of_error hanchor hfirst he _, ?_⟩
  intro m b link hm hb hhash hlast hheader
  rw [verify_append_of_ok hanchor hfirst hsecond hm hb hhash hlast hheader]
  cases (s.verify c second m).result with
  | ok reached => simp
  | error e => simp [ChainError.behind_eq_invalidProof_iff]

open Transparent in
/-- The chain to the block at 2 and the one from there on are accepted in a row. When the second
one has lost its signatures, the link behind the first chain is reported. -/
theorem verify_composes_rotated :
    ∃ g b z, ∃ first second : Chain, rotated.blocks[0]? = some g ∧ rotated.blocks[2]? = some b ∧
      rotated.blocks[3]? = some z ∧ rotated.chainBetween g.hash b.hash = .ok first ∧
      rotated.chainBetween b.hash z.hash = .ok second ∧ first.length = 1 ∧
      (rotated.verify crypto ⟨first.links ++ second.links⟩ g.hash).result = .ok z.hash ∧
      (rotated.verify crypto
        ⟨first.links ++ second.links.map fun link => { link with signature := [] }⟩ g.hash).result =
        .error (.invalidProof 1 (.crypto .verificationFailed)) := by
  obtain ⟨g, hg⟩ : ∃ g, rotated.blocks[0]? = some g := ⟨_, rfl⟩
  obtain ⟨b, hb⟩ : ∃ b, rotated.blocks[2]? = some b := ⟨_, rfl⟩
  obtain ⟨z, hz⟩ : ∃ z, rotated.blocks[3]? = some z := ⟨_, rfl⟩
  have hstored : ∀ {i x}, rotated.blocks[i]? = some x → rotated.readByHash x.hash = .ok x :=
    fun hx => rotated_reachable.coherent.readByHash_hash (List.mem_of_getElem? hx)
  obtain ⟨first, hfirst, htoB⟩ := rotated_chainBetween hg hb (by decide)
  obtain ⟨second, hsecond, htoZ⟩ := rotated_chainBetween hb hz (by decide)
  let forged : Chain := ⟨second.links.map fun link => { link with signature := [] }⟩
  have hends : first.length = 1 ∧ ∃ link, first.last? = some link ∧ b.header = link.header := by
    cases hg
    cases hb
    cases hfirst
    exact ⟨rfl, _, rfl, rfl⟩
  have hforged : (rotated.verify crypto forged b.hash).result =
      .error (.invalidProof 0 (.crypto .verificationFailed)) := by
    cases hb
    cases hz
    cases hsecond
    rfl
  obtain ⟨hlength, link, hlast, hheader⟩ := hends
  have hfirst_ne : first.links ≠ [] := (verify_eq_ok_iff.1 htoB).1
  have hsecond_ne : second.links ≠ [] := (verify_eq_ok_iff.1 htoZ).1
  have hforged_ne : forged.links ≠ [] := by simpa [forged] using hsecond_ne
  obtain ⟨_, hcompose⟩ := verify_composes (hstored hg) hfirst_ne hsecond_ne
  obtain ⟨_, hcompose'⟩ := verify_composes (hstored hg) hfirst_ne hforged_ne
  have haccepted := (hcompose b.hash b link htoB (hstored hb) rfl hlast hheader).1 z.hash
  have hrefused := (hcompose' b.hash b link htoB (hstored hb) rfl hlast hheader).2 0
    (.crypto .verificationFailed)
  rw [hlength] at hrefused
  exact ⟨g, b, z, first, second, hg, hb, hz, hfirst, hsecond, hlength, haccepted.2 htoZ,
    hrefused.1 hforged⟩

end Store

end CosignedLedger
