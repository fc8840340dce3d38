import CosignedLedger.Proofs.Canonical
import CosignedLedger.Proofs.Chain.FirstFault
import Mathlib.Data.List.InsertIdx

/-!
# Tampering with a chain

The links of a chain lead through hashes, each on from where the one before it has ended. If no two
of those hashes are equal, a link that stands anywhere else than at its own place starts where trust
has not got to. What a link says besides its signature is compared with what is trusted at its
place, or is hashed. So a chain that was built from a store shows every such change, and does not
need the signatures for it.

* `Trust.stations`, `Trust.Leads.station`: the hashes that links lead through.
* `Trust.Leads.breaksAt_of_source`: a link that starts elsewhere is the first fault.
* `Link.Altered`, `Trust.Carries.not_altered`: another source, target, header or authority.
* `Trust.Leads.erased`, `Trust.Leads.repeated`, `Trust.Leads.swapped`: links out of their places.
* `Store.Connected.sublist`, `Store.stations_chainBetween`: a built chain comes to no hash twice.
* `Store.TamperEvident`, `Store.chainBetween_tamperEvident`: what tampering with it comes to.
-/

namespace CosignedLedger

/-- One thing that a link says is another, and the rest, its signature too, is as it was. -/
inductive Link.Altered (link : Link) : Link → Prop where
  | source {source : Digest} : source ≠ link.source → Altered link { link with source := source }
  | target {target : Digest} : target ≠ link.target → Altered link { link with target := target }
  | header {header : Header} : header ≠ link.header → Altered link { link with header := header }
  | authority {authority : Roster} : authority ≠ link.authority →
      Altered link { link with authority := authority }

namespace Trust
variable {c : Crypto} {t t' reached : Trust} {link link' : Link} {links links' : List Link}
  {p q : Nat}

theorem Carries.not_altered (h : t.Carries c link) (haltered : link.Altered link')
    (hshort : link.header.authority.canonicalBytes.length < UInt32.size)
    (hcollide : ¬link.header.Collide c link'.header) : ¬t.Carries c link' := by
  intro h'
  cases haltered with
  | source hne => exact hne (h'.source.trans h.source.symm)
  | authority hne => exact hne (h'.authority.trans h.authority.symm)
  | target hne => exact hne (h'.hashed.symm.trans h.hashed)
  | header hne =>
    refine hcollide ⟨fun heq => hne ?_, h.hashed.trans h'.hashed.symm⟩
    exact (Header.canonicalBytes_inj hshort heq).symm

/-! ### Where links lead -/

def stations (t : Trust) (links : List Link) : List Digest := t.hash :: links.map (·.target)

theorem Leads.exists_take (h : t.Leads c links t') (p : Nat) :
    ∃ reached, t.Leads c (links.take p) reached := by
  induction h generalizing p with
  | @nil t => exact ⟨t, by rw [List.take_nil]; exact .nil⟩
  | @cons t _ _ _ hcarries _ ih =>
    cases p with
    | zero => exact ⟨t, .nil⟩
    | succ p =>
      obtain ⟨reached, hreached⟩ := ih p
      exact ⟨reached, .cons hcarries hreached⟩

theorem Leads.exists_carries (h : t.Leads c links t') (hlink : links[p]? = some link) :
    ∃ reached, t.Leads c (links.take p) reached ∧ reached.Carries c link := by
  induction h generalizing p with
  | nil => cases hlink
  | @cons t _ _ _ hcarries _ ih =>
    cases p with
    | zero =>
      cases hlink
      exact ⟨t, .nil, hcarries⟩
    | succ p =>
      obtain ⟨reached, hreached, hnext⟩ := ih hlink
      exact ⟨reached, .cons hcarries hreached, hnext⟩

theorem Leads.station (h : t.Leads c (links.take p) reached) (hp : p ≤ links.length) :
    (t.stations links)[p]? = some reached.hash := by
  induction p generalizing t links with
  | zero =>
    cases h
    rfl
  | succ p ih =>
    cases links with
    | nil => cases hp
    | cons link links =>
      cases h with
      | cons _ hrest => exact ih hrest (Nat.le_of_succ_le_succ hp)

theorem Leads.station_length (h : t.Leads c links t') :
    (t.stations links)[links.length]? = some t'.hash := by
  rw [← List.take_length (l := links)] at h
  exact h.station (Nat.le_refl _)

theorem Leads.station_source (h : t.Leads c links t') (hlink : links[p]? = some link) :
    (t.stations links)[p]? = some link.source := by
  obtain ⟨reached, hreached, hcarries⟩ := h.exists_carries hlink
  rw [hcarries.source]
  exact hreached.station (Nat.le_of_lt (List.getElem?_eq_some_iff.1 hlink).1)

/-- After the first `p` links, a link that does not start at the station with that number is the
first that is refused. -/
theorem Leads.breaksAt_of_source (h : t.Leads c links t') (hp : p ≤ links.length)
    (htake : links'.take p = links.take p) (hlink : links'[p]? = some link')
    (hsource : (t.stations links)[p]? ≠ some link'.source) : t.BreaksAt c links' p := by
  obtain ⟨reached, hreached⟩ := h.exists_take p
  refine ⟨reached, link', htake ▸ hreached, hlink, fun hcarries => hsource ?_⟩
  rw [hcarries.source]
  exact hreached.station hp

theorem BreaksAt.not_leads (h : t.BreaksAt c links p) : ¬t.Leads c links t' := by
  intro hleads
  obtain ⟨fault, calls, _, hall⟩ := followAll_of_breaksAt h 0
  have hfollow := hall (links.drop (p + 1))
  rw [List.take_append_drop, followAll_of_leads hleads] at hfollow
  cases hfollow

/-! ### Links out of their places -/

section
variable (hdistinct : (t.stations links).Nodup)
include hdistinct

theorem station_ne {d : Digest} (hp : p ≤ links.length) (hpq : p ≠ q)
    (hq : (t.stations links)[q]? = some d) : (t.stations links)[p]? ≠ some d := by
  intro heq
  have hlt : p < (t.stations links).length := by
    rw [stations, List.length_cons, List.length_map]
    omega
  exact hpq ((List.getElem?_inj hlt hdistinct).1 (heq.trans hq.symm))

/-- Without one of the links, the next one starts where nothing leads; without the last one, trust
stops a station short. -/
theorem Leads.erased (h : t.Leads c links t') (hp : p < links.length)
    (herased : t.Leads c (links.eraseIdx p) reached) : reached.hash ≠ t'.hash := by
  by_cases hnext : p + 1 < links.length
  · obtain ⟨next, hlink⟩ : ∃ next, links[p + 1]? = some next :=
      ⟨_, List.getElem?_eq_getElem hnext⟩
    have hlink' : (links.eraseIdx p)[p]? = some next := by
      rw [List.getElem?_eraseIdx_of_ge (Nat.le_refl p), hlink]
    have hsource := station_ne hdistinct (Nat.le_of_lt hp) (by omega) (h.station_source hlink)
    have hbreaks := h.breaksAt_of_source (Nat.le_of_lt hp)
      (List.take_eraseIdx_eq_take_of_le links p p (Nat.le_refl p)) hlink' hsource
    exact absurd herased hbreaks.not_leads
  · have hlast : links.eraseIdx p = links.take p := by
      rw [List.eraseIdx_eq_take_drop_succ, List.drop_of_length_le (Nat.not_lt.1 hnext),
        List.append_nil]
    rw [hlast] at herased
    intro heq
    have hstation := herased.station (Nat.le_of_lt hp)
    rw [heq] at hstation
    exact station_ne hdistinct (Nat.le_of_lt hp) (Nat.ne_of_lt hp) h.station_length hstation

/-- A copy starts where nothing leads, unless it stands before the link itself, which then does. -/
theorem Leads.repeated (h : t.Leads c links t') (hp : p ≤ links.length)
    (hlink : links[q]? = some link) : ¬t.Leads c (links.insertIdx p link) reached := by
  have hq := (List.getElem?_eq_some_iff.1 hlink).1
  have htake : (links.insertIdx p link).take p = links.take p :=
    List.take_insertIdx_eq_take_of_le links link p p (Nat.le_refl p)
  have hcopy : (links.insertIdx p link)[p]? = some link := by
    rw [List.getElem?_insertIdx_self, if_pos hp]
  by_cases hpq : p = q
  · subst hpq
    have htake' : (links.insertIdx p link).take (p + 1) = links.take (p + 1) := by
      rw [List.take_add_one, List.take_add_one, htake, hcopy, hlink]
    have hnext : (links.insertIdx p link)[p + 1]? = some link := by
      rw [List.getElem?_insertIdx_of_gt (Nat.lt_succ_self p), Nat.succ_sub_one, hlink]
    have hsource := station_ne hdistinct hq (by omega) (h.station_source hlink)
    exact (h.breaksAt_of_source hq htake' hnext hsource).not_leads
  · have hsource := station_ne hdistinct hp hpq (h.station_source hlink)
    exact (h.breaksAt_of_source hp htake hcopy hsource).not_leads

/-- Of two links that have changed places, the one in front starts where nothing leads. -/
theorem Leads.swapped (h : t.Leads c links t') (hpq : p < q) (hlink : links[p]? = some link)
    (hlink' : links[q]? = some link') : ¬t.Leads c ((links.set p link').set q link) reached := by
  have hp := (List.getElem?_eq_some_iff.1 hlink).1
  have htake : ((links.set p link').set q link).take p = links.take p := by
    rw [List.take_set_of_le (Nat.le_of_lt hpq), List.take_set_of_le (Nat.le_refl p)]
  have hfront : ((links.set p link').set q link)[p]? = some link' := by
    rw [List.getElem?_set_ne (Nat.ne_of_gt hpq), List.getElem?_set_self hp]
  have hsource :=
    station_ne hdistinct (Nat.le_of_lt hp) (Nat.ne_of_lt hpq) (h.station_source hlink')
  exact (h.breaksAt_of_source (Nat.le_of_lt hp) htake hfront hsource).not_leads

end

end Trust

namespace Store
variable {s : Store} {c : Crypto} {chain : Chain} {anchor target : Digest} {a b : Block} {i j : Nat}

/-! ### Chains that are built -/

/-- Links over stops lead through the hashes of blocks behind the first stop, in their order. -/
theorem Connected.sublist {p : Nat} {ks : List Nat} {links : List Link}
    (h : s.Connected p ks links) :
    (links.map fun link => (link.target, link.header)).Sublist
      ((s.blocks.drop (p + 1)).map fun b => (b.hash, b.header)) := by
  induction h with
  | nil => exact List.nil_sublist _
  | @cons p k ks link links hlink _ ih =>
    obtain ⟨b, hb, htarget, hheader, _⟩ := hlink.target
    obtain ⟨hlt, rfl⟩ := List.getElem?_eq_some_iff.1 hb
    have hdrop := List.drop_sublist_drop_left s.blocks (Nat.succ_le_of_lt hlink.forward)
    rw [List.drop_eq_getElem_cons hlt] at hdrop
    rw [List.map_cons, htarget, hheader]
    exact (ih.cons_cons _).trans (hdrop.map fun b : Block => (b.hash, b.header))

section
variable (hs : s.Coherent) (ha : s.blocks[i]? = some a) (hb : s.blocks[j]? = some b) (hij : i ≤ j)
  (hchain : s.chainBetween a.hash b.hash = .ok chain)
include hs ha hb hij hchain

theorem chainBetween_sublist :
    (chain.links.map fun link => (link.target, link.header)).Sublist
      ((s.blocks.drop (i + 1)).map fun b => (b.hash, b.header)) :=
  ((chainBetween_eq_ok_iff hs ha hb hij).1 hchain).sublist

theorem stations_chainBetween : ((Trust.ofBlock a).stations chain.links).Nodup := by
  have htargets := (chainBetween_sublist hs ha hb hij hchain).map Prod.fst
  rw [List.map_map, List.map_map] at htargets
  obtain ⟨hlt, rfl⟩ := List.getElem?_eq_some_iff.1 ha
  have hblocks : ((Trust.ofBlock s.blocks[i]).stations chain.links).Sublist
      ((s.blocks.drop i).map (·.hash)) := by
    rw [List.drop_eq_getElem_cons hlt, List.map_cons]
    exact htargets.cons_cons _
  exact (hblocks.trans ((List.drop_sublist i _).map _)).nodup hs.distinct

theorem exists_header_chainBetween {link : Link} (hlink : link ∈ chain.links) :
    ∃ b ∈ s.blocks, b.header = link.header := by
  have hmem := (chainBetween_sublist hs ha hb hij hchain).subset (List.mem_map_of_mem hlink)
  obtain ⟨b, hb, heq⟩ := List.mem_map.1 hmem
  exact ⟨b, List.mem_of_mem_drop hb, congrArg Prod.snd heq⟩

end

/-! ### What verification reports -/

theorem verifyTo_of_breaksAt {p : Nat} (ha : s.readByHash a.hash = .ok a)
    (h : (Trust.ofBlock a).BreaksAt c chain.links p) :
    ∃ fault, (s.verifyTo c chain a.hash target).result = .error (.invalidProof p fault) := by
  obtain ⟨fault, calls, _, hverify, _⟩ := verify_of_breaksAt ha h
  have hempty : chain.isEmpty = false := by simpa [Chain.isEmpty] using h.ne_nil
  refine ⟨fault, ?_⟩
  simp only [verifyTo, hempty, Bool.false_eq_true, if_false, hverify, bind]

theorem verifyTo_refused (ha : s.readByHash a.hash = .ok a)
    (h : ∀ t, (Trust.ofBlock a).Leads c chain.links t → t.hash ≠ target) :
    ∃ e, (s.verifyTo c chain a.hash target).result = .error e := by
  cases hresult : (s.verifyTo c chain a.hash target).result with
  | error e => exact ⟨e, rfl⟩
  | ok _ =>
    rcases verifyTo_eq_ok_iff.1 hresult with ⟨hempty, heq⟩ | ⟨_, a', t, ha', hleads, heq⟩
    · rw [hempty] at h
      exact absurd heq (h _ .nil)
    · rw [ha] at ha'
      cases ha'
      exact absurd heq (h t hleads)

/-- What tampering with a chain from the block at `i`, with the hash `anchor`, to the hash `target`
comes to. -/
structure TamperEvident (s : Store) (c : Crypto) (chain : Chain) (i : Nat)
    (anchor target : Digest) : Prop where
  /-- A link that says another thing is reported, unless its header is hashed like the old one. -/
  altered : ∀ p link link', chain.links[p]? = some link → link.Altered link' →
    ¬link.header.Collide c link'.header →
    ∃ fault, (s.verifyTo c ⟨chain.links.set p link'⟩ anchor target).result =
      .error (.invalidProof p fault)
  erased : ∀ p, p < chain.length →
    ∃ e, (s.verifyTo c ⟨chain.links.eraseIdx p⟩ anchor target).result = .error e
  repeated : ∀ p link, p ≤ chain.length → link ∈ chain.links →
    ∃ e, (s.verifyTo c ⟨chain.links.insertIdx p link⟩ anchor target).result = .error e
  swapped : ∀ p q link link', p ≠ q → chain.links[p]? = some link → chain.links[q]? = some link' →
    ∃ e, (s.verifyTo c ⟨(chain.links.set p link').set q link⟩ anchor target).result = .error e
  /-- From any other stored block, the first link is reported. -/
  elsewhere : ∀ k b, k ≠ i → s.blocks[k]? = some b →
    ∃ fault, (s.verify c chain b.hash).result = .error (.invalidProof 0 fault)

theorem tamperEvident_of_leads (hs : s.Coherent) (ha : s.blocks[i]? = some a)
    (hchain : chain.links ≠ []) {t : Trust} (hleads : (Trust.ofBlock a).Leads c chain.links t)
    (hdistinct : ((Trust.ofBlock a).stations chain.links).Nodup)
    (hshort : ∀ link ∈ chain.links, link.header.authority.canonicalBytes.length < UInt32.size) :
    s.TamperEvident c chain i a.hash t.hash := by
  have hmem := List.mem_of_getElem? ha
  have hanchor := hs.readByHash_hash hmem
  constructor
  case altered =>
    intro p link link' hlink haltered hcollide
    have hp := (List.getElem?_eq_some_iff.1 hlink).1
    obtain ⟨reached, hreached, hcarries⟩ := hleads.exists_carries hlink
    refine verifyTo_of_breaksAt hanchor ⟨reached, link', ?_, List.getElem?_set_self hp, ?_⟩
    · rw [List.take_set_of_le (Nat.le_refl p)]
      exact hreached
    · exact hcarries.not_altered haltered (hshort link (List.mem_of_getElem? hlink)) hcollide
  case erased =>
    intro p hp
    exact verifyTo_refused hanchor fun t' h => hleads.erased hdistinct hp h
  case repeated =>
    intro p link hp hlink
    obtain ⟨q, hq⟩ := List.getElem?_of_mem hlink
    exact verifyTo_refused hanchor fun t' h => absurd h (hleads.repeated hdistinct hp hq)
  case swapped =>
    intro p q link link' hpq hlink hlink'
    refine verifyTo_refused hanchor fun t' h => ?_
    rcases Nat.lt_or_gt_of_ne hpq with hlt | hgt
    · exact absurd h (hleads.swapped hdistinct hlt hlink hlink')
    · rw [List.set_comm _ _ hpq] at h
      exact absurd h (hleads.swapped hdistinct hgt hlink' hlink)
  case elsewhere =>
    intro k b hk hb
    obtain ⟨first, rest, hlinks⟩ := List.exists_cons_of_ne_nil hchain
    have hrefused : ¬(Trust.ofBlock b).Carries c first := by
      intro hcarries
      have hsource : first.source = a.hash := by
        rw [hlinks] at hleads
        cases hleads with
        | cons hfirst _ => exact hfirst.source
      have heq : b = a := hs.eq_of_hash_eq (List.mem_of_getElem? hb) hmem
        (hcarries.source.symm.trans hsource)
      rw [heq] at hb
      exact hk ((hs.position hb).symm.trans (hs.position ha))
    have hfirst : chain.links[0]? = some first := by
      rw [hlinks]
      rfl
    obtain ⟨fault, calls, _, hverify, _⟩ :=
      verify_of_breaksAt (hs.readByHash_hash (List.mem_of_getElem? hb))
        ⟨.ofBlock b, first, .nil, hfirst, hrefused⟩
    exact ⟨fault, by rw [hverify]⟩

/-- **A built chain shows tampering without its signatures.** If the chain from one stored block to
a later one is accepted, then it is refused with any one of its links changed, left out, repeated or
moved, and from every other block of the store. -/
theorem chainBetween_tamperEvident (hs : s.Coherent) (ha : s.blocks[i]? = some a)
    (hb : s.blocks[j]? = some b) (hij : i < j) (hchain : s.chainBetween a.hash b.hash = .ok chain)
    (haccepted : (s.verifyTo c chain a.hash b.hash).result = .ok ())
    (hshort : ∀ x ∈ s.blocks, x.authority.canonicalBytes.length < UInt32.size) :
    s.TamperEvident c chain i a.hash b.hash := by
  have hle := Nat.le_of_lt hij
  have hne : a.hash ≠ b.hash := by
    intro heq
    have hab := hs.eq_of_hash_eq (List.mem_of_getElem? ha) (List.mem_of_getElem? hb) heq
    rw [← hab] at hb
    have := (hs.position ha).symm.trans (hs.position hb)
    omega
  rcases verifyTo_eq_ok_iff.1 haccepted with ⟨_, heq⟩ | ⟨hlinks, a', t, ha', hleads, heq⟩
  · exact absurd heq hne
  · rw [hs.readByHash_hash (List.mem_of_getElem? ha)] at ha'
    cases ha'
    rw [← heq]
    refine tamperEvident_of_leads hs ha hlinks hleads
      (stations_chainBetween hs ha hb hle hchain) fun link hlink => ?_
    obtain ⟨x, hx, hheader⟩ := exists_header_chainBetween hs ha hb hle hchain hlink
    rw [← hheader]
    exact hshort x hx

open Transparent in
/-- The authority changes twice, so there are two links. The second one comes to hold a header with
another index, which has another hash. -/
theorem chainBetween_tamperEvident_rotated :
    ∃ a b chain, ∃ link : Link, rotated.blocks[0]? = some a ∧ rotated.blocks[3]? = some b ∧
      rotated.chainBetween a.hash b.hash = .ok chain ∧ chain.length = 2 ∧
      chain.links[1]? = some link ∧ rotated.TamperEvident crypto chain 0 a.hash b.hash ∧
      ∃ fault, (rotated.verifyTo crypto
        ⟨chain.links.set 1 { link with header := { link.header with index := 9 } }⟩
        a.hash b.hash).result = .error (.invalidProof 1 fault) := by
  obtain ⟨a, ha⟩ : ∃ a, rotated.blocks[0]? = some a := ⟨_, rfl⟩
  obtain ⟨b, hb⟩ : ∃ b, rotated.blocks[3]? = some b := ⟨_, rfl⟩
  obtain ⟨chain, hchain, haccepted⟩ := chainBetween_verifies rotated_reachable.coherent
    (fun b hb => (rotated_authorised.hashed b hb).header) rotated_authorised.signed ha hb
    (by decide)
  have htamper := chainBetween_tamperEvident rotated_reachable.coherent ha hb (by decide) hchain
    (haccepted rotated rotated_reachable (List.mem_of_getElem? ha)).1 (by decide +kernel)
  have hlinks : chain.length = 2 ∧ ∃ link, chain.links[1]? = some link ∧
      { link.header with index := 9 } ≠ link.header ∧
      ¬link.header.Collide crypto { link.header with index := 9 } := by
    cases ha
    cases hb
    cases hchain
    refine ⟨by decide +kernel, _, rfl, by decide +kernel, ?_⟩
    unfold Header.Collide
    decide +kernel
  obtain ⟨hlength, link, hlink, hne, hcollide⟩ := hlinks
  exact ⟨a, b, chain, link, ha, hb, hchain, hlength, hlink, htamper,
    htamper.altered 1 link _ hlink (.header hne) hcollide⟩

end Store

end CosignedLedger
