import CosignedLedger.Proofs.Chain.Trust
import CosignedLedger.Proofs.Transparent
import Mathlib.Data.List.Basic

/-!
# The shape of a chain

The builder walks from block to block and decides at each one whether to make a link. What comes of
it can be told without the walk: a chain stops at every block that records another authority than
the one before it, and at its target, and each link leads from one stop to the next. Between two
stops all blocks record one authority. So the authority that signs for a stop, which is that of the
block just before it, is also that of the block at the stop before.

* `Store.links_of_towards`: one step of the walk.
* `Store.stops`: where the chain between two blocks stops.
* `Store.Connects`, `Store.Connected`: a link from one stop to another, and links over many stops.
* `Store.links_over_stops`: the walk makes such links, or ends at the first stop without a signature.
* `Store.chainBetween_eq_ok_iff`: the chain between two stored blocks is the links over the stops.
* `Store.Charted`, `Store.chainBetween_charted`: what asking for the chain between two hashes comes
  to.
-/

namespace CosignedLedger.Store
variable {s : Store} {i j k p : Nat} {a b : Block} {source target : Digest}

/-! ### The walk -/

/-- The block at an index on the way to a target, which itself is not read again. -/
def towards (s : Store) (target : Block) (count index : Nat) : Except ChainError Block :=
  if count = 0 then .ok target else (s.read index).mapError .store

section
variable {last block previous : Block} {count index : Nat} {anchor : Digest}

theorem links_of_towards_error {e : ChainError} (h : s.towards last count index = .error e) :
    s.links last (count + 1) index anchor previous = .error e := by
  by_cases hcount : count = 0
  · simp [towards, hcount] at h
  · rw [towards, if_neg hcount] at h
    simp only [links, if_neg hcount, h]
    rfl

theorem links_of_towards (h : s.towards last count index = .ok block) :
    s.links last (count + 1) index anchor previous =
      if count = 0 ∨ block.authority ≠ previous.authority then
        match block.signature with
        | none => .error (.missingSignature index)
        | some signature =>
          (s.links last count (index + 1) block.hash block).map
            (⟨anchor, block.hash, block.header, previous.authority, signature⟩ :: ·)
      else s.links last count (index + 1) anchor block := by
  have hbind : s.links last (count + 1) index anchor previous =
      (s.towards last count index).bind fun block =>
        if count = 0 ∨ block.authority ≠ previous.authority then
          match block.signature with
          | none => .error (.missingSignature index)
          | some signature =>
            (s.links last count (index + 1) block.hash block).bind fun rest =>
              .ok (⟨anchor, block.hash, block.header, previous.authority, signature⟩ :: rest)
        else s.links last count (index + 1) anchor block := by
    by_cases hcount : count = 0
    · subst hcount
      rfl
    · simp only [links, towards, if_neg hcount]
      rfl
  rw [hbind, h]
  rfl

theorem exists_towards (hlast : s.blocks[i + (count + 1)]? = some last) :
    ∃ block, s.blocks[i + 1]? = some block ∧ s.towards last count (i + 1) = .ok block := by
  unfold towards
  by_cases hcount : count = 0
  · subst hcount
    exact ⟨last, hlast, rfl⟩
  · obtain ⟨block, hblock⟩ := exists_block_of_le hlast (show i + 1 ≤ i + (count + 1) by omega)
    refine ⟨block, hblock, ?_⟩
    rw [if_neg hcount, read_eq_ok_iff.2 hblock, Except.mapError_ok]

end

/-! ### Stops -/

def hashes (s : Store) : List Digest := s.blocks.map (·.hash)

def HoldsAt (s : Store) (i : Nat) (hash : Digest) : Prop :=
  ∃ b, s.blocks[i]? = some b ∧ b.hash = hash

def SignedAt (s : Store) (k : Nat) : Prop :=
  ∃ b signature, s.blocks[k]? = some b ∧ b.signature = some signature

/-- The block at `k` records another authority than the block before it. -/
def ChangesAt (s : Store) (k : Nat) : Prop :=
  s.blocks[k]?.map (·.authority) ≠ s.blocks[k - 1]?.map (·.authority)

instance (s : Store) (k : Nat) : Decidable (s.ChangesAt k) := inferInstanceAs (Decidable (_ ≠ _))

theorem changesAt_succ_iff (ha : s.blocks[i]? = some a) (hb : s.blocks[i + 1]? = some b) :
    s.ChangesAt (i + 1) ↔ b.authority ≠ a.authority := by
  simp [ChangesAt, ha, hb]

/-- Where the chain from the block at `i` to the block at `j` stops, in order: at the blocks between
that record another authority than the block before them, and at the block at `j`. -/
def stops (s : Store) (i j : Nat) : List Nat :=
  (List.range' (i + 1) (j - i)).filter fun k => k = j ∨ s.ChangesAt k

theorem mem_stops : k ∈ s.stops i j ↔ i < k ∧ k ≤ j ∧ (k = j ∨ s.ChangesAt k) := by
  simp only [stops, List.mem_filter, List.mem_range'_1, decide_eq_true_eq]
  constructor
  · rintro ⟨⟨hlow, hhigh⟩, hstop⟩
    exact ⟨hlow, by omega, hstop⟩
  · rintro ⟨hlow, hhigh, hstop⟩
    exact ⟨⟨hlow, by omega⟩, hstop⟩

theorem stops_self (s : Store) (i : Nat) : s.stops i i = [] := by
  simp [stops]

theorem stops_eq_nil_iff (hij : i ≤ j) : s.stops i j = [] ↔ i = j := by
  constructor
  · intro h
    by_contra hne
    have hlast : j ∈ s.stops i j := mem_stops.2 ⟨by omega, Nat.le_refl j, .inl rfl⟩
    rw [h] at hlast
    cases hlast
  · rintro rfl
    exact stops_self s i

theorem stops_of_stop (hij : i < j) (h : i + 1 = j ∨ s.ChangesAt (i + 1)) :
    s.stops i j = (i + 1) :: s.stops (i + 1) j := by
  rw [stops, show j - i = j - (i + 1) + 1 by omega, List.range'_succ, List.filter_cons_of_pos]
  · rfl
  · exact decide_eq_true h

theorem stops_of_pass (hij : i < j) (h : ¬(i + 1 = j ∨ s.ChangesAt (i + 1))) :
    s.stops i j = s.stops (i + 1) j := by
  rw [stops, show j - i = j - (i + 1) + 1 by omega, List.range'_succ, List.filter_cons_of_neg]
  · rfl
  · simpa using h

theorem getLast?_stops (hij : i < j) : (s.stops i j).getLast? = some j := by
  rw [stops, show j - i = j - i - 1 + 1 by omega, List.range'_concat, List.filter_append,
    show i + 1 + 1 * (j - i - 1) = j by omega]
  simp

structure FirstUnsigned (s : Store) (ks : List Nat) (k : Nat) : Prop where
  mem : k ∈ ks
  unsigned : ¬s.SignedAt k
  before : ∀ k' ∈ ks, k' < k → s.SignedAt k'

theorem not_signedAt (hb : s.blocks[k]? = some b) (hsignature : b.signature = none) :
    ¬s.SignedAt k := by
  rintro ⟨b', signature, hb', hsigned⟩
  rw [hb] at hb'
  cases hb'
  rw [hsignature] at hsigned
  cases hsigned

namespace FirstUnsigned

theorem head (h : ¬s.SignedAt (i + 1)) : s.FirstUnsigned ((i + 1) :: s.stops (i + 1) j) (i + 1) where
  mem := List.mem_cons_self
  unsigned := h
  before := by
    intro k hk hlt
    rcases List.mem_cons.1 hk with rfl | hk
    · omega
    · have := (mem_stops.1 hk).1
      omega

theorem tail {ks : List Nat} (h : s.FirstUnsigned ks k) (hp : s.SignedAt p) :
    s.FirstUnsigned (p :: ks) k where
  mem := .tail _ h.mem
  unsigned := h.unsigned
  before := List.forall_mem_cons.2 ⟨fun _ => hp, h.before⟩

end FirstUnsigned

/-! ### Links over stops -/

/-- The link leads from the block at `p` forward to the block at `k`, whose header and signature it
holds. The authority is that of the block at `p`, and it is that of the block just before `k` too. -/
structure Connects (s : Store) (p k : Nat) (link : Link) : Prop where
  forward : p < k
  source : ∃ b, s.blocks[p]? = some b ∧ link.source = b.hash ∧ link.authority = b.authority
  target : ∃ b, s.blocks[k]? = some b ∧ link.target = b.hash ∧ link.header = b.header ∧
    b.signature = some link.signature
  signer : ∃ b, s.blocks[k - 1]? = some b ∧ link.authority = b.authority

theorem Connects.unique {link link' : Link} (h : s.Connects p k link) (h' : s.Connects p k link') :
    link = link' := by
  obtain ⟨_, ⟨a, ha, hsource, _⟩, ⟨b, hb, htarget, hheader, hsignature⟩, ⟨x, hx, hsigner⟩⟩ := h
  obtain ⟨_, ⟨a', ha', hsource', _⟩, ⟨b', hb', htarget', hheader', hsignature'⟩,
    ⟨x', hx', hsigner'⟩⟩ := h'
  rw [ha] at ha'
  rw [hb] at hb'
  rw [hx] at hx'
  cases ha'
  cases hb'
  cases hx'
  rw [hsignature] at hsignature'
  cases link
  cases link'
  simp_all

/-- One link to each of the stops `ks` from the stop before it, the first of them from `p`. -/
inductive Connected (s : Store) : (p : Nat) → (ks : List Nat) → List Link → Prop where
  | nil {p : Nat} : Connected s p [] []
  | cons {p k : Nat} {ks : List Nat} {link : Link} {links : List Link} :
      s.Connects p k link → Connected s k ks links → Connected s p (k :: ks) (link :: links)

namespace Connected
variable {ks : List Nat} {links : List Link}

theorem signedAt (h : s.Connected p ks links) : ∀ k ∈ ks, s.SignedAt k := by
  induction h with
  | nil => simp
  | cons hlink _ ih =>
    obtain ⟨b, hb, _, _, hsignature⟩ := hlink.target
    exact List.forall_mem_cons.2 ⟨⟨b, _, hb, hsignature⟩, ih⟩

theorem unique {links' : List Link} (h : s.Connected p ks links) (h' : s.Connected p ks links') :
    links = links' := by
  induction h generalizing links' with
  | nil =>
    cases h'
    rfl
  | cons hlink _ ih =>
    cases h' with
    | cons hlink' hlinks' => rw [hlink.unique hlink', ih hlinks']

theorem length_eq (h : s.Connected p ks links) : links.length = ks.length := by
  induction h with
  | nil => rfl
  | cons _ _ ih => rw [List.length_cons, List.length_cons, ih]

theorem eq_nil_iff (h : s.Connected p ks links) : links = [] ↔ ks = [] := by
  rw [← List.length_eq_zero_iff, h.length_eq, List.length_eq_zero_iff]

theorem last (h : s.Connected p ks links) (hlast : ks.getLast? = some k) :
    ∃ link q, links.getLast? = some link ∧ s.Connects q k link := by
  induction h with
  | nil => cases hlast
  | @cons p q ks link links hlink hlinks ih =>
    cases hlinks with
    | nil =>
      cases hlast
      exact ⟨link, p, rfl, hlink⟩
    | cons hnext hrest => exact ih hlast

end Connected

/-- The links from the block after `i` on. The last stop is at `p`, and all blocks from there to `i`
record the authority of the block there. The induction is on the number of blocks that are left. -/
theorem links_over_stops (hlast : s.blocks[j]? = some b) :
    ∀ (count : Nat) {i p : Nat} {start previous : Block}, i + count = j → p ≤ i →
      s.blocks[i]? = some previous → s.blocks[p]? = some start →
      start.authority = previous.authority →
      (∃ links, s.links b count (i + 1) start.hash previous = .ok links ∧
        s.Connected p (s.stops i j) links) ∨
      ∃ k, s.FirstUnsigned (s.stops i j) k ∧
        s.links b count (i + 1) start.hash previous = .error (.missingSignature k) := by
  intro count
  induction count with
  | zero =>
    rintro i p start previous rfl _ _ _ _
    exact .inl ⟨[], rfl, by rw [Nat.add_zero, stops_self]; exact .nil⟩
  | succ count ih =>
    intro i p start previous hcount hp hprevious hstart hauthority
    have hij : i < j := by omega
    have hnext : i + 1 + count = j := by omega
    have htarget : s.blocks[i + (count + 1)]? = some b := by rw [hcount, hlast]
    obtain ⟨block, hblock, htowards⟩ := exists_towards htarget
    have hstop : (count = 0 ∨ block.authority ≠ previous.authority) ↔
        (i + 1 = j ∨ s.ChangesAt (i + 1)) :=
      or_congr (by omega) (changesAt_succ_iff hprevious hblock).symm
    rw [links_of_towards htowards]
    by_cases hlink : count = 0 ∨ block.authority ≠ previous.authority
    · rw [if_pos hlink, stops_of_stop hij (hstop.1 hlink)]
      cases hsignature : block.signature with
      | none => exact .inr ⟨i + 1, .head (not_signedAt hblock hsignature), rfl⟩
      | some signature =>
        have hconnects : s.Connects p (i + 1)
            ⟨start.hash, block.hash, block.header, previous.authority, signature⟩ :=
          { forward := Nat.lt_succ_of_le hp
            source := ⟨start, hstart, rfl, hauthority.symm⟩
            target := ⟨block, hblock, rfl, rfl, hsignature⟩
            signer := ⟨previous, hprevious, rfl⟩ }
        rcases ih hnext (Nat.le_refl _) hblock hblock rfl with
          ⟨links, hlinks, hconnected⟩ | ⟨k, hfirst, herror⟩
        · exact .inl ⟨_, by rw [hlinks]; rfl, .cons hconnects hconnected⟩
        · exact .inr ⟨k, hfirst.tail ⟨block, signature, hblock, hsignature⟩, by rw [herror]; rfl⟩
    · have hsame : block.authority = previous.authority :=
        Decidable.not_not.1 fun hne => hlink (.inr hne)
      rw [if_neg hlink, stops_of_pass hij (mt hstop.2 hlink)]
      exact ih hnext (Nat.le_succ_of_le hp) hblock hstart (hauthority.trans hsame.symm)

/-! ### Asking for a chain -/

theorem Coherent.lookup_hash (hs : s.Coherent) (hb : b ∈ s.blocks) : s.lookup b.hash = .ok b :=
  lookup_eq_ok_iff.2 (hs.readByHash_hash hb)

theorem chainBetween_of_stored (hs : s.Coherent) (ha : s.blocks[i]? = some a)
    (hb : s.blocks[j]? = some b) :
    s.chainBetween a.hash b.hash =
      if j < i then .error (.invalidRange i j)
      else (s.links b (j - i) (i + 1) a.hash a).map Chain.mk := by
  simp only [chainBetween, hs.lookup_hash (List.mem_of_getElem? ha),
    hs.lookup_hash (List.mem_of_getElem? hb), hs.position ha, hs.position hb, bind, Except.bind]
  split
  · rfl
  · cases s.links b (j - i) (i + 1) a.hash a <;> rfl

theorem chainBetween_eq (hs : s.Coherent) (ha : s.blocks[i]? = some a)
    (hb : s.blocks[j]? = some b) (hij : i ≤ j) :
    s.chainBetween a.hash b.hash = (s.links b (j - i) (i + 1) a.hash a).map Chain.mk := by
  rw [chainBetween_of_stored hs ha hb, if_neg (Nat.not_lt.2 hij)]

theorem chainTo_eq {g : Block} (hg : s.blocks[0]? = some g) (target : Digest) :
    s.chainTo target = s.chainBetween g.hash target := by
  rw [chainTo, genesis?_eq, hg]

theorem chainBetween_cases (hs : s.Coherent) (ha : s.blocks[i]? = some a)
    (hb : s.blocks[j]? = some b) (hij : i ≤ j) :
    (∃ links, s.chainBetween a.hash b.hash = .ok ⟨links⟩ ∧ s.Connected i (s.stops i j) links) ∨
    ∃ k, s.FirstUnsigned (s.stops i j) k ∧
      s.chainBetween a.hash b.hash = .error (.missingSignature k) := by
  rw [chainBetween_eq hs ha hb hij]
  rcases links_over_stops hb (j - i) (Nat.add_sub_cancel' hij) (Nat.le_refl i) ha ha rfl with
    ⟨links, hlinks, hconnected⟩ | ⟨k, hfirst, herror⟩
  · exact .inl ⟨links, by rw [hlinks]; rfl, hconnected⟩
  · exact .inr ⟨k, hfirst, by rw [herror]; rfl⟩

theorem chainBetween_eq_ok_iff (hs : s.Coherent) (ha : s.blocks[i]? = some a)
    (hb : s.blocks[j]? = some b) (hij : i ≤ j) {chain : Chain} :
    s.chainBetween a.hash b.hash = .ok chain ↔ s.Connected i (s.stops i j) chain.links := by
  rcases chainBetween_cases hs ha hb hij with ⟨links, hlinks, hconnected⟩ | ⟨k, hfirst, herror⟩
  · rw [hlinks, Except.ok.injEq]
    constructor
    · rintro rfl
      exact hconnected
    · intro h
      rw [hconnected.unique h]
  · rw [herror]
    exact ⟨nofun, fun h => absurd (h.signedAt k hfirst.mem) hfirst.unsigned⟩

theorem chainBetween_backwards (hs : s.Coherent) (ha : s.blocks[i]? = some a)
    (hb : s.blocks[j]? = some b) (hji : j < i) :
    s.chainBetween a.hash b.hash = .error (.invalidRange i j) := by
  rw [chainBetween_of_stored hs ha hb, if_pos hji]

theorem chainBetween_outcome (hs : s.Coherent) (ha : s.blocks[i]? = some a)
    (hb : s.blocks[j]? = some b) :
    (∃ chain, s.chainBetween a.hash b.hash = .ok chain) ∨
    (∃ k, s.chainBetween a.hash b.hash = .error (.missingSignature k)) ∨
    ∃ m n, s.chainBetween a.hash b.hash = .error (.invalidRange m n) := by
  by_cases hij : i ≤ j
  · rcases chainBetween_cases hs ha hb hij with ⟨links, hlinks, _⟩ | ⟨k, _, herror⟩
    · exact .inl ⟨_, hlinks⟩
    · exact .inr (.inl ⟨k, herror⟩)
  · exact .inr (.inr ⟨i, j, chainBetween_backwards hs ha hb (Nat.not_le.1 hij)⟩)

theorem lookup_of_not_mem (hs : s.Coherent) {hash : Digest} (h : hash ∉ s.hashes) :
    s.lookup hash = .error (.notFound hash) := by
  have hnone : s.indexOf? hash = none := by
    rw [hs.indexed.fresh_iff]
    rintro x hx rfl
    exact h (List.mem_map_of_mem hx)
  simp [lookup, readByHash, hnone]

theorem holdsAt_of_mem {hash : Digest} (h : hash ∈ s.hashes) : ∃ i, s.HoldsAt i hash := by
  obtain ⟨b, hb, rfl⟩ := List.mem_map.1 h
  obtain ⟨i, hi⟩ := List.getElem?_of_mem hb
  exact ⟨i, b, hi, rfl⟩

theorem chainBetween_eq_notFound_iff (hs : s.Coherent) {hash : Digest} :
    s.chainBetween source target = .error (.notFound hash) ↔
      [source, target].find? (· ∉ s.hashes) = some hash := by
  by_cases hsource : source ∈ s.hashes
  · by_cases htarget : target ∈ s.hashes
    · obtain ⟨i, a, ha, rfl⟩ := holdsAt_of_mem hsource
      obtain ⟨j, b, hb, rfl⟩ := holdsAt_of_mem htarget
      rcases chainBetween_outcome hs ha hb with ⟨_, h⟩ | ⟨_, h⟩ | ⟨_, _, h⟩ <;>
        simp [h, hsource, htarget]
    · obtain ⟨i, a, ha, rfl⟩ := holdsAt_of_mem hsource
      have hlookup := hs.lookup_hash (List.mem_of_getElem? ha)
      simp [chainBetween, hlookup, lookup_of_not_mem hs htarget, hsource, htarget, bind, Except.bind]
  · simp [chainBetween, lookup_of_not_mem hs hsource, hsource, bind, Except.bind]

/-- What asking for the chain from one hash to another comes to. -/
structure Charted (s : Store) (source target : Digest) : Prop where
  /-- Where all stops are signed, the chain has one link to each of them. -/
  linked : ∀ {i j : Nat}, s.HoldsAt i source → s.HoldsAt j target → i ≤ j →
    (∀ k ∈ s.stops i j, s.SignedAt k) →
    ∃ chain, s.chainBetween source target = .ok chain ∧
      s.Connected i (s.stops i j) chain.links ∧ (chain.links = [] ↔ i = j)
  unsigned : ∀ {i j : Nat}, s.HoldsAt i source → s.HoldsAt j target → i ≤ j →
    ¬(∀ k ∈ s.stops i j, s.SignedAt k) →
    ∃ k, s.FirstUnsigned (s.stops i j) k ∧
      s.chainBetween source target = .error (.missingSignature k)
  backwards : ∀ {i j : Nat}, s.HoldsAt i source → s.HoldsAt j target →
    (s.chainBetween source target = .error (.invalidRange i j) ↔ j < i)
  /-- Of the two hashes, the first that is not stored is reported. -/
  missing : ∀ hash, s.chainBetween source target = .error (.notFound hash) ↔
    [source, target].find? (· ∉ s.hashes) = some hash
  /-- There is no other error. -/
  errors : ∀ e, s.chainBetween source target = .error e →
    (∃ k, e = .missingSignature k) ∨ (∃ i j, e = .invalidRange i j) ∨ ∃ hash, e = .notFound hash

/-- **A chain has the shape of its blocks.** What asking for a chain comes to is told by where the
authority changes, which blocks are signed and where the two hashes are stored. -/
theorem chainBetween_charted (hs : s.Reachable) (source target : Digest) :
    s.Charted source target := by
  have hs := hs.coherent
  constructor
  case linked =>
    rintro i j ⟨a, ha, rfl⟩ ⟨b, hb, rfl⟩ hij hsigned
    rcases chainBetween_cases hs ha hb hij with ⟨links, hlinks, hconnected⟩ | ⟨k, hfirst, _⟩
    · exact ⟨⟨links⟩, hlinks, hconnected, hconnected.eq_nil_iff.trans (stops_eq_nil_iff hij)⟩
    · exact absurd (hsigned k hfirst.mem) hfirst.unsigned
  case unsigned =>
    rintro i j ⟨a, ha, rfl⟩ ⟨b, hb, rfl⟩ hij hunsigned
    rcases chainBetween_cases hs ha hb hij with ⟨links, _, hconnected⟩ | hfirst
    · exact absurd hconnected.signedAt hunsigned
    · exact hfirst
  case backwards =>
    rintro i j ⟨a, ha, rfl⟩ ⟨b, hb, rfl⟩
    refine ⟨fun hrange => ?_, chainBetween_backwards hs ha hb⟩
    by_contra hji
    rcases chainBetween_cases hs ha hb (Nat.not_lt.1 hji) with ⟨_, hlinks, _⟩ | ⟨_, _, herror⟩
    · rw [hlinks] at hrange
      cases hrange
    · rw [herror] at hrange
      cases hrange
  case missing => exact fun hash => chainBetween_eq_notFound_iff hs
  case errors =>
    intro e he
    cases hmissing : [source, target].find? (· ∉ s.hashes) with
    | some hash =>
      rw [(chainBetween_eq_notFound_iff hs).2 hmissing] at he
      cases he
      exact .inr (.inr ⟨hash, rfl⟩)
    | none =>
      have hstored : source ∈ s.hashes ∧ target ∈ s.hashes := by simpa using hmissing
      obtain ⟨i, a, ha, rfl⟩ := holdsAt_of_mem hstored.1
      obtain ⟨j, b, hb, rfl⟩ := holdsAt_of_mem hstored.2
      rcases chainBetween_outcome hs ha hb with ⟨_, h⟩ | ⟨k, h⟩ | ⟨m, n, h⟩
      · rw [h] at he
        cases he
      · rw [h] at he
        cases he
        exact .inl ⟨k, rfl⟩
      · rw [h] at he
        cases he
        exact .inr (.inl ⟨m, n, rfl⟩)

open Transparent in
/-- The chain stops where the authority changes and at the last block; asked for the other way round,
there is none. -/
theorem chainBetween_charted_rotated :
    ∃ a b links, rotated.blocks[0]? = some a ∧ rotated.blocks[3]? = some b ∧
      rotated.stops 0 3 = [2, 3] ∧ rotated.chainBetween a.hash b.hash = .ok ⟨links⟩ ∧
      rotated.Connected 0 [2, 3] links ∧
      rotated.chainBetween b.hash a.hash = .error (.invalidRange 3 0) := by
  obtain ⟨a, ha⟩ : ∃ a, rotated.blocks[0]? = some a := ⟨_, rfl⟩
  obtain ⟨b, hb⟩ : ∃ b, rotated.blocks[3]? = some b := ⟨_, rfl⟩
  have hstops : rotated.stops 0 3 = [2, 3] := by decide +kernel
  have hsigned : ∀ k ∈ rotated.stops 0 3, rotated.SignedAt k := by
    rw [hstops]
    simp only [List.forall_mem_cons, List.not_mem_nil, false_imp_iff, implies_true, and_true]
    exact ⟨⟨_, _, rfl, rfl⟩, ⟨_, _, rfl, rfl⟩⟩
  obtain ⟨⟨links⟩, hchain, hconnected, _⟩ :=
    (chainBetween_charted rotated_reachable a.hash b.hash).linked ⟨a, ha, rfl⟩ ⟨b, hb, rfl⟩
      (by decide) hsigned
  have hback := (chainBetween_charted rotated_reachable b.hash a.hash).backwards
    ⟨b, hb, rfl⟩ ⟨a, ha, rfl⟩
  exact ⟨a, b, links, ha, hb, hstops, hchain, hstops ▸ hconnected, hback.2 (by decide)⟩

end CosignedLedger.Store
