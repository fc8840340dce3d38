import CosignedLedger.Crypto.Signer
import CosignedLedger.Proofs.Authorised
import CosignedLedger.Proofs.Roster

/-!
# A cryptography to see through

What is proved of ledgers holds for any cryptography. Here is one that can be worked out by hand: a
hash is the front of what is hashed, the combined key of an authority is its keys in a row, and a
signature is that key followed by the message.

* `Transparent.next`: the block that comes next, signed by the authority of the last one.
* `Transparent.build`: the store that a plan of authorities and payloads gives.
* `Transparent.build_reachable`, `Transparent.build_authorised`: whatever the plan, the store can
  be reached and its blocks are authorised.
* `Transparent.scheme`, `Transparent.accepts_signer`: keys for it, and what they sign together.
-/

namespace CosignedLedger

namespace Transparent

/-- A one, so that no hash is zero, and the first bytes of what is hashed. -/
def hash (bytes : Bytes) : Digest :=
  ⟨(1 :: bytes ++ List.replicate 31 0).take 32, by
    simp only [List.length_take, List.length_append, List.length_cons, List.length_replicate]
    omega⟩

def crypto : Crypto where
  hash := hash
  aggregateKey members := .ok ⟨members.flatMap (·.publicKey)⟩
  verify key message signature :=
    if signature = key.bytes ++ message then .ok () else .error .verificationFailed

def sign (authority : Roster) (message : Bytes) : Bytes :=
  (Authority.members authority).flatMap (·.publicKey) ++ message

theorem accepts_sign (authority : Roster) (message : Bytes) :
    crypto.Accepts authority message (sign authority message) := by
  refine ⟨_, rfl, ?_⟩
  simp [crypto, sign]

/-- Keys are the front of their material, and what they sign together is as above. -/
def scheme : Scheme Bytes where
  crypto := crypto
  keyOfMaterial material := .ok (material.take 8)
  publicKey key := key
  sign keys message := .ok (keys.flatten ++ message)

theorem accepts_signer (signer : Signer Bytes) (message : Bytes) :
    ∃ signature, signer.sign scheme message = .ok signature ∧
      crypto.Accepts (signer.roster scheme) message signature := by
  refine ⟨_, rfl, _, rfl, ?_⟩
  have hkeys : (signer.roster scheme).members.flatMap (·.publicKey) =
      (signer.members.map (·.2)).flatten := by
    simp [Signer.roster, scheme, List.flatMap_def, Function.comp_def]
  simp [crypto, Roster.authority_members, hkeys]

theorem take_hash_header (h : Header) :
    (hash h.canonicalBytes).bytes.take 9 = 1 :: Bytes.ofNatLE 8 h.index.toNat := by
  have hlen := Bytes.length_ofNatLE 8 h.index.toNat
  simp only [hash, Header.canonicalBytes, List.take_take, List.cons_append, List.append_assoc]
  rw [Nat.min_eq_left (by omega), List.take_succ_cons, List.take_left' hlen]

theorem index_eq_of_hash_eq {a b : Block} (ha : a.Hashed crypto) (hb : b.Hashed crypto)
    (h : a.hash = b.hash) : a.index = b.index := by
  have hshown : 1 :: Bytes.ofNatLE 8 a.index = 1 :: Bytes.ofNatLE 8 b.index := by
    rw [Block.index, Block.index, ← take_hash_header, ← take_hash_header]
    have hheader : hash a.header.canonicalBytes = hash b.header.canonicalBytes := by
      have ha := ha.header
      have hb := hb.header
      simp only [crypto] at ha hb
      rw [ha, hb, h]
    rw [hheader]
  have hlt : ∀ x : Block, x.index < Bytes.capacity 8 := fun x => x.header.index.toNat_lt
  exact Bytes.ofNatLE_inj (hlt a) (hlt b) (List.tail_eq_of_cons_eq hshown)

theorem nodup_hashes {blocks : List Block} (hashed : ∀ b ∈ blocks, b.Hashed crypto)
    (position : ∀ {i : Nat} {b : Block}, blocks[i]? = some b → b.index = i) :
    (blocks.map (·.hash)).Nodup := by
  rw [List.Nodup, List.pairwise_iff_getElem]
  intro i j hi hj hij hsame
  rw [List.length_map] at hi hj
  rw [List.getElem_map, List.getElem_map] at hsame
  have hindex := index_eq_of_hash_eq (hashed _ (List.getElem_mem hi)) (hashed _ (List.getElem_mem hj))
    hsame
  rw [position (List.getElem?_eq_getElem hi), position (List.getElem?_eq_getElem hj)] at hindex
  exact Nat.ne_of_lt hij hindex

theorem hash_ne_zero (bytes : Bytes) : hash bytes ≠ .zero := by
  intro h
  have := congrArg (·.bytes.head?) h
  simp [hash, Digest.zero, Digest.fill] at this

variable {s : Store} {authority : Roster} {payload : Bytes}

def next (s : Store) (authority : Roster) (payload : Bytes) : Block :=
  let draft := Block.draft crypto (UInt64.ofNat s.size) s.lastHash authority payload
  match s.last? with
  | none => draft
  | some previous => draft.withSignature (sign previous.authority draft.hash.bytes)

theorem next_header : (next s authority payload).header =
    ⟨UInt64.ofNat s.size, s.lastHash, hash payload, authority⟩ := by
  unfold next
  cases s.last? <;> rfl

theorem next_hashed : (next s authority payload).Hashed crypto := by
  unfold next
  cases s.last? <;> exact ⟨rfl, rfl⟩

theorem next_signed {previous : Block} (h : s.last? = some previous) :
    (next s authority payload).SignedAfter crypto previous := by
  unfold next
  rw [h]
  exact ⟨_, rfl, accepts_sign _ _⟩

theorem next_index (hsize : s.size < Bytes.capacity 8) :
    (next s authority payload).index = s.size := by
  rw [Block.index, next_header]
  exact UInt64.toNat_ofNat_of_lt' hsize

theorem admits_next (hs : s.Reachable) (hashed : ∀ b ∈ s.blocks, b.Hashed crypto)
    (hsize : s.size < Bytes.capacity 8) : s.Admits (next s authority payload) where
  index := next_index hsize
  fresh := by
    rw [hs.coherent.indexed.fresh_iff]
    intro b hb heq
    obtain ⟨i, hi⟩ := List.getElem?_of_mem hb
    have hlt := (List.getElem?_eq_some_iff.1 hi).1
    have hindex := index_eq_of_hash_eq (hashed b hb) next_hashed heq
    rw [hs.coherent.position hi, next_index hsize, Store.size] at hindex
    omega
  previous := by rw [Block.previousHash, next_header]
  nonzero _ := by
    rw [← next_hashed.header]
    exact hash_ne_zero _

def grow (s : Store) (plan : List (Roster × Bytes)) : Store :=
  plan.foldl (fun s p => s.publish (next s p.1 p.2)) s

/-- The store with the blocks of a plan, which says what each block records and holds. -/
def build (plan : List (Roster × Bytes)) : Store := grow .empty plan

theorem grow_reachable_authorised {plan : List (Roster × Bytes)} (hs : s.Reachable)
    (ha : Authorised crypto s.blocks) (hsize : s.size + plan.length ≤ Bytes.capacity 8) :
    (grow s plan).Reachable ∧ Authorised crypto (grow s plan).blocks := by
  induction plan generalizing s with
  | nil => exact ⟨hs, ha⟩
  | cons p plan ih =>
    rw [List.length_cons] at hsize
    have hadmits : s.Admits (next s p.1 p.2) := admits_next hs ha.hashed (by omega)
    have hs' := hs.publish (Store.check_eq_ok_iff.2 hadmits)
    refine ih hs' ?_ ?_
    · exact ha.append hs'.coherent.toConsecutive next_hashed fun _ hlast => next_signed hlast
    · simp only [Store.size, Store.publish, List.length_append, List.length_singleton] at hsize ⊢
      omega

theorem build_reachable {plan : List (Roster × Bytes)} (h : plan.length ≤ Bytes.capacity 8) :
    (build plan).Reachable :=
  (grow_reachable_authorised .empty .nil (by simpa [Store.size, Store.empty] using h)).1

theorem build_authorised {plan : List (Roster × Bytes)} (h : plan.length ≤ Bytes.capacity 8) :
    Authorised crypto (build plan).blocks :=
  (grow_reachable_authorised .empty .nil (by simpa [Store.size, Store.empty] using h)).2

def one (key : UInt8) : Roster := ⟨[⟨⟨"a"⟩, [key]⟩]⟩

/-- Blocks whose authority changes and changes back. -/
def rotated : Store := build [(one 1, [10]), (one 1, [11]), (one 2, [12]), (one 1, [13])]

theorem rotated_reachable : rotated.Reachable := build_reachable (by decide)

theorem rotated_authorised : Authorised crypto rotated.blocks := build_authorised (by decide)

end Transparent

end CosignedLedger
