import CosignedLedger.Proofs.Canonical
import CosignedLedger.Proofs.Transparent
import CosignedLedger.Proofs.Wire.Layout

/-!
# What the hash of a block commits to

A block is known by its hash, which is the hash of its header, and the header states the hash of the
payload. So two blocks with the same hash have the same header and the same payload, unless the hash
takes two different strings for one, and then the strings can be read off the two blocks. This rests
on the lengths in what is hashed of a header: they have four bytes, and a block that has come in
within a limit of so many bytes has no length that is larger.

* `Roster.length_canonicalBytes_le`: what is hashed of a roster is no longer than its layout.
* `Block.commits`: what two blocks with the same hash have in common.
* `block_hash_commits`: so it is for all blocks that decoding accepts.
-/

namespace CosignedLedger

theorem Member.length_canonicalBytes_le (m : Member) : m.canonicalBytes.length ≤ m.layout.length := by
  rw [length_canonicalBytes]
  simp only [layout, Bytes.layout, List.length_append, Bytes.length_ofNatLE]
  omega

theorem Roster.length_canonicalBytes_le (r : Roster) : r.canonicalBytes.length ≤ r.layout.length := by
  obtain ⟨members⟩ := r
  have hmembers : (members.flatMap Member.canonicalBytes).length ≤
      (members.flatMap Member.layout).length := by
    induction members with
    | nil => exact Nat.le_refl 0
    | cons m ms ih =>
      simp only [List.flatMap_cons, List.length_append]
      exact Nat.add_le_add m.length_canonicalBytes_le ih
  simp only [canonicalBytes, layout, Bytes.count32, List.length_append, Bytes.length_ofNatLE]
  omega

theorem Block.length_canonicalBytes_le (b : Block) :
    b.authority.canonicalBytes.length ≤ b.layout.length := by
  have hroster := b.authority.length_canonicalBytes_le
  simp only [layout, Header.layout, List.length_append]
  rw [authority] at hroster ⊢
  omega

section
variable {c : Crypto} {a b : Block}

namespace Block

theorem collide_or_header_eq (ha : a.Hashed c) (hb : b.Hashed c)
    (hshort : a.authority.canonicalBytes.length < UInt32.size) (hhash : a.hash = b.hash) :
    a.header.Collide c b.header ∨ a.header = b.header := by
  by_cases hbytes : a.header.canonicalBytes = b.header.canonicalBytes
  · exact .inr (Header.canonicalBytes_inj hshort hbytes)
  · exact .inl ⟨hbytes, by rw [ha.header, hb.header, hhash]⟩

theorem commits (ha : a.Hashed c) (hb : b.Hashed c)
    (hshort : a.authority.canonicalBytes.length < UInt32.size) (hhash : a.hash = b.hash) :
    a.header = b.header ∧ a.payload = b.payload ∨ a.header.Collide c b.header ∨
      a.payload ≠ b.payload ∧ c.hash a.payload = c.hash b.payload := by
  rcases collide_or_header_eq ha hb hshort hhash with hcollide | hheader
  · exact .inr (.inl hcollide)
  · by_cases hpayload : a.payload = b.payload
    · exact .inl ⟨hheader, hpayload⟩
    · exact .inr (.inr ⟨hpayload, by rw [ha.payload, hb.payload, hheader]⟩)

end Block

/-- A block that has come in within the limit has a roster that is short enough. -/
theorem short_of_decodeBlock {limit : Nat} {bytes : Bytes} (hlimit : limit < UInt32.size)
    (h : (decodeBlock c limit bytes).result = .ok b) :
    b.authority.canonicalBytes.length < UInt32.size := by
  obtain ⟨hfit, hdecode, _⟩ := decodeBlock_eq_ok_iff.1 h
  have hcapacity : UInt32.size < Bytes.capacity 8 := by decide
  have hlayout : b.layout <+: bytes := by
    rw [← Block.format_write]
    exact (Block.format_exact.decode_eq_ok_iff (by omega)).1 hdecode
  have hroster := b.length_canonicalBytes_le
  have hprefix := hlayout.length_le
  omega

end

/-- **The hash of a block commits to its header and its payload.** Headers with the same canonical
bytes are equal, as long as the form of one roster is short enough for its length to be told; its
members are then fewer, and their addresses and keys shorter, as well. So two blocks that decoding
accepts and that have the same hash differ at most in their signatures, or else what is hashed of
them shows a collision: their headers, or their payloads. -/
theorem block_hash_commits (c : Crypto) :
    (∀ h h' : Header, h.authority.canonicalBytes.length < UInt32.size →
      h.canonicalBytes = h'.canonicalBytes → h = h') ∧
    ∀ (limit : Nat) (bytes bytes' : Bytes) (b b' : Block), limit < UInt32.size →
      (decodeBlock c limit bytes).result = .ok b → (decodeBlock c limit bytes').result = .ok b' →
      b.hash = b'.hash →
      b.header = b'.header ∧ b.payload = b'.payload ∨ b.header.Collide c b'.header ∨
        b.payload ≠ b'.payload ∧ c.hash b.payload = c.hash b'.payload := by
  refine ⟨fun h h' hshort heq => Header.canonicalBytes_inj hshort heq, ?_⟩
  intro limit bytes bytes' b b' hlimit hb hb' hhash
  have hhashed := (decodeBlock_eq_ok_iff.1 hb).2.2
  have hhashed' := (decodeBlock_eq_ok_iff.1 hb').2.2
  exact Block.commits hhashed hhashed' (short_of_decodeBlock hlimit hb) hhash

open Transparent in
/-- Only the front of a payload shows in this hash, so payloads that differ further on collide. -/
theorem block_hash_commits_collided :
    ∃ b b' : Block, ∃ bytes bytes' : Bytes, (decodeBlock crypto 1000 bytes).result = .ok b ∧
      (decodeBlock crypto 1000 bytes').result = .ok b' ∧ b.hash = b'.hash ∧ b.header = b'.header ∧
      b.payload ≠ b'.payload ∧ crypto.hash b.payload = crypto.hash b'.payload := by
  let long (last : UInt8) : Block := .genesis crypto (one 1) (List.replicate 40 0 ++ [last])
  have hdecode : ∀ last : UInt8, (Block.format.write (long last)).length ≤ 1000 →
      (decodeBlock crypto 1000 (Block.format.write (long last))).result = .ok (long last) :=
    fun last hfit => decodeBlock_write ⟨rfl, rfl⟩ hfit (by decide)
  have hone := hdecode 1 (by decide +kernel)
  have htwo := hdecode 2 (by decide +kernel)
  have hheader : (long 1).header = (long 2).header := rfl
  have hpayload : (long 1).payload ≠ (long 2).payload := by decide +kernel
  refine ⟨long 1, long 2, _, _, hone, htwo, rfl, hheader, ?_⟩
  rcases (block_hash_commits crypto).2 1000 _ _ _ _ (by decide) hone htwo rfl with
    ⟨_, heq⟩ | ⟨hne, _⟩ | hcollide
  · exact absurd heq hpayload
  · exact absurd (congrArg Header.canonicalBytes hheader) hne
  · exact hcollide

end CosignedLedger
