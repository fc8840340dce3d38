import CosignedLedger.Proofs.Wire.Exact

/-!
# What canonical bytes commit to

Headers are hashed in a form in which every address, key and roster follows its length in four
bytes. As long as no length is too large for these, two headers with the same bytes are equal.

* `Bytes.counted_append_inj`: what follows its length can be told from what comes after it.
* `Member.canonicalBytes_append_inj`, `Roster.canonicalBytes_inj`, `Header.canonicalBytes_inj`.
* `Header.Collide`: what a hash would have to do to take one header for another.
-/

namespace CosignedLedger

namespace Bytes

theorem ofText_inj {s t : String} (h : ofText s = ofText t) : s = t := by
  have hs : toText? (ofText s) = some t := toText?_eq_some_iff.2 h
  rw [toText?_eq_some_iff.2 rfl] at hs
  cases hs
  rfl

theorem count32_inj {m n : Nat} (hm : m < UInt32.size) (hn : n < UInt32.size)
    (h : count32 m = count32 n) : m = n :=
  @ofNatLE_inj 4 m n hm hn h

theorem counted_append_inj {a b r s : Bytes} (ha : a.length < UInt32.size)
    (hb : b.length < UInt32.size)
    (h : count32 a.length ++ (a ++ r) = count32 b.length ++ (b ++ s)) : a = b ∧ r = s := by
  obtain ⟨hcount, hrest⟩ := List.append_inj h (by simp [count32])
  exact List.append_inj hrest (count32_inj ha hb hcount)

end Bytes

namespace Member

theorem length_canonicalBytes (m : Member) : m.canonicalBytes.length =
    8 + (Bytes.ofText m.address.name).length + m.publicKey.length := by
  simp only [canonicalBytes, Bytes.count32, List.length_append, Bytes.length_ofNatLE]
  omega

/-- A member whose form is short enough can be told from what comes after it. -/
theorem canonicalBytes_append_inj {m n : Member} {r s : Bytes}
    (hm : m.canonicalBytes.length < UInt32.size) (hn : n.canonicalBytes.length < UInt32.size)
    (h : m.canonicalBytes ++ r = n.canonicalBytes ++ s) : m = n ∧ r = s := by
  rw [length_canonicalBytes] at hm hn
  simp only [canonicalBytes, List.append_assoc] at h
  obtain ⟨haddress, hafter⟩ := Bytes.counted_append_inj (by omega) (by omega) h
  obtain ⟨hkey, hrest⟩ := Bytes.counted_append_inj (by omega) (by omega) hafter
  obtain ⟨⟨name⟩, key⟩ := m
  obtain ⟨⟨name'⟩, key'⟩ := n
  obtain rfl : name = name' := Bytes.ofText_inj haddress
  obtain rfl : key = key' := hkey
  exact ⟨rfl, hrest⟩

theorem canonicalBytes_ne_nil (m : Member) : m.canonicalBytes ≠ [] := by
  have := m.length_canonicalBytes
  exact List.ne_nil_of_length_pos (by omega)

theorem flatMap_canonicalBytes_inj {ms ns : List Member} (hlen : ms.length = ns.length)
    (hms : (ms.flatMap canonicalBytes).length < UInt32.size)
    (h : ms.flatMap canonicalBytes = ns.flatMap canonicalBytes) : ms = ns := by
  induction ms generalizing ns with
  | nil => exact (List.length_eq_zero_iff.1 hlen.symm).symm
  | cons m ms ih =>
    cases ns with
    | nil => cases hlen
    | cons n ns =>
      have hns := congrArg List.length h
      simp only [List.flatMap_cons, List.length_append] at h hms hns
      obtain ⟨rfl, hrest⟩ := canonicalBytes_append_inj (by omega) (by omega) h
      rw [ih (by simpa using hlen) (by omega) hrest]

end Member

/-- A roster whose form is short enough is determined by it. The other roster has a form of the
same length. -/
theorem Roster.canonicalBytes_inj {r s : Roster} (hr : r.canonicalBytes.length < UInt32.size)
    (h : r.canonicalBytes = s.canonicalBytes) : r = s := by
  have hs := congrArg List.length h
  obtain ⟨ms⟩ := r
  obtain ⟨ns⟩ := s
  have hms := Format.length_le_flatMap Member.canonicalBytes_ne_nil ms
  have hns := Format.length_le_flatMap Member.canonicalBytes_ne_nil ns
  simp only [canonicalBytes, List.length_append] at h hr hs
  obtain ⟨hcount, hmembers⟩ := List.append_inj h (by simp [Bytes.count32])
  have hlen : ms.length = ns.length := Bytes.count32_inj (by omega) (by omega) hcount
  rw [Member.flatMap_canonicalBytes_inj hlen (by omega) hmembers]

theorem Header.canonicalBytes_inj {h h' : Header}
    (hroster : h.authority.canonicalBytes.length < UInt32.size)
    (heq : h.canonicalBytes = h'.canonicalBytes) : h = h' := by
  obtain ⟨index, previousHash, payloadHash, authority⟩ := h
  obtain ⟨index', previousHash', payloadHash', authority'⟩ := h'
  simp only [canonicalBytes, List.append_assoc] at heq
  obtain ⟨hindex, heq⟩ := List.append_inj heq (by simp)
  obtain ⟨hprevious, heq⟩ := List.append_inj heq (by rw [Digest.length_eq, Digest.length_eq])
  obtain ⟨hpayload, heq⟩ := List.append_inj heq (by rw [Digest.length_eq, Digest.length_eq])
  obtain ⟨_, hauthority⟩ := List.append_inj heq (by simp [Bytes.count32])
  obtain rfl : index = index' :=
    UInt64.toNat_inj.1 (@Bytes.ofNatLE_inj 8 _ _ index.toNat_lt index'.toNat_lt hindex)
  obtain rfl : previousHash = previousHash' := Digest.ext hprevious
  obtain rfl : payloadHash = payloadHash' := Digest.ext hpayload
  obtain rfl : authority = authority' := Roster.canonicalBytes_inj hroster hauthority
  rfl

/-- Two headers are hashed alike though what is hashed of them differs. -/
def Header.Collide (c : Crypto) (h h' : Header) : Prop :=
  h.canonicalBytes ≠ h'.canonicalBytes ∧ c.hash h.canonicalBytes = c.hash h'.canonicalBytes

end CosignedLedger
