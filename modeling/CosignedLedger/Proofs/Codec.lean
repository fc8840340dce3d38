import CosignedLedger.Proofs.Wire.Exact

/-!
# What decoding accepts

* `Block.Hashed`: a block states the hashes that its header and its payload have.
* `decodeBlock_eq_ok_iff`, `decodeChain_eq_ok_iff`: what is accepted is within the limit, begins
  with the encoding of the value, and, for a block, is hashed.
* `decodeBlock_write`, `decodeChain_write`: what is written and within the limit is accepted.
-/

namespace CosignedLedger

/-- The hashes that a block states are those of its header and its payload. -/
structure Block.Hashed (c : Crypto) (b : Block) : Prop where
  header : c.hash b.header.canonicalBytes = b.hash
  payload : c.hash b.payload = b.header.payloadHash

namespace Crypto

@[simp] theorem result_runHash {ε : Type} (c : Crypto) (bytes : Bytes) :
    (c.runHash bytes : Metered ε Digest).result = .ok (c.hash bytes) := rfl

@[simp] theorem result_runAggregate {α : Type} [Authority α] (c : Crypto) (authority : α) :
    (c.runAggregate authority).result = c.aggregateKey (Authority.members authority) := rfl

@[simp] theorem result_runVerify (c : Crypto) (key : AggregateKey) (message signature : Bytes) :
    (c.runVerify key message signature).result = c.verify key message signature := rfl

end Crypto

theorem Format.decodeWithin_eq_ok_iff {α : Type} {f : Format α} {limit : Nat} {bytes : Bytes}
    {a : α} : f.decodeWithin limit bytes = .ok a ↔ bytes.length ≤ limit ∧ f.decode bytes = .ok a := by
  unfold Format.decodeWithin
  split
  · rename_i h
    simp [Nat.not_le.2 h]
  · rename_i h
    simp [Nat.not_lt.1 h, Except.mapError_eq_ok]

theorem decodeBlock_eq_ok_iff {c : Crypto} {limit : Nat} {bytes : Bytes} {b : Block} :
    (decodeBlock c limit bytes).result = .ok b ↔
      bytes.length ≤ limit ∧ Block.format.decode bytes = .ok b ∧ b.Hashed c := by
  simp only [decodeBlock, Metered.result_bind, Metered.result_ofExcept, Except.bind_eq_ok,
    Crypto.result_runHash, Except.ok.injEq, exists_eq_left', Format.decodeWithin_eq_ok_iff]
  constructor
  · rintro ⟨b', ⟨hlen, hdecode⟩, h⟩
    split at h
    · cases h
    · rename_i hpayload
      simp only [Metered.result_bind, Crypto.result_runHash, Except.bind_eq_ok, Except.ok.injEq,
        exists_eq_left'] at h
      split at h
      · cases h
      · rename_i hheader
        cases h
        exact ⟨hlen, hdecode, Decidable.not_not.1 hheader, Decidable.not_not.1 hpayload⟩
  · rintro ⟨hlen, hdecode, hhashed⟩
    refine ⟨b, ⟨hlen, hdecode⟩, ?_⟩
    rw [if_neg (Decidable.not_not.2 hhashed.payload)]
    simp only [Metered.result_bind, Crypto.result_runHash, Except.bind_eq_ok, Except.ok.injEq,
      exists_eq_left']
    rw [if_neg (Decidable.not_not.2 hhashed.header), Metered.result_pure]

theorem decodeChain_eq_ok_iff {limit : Nat} {bytes : Bytes} {chain : Chain} :
    decodeChain limit bytes = .ok chain ↔
      bytes.length ≤ limit ∧ Chain.format.decode bytes = .ok chain :=
  Format.decodeWithin_eq_ok_iff

theorem decodeBlock_write {c : Crypto} {limit : Nat} {b : Block} (hb : b.Hashed c)
    (hfit : (Block.format.write b).length ≤ limit) (hlimit : limit < Bytes.capacity 8) :
    (decodeBlock c limit (Block.format.write b)).result = .ok b :=
  decodeBlock_eq_ok_iff.2
    ⟨hfit, Block.format_exact.decode_write (Nat.lt_of_le_of_lt hfit hlimit), hb⟩

theorem decodeChain_write {limit : Nat} {chain : Chain}
    (hfit : (Chain.format.write chain).length ≤ limit) (hlimit : limit < Bytes.capacity 8) :
    decodeChain limit (Chain.format.write chain) = .ok chain :=
  decodeChain_eq_ok_iff.2
    ⟨hfit, Chain.format_exact.decode_write (Nat.lt_of_le_of_lt hfit hlimit)⟩

end CosignedLedger
