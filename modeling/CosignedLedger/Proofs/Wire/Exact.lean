import CosignedLedger.Codec
import CosignedLedger.Proofs.Outcome

/-!
# Exact wire formats

A format is exact if reading gives a value and a rest precisely when the bytes are that value
written and then the rest. Decoding then undoes encoding, and every accepted byte string begins
with the one encoding of its value.

* `Format.Exact`: the law, for byte strings whose length can be told in eight bytes.
* `Format.exact_word` to `Format.Exact.list`: every way of building formats keeps it.
* `Block.format_exact`, `Chain.format_exact`, `Message.format_exact`: the formats that travel and
  are stored.
* `Format.Exact.decode_eq_ok_iff`: a value is decoded precisely from the byte strings that its
  encoding begins.
-/

namespace CosignedLedger

namespace Format
variable {α β : Type}

/-- Reading takes what writing makes and nothing else. Lengths are written in eight bytes, so byte
strings that are longer than these can tell are left out. -/
def Exact (f : Format α) : Prop :=
  ∀ ⦃bytes : Bytes⦄ (a : α) (rest : Bytes), bytes.length < Bytes.capacity 8 →
    (f.read bytes = .ok (a, rest) ↔ bytes = f.write a ++ rest)

theorem split_eq_ok_iff {fault : WireFault} {count : Nat} {bytes front rest : Bytes} :
    split fault count bytes = .ok (front, rest) ↔ front.length = count ∧ bytes = front ++ rest := by
  dsimp only [split]
  constructor
  · intro h
    split at h
    · rename_i hlen
      cases h
      exact ⟨hlen, (List.take_append_drop count bytes).symm⟩
    · cases h
  · rintro ⟨rfl, rfl⟩
    simp

theorem fixed_read_eq_ok_iff {width n : Nat} {bytes rest : Bytes} :
    (fixed width).read bytes = .ok (n, rest) ↔
      n < Bytes.capacity width ∧ bytes = Bytes.ofNatLE width n ++ rest := by
  simp only [fixed, Except.bind_eq_ok, Prod.exists, split_eq_ok_iff, Except.pure_eq_ok,
    Prod.mk.injEq]
  constructor
  · rintro ⟨front, rest, ⟨rfl, rfl⟩, rfl, rfl⟩
    exact ⟨Bytes.toNatLE_lt front, by rw [Bytes.ofNatLE_toNatLE]⟩
  · rintro ⟨hn, rfl⟩
    refine ⟨Bytes.ofNatLE width n, rest, ⟨by simp, rfl⟩, ?_, rfl⟩
    rw [Bytes.toNatLE_ofNatLE, Nat.mod_eq_of_lt hn]

theorem exact_word : word.Exact := by
  intro bytes a rest _
  simp only [word, Except.bind_eq_ok, Prod.exists, fixed_read_eq_ok_iff, Except.pure_eq_ok,
    Prod.mk.injEq]
  constructor
  · rintro ⟨n, rest, ⟨hn, rfl⟩, rfl, rfl⟩
    rw [UInt64.toNat_ofNat_of_lt' hn]
  · rintro rfl
    exact ⟨a.toNat, rest, ⟨a.toNat_lt, rfl⟩, by simp, rfl⟩

theorem exact_digest : digest.Exact := by
  intro bytes a rest _
  simp only [digest]
  constructor
  · intro h
    by_cases hlen : (bytes.take 32).length = 32
    · rw [Digest.ofBytes?, dif_pos hlen] at h
      cases h
      exact (List.take_append_drop 32 bytes).symm
    · rw [Digest.ofBytes?, dif_neg hlen] at h
      cases h
  · rintro rfl
    have htake : (a.bytes ++ rest).take 32 = a.bytes := by
      rw [← a.length_eq, List.take_left]
    have hdrop : (a.bytes ++ rest).drop 32 = rest := by
      rw [← a.length_eq, List.drop_left]
    rw [htake, hdrop, Digest.ofBytes?_bytes]

theorem exact_blob : blob.Exact := by
  intro bytes a rest hlen
  simp only [blob, Except.bind_eq_ok, Prod.exists, fixed_read_eq_ok_iff, split_eq_ok_iff]
  constructor
  · rintro ⟨n, rest', ⟨_, rfl⟩, rfl, rfl⟩
    rw [List.append_assoc]
  · rintro rfl
    simp only [List.length_append] at hlen
    exact ⟨a.length, a ++ rest, ⟨by omega, by rw [List.append_assoc]⟩, rfl, rfl⟩

theorem exact_text : text.Exact := by
  intro bytes a rest hlen
  simp only [text, blob, Except.bind_eq_ok, Prod.exists, fixed_read_eq_ok_iff, split_eq_ok_iff]
  constructor
  · rintro ⟨n, rest', ⟨_, rfl⟩, front, rest'', ⟨rfl, rfl⟩, h⟩
    cases htext : Bytes.toText? front with
    | none => simp [htext] at h
    | some s =>
      simp only [htext, Except.pure_eq_ok, Prod.mk.injEq] at h
      obtain ⟨rfl, rfl⟩ := h
      rw [Bytes.toText?_eq_some_iff.1 htext, List.append_assoc]
  · rintro rfl
    simp only [List.length_append] at hlen
    refine ⟨_, Bytes.ofText a ++ rest, ⟨?_, by rw [List.append_assoc]⟩, Bytes.ofText a, rest,
      ⟨rfl, rfl⟩, ?_⟩
    · omega
    · rw [Bytes.toText?_eq_some_iff.2 rfl]
      rfl

theorem length_le_flatMap {write : α → Bytes} (hne : ∀ a, write a ≠ []) (as : List α) :
    as.length ≤ (as.flatMap write).length := by
  induction as with
  | nil => exact Nat.le_refl 0
  | cons a as ih =>
    have := List.length_pos_iff.2 (hne a)
    simp only [List.flatMap_cons, List.length_append, List.length_cons]
    omega

theorem length_lt_of_append {bytes front rest : Bytes} {n : Nat} (h : bytes = front ++ rest)
    (hlen : bytes.length < n) : rest.length < n := by
  rw [h, List.length_append] at hlen
  omega

namespace Exact
variable {f : Format α} {g : Format β}

theorem option (hf : f.Exact) : f.option.Exact := by
  intro bytes a rest hlen
  cases bytes with
  | nil => cases a <;> simp [Format.option]
  | cons tag bytes =>
    have hlen' : bytes.length < Bytes.capacity 8 := by
      simp only [List.length_cons] at hlen
      omega
    simp only [Format.option]
    by_cases h0 : tag = 0
    · cases a <;> simp [h0]
    · rw [if_neg h0]
      by_cases h1 : tag = 1
      · rw [if_pos h1]
        simp only [Except.bind_eq_ok, Prod.exists, Except.pure_eq_ok, Prod.mk.injEq, hf _ _ hlen']
        cases a <;> simp [h1]
      · cases a <;> simp [h0, h1]

theorem pair (hf : f.Exact) (hg : g.Exact) : (f.pair g).Exact := by
  intro bytes p rest hlen
  obtain ⟨a, b⟩ := p
  simp only [Format.pair, Except.bind_eq_ok, Prod.exists, Except.pure_eq_ok, Prod.mk.injEq]
  constructor
  · rintro ⟨a', bytes', ha, b', rest', hb, ⟨rfl, rfl⟩, rfl⟩
    have hbytes := (hf _ _ hlen).1 ha
    have hlen' := length_lt_of_append hbytes hlen
    rw [hbytes, (hg _ _ hlen').1 hb, List.append_assoc]
  · intro hbytes
    rw [List.append_assoc] at hbytes
    have hlen' := length_lt_of_append hbytes hlen
    exact ⟨a, g.write b ++ rest, (hf _ _ hlen).2 hbytes, b, rest, (hg _ _ hlen').2 rfl, ⟨rfl, rfl⟩,
      rfl⟩

theorem readMany (hf : f.Exact) :
    ∀ {count : Nat} {bytes : Bytes} {as : List α} {rest : Bytes},
      bytes.length < Bytes.capacity 8 →
      (f.readMany count bytes = .ok (as, rest) ↔
        as.length = count ∧ bytes = as.flatMap f.write ++ rest) := by
  intro count
  induction count with
  | zero =>
    intro bytes as rest _
    simp only [Format.readMany, Except.ok.injEq, Prod.mk.injEq, List.length_eq_zero_iff]
    constructor
    · rintro ⟨rfl, rfl⟩
      exact ⟨rfl, rfl⟩
    · rintro ⟨rfl, rfl⟩
      exact ⟨rfl, rfl⟩
  | succ count ih =>
    intro bytes as rest hlen
    simp only [Format.readMany, Except.bind_eq_ok, Prod.exists, Except.pure_eq_ok, Prod.mk.injEq]
    constructor
    · rintro ⟨a, bytes', ha, as', rest', has, rfl, rfl⟩
      have hbytes := (hf _ _ hlen).1 ha
      have hlen' := length_lt_of_append hbytes hlen
      obtain ⟨hcount, hbytes'⟩ := (ih hlen').1 has
      refine ⟨by rw [List.length_cons, hcount], ?_⟩
      rw [hbytes, hbytes', List.flatMap_cons, List.append_assoc]
    · rintro ⟨hcount, hbytes⟩
      cases as with
      | nil => simp at hcount
      | cons a as =>
        rw [List.flatMap_cons, List.append_assoc] at hbytes
        have hlen' := length_lt_of_append hbytes hlen
        exact ⟨a, _, (hf _ _ hlen).2 hbytes, as, rest,
          (ih hlen').2 ⟨by simpa using hcount, rfl⟩, rfl, rfl⟩

/-- Every element takes up at least one byte, so the number of elements can be told if the number
of bytes can. -/
theorem list (hf : f.Exact) (hne : ∀ a, f.write a ≠ []) : f.list.Exact := by
  intro bytes as rest hlen
  simp only [Format.list, Except.bind_eq_ok, Prod.exists, fixed_read_eq_ok_iff]
  constructor
  · rintro ⟨n, bytes', ⟨_, hbytes⟩, h⟩
    have hlen' := length_lt_of_append hbytes hlen
    obtain ⟨rfl, rfl⟩ := (hf.readMany hlen').1 h
    rw [hbytes, List.append_assoc]
  · intro hbytes
    rw [List.append_assoc] at hbytes
    have hlen' := length_lt_of_append hbytes hlen
    have hcount : as.length < Bytes.capacity 8 := by
      have := length_le_flatMap hne as
      rw [List.length_append] at hlen'
      omega
    exact ⟨as.length, _, ⟨hcount, hbytes⟩, (hf.readMany hlen').2 ⟨rfl, rfl⟩⟩

theorem along (hf : f.Exact) {make : α → β} {parts : β → α} (hmake : ∀ b, make (parts b) = b)
    (hparts : ∀ a, parts (make a) = a) : (f.along make parts).Exact := by
  intro bytes b rest hlen
  simp only [Format.along, Except.bind_eq_ok, Prod.exists, Except.pure_eq_ok, Prod.mk.injEq]
  constructor
  · rintro ⟨a, rest, h, rfl, rfl⟩
    rw [hparts]
    exact (hf _ _ hlen).1 h
  · intro h
    exact ⟨parts b, rest, (hf _ _ hlen).2 h, hmake b, rfl⟩

theorem decode_eq_ok_iff (hf : f.Exact) {bytes : Bytes} {a : α}
    (hlen : bytes.length < Bytes.capacity 8) : f.decode bytes = .ok a ↔ f.write a <+: bytes := by
  simp only [decode, Except.map_eq_ok, Prod.exists, exists_and_right, exists_eq_right]
  constructor
  · rintro ⟨rest, h⟩
    exact ⟨rest, ((hf _ _ hlen).1 h).symm⟩
  · rintro ⟨rest, h⟩
    exact ⟨rest, (hf _ _ hlen).2 h.symm⟩

theorem decode_write (hf : f.Exact) {a : α} (hlen : (f.write a).length < Bytes.capacity 8) :
    f.decode (f.write a) = .ok a :=
  (hf.decode_eq_ok_iff hlen).2 (List.prefix_refl _)

end Exact

end Format

theorem Member.format_exact : Member.format.Exact :=
  (Format.exact_text.pair Format.exact_blob).along (fun _ => rfl) (fun _ => rfl)

theorem Member.format_write_ne_nil (m : Member) : Member.format.write m ≠ [] := by
  simp [Member.format, Format.along, Format.pair, Format.text, Format.blob, Bytes.ofNatLE]

theorem Roster.format_exact : Roster.format.Exact :=
  (Member.format_exact.list Member.format_write_ne_nil).along (fun _ => rfl) (fun _ => rfl)

theorem Header.format_exact : Header.format.Exact :=
  (Format.exact_word.pair (Format.exact_digest.pair (Format.exact_digest.pair
    Roster.format_exact))).along (fun _ => rfl) (fun _ => rfl)

theorem Block.format_exact : Block.format.Exact :=
  (Header.format_exact.pair (Format.exact_digest.pair (Format.exact_blob.pair
    Format.exact_blob.option))).along (fun _ => rfl) (fun _ => rfl)

theorem Link.format_exact : Link.format.Exact :=
  (Format.exact_digest.pair (Format.exact_digest.pair (Header.format_exact.pair
    (Roster.format_exact.pair Format.exact_blob)))).along (fun _ => rfl) (fun _ => rfl)

theorem Link.format_write_ne_nil (l : Link) : Link.format.write l ≠ [] := by
  simp [Link.format, Header.format, Format.along, Format.pair, Format.word, Bytes.ofNatLE]

theorem Chain.format_exact : Chain.format.Exact :=
  (Link.format_exact.list Link.format_write_ne_nil).along (fun _ => rfl) (fun _ => rfl)

namespace Message

theorem readContents_eq_ok_iff {tag : Nat} {m : Message} {bytes rest : Bytes}
    (hlen : bytes.length < Bytes.capacity 8) :
    readContents tag bytes = .ok (m, rest) ↔ tag = m.tag ∧ bytes = m.writeContents ++ rest := by
  unfold readContents
  split
  · simp only [Except.bind_eq_ok, Prod.exists, Except.pure_eq_ok, Prod.mk.injEq,
      Format.exact_blob _ _ hlen]
    cases m <;> simp [Message.tag, writeContents]
  · simp only [Except.bind_eq_ok, Prod.exists, Except.pure_eq_ok, Prod.mk.injEq,
      Format.exact_digest _ _ hlen]
    cases m <;> simp [Message.tag, writeContents]
  · have hpair := Format.exact_blob.pair Format.exact_blob.option
    simp only [Except.bind_eq_ok, Prod.exists, Except.pure_eq_ok, Prod.mk.injEq, hpair _ _ hlen]
    cases m <;> simp [Message.tag, writeContents]
  · rename_i h0 h1 h2
    cases m <;> simp_all [Message.tag]

theorem format_exact : Message.format.Exact := by
  intro bytes m rest hlen
  simp only [Message.format, Except.bind_eq_ok, Prod.exists, Format.fixed_read_eq_ok_iff]
  constructor
  · rintro ⟨tag, bytes', ⟨_, hbytes⟩, h⟩
    have hlen' := Format.length_lt_of_append hbytes hlen
    obtain ⟨rfl, rfl⟩ := (readContents_eq_ok_iff hlen').1 h
    rw [hbytes, List.append_assoc]
  · intro hbytes
    rw [List.append_assoc] at hbytes
    have hlen' := Format.length_lt_of_append hbytes hlen
    have htag : m.tag < Bytes.capacity 4 := by
      cases m <;> simp [Message.tag, Bytes.capacity]
    exact ⟨m.tag, _, ⟨htag, hbytes⟩, (readContents_eq_ok_iff hlen').2 ⟨rfl, rfl⟩⟩

end Message

end CosignedLedger
