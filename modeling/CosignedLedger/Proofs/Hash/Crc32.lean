import CosignedLedger.Hash.Crc32
import Mathlib.Data.Nat.Bitwise

/-!
# Bursts that a checksum notices

Two byte strings of one length that differ only within four bytes in a row have different
checksums, however long they are. A shift of the register is linear in exclusive or and can be
undone, so the register after four bytes tells which bytes they were.

* `Crc32.shift_xor`, `Crc32.toNat_of_toNat_shift_lt`: a shift is linear, and what it leaves below
  half the range of the register has only been halved.
* `Crc32.foldl_update_cases`: up to four bytes can be told from the register after them.
* `Crc32.checksum_burst_inj`: so they can from the checksum of a string in which they stand.
-/

namespace CosignedLedger.Crc32

theorem and_one_eq_one_iff (c : UInt32) : c &&& 1 = 1 ↔ c.toNat % 2 = 1 := by
  rw [← UInt32.toNat_inj, UInt32.toNat_and]
  exact Eq.congr_left (Nat.and_one_is_mod c.toNat)

theorem shift_of_odd {c : UInt32} (h : c.toNat % 2 = 1) : shift c = c >>> 1 ^^^ 0xEDB88320 := by
  rw [shift, if_pos ((and_one_eq_one_iff c).2 h)]

theorem shift_of_even {c : UInt32} (h : c.toNat % 2 ≠ 1) : shift c = c >>> 1 := by
  rw [shift, if_neg ((and_one_eq_one_iff c).not.2 h)]

theorem shift_xor (a b : UInt32) : shift (a ^^^ b) = shift a ^^^ shift b := by
  have hparity : (a ^^^ b).toNat % 2 = (a.toNat + b.toNat) % 2 := by
    rw [UInt32.toNat_xor, Nat.xor_mod_two_eq]
  by_cases ha : a.toNat % 2 = 1
  · by_cases hb : b.toNat % 2 = 1
    · have hcancel : ∀ x y p : UInt32, x ^^^ y = x ^^^ p ^^^ (y ^^^ p) := by
        intro x y p
        rw [UInt32.xor_comm y p, ← UInt32.xor_assoc, UInt32.xor_assoc x, UInt32.xor_self,
          UInt32.xor_zero]
      rw [shift_of_even (by omega), shift_of_odd ha, shift_of_odd hb, UInt32.shiftRight_xor]
      exact hcancel _ _ _
    · rw [shift_of_odd (by omega), shift_of_odd ha, shift_of_even hb, UInt32.shiftRight_xor]
      ac_rfl
  · by_cases hb : b.toNat % 2 = 1
    · rw [shift_of_odd (by omega), shift_of_even ha, shift_of_odd hb, UInt32.shiftRight_xor]
      ac_rfl
    · rw [shift_of_even (by omega), shift_of_even ha, shift_of_even hb, UInt32.shiftRight_xor]

theorem toNat_shiftRight_one (c : UInt32) : (c >>> 1).toNat = c.toNat / 2 := by
  rw [UInt32.toNat_shiftRight]
  exact Nat.shiftRight_eq_div_pow c.toNat 1

/-- The polynomial sets the highest bit, so a register without it has only been halved. -/
theorem toNat_of_toNat_shift_lt {c : UInt32} (h : (shift c).toNat < 2 ^ 31) :
    c.toNat = 2 * (shift c).toNat := by
  by_cases hc : c.toNat % 2 = 1
  · exfalso
    rw [shift_of_odd hc, UInt32.toNat_xor, toNat_shiftRight_one] at h
    have hlt : c.toNat / 2 < 2 ^ 31 := by
      have := c.toNat_lt
      omega
    have hpoly := Nat.xor_lt_two_pow hlt h
    rw [← Nat.xor_assoc, Nat.xor_self, Nat.zero_xor] at hpoly
    exact absurd hpoly (by decide)
  · rw [shift_of_even hc, toNat_shiftRight_one]
    omega

theorem repeat_shift_xor (n : Nat) (a b : UInt32) :
    Nat.repeat shift n (a ^^^ b) = Nat.repeat shift n a ^^^ Nat.repeat shift n b := by
  induction n with
  | zero => rfl
  | succ n ih => rw [Nat.repeat, Nat.repeat, Nat.repeat, ih, shift_xor]

theorem toNat_of_toNat_repeat_shift_lt {n : Nat} {c : UInt32}
    (h : (Nat.repeat shift n c).toNat * 2 ^ n < 2 ^ 32) :
    c.toNat = (Nat.repeat shift n c).toNat * 2 ^ n := by
  induction n generalizing c with
  | zero => exact (Nat.mul_one _).symm
  | succ n ih =>
    rw [Nat.repeat, Nat.pow_succ', ← Nat.mul_assoc, Nat.mul_right_comm] at h ⊢
    have hle := Nat.le_mul_of_pos_right (shift (Nat.repeat shift n c)).toNat (Nat.two_pow_pos n)
    have hhalf := toNat_of_toNat_shift_lt (c := Nat.repeat shift n c) (by omega)
    have hmul : (Nat.repeat shift n c).toNat * 2 ^ n =
        (shift (Nat.repeat shift n c)).toNat * 2 ^ n * 2 := by
      rw [hhalf, Nat.mul_assoc, Nat.mul_comm]
    rw [ih (by omega), hmul]

theorem repeat_shift_inj {n : Nat} {a b : UInt32}
    (h : Nat.repeat shift n a = Nat.repeat shift n b) : a = b := by
  have hzero : Nat.repeat shift n (a ^^^ b) = 0 := by
    rw [repeat_shift_xor, h, UInt32.xor_self]
  have hnone : (a ^^^ b).toNat = 0 := by
    rw [toNat_of_toNat_repeat_shift_lt (n := n), hzero]
    · rw [UInt32.toNat_zero, Nat.zero_mul]
    · rw [hzero, UInt32.toNat_zero, Nat.zero_mul]
      decide
  exact UInt32.xor_eq_zero_iff.1 (UInt32.toNat_inj.1 hnone)

theorem foldl_update_left_inj (bytes : Bytes) {c c' : UInt32}
    (h : bytes.foldl update c = bytes.foldl update c') : c = c' := by
  induction bytes generalizing c c' with
  | nil => exact h
  | cons b bytes ih => exact (UInt32.xor_left_inj _).1 (repeat_shift_inj (ih h))

theorem toNat_byte_xor_lt (b b' : UInt8) : (b.toUInt32 ^^^ b'.toUInt32).toNat < 2 ^ 8 := by
  rw [UInt32.toNat_xor, UInt8.toNat_toUInt32, UInt8.toNat_toUInt32]
  exact Nat.xor_lt_two_pow b.toNat_lt b'.toNat_lt

theorem foldl_update_cases {window window' : Bytes} (hlen : window.length = window'.length)
    (hfour : window.length ≤ 4) {c c' : UInt32}
    (h : window.foldl update c = window'.foldl update c') :
    (c ^^^ c').toNat < 2 ^ (8 * window.length) ∧ (c = c' → window = window') := by
  -- By induction on the bytes, the last of them first: what the registers have in common after them
  -- leaves so little room before them that one byte of difference shows.
  induction window generalizing window' c c' with
  | nil =>
    cases window' with
    | nil =>
      have hsame : c = c' := h
      rw [hsame, UInt32.xor_self]
      exact ⟨Nat.one_pos, fun _ => rfl⟩
    | cons b' bytes' => cases hlen
  | cons b bytes ih =>
    cases window' with
    | nil => cases hlen
    | cons b' bytes' =>
      have hlen' : bytes.length = bytes'.length := Nat.succ.inj hlen
      have hthree : bytes.length ≤ 3 := Nat.le_of_succ_le_succ hfour
      obtain ⟨hafter, hrest⟩ := ih hlen' (Nat.le_succ_of_le hthree) h
      -- The difference before the last eight shifts, and how much of it is due to this byte.
      have hbyte := toNat_byte_xor_lt b b'
      have hshifted : update c b ^^^ update c' b' =
          Nat.repeat shift 8 (c ^^^ c' ^^^ (b.toUInt32 ^^^ b'.toUInt32)) := by
        rw [update, update, ← repeat_shift_xor]
        congr 1
        ac_rfl
      have hroom : 2 ^ (8 * bytes.length) * 2 ^ 8 ≤ 2 ^ 32 := by
        rw [← Nat.pow_add]
        exact Nat.pow_le_pow_right Nat.two_pos (by omega)
      have hbefore : (c ^^^ c' ^^^ (b.toUInt32 ^^^ b'.toUInt32)).toNat =
          (update c b ^^^ update c' b').toNat * 2 ^ 8 := by
        rw [hshifted] at hafter ⊢
        exact toNat_of_toNat_repeat_shift_lt (by omega)
      constructor
      · have hlt : (c ^^^ c' ^^^ (b.toUInt32 ^^^ b'.toUInt32)).toNat <
            2 ^ (8 * (bytes.length + 1)) := by
          rw [hbefore, Nat.mul_succ, Nat.pow_add]
          omega
        have hbyte' : (b.toUInt32 ^^^ b'.toUInt32).toNat < 2 ^ (8 * (bytes.length + 1)) :=
          Nat.lt_of_lt_of_le hbyte (Nat.pow_le_pow_right Nat.two_pos (by omega))
        have hxor := Nat.xor_lt_two_pow hlt hbyte'
        rwa [← UInt32.toNat_xor, UInt32.xor_assoc, UInt32.xor_self, UInt32.xor_zero] at hxor
      · rintro rfl
        rw [UInt32.xor_self, UInt32.zero_xor] at hbefore
        have hsame : b.toUInt32 = b'.toUInt32 := by
          refine UInt32.xor_eq_zero_iff.1 (UInt32.toNat_inj.1 ?_)
          rw [UInt32.toNat_zero]
          omega
        obtain rfl : b = b' := UInt8.toUInt32_inj.1 hsame
        rw [hrest rfl]

theorem checksum_burst_inj {front window window' rest : Bytes}
    (hlen : window.length = window'.length) (hfour : window.length ≤ 4)
    (h : checksum (front ++ window ++ rest) = checksum (front ++ window' ++ rest)) :
    window = window' := by
  have hregister := (UInt32.xor_left_inj _).1 h
  simp only [List.foldl_append] at hregister
  exact (foldl_update_cases hlen hfour (foldl_update_left_inj rest hregister)).2 rfl

end CosignedLedger.Crc32
