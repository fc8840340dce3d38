import CosignedLedger.Proofs.Wire.Exact
import CosignedLedger.Store.RecordLog
import Mathlib.Data.List.Forall2

/-!
# What is read from a file of records

A complete record stands at the front of a file precisely if the file begins with its length, its
checksum and its body, so a record that is cut short anywhere is no record.

* `Record.split?_eq_some_iff`: when a file begins with a complete record.
* `Record.split?_take_ofBlock`: a proper part of a record is none.
* `Record.Holds`, `Record.scan_ofBodies`: records whose bodies hold blocks are read one by one, and
  reading goes on behind them.
* `BlockLog.loadRecords_ofBlocks`: loading gives back the blocks and cuts off a record that is cut
  short.
-/

namespace CosignedLedger

namespace Record

theorem split?_eq_some_iff {bytes body rest : Bytes} {sum : Nat} :
    split? bytes = some (sum, body, rest) ↔
      body.length < Bytes.capacity 4 ∧ sum < Bytes.capacity 4 ∧
      bytes = Bytes.ofNatLE 4 body.length ++ Bytes.ofNatLE 4 sum ++ body ++ rest := by
  simp only [split?]
  constructor
  · intro h
    split at h
    · rename_i hlen
      obtain ⟨hheader, hbody⟩ := hlen
      simp only [Option.some.injEq, Prod.mk.injEq] at h
      obtain ⟨rfl, rfl, rfl⟩ := h
      have hfirst : (bytes.take 4).length = 4 := by
        simp only [List.length_take] at hheader ⊢
        omega
      have hsecond : ((bytes.drop 4).take 4).length = 4 := by
        simp only [List.length_take, List.length_drop] at hheader ⊢
        omega
      have hsize := Bytes.toNatLE_lt (bytes.take 4)
      have hsum := Bytes.toNatLE_lt ((bytes.drop 4).take 4)
      have hsize' := Bytes.ofNatLE_toNatLE (bytes.take 4)
      have hsum' := Bytes.ofNatLE_toNatLE ((bytes.drop 4).take 4)
      rw [hfirst] at hsize hsize'
      rw [hsecond] at hsum hsum'
      rw [hbody]
      refine ⟨hsize, hsum, ?_⟩
      have hrest : bytes.drop 8 = (bytes.drop 4).drop 4 := by rw [List.drop_drop]
      rw [hsize', hsum', List.append_assoc, List.append_assoc, List.take_append_drop, hrest,
        List.take_append_drop, List.take_append_drop]
    · cases h
  · rintro ⟨hbody, hsum, rfl⟩
    have hfirst := Bytes.length_ofNatLE 4 body.length
    have hsecond := Bytes.length_ofNatLE 4 sum
    have hheader : (Bytes.ofNatLE 4 body.length ++ Bytes.ofNatLE 4 sum).length = 8 := by
      rw [List.length_append, hfirst, hsecond]
    have hsize : Bytes.toNatLE (Bytes.ofNatLE 4 body.length) = body.length := by
      rw [Bytes.toNatLE_ofNatLE, Nat.mod_eq_of_lt hbody]
    have hsum' : Bytes.toNatLE (Bytes.ofNatLE 4 sum) = sum := by
      rw [Bytes.toNatLE_ofNatLE, Nat.mod_eq_of_lt hsum]
    simp only [List.append_assoc, List.take_left' hfirst, List.drop_left' hfirst, hsize,
      List.take_left' hsecond, hsum']
    rw [← List.append_assoc (Bytes.ofNatLE 4 body.length), List.drop_left' hheader,
      List.take_left' hheader, List.take_left' rfl, List.drop_left' rfl, if_pos ⟨hheader, rfl⟩]

def ofBlock (b : Block) : Bytes := frame (Block.format.write b)

def ofBlocks (blocks : List Block) : Bytes := blocks.flatMap ofBlock

/-- The records around some bodies, one after the other. -/
def ofBodies (bodies : List Bytes) : Bytes := bodies.flatMap frame

theorem length_frame (body : Bytes) : (frame body).length = 8 + body.length := by
  simp only [frame, List.length_append, Bytes.length_ofNatLE]

theorem length_ofBlock (b : Block) : (ofBlock b).length = 8 + (Block.format.write b).length :=
  length_frame _

theorem ofBlocks_append (blocks : List Block) (b : Block) :
    ofBlocks (blocks ++ [b]) = ofBlocks blocks ++ ofBlock b := by
  simp [ofBlocks]

theorem ofBodies_append (bodies bodies' : List Bytes) :
    ofBodies (bodies ++ bodies') = ofBodies bodies ++ ofBodies bodies' :=
  List.flatMap_append

theorem ofBodies_cons (body : Bytes) (bodies : List Bytes) :
    ofBodies (body :: bodies) = frame body ++ ofBodies bodies :=
  List.flatMap_cons

theorem ofBodies_write (blocks : List Block) :
    ofBodies (blocks.map Block.format.write) = ofBlocks blocks := by
  rw [ofBodies, List.flatMap_map]
  rfl

/-- The length of the written block can be told in a record. -/
def Fits (b : Block) : Prop := (Block.format.write b).length < UInt32.size

/-- A record around the body gives the block: its length can be told, and what is written at its
front is the block. -/
structure Holds (body : Bytes) (b : Block) : Prop where
  short : body.length < UInt32.size
  decode_eq : Block.format.decode body = .ok b

variable {b : Block} {body rest : Bytes} {path : String} {offset sum : Nat}

theorem Fits.holds (hb : Fits b) : Holds (Block.format.write b) b where
  short := hb
  decode_eq := Block.format_exact.decode_write (Nat.lt_trans hb (by decide))

theorem holds_write {blocks : List Block} (h : ∀ b ∈ blocks, Fits b) :
    List.Forall₂ Holds (blocks.map Block.format.write) blocks := by
  induction blocks with
  | nil => exact .nil
  | cons b blocks ih =>
    exact .cons (h b List.mem_cons_self).holds (ih fun b' hb' => h b' (List.mem_cons_of_mem b hb'))

theorem split?_frame (hbody : body.length < UInt32.size) :
    split? (frame body ++ rest) = some ((Crc32.checksum body).toNat, body, rest) :=
  split?_eq_some_iff.2 ⟨hbody, (Crc32.checksum body).toNat_lt, rfl⟩

theorem split?_nil : split? [] = none := rfl

/-- A proper part of a record is none, wherever it is cut: a complete record with the same first
four bytes is as long. -/
theorem split?_take_ofBlock (hb : Fits b) {n : Nat} (hn : n < (ofBlock b).length) :
    split? ((ofBlock b).take n) = none := by
  cases h : split? ((ofBlock b).take n) with
  | none => rfl
  | some found =>
    obtain ⟨sum, body, rest⟩ := found
    obtain ⟨hbody, _, heq⟩ := split?_eq_some_iff.1 h
    have hlength := congrArg List.length heq
    simp only [List.length_take, List.length_append, Bytes.length_ofNatLE] at hlength
    have hsizes : Bytes.ofNatLE 4 body.length = Bytes.ofNatLE 4 (Block.format.write b).length := by
      have hfirst := congrArg (List.take 4) heq
      rw [List.take_take, Nat.min_eq_left (by omega)] at hfirst
      simp only [ofBlock, frame, List.append_assoc, List.take_left' (Bytes.length_ofNatLE 4 _)]
        at hfirst
      exact hfirst.symm
    have hsame := Bytes.ofNatLE_inj hbody hb hsizes
    rw [length_ofBlock] at hn hlength
    omega

/-! ### Reading on -/

theorem scan_of_none {bytes : Bytes} (h : split? bytes = none) :
    scan path offset bytes = .ok ([], 0) := by
  rw [scan]
  split
  · rfl
  · rename_i hsome
    rw [h] at hsome
    cases hsome

theorem scan_of_some {bytes : Bytes} (h : split? bytes = some (sum, body, rest)) :
    scan path offset bytes = do
      let b ← block path offset sum body
      let (bs, length) ← scan path (offset + (8 + body.length)) rest
      return (b :: bs, 8 + body.length + length) := by
  rw [scan]
  split
  · rename_i hnone
    rw [h] at hnone
    cases hnone
  · rename_i hsome
    rw [h, Option.some.injEq, Prod.mk.injEq, Prod.mk.injEq] at hsome
    obtain ⟨rfl, rfl, rfl⟩ := hsome
    rfl

theorem block_of_ne (h : (Crc32.checksum body).toNat ≠ sum) :
    block path offset sum body = .error (.corrupt offset path) :=
  if_pos h

theorem block_eq_ok_iff : block path offset sum body = .ok b ↔
    (Crc32.checksum body).toNat = sum ∧ Block.format.decode body = .ok b := by
  unfold block
  split
  · rename_i hne
    exact ⟨nofun, fun h => absurd h.1 hne⟩
  · rename_i heq
    rw [Except.mapError_eq_ok]
    exact ⟨fun h => ⟨Decidable.not_not.1 heq, h⟩, fun h => h.2⟩

theorem scan_frame (h : Holds body b) :
    scan path offset (frame body ++ rest) =
      (scan path (offset + (frame body).length) rest).map
        fun found => (b :: found.1, (frame body).length + found.2) := by
  rw [scan_of_some (split?_frame h.short), block_eq_ok_iff.2 ⟨rfl, h.decode_eq⟩, length_frame]
  dsimp only [bind, Except.bind]
  cases scan path (offset + (8 + body.length)) rest <;> rfl

theorem scan_ofBodies {bodies : List Bytes} {blocks : List Block}
    (h : List.Forall₂ Holds bodies blocks) : ∀ {offset : Nat},
      scan path offset (ofBodies bodies ++ rest) =
        (scan path (offset + (ofBodies bodies).length) rest).map
          fun found => (blocks ++ found.1, (ofBodies bodies).length + found.2) := by
  -- By induction on the bodies: each record leaves the next one at the front.
  induction h with
  | nil =>
    intro offset
    show scan path offset rest = (scan path offset rest).map _
    cases scan path offset rest <;> simp [Except.map, ofBodies]
  | @cons body b bodies blocks hbody _ ih =>
    intro offset
    rw [ofBodies_cons, List.append_assoc, scan_frame hbody, ih, List.length_append, Nat.add_assoc]
    cases scan path (offset + ((frame body).length + (ofBodies bodies).length)) rest with
    | error fault => rfl
    | ok found => simp only [Except.map, List.cons_append, Nat.add_assoc]

end Record

namespace BlockLog
variable {path : String} {rest : Bytes}

theorem loadRecords_ofBodies {bodies : List Bytes} {blocks : List Block}
    (h : List.Forall₂ Record.Holds bodies blocks) (hrest : Record.split? rest = none) :
    loadRecords path (Record.ofBodies bodies ++ rest) = (.ok blocks, Record.ofBodies bodies) := by
  rw [loadRecords, Record.scan_ofBodies h, Record.scan_of_none hrest]
  simp only [Except.map, List.append_nil, Nat.add_zero, List.take_left' rfl]

theorem loadRecords_ofBlocks {blocks : List Block} (hblocks : ∀ b ∈ blocks, Record.Fits b)
    (hrest : Record.split? rest = none) :
    loadRecords path (Record.ofBlocks blocks ++ rest) = (.ok blocks, Record.ofBlocks blocks) := by
  rw [← Record.ofBodies_write]
  exact loadRecords_ofBodies (Record.holds_write hblocks) hrest

end BlockLog

end CosignedLedger
