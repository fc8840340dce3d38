import CosignedLedger.Proofs.Hash.Crc32
import CosignedLedger.Proofs.Store.Loading
import CosignedLedger.Proofs.Store.Refinement

/-!
# Damage to a file of records

Blocks have been appended to an empty file, and then some bytes of one record change. What a
checksum speaks for is noticed to have changed, and nothing is removed. The length of a body stands
outside every checksum: whatever it announces is believed, so a record that announces more than
follows it is cut off like one whose write did not end, with all the records behind it.

* `Bytes.Altered`: the same bytes but for a few of them in one place.
* `BlockLog.loadRecords_refused`: the file is refused at a record that does not give its block.
* `Record.Checked`, `BlockLog.damage_detected`: damage to a checksum, or to four bytes of a body.
* `BlockLog.LengthBelieved`, `BlockLog.length_believed`: damage to the length of a body.
-/

namespace CosignedLedger

/-- The second string is as long as the first and not the same, but it has the same byte at every
position before `first` and from `last` on. -/
structure Bytes.Altered (bytes altered : Bytes) (first last : Nat) : Prop where
  length_eq : altered.length = bytes.length
  elsewhere : ∀ i, i < first ∨ last ≤ i → altered[i]? = bytes[i]?
  ne : altered ≠ bytes

namespace Bytes.Altered
variable {bytes altered front middle rest : Bytes} {first last : Nat}

theorem set {i : Nat} {byte : UInt8} (hi : i < bytes.length) (hbyte : bytes[i]? ≠ some byte)
    (hfirst : first ≤ i) (hlast : i < last) : bytes.Altered (bytes.set i byte) first last where
  length_eq := List.length_set
  elsewhere j hj := List.getElem?_set_ne (by omega)
  ne h := hbyte (by rw [← h, List.getElem?_set_self hi])

theorem first_lt_last (h : bytes.Altered altered first last) : first < last := by
  by_contra hle
  exact h.ne (List.ext_getElem? fun i => h.elsewhere i (by omega))

theorem exists_middle (h : (front ++ middle ++ rest).Altered altered first last)
    (hfirst : front.length = first) (hlast : (front ++ middle).length = last) :
    ∃ middle' : Bytes, altered = front ++ middle' ++ rest ∧ middle'.length = middle.length ∧
      middle' ≠ middle := by
  have hlength := h.length_eq
  have hfront : altered.take first = front := by
    refine List.ext_getElem? fun i => ?_
    by_cases hi : i < first
    · rw [List.getElem?_take_of_lt hi, h.elsewhere i (.inl hi), List.append_assoc,
        List.getElem?_append_left (by omega)]
    · rw [List.getElem?_eq_none (by rw [List.length_take]; omega),
        List.getElem?_eq_none (by omega)]
  have hrest : altered.drop last = rest := by
    refine List.ext_getElem? fun i => ?_
    rw [List.getElem?_drop, h.elsewhere _ (.inr (Nat.le_add_right last i)),
      List.getElem?_append_right (by omega), hlast, Nat.add_sub_cancel_left]
  have hlt := h.first_lt_last
  have hparts : altered = front ++ (altered.drop first).take (last - first) ++ rest := by
    have hsplit : altered.drop last = (altered.drop first).drop (last - first) := by
      rw [List.drop_drop, Nat.add_sub_cancel' (Nat.le_of_lt hlt)]
    rw [← hfront, ← hrest, hsplit, List.append_assoc, List.take_append_drop, List.take_append_drop]
  refine ⟨(altered.drop first).take (last - first), hparts, ?_, ?_⟩
  · simp only [List.length_append] at hlength hlast
    simp only [List.length_take, List.length_drop]
    omega
  · intro hsame
    rw [hsame] at hparts
    exact h.ne hparts

end Bytes.Altered

namespace Record

/-- Where the record of the block at `k` begins. -/
def offset (blocks : List Block) (k : Nat) : Nat := (ofBlocks (blocks.take k)).length

variable {blocks : List Block} {k : Nat} {b : Block}

theorem ofBlocks_eq (hb : blocks[k]? = some b) :
    ofBlocks blocks = ofBlocks (blocks.take k) ++ ofBlock b ++ ofBlocks (blocks.drop (k + 1)) := by
  obtain ⟨hk, rfl⟩ := List.getElem?_eq_some_iff.1 hb
  have hblocks : blocks = blocks.take k ++ [blocks[k]] ++ blocks.drop (k + 1) := by
    rw [List.append_assoc, List.singleton_append, ← List.drop_eq_getElem_cons hk,
      List.take_append_drop]
  conv => lhs; rw [hblocks]
  simp only [ofBlocks, List.flatMap_append, List.flatMap_singleton]

theorem offset_succ (hb : blocks[k]? = some b) :
    offset blocks (k + 1) = offset blocks k + (ofBlock b).length := by
  rw [offset, List.take_add_one, hb, Option.toList_some, ofBlocks_append, List.length_append,
    offset]

end Record

namespace BlockLog
variable {path : String} {write : RecordWriter} {contents appended : Bytes} {blocks : List Block}

theorem appendAll_eq_ok (hwrite : write.Lands)
    (h : (BlockLog.records path write).appendAll blocks contents = (.ok (), appended)) :
    (∀ b ∈ blocks, Record.Fits b) ∧ appended = contents ++ Record.ofBlocks blocks := by
  induction blocks generalizing contents with
  | nil =>
    cases h
    exact ⟨nofun, (List.append_nil _).symm⟩
  | cons b blocks ih =>
    rw [appendAll] at h
    split at h
    · cases h
    · rename_i written hwritten
      obtain ⟨hb, rfl⟩ := appendRecord_eq_ok hwrite hwritten
      obtain ⟨hblocks, rfl⟩ := ih h
      refine ⟨?_, List.append_assoc _ _ _⟩
      intro b' hb'
      rcases List.mem_cons.1 hb' with rfl | hb'
      · exact hb
      · exact hblocks b' hb'

theorem appendAll_unlimited (path : String) (hblocks : ∀ b ∈ blocks, Record.Fits b) :
    (BlockLog.records path (.upTo none)).appendAll blocks contents =
      (.ok (), contents ++ Record.ofBlocks blocks) := by
  induction blocks generalizing contents with
  | nil => exact congrArg _ (List.append_nil _).symm
  | cons b blocks ih =>
    have hroom : ∀ n, none = some n → (contents ++ Record.ofBlock b).length ≤ n := nofun
    have happend : (records path (.upTo none)).append b contents =
        (.ok (), contents ++ Record.ofBlock b) := by
      show appendRecord path (.upTo none) b contents = _
      exact appendRecord_upTo (hblocks b List.mem_cons_self) hroom
    rw [appendAll, happend]
    dsimp only
    rw [ih fun b' hb' => hblocks b' (List.mem_cons_of_mem b hb'), List.append_assoc]
    rfl

open Transparent in
theorem rotated_appended (path : String) :
    (BlockLog.records path (.upTo none)).appendAll rotated.blocks [] =
      (.ok (), Record.ofBlocks rotated.blocks) := by
  have hfits : ∀ b ∈ rotated.blocks, Record.Fits b := by
    unfold Record.Fits
    decide +kernel
  rw [appendAll_unlimited path hfits, List.nil_append]

/-- The first record that does not give its block decides that the file is refused. -/
theorem loadRecords_refused {sum : Nat} {tail body rest : Bytes} {fault : LogFault}
    (hblocks : ∀ b ∈ blocks, Record.Fits b) (htail : Record.split? tail = some (sum, body, rest))
    (hfault : Record.block path (Record.ofBlocks blocks).length sum body = .error fault) :
    loadRecords path (Record.ofBlocks blocks ++ tail) =
      (.error (.log fault), Record.ofBlocks blocks ++ tail) := by
  rw [loadRecords, ← Record.ofBodies_write, Record.scan_ofBodies (Record.holds_write hblocks),
    Record.scan_of_some htail, Record.ofBodies_write, Nat.zero_add, hfault]
  rfl

end BlockLog

/-! ### What a checksum speaks for -/

namespace Record
variable {blocks : List Block} {k first last : Nat} {b : Block} {damaged : Bytes}

/-- A place in the record of the block at `k` that its checksum speaks for: the checksum itself, or
at most four bytes in a row of the body. -/
inductive Checked (blocks : List Block) (k first last : Nat) : Prop where
  | sum : first = offset blocks k + 4 → last = offset blocks k + 8 → Checked blocks k first last
  | body : offset blocks k + 8 ≤ first → last ≤ offset blocks (k + 1) → last ≤ first + 4 →
      Checked blocks k first last

/-- Behind the records of the first blocks stands a complete record that does not have the checksum
which it states. -/
def Mismatched (blocks : List Block) (k : Nat) (damaged : Bytes) : Prop :=
  ∃ sum body rest tail, damaged = ofBlocks (blocks.take k) ++ tail ∧
    split? tail = some (sum, body, rest) ∧ (Crc32.checksum body).toNat ≠ sum

theorem mismatched_of_eq {body rest : Bytes} {sum : Nat}
    (hdamaged : damaged = ofBlocks (blocks.take k) ++
      (Bytes.ofNatLE 4 body.length ++ Bytes.ofNatLE 4 sum ++ body ++ rest))
    (hbody : body.length < UInt32.size) (hsum : sum < UInt32.size)
    (hne : (Crc32.checksum body).toNat ≠ sum) : Mismatched blocks k damaged :=
  ⟨sum, body, rest, _, hdamaged, split?_eq_some_iff.2 ⟨hbody, hsum, rfl⟩, hne⟩

theorem mismatched_of_sum (hb : blocks[k]? = some b) (hfits : Fits b)
    (h : (ofBlocks blocks).Altered damaged (offset blocks k + 4) (offset blocks k + 8)) :
    Mismatched blocks k damaged := by
  let body := Block.format.write b
  let size := Bytes.ofNatLE 4 body.length
  let stated := Bytes.ofNatLE 4 (Crc32.checksum body).toNat
  let rest := ofBlocks (blocks.drop (k + 1))
  have hsize : size.length = 4 := Bytes.length_ofNatLE 4 _
  have hstated : stated.length = 4 := Bytes.length_ofNatLE 4 _
  have hbytes : ofBlocks blocks = ofBlocks (blocks.take k) ++ size ++ stated ++ (body ++ rest) := by
    rw [ofBlocks_eq hb]
    simp only [ofBlock, frame, List.append_assoc, size, stated, body, rest]
  rw [hbytes] at h
  obtain ⟨sum, hdamaged, hlength, hne⟩ := h.exists_middle
    (by rw [List.length_append, hsize]; rfl)
    (by rw [List.length_append, List.length_append, hsize, hstated]; rfl)
  rw [hstated] at hlength
  have hwritten : sum = Bytes.ofNatLE 4 sum.toNatLE := by rw [← hlength, Bytes.ofNatLE_toNatLE]
  have hlt := Bytes.toNatLE_lt sum
  rw [hlength] at hlt
  have hrecord : damaged = ofBlocks (blocks.take k) ++
      (size ++ Bytes.ofNatLE 4 sum.toNatLE ++ body ++ rest) := by
    rw [← hwritten, hdamaged]
    simp only [List.append_assoc]
  refine mismatched_of_eq hrecord hfits hlt fun heq => hne ?_
  rw [hwritten, ← heq]

theorem exists_window (hb : blocks[k]? = some b) (hfirst : offset blocks k + 8 ≤ first)
    (hlast : last ≤ offset blocks (k + 1)) (h : (ofBlocks blocks).Altered damaged first last) :
    ∃ front window window' behind : Bytes, Block.format.write b = front ++ window ++ behind ∧
      window.length = last - first ∧ window'.length = window.length ∧ window' ≠ window ∧
      damaged = ofBlocks (blocks.take k) ++
        (Bytes.ofNatLE 4 (Block.format.write b).length ++
          Bytes.ofNatLE 4 (Crc32.checksum (Block.format.write b)).toNat ++
            (front ++ window' ++ behind) ++ ofBlocks (blocks.drop (k + 1))) := by
  let body := Block.format.write b
  let header := Bytes.ofNatLE 4 body.length ++ Bytes.ofNatLE 4 (Crc32.checksum body).toNat
  let before := first - (offset blocks k + 8)
  let front := body.take before
  let window := (body.drop before).take (last - first)
  let behind := (body.drop before).drop (last - first)
  have hlt := h.first_lt_last
  have hheader : header.length = 8 := by
    rw [List.length_append, Bytes.length_ofNatLE, Bytes.length_ofNatLE]
  have hlength : (ofBlock b).length = 8 + body.length := length_ofBlock b
  rw [offset_succ hb, hlength] at hlast
  have hfront : front.length = before := by
    rw [List.length_take]
    omega
  have hwindow : window.length = last - first := by
    rw [List.length_take, List.length_drop]
    omega
  have hbody : body = front ++ window ++ behind := by
    rw [List.append_assoc, List.take_append_drop, List.take_append_drop]
  have hbytes : ofBlocks blocks = ofBlocks (blocks.take k) ++ header ++ front ++ window ++
      (behind ++ ofBlocks (blocks.drop (k + 1))) := by
    rw [ofBlocks_eq hb]
    show _ ++ (header ++ body) ++ _ = _
    rw [hbody]
    simp only [List.append_assoc]
  have hbegins : (ofBlocks (blocks.take k) ++ header ++ front).length = first := by
    rw [List.length_append, List.length_append, hheader, hfront]
    show offset blocks k + 8 + before = first
    omega
  rw [hbytes] at h
  obtain ⟨window', hdamaged, hlength', hne⟩ := h.exists_middle hbegins
    (by rw [List.length_append, hbegins, hwindow]; omega)
  refine ⟨front, window, window', behind, hbody, hwindow, hlength', hne, ?_⟩
  rw [hdamaged]
  simp only [List.append_assoc, header, body]

/-- The checksum notices a change of no more than four bytes in a row. -/
theorem mismatched_of_body (hb : blocks[k]? = some b) (hfits : Fits b)
    (hfirst : offset blocks k + 8 ≤ first) (hlast : last ≤ offset blocks (k + 1))
    (hfour : last ≤ first + 4) (h : (ofBlocks blocks).Altered damaged first last) :
    Mismatched blocks k damaged := by
  obtain ⟨front, window, window', behind, hbody, hwindow, hlength, hne, hdamaged⟩ :=
    exists_window hb hfirst hlast h
  have hlength' : (front ++ window' ++ behind).length = (Block.format.write b).length := by
    rw [hbody]
    simp only [List.length_append, hlength]
  rw [← hlength'] at hdamaged
  refine mismatched_of_eq hdamaged (hlength' ▸ hfits)
    (Crc32.checksum (Block.format.write b)).toNat_lt fun heq => hne ?_
  rw [hbody] at heq
  exact Crc32.checksum_burst_inj hlength (by omega) (UInt32.toNat_inj.1 heq)

end Record

namespace BlockLog
variable {path : String} {write : RecordWriter} {contents damaged : Bytes} {blocks : List Block}
  {k first last : Nat}

/-- **Damage that a checksum speaks for is detected and removes nothing.** Blocks have been appended
to an empty file with success. If bytes of one checksum change, or bytes within four in a row of one
body, the file is refused for the record in which they stand, and stays as it is. -/
theorem damage_detected (hwrite : write.Lands)
    (happend : (BlockLog.records path write).appendAll blocks [] = (.ok (), contents))
    (hk : k < blocks.length) (hplace : Record.Checked blocks k first last)
    (hdamage : contents.Altered damaged first last) :
    let refusal := StoreError.log (.corrupt (Record.offset blocks k) path)
    loadRecords path damaged = (.error refusal, damaged) ∧
      Ledger.openStore (.records path write) damaged = (.error refusal, damaged) := by
  intro refusal
  obtain ⟨hfits, rfl⟩ := appendAll_eq_ok hwrite happend
  rw [List.nil_append] at hdamage
  have hb : blocks[k]? = some blocks[k] := List.getElem?_eq_getElem hk
  have hfit := hfits blocks[k] (List.getElem_mem hk)
  have hmismatched : Record.Mismatched blocks k damaged := by
    cases hplace with
    | sum hfirst hlast =>
      subst hfirst hlast
      exact Record.mismatched_of_sum hb hfit hdamage
    | body hfirst hlast hfour => exact Record.mismatched_of_body hb hfit hfirst hlast hfour hdamage
  obtain ⟨sum, body, rest, tail, rfl, htail, hne⟩ := hmismatched
  have hload : loadRecords path (Record.ofBlocks (blocks.take k) ++ tail) =
      (.error refusal, Record.ofBlocks (blocks.take k) ++ tail) :=
    loadRecords_refused (fun b hb => hfits b (List.mem_of_mem_take hb)) htail
      (Record.block_of_ne hne)
  exact ⟨hload, by simp only [Ledger.openStore, BlockLog.records, hload]⟩

open Transparent in
theorem damage_detected_rotated :
    let damaged := (Record.ofBlocks rotated.blocks).set 160 7
    loadRecords "blocks.log" damaged = (.error (.log (.corrupt 148 "blocks.log")), damaged) := by
  have hoffset : Record.offset rotated.blocks 1 = 148 := by decide +kernel
  have hoffset' : Record.offset rotated.blocks 2 = 337 := by decide +kernel
  have hplace : Record.Checked rotated.blocks 1 158 162 :=
    .body (by rw [hoffset]; decide) (by rw [hoffset']; decide) (by decide)
  have hdamage : Bytes.Altered (Record.ofBlocks rotated.blocks)
      ((Record.ofBlocks rotated.blocks).set 160 7) 158 162 :=
    .set (by decide +kernel) (by decide +kernel) (by decide) (by decide)
  have hload := (damage_detected (RecordWriter.lands_upTo none)
    (rotated_appended "blocks.log") (by decide) hplace hdamage).1
  rwa [hoffset] at hload

end BlockLog

/-! ### What no checksum speaks for -/

namespace Record
variable {blocks : List Block} {k start : Nat} {b : Block} {damaged : Bytes} {path : String}

def announced (contents : Bytes) (start : Nat) : Nat :=
  Bytes.toNatLE ((contents.drop start).take 4)

def behind (contents : Bytes) (start : Nat) : Bytes := contents.drop (start + 8)

section
variable {front size stated rest : Bytes}

theorem announced_header (hsize : size.length = 4) :
    announced (front ++ (size ++ stated ++ rest)) front.length = size.toNatLE := by
  rw [announced, List.drop_left' rfl, List.append_assoc, List.take_left' hsize]

theorem behind_header (hsize : size.length = 4) (hstated : stated.length = 4) :
    behind (front ++ (size ++ stated ++ rest)) front.length = rest := by
  have hheader : (size ++ stated).length = 8 := by rw [List.length_append, hsize, hstated]
  rw [behind, ← List.drop_drop, List.drop_left' rfl, List.drop_left' hheader]

/-- The announced length is all that decides whether a record is complete. -/
theorem split?_header (hsize : size.length = 4) (hstated : stated.length = 4) :
    split? (size ++ stated ++ rest) =
      if size.toNatLE ≤ rest.length then
        some (stated.toNatLE, rest.take size.toNatLE, rest.drop size.toNatLE)
      else none := by
  have hheader : (size ++ stated).length = 8 := by rw [List.length_append, hsize, hstated]
  have hcomplete : (rest.take size.toNatLE).length = size.toNatLE ↔ size.toNatLE ≤ rest.length := by
    rw [List.length_take]
    omega
  simp only [split?, List.take_left' hheader, List.drop_left' hheader, hheader, true_and]
  rw [List.append_assoc, List.take_left' hsize, List.drop_left' hsize, List.take_left' hstated]
  simp only [hcomplete]

end

theorem exists_size (hb : blocks[k]? = some b)
    (h : (ofBlocks blocks).Altered damaged (offset blocks k) (offset blocks k + 4)) :
    ∃ size : Bytes, size.length = 4 ∧
      damaged = ofBlocks (blocks.take k) ++
        (size ++ Bytes.ofNatLE 4 (Crc32.checksum (Block.format.write b)).toNat ++
          (Block.format.write b ++ ofBlocks (blocks.drop (k + 1)))) := by
  have hsize : (Bytes.ofNatLE 4 (Block.format.write b).length).length = 4 :=
    Bytes.length_ofNatLE 4 _
  have hbytes : ofBlocks blocks =
      ofBlocks (blocks.take k) ++ Bytes.ofNatLE 4 (Block.format.write b).length ++
        (Bytes.ofNatLE 4 (Crc32.checksum (Block.format.write b)).toNat ++
          (Block.format.write b ++ ofBlocks (blocks.drop (k + 1)))) := by
    rw [ofBlocks_eq hb]
    simp only [ofBlock, frame, List.append_assoc]
  rw [hbytes] at h
  obtain ⟨size, rfl, hlength, _⟩ := h.exists_middle rfl (by rw [List.length_append, hsize]; rfl)
  refine ⟨size, hlength.trans hsize, ?_⟩
  simp only [List.append_assoc]

/-- A record that announces less than the body cannot give any block: the encoding of another block
would begin the body. -/
theorem block_error_of_short {sum size : Nat} {rest : Bytes} (hfits : Fits b)
    (hshort : size < (Block.format.write b).length) :
    ∃ fault, block path start sum ((Block.format.write b ++ rest).take size) = .error fault := by
  rw [List.take_append_of_le_length (Nat.le_of_lt hshort)]
  cases hblock : block path start sum ((Block.format.write b).take size) with
  | error fault => exact ⟨fault, rfl⟩
  | ok b' =>
    have hlength : ((Block.format.write b).take size).length = size := by
      rw [List.length_take]
      omega
    have hfront : (Block.format.write b).take size <+: Block.format.write b :=
      List.take_prefix size _
    have hcapacity : (Block.format.write b).length < Bytes.capacity 8 :=
      Nat.lt_trans hfits (by decide)
    have hb' : Block.format.write b' <+: (Block.format.write b).take size :=
      (Block.format_exact.decode_eq_ok_iff (by omega)).1 (block_eq_ok_iff.1 hblock).2
    have hdecode := (Block.format_exact.decode_eq_ok_iff hcapacity).2 (hb'.trans hfront)
    rw [Block.format_exact.decode_write hcapacity] at hdecode
    cases hdecode
    have hle := hb'.length_le
    omega

end Record

namespace BlockLog
variable {path : String} {write : RecordWriter} {contents damaged : Bytes} {blocks : List Block}
  {k : Nat} {b : Block}

/-- A record that gives its block is not lost, whatever comes of the rest. -/
theorem prefix_of_loadRecords {sum : Nat} {tail body rest kept : Bytes} {loaded : List Block}
    (hblocks : ∀ b ∈ blocks, Record.Fits b) (htail : Record.split? tail = some (sum, body, rest))
    (hb : Record.block path (Record.ofBlocks blocks).length sum body = .ok b)
    (h : loadRecords path (Record.ofBlocks blocks ++ tail) = (.ok loaded, kept)) :
    blocks ++ [b] <+: loaded := by
  rw [loadRecords, ← Record.ofBodies_write, Record.scan_ofBodies (Record.holds_write hblocks),
    Record.scan_of_some htail, Record.ofBodies_write, Nat.zero_add, hb] at h
  dsimp only [bind, Except.bind] at h
  cases hrest : Record.scan path ((Record.ofBlocks blocks).length + (8 + body.length)) rest with
  | error fault =>
    rw [hrest] at h
    cases h
  | ok found =>
    rw [hrest] at h
    cases h
    exact ⟨found.1, by rw [List.append_assoc]; rfl⟩

/-- What loading does with a file in which the header of the block `b`, the one behind `before`,
announces any length. -/
structure LengthBelieved (path : String) (damaged : Bytes) (before : List Block) (b : Block)
    (announced : Nat) (behind : Bytes) : Prop where
  /-- If more is announced than follows, the record is cut off with all that stand behind it. -/
  cut : behind.length < announced →
    loadRecords path damaged = (.ok before, Record.ofBlocks before)
  /-- If less is announced than the body takes, the file is refused and stays as it is. -/
  short : announced < (Block.format.write b).length →
    ∃ fault, loadRecords path damaged = (.error (.log fault), damaged)
  /-- If what is announced has another checksum, the file is refused and stays as it is. -/
  mismatched : announced ≤ behind.length →
    Crc32.checksum (behind.take announced) ≠ Crc32.checksum (Block.format.write b) →
      loadRecords path damaged =
        (.error (.log (.corrupt (Record.ofBlocks before).length path)), damaged)
  /-- If it has the same checksum by coincidence, the block itself is not lost. -/
  coincident : (Block.format.write b).length ≤ announced → announced ≤ behind.length →
    Crc32.checksum (behind.take announced) = Crc32.checksum (Block.format.write b) →
      ∀ loaded kept, loadRecords path damaged = (.ok loaded, kept) → before ++ [b] <+: loaded

theorem lengthBelieved_header {before : List Block} {size rest : Bytes}
    (hbefore : ∀ b ∈ before, Record.Fits b) (hb : Record.Fits b) (hsize : size.length = 4) :
    LengthBelieved path
      (Record.ofBlocks before ++
        (size ++ Bytes.ofNatLE 4 (Crc32.checksum (Block.format.write b)).toNat ++
          (Block.format.write b ++ rest)))
      before b size.toNatLE (Block.format.write b ++ rest) := by
  let stated := Bytes.ofNatLE 4 (Crc32.checksum (Block.format.write b)).toNat
  have hlt : (Crc32.checksum (Block.format.write b)).toNat < Bytes.capacity 4 :=
    (Crc32.checksum (Block.format.write b)).toNat_lt
  have hstated : stated.toNatLE = (Crc32.checksum (Block.format.write b)).toNat := by
    rw [Bytes.toNatLE_ofNatLE, Nat.mod_eq_of_lt hlt]
  have hheader : Record.split? (size ++ stated ++ (Block.format.write b ++ rest)) = _ :=
    Record.split?_header hsize (Bytes.length_ofNatLE 4 _)
  rw [hstated] at hheader
  constructor
  case cut =>
    intro hcut
    rw [if_neg (Nat.not_le.2 hcut)] at hheader
    exact loadRecords_ofBlocks hbefore hheader
  case short =>
    intro hshort
    rw [if_pos (by rw [List.length_append]; omega)] at hheader
    obtain ⟨fault, hfault⟩ := Record.block_error_of_short hb hshort
    exact ⟨fault, loadRecords_refused hbefore hheader hfault⟩
  case mismatched =>
    intro hcomplete hne
    rw [if_pos hcomplete] at hheader
    refine loadRecords_refused hbefore hheader (Record.block_of_ne ?_)
    exact fun heq => hne (UInt32.toNat_inj.1 heq)
  case coincident =>
    intro hlong hcomplete heq loaded kept hload
    rw [if_pos hcomplete] at hheader
    refine prefix_of_loadRecords hbefore hheader (Record.block_eq_ok_iff.2 ⟨by rw [heq], ?_⟩) hload
    have hannounced := Bytes.toNatLE_lt size
    rw [hsize] at hannounced
    have hcapacity : ((Block.format.write b ++ rest).take size.toNatLE).length < Bytes.capacity 8 :=
      Nat.lt_of_le_of_lt (List.length_take_le _ _) (Nat.lt_trans hannounced (by decide))
    refine (Block.format_exact.decode_eq_ok_iff hcapacity).2 ?_
    exact List.prefix_take_iff.2 ⟨List.prefix_append _ _, hlong⟩

/-- **The length of a record is believed.** Blocks have been appended to an empty file with success,
and the four bytes change that tell the length of one of them. The file is refused and stays as it
is unless more is announced than follows, or the checksum is by coincidence that of what is
announced. If more is announced than follows, loading succeeds without the block and without all the
blocks behind it, and removes their complete records from the file. -/
theorem length_believed (hwrite : write.Lands)
    (happend : (BlockLog.records path write).appendAll blocks [] = (.ok (), contents))
    (hb : blocks[k]? = some b)
    (hdamage : contents.Altered damaged (Record.offset blocks k) (Record.offset blocks k + 4)) :
    LengthBelieved path damaged (blocks.take k) b
      (Record.announced damaged (Record.offset blocks k))
      (Record.behind damaged (Record.offset blocks k)) := by
  obtain ⟨hfits, rfl⟩ := appendAll_eq_ok hwrite happend
  rw [List.nil_append] at hdamage
  obtain ⟨size, hsize, rfl⟩ := Record.exists_size hb hdamage
  rw [Record.offset, Record.announced_header hsize,
    Record.behind_header hsize (Bytes.length_ofNatLE 4 _)]
  exact lengthBelieved_header (fun b hb => hfits b (List.mem_of_mem_take hb))
    (hfits b (List.mem_of_getElem? hb)) hsize

open Transparent in
theorem length_believed_rotated :
    let damaged := (Record.ofBlocks rotated.blocks).set 151 1
    loadRecords "blocks.log" damaged =
      (.ok (rotated.blocks.take 1), Record.ofBlocks (rotated.blocks.take 1)) := by
  intro damaged
  have hoffset : Record.offset rotated.blocks 1 = 148 := by decide +kernel
  have hdamage : Bytes.Altered (Record.ofBlocks rotated.blocks) damaged
      (Record.offset rotated.blocks 1) (Record.offset rotated.blocks 1 + 4) := by
    rw [hoffset]
    exact .set (by decide +kernel) (by decide +kernel) (by decide) (by decide)
  have hbelieved := length_believed (RecordWriter.lands_upTo none)
    (rotated_appended "blocks.log") rfl hdamage
  rw [hoffset] at hbelieved
  exact hbelieved.cut (by decide +kernel)

/-- Four blocks have been appended with success. After a change of one byte in the length of the
first, the file is loaded without an error, without any block, and nothing is left of it. -/
theorem acknowledged_blocks_lost :
    let log := BlockLog.records "blocks.log" (.upTo none)
    let file := Record.ofBlocks Transparent.rotated.blocks
    Transparent.rotated.blocks.length = 4 ∧
      log.appendAll Transparent.rotated.blocks [] = (.ok (), file) ∧
      file.Altered (file.set 3 1) 0 4 ∧
      log.load (file.set 3 1) = (.ok [], []) := by
  intro log file
  refine ⟨by decide, rotated_appended "blocks.log", ?_, ?_⟩
  · exact .set (by decide +kernel) (by decide +kernel) (by decide) (by decide)
  · have htorn : Record.split? (file.set 3 1) = none :=
      Record.split?_eq_none_iff.2 (.inr (by decide +kernel))
    have hnone : ∀ b ∈ ([] : List Block), Record.Fits b := nofun
    exact loadRecords_ofBlocks hnone htorn

end BlockLog

end CosignedLedger
