import CosignedLedger.Proofs.Store.Records

/-!
# Loading whatever a file holds

A file may hold any bytes. Loading it never reads past their end. It recovers the blocks of the
complete records up to a last one that is cut short, or refuses the file and leaves it as it is;
what it keeps is read back as it is and can be appended to.

* `Record.Torn`: what is no complete record, because it is cut short.
* `Record.walk`, `Record.walk_eq_scan`: the loop over positions, in which every read and every sum
  is checked, comes to what `Record.scan` gives.
* `Record.Recovers`, `BlockLog.loadRecords_eq_ok_iff`: when loading succeeds, and with what.
* `RecordWriter.Lands`: a write that succeeds has put its record at the end.
* `BlockLog.Recovery`, `BlockLog.loads_anything`: what holds of loading any contents.
-/

namespace CosignedLedger

namespace Record
variable {path : String} {offset length : Nat} {contents bytes rest : Bytes} {blocks : List Block}

/-- There is no room for a header, or fewer bytes follow the header than it announces. -/
def Torn (rest : Bytes) : Prop :=
  rest.length < 8 ∨ rest.length - 8 < Bytes.toNatLE (rest.take 4)

theorem split?_eq_none_iff : split? rest = none ↔ Torn rest := by
  simp only [split?, Torn, ite_eq_right_iff, reduceCtorEq, imp_false, List.length_take,
    List.length_drop]
  omega

/-! ### The loop over positions -/

/-- The bytes from one position up to another; none unless both are positions of the string. -/
def slice? (bytes : Bytes) (first last : Nat) : Option Bytes :=
  if first ≤ last ∧ last ≤ bytes.length then some ((bytes.drop first).take (last - first)) else none

/-- Reads the records from the position `cursor` on, and gives the position at which they end. There
is no answer at all if a position is no word of 64 bits or a read leaves the string. -/
def walk (path : String) (bytes : Bytes) (cursor : Nat) :
    Option (Except LogFault (List Block × Nat)) :=
  if cursor < bytes.length then
    if UInt64.size ≤ cursor + 8 then none
    else if bytes.length < cursor + 8 then some (.ok ([], cursor))
    else match slice? bytes cursor (cursor + 4), slice? bytes (cursor + 4) (cursor + 4 + 4) with
      | some size, some sum =>
        let next := cursor + 8 + Bytes.toNatLE size
        if UInt64.size ≤ next then none
        else if bytes.length < next then some (.ok ([], cursor))
        else match slice? bytes (cursor + 8) next with
          | none => none
          | some body =>
            match block path cursor (Bytes.toNatLE sum) body with
            | .error fault => some (.error fault)
            | .ok b => (walk path bytes next).map fun found =>
              found.map fun (blocks, last) => (b :: blocks, last)
      | _, _ => none
  else some (.ok ([], cursor))
termination_by bytes.length - cursor

theorem slice?_add {first count : Nat} (h : first + count ≤ bytes.length) :
    slice? bytes first (first + count) = some ((bytes.drop first).take count) := by
  rw [slice?, if_pos ⟨Nat.le_add_right first count, h⟩, Nat.add_sub_cancel_left]

section
variable {cursor sum : Nat} {body : Bytes}

theorem announced_lt (bytes : Bytes) (cursor : Nat) (h : cursor + 8 ≤ bytes.length) :
    Bytes.toNatLE ((bytes.drop cursor).take 4) < UInt32.size := by
  have hlt := Bytes.toNatLE_lt ((bytes.drop cursor).take 4)
  have hlength : ((bytes.drop cursor).take 4).length = 4 := by
    rw [List.length_take, List.length_drop]
    omega
  rwa [hlength] at hlt

theorem walk_of_none (path : String) (hword : bytes.length < UInt64.size / 2)
    (h : split? (bytes.drop cursor) = none) :
    walk path bytes cursor = some (.ok ([], cursor)) := by
  have hroom : UInt32.size + 8 ≤ UInt64.size / 2 := by decide
  have htorn := split?_eq_none_iff.1 h
  rw [Torn, List.length_drop] at htorn
  rw [walk]
  by_cases hcursor : cursor < bytes.length
  · rw [if_pos hcursor, if_neg (by omega)]
    by_cases hheader : bytes.length < cursor + 8
    · rw [if_pos hheader]
    · have hannounced := announced_lt bytes cursor (Nat.not_lt.1 hheader)
      rw [if_neg hheader, slice?_add (by omega), slice?_add (by omega)]
      dsimp only
      rw [if_neg (by omega), if_pos (by omega)]
  · rw [if_neg hcursor]

theorem walk_of_some (path : String) (hword : bytes.length < UInt64.size / 2)
    (h : split? (bytes.drop cursor) = some (sum, body, rest)) :
    rest = bytes.drop (cursor + (8 + body.length)) ∧
    walk path bytes cursor =
      match block path cursor sum body with
      | .error fault => some (.error fault)
      | .ok b => (walk path bytes (cursor + (8 + body.length))).map fun found =>
        found.map fun (blocks, last) => (b :: blocks, last) := by
  have hroom : UInt32.size + 8 ≤ UInt64.size / 2 := by decide
  simp only [split?, List.drop_drop] at h
  split at h
  · rename_i hcomplete
    simp only [Option.some.injEq, Prod.mk.injEq] at h
    obtain ⟨rfl, rfl, rfl⟩ := h
    rw [hcomplete.2, ← Nat.add_assoc]
    simp only [List.length_take, List.length_drop] at hcomplete
    have hannounced := announced_lt bytes cursor (by omega)
    refine ⟨rfl, ?_⟩
    rw [walk, if_pos (by omega), if_neg (by omega), if_neg (by omega), slice?_add (by omega),
      slice?_add (by omega)]
    dsimp only
    rw [if_neg (by omega), if_neg (by omega), slice?_add (by omega)]
  · cases h

theorem walk_eq_scan (path : String) (hword : bytes.length < UInt64.size / 2) (cursor : Nat) :
    walk path bytes cursor =
      some ((scan path cursor (bytes.drop cursor)).map
        fun found => (found.1, cursor + found.2)) := by
  -- What has been read so far never matters, so the induction is on what is left of the string.
  induction hleft : bytes.length - cursor using Nat.strongRecOn generalizing cursor with
  | _ left ih =>
    cases hsplit : split? (bytes.drop cursor) with
    | none =>
      rw [walk_of_none path hword hsplit, scan_of_none hsplit]
      rfl
    | some found =>
      obtain ⟨sum, body, rest⟩ := found
      obtain ⟨hrest, hwalk⟩ := walk_of_some path hword hsplit
      have hlength := length_of_split? hsplit
      rw [List.length_drop] at hlength
      rw [hwalk, scan_of_some hsplit]
      cases block path cursor sum body with
      | error fault => rfl
      | ok b =>
        rw [ih _ (by omega) _ rfl, ← hrest]
        dsimp only [bind, Except.bind]
        cases scan path (cursor + (8 + body.length)) rest with
        | error fault => rfl
        | ok found => simp only [Option.map_some, Except.map, Nat.add_assoc]; rfl

end

/-! ### What is recovered -/

/-- The contents are complete records, which are kept and whose bodies hold the blocks, and then
perhaps a last record that is cut short. -/
def Recovers (contents : Bytes) (blocks : List Block) (kept : Bytes) : Prop :=
  ∃ bodies rest, contents = kept ++ rest ∧ kept = ofBodies bodies ∧
    List.Forall₂ Holds bodies blocks ∧ Torn rest

theorem torn_nil : Torn [] := .inl (by decide)

theorem recovers_of_scan (h : scan path offset bytes = .ok (blocks, length)) :
    Recovers bytes blocks (bytes.take length) ∧ length ≤ bytes.length := by
  -- The induction is on what is left of the string, as the reading is.
  induction hleft : bytes.length using Nat.strongRecOn generalizing bytes blocks length offset with
  | _ left ih =>
    cases hsplit : split? bytes with
    | none =>
      rw [scan_of_none hsplit] at h
      cases h
      exact ⟨⟨[], bytes, rfl, rfl, .nil, split?_eq_none_iff.1 hsplit⟩, Nat.zero_le _⟩
    | some found =>
      obtain ⟨sum, body, rest⟩ := found
      have hlength := length_of_split? hsplit
      rw [scan_of_some hsplit, Except.bind_eq_ok] at h
      obtain ⟨b, hb, h⟩ := h
      rw [Except.bind_eq_ok] at h
      obtain ⟨⟨bs, after⟩, hscan, h⟩ := h
      cases h
      obtain ⟨rfl, hdecode⟩ := block_eq_ok_iff.1 hb
      obtain ⟨hshort, _, rfl⟩ := split?_eq_some_iff.1 hsplit
      obtain ⟨⟨bodies, torn, hrest, hkept, hholds, htorn⟩, hafter⟩ :=
        ih rest.length (by omega) hscan rfl
      have hframe : (frame body).length = 8 + body.length := length_frame body
      have htake : (frame body ++ rest).take (8 + body.length + after) =
          frame body ++ rest.take after := by
        rw [← hframe, List.take_length_add_append]
      refine ⟨⟨body :: bodies, torn, ?_, ?_, .cons ⟨hshort, hdecode⟩ hholds, htorn⟩, by omega⟩
      · show frame body ++ rest = (frame body ++ rest).take _ ++ torn
        rw [htake, List.append_assoc, ← hrest]
      · show (frame body ++ rest).take _ = _
        rw [htake, ofBodies_cons, hkept]

end Record

/-- A write that succeeds has put all of the record at the end. -/
def RecordWriter.Lands (write : RecordWriter) : Prop :=
  ∀ ⦃contents record written : Bytes⦄,
    write contents record = (.ok (), written) → written = contents ++ record

theorem RecordWriter.lands_upTo (limit : Option Nat) : (RecordWriter.upTo limit).Lands := by
  intro contents record written h
  unfold upTo at h
  split at h
  · cases h
    rfl
  · split at h
    · cases h
      rfl
    · cases h

namespace BlockLog
variable {path : String} {write : RecordWriter} {contents kept appended : Bytes}
  {blocks : List Block} {b : Block}

theorem loadRecords_eq_ok_iff :
    loadRecords path contents = (.ok blocks, kept) ↔ Record.Recovers contents blocks kept := by
  constructor
  · intro h
    unfold loadRecords at h
    split at h
    · cases h
    · rename_i blocks' length hscan
      cases h
      exact (Record.recovers_of_scan hscan).1
  · rintro ⟨bodies, rest, rfl, rfl, hholds, htorn⟩
    exact loadRecords_ofBodies hholds (Record.split?_eq_none_iff.2 htorn)

theorem loadRecords_eq_error {e : StoreError} (h : loadRecords path contents = (.error e, kept)) :
    (∃ fault, e = .log fault) ∧ kept = contents := by
  unfold loadRecords at h
  split at h
  · rename_i fault _
    cases h
    exact ⟨⟨fault, rfl⟩, rfl⟩
  · cases h

theorem appendRecord_eq_ok (hwrite : write.Lands)
    (h : appendRecord path write b contents = (.ok (), appended)) :
    Record.Fits b ∧ appended = contents ++ Record.ofBlock b := by
  unfold appendRecord at h
  dsimp only at h
  split at h
  · cases h
  · rename_i hfits
    split at h
    · rename_i written hwritten
      cases h
      exact ⟨Nat.not_le.1 hfits, hwrite hwritten⟩
    · cases h

theorem appendRecord_upTo (hb : Record.Fits b) {limit : Option Nat}
    (hroom : ∀ n, limit = some n → (contents ++ Record.ofBlock b).length ≤ n) :
    appendRecord path (.upTo limit) b contents = (.ok (), contents ++ Record.ofBlock b) := by
  have hwrite : RecordWriter.upTo limit contents (Record.ofBlock b) =
      (.ok (), contents ++ Record.ofBlock b) := by
    cases limit with
    | none => rfl
    | some n =>
      have hle := hroom n rfl
      rw [List.length_append] at hle
      rw [RecordWriter.upTo, if_pos hle]
  rw [Record.ofBlock] at hwrite
  simp only [appendRecord, if_neg (Nat.not_le.2 hb), hwrite, Record.ofBlock]

theorem recovers_kept (h : Record.Recovers contents blocks kept) :
    Record.Recovers kept blocks kept := by
  obtain ⟨bodies, _, _, hkept, hholds, _⟩ := h
  exact ⟨bodies, [], (List.append_nil _).symm, hkept, hholds, Record.torn_nil⟩

theorem recovers_append (h : Record.Recovers contents blocks kept) (hb : Record.Fits b) :
    Record.Recovers (kept ++ Record.ofBlock b) (blocks ++ [b]) (kept ++ Record.ofBlock b) := by
  obtain ⟨bodies, _, _, rfl, hholds, _⟩ := h
  refine ⟨bodies ++ [Block.format.write b], [], (List.append_nil _).symm, ?_, ?_, Record.torn_nil⟩
  · rw [Record.ofBodies_append, Record.ofBodies, Record.ofBodies, List.flatMap_singleton]
    rfl
  · exact List.rel_append hholds (.cons hb.holds .nil)

/-- What holds of loading the contents of a file. -/
structure Recovery (path : String) (contents : Bytes) : Prop where
  /-- The loop over positions has an answer, and it is that of the reading. Contents that are in
  memory are shorter than half of what words can tell. -/
  within : contents.length < UInt64.size / 2 →
    Record.walk path contents 0 = some (Record.scan path 0 contents)
  recovers : ∀ blocks kept,
    loadRecords path contents = (.ok blocks, kept) ↔ Record.Recovers contents blocks kept
  refuses : ∀ e kept, loadRecords path contents = (.error e, kept) →
    (∃ fault, e = .log fault) ∧ kept = contents
  again : ∀ blocks kept, loadRecords path contents = (.ok blocks, kept) →
    loadRecords path kept = (.ok blocks, kept)
  appends : ∀ blocks kept, loadRecords path contents = (.ok blocks, kept) →
    ∀ (write : RecordWriter) (b : Block) (appended : Bytes), write.Lands →
      appendRecord path write b kept = (.ok (), appended) →
      loadRecords path appended = (.ok (blocks ++ [b]), appended)

/-- **Any file can be loaded.** Whatever its contents are, no read leaves them; the blocks of the
complete records are recovered, or the file is refused and left alone; and what has been kept is
recovered again, with one more block after a successful append. -/
theorem loads_anything (path : String) (contents : Bytes) : Recovery path contents where
  within := by
    intro hword
    rw [Record.walk_eq_scan path hword 0, List.drop_zero]
    cases Record.scan path 0 contents with
    | error fault => rfl
    | ok found => rw [Except.map, Nat.zero_add]
  recovers _ _ := loadRecords_eq_ok_iff
  refuses _ _ := loadRecords_eq_error
  again := by
    intro blocks kept h
    exact loadRecords_eq_ok_iff.2 (recovers_kept (loadRecords_eq_ok_iff.1 h))
  appends := by
    intro blocks kept h write b appended hwrite happend
    obtain ⟨hb, rfl⟩ := appendRecord_eq_ok hwrite happend
    exact loadRecords_eq_ok_iff.2 (recovers_append (loadRecords_eq_ok_iff.1 h) hb)

end BlockLog

end CosignedLedger
