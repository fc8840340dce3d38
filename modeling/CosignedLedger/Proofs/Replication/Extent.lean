import CosignedLedger.Proofs.Replication.Interleaving
import Mathlib.Data.ENat.Lattice

/-!
# How far serving gets

A request on a store that stays as it is is answered from the first block on until one of four
things happens: the requested block has been sent, a block past the first carries no signature, the
requester takes no more, or there are no more blocks. Which of them comes first decides how many
responses are sent and how serving ends.

* `Store.first`: where the first stored block with some property is.
* `Serving.response_of_signed`, `Serving.response_of_unsigned`: the response for a block when all
  before it are signed.
* `Serving.serve_past`: serving gets past every block that does not stop it.
* `Serving.run_at_goal`, `Serving.run_at_barrier`: how it ends.
* `Serving.Extent`, `Serving.serve_extent`: what is sent, and what serving comes to.
-/

namespace CosignedLedger

namespace Store
variable {s : Store} {i : Nat} {P : Nat → Prop} [DecidablePred P]

instance (s : Store) (k : Nat) : Decidable (s.SignedAt k) :=
  decidable_of_iff (∃ b ∈ s.blocks[k]?, b.signature.isSome) <| by
    simp [SignedAt, Option.isSome_iff_exists]

instance (s : Store) (hash : Digest) (k : Nat) : Decidable (s.HoldsAt k hash) :=
  decidable_of_iff (∃ b ∈ s.blocks[k]?, b.hash = hash) <| by simp [HoldsAt]

/-- Where the first stored block with a property is, `⊤` if there is none. -/
def first (s : Store) (P : Nat → Prop) [DecidablePred P] : ℕ∞ :=
  ((List.range s.size).find? fun k => P k).elim ⊤ (↑)

theorem le_first_iff : (i : ℕ∞) ≤ s.first P ↔ ∀ k < i, k < s.size → ¬P k := by
  unfold first
  cases hfind : (List.range s.size).find? fun k => P k with
  | none =>
    have hnone := List.find?_range_eq_none.1 hfind
    simp only [Bool.not_eq_true', decide_eq_false_iff_not] at hnone
    simp only [Option.elim_none, le_top, true_iff]
    intro k _ hk
    exact hnone k hk
  | some j =>
    obtain ⟨hj, hlt, hbefore⟩ := List.find?_range_eq_some.1 hfind
    simp only [decide_eq_true_eq, List.mem_range, Bool.not_eq_true', decide_eq_false_iff_not] at *
    simp only [Option.elim_some, Nat.cast_le]
    constructor
    · intro hij k hk _
      exact hbefore k (Nat.lt_of_lt_of_le hk hij)
    · intro hnone
      by_contra hij
      exact hnone j (by omega) hlt hj

theorem lt_first_iff : (i : ℕ∞) < s.first P ↔ ∀ k ≤ i, k < s.size → ¬P k := by
  have hsucc : (i : ℕ∞) < s.first P ↔ ((i + 1 : ℕ) : ℕ∞) ≤ s.first P := by
    rw [Nat.cast_add, Nat.cast_one, ENat.add_one_le_iff (ENat.natCast_ne_top i)]
  rw [hsucc, le_first_iff]
  simp only [Nat.lt_succ_iff]

theorem holds_of_first_eq (h : s.first P = i) : i < s.size ∧ P i := by
  have hbefore := le_first_iff.1 (le_of_eq h.symm)
  have hnot : ¬(i : ℕ∞) < s.first P := by rw [h]; exact lt_irrefl _
  rw [lt_first_iff] at hnot
  push Not at hnot
  obtain ⟨k, hk, hstored, hP⟩ := hnot
  rcases Nat.lt_or_eq_of_le hk with hlt | rfl
  · exact absurd hP (hbefore k hlt hstored)
  · exact ⟨hstored, hP⟩

end Store

namespace Serving
variable {s : Store} {requester : Address} {target : Digest} {i : Nat} {b : Block}

theorem response_of_chain_error (hgenesis : b.isGenesis = false) {e : ChainError}
    (h : s.chainTo b.hash = .error e) : response s b = .error (.chain e) := by
  simp [response, hgenesis, h, Except.map, bind, Except.bind]

section Signed
variable (hs : s.Coherent) (hb : s.blocks[i]? = some b)
  (hbefore : ∀ k < i, 0 < k → s.SignedAt k)
include hs hb hbefore

theorem response_of_signed (hsigned : 0 < i → s.SignedAt i) : ∃ m, response s b = .ok m := by
  have hgenesis : b.isGenesis = decide (i = 0) := by rw [Block.isGenesis, hs.position hb]
  rcases Nat.eq_zero_or_pos i with rfl | hi
  · exact ⟨_, response_eq_ok_iff.2 (.inl ⟨hgenesis, rfl⟩)⟩
  · obtain ⟨g, hg⟩ := Store.exists_block_of_le hb (Nat.zero_le i)
    rcases Store.chainBetween_cases hs hg hb (Nat.zero_le i) with
      ⟨links, hlinks, _⟩ | ⟨k, hfirst, _⟩
    · rw [← Store.chainTo_eq hg] at hlinks
      refine ⟨_, response_eq_ok_iff.2 (.inr ⟨?_, _, hlinks, rfl⟩)⟩
      rw [hgenesis, decide_eq_false (by omega)]
    · obtain ⟨hpos, hk, _⟩ := Store.mem_stops.1 hfirst.mem
      rcases Nat.lt_or_eq_of_le hk with hlt | rfl
      · exact absurd (hbefore k hlt hpos) hfirst.unsigned
      · exact absurd (hsigned hi) hfirst.unsigned

/-- The chain to an unsigned block is not made, and it is this block that is reported for it. -/
theorem response_of_unsigned (hi : 0 < i) (hunsigned : ¬s.SignedAt i) :
    response s b = .error (.chain (.missingSignature i)) := by
  have hgenesis : b.isGenesis = false := by
    rw [Block.isGenesis, hs.position hb, decide_eq_false (by omega)]
  obtain ⟨g, hg⟩ := Store.exists_block_of_le hb (Nat.zero_le i)
  rcases Store.chainBetween_cases hs hg hb (Nat.zero_le i) with
    ⟨links, _, hconnected⟩ | ⟨k, hfirst, herror⟩
  · have hlast : i ∈ s.stops 0 i := Store.mem_stops.2 ⟨hi, Nat.le_refl i, .inl rfl⟩
    exact absurd (hconnected.signedAt i hlast) hunsigned
  · obtain ⟨hpos, hk, _⟩ := Store.mem_stops.1 hfirst.mem
    rcases Nat.lt_or_eq_of_le hk with hlt | rfl
    · exact absurd (hbefore k hlt hpos) hfirst.unsigned
    · rw [← Store.chainTo_eq hg] at herror
      exact response_of_chain_error hgenesis herror

end Signed

/-- A requester that takes so many responses, refuses the next one with an error, and does not
cancel. -/
structure TakesOnly (meet : Nat → Reception) (room : ℕ∞) (e : TransportError) : Prop where
  takes : ∀ n : Nat, n < room → meet n = ⟨false, some (.ok ())⟩
  refuses : ∀ n : Nat, n = room → meet n = ⟨false, some (.error e)⟩

/-! ### One block -/

section Block
variable {meet : Nat → Reception} {m : Message} {r : BlockRequest}

theorem run_refused (hb : s.blocks[i]? = some b) (hm : response s b = .ok m) {e : TransportError}
    (hmeet : meet i = ⟨false, some (.error e)⟩) :
    run s meet false (checking r i) = ([], .error (.send i e)) := by
  rw [run_answered hb hm, run]
  simp [hmeet, sent, failed, run_ended]

theorem run_unanswered (hb : s.blocks[i]? = some b) {e : ReplicationError}
    (he : response s b = .error e) : run s meet false (checking r i) = ([], .error e) := by
  rw [run_stored hb, run]
  simp only [step, he, failed, run_ended]

theorem run_exhausted (hi : s.size ≤ i) :
    run s meet false (checking r i) = ([], .error (.notFound r.target s.size)) := by
  have hchecking : step s false (checking r i) = ended (.error (.notFound r.target s.size)) := by
    simp [step, hi, failed]
  rw [run, hchecking, run_ended]

end Block

/-! ### Until something stops it -/

/-- Where the requested block is. -/
def goal (s : Store) (target : Digest) : ℕ∞ := s.first fun k => s.HoldsAt k target

/-- Where the first block past the first is that carries no signature. -/
def unsigned (s : Store) : ℕ∞ := s.first fun k => 0 < k ∧ ¬s.SignedAt k

theorem signedAt_of_lt_unsigned (h : (i : ℕ∞) < unsigned s) (hi : i < s.size) (hpos : 0 < i) :
    s.SignedAt i := by
  by_contra hnot
  exact Store.lt_first_iff.1 h i (Nat.le_refl i) hi ⟨hpos, hnot⟩

/-- Where serving cannot go on, if it has not got to the requested block before. -/
noncomputable def barrier (s : Store) (room : ℕ∞) : ℕ∞ := min (unsigned s) (min room s.size)

def InOrder (s : Store) (requester : Address) (served : List (Address × Message)) : Prop :=
  ∀ i receiver m, served[i]? = some (receiver, m) → receiver = requester ∧ s.Answer i m

theorem InOrder.concat {served : List (Address × Message)} (h : InOrder s requester served)
    {m : Message} (hm : s.Answer served.length m) :
    InOrder s requester (served ++ [(requester, m)]) := by
  intro i receiver m' hi
  rw [List.getElem?_append] at hi
  split at hi
  · exact h i receiver m' hi
  · rw [List.getElem?_singleton] at hi
    split at hi
    · cases hi
      rw [show i = served.length by omega]
      exact ⟨rfl, hm⟩
    · cases hi

section Rounds
variable (hs : s.Reachable) {meet : Nat → Reception} {room : ℕ∞} {e : TransportError}
  (hmeet : TakesOnly meet room e)
include hs

theorem exists_response_before (hi : (i : ℕ∞) < barrier s room) :
    ∃ b m, s.blocks[i]? = some b ∧ response s b = .ok m ∧ (i : ℕ∞) < room := by
  simp only [barrier, lt_min_iff, Nat.cast_lt] at hi
  obtain ⟨hunsigned, hroom, hsize⟩ := hi
  have hsigned : ∀ k ≤ i, 0 < k → s.SignedAt k := by
    intro k hk hpos
    have hlt := lt_of_le_of_lt (Nat.cast_le.2 hk) hunsigned
    exact signedAt_of_lt_unsigned hlt (Nat.lt_of_le_of_lt hk hsize) hpos
  obtain ⟨b, hb⟩ : ∃ b, s.blocks[i]? = some b := ⟨_, List.getElem?_eq_getElem hsize⟩
  obtain ⟨m, hm⟩ := response_of_signed hs.coherent hb
    (fun k hk => hsigned k (Nat.le_of_lt hk)) (hsigned i (Nat.le_refl i))
  exact ⟨b, m, hb, hm, hroom⟩

include hmeet

variable (requester) in
theorem serve_past {q : Nat} (hgoal : (q : ℕ∞) ≤ goal s target)
    (hbarrier : (q : ℕ∞) ≤ barrier s room) :
    ∃ served, served.length = q ∧ InOrder s requester served ∧
      serve s meet (some (.ok (requester, .blockRequest target))) =
        let rest := run s meet false (checking ⟨requester, target⟩ q)
        (served ++ rest.1, rest.2) := by
  induction q with
  | zero => exact ⟨[], rfl, by simp [InOrder], rfl⟩
  | succ q ih =>
    have hlt : (q : ℕ∞) < ((q + 1 : ℕ) : ℕ∞) := Nat.cast_lt.2 (Nat.lt_succ_self q)
    have hgoal' := lt_of_lt_of_le hlt hgoal
    have hbarrier' := lt_of_lt_of_le hlt hbarrier
    obtain ⟨served, hlength, horder, hrun⟩ := ih (le_of_lt hgoal') (le_of_lt hbarrier')
    obtain ⟨b, m, hb, hm, hroom⟩ := exists_response_before hs hbarrier'
    have hother : b.hash ≠ target := by
      intro hhash
      exact Store.lt_first_iff.1 hgoal' q (Nat.le_refl q) (List.getElem?_eq_some_iff.1 hb).1
        ⟨b, hb, hhash⟩
    refine ⟨served ++ [(requester, m)], by simp [hlength], horder.concat ?_, ?_⟩
    · rw [hlength]
      exact (hs.coherent.answer_iff hb).2 hm
    · rw [hrun, run_answered hb hm, run_taken (hmeet.takes q hroom)]
      simp [sent, hother]

variable (requester) in
theorem run_at_goal {q : Nat} (hgoal : goal s target = q) (hbarrier : (q : ℕ∞) < barrier s room) :
    ∃ m, s.Answer q m ∧ run s meet false (checking ⟨requester, target⟩ q) =
      ([(requester, m)], .ok ()) := by
  obtain ⟨b, m, hb, hm, hroom⟩ := exists_response_before hs hbarrier
  obtain ⟨_, b', hb', hhash⟩ := Store.holds_of_first_eq hgoal
  rw [hb] at hb'
  cases hb'
  refine ⟨m, (hs.coherent.answer_iff hb).2 hm, ?_⟩
  rw [run_answered hb hm, run_taken (hmeet.takes q hroom)]
  simp only [sent, if_pos hhash, run_ended]

/-- Why serving has ended with the responses for the first `r` blocks and not with the requested
one. -/
def shortfall (s : Store) (target : Digest) (e : TransportError) (r : Nat) : ReplicationError :=
  if r = s.size then .notFound target s.size
  else if r = unsigned s then .chain (.missingSignature r)
  else .send r e

/-- At the barrier there is no block, or no response for it, or the response is refused. -/
theorem run_at_barrier {q : Nat} (hbarrier : barrier s room = q) :
    run s meet false (checking ⟨requester, target⟩ q) = ([], .error (shortfall s target e q)) := by
  have hle : (q : ℕ∞) ≤ barrier s room := le_of_eq hbarrier.symm
  simp only [barrier, le_min_iff, Nat.cast_le] at hle
  obtain ⟨hunsigned, hroom, hsize⟩ := hle
  unfold shortfall
  rcases Nat.eq_or_lt_of_le hsize with heq | hlt
  · rw [if_pos heq, run_exhausted (Nat.le_of_eq heq.symm)]
  obtain ⟨b, hb⟩ : ∃ b, s.blocks[q]? = some b := ⟨_, List.getElem?_eq_getElem hlt⟩
  have hsigned : ∀ k < q, 0 < k → s.SignedAt k := by
    intro k hk hpos
    have hbefore := lt_of_lt_of_le (Nat.cast_lt.2 hk) hunsigned
    exact signedAt_of_lt_unsigned hbefore (Nat.lt_trans hk hlt) hpos
  rw [if_neg (Nat.ne_of_lt hlt)]
  by_cases hat : (q : ℕ∞) = unsigned s
  · obtain ⟨_, hpos, hnot⟩ := Store.holds_of_first_eq hat.symm
    rw [if_pos hat, run_unanswered hb (response_of_unsigned hs.coherent hb hsigned hpos hnot)]
  · have hroom' : (q : ℕ∞) = room := by
      by_contra hne
      have hbefore : (q : ℕ∞) < barrier s room := by
        simp only [barrier, lt_min_iff, Nat.cast_lt]
        exact ⟨lt_of_le_of_ne hunsigned hat, lt_of_le_of_ne hroom hne, hlt⟩
      exact (ne_of_lt hbefore) hbarrier.symm
    have hnow := signedAt_of_lt_unsigned (lt_of_le_of_ne hunsigned hat) hlt
    obtain ⟨m, hm⟩ := response_of_signed hs.coherent hb hsigned hnow
    rw [if_neg hat, run_refused hb hm (hmeet.refuses q hroom')]

end Rounds

/-- What comes of a request for `target` if the requester takes only so many responses: `r` of them
are sent. -/
structure Extent (s : Store) (requester : Address) (target : Digest) (room : ℕ∞)
    (e : TransportError) (served : List (Address × Message) × Except ReplicationError Unit)
    (r : Nat) : Prop where
  /-- The requested block is the last to be sent, unless an unsigned block, a refusal or the end of
  the blocks comes before. -/
  reach : r = min (goal s target + 1) (min (unsigned s) (min room s.size))
  length : served.1.length = r
  inOrder : InOrder s requester served.1
  ok_iff : served.2 = .ok () ↔ goal s target < min (unsigned s) (min room s.size)
  error : ¬goal s target < min (unsigned s) (min room s.size) →
    served.2 = .error (shortfall s target e r)
  /-- There is no other error. -/
  errors : ∀ err, served.2 = .error err →
    err = .notFound target s.size ∨ err = .chain (.missingSignature r) ∨ err = .send r e

theorem shortfall_cases (s : Store) (target : Digest) (e : TransportError) (r : Nat) :
    shortfall s target e r = .notFound target s.size ∨
      shortfall s target e r = .chain (.missingSignature r) ∨
      shortfall s target e r = .send r e := by
  unfold shortfall
  split
  · exact .inl rfl
  · split
    · exact .inr (.inl rfl)
    · exact .inr (.inr rfl)

section Extent
variable (hs : s.Reachable) {meet : Nat → Reception} {room : ℕ∞} {e : TransportError}
  (hmeet : TakesOnly meet room e) {q : Nat}
include hs hmeet

theorem extent_of_goal (hgoal : goal s target = q) (hbarrier : (q : ℕ∞) < barrier s room) :
    Extent s requester target room e
      (serve s meet (some (.ok (requester, .blockRequest target)))) (q + 1) := by
  obtain ⟨served, hlength, horder, hserve⟩ :=
    serve_past requester hs hmeet (le_of_eq hgoal.symm) (le_of_lt hbarrier)
  obtain ⟨m, hm, hlast⟩ := run_at_goal requester hs hmeet hgoal hbarrier
  rw [hserve, hlast]
  have hlt : goal s target < barrier s room := by rwa [hgoal]
  exact
    { reach := by
        rw [← barrier, min_eq_left (Order.add_one_le_of_lt hlt), hgoal]
        rfl
      length := by simp [hlength]
      inOrder := horder.concat (hlength.symm ▸ hm)
      ok_iff := iff_of_true rfl hlt
      error := fun hnot => absurd hlt hnot
      errors := fun _ herr => by cases herr }

theorem extent_of_barrier (hbarrier : barrier s room = q) (hgoal : (q : ℕ∞) ≤ goal s target) :
    Extent s requester target room e
      (serve s meet (some (.ok (requester, .blockRequest target)))) q := by
  obtain ⟨served, hlength, horder, hserve⟩ :=
    serve_past requester hs hmeet hgoal (le_of_eq hbarrier.symm)
  rw [hserve, run_at_barrier hs hmeet hbarrier]
  have hle : barrier s room ≤ goal s target := by rwa [hbarrier]
  exact
    { reach := by rw [← barrier, min_eq_right (hle.trans le_self_add), hbarrier]
      length := by simp [hlength]
      inOrder := by simpa using horder
      ok_iff := iff_of_false (by simp) (not_lt_of_ge hle)
      error := fun _ => rfl
      errors := by
        rintro _ ⟨⟩
        exact shortfall_cases s target e q }

end Extent

/-- **Serving goes as far as it can and says why it stops.** On a store that stays as it is, a
requester that takes only so many responses is sent the answers for the first blocks. Serving
succeeds if the requested block is stored, all blocks past the first up to it are signed, and the
requester takes the response for it. Otherwise it ends at the first block that is missing, unsigned
or refused, which it reports. -/
theorem serve_extent (hs : s.Reachable) {meet : Nat → Reception} {room : ℕ∞} {e : TransportError}
    (hmeet : TakesOnly meet room e) (requester : Address) (target : Digest) :
    ∃ r, Extent s requester target room e
      (serve s meet (some (.ok (requester, .blockRequest target)))) r := by
  have hsize : barrier s room ≤ s.size := (min_le_right _ _).trans (min_le_right _ _)
  rcases lt_or_ge (goal s target) (barrier s room) with hlt | hge
  · have hfinite : goal s target ≠ ⊤ := ne_of_lt (hlt.trans_le le_top)
    obtain ⟨q, hq⟩ := ENat.ne_top_iff_exists.1 hfinite
    exact ⟨q + 1, extent_of_goal hs hmeet hq.symm (by rwa [hq])⟩
  · have hfinite : barrier s room ≠ ⊤ := ne_of_lt (hsize.trans_lt (ENat.natCast_lt_top _))
    obtain ⟨q, hq⟩ := ENat.ne_top_iff_exists.1 hfinite
    exact ⟨q, extent_of_barrier hs hmeet hq.symm (by rwa [hq])⟩

section Stripped
open Transparent

def stripped : Store :=
  (Store.replay (rotated.blocks.modify 2 ({ · with signature := none }))).toOption.getD .empty

theorem stripped_reachable : stripped.Reachable := by
  have hreplay : Store.replay (rotated.blocks.modify 2 ({ · with signature := none })) =
      .ok stripped := by decide +kernel
  exact Store.Reachable.empty.replayFrom hreplay

/-- The last of four blocks is asked for by someone who would take three. The third block is not
signed, so two responses are sent. -/
theorem serve_extent_stripped :
    let meet : Nat → Reception := fun n => ⟨false, some (if n < 3 then .ok () else .error .closed)⟩
    let served := serve stripped meet (some (.ok (⟨"client"⟩, .blockRequest rotated.lastHash)))
    stripped.Reachable ∧ TakesOnly meet 3 .closed ∧
      Extent stripped ⟨"client"⟩ rotated.lastHash 3 .closed served 2 ∧
      served.2 = .error (.chain (.missingSignature 2)) := by
  intro meet served
  have hmeet : TakesOnly meet 3 .closed :=
    { takes := fun n hn => by
        have hn : n < 3 := by exact_mod_cast hn
        simp [meet, hn]
      refuses := fun n hn => by
        obtain rfl : n = 3 := by exact_mod_cast hn
        simp [meet] }
  have hunsigned : unsigned stripped = 2 := by decide +kernel
  have hgoal : goal stripped rotated.lastHash = 3 := by decide +kernel
  obtain ⟨r, h⟩ := serve_extent stripped_reachable hmeet ⟨"client"⟩ rotated.lastHash
  obtain rfl : r = 2 := by
    have hreach := h.reach
    rw [hunsigned, hgoal, show stripped.size = 4 by decide +kernel] at hreach
    exact Nat.cast_inj.1 (hreach.trans (by rfl))
  refine ⟨stripped_reachable, hmeet, h, ?_⟩
  rw [h.error (by rw [hunsigned, hgoal]; decide), shortfall, hunsigned]
  rfl

end Stripped

end Serving

end CosignedLedger
