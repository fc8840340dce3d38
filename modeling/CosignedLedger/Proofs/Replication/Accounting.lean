import CosignedLedger.Proofs.Replication.Completion

/-!
# What a catch-up reports

Whatever frames arrive, a call to catch up takes some responses, one after the other, and then ends:
with the one that has brought the target, or with a frame that it refuses. It reports the responses
that it has taken, and one that it has refused has left no trace in the store.

* `Store.Takes`: what a block does to a store when it is taken.
* `Ledger.accept_of_ok`, `Ledger.accept_of_error`: a response that is taken, and one that is not.
* `Ledger.Consumes`: responses that are taken one after the other, and what they leave.
* `Ledger.Refuses`: where a call ends with an error.
* `Progress.receiveAll_splits`: every run is responses that are taken and then one of the two ends.
* `Progress.Reports`, `Progress.receiveAll_accounts`: what a report says, and what an error leaves.
-/

namespace CosignedLedger

namespace Store
variable {s s' : Store} {c : Crypto} {limit : Nat} {b : Block}

/-- A block is taken: one with its hash is stored already, or it is published. -/
inductive Takes (s : Store) (b : Block) : Verdict → Store → Prop where
  | known {stored : Block} : stored ∈ s.blocks → stored.hash = b.hash → Takes s b .known s
  | fresh : s.Admits b → Takes s b .fresh (s.publish b)

theorem Judges.holds {chain : Option Bytes} (h : s.Judges c limit b chain (.ok .known)) :
    ∃ stored ∈ s.blocks, stored.hash = b.hash := by
  cases h with
  | @genesis stored _ _ hstored hcompares =>
    cases hcompares with
    | known hhash =>
      rw [genesis?_eq] at hstored
      exact ⟨stored, List.mem_of_getElem? hstored, hhash⟩
  | proven _ _ _ _ hproven =>
    cases hproven with
    | @stored stored _ _ hstored hcompares =>
      cases hcompares with
      | known hhash => exact ⟨stored, List.mem_of_getElem? hstored, hhash⟩

end Store

namespace ReplicationError

/-- The error says that nothing more has come, and not what was wrong with what came. -/
def IsIncomplete : ReplicationError → Prop
  | incomplete _ _ _ => True
  | _ => False

theorem ofCodec_not_incomplete (e : CodecError) : ¬(ofCodec e).IsIncomplete := by
  cases e <;> exact id

end ReplicationError

theorem Store.Judges.not_incomplete {s : Store} {c : Crypto} {limit : Nat} {b : Block}
    {chain : Option Bytes} {e : ReplicationError} (h : s.Judges c limit b chain (.error e)) :
    ¬e.IsIncomplete := by
  cases h with
  | genesis _ _ hcompares =>
    cases hcompares
    exact id
  | undecoded _ _ => exact ReplicationError.ofCodec_not_incomplete _
  | proven _ _ _ _ hproven =>
    cases hproven with
    | stored _ _ hcompares =>
      cases hcompares
      exact id
    | signature _ => exact id
    | signer _ _ _ _ => exact id
  | _ => exact id

/-- The blocks among those taken that were new, in order. -/
def added (taken : List (Block × Verdict)) : List Block :=
  taken.filterMap fun
    | (_, .known) => none
    | (b, .fresh) => some b

theorem added_cons (t : Block × Verdict) (taken : List (Block × Verdict)) :
    added (t :: taken) = added [t] ++ added taken :=
  List.filterMap_append (l := [t])

def EndsAt (target : Digest) (taken : List (Block × Verdict)) : Prop :=
  ∃ before last, taken = before ++ [last] ∧ last.1.hash = target ∧
    ∀ t ∈ before, t.1.hash ≠ target

theorem EndsAt.cons {target : Digest} {taken : List (Block × Verdict)} (h : EndsAt target taken)
    {t : Block × Verdict} (ht : t.1.hash ≠ target) : EndsAt target (t :: taken) := by
  obtain ⟨before, last, rfl, hlast, hbefore⟩ := h
  refine ⟨t :: before, last, rfl, hlast, ?_⟩
  rintro t' (_ | ⟨_, ht'⟩)
  · exact ht
  · exact hbefore t' ht'

section
variable {μ : Type} {log : BlockLog μ} {c : Crypto} {limit : Nat}

namespace Store.Takes
variable {s s' : Store} {b : Block} {verdict : Verdict}

theorem reachable (h : s.Takes b verdict s') (hs : s.Reachable) : s'.Reachable := by
  cases h with
  | known => exact hs
  | fresh hadmits => exact hs.publish (check_eq_ok_iff.2 hadmits)

theorem blocks_eq (h : s.Takes b verdict s') : s'.blocks = s.blocks ++ added [(b, verdict)] := by
  cases h with
  | known => exact (List.append_nil _).symm
  | fresh => rfl

theorem holds (h : s.Takes b verdict s') : ∃ stored ∈ s'.blocks, stored.hash = b.hash := by
  cases h with
  | known hmem hhash => exact ⟨_, hmem, hhash⟩
  | fresh => exact ⟨b, List.mem_append_right _ (List.mem_singleton_self b), rfl⟩

end Store.Takes

namespace Ledger
variable {block : Bytes} {chain : Option Bytes} {l : Ledger μ}

theorem Accepts.takes {b : Block} {verdict : Verdict}
    (h : l.Accepts log c limit block chain (.ok (b, verdict)) l') :
    (decodeBlock c limit block).result = .ok b ∧ l.store.Takes b verdict l'.store := by
  cases h with
  | known hdecode hjudge =>
    obtain ⟨stored, hmem, hhash⟩ := (Store.judges_of_judge hjudge).holds
    exact ⟨hdecode, .known hmem hhash⟩
  | fresh hdecode _ hadmits _ => exact ⟨hdecode, .fresh hadmits⟩

/-- A response that is refused leaves the store as it is, also when it is the log that refuses. -/
theorem Accepts.leaves {e : ReplicationError}
    (h : l.Accepts log c limit block chain (.error e) l') :
    l'.store = l.store ∧ ¬e.IsIncomplete := by
  cases h with
  | undecoded _ => exact ⟨rfl, ReplicationError.ofCodec_not_incomplete _⟩
  | refused _ hjudge => exact ⟨rfl, (Store.judges_of_judge hjudge).not_incomplete⟩
  | unstored _ _ _ => exact ⟨rfl, id⟩

theorem accept_of_ok {b : Block} {verdict : Verdict}
    (h : (l.accept log c limit block chain).result = .ok (b, verdict)) :
    (decodeBlock c limit block).result = .ok b ∧
      l.store.Takes b verdict (l.accept log c limit block chain).ledger.store := by
  have haccepts := l.accept_accepts log c limit block chain
  rw [h] at haccepts
  exact haccepts.takes

theorem accept_of_error {e : ReplicationError}
    (h : (l.accept log c limit block chain).result = .error e) :
    (l.accept log c limit block chain).ledger.store = l.store ∧ ¬e.IsIncomplete := by
  have haccepts := l.accept_accepts log c limit block chain
  rw [h] at haccepts
  exact haccepts.leaves

variable (log c limit)

/-- Responses are taken one after the other: the frames that they come in, the block of each with
what became of it, and the ledger that they leave. -/
inductive Consumes : Ledger μ → List Frame → List (Block × Verdict) → Ledger μ → Prop where
  | nil (l : Ledger μ) : Consumes l [] [] l
  | cons {l l' : Ledger μ} {peer : Address} {block : Bytes} {chain : Option Bytes} {b : Block}
      {verdict : Verdict} {frames : List Frame} {taken : List (Block × Verdict)} :
      (decodeBlock c limit block).result = .ok b →
      (l.accept log c limit block chain).result = .ok (b, verdict) →
      Consumes (l.accept log c limit block chain).ledger frames taken l' →
      Consumes l (.ok (peer, .blockResponse block chain) :: frames) ((b, verdict) :: taken) l'

/-- A call for a target that has taken `n` responses ends with this error when these frames are
left: there are none, or the first of them is an error, another message, or a response that is not
taken and leaves the store as it is. -/
inductive Refuses (target : Digest) (n : Nat) (l : Ledger μ) :
    List Frame → ReplicationError → Prop where
  | closed : Refuses target n l [] (.incomplete target n .closed)
  | lost {cause : TransportError} {later : List Frame} :
      Refuses target n l (.error cause :: later) (.incomplete target n cause)
  | unexpected {peer : Address} {message : Message} {later : List Frame} :
      (∀ block chain, message ≠ .blockResponse block chain) →
      Refuses target n l (.ok (peer, message) :: later)
        (.protocol (.expectedResponse message.kind))
  | response {peer : Address} {block : Bytes} {chain : Option Bytes} {e : ReplicationError}
      {later : List Frame} :
      (l.accept log c limit block chain).result = .error e →
      (l.accept log c limit block chain).ledger.store = l.store → ¬e.IsIncomplete →
      Refuses target n l (.ok (peer, .blockResponse block chain) :: later) e

variable {log c limit}

namespace Consumes
variable {l' : Ledger μ} {frames : List Frame} {taken : List (Block × Verdict)}

theorem length_eq (h : l.Consumes log c limit frames taken l') : taken.length = frames.length := by
  induction h with
  | nil => rfl
  | cons _ _ _ ih => rw [List.length_cons, List.length_cons, ih]

theorem reachable (h : l.Consumes log c limit frames taken l') (hl : l.store.Reachable) :
    l'.store.Reachable := by
  induction h with
  | nil => exact hl
  | cons _ haccept _ ih => exact ih ((accept_of_ok haccept).2.reachable hl)

theorem blocks_eq (h : l.Consumes log c limit frames taken l') :
    l'.store.blocks = l.store.blocks ++ added taken := by
  induction h with
  | nil => exact (List.append_nil _).symm
  | @cons l _ _ _ _ b verdict _ taken _ haccept _ ih =>
    rw [ih, (accept_of_ok haccept).2.blocks_eq, List.append_assoc, ← added_cons]

theorem holds (h : l.Consumes log c limit frames taken l') :
    ∀ t ∈ taken, ∃ stored ∈ l'.store.blocks, stored.hash = t.1.hash := by
  induction h with
  | nil => simp
  | @cons l l' _ _ _ b verdict _ taken _ haccept hconsumes ih =>
    rintro t (_ | ⟨_, ht⟩)
    · obtain ⟨stored, hmem, hhash⟩ := (accept_of_ok haccept).2.holds
      refine ⟨stored, ?_, hhash⟩
      rw [hconsumes.blocks_eq]
      exact List.mem_append_left _ hmem
    · exact ih t ht

theorem responses (h : l.Consumes log c limit frames taken l') :
    ∀ frame ∈ frames, ∃ peer block chain, frame = .ok (peer, .blockResponse block chain) := by
  induction h with
  | nil => simp
  | cons _ _ _ ih =>
    rintro frame (_ | ⟨_, hframe⟩)
    · exact ⟨_, _, _, rfl⟩
    · exact ih frame hframe

end Consumes

/-- Only the end of the stream and its errors make a call incomplete, and what it then reports is
its target and the number of responses that it has taken. -/
theorem Refuses.incomplete {target target' : Digest} {n n' : Nat} {cause : TransportError}
    {rest : List Frame}
    (h : l.Refuses log c limit target n rest (.incomplete target' n' cause)) :
    target' = target ∧ n' = n ∧ rest.head?.getD (.error .closed) = .error cause := by
  cases h with
  | closed => exact ⟨rfl, rfl, rfl⟩
  | lost => exact ⟨rfl, rfl, rfl⟩
  | response _ _ hnot => exact absurd trivial hnot

end Ledger

namespace Progress
variable {p : Progress} {l : Ledger μ} {target : Digest} {taken : List (Block × Verdict)}

def tally (p : Progress) (taken : List (Block × Verdict)) : Progress :=
  taken.foldl (fun p t => p.count t.2) p

theorem tally_eq (p : Progress) (taken : List (Block × Verdict)) :
    (p.tally taken).target = p.target ∧
      (p.tally taken).received = p.received + taken.length ∧
      (p.tally taken).inserted = p.inserted + (added taken).length ∧
      (p.tally taken).inserted + (p.tally taken).skipped =
        p.inserted + p.skipped + taken.length := by
  induction taken generalizing p with
  | nil => exact ⟨rfl, rfl, rfl, rfl⟩
  | cons t taken ih =>
    obtain ⟨b, verdict⟩ := t
    obtain ⟨htarget, hreceived, hinserted, hsum⟩ := ih (p.count verdict)
    have htally : p.tally ((b, verdict) :: taken) = (p.count verdict).tally taken := rfl
    rw [htally, htarget, hreceived, hsum, hinserted, List.length_cons]
    cases verdict with
    | known =>
      refine ⟨rfl, ?_, rfl, ?_⟩
      · simp only [count]; omega
      · simp only [count]; omega
    | fresh =>
      refine ⟨rfl, ?_, ?_, ?_⟩
      · simp only [count]; omega
      · simp only [count, added, List.filterMap_cons, List.length_cons]; omega
      · simp only [count]; omega

/-- How a call ends that has taken these responses when these frames are left: with the count of
what it has taken if the last one has brought the target, and otherwise with an error. -/
inductive Ends (log : BlockLog μ) (c : Crypto) (limit : Nat) (p : Progress)
    (taken : List (Block × Verdict)) (l : Ledger μ) (rest : List Frame) :
    Except ReplicationError Progress → Prop where
  | reached : EndsAt p.target taken → Ends log c limit p taken l rest (.ok (p.tally taken))
  | refused {e : ReplicationError} : (∀ t ∈ taken, t.1.hash ≠ p.target) →
      l.Refuses log c limit p.target (p.received + taken.length) rest e →
      Ends log c limit p taken l rest (.error e)

theorem Ends.cons {b : Block} {verdict : Verdict} {rest : List Frame}
    {result : Except ReplicationError Progress} (hhash : b.hash ≠ p.target)
    (h : (p.count verdict).Ends log c limit taken l rest result) :
    p.Ends log c limit ((b, verdict) :: taken) l rest result := by
  have htarget : (p.count verdict).target = p.target := by cases verdict <;> rfl
  have hreceived : (p.count verdict).received = p.received + 1 := by cases verdict <;> rfl
  cases h with
  | reached hends =>
    rw [htarget] at hends
    exact .reached (hends.cons hhash)
  | refused hmisses hrefuses =>
    rw [htarget, hreceived, Nat.add_assoc, Nat.add_comm 1] at hrefuses
    rw [htarget] at hmisses
    refine .refused ?_ hrefuses
    rintro t (_ | ⟨_, ht⟩)
    · exact hhash
    · exact hmisses t ht

structure Splits (log : BlockLog μ) (c : Crypto) (limit : Nat) (p : Progress) (l : Ledger μ)
    (frames consumed rest : List Frame) (taken : List (Block × Verdict)) (l' : Ledger μ) :
    Prop where
  frames_eq : frames = consumed ++ rest
  consumes : l.Consumes log c limit consumed taken l'
  store_eq : (p.receiveAll log c limit l frames).ledger.store = l'.store
  ends : p.Ends log c limit taken l' rest (p.receiveAll log c limit l frames).result

namespace Splits
variable {frame : Frame} {frames : List Frame}

theorem of_refused {e : ReplicationError}
    (hreceive : (p.receive log c limit frame l).result = .error e)
    (hstore : (p.receive log c limit frame l).ledger.store = l.store)
    (hrefuses : l.Refuses log c limit p.target p.received (frame :: frames) e) :
    Splits log c limit p l (frame :: frames) [] (frame :: frames) [] l where
  frames_eq := rfl
  consumes := .nil l
  store_eq := by rw [(receiveAll_cons_error hreceive frames).2, hstore]
  ends := by
    rw [(receiveAll_cons_error hreceive frames).1]
    exact .refused (by simp) hrefuses

end Splits

section Response
variable {peer : Address} {block : Bytes} {chain : Option Bytes} {b : Block} {verdict : Verdict}
  {frames : List Frame}

variable (peer) in
theorem receive_response_of_ok
    (haccept : (l.accept log c limit block chain).result = .ok (b, verdict)) :
    (p.receive log c limit (.ok (peer, .blockResponse block chain)) l).result =
      .ok (p.count verdict, b.hash = p.target) := by
  simp only [receive, haccept, Except.map]

theorem Splits.of_reached (haccept : (l.accept log c limit block chain).result = .ok (b, verdict))
    (hhash : b.hash = p.target) :
    let frame : Frame := .ok (peer, .blockResponse block chain)
    Splits log c limit p l (frame :: frames) [frame] frames [(b, verdict)]
      (l.accept log c limit block chain).ledger := by
  have hreceive := receive_response_of_ok (p := p) peer haccept
  rw [decide_eq_true hhash] at hreceive
  obtain ⟨hresult, hledger⟩ := receiveAll_cons_reached hreceive frames
  exact
    { frames_eq := rfl
      consumes := .cons (Ledger.accept_of_ok haccept).1 haccept (.nil _)
      store_eq := by
        rw [hledger]
        rfl
      ends := by
        rw [hresult]
        exact .reached ⟨[], (b, verdict), rfl, hhash, by simp⟩ }

theorem Splits.of_onward (haccept : (l.accept log c limit block chain).result = .ok (b, verdict))
    (hhash : b.hash ≠ p.target) {consumed rest : List Frame} {l' : Ledger μ}
    (h : Splits log c limit (p.count verdict) (l.accept log c limit block chain).ledger frames
      consumed rest taken l') :
    let frame : Frame := .ok (peer, .blockResponse block chain)
    Splits log c limit p l (frame :: frames) (frame :: consumed) rest ((b, verdict) :: taken)
      l' := by
  have hreceive := receive_response_of_ok (p := p) peer haccept
  rw [decide_eq_false hhash] at hreceive
  obtain ⟨hresult, hledger⟩ := receiveAll_cons_onward hreceive frames
  exact
    { frames_eq := by rw [h.frames_eq, List.cons_append]
      consumes := .cons (Ledger.accept_of_ok haccept).1 haccept h.consumes
      store_eq := by
        rw [hledger]
        exact h.store_eq
      ends := by
        rw [hresult]
        exact h.ends.cons hhash }

end Response

theorem receiveAll_splits (log : BlockLog μ) (c : Crypto) (limit : Nat) (p : Progress)
    (l : Ledger μ) (frames : List Frame) :
    ∃ consumed rest taken l', Splits log c limit p l frames consumed rest taken l' := by
  induction frames generalizing p l with
  | nil => exact ⟨[], [], [], l, rfl, .nil l, rfl, .refused (by simp) .closed⟩
  | cons frame frames ih =>
    rcases frame with cause | ⟨peer, message⟩
    · exact ⟨_, _, _, _, .of_refused rfl rfl .lost⟩
    cases message with
    | propagateGenesis genesis => exact ⟨_, _, _, _, .of_refused rfl rfl (.unexpected (by simp))⟩
    | blockRequest target => exact ⟨_, _, _, _, .of_refused rfl rfl (.unexpected (by simp))⟩
    | blockResponse block chain =>
      cases haccept : (l.accept log c limit block chain).result with
      | error e =>
        obtain ⟨hstore, hnot⟩ := Ledger.accept_of_error haccept
        have hreceive : (p.receive log c limit (.ok (peer, .blockResponse block chain)) l).result =
            .error e := by
          simp only [receive, haccept, Except.map]
        exact ⟨_, _, _, _, .of_refused hreceive hstore (.response haccept hstore hnot)⟩
      | ok t =>
        obtain ⟨b, verdict⟩ := t
        by_cases hhash : b.hash = p.target
        · exact ⟨_, _, _, _, .of_reached haccept hhash⟩
        · obtain ⟨consumed, rest, taken, l', hsplits⟩ :=
            ih (p.count verdict) (l.accept log c limit block chain).ledger
          exact ⟨_, _, _, _, hsplits.of_onward haccept hhash⟩

/-- What a report says of the responses that have been taken, and of the store that they leave. -/
structure Reports (target : Digest) (before after : Store) (consumed : List Frame)
    (taken : List (Block × Verdict)) (p : Progress) : Prop where
  target_eq : p.target = target
  received : p.received = consumed.length
  counted : p.inserted + p.skipped = p.received
  responses : ∀ frame ∈ consumed, ∃ peer block chain, frame = .ok (peer, .blockResponse block chain)
  /-- What is new stands at the end. -/
  blocks_eq : after.blocks = before.blocks ++ added taken
  inserted : p.inserted = (added taken).length
  endsAt : EndsAt target taken
  stored : ∃ b, after.readByHash target = .ok b

theorem reports_of_consumes (hl : l.store.Reachable) {l' : Ledger μ} {consumed : List Frame}
    (hconsumes : l.Consumes log c limit consumed taken l') (hends : EndsAt target taken) :
    Reports target l.store l'.store consumed taken ((start target).tally taken) := by
  obtain ⟨htarget, hreceived, hinserted, hsum⟩ := tally_eq (start target) taken
  simp only [start, Nat.zero_add] at htarget hreceived hinserted hsum
  exact
    { target_eq := htarget
      received := by rw [start, hreceived, hconsumes.length_eq]
      counted := by rw [start, hsum, hreceived]
      responses := hconsumes.responses
      blocks_eq := hconsumes.blocks_eq
      inserted := hinserted
      endsAt := hends
      stored := by
        obtain ⟨before, last, rfl, hlast, _⟩ := hends
        obtain ⟨stored, hmem, hhash⟩ := hconsumes.holds last (by simp)
        refine ⟨stored, (hconsumes.reachable hl).coherent.readByHash_eq_ok_iff.2 ⟨hmem, ?_⟩⟩
        rw [hhash, hlast] }

/-- Why a call for a target ends with an error after these responses, and what it reports if nothing
more has come. -/
structure Fails (log : BlockLog μ) (c : Crypto) (limit : Nat) (target : Digest) (l : Ledger μ)
    (consumed rest : List Frame) (taken : List (Block × Verdict)) (e : ReplicationError) :
    Prop where
  misses : ∀ t ∈ taken, t.1.hash ≠ target
  refuses : l.Refuses log c limit target consumed.length rest e
  incomplete : ∀ target' received cause, e = .incomplete target' received cause →
    target' = target ∧ received = consumed.length ∧
      rest.head?.getD (.error .closed) = .error cause

variable (log c limit) in
/-- **A catch-up accounts for every response.** Whatever frames a call is given, it takes the first
of them as responses, one after the other, and leaves the store that these leave. If it returns a
report, the last of them is the first to have brought the target. If it returns an error, none has,
and the next frame is the reason; if that is the end of the stream, the error says how many
responses have been taken. -/
theorem receiveAll_accounts (hl : l.store.Reachable) (target : Digest) (frames : List Frame) :
    let run := (start target).receiveAll log c limit l frames
    ∃ consumed rest taken l', frames = consumed ++ rest ∧
      l.Consumes log c limit consumed taken l' ∧ run.ledger.store = l'.store ∧
      (∀ p, run.result = .ok p → Reports target l.store l'.store consumed taken p) ∧
      ∀ e, run.result = .error e → Fails log c limit target l' consumed rest taken e := by
  obtain ⟨consumed, rest, taken, l', hsplits⟩ :=
    receiveAll_splits log c limit (start target) l frames
  have hends := hsplits.ends
  refine ⟨consumed, rest, taken, l', hsplits.frames_eq, hsplits.consumes, hsplits.store_eq, ?_, ?_⟩
  · intro p hresult
    rw [hresult] at hends
    cases hends with
    | reached hreached => exact reports_of_consumes hl hsplits.consumes hreached
  · intro e hresult
    rw [hresult] at hends
    cases hends with
    | refused hmisses hrefuses =>
      rw [hsplits.consumes.length_eq, start, Nat.zero_add] at hrefuses
      exact ⟨hmisses, hrefuses, fun _ _ _ he => (he ▸ hrefuses).incomplete⟩

open Transparent in
/-- A log with room for two more blocks: the first of four responses is passed over, two are stored,
and the last one is refused without a trace. -/
theorem receiveAll_accounts_failing :
    let l : Ledger Nat := ⟨build [(one 1, [10])], 2⟩
    let target := rotated.lastHash
    let frames := Serving.frames rotated ⟨"client"⟩ ⟨"peer"⟩ target
    let run := (start target).receiveAll .failing crypto 1000 l frames
    l.store.Reachable ∧ run.result = .error (.store (.log .full)) ∧
    run.ledger.store.blocks = rotated.blocks.take 3 ∧
    ∃ consumed rest taken l', frames = consumed ++ rest ∧
      l.Consumes .failing crypto 1000 consumed taken l' ∧ run.ledger.store = l'.store ∧
      (∀ p, run.result = .ok p → Reports target l.store l'.store consumed taken p) ∧
      ∀ e, run.result = .error e → Fails .failing crypto 1000 target l' consumed rest taken e := by
  have hl : (build [(one 1, [10])]).Reachable := build_reachable (by decide)
  exact ⟨hl, by decide +kernel, by decide +kernel,
    receiveAll_accounts .failing crypto 1000 (l := ⟨build [(one 1, [10])], 2⟩) hl _ _⟩

end Progress
end

end CosignedLedger
