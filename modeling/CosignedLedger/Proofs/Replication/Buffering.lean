import CosignedLedger.Proofs.Replication.Completion
import CosignedLedger.Proofs.Replication.Remaining

/-!
# Catching up through queues

A requester and a serving side that are joined by a stream take turns in any order. Each may have to
wait for the other: the serving side when the queue is full, the requester when it is empty. Whatever
the order and whatever the queue holds, the requester ends as if it had been handed all frames at
once.

* `Exchange`, `Exchange.step`: a stream, its requester, and what a turn of either does.
* `Exchange.Tends`: what the requester will end with; every turn keeps it and brings it nearer.
* `Exchange.settles_alike`: the outcome is that of taking all frames, every turn leaves a turn until
  then, and there are only so many.
-/

namespace CosignedLedger

/-- The requesting side of a stream: before the request, while it takes responses, and after it has
let go of the stream. -/
inductive Requester where
  | asking (target : Digest)
  | taking (progress : Progress)
  | returned (result : Except ReplicationError Progress)

/-- What taking frames comes to: the result and the ledger afterwards. -/
def Progress.outcome {μ : Type} (log : BlockLog μ) (c : Crypto) (limit : Nat) (p : Progress)
    (l : Ledger μ) (frames : List Frame) : Except ReplicationError Progress × Ledger μ :=
  let acted := p.receiveAll log c limit l frames
  (acted.result, acted.ledger)

theorem Progress.outcome_cons {μ : Type} {log : BlockLog μ} {c : Crypto} {limit : Nat}
    {p : Progress} {l : Ledger μ} {frame : Frame} {frames : List Frame} :
    p.outcome log c limit l (frame :: frames) =
      match (p.receive log c limit frame l).result with
      | .error e => (.error e, (p.receive log c limit frame l).ledger)
      | .ok (p', true) => (.ok p', (p.receive log c limit frame l).ledger)
      | .ok (p', false) =>
        p'.outcome log c limit (p.receive log c limit frame l).ledger frames := by
  simp only [outcome, receiveAll]
  cases (p.receive log c limit frame l).result with
  | error e => rfl
  | ok taken =>
    obtain ⟨p', reached⟩ := taken
    cases reached <;> rfl

structure Exchange (μ : Type) where
  stream : Stream
  requester : Requester
  ledger : Ledger μ

inductive Turn where
  | server
  | client

namespace Exchange
variable {μ : Type}

def start (l : Ledger μ) (client server : Address) (handler : Handler) (streamBuffer : Nat)
    (target : Digest) : Exchange μ :=
  ⟨.start client server handler (max streamBuffer 1), .asking target, l⟩

def leave (e : Exchange μ) (s : Stream) (l : Ledger μ) (result : Except ReplicationError Progress) :
    Exchange μ :=
  { e with
    stream := { s with senderOpen := false, receiverOpen := false }
    requester := .returned result
    ledger := l }

variable (store : Store) (log : BlockLog μ) (c : Crypto) (limit : Nat)

/-- One turn of the requester, if it need not wait: the request, a frame, or the end of the
stream. -/
def stepClient (e : Exchange μ) : Option (Exchange μ) :=
  match e.requester with
  | .asking target =>
    match e.stream.send (.blockRequest target) e.stream.server with
    | .error cause => some (e.leave e.stream e.ledger (.error (.transport cause)))
    | .ok s => some { e with stream := s, requester := .taking (.start target) }
  | .taking p =>
    match e.stream.take? with
    | some (frame, s) =>
      let acted := p.receive log c limit frame e.ledger
      match acted.result with
      | .error cause => some (e.leave s acted.ledger (.error cause))
      | .ok (p, true) => some (e.leave s acted.ledger (.ok p))
      | .ok (p, false) => some ⟨s, .taking p, acted.ledger⟩
    | none =>
      if e.stream.released then
        some (e.leave e.stream e.ledger (.error (.incomplete p.target p.received .closed)))
      else none
  | .returned _ => none

def step (e : Exchange μ) : Turn → Option (Exchange μ)
  | .server => (e.stream.step store).map fun s => { e with stream := s }
  | .client => e.stepClient log c limit

def run : List Turn → Exchange μ → Option (Exchange μ)
  | [], e => some e
  | turn :: turns, e =>
    match e.step store log c limit turn with
    | none => none
    | some e => run turns e

/-- What the requester will end with, and for how many turns that can be put off. -/
inductive Tends (outcome : Except ReplicationError Progress × Ledger μ) (e : Exchange μ) :
    Nat → Prop
  | asking {target : Digest} {rest : List Frame} {n : Nat} :
      e.requester = .asking target → e.stream.Live → e.stream.serving = .awaiting →
      e.stream.requests = [] → e.stream.responses = [] → e.stream.senderOpen = true →
      e.stream.released = false →
      (Serving.receive (.ok (e.stream.client, .blockRequest target))).Yields store e.stream.server
        rest n →
      (Progress.start target).outcome log c limit e.ledger rest = outcome →
      Tends outcome e (n + rest.length + 3)
  | taking {p : Progress} {frames rest : List Frame} {n : Nat} :
      e.requester = .taking p → e.stream.Live → e.stream.Owes store rest n →
      e.stream.responses ++ rest = frames → p.outcome log c limit e.ledger frames = outcome →
      Tends outcome e (n + frames.length + 1)
  | returned : e.requester = .returned outcome.1 → e.ledger = outcome.2 → Tends outcome e 0

variable {store log c limit} {e e' : Exchange μ}
  {outcome : Except ReplicationError Progress × Ledger μ} {n : Nat}

theorem start_tends (store : Store) (log : BlockLog μ) (c : Crypto) (limit : Nat) (l : Ledger μ)
    (client server : Address) (handler : Handler) (streamBuffer : Nat) (target : Digest) :
    ∃ n, (start l client server handler streamBuffer target).Tends store log c limit
      ((Progress.start target).outcome log c limit l (Serving.frames store client server target))
      n := by
  obtain ⟨n, hyields, _⟩ := Serving.exists_yields_frames store client server target
  have hcapacity : 0 < max streamBuffer 1 := by omega
  exact ⟨_, .asking rfl ⟨rfl, hcapacity⟩ rfl rfl rfl rfl rfl hyields rfl⟩

theorem Tends.server (h : e.Tends store log c limit outcome n)
    (hstep : e.step store log c limit .server = some e') :
    ∃ n', n' ≤ n - 1 ∧ e'.Tends store log c limit outcome n' := by
  simp only [step, Option.map_eq_some_iff] at hstep
  obtain ⟨s, hs, rfl⟩ := hstep
  cases h with
  | asking hrequester hlive hserving hrequests hresponses hsender hreleased hyields houtcome =>
    simp [Stream.step, hserving, hlive.receiverOpen, hrequests, hsender] at hs
  | @taking p frames rest n hrequester hlive howes hframes houtcome =>
    obtain ⟨new, rest', n', rfl, rfl, hresponses, hlive', howes'⟩ := Stream.step_owes hlive howes hs
    refine ⟨n' + frames.length + 1, by omega, .taking hrequester hlive' howes' ?_ houtcome⟩
    rw [hresponses, List.append_assoc, hframes]
  | returned hrequester hledger => exact ⟨0, Nat.zero_le _, .returned hrequester hledger⟩

theorem Tends.client (h : e.Tends store log c limit outcome n)
    (hstep : e.step store log c limit .client = some e') :
    ∃ n', n' ≤ n - 1 ∧ e'.Tends store log c limit outcome n' := by
  simp only [step, stepClient] at hstep
  cases h with
  | @asking target rest n hrequester hlive hserving hrequests hresponses hsender hreleased hyields
      houtcome =>
    have hcapacity := hlive.capacity
    have hsend : e.stream.send (.blockRequest target) e.stream.server =
        .ok { e.stream with requests := [(e.stream.client, .blockRequest target)] } := by
      simp [Stream.send, Stream.outcome?, hserving, hrequests]
      omega
    simp only [hrequester, hsend] at hstep
    cases hstep
    exact ⟨n + 1 + rest.length + 1, by omega, .taking rfl ⟨hlive.receiverOpen, hcapacity⟩
      (.requested hserving rfl hreleased hyields) (by rw [hresponses, List.nil_append]) houtcome⟩
  | @taking p frames rest n hrequester hlive howes hframes houtcome =>
    simp only [hrequester, Stream.take?] at hstep
    cases hresponses : e.stream.responses with
    | nil =>
      simp only [hresponses] at hstep
      split at hstep
      · rename_i hreleased
        cases hstep
        rw [hresponses, howes.of_released hreleased] at hframes
        subst hframes
        subst houtcome
        exact ⟨0, Nat.zero_le _, .returned rfl rfl⟩
      · cases hstep
    | cons frame tail =>
      rw [hresponses, List.cons_append] at hframes
      subst hframes
      rw [Progress.outcome_cons] at houtcome
      simp only [hresponses] at hstep
      cases hresult : (p.receive log c limit frame e.ledger).result with
      | error cause =>
        simp only [hresult] at hstep houtcome
        cases hstep
        subst houtcome
        exact ⟨0, Nat.zero_le _, .returned rfl rfl⟩
      | ok taken =>
        obtain ⟨p', reached⟩ := taken
        cases reached with
        | true =>
          simp only [hresult] at hstep houtcome
          cases hstep
          subst houtcome
          exact ⟨0, Nat.zero_le _, .returned rfl rfl⟩
        | false =>
          simp only [hresult] at hstep houtcome
          cases hstep
          exact ⟨n + (tail ++ rest).length + 1, by rw [List.length_cons]; omega,
            .taking rfl ⟨hlive.receiverOpen, hlive.capacity⟩ (howes.withResponses tail) rfl houtcome⟩
  | returned hrequester hledger => simp [hrequester] at hstep

theorem Tends.step (h : e.Tends store log c limit outcome n) {turn : Turn}
    (hstep : e.step store log c limit turn = some e') :
    ∃ n', n' ≤ n - 1 ∧ e'.Tends store log c limit outcome n' := by
  cases turn with
  | server => exact h.server hstep
  | client => exact h.client hstep

theorem Tends.run (h : e.Tends store log c limit outcome n) {turns : List Turn}
    (hrun : run store log c limit turns e = some e') :
    ∃ n', n' ≤ n - turns.length ∧ e'.Tends store log c limit outcome n' := by
  induction turns generalizing e n with
  | nil =>
    cases hrun
    exact ⟨n, Nat.le_refl n, h⟩
  | cons turn turns ih =>
    simp only [Exchange.run] at hrun
    split at hrun
    · cases hrun
    · rename_i e₁ hstep
      obtain ⟨n₁, hn₁, h₁⟩ := h.step hstep
      obtain ⟨n₂, hn₂, h₂⟩ := ih h₁ hrun
      exact ⟨n₂, by rw [List.length_cons]; omega, h₂⟩

/-- Until the requester has returned, one of the two sides can take a turn. -/
theorem Tends.not_blocked (h : e.Tends store log c limit outcome n)
    (hrequester : ∀ result, e.requester ≠ .returned result) :
    ∃ turn, (e.step store log c limit turn).isSome := by
  cases h with
  | asking hasking =>
    refine ⟨.client, ?_⟩
    simp only [Exchange.step, stepClient, hasking]
    split <;> rfl
  | @taking p frames rest n htaking hlive howes hframes houtcome =>
    cases hresponses : e.stream.responses with
    | cons frame tail =>
      refine ⟨.client, ?_⟩
      simp only [Exchange.step, stepClient, htaking, Stream.take?, hresponses]
      split <;> rfl
    | nil =>
      cases hserver : e.stream.step store with
      | some s => exact ⟨.server, by simp [Exchange.step, hserver]⟩
      | none =>
        obtain ⟨hreleased, _⟩ :=
          Stream.not_blocked hlive howes (hlive.hasRoom hresponses) hserver
        exact ⟨.client, by
          simp [Exchange.step, stepClient, htaking, Stream.take?, hresponses, hreleased]⟩
  | returned hreturned => exact absurd hreturned (hrequester _)

theorem Tends.returned_eq (h : e.Tends store log c limit outcome n)
    {result : Except ReplicationError Progress} (hreturned : e.requester = .returned result) :
    result = outcome.1 ∧ e.ledger = outcome.2 := by
  cases h with
  | asking hasking => rw [hreturned] at hasking; cases hasking
  | taking htaking => rw [hreturned] at htaking; cases htaking
  | returned hrequester hledger =>
    rw [hreturned] at hrequester
    cases hrequester
    exact ⟨rfl, hledger⟩

theorem Tends.returned_of_zero (h : e.Tends store log c limit outcome 0) :
    e.requester = .returned outcome.1 := by
  cases h with
  | returned hrequester => exact hrequester

theorem Tends.exists_run (h : e.Tends store log c limit outcome n) :
    ∃ turns e', Exchange.run store log c limit turns e = some e' ∧
      e'.requester = .returned outcome.1 := by
  induction n using Nat.strongRecOn generalizing e with
  | ind n ih =>
    by_cases hreturned : ∃ result, e.requester = .returned result
    · obtain ⟨result, hresult⟩ := hreturned
      obtain ⟨rfl, _⟩ := h.returned_eq hresult
      exact ⟨[], e, rfl, hresult⟩
    · obtain ⟨turn, hturn⟩ := h.not_blocked fun result hresult => hreturned ⟨result, hresult⟩
      obtain ⟨e₁, hstep⟩ := Option.isSome_iff_exists.1 hturn
      obtain ⟨n₁, hn₁, h₁⟩ := h.step hstep
      have hpositive : n ≠ 0 := by
        rintro rfl
        exact hreturned ⟨_, h.returned_of_zero⟩
      obtain ⟨turns, e₂, hrun, hend⟩ := ih n₁ (by omega) h₁
      refine ⟨turn :: turns, e₂, ?_, hend⟩
      simp only [Exchange.run, hstep, hrun]

/-- What any turns after a beginning come to. -/
structure Settles (store : Store) (log : BlockLog μ) (c : Crypto) (limit : Nat) (begun : Exchange μ)
    (outcome : Except ReplicationError Progress × Ledger μ) : Prop where
  /-- A requester that has returned has this result and this ledger. -/
  independent : ∀ turns e result, run store log c limit turns begun = some e →
    e.requester = .returned result → result = outcome.1 ∧ e.ledger = outcome.2
  /-- Until it has, one of the sides can take a turn. -/
  live : ∀ turns e, run store log c limit turns begun = some e →
    (∀ result, e.requester ≠ .returned result) → ∃ turn, (e.step store log c limit turn).isSome
  /-- So it can always return, -/
  ends : ∀ turns e, run store log c limit turns begun = some e →
    ∃ later e', run store log c limit later e = some e' ∧ e'.requester = .returned outcome.1
  /-- and after a number of turns it has. -/
  bounded : ∃ bound, ∀ turns e, run store log c limit turns begun = some e → bound ≤ turns.length →
    e.requester = .returned outcome.1

/-- **The outcome of catching up depends neither on what queues hold nor on who is faster.**
Whatever the buffer and the order of turns, the requester ends as if it had taken, one by one, all
the frames that its request puts into a queue with room for them. -/
theorem settles_alike (store : Store) (log : BlockLog μ) (c : Crypto) (limit : Nat) (l : Ledger μ)
    (client server : Address) (handler : Handler) (streamBuffer : Nat) (target : Digest) :
    ∃ frames,
      (∀ capacity, frames.length < capacity →
        let s := (Stream.requested client server handler capacity target).settle store
        s.responses = frames ∧ s.released = true) ∧
      frames = Serving.frames store client server target ∧
      Settles store log c limit (start l client server handler streamBuffer target)
        ((Progress.start target).outcome log c limit l frames) := by
  refine ⟨Serving.frames store client server target,
    fun _ => Stream.settle_requested store client server handler target, rfl, ?_⟩
  obtain ⟨bound, hstart⟩ :=
    start_tends store log c limit l client server handler streamBuffer target
  refine ⟨fun turns e result hrun hreturned => ?_, fun turns e hrun hrequester => ?_,
    fun turns e hrun => ?_, bound, fun turns e hrun hlength => ?_⟩
  · obtain ⟨n, _, h⟩ := hstart.run hrun
    exact h.returned_eq hreturned
  · obtain ⟨n, _, h⟩ := hstart.run hrun
    exact h.not_blocked hrequester
  · obtain ⟨n, _, h⟩ := hstart.run hrun
    exact h.exists_run
  · obtain ⟨n, hn, h⟩ := hstart.run hrun
    obtain rfl : n = 0 := by omega
    exact h.returned_of_zero

end Exchange

end CosignedLedger
