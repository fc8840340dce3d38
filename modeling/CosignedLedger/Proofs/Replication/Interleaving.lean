import CosignedLedger.Proofs.Chain.Stability
import CosignedLedger.Proofs.Replication.Answers

/-!
# Serving while blocks are stored

A request is served in many small steps, and between any two of them other tasks may store blocks
and the cancellation may fire. A response depends only on the blocks up to its own, so none of this
shows in what is sent; it shows in where serving ends.

* `Service`, `Service.Event`: serving a request among other tasks, one look at the store at a time.
* `Service.Stage`: what is known at each point of serving; every event keeps it.
* `Service.Served`, `Service.serves`: what has been sent after any events, and what serving has
  come to.
-/

namespace CosignedLedger

namespace Serving
variable {s s' : Store} {b : Block} {i : Nat}

def prove (request : BlockRequest) (index : Nat) (block : Block)
    (chain : Except ChainError Chain) : Serving :=
  match chain with
  | .error e => failed (.chain e)
  | .ok chain =>
    match packResponse block (some chain) with
    | .error e => failed (.ofCodec e)
    | .ok message => sending request index block message

theorem step_proving (hgenesis : b.isGenesis = false) (cancelled : Bool) (request : BlockRequest) :
    step s cancelled (proving request i b) = prove request i b (s.chainTo b.hash) := by
  simp only [step, response, hgenesis, prove]
  cases s.chainTo b.hash with
  | error e => rfl
  | ok chain =>
    simp only [packResponse, hgenesis]
    rfl

/-- The response for a block does not change while the store grows. -/
theorem response_congr (hs : s.Coherent) (hs' : s'.Coherent) (hb : s.blocks[i]? = some b)
    (h : s.AgreeUpTo s' i) : response s b = response s' b := by
  unfold response
  rw [Store.chainTo_congr hs hs' hb h]

end Serving

/-- The message is the answer for the block at `i`: that block when it is the first, and otherwise
the block with the chain to it from the first. -/
def Store.Answer (s : Store) (i : Nat) (m : Message) : Prop :=
  ∃ b, s.blocks[i]? = some b ∧
    ((i = 0 ∧ m = .blockResponse (Block.format.write b) none) ∨
      (0 < i ∧ ∃ chain, s.chainTo b.hash = .ok chain ∧
        m = .blockResponse (Block.format.write b) (some (Chain.format.write chain))))

theorem Store.Coherent.answer_iff {s : Store} (hs : s.Coherent) {b : Block} {i : Nat}
    (hb : s.blocks[i]? = some b) {m : Message} :
    s.Answer i m ↔ Serving.response s b = .ok m := by
  have hgenesis : b.isGenesis = decide (i = 0) := by rw [Block.isGenesis, hs.position hb]
  rw [Store.Answer, hb, Serving.response_eq_ok_iff, hgenesis]
  simp [Nat.pos_iff_ne_zero]

/-- A task that serves one request on a ledger that others use. -/
structure Service (μ : Type) where
  ledger : Ledger μ
  cancelled : Bool
  serving : Serving
  /-- How far the chain of the block that is being proved has come. -/
  tracing : Tracing
  sent : List (Address × Message)

namespace Service
variable {μ : Type}

def start (l : Ledger μ) (request : BlockRequest) : Service μ :=
  ⟨l, false, .receive (.ok (request.requester, .blockRequest request.target)), .opening, []⟩

inductive Event where
  /-- Another task inserts a block. -/
  | insert (b : Block)
  /-- The cancellation fires. -/
  | cancel
  /-- The serving task looks at the store once, and before each block at the cancellation. -/
  | work
  /-- The serving task tries to send the response that it offers. It looks at the cancellation
  first; if that has not fired, sending ends like this. -/
  | offer (attempt : Except TransportError Unit)

/-- One look at the store. The chain of a block takes several. -/
def work (v : Service μ) : Service μ :=
  match v.serving with
  | .proving request index block =>
    if block.isGenesis then { v with serving := v.serving.step v.ledger.store v.cancelled }
    else match v.tracing with
      | .done chain => { v with serving := .prove request index block chain }
      | tracing => { v with tracing := tracing.step v.ledger.store block.hash }
  | serving => { v with serving := serving.step v.ledger.store v.cancelled, tracing := .opening }

def offer (attempt : Except TransportError Unit) (v : Service μ) : Service μ :=
  match v.serving with
  | .sending request _ _ response =>
    if v.cancelled then { v with serving := .failed .cancelled }
    else match attempt with
      | .error _ => { v with serving := v.serving.sent attempt }
      | .ok () =>
        { v with
          serving := v.serving.sent attempt
          sent := v.sent ++ [(request.requester, response)] }
  | _ => v

def step (log : BlockLog μ) (v : Service μ) : Event → Service μ
  | .insert b => { v with ledger := (v.ledger.insert log b).2 }
  | .cancel => { v with cancelled := true }
  | .work => v.work
  | .offer attempt => v.offer attempt

def run (log : BlockLog μ) (v : Service μ) (events : List Event) : Service μ :=
  events.foldl (step log) v

variable (log : BlockLog μ) {v : Service μ} {request : BlockRequest}

theorem run_append (events later : List Event) :
    v.run log (events ++ later) = (v.run log events).run log later :=
  List.foldl_append

/-! ## What is known at each point -/

def Missing (s : Store) (target : Digest) (n : Nat) : Prop :=
  ∀ j b, j < n → s.blocks[j]? = some b → b.hash ≠ target

/-- What is known when `n` responses have been sent. -/
def Stage (request : BlockRequest) (s : Store) (tracing : Tracing) (n : Nat) : Serving → Prop
  | .awaiting => False
  | .checking r i => r = request ∧ i = n ∧ Missing s request.target n
  | .reading r i => r = request ∧ i = n ∧ Missing s request.target n
  | .proving r i b => r = request ∧ i = n ∧ Missing s request.target n ∧
      s.blocks[n]? = some b ∧ tracing.Sound s b n
  | .sending r i b m => r = request ∧ i = n ∧ Missing s request.target n ∧
      s.blocks[n]? = some b ∧ Serving.response s b = .ok m
  | .ended (.ok ()) => ∃ k b, n = k + 1 ∧ Missing s request.target k ∧
      s.blocks[k]? = some b ∧ b.hash = request.target
  | .ended (.error _) => Missing s request.target n

structure Invariant (request : BlockRequest) (v : Service μ) : Prop where
  reachable : v.ledger.store.Reachable
  answered : ∀ i receiver m, v.sent[i]? = some (receiver, m) →
    receiver = request.requester ∧ v.ledger.store.Answer i m
  stage : Stage request v.ledger.store v.tracing v.sent.length v.serving

namespace Invariant

theorem sent_le (h : v.Invariant request) : v.sent.length ≤ v.ledger.store.size := by
  by_contra hlt
  obtain ⟨⟨receiver, m⟩, hm⟩ : ∃ a, v.sent[v.ledger.store.size]? = some a :=
    ⟨_, List.getElem?_eq_getElem (by omega)⟩
  obtain ⟨_, b, hb, _⟩ := h.answered _ receiver m hm
  have := (List.getElem?_eq_some_iff.1 hb).1
  simp only [Store.size] at this
  omega

theorem start {l : Ledger μ} (hl : l.store.Reachable) (request : BlockRequest) :
    (start l request).Invariant request where
  reachable := hl
  answered := fun i receiver m hm => by simp [Service.start] at hm
  stage := ⟨rfl, rfl, fun j b hj => absurd hj (Nat.not_lt_zero j)⟩

theorem grow (h : v.Invariant request) {l : Ledger μ} (hl : l.store.Reachable)
    (hgrown : v.ledger.store.blocks <+: l.store.blocks) :
    ({ v with ledger := l } : Service μ).Invariant request := by
  have hs := h.reachable.coherent
  have hs' := hl.coherent
  have hsize := h.sent_le
  have agree : ∀ {j b}, v.ledger.store.blocks[j]? = some b →
      v.ledger.store.AgreeUpTo l.store j ∧ l.store.blocks[j]? = some b := by
    intro j b hb
    have hj := Store.agreeUpTo_of_prefix hgrown (List.getElem?_eq_some_iff.1 hb).1
    exact ⟨hj, by rw [← hj j (Nat.le_refl j), hb]⟩
  have missing : ∀ {n}, n ≤ v.ledger.store.size → Missing v.ledger.store request.target n →
      Missing l.store request.target n := by
    intro n hn hmissing j b hj hb
    have hlt : j < v.ledger.store.blocks.length := Nat.lt_of_lt_of_le hj hn
    refine hmissing j b hj ?_
    rw [Store.agreeUpTo_of_prefix hgrown hlt j (Nat.le_refl j), hb]
  refine ⟨hl, fun i receiver m hm => ?_, ?_⟩
  · obtain ⟨hreceiver, hanswer⟩ := h.answered i receiver m hm
    obtain ⟨b, hb, _⟩ := id hanswer
    obtain ⟨hagree, hb'⟩ := agree hb
    refine ⟨hreceiver, (hs'.answer_iff hb').2 ?_⟩
    rw [← Serving.response_congr hs hs' hb hagree]
    exact (hs.answer_iff hb).1 hanswer
  · have hstage := h.stage
    show Stage request l.store v.tracing v.sent.length v.serving
    cases hserving : v.serving with
    | awaiting => rw [hserving] at hstage; exact hstage
    | checking r i =>
      rw [hserving] at hstage
      obtain ⟨hr, hi, hmissing⟩ := hstage
      exact ⟨hr, hi, missing hsize hmissing⟩
    | reading r i =>
      rw [hserving] at hstage
      obtain ⟨hr, hi, hmissing⟩ := hstage
      exact ⟨hr, hi, missing hsize hmissing⟩
    | proving r i b =>
      rw [hserving] at hstage
      obtain ⟨hr, hi, hmissing, hb, hsound⟩ := hstage
      obtain ⟨hagree, hb'⟩ := agree hb
      exact ⟨hr, hi, missing hsize hmissing, hb', hsound.congr hs hs' hb hagree⟩
    | sending r i b m =>
      rw [hserving] at hstage
      obtain ⟨hr, hi, hmissing, hb, hm⟩ := hstage
      obtain ⟨hagree, hb'⟩ := agree hb
      exact ⟨hr, hi, missing hsize hmissing, hb', Serving.response_congr hs hs' hb hagree ▸ hm⟩
    | ended result =>
      rw [hserving] at hstage
      cases result with
      | error e => exact missing hsize hstage
      | ok _ =>
        obtain ⟨k, b, hk, hmissing, hb, htarget⟩ := hstage
        exact ⟨k, b, hk, missing (by omega) hmissing, (agree hb).2, htarget⟩

theorem insert (h : v.Invariant request) (b : Block) :
    (v.step log (.insert b)).Invariant request := by
  refine h.grow (Ledger.reachable_insert h.reachable) ?_
  obtain ⟨_, medium, _, hinsert⟩ | ⟨e, medium, hinsert, _⟩ := Ledger.insert_cases log b v.ledger
  · rw [hinsert]
    exact List.prefix_append _ _
  · exact ⟨[], by rw [hinsert, List.append_nil]⟩

theorem work (h : v.Invariant request) : v.work.Invariant request := by
  have hs := h.reachable.coherent
  have hstage := h.stage
  unfold Service.work
  cases hserving : v.serving with
  | awaiting => rw [hserving] at hstage; exact hstage.elim
  | checking r i =>
    rw [hserving] at hstage
    obtain ⟨rfl, rfl, hmissing⟩ := hstage
    refine ⟨h.reachable, h.answered, ?_⟩
    simp only [Serving.step]
    split
    · exact hmissing
    · split
      · exact hmissing
      · exact ⟨rfl, rfl, hmissing⟩
  | reading r i =>
    rw [hserving] at hstage
    obtain ⟨rfl, rfl, hmissing⟩ := hstage
    refine ⟨h.reachable, h.answered, ?_⟩
    simp only [Serving.step]
    split
    · exact hmissing
    · rename_i b hread
      exact ⟨rfl, rfl, hmissing, Store.read_eq_ok_iff.1 hread, .opening⟩
  | proving r i b =>
    rw [hserving] at hstage
    obtain ⟨rfl, rfl, hmissing, hb, hsound⟩ := hstage
    -- Both ways of coming to a response give that of the store as it is now.
    have hresponded : Stage r v.ledger.store v.tracing v.sent.length
        (Serving.step v.ledger.store v.cancelled (.proving r v.sent.length b)) := by
      simp only [Serving.step]
      split
      · exact hmissing
      · rename_i m hm
        exact ⟨rfl, rfl, hmissing, hb, hm⟩
    simp only
    split
    · exact ⟨h.reachable, h.answered, hresponded⟩
    · rename_i hgenesis
      split
      · rename_i chain htracing
        rw [htracing] at hsound
        have hchain : chain = v.ledger.store.chainTo b.hash := hsound.result_eq
        rw [Serving.step_proving (by simpa using hgenesis), ← hchain] at hresponded
        exact ⟨h.reachable, h.answered, hresponded⟩
      · exact ⟨h.reachable, h.answered, rfl, rfl, hmissing, hb, hsound.step hs hb⟩
  | sending r i b m =>
    rw [hserving] at hstage
    exact ⟨h.reachable, h.answered, hstage⟩
  | ended result =>
    rw [hserving] at hstage
    refine ⟨h.reachable, h.answered, ?_⟩
    cases result with
    | error e => exact hstage
    | ok _ => exact hstage

theorem offer (h : v.Invariant request) (attempt : Except TransportError Unit) :
    (v.offer attempt).Invariant request := by
  have hs := h.reachable.coherent
  have hstage := h.stage
  unfold Service.offer
  split
  · rename_i r i b m hserving
    rw [hserving] at hstage ⊢
    obtain ⟨rfl, rfl, hmissing, hb, hm⟩ := hstage
    split
    · exact ⟨h.reachable, h.answered, hmissing⟩
    · cases attempt with
      | error e => exact ⟨h.reachable, h.answered, hmissing⟩
      | ok _ =>
        refine ⟨h.reachable, fun i receiver a ha => ?_, ?_⟩
        · rcases Nat.lt_trichotomy i v.sent.length with hi | rfl | hi
          · exact h.answered i receiver a (by rwa [List.getElem?_append_left hi] at ha)
          · rw [List.getElem?_concat_length] at ha
            cases ha
            exact ⟨rfl, (hs.answer_iff hb).2 hm⟩
          · rw [List.getElem?_eq_none (by simp; omega)] at ha
            cases ha
        · simp only [Serving.sent, List.length_append, List.length_singleton]
          split
          · rename_i htarget
            exact ⟨_, b, rfl, hmissing, hb, htarget⟩
          · rename_i htarget
            refine ⟨rfl, rfl, fun j a hj ha => ?_⟩
            rcases Nat.lt_or_eq_of_le (Nat.le_of_lt_succ hj) with hj | rfl
            · exact hmissing j a hj ha
            · rw [hb] at ha
              cases ha
              exact htarget
  · exact h

theorem step (h : v.Invariant request) (event : Event) :
    (v.step log event).Invariant request := by
  cases event with
  | insert b => exact h.insert log b
  | cancel => exact ⟨h.reachable, h.answered, h.stage⟩
  | work => exact h.work
  | offer attempt => exact h.offer attempt

theorem run (h : v.Invariant request) (events : List Event) :
    (v.run log events).Invariant request := by
  induction events generalizing v with
  | nil => exact h
  | cons event events ih => exact ih (h.step log event)

end Invariant

/-! ## Where serving ends -/

theorem step_of_ended {result : Except ReplicationError Unit} (hended : v.serving = .ended result)
    (event : Event) :
    (v.step log event).serving = .ended result ∧ (v.step log event).sent = v.sent := by
  cases event with
  | insert b => exact ⟨hended, rfl⟩
  | cancel => exact ⟨hended, rfl⟩
  | work => simp only [step, work, hended, Serving.step, and_self]
  | offer attempt => simp only [step, offer, hended, and_self]

theorem run_of_ended {result : Except ReplicationError Unit} (hended : v.serving = .ended result)
    (events : List Event) :
    (v.run log events).serving = .ended result ∧ (v.run log events).sent = v.sent := by
  induction events generalizing v with
  | nil => exact ⟨hended, rfl⟩
  | cons event events ih =>
    obtain ⟨hstep, hsent⟩ := step_of_ended log hended event
    obtain ⟨hrun, hrest⟩ := ih hstep
    exact ⟨hrun, hrest.trans hsent⟩

theorem step_of_cancelled (hcancelled : v.cancelled = true) (event : Event) :
    (v.step log event).cancelled = true ∧ (v.step log event).sent = v.sent := by
  cases event with
  | insert b => exact ⟨hcancelled, rfl⟩
  | cancel => exact ⟨rfl, rfl⟩
  | work =>
    simp only [step, work]
    split
    · split
      · exact ⟨hcancelled, rfl⟩
      · split <;> exact ⟨hcancelled, rfl⟩
    · exact ⟨hcancelled, rfl⟩
  | offer attempt =>
    simp only [step, offer]
    split
    · rw [if_pos hcancelled]
      exact ⟨hcancelled, rfl⟩
    · exact ⟨hcancelled, rfl⟩

theorem run_of_cancelled (hcancelled : v.cancelled = true) (events : List Event) :
    (v.run log events).sent = v.sent := by
  induction events generalizing v with
  | nil => rfl
  | cons event events ih =>
    obtain ⟨hstep, hsent⟩ := step_of_cancelled log hcancelled event
    exact (ih hstep).trans hsent

theorem prove_ne_notFound (r : BlockRequest) (i : Nat) (b : Block)
    (chain : Except ChainError Chain) (t : Digest) (n : Nat) :
    Serving.prove r i b chain ≠ .ended (.error (.notFound t n)) := by
  intro hprove
  unfold Serving.prove at hprove
  split at hprove
  · cases hprove
  · split at hprove
    · rename_i e _
      cases e <;> cases hprove
    · cases hprove

theorem offer_ne_notFound (attempt : Except TransportError Unit) {t : Digest} {n : Nat}
    (hbefore : ∀ result, v.serving ≠ .ended result) :
    (v.offer attempt).serving ≠ .ended (.error (.notFound t n)) := by
  intro hafter
  unfold offer at hafter
  split at hafter
  · rename_i r i b m hserving
    split at hafter
    · cases hafter
    · cases attempt with
      | error e =>
        simp only [hserving, Serving.sent] at hafter
        cases hafter
      | ok _ =>
        simp only [hserving, Serving.sent] at hafter
        split at hafter <;> cases hafter
  · exact hbefore _ hafter

/-- Serving comes to miss its target only where it looks for a next block and there is none. -/
theorem notFound_of_work (h : v.Invariant request) {t : Digest} {n : Nat}
    (hbefore : ∀ result, v.serving ≠ .ended result)
    (hafter : v.work.serving = .ended (.error (.notFound t n))) :
    t = request.target ∧ v.ledger.store.size = n ∧ v.serving = .checking request n ∧
      v.sent.length = n := by
  have hstage := h.stage
  unfold work at hafter
  cases hserving : v.serving with
  | awaiting => rw [hserving] at hstage; exact hstage.elim
  | checking r i =>
    rw [hserving] at hstage hafter
    obtain ⟨rfl, rfl, _⟩ := hstage
    simp only [Serving.step] at hafter
    split at hafter
    · cases hafter
    · split at hafter
      · rename_i hend
        cases hafter
        have hall := Nat.le_antisymm h.sent_le hend
        exact ⟨rfl, rfl, by rw [hall], hall⟩
      · cases hafter
  | reading r i =>
    rw [hserving] at hafter
    simp only [Serving.step] at hafter
    split at hafter <;> cases hafter
  | proving r i b =>
    rw [hserving] at hafter
    simp only at hafter
    split at hafter
    · rename_i hgenesis
      simp only [Serving.step, Serving.response, hgenesis, packResponse] at hafter
      cases hafter
    · split at hafter
      · exact absurd hafter (prove_ne_notFound _ _ _ _ _ _)
      · cases hafter
  | sending r i b m =>
    rw [hserving] at hafter
    cases hafter
  | ended result => exact absurd hserving (hbefore result)

theorem notFound_of_run {events : List Event} (h : v.Invariant request) {t : Digest} {n : Nat}
    (hbefore : ∀ result, v.serving ≠ .ended result)
    (hafter : (v.run log events).serving = .ended (.error (.notFound t n))) :
    t = request.target ∧ ∃ before after, events = before ++ .work :: after ∧
      (v.run log before).Invariant request ∧ (v.run log before).ledger.store.size = n ∧
      (v.run log before).serving = .checking request n ∧
      (v.run log before).sent = (v.run log events).sent ∧
      (v.run log before).sent.length = n := by
  induction events generalizing v with
  | nil => exact absurd hafter (hbefore _)
  | cons event events ih =>
    by_cases hended : ∃ result, (v.step log event).serving = .ended result
    · obtain ⟨result, hresult⟩ := hended
      obtain ⟨hserving, hsent⟩ := run_of_ended log hresult events
      have hrun : v.run log (event :: events) = (v.step log event).run log events := rfl
      rw [hrun, hserving] at hafter
      cases hafter
      cases event with
      | insert b => exact absurd hresult (hbefore _)
      | cancel => exact absurd hresult (hbefore _)
      | offer attempt => exact absurd hresult (offer_ne_notFound attempt hbefore)
      | work =>
        obtain ⟨ht, hsize, hchecking, hlength⟩ := notFound_of_work h hbefore hresult
        refine ⟨ht, [], events, rfl, h, hsize, hchecking, ?_, hlength⟩
        rw [hrun, hsent]
        simp only [step, work, run, List.foldl_nil, hchecking]
    · obtain ⟨ht, before, after, rfl, hrest⟩ :=
        ih (h.step log event) (fun result hresult => hended ⟨result, hresult⟩) hafter
      exact ⟨ht, event :: before, after, rfl, hrest⟩

/-- What has been sent on a request after some events, and what serving has come to. -/
structure Served (log : BlockLog μ) (request : BlockRequest) (v₀ : Service μ)
    (events : List Event) : Prop where
  /-- The `i`-th response goes to the requester and is the answer for the block at `i`. -/
  inOrder : ∀ i receiver m, (v₀.run log events).sent[i]? = some (receiver, m) →
    receiver = request.requester ∧ (v₀.run log events).ledger.store.Answer i m
  /-- It is the only answer in any store that has the same blocks up to `i`, whatever comes
  after them. -/
  stable : ∀ i receiver m, (v₀.run log events).sent[i]? = some (receiver, m) →
    ∀ s : Store, s.Reachable → (v₀.run log events).ledger.store.AgreeUpTo s i →
      ∀ m', s.Answer i m' ↔ m' = m
  /-- Nothing more is sent once the cancellation has fired. -/
  quiet : (v₀.run log events).cancelled = true →
    ∀ later, (v₀.run log (events ++ later)).sent = (v₀.run log events).sent
  /-- Serving succeeds just when the last response is for the requested block. -/
  ok_iff : (v₀.run log events).serving = .ended (.ok ()) ↔
    ∃ k b, (v₀.run log events).sent.length = k + 1 ∧
      (v₀.run log events).ledger.store.blocks[k]? = some b ∧ b.hash = request.target
  /-- The requested block is sent last. -/
  once : ∀ i b, i < (v₀.run log events).sent.length →
    (v₀.run log events).ledger.store.blocks[i]? = some b → b.hash = request.target →
    (v₀.run log events).sent.length = i + 1
  /-- Serving misses its target only after a look at a store all of whose blocks have been sent
  and are not the requested one. -/
  notFound : ∀ t n, (v₀.run log events).serving = .ended (.error (.notFound t n)) →
    t = request.target ∧ ∃ before after, events = before ++ .work :: after ∧
      (v₀.run log before).serving = .checking request n ∧
      (v₀.run log before).ledger.store.size = n ∧ (v₀.run log before).sent.length = n ∧
      (v₀.run log before).sent = (v₀.run log events).sent ∧
      ∀ b ∈ (v₀.run log before).ledger.store.blocks, b.hash ≠ request.target

theorem Missing.not_mem {s : Store} {target : Digest} (h : Missing s target s.size) :
    ∀ b ∈ s.blocks, b.hash ≠ target := by
  intro b hb
  obtain ⟨j, hj⟩ := List.getElem?_of_mem hb
  exact h j b (List.getElem?_eq_some_iff.1 hj).1 hj

theorem Invariant.sent_target (h : v.Invariant request) {i : Nat} {b : Block}
    (hi : i < v.sent.length) (hb : v.ledger.store.blocks[i]? = some b)
    (htarget : b.hash = request.target) :
    v.sent.length = i + 1 ∧ v.serving = .ended (.ok ()) := by
  have hstage := h.stage
  have noMissing : ¬Missing v.ledger.store request.target v.sent.length :=
    fun hmissing => hmissing i b hi hb htarget
  cases hserving : v.serving with
  | awaiting => rw [hserving] at hstage; exact hstage.elim
  | checking r j => rw [hserving] at hstage; exact absurd hstage.2.2 noMissing
  | reading r j => rw [hserving] at hstage; exact absurd hstage.2.2 noMissing
  | proving r j a => rw [hserving] at hstage; exact absurd hstage.2.2.1 noMissing
  | sending r j a m => rw [hserving] at hstage; exact absurd hstage.2.2.1 noMissing
  | ended result =>
    rw [hserving] at hstage
    cases result with
    | error e => exact absurd hstage noMissing
    | ok _ =>
      obtain ⟨k, a, hk, hmissing, ha, _⟩ := hstage
      have hki : k ≤ i := by
        by_contra hlt
        exact hmissing i b (by omega) hb htarget
      exact ⟨by omega, rfl⟩

/-- **Serving is gap-free, stable and stops at cancellation, whatever happens between its steps.**
Whenever other tasks insert blocks, and whenever the cancellation fires, what has been sent on a
request are the answers for the first blocks in order. -/
theorem serves {l : Ledger μ} (hl : l.store.Reachable) (request : BlockRequest)
    (events : List Event) : Served log request (start l request) events := by
  have hinvariant : ∀ events, ((start l request).run log events).Invariant request :=
    (Invariant.start hl request).run log
  have h := hinvariant events
  have hs := h.reachable.coherent
  refine
    { inOrder := h.answered
      stable := fun i receiver m hm s hreachable hagree m' => ?_
      quiet := fun hcancelled later => ?_
      ok_iff := ⟨fun hok => ?_, fun ⟨k, b, hk, hb, htarget⟩ => ?_⟩
      once := fun i b hi hb htarget => (h.sent_target hi hb htarget).1
      notFound := fun t n hnotFound => ?_ }
  · obtain ⟨_, hanswer⟩ := h.answered i receiver m hm
    obtain ⟨b, hb, _⟩ := id hanswer
    have hb' : s.blocks[i]? = some b := by rw [← hagree i (Nat.le_refl i), hb]
    have hresponse := (hs.answer_iff hb).1 hanswer
    rw [hreachable.coherent.answer_iff hb', ← Serving.response_congr hs hreachable.coherent hb hagree,
      hresponse, Except.ok.injEq, eq_comm]
  · rw [run_append, run_of_cancelled log hcancelled]
  · have hstage := h.stage
    rw [hok] at hstage
    obtain ⟨k, b, hk, _, hb, htarget⟩ := hstage
    exact ⟨k, b, hk, hb, htarget⟩
  · exact (h.sent_target (by omega) hb htarget).2
  · have hbegun : ∀ result, (start l request).serving ≠ .ended result :=
      fun result hresult => by cases hresult
    obtain ⟨ht, before, after, hsplit, hbefore, hsize, hchecking, hsent, hlength⟩ :=
      notFound_of_run log (Invariant.start hl request) hbegun hnotFound
    refine ⟨ht, before, after, hsplit, hchecking, hsize, hlength, hsent, ?_⟩
    have hstage := hbefore.stage
    rw [hchecking, hlength, ← hsize] at hstage
    exact hstage.2.2.not_mem

/-- The last two blocks of `Transparent.rotated` are inserted while the first two are served, one
of them in the middle of building a chain. The cancellation fires too late to matter. -/
def meanwhile : List Event :=
  let looks (n : Nat) := List.replicate n Event.work
  let taken := Event.offer (.ok ())
  let insert (i : Nat) := (Transparent.rotated.blocks[i]?).toList.map Event.insert
  looks 2 ++ insert 2 ++ looks 1 ++ [taken] ++ looks 4 ++ insert 3 ++ looks 4 ++ [taken] ++
    looks 9 ++ [taken] ++ looks 10 ++ [taken, .cancel]

open Transparent in
theorem serves_rotated_meanwhile :
    ∃ v : Service (List Block),
      v = (start ⟨build [(one 1, [10]), (one 1, [11])], []⟩ ⟨⟨"b"⟩, rotated.lastHash⟩).run .inMemory
        meanwhile ∧
      v.ledger.store = rotated ∧ v.sent.length = 4 ∧ v.serving = .ended (.ok ()) ∧
      ∀ i receiver m, v.sent[i]? = some (receiver, m) → receiver = ⟨"b"⟩ ∧ rotated.Answer i m := by
  have h := serves .inMemory (l := ⟨build [(one 1, [10]), (one 1, [11])], []⟩)
    (build_reachable (by decide)) ⟨⟨"b"⟩, rotated.lastHash⟩ meanwhile
  have hinOrder := h.inOrder
  have hok := h.ok_iff
  have hstore : ((start ⟨build [(one 1, [10]), (one 1, [11])], []⟩
      ⟨⟨"b"⟩, rotated.lastHash⟩).run .inMemory meanwhile).ledger.store = rotated := by
    decide +kernel
  have hlength : ((start ⟨build [(one 1, [10]), (one 1, [11])], []⟩
      ⟨⟨"b"⟩, rotated.lastHash⟩).run .inMemory meanwhile).sent.length = 4 := by decide +kernel
  obtain ⟨b, hb, hhash⟩ : ∃ b, rotated.blocks[3]? = some b ∧ b.hash = rotated.lastHash :=
    ⟨_, rfl, by decide +kernel⟩
  refine ⟨_, rfl, hstore, hlength, ?_, ?_⟩
  · exact hok.2 ⟨3, b, hlength, by rw [hstore, hb], hhash⟩
  · rw [hstore] at hinOrder
    exact hinOrder

end Service

end CosignedLedger
