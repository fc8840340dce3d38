import CosignedLedger.Proofs.Replication.Completion
import CosignedLedger.Proofs.Replication.Interleaving

/-!
# Catch-ups alongside each other

Several calls to catch up run on one ledger. They take turns, one response at a time, and overtake
each other: what one has stored the others pass over. Each still ends at its own target, and
together they store what is missing, once.

* `Pull`, `Pulls`: the calls and the ledger that they share.
* `Pulls.run_alone`: a call on its own is `Progress.receiveAll`.
* `Errand.Under`: what is known of a call after some of its turns.
* `Pulls.Shared`: what every turn keeps, of all the calls and of the ledger.
* `Pulls.run_undisturbed`: what is left when every call has had its turns.
-/

namespace CosignedLedger

/-- A call to catch up: how far it has come and the frames that wait for it, or what it has
returned. -/
inductive Pull where
  | taking (p : Progress) (frames : List Frame)
  | returned (result : Except ReplicationError Progress)

namespace Pull

def step {μ : Type} (log : BlockLog μ) (c : Crypto) (limit : Nat) (l : Ledger μ) :
    Pull → Pull × Ledger μ
  | .returned result => (.returned result, l)
  | .taking p [] => (.returned (.error (.incomplete p.target p.received .closed)), l)
  | .taking p (frame :: frames) =>
    let acted := p.receive log c limit frame l
    match acted.result with
    | .error e => (.returned (.error e), acted.ledger)
    | .ok (p, true) => (.returned (.ok p), acted.ledger)
    | .ok (p, false) => (.taking p frames, acted.ledger)

def inserted : Pull → Nat
  | .taking p _ | .returned (.ok p) => p.inserted
  | .returned (.error _) => 0

end Pull

structure Pulls (μ : Type) where
  ledger : Ledger μ
  pulls : List Pull

namespace Pulls
variable {μ : Type}

def turn (log : BlockLog μ) (c : Crypto) (limit : Nat) (s : Pulls μ) (i : Nat) : Pulls μ :=
  match s.pulls[i]? with
  | none => s
  | some pull =>
    let (pull, ledger) := pull.step log c limit s.ledger
    ⟨ledger, s.pulls.set i pull⟩

def run (log : BlockLog μ) (c : Crypto) (limit : Nat) (s : Pulls μ) (turns : List Nat) : Pulls μ :=
  turns.foldl (turn log c limit) s

variable {log : BlockLog μ} {c : Crypto} {limit : Nat}

theorem run_returned (l : Ledger μ) (result : Except ReplicationError Progress) (n : Nat) :
    run log c limit ⟨l, [.returned result]⟩ (List.replicate n 0) = ⟨l, [.returned result]⟩ := by
  induction n with
  | zero => rfl
  | succ n ih => exact ih

/-- One turn for each frame, and one to see that no more come. -/
theorem run_alone (p : Progress) (frames : List Frame) (l : Ledger μ) :
    let taken := p.receiveAll log c limit l frames
    run log c limit ⟨l, [.taking p frames]⟩ (List.replicate (frames.length + 1) 0) =
      ⟨taken.ledger, [.returned taken.result]⟩ := by
  induction frames generalizing p l with
  | nil => rfl
  | cons frame frames ih =>
    have hturn : run log c limit ⟨l, [.taking p (frame :: frames)]⟩
        (List.replicate ((frame :: frames).length + 1) 0) =
        run log c limit (turn log c limit ⟨l, [.taking p (frame :: frames)]⟩ 0)
          (List.replicate (frames.length + 1) 0) := rfl
    rw [hturn]
    simp only [turn, Pull.step, Progress.receiveAll, List.getElem?_cons_zero, List.set_cons_zero]
    rcases (p.receive log c limit frame l).result with e | ⟨p', reached⟩
    · exact run_returned _ _ _
    · cases reached with
      | true => exact run_returned _ _ _
      | false => exact ih p' _

end Pulls

structure Errand where
  peer : Store
  client : Address
  address : Address
  target : Block

namespace Store.Follows
variable {server peer : Store} {c : Crypto} {limit k i : Nat} {b : Block}

/-- Whoever holds the first blocks of a server responds as the server does. -/
theorem response_eq (h : peer.Follows server k) (hserver : server.Coherent)
    (hb : peer.blocks[i]? = some b) : Serving.response peer b = Serving.response server b := by
  have hprefix : peer.blocks <+: server.blocks := by
    rw [h.blocks_eq]
    exact List.take_prefix k server.blocks
  have hi := (List.getElem?_eq_some_iff.1 hb).1
  have hagree := agreeUpTo_of_prefix hprefix hi
  exact Serving.response_congr h.reachable.coherent hserver hb hagree

theorem answers (h : peer.Follows server k) (hserver : server.Coherent) {target : Digest}
    {ms : List Message} (hms : Serving.Answers peer target i ms) :
    Serving.Answers server target i ms := by
  have hheld : ∀ {i : Nat} {b : Block}, peer.blocks[i]? = some b → server.blocks[i]? = some b := by
    intro i b hb
    have hi := (List.getElem?_eq_some_iff.1 hb).1
    rw [← h.getElem?_eq (by rw [← h.size_eq]; exact hi), hb]
  induction hms with
  | last hb hm hhash => exact .last (hheld hb) (h.response_eq hserver hb ▸ hm) hhash
  | next hb hm hhash _ ih => exact .next (hheld hb) (h.response_eq hserver hb ▸ hm) hhash ih

theorem exists_frames (h : peer.Follows server k) (hserver : server.Serveable c limit)
    (hb : peer.blocks[i]? = some b) (client address : Address) :
    ∃ ms, Serving.Answers server b.hash 0 ms ∧
      Serving.frames peer client address b.hash = ms.map fun m => .ok (address, m) := by
  have hserver' := hserver.reachable.coherent
  have hresponse : ∀ b ∈ peer.blocks, ∃ m, Serving.response peer b = .ok m := by
    intro b hb
    obtain ⟨i, hi⟩ := List.getElem?_of_mem hb
    rw [h.response_eq hserver' hi]
    rw [h.blocks_eq] at hb
    exact hserver.exists_response (List.mem_of_mem_take hb)
  obtain ⟨ms, hms, _, hframes⟩ :=
    Serving.frames_answers h.reachable.coherent hresponse hb client address
  exact ⟨ms, h.answers hserver' hms, hframes⟩

end Store.Follows

section
variable {μ : Type} {log : BlockLog μ} {server : Store} {c : Crypto} {limit k n top : Nat}

namespace Ledger

theorem fill_eq_of_append {l l' : Ledger μ} {b : Block} (hl : l.store.size = k)
    (hl' : l'.store.size = k + 1) (hb : server.blocks[k]? = some b) (hk : k < top)
    (happend : log.append b l.medium = (.ok (), l'.medium)) :
    l'.fill log server top = l.fill log server top := by
  rw [fill, fill, hl, hl', Store.between_of_getElem? hb hk, BlockLog.appendAll, happend]

theorem Takes.append_ne_error {l : Ledger μ} (h : l.Takes log server top) {b : Block}
    (hl : l.store.size = k) (hb : server.blocks[k]? = some b) (hk : k < top) (e : StoreError)
    (medium : μ) : log.append b l.medium ≠ (.error e, medium) := by
  intro happend
  rw [Takes, fill, hl, Store.between_of_getElem? hb hk, BlockLog.appendAll, happend] at h
  cases h

end Ledger

/-- Over a log that takes what is missing, the next response of the server is always in order: its
block is passed over if it is stored, and stored if it is missing. -/
theorem Progress.receive_response (hserver : server.Serveable c limit) {l : Ledger μ}
    (hl : l.store.Follows server k) (hn : n ≤ k) {b : Block} (hb : server.blocks[n]? = some b)
    {m : Message} (hm : Serving.response server b = .ok m) (hlog : l.Takes log server top)
    (htop : n < top) (peer : Address) (p : Progress) :
    let received := p.receive log c limit (.ok (peer, m)) l
    ∃ verdict, received.result = .ok (p.count verdict, b.hash = p.target) ∧
      received.ledger.store.Follows server (max k (n + 1)) ∧
      received.ledger.fill log server top = l.fill log server top ∧
      (p.count verdict).inserted + k = p.inserted + max k (n + 1) := by
  dsimp only
  rcases Nat.lt_or_eq_of_le hn with hlt | rfl
  · obtain ⟨hresult, hledger⟩ := receive_held log hserver hl hb hlt hm peer p
    rw [hledger, Nat.max_eq_left hlt]
    exact ⟨.known, hresult, hl, rfl, rfl⟩
  · obtain ⟨happend, hresult, hfollows⟩ | ⟨e, happend, _⟩ :=
      receive_next_cases log hserver hl hb hm peer p
    · rw [Nat.max_eq_right (Nat.le_succ n)]
      refine ⟨.fresh, hresult, hfollows, ?_, ?_⟩
      · exact Ledger.fill_eq_of_append hl.size_eq hfollows.size_eq hb htop happend
      · simp only [count]
        omega
    · exact absurd happend (hlog.append_ne_error hl.size_eq hb htop e _)

theorem Progress.count_sum (p : Progress) (verdict : Verdict) :
    (p.count verdict).received = p.received + 1 ∧
      (p.count verdict).inserted + (p.count verdict).skipped = p.inserted + p.skipped + 1 := by
  cases verdict with
  | known => exact ⟨rfl, rfl⟩
  | fresh =>
    refine ⟨rfl, ?_⟩
    simp only [count]
    omega

namespace Errand

/-- The peer holds the first blocks of the server, up to the target at least. -/
structure Answerable (server : Store) (e : Errand) : Prop where
  held : e.target ∈ e.peer.blocks
  follows : ∃ n, e.peer.Follows server n

def pull (e : Errand) : Pull :=
  .taking (.start e.target.hash) (Serving.frames e.peer e.client e.address e.target.hash)

/-- How many responses a call has taken after so many turns. -/
def taken (e : Errand) (turns : Nat) : Nat := min turns (e.target.index + 1)

theorem taken_succ (e : Errand) (turns : Nat) :
    min (e.taken turns + 1) (e.target.index + 1) = e.taken (turns + 1) := by
  simp only [taken]
  omega

theorem taken_mono (e : Errand) {turns later : Nat} (h : turns ≤ later) :
    e.taken turns ≤ e.taken later := by
  simp only [taken]
  omega

theorem taken_eq (e : Errand) {turns : Nat} (h : e.target.index < turns) :
    e.taken turns = e.target.index + 1 := by
  simp only [taken]
  omega

/-- What is known of a call that has taken `n` responses. -/
inductive Under (server : Store) (e : Errand) : (n : Nat) → Pull → Prop where
  | taking {n : Nat} {p : Progress} {ms : List Message} :
      p.target = e.target.hash → p.received = n → p.inserted + p.skipped = n →
      Serving.Answers server e.target.hash n ms →
      Under server e n (.taking p (ms.map fun m => .ok (e.address, m)))
  | returned {p : Progress} :
      p.target = e.target.hash → p.received = e.target.index + 1 →
      p.inserted + p.skipped = e.target.index + 1 →
      Under server e (e.target.index + 1) (.returned (.ok p))

variable {e : Errand}

theorem Answerable.mem (h : e.Answerable server) : e.target ∈ server.blocks := by
  obtain ⟨n, hfollows⟩ := h.follows
  have hheld := h.held
  rw [hfollows.blocks_eq] at hheld
  exact List.mem_of_mem_take hheld

theorem Answerable.under_pull (h : e.Answerable server) (hserver : server.Serveable c limit) :
    e.Under server (e.taken 0) e.pull := by
  obtain ⟨n, hfollows⟩ := h.follows
  obtain ⟨i, hi⟩ := List.getElem?_of_mem h.held
  obtain ⟨ms, hms, hframes⟩ := hfollows.exists_frames hserver hi e.client e.address
  rw [pull, hframes, taken, Nat.zero_min]
  exact .taking rfl rfl rfl hms

theorem le_index_of_answers (hserver : server.Coherent) (hmem : e.target ∈ server.blocks)
    {ms : List Message} (h : Serving.Answers server e.target.hash n ms) : n ≤ e.target.index := by
  induction h with
  | last hb _ hhash =>
    have hposition := hserver.position hb
    rw [hserver.eq_of_hash_eq (List.mem_of_getElem? hb) hmem hhash] at hposition
    omega
  | next _ _ _ _ ih => omega

/-- One turn: the call takes its next response. A call that has returned stays as it is. -/
theorem Under.step {call : Pull} (h : e.Under server n call) (he : e.Answerable server)
    (hserver : server.Serveable c limit) {l : Ledger μ} (hl : l.store.Follows server k) (hn : n ≤ k)
    (hlog : l.Takes log server top) (htop : e.target.index < top) :
    let next := call.step log c limit l
    let n' := min (n + 1) (e.target.index + 1)
    e.Under server n' next.1 ∧ next.2.store.Follows server (max k n') ∧
      next.2.fill log server top = l.fill log server top ∧
      next.1.inserted + k = call.inserted + max k n' := by
  dsimp only
  cases h with
  | @returned p htarget hreceived hsum =>
    have hn' : min (e.target.index + 1 + 1) (e.target.index + 1) = e.target.index + 1 := by omega
    rw [hn', Nat.max_eq_left hn]
    exact ⟨.returned htarget hreceived hsum, hl, rfl, rfl⟩
  | @taking _ p ms htarget hreceived hsum hms =>
    have hindex := le_index_of_answers hserver.reachable.coherent he.mem hms
    have hn' : min (n + 1) (e.target.index + 1) = n + 1 := by omega
    rw [hn']
    cases hms with
    | @last _ b m hb hm hhash =>
      obtain ⟨verdict, hresult, hfollows, hfill, hinserted⟩ :=
        Progress.receive_response hserver hl hn hb hm hlog (by omega) e.address p
      obtain ⟨hreceived', hsum'⟩ := p.count_sum verdict
      rw [htarget, hhash, decide_eq_true rfl] at hresult
      simp only [List.map_cons, Pull.step, hresult]
      have hlast : n = e.target.index := by
        rw [← hserver.reachable.coherent.eq_of_hash_eq (List.mem_of_getElem? hb) he.mem hhash,
          hserver.reachable.coherent.position hb]
      refine ⟨?_, hfollows, hfill, hinserted⟩
      rw [hlast] at hreceived hsum ⊢
      refine .returned ?_ (by omega) (by omega)
      cases verdict <;> exact htarget
    | @next _ b m ms hb hm hhash hms =>
      obtain ⟨verdict, hresult, hfollows, hfill, hinserted⟩ :=
        Progress.receive_response hserver hl hn hb hm hlog (by omega) e.address p
      obtain ⟨hreceived', hsum'⟩ := p.count_sum verdict
      rw [htarget, decide_eq_false hhash] at hresult
      simp only [List.map_cons, Pull.step, hresult]
      refine ⟨.taking ?_ (by omega) (by omega) hms, hfollows, hfill, hinserted⟩
      cases verdict <;> exact htarget

theorem Under.returned_of_target {call : Pull} (h : e.Under server (e.target.index + 1) call)
    (hserver : server.Coherent) (hmem : e.target ∈ server.blocks) :
    ∃ p, call = .returned (.ok p) ∧ p.target = e.target.hash ∧
      p.received = e.target.index + 1 ∧ p.inserted + p.skipped = e.target.index + 1 := by
  cases h with
  | taking _ _ _ hms =>
    have := le_index_of_answers hserver hmem hms
    omega
  | returned htarget hreceived hsum => exact ⟨_, rfl, htarget, hreceived, hsum⟩

def highest : List Errand → Nat
  | [] => 0
  | e :: errands => max (e.target.index + 1) (highest errands)

theorem index_lt_highest {errands : List Errand} (h : e ∈ errands) :
    e.target.index < highest errands := by
  induction errands with
  | nil => cases h
  | cons first errands ih =>
    rw [highest]
    rcases List.mem_cons.1 h with rfl | h
    · omega
    · have := ih h
      omega

theorem highest_le {errands : List Errand} (h : ∀ e ∈ errands, e.target.index < n) :
    highest errands ≤ n := by
  induction errands with
  | nil => exact Nat.zero_le n
  | cons first errands ih =>
    have hfirst := h first List.mem_cons_self
    have hrest := ih fun e he => h e (List.mem_cons_of_mem first he)
    rw [highest]
    omega

end Errand

namespace Pulls

def start (l : Ledger μ) (errands : List Errand) : Pulls μ := ⟨l, errands.map (·.pull)⟩

/-- How many blocks the calls have stored by their own count. -/
def inserted (s : Pulls μ) : Nat := s.pulls.foldr (fun call n => call.inserted + n) 0

theorem inserted_set {calls : List Pull} {i : Nat} {call : Pull} (h : calls[i]? = some call)
    (next : Pull) (l l' : Ledger μ) :
    inserted ⟨l', calls.set i next⟩ + call.inserted = inserted ⟨l, calls⟩ + next.inserted := by
  induction calls generalizing i with
  | nil => cases h
  | cons first calls ih =>
    cases i with
    | zero =>
      cases h
      simp only [inserted, List.set_cons_zero, List.foldr_cons]
      omega
    | succ i =>
      have := ih h
      simp only [inserted, List.set_cons_succ, List.foldr_cons] at this ⊢
      omega

/-- What holds after any turns of calls that were begun on the ledger `l`. The store has grown to
what the foremost call has taken, by as much as the calls count in sum. -/
structure Shared (log : BlockLog μ) (server : Store) (l : Ledger μ) (errands : List Errand)
    (top : Nat) (turns : List Nat) (s : Pulls μ) : Prop where
  follows : s.ledger.store.Follows server s.ledger.store.size
  fill_eq : s.ledger.fill log server top = l.fill log server top
  length_eq : s.pulls.length = errands.length
  under : ∀ (i : Nat) (e : Errand) (call : Pull), errands[i]? = some e → s.pulls[i]? = some call →
    e.Under server (e.taken (turns.count i)) call
  taken_le : ∀ (i : Nat) (e : Errand), errands[i]? = some e →
    e.taken (turns.count i) ≤ s.ledger.store.size
  grown : l.store.size ≤ s.ledger.store.size
  foremost : s.ledger.store.size ≤ l.store.size ∨
    ∃ (i : Nat) (e : Errand), errands[i]? = some e ∧ s.ledger.store.size ≤ e.taken (turns.count i)
  inserted_eq : l.store.size + s.inserted = s.ledger.store.size

variable {l : Ledger μ} {errands : List Errand} {turns : List Nat} {s : Pulls μ}

theorem Shared.start (hserver : server.Serveable c limit)
    (herrands : ∀ e ∈ errands, e.Answerable server) (hl : l.store.Follows server k) :
    Shared log server l errands top [] (start l errands) where
  follows := by
    show l.store.Follows server l.store.size
    rwa [hl.size_eq]
  fill_eq := rfl
  length_eq := List.length_map _
  under := by
    intro i e call he hcall
    rw [Pulls.start, List.getElem?_map, he] at hcall
    cases hcall
    exact (herrands e (List.mem_of_getElem? he)).under_pull hserver
  taken_le := by
    intro i e _
    simp [Errand.taken]
  grown := Nat.le_refl _
  foremost := .inl (Nat.le_refl _)
  inserted_eq := by
    have hnone : (Pulls.start l errands).inserted = 0 := by
      clear herrands
      induction errands with
      | nil => rfl
      | cons e errands ih =>
        rw [Pulls.start, inserted] at ih ⊢
        rw [List.map_cons, List.foldr_cons, ih]
        rfl
    rw [hnone]
    rfl

theorem count_turn_self (turns : List Nat) (i : Nat) :
    (turns ++ [i]).count i = turns.count i + 1 := by
  rw [List.count_append, List.count_singleton_self]

theorem count_turn_of_ne (turns : List Nat) {i j : Nat} (hij : i ≠ j) :
    (turns ++ [i]).count j = turns.count j := by
  rw [List.count_append, List.count_singleton, if_neg (by simpa using hij), Nat.add_zero]

theorem Shared.foremost_turn (h : Shared log server l errands top turns s) (i : Nat) :
    s.ledger.store.size ≤ l.store.size ∨ ∃ (j : Nat) (e : Errand), errands[j]? = some e ∧
      s.ledger.store.size ≤ e.taken ((turns ++ [i]).count j) := by
  refine h.foremost.imp_right fun ⟨j, e, he, hle⟩ => ⟨j, e, he, Nat.le_trans hle ?_⟩
  rw [List.count_append]
  exact e.taken_mono (Nat.le_add_right _ _)

theorem Shared.idle (h : Shared log server l errands top turns s) {i : Nat}
    (hnone : s.pulls[i]? = none) : Shared log server l errands top (turns ++ [i]) s := by
  have hne : ∀ {j : Nat} {e : Errand}, errands[j]? = some e → i ≠ j := by
    rintro j e he rfl
    have hlt := (List.getElem?_eq_some_iff.1 he).1
    rw [List.getElem?_eq_none_iff, h.length_eq] at hnone
    omega
  refine { h with under := ?_, taken_le := ?_, foremost := h.foremost_turn i }
  · intro j e call he hj
    rw [count_turn_of_ne turns (hne he)]
    exact h.under j e call he hj
  · intro j e he
    rw [count_turn_of_ne turns (hne he)]
    exact h.taken_le j e he

/-- It is enough that the call whose turn it is has gone on in order: of the others nothing
changes. -/
theorem Shared.replace (h : Shared log server l errands top turns s) {i : Nat} {e : Errand}
    {call next : Pull} (he : errands[i]? = some e) (hcall : s.pulls[i]? = some call)
    {ledger : Ledger μ} (hunder : e.Under server (e.taken ((turns ++ [i]).count i)) next)
    (hfollows : ledger.store.Follows server
      (max s.ledger.store.size (e.taken ((turns ++ [i]).count i))))
    (hfill : ledger.fill log server top = s.ledger.fill log server top)
    (hinserted : next.inserted + s.ledger.store.size =
      call.inserted + max s.ledger.store.size (e.taken ((turns ++ [i]).count i))) :
    Shared log server l errands top (turns ++ [i]) ⟨ledger, s.pulls.set i next⟩ := by
  have hsize := hfollows.size_eq
  constructor
  case follows => rwa [hsize]
  case fill_eq => rw [hfill, h.fill_eq]
  case length_eq => rw [List.length_set, h.length_eq]
  case under =>
    intro j e' call' he' hcall'
    by_cases hij : i = j
    · subst hij
      rw [he] at he'
      cases he'
      rw [List.getElem?_set_self (List.getElem?_eq_some_iff.1 hcall).1] at hcall'
      cases hcall'
      exact hunder
    · rw [List.getElem?_set_ne hij] at hcall'
      rw [count_turn_of_ne turns hij]
      exact h.under j e' call' he' hcall'
  case taken_le =>
    intro j e' he'
    rw [hsize]
    by_cases hij : i = j
    · subst hij
      rw [he] at he'
      cases he'
      exact Nat.le_max_right _ _
    · rw [count_turn_of_ne turns hij]
      exact Nat.le_trans (h.taken_le j e' he') (Nat.le_max_left _ _)
  case grown =>
    rw [hsize]
    exact Nat.le_trans h.grown (Nat.le_max_left _ _)
  case foremost =>
    rw [hsize]
    rcases Nat.le_total s.ledger.store.size (e.taken ((turns ++ [i]).count i)) with hle | hle
    · rw [Nat.max_eq_right hle]
      exact .inr ⟨i, e, he, Nat.le_refl _⟩
    · rw [Nat.max_eq_left hle]
      exact h.foremost_turn i
  case inserted_eq =>
    have hsum := inserted_set hcall next s.ledger ledger
    have hcount : l.store.size + inserted ⟨s.ledger, s.pulls⟩ = s.ledger.store.size :=
      h.inserted_eq
    rw [hsize]
    omega

theorem Shared.turn (h : Shared log server l errands top turns s)
    (hserver : server.Serveable c limit) (herrands : ∀ e ∈ errands, e.Answerable server)
    (hlog : l.Takes log server top) (htop : ∀ e ∈ errands, e.target.index < top) (i : Nat) :
    Shared log server l errands top (turns ++ [i]) (turn log c limit s i) := by
  unfold Pulls.turn
  cases hcall : s.pulls[i]? with
  | none => exact h.idle hcall
  | some call =>
    obtain ⟨e, he⟩ : ∃ e, errands[i]? = some e := by
      have hlt := (List.getElem?_eq_some_iff.1 hcall).1
      rw [h.length_eq] at hlt
      exact ⟨_, List.getElem?_eq_getElem hlt⟩
    have hmem := List.mem_of_getElem? he
    have hlog' : s.ledger.Takes log server top := by rwa [Ledger.Takes, h.fill_eq]
    have hstep := (h.under i e call he hcall).step (herrands e hmem) hserver h.follows
      (h.taken_le i e he) hlog' (htop e hmem)
    dsimp only at hstep
    rw [e.taken_succ, ← count_turn_self] at hstep
    obtain ⟨hunder, hfollows, hfill, hinserted⟩ := hstep
    exact h.replace he hcall hunder hfollows hfill hinserted

theorem Shared.run (h : Shared log server l errands top turns s)
    (hserver : server.Serveable c limit) (herrands : ∀ e ∈ errands, e.Answerable server)
    (hlog : l.Takes log server top) (htop : ∀ e ∈ errands, e.target.index < top)
    (later : List Nat) :
    Shared log server l errands top (turns ++ later) (s.run log c limit later) := by
  -- The induction is on the turns that are still to come.
  induction later generalizing turns s with
  | nil => rwa [List.append_nil]
  | cons i later ih =>
    have hnext := ih (h.turn hserver herrands hlog htop i)
    rwa [List.append_assoc, List.singleton_append] at hnext

theorem Shared.size_eq (h : Shared log server l errands top turns s)
    (hturns : ∀ (i : Nat) (e : Errand), errands[i]? = some e → e.target.index < turns.count i) :
    s.ledger.store.size = max l.store.size (Errand.highest errands) := by
  have hhighest : Errand.highest errands ≤ s.ledger.store.size := by
    refine Errand.highest_le fun e he => ?_
    obtain ⟨i, hi⟩ := List.getElem?_of_mem he
    have htaken := h.taken_le i e hi
    rw [e.taken_eq (hturns i e hi)] at htaken
    omega
  have hgrown := h.grown
  obtain hsame | ⟨i, e, he, hle⟩ := h.foremost
  · omega
  · rw [e.taken_eq (hturns i e he)] at hle
    have := Errand.index_lt_highest (List.mem_of_getElem? he)
    omega

/-- **Catch-ups on one ledger do not disturb each other.** Each is made to a peer that holds the
first blocks of the server, up to the target at least. Whatever the order in which they take their
responses, each returns when it has taken those up to its target, and counts them all; what is
stored in the end are the blocks up to the highest target, each appended to the log once, and the
blocks that the calls count as inserted are together those that have been added. -/
theorem run_undisturbed (hserver : server.Serveable c limit) (hl : l.store.Follows server k)
    (herrands : ∀ e ∈ errands, e.Answerable server)
    (hlog : l.Takes log server (Errand.highest errands))
    (hturns : ∀ (i : Nat) (e : Errand), errands[i]? = some e → e.target.index < turns.count i) :
    let final := (Pulls.start l errands).run log c limit turns
    (∀ (i : Nat) (e : Errand), errands[i]? = some e →
      ∃ p, final.pulls[i]? = some (.returned (.ok p)) ∧ p.target = e.target.hash ∧
        p.received = e.target.index + 1 ∧ p.inserted + p.skipped = e.target.index + 1) ∧
    final.ledger.store.blocks = server.blocks.take (max k (Errand.highest errands)) ∧
    (final.ledger.store.blocks.map (·.hash)).Nodup ∧
    final.ledger.medium =
      (log.appendAll (server.between k (Errand.highest errands)) l.medium).2 ∧
    k + final.inserted = final.ledger.store.size := by
  intro final
  have hshared : Shared log server l errands (Errand.highest errands) turns final :=
    (Shared.start hserver herrands hl).run hserver herrands hlog
      (fun e he => Errand.index_lt_highest he) turns
  have hsize := hshared.size_eq hturns
  rw [hl.size_eq] at hsize
  have hfollows := hshared.follows
  refine ⟨fun i e he => ?_, ?_, hfollows.reachable.coherent.distinct, ?_, ?_⟩
  · have hlt : i < final.pulls.length := by
      rw [hshared.length_eq]
      exact (List.getElem?_eq_some_iff.1 he).1
    have hcall := List.getElem?_eq_getElem hlt
    have hunder := hshared.under i e _ he hcall
    rw [e.taken_eq (hturns i e he)] at hunder
    obtain ⟨p, hreturned, hp⟩ := hunder.returned_of_target hserver.reachable.coherent
      (herrands e (List.mem_of_getElem? he)).mem
    exact ⟨p, by rw [hcall, hreturned], hp⟩
  · rw [← hsize]
    exact hfollows.blocks_eq
  · have hfill := hshared.fill_eq
    rw [Ledger.fill, Ledger.fill, Store.between_of_le (by omega), hl.size_eq] at hfill
    rw [← hfill]
    rfl
  · have := hshared.inserted_eq
    rwa [hl.size_eq] at this

open Transparent in
/-- Two calls, one of them to a peer that holds three blocks of four, overtake each other. -/
theorem run_undisturbed_rotated :
    let held := build [(one 1, [10])]
    let shorter := build [(one 1, [10]), (one 1, [11]), (one 2, [12])]
    let errands : List Errand := [
      ⟨rotated, ⟨"client"⟩, ⟨"first"⟩, rotated.blocks.get ⟨3, by decide⟩⟩,
      ⟨shorter, ⟨"client"⟩, ⟨"second"⟩, rotated.blocks.get ⟨2, by decide⟩⟩]
    let final := (Pulls.start ⟨held, []⟩ errands).run .inMemory crypto 1000 [0, 1, 1, 0, 0, 1, 0]
    (∀ (i : Nat) (e : Errand), errands[i]? = some e →
      ∃ p, final.pulls[i]? = some (.returned (.ok p)) ∧ p.target = e.target.hash ∧
        p.received = e.target.index + 1 ∧ p.inserted + p.skipped = e.target.index + 1) ∧
    final.ledger.store.blocks = rotated.blocks.take 4 ∧ 1 + final.inserted = 4 := by
  intro held shorter errands final
  have hheld : held.Follows rotated 1 :=
    { reachable := build_reachable (by decide), blocks_eq := rfl, within := by decide }
  have hshorter : shorter.Follows rotated 3 :=
    { reachable := build_reachable (by decide), blocks_eq := rfl, within := by decide }
  have hrotated : rotated.Follows rotated 4 :=
    { reachable := rotated_reachable, blocks_eq := rfl, within := by decide }
  have herrands : ∀ e ∈ errands, e.Answerable rotated := by
    intro e he
    rcases List.mem_cons.1 he with rfl | he
    · exact ⟨List.getElem_mem _, 4, hrotated⟩
    · obtain rfl := List.mem_singleton.1 he
      exact ⟨by decide +kernel, 3, hshorter⟩
  have hlog : (⟨held, []⟩ : Ledger _).Takes .inMemory rotated (Errand.highest errands) :=
    BlockLog.appendAll_of_ok (fun _ _ _ => rfl) _
  have hturns : ∀ (i : Nat) (e : Errand), errands[i]? = some e →
      e.target.index < [0, 1, 1, 0, 0, 1, 0].count i := by
    intro i e he
    match i with
    | 0 =>
      cases he
      decide +kernel
    | 1 =>
      cases he
      decide +kernel
    | i + 2 => cases he
  have hhighest : max 1 (Errand.highest errands) = 4 := by decide +kernel
  obtain ⟨hcalls, hblocks, _, _, hsum⟩ :=
    run_undisturbed (l := ⟨held, []⟩) rotated_serveable hheld herrands hlog hturns
  rw [hhighest] at hblocks
  have hsize : final.ledger.store.size = 4 := by
    rw [Store.size, hblocks]
    decide +kernel
  refine ⟨hcalls, ?_, ?_⟩
  · rw [hblocks]
  · rw [hsum, hsize]

end Pulls

end

end CosignedLedger
