import CosignedLedger.Collective.Stream
import CosignedLedger.Proofs.Replication.Answers

/-!
# What a stream still owes

The serving side of a stream that nobody cancels brings a list of frames that its store decides: the
responses, and the text of its error if it ends in one. At each point of a stream some of them are
in the queue and the others are still owed. A step of the serving side moves a frame from one part
to the other or none, so that both together stay the same; only taking a frame shortens them.

* `Serving.frames`: all that a request brings.
* `Serving.Yields`: what is left to bring, and in how many steps.
* `Stream.Owes`, `Stream.step_owes`: what a stream owes, and what a step does to it.
* `Stream.not_blocked`: a stream that has nothing to take and is not finished can take a step.
-/

namespace CosignedLedger

namespace Serving
variable {store : Store} {server : Address}

def closing : Except ReplicationError Unit → List Frame
  | .ok () => []
  | .error e => [.error (.remote e.message)]

/-- What is sent, and how it ends, as the other side sees it. -/
def told (server : Address) (served : List (Address × Message) × Except ReplicationError Unit) :
    List Frame :=
  served.1.map (fun sent => .ok (server, sent.2)) ++ closing served.2

theorem told_cons (sent : Address × Message)
    (served : List (Address × Message) × Except ReplicationError Unit) :
    told server (sent :: served.1, served.2) = .ok (server, sent.2) :: told server served := rfl

/-- The frames that a request brings if every response is taken. -/
def frames (store : Store) (client server : Address) (target : Digest) : List Frame :=
  told server (serve store willing (some (.ok (client, .blockRequest target))))

/-- If there is a response for every block, a request for one of them brings the responses up to it
and nothing else. -/
theorem frames_answers (hs : store.Coherent)
    (hm : ∀ b ∈ store.blocks, ∃ m, response store b = .ok m) {t : Nat} {b : Block}
    (hb : store.blocks[t]? = some b) (client server : Address) :
    ∃ ms, Answers store b.hash 0 ms ∧ ms.length = t + 1 ∧
      frames store client server b.hash = ms.map fun m => .ok (server, m) := by
  obtain ⟨ms, hms, hlength, hserve⟩ := serve_answers hs hm hb client
  refine ⟨ms, hms, hlength, ?_⟩
  rw [frames, hserve]
  simp [told, closing]

/-- Serving from here on brings these frames in so many steps; the last step is to let go of the
stream. -/
inductive Yields (store : Store) (server : Address) : Serving → List Frame → Nat → Prop
  | ended (result : Except ReplicationError Unit) :
      Yields store server (.ended result) (closing result) 1
  | send {r : BlockRequest} {i : Nat} {b : Block} {m : Message} {rest : List Frame} {n : Nat} :
      Yields store server (sent (.ok ()) (sending r i b m)) rest n →
      Yields store server (sending r i b m) (.ok (server, m) :: rest) (n + 1)
  | look {s : Serving} {rest : List Frame} {n : Nat} :
      s.Looks → Yields store server (s.step store false) rest n → Yields store server s rest (n + 1)

theorem exists_yields (s : Serving) (hs : s ≠ .awaiting) :
    ∃ steps, Yields store server s (told server (run store willing false s)) steps ∧
      steps ≤ s.distance store + 1 ∧
      4 * (told server (run store willing false s)).length ≤ s.distance store + 6 := by
  -- The induction is on the distance to the end. With every frame that is offered serving comes
  -- four steps closer, hence the factor.
  induction hdistance : s.distance store using Nat.strongRecOn generalizing s with
  | ind d ih =>
    subst hdistance
    by_cases hlooks : s.Looks
    · have hlt := distance_step_lt store false hlooks
      obtain ⟨steps, hyields, hsteps, hlength⟩ := ih _ hlt _ (step_ne_awaiting hs false) rfl
      rw [run_of_looks hlooks]
      exact ⟨steps + 1, .look hlooks hyields, by omega, by omega⟩
    cases s with
    | awaiting => exact absurd rfl hs
    | ended result =>
      rw [run_ended]
      refine ⟨1, .ended result, Nat.le_refl _, ?_⟩
      cases result <;> simp [told, closing, distance]
    | sending r i b m =>
      have hlt := distance_sent_lt store (.ok ()) r i b m
      obtain ⟨steps, hyields, hsteps, hlength⟩ := ih _ hlt _ (sent_ne_awaiting _ r i b m) rfl
      rw [run_taken rfl]
      dsimp only
      rw [told_cons, List.length_cons]
      refine ⟨steps + 1, .send hyields, by omega, ?_⟩
      by_cases htarget : b.hash = r.target
      · simp only [sent, if_pos htarget, distance] at hlength ⊢
        omega
      · simp only [sent, if_neg htarget, distance] at hlength ⊢
        omega
    | _ => exact absurd trivial hlooks

theorem exists_yields_frames (store : Store) (client server : Address) (target : Digest) :
    ∃ steps, Yields store server (receive (.ok (client, .blockRequest target)))
        (frames store client server target) steps ∧
      steps ≤ 4 * store.size + 4 ∧ (frames store client server target).length ≤ store.size + 1 := by
  obtain ⟨steps, hyields, hsteps, hlength⟩ :=
    exists_yields (checking ⟨client, target⟩ 0) nofun
  simp only [distance, Nat.sub_zero] at hsteps hlength
  refine ⟨steps, hyields, by omega, ?_⟩
  simp only [frames, serve, receive]
  omega

end Serving

namespace Stream
variable {store : Store} {s s' : Stream} {rest : List Frame} {n : Nat}

/-- Nobody has let go of the receiving half, and the queue can hold something. -/
structure Live (s : Stream) : Prop where
  receiverOpen : s.receiverOpen = true
  capacity : 0 < s.capacity

/-- The frames that the serving side has yet to put into the queue, and the steps that it has yet
to take for that. -/
inductive Owes (store : Store) (s : Stream) : List Frame → Nat → Prop
  | requested {request : Address × Message} {rest : List Frame} {n : Nat} :
      s.serving = .awaiting → s.requests = [request] → s.released = false →
      (Serving.receive (.ok request)).Yields store s.server rest n → Owes store s rest (n + 1)
  | serving {rest : List Frame} {n : Nat} :
      s.released = false → s.serving.Yields store s.server rest n → Owes store s rest n
  | released {result : Except ReplicationError Unit} :
      s.serving = .ended result → s.released = true → Owes store s [] 0

theorem Owes.withResponses (h : s.Owes store rest n) (responses : List Frame) :
    ({ s with responses } : Stream).Owes store rest n := by
  cases h with
  | requested hserving hrequests hreleased hyields =>
    exact .requested hserving hrequests hreleased hyields
  | serving hreleased hyields => exact .serving hreleased hyields
  | released hserving hreleased => exact .released hserving hreleased

theorem Owes.of_released (h : s.Owes store rest n) (hreleased : s.released = true) : rest = [] := by
  cases h with
  | requested _ _ hnot => rw [hreleased] at hnot; cases hnot
  | serving hnot => rw [hreleased] at hnot; cases hnot
  | released => rfl

theorem step_of_looks (hlooks : s.serving.Looks) :
    s.step store = some { s with serving := s.serving.step store (!s.receiverOpen) } := by
  unfold step
  generalize s.serving = serving at hlooks
  cases serving with
  | awaiting => exact hlooks.elim
  | sending r i b m => exact hlooks.elim
  | ended result => exact hlooks.elim
  | _ => rfl

/-- A step of the serving side puts the first of the frames that it owes into the queue, or none of
them. -/
theorem step_owes (hlive : s.Live) (howes : s.Owes store rest n) (hstep : s.step store = some s') :
    ∃ new rest' n', rest = new ++ rest' ∧ n = n' + 1 ∧ s'.responses = s.responses ++ new ∧
      s'.Live ∧ s'.Owes store rest' n' := by
  have hopen := hlive.receiverOpen
  cases howes with
  | @requested request rest n hserving hrequests hreleased hyields =>
    simp only [step, hserving, hopen, hrequests, Bool.not_true, Bool.false_eq_true, if_false] at hstep
    cases hstep
    exact ⟨[], rest, n, rfl, rfl, (List.append_nil _).symm, ⟨rfl, hlive.capacity⟩,
      .serving hreleased hyields⟩
  | @serving rest n hreleased hyields =>
    generalize hserving : s.serving = serving at hyields
    cases hyields with
    | ended result =>
      cases result with
      | ok _ =>
        simp only [step, hserving, hreleased, Bool.false_eq_true, if_false] at hstep
        cases hstep
        exact ⟨[], [], 0, rfl, rfl, (List.append_nil _).symm, ⟨hopen, hlive.capacity⟩,
          .released rfl rfl⟩
      | error e =>
        simp only [step, hserving, hreleased, hopen, Bool.not_true, Bool.false_eq_true,
          if_false] at hstep
        split at hstep
        · cases hstep
          exact ⟨[.error (.remote e.message)], [], 0, rfl, rfl, rfl, ⟨rfl, hlive.capacity⟩,
            .released rfl rfl⟩
        · cases hstep
    | @send r i b m rest n hyields =>
      simp only [step, hserving, hopen, Bool.not_true, Bool.false_eq_true, if_false] at hstep
      split at hstep
      · cases hstep
        exact ⟨[.ok (s.server, m)], rest, n, rfl, rfl, rfl, ⟨rfl, hlive.capacity⟩,
          .serving hreleased hyields⟩
      · cases hstep
    | @look _ rest n hlooks hyields =>
      rw [step_of_looks (hserving.symm ▸ hlooks), hserving, hopen] at hstep
      cases hstep
      exact ⟨[], rest, n, rfl, rfl, (List.append_nil _).symm, ⟨rfl, hlive.capacity⟩,
        .serving hreleased hyields⟩
  | released hserving hreleased =>
    simp [step, hserving, hreleased] at hstep

/-- A serving side that must wait though there is room has let go of the stream. -/
theorem not_blocked (hlive : s.Live) (howes : s.Owes store rest n) (hroom : s.hasRoom = true)
    (hstep : s.step store = none) : s.released = true ∧ rest = [] := by
  have hopen := hlive.receiverOpen
  cases howes with
  | requested hserving hrequests hreleased hyields =>
    simp [step, hserving, hopen, hrequests] at hstep
  | serving hreleased hyields =>
    generalize hserving : s.serving = serving at hyields
    cases hyields with
    | ended result => cases result <;> simp [step, hserving, hreleased, hopen, hroom] at hstep
    | send hyields => simp [step, hserving, hopen, hroom] at hstep
    | look hlooks hyields =>
      rw [step_of_looks (hserving.symm ▸ hlooks)] at hstep
      cases hstep
  | released hserving hreleased => exact ⟨hreleased, rfl⟩

theorem Live.hasRoom (h : s.Live) (hresponses : s.responses = []) : s.hasRoom = true := by
  simp [Stream.hasRoom, hresponses, h.capacity]

theorem runSteps_owes {steps : Nat} (hlive : s.Live) (howes : s.Owes store rest n)
    (hsteps : n ≤ steps) :
    ∃ new rest' n', rest = new ++ rest' ∧ (s.runSteps store steps).responses = s.responses ++ new ∧
      (s.runSteps store steps).Live ∧ (s.runSteps store steps).Owes store rest' n' ∧ n' ≤ n ∧
      (s.runSteps store steps).step store = none := by
  induction steps generalizing s rest n with
  | zero =>
    obtain rfl : n = 0 := by omega
    have hstep : s.step store = none := by
      cases hstep : s.step store with
      | none => rfl
      | some s' =>
        obtain ⟨_, _, n', _, hn, _⟩ := step_owes hlive howes hstep
        omega
    exact ⟨[], rest, 0, rfl, (List.append_nil _).symm, hlive, howes, Nat.le_refl 0, hstep⟩
  | succ steps ih =>
    simp only [runSteps]
    cases hstep : s.step store with
    | none => exact ⟨[], rest, n, rfl, (List.append_nil _).symm, hlive, howes, Nat.le_refl n, hstep⟩
    | some s' =>
      obtain ⟨new, rest', n', rfl, rfl, hresponses, hlive', howes'⟩ := step_owes hlive howes hstep
      obtain ⟨more, rest'', n'', rfl, hmore, hlive'', howes'', hn, hwaits⟩ :=
        ih hlive' howes' (by omega)
      refine ⟨new ++ more, rest'', n'', (List.append_assoc _ _ _).symm, ?_, hlive'', howes'',
        by omega, hwaits⟩
      rw [hmore, hresponses, List.append_assoc]

theorem step_keeps (hstep : s.step store = some s') :
    s'.capacity = s.capacity ∧ s'.handler = s.handler := by
  unfold step at hstep
  split at hstep
  · split at hstep
    · cases hstep; exact ⟨rfl, rfl⟩
    · split at hstep
      · cases hstep; exact ⟨rfl, rfl⟩
      · split at hstep
        · cases hstep
        · cases hstep; exact ⟨rfl, rfl⟩
  · split at hstep
    · cases hstep; exact ⟨rfl, rfl⟩
    · split at hstep
      · cases hstep; exact ⟨rfl, rfl⟩
      · cases hstep
  · split at hstep
    · cases hstep
    · split at hstep
      · cases hstep; exact ⟨rfl, rfl⟩
      · split at hstep
        · cases hstep; exact ⟨rfl, rfl⟩
        · split at hstep
          · cases hstep; exact ⟨rfl, rfl⟩
          · cases hstep
  · cases hstep; exact ⟨rfl, rfl⟩

theorem runSteps_keeps (steps : Nat) :
    (s.runSteps store steps).capacity = s.capacity ∧
      (s.runSteps store steps).handler = s.handler := by
  induction steps generalizing s with
  | zero => exact ⟨rfl, rfl⟩
  | succ steps ih =>
    simp only [runSteps]
    cases hstep : s.step store with
    | none => exact ⟨rfl, rfl⟩
    | some s' =>
      obtain ⟨hcapacity, hhandler⟩ := step_keeps hstep
      obtain ⟨hcapacity', hhandler'⟩ := ih (s := s')
      exact ⟨hcapacity'.trans hcapacity, hhandler'.trans hhandler⟩

def requested (client server : Address) (handler : Handler) (capacity : Nat) (target : Digest) :
    Stream :=
  { start client server handler capacity with requests := [(client, .blockRequest target)] }

theorem requested_owes (store : Store) (client server : Address) (handler : Handler)
    (capacity : Nat) (target : Digest) :
    ∃ n, (requested client server handler capacity target).Owes store
        (Serving.frames store client server target) n ∧ n ≤ 4 * store.size + 5 := by
  obtain ⟨n, hyields, hn, _⟩ := Serving.exists_yields_frames store client server target
  exact ⟨n + 1, .requested rfl rfl rfl hyields, by omega⟩

/-- A queue with room for all of them gets all the frames that a request brings. -/
theorem settle_requested (store : Store) (client server : Address) (handler : Handler)
    {capacity : Nat} (target : Digest)
    (hcapacity : (Serving.frames store client server target).length < capacity) :
    let s := (requested client server handler capacity target).settle store
    s.responses = Serving.frames store client server target ∧ s.released = true := by
  obtain ⟨n, howes, hn⟩ := requested_owes store client server handler capacity target
  have hlive : (requested client server handler capacity target).Live := ⟨rfl, by
    show 0 < capacity
    omega⟩
  obtain ⟨new, rest, n', hframes, hresponses, hlive', howes', _, hwaits⟩ :=
    runSteps_owes hlive howes (show n ≤ 4 * store.size + 8 by omega)
  have hroom : ((requested client server handler capacity target).settle store).hasRoom = true := by
    have hlength : new.length ≤ (Serving.frames store client server target).length := by
      rw [hframes, List.length_append]
      omega
    have hqueued : ((requested client server handler capacity target).settle store).responses =
        new := hresponses
    have hkept : ((requested client server handler capacity target).settle store).capacity =
        capacity := (runSteps_keeps _).1
    simp only [hasRoom, hqueued, hkept, decide_eq_true_eq]
    omega
  obtain ⟨hreleased, rfl⟩ := not_blocked hlive' howes' hroom hwaits
  rw [List.append_nil] at hframes
  exact ⟨by rw [hframes]; exact hresponses, hreleased⟩

end Stream

end CosignedLedger
