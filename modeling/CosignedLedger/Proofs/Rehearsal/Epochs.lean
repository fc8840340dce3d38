import CosignedLedger.Proofs.Rehearsal.Course
import CosignedLedger.Proofs.Rehearsal.Stages
import CosignedLedger.Proofs.Transparent

/-!
# A team for every epoch

The teams of a rehearsal are counted in words of 64 bits, and the blocks ask for them by the number
of their epoch. There is a team for every block, except where the count of the epochs is the one
number that has no word: with as many blocks as there are words after zero, and a rotation at every
one of them. Then there is no team at all, and the first lookup panics. Settings are not checked for
that.

* `Rehearsal.Uncounted`: the settings with one epoch too many.
* `Rehearsal.epochCount_toNat`: how many teams a rehearsal makes.
* `Rehearsal.teams_cases`: it has as many, or there is an epoch whose team cannot be made.
* `Rehearsal.Stage.PanicFree`: a stage that does not panic.
* `Rehearsal.stages_panicFree`, `Rehearsal.run_uncounted`: whole rehearsals.
* `Rehearsal.epochs_in_bounds`: all of this for settings that are valid.
-/

namespace CosignedLedger

theorem epochOf_le (rotation index : Nat) : epochOf rotation index ≤ index := by
  unfold epochOf
  split
  · exact Nat.zero_le index
  · exact Nat.div_le_self index rotation

theorem epochOf_one (index : Nat) : epochOf 1 index = index := by
  rw [epochOf, if_neg Nat.one_ne_zero, Nat.div_one]

theorem epochOf_lt {rotation index : Nat} (hrotation : rotation ≠ 1) (hindex : 0 < index) :
    epochOf rotation index < index := by
  unfold epochOf
  split
  · exact hindex
  · exact Nat.div_lt_self hindex (by omega)

namespace Rehearsal
variable {Key : Type}

/-- The last block has the largest index that has a word, and that is the number of its epoch. -/
structure Uncounted (s : Settings) : Prop where
  blocks : s.blocks.toNat + 1 = UInt64.size
  rotation : s.rotation.toNat = 1

theorem epochCount_of_uncounted {s : Settings} (h : Uncounted s) :
    (epochCount s.rotation s.blocks).toNat = 0 := by
  have hblocks := h.blocks
  have hsize : UInt64.size = 2 ^ 64 := rfl
  simp only [epochCount, UInt64.toNat_add, UInt64.toNat_ofNat', UInt64.toNat_one]
  rw [h.rotation, epochOf_one]
  omega

theorem epochCount_toNat {s : Settings} (h : ¬Uncounted s) :
    (epochCount s.rotation s.blocks).toNat = epochOf s.rotation.toNat s.blocks.toNat + 1 := by
  apply epochCount_of_lt
  have hword : s.blocks.toNat < UInt64.size := s.blocks.toNat_lt
  have hle := epochOf_le s.rotation.toNat s.blocks.toNat
  by_cases hblocks : s.blocks.toNat + 1 = UInt64.size
  · have hrotation : s.rotation.toNat ≠ 1 := fun hrotation => h ⟨hblocks, hrotation⟩
    have hsize : 1 < UInt64.size := by decide
    have hlt := epochOf_lt hrotation (show 0 < s.blocks.toNat by omega)
    omega
  · omega

section
variable (scheme : Scheme Key) (entropy : Nat → Nat → Bytes) {s : Settings}

/-- The teams are all made, or one of them cannot be. -/
theorem teams_cases (count epoch : Nat) :
    (∃ all, teams scheme entropy s count epoch = .ok all ∧ all.length = count) ∨
      ∃ failed cause, epoch ≤ failed ∧ failed < epoch + count ∧
        team scheme entropy s failed = .error cause ∧
        teams scheme entropy s count epoch = .error (.authority failed cause) := by
  induction count generalizing epoch with
  | zero => exact .inl ⟨[], rfl, rfl⟩
  | succ count ih =>
    cases hfirst : team scheme entropy s epoch with
    | error cause =>
      refine .inr ⟨epoch, cause, Nat.le_refl epoch, by omega, hfirst, ?_⟩
      simp only [teams, hfirst, Except.mapError_error]
      rfl
    | ok first =>
      have hteams : teams scheme entropy s (count + 1) epoch =
          (teams scheme entropy s count (epoch + 1)).map (first :: ·) := by
        simp only [teams, hfirst, Except.mapError_ok]
        rfl
      rw [hteams]
      obtain ⟨rest, hrest, hlength⟩ | ⟨failed, cause, hle, hlt, hfailed, hrest⟩ := ih (epoch + 1)
      · exact .inl ⟨first :: rest, by rw [hrest]; rfl, by rw [List.length_cons, hlength]⟩
      · exact .inr ⟨failed, cause, by omega, by omega, hfailed, by rw [hrest]; rfl⟩

variable {scheme entropy} {all : List (Team Key)} {count epoch : Nat}

theorem length_of_teams (h : teams scheme entropy s count epoch = .ok all) : all.length = count := by
  obtain ⟨all', hall, hlength⟩ | ⟨_, _, _, _, _, herror⟩ :=
    teams_cases scheme entropy (s := s) count epoch
  · rw [h] at hall
    cases hall
    exact hlength
  · rw [h] at herror
    cases herror

theorem authority_of_teams {e : RehearsalError} (h : teams scheme entropy s count epoch = .error e) :
    ∃ failed cause, epoch ≤ failed ∧ failed < epoch + count ∧
      team scheme entropy s failed = .error cause ∧ e = .authority failed cause := by
  obtain ⟨all, hall, _⟩ | ⟨failed, cause, hle, hlt, hfailed, herror⟩ :=
    teams_cases scheme entropy (s := s) count epoch
  · rw [h] at hall
    cases hall
  · rw [h] at herror
    cases herror
    exact ⟨failed, cause, hle, hlt, hfailed, rfl⟩

end

/-! ### Stages -/

namespace Stage
variable {ε α β : Type}

def Fails (stage : Stage α) (c : Collective) (failure : Failure) (c' : Collective) : Prop :=
  stage.run.run c = (.error failure, c')

theorem Gives.fails_bind {first : Stage α} {rest : α → Stage β} {c c' c'' : Collective} {a : α}
    {failure : Failure} (hfirst : first.Gives c a c') (hrest : (rest a).Fails c' failure c'') :
    (first >>= rest).Fails c failure c'' := by
  unfold Gives Fails at *
  rw [ExceptT.run_bind, StateT.run_bind, hfirst]
  exact hrest

theorem Fails.bind {first : Stage α} {c c' : Collective} {failure : Failure}
    (h : first.Fails c failure c') (rest : α → Stage β) : (first >>= rest).Fails c failure c' := by
  unfold Fails at *
  rw [ExceptT.run_bind, StateT.run_bind, h]
  rfl

theorem fails_lookup {found : Except OutOfBounds α} {fault : OutOfBounds} (h : found = .error fault)
    (c : Collective) : (lookup found).Fails c (.panic fault) c := by
  rw [h]
  rfl

/-- Wherever the stage begins, it does not panic. -/
def PanicFree (stage : Stage α) : Prop :=
  ∀ c fault, (stage.run.run c).1 ≠ .error (.panic fault)

theorem PanicFree.bind {first : Stage α} {rest : α → Stage β} (hfirst : first.PanicFree)
    (hrest : ∀ a, (rest a).PanicFree) : (first >>= rest).PanicFree := by
  intro c fault
  have hc := hfirst c fault
  rw [ExceptT.run_bind, StateT.run_bind]
  rcases hrun : first.run.run c with ⟨result, c'⟩
  rw [hrun] at hc
  cases result with
  | error e => exact fun h => hc (congrArg Except.error (Except.error.inj h))
  | ok a => exact hrest a c' fault

theorem panicFree_pure (a : α) : (pure a : Stage α).PanicFree := fun _ _ => nofun

theorem panicFree_get : (get : Stage Collective).PanicFree := fun _ _ => nofun

theorem panicFree_modify (change : Collective → Collective) : (modify change).PanicFree := fun _ _ => nofun

theorem panicFree_throw (e : RehearsalError) : (throw (.error e) : Stage α).PanicFree := fun _ _ => nofun

theorem panicFree_attempt (explain : ε → RehearsalError)
    (action : Collective → Except ε α × Collective) : (attempt explain action).PanicFree := by
  intro c fault
  show (action c).1.mapError _ ≠ _
  cases (action c).1 <;> nofun

theorem panicFree_ofExcept_bind (explain : ε → RehearsalError) {result : Except ε α}
    {rest : α → Stage β} (hrest : ∀ a, result = .ok a → (rest a).PanicFree) :
    (ofExcept explain result >>= rest).PanicFree := by
  cases result with
  | error e => exact fun _ _ => nofun
  | ok a => exact fun c fault => hrest a rfl c fault

theorem panicFree_lookup_bind {found : Except OutOfBounds α} {a : α} {rest : α → Stage β}
    (h : found = .ok a) (hrest : (rest a).PanicFree) : (lookup found >>= rest).PanicFree := by
  rw [h]
  exact fun c fault => hrest c fault

end Stage

section
variable {scheme : Scheme Key} {entropy : Nat → Nat → Bytes} {s : Settings} {all : List (Team Key)}

theorem startLeader_panicFree (crypto : Crypto)
    (hall : all.length = epochOf s.rotation.toNat s.blocks.toNat + 1) :
    (startLeader crypto s all).PanicFree := by
  obtain ⟨first, hfirst⟩ := exists_teamAt hall (Nat.zero_le s.blocks.toNat)
  unfold startLeader
  refine (Stage.panicFree_attempt _ _).bind fun leader => ?_
  refine Stage.panicFree_lookup_bind hfirst ?_
  refine (Stage.panicFree_attempt _ _).bind fun genesis => ?_
  exact (Stage.panicFree_modify _).bind fun _ => Stage.panicFree_pure _

theorem startFollowers_panicFree (s : Settings) (members : List Member) :
    (startFollowers s members).PanicFree := by
  induction members with
  | nil => exact Stage.panicFree_pure _
  | cons member rest ih =>
    exact (Stage.panicFree_attempt _ _).bind fun _ => (Stage.panicFree_modify _).bind fun _ => ih

theorem produceBlock_panicFree (hall : all.length = epochOf s.rotation.toNat s.blocks.toNat + 1)
    (leader : Nat) {index : Nat} (hindex : index ≤ s.blocks.toNat) :
    (produceBlock scheme s all leader index).PanicFree := by
  obtain ⟨next, hnext⟩ := exists_teamAt hall hindex
  obtain ⟨signing, hsigning⟩ := exists_teamAt hall (show index - 1 ≤ s.blocks.toNat by omega)
  unfold produceBlock
  refine Stage.panicFree_lookup_bind hnext ?_
  refine (Stage.panicFree_attempt _ _).bind fun draft => ?_
  refine Stage.panicFree_lookup_bind hsigning ?_
  exact (Stage.panicFree_attempt _ _).bind fun _ => Stage.panicFree_attempt _ _

theorem produce_panicFree (hall : all.length = epochOf s.rotation.toNat s.blocks.toNat + 1)
    (leader : Nat) {count index : Nat} (hindex : index + count ≤ s.blocks.toNat + 1) :
    (produce scheme s all leader count index).PanicFree := by
  induction count generalizing index with
  | zero => exact Stage.panicFree_pure _
  | succ count ih =>
    exact (produceBlock_panicFree hall leader (by omega)).bind fun _ => ih (by omega)

theorem openLagging_panicFree (s : Settings) : (openLagging s).PanicFree := by
  unfold openLagging
  split
  · exact Stage.panicFree_attempt _ _
  · exact (Stage.panicFree_attempt _ _).bind fun _ => Stage.panicFree_attempt _ _

theorem stages_panicFree (hcounted : ¬Uncounted s) : (stages scheme entropy s).PanicFree := by
  unfold stages
  dsimp only
  refine (Stage.panicFree_attempt _ _).bind fun _ => ?_
  refine Stage.panicFree_ofExcept_bind _ fun all hteams => ?_
  have hall : all.length = epochOf s.rotation.toNat s.blocks.toNat + 1 :=
    (length_of_teams hteams).trans (epochCount_toNat hcounted)
  refine (startLeader_panicFree _ hall).bind fun (leader, first, genesis) => ?_
  refine (startFollowers_panicFree s _).bind fun _ => ?_
  refine (Stage.panicFree_attempt _ _).bind fun _ => ?_
  refine (produce_panicFree hall leader (by omega)).bind fun _ => ?_
  refine Stage.panicFree_get.bind fun c => ?_
  split
  · exact Stage.panicFree_throw _
  refine (openLagging_panicFree s).bind fun lagging => ?_
  refine (Stage.panicFree_attempt _ _).bind fun caughtUp => ?_
  refine Stage.panicFree_get.bind fun c => ?_
  refine (Stage.panicFree_attempt _ _).bind fun links => ?_
  split
  · exact Stage.panicFree_throw _
  · exact Stage.panicFree_pure _

theorem teams_uncounted (scheme : Scheme Key) (entropy : Nat → Nat → Bytes) (h : Uncounted s) :
    teams scheme entropy s (epochCount s.rotation s.blocks).toNat 0 = .ok [] := by
  rw [epochCount_of_uncounted h, teams]

/-- Without any team a rehearsal panics when its leader is to record the first. -/
theorem run_uncounted (scheme : Scheme Key) (entropy : Nat → Nat → Bytes)
    (hvalid : s.validate = .ok ()) (h : Uncounted s) (disk : Disk) :
    run scheme entropy s disk = (.error (.panic ⟨0, 0⟩), disk) := by
  have hfirst : teamAt ([] : List (Team Key)) s 0 = .error ⟨0, 0⟩ := by
    rw [teamAt, h.rotation]
    exact elementAt_of_length_le (Nat.le_refl 0)
  have hleader : ∀ c, (startLeader scheme.crypto s ([] : List (Team Key))).Fails c (.panic ⟨0, 0⟩)
      { c with nodes := c.nodes ++ [freshNode s] } := fun c =>
    (openNode_gives _ s c).fails_bind ((Stage.fails_lookup hfirst _).bind _)
  have hfails : ∀ c, (stages scheme entropy s).Fails c (.panic ⟨0, 0⟩)
      { c with nodes := c.nodes ++ [freshNode s] } := fun c =>
    (Stage.gives_ofExcept hvalid c).fails_bind
      ((Stage.gives_ofExcept (teams_uncounted scheme entropy h) c).fails_bind ((hleader c).bind _))
  rw [run, hfails]
  rfl

/-- The count of the teams is exact, and no block asks for a team that is not there. -/
structure InBounds (scheme : Scheme Key) (entropy : Nat → Nat → Bytes) (s : Settings) : Prop where
  count : (epochCount s.rotation s.blocks).toNat = epochOf s.rotation.toNat s.blocks.toNat + 1
  made : ∀ all, teams scheme entropy s (epochCount s.rotation s.blocks).toNat 0 = .ok all →
    all.length = epochOf s.rotation.toNat s.blocks.toNat + 1 ∧
      ∀ index, index ≤ s.blocks.toNat → epochOf s.rotation.toNat index < all.length ∧
        ∃ members, teamAt all s index = .ok members
  unmade : ∀ e, teams scheme entropy s (epochCount s.rotation s.blocks).toNat 0 = .error e →
    ∃ failed cause, failed ≤ epochOf s.rotation.toNat s.blocks.toNat ∧
      team scheme entropy s failed = .error cause ∧ e = .authority failed cause
  ends : ∀ disk fault, (run scheme entropy s disk).1 ≠ .error (.panic fault)

theorem inBounds (scheme : Scheme Key) (entropy : Nat → Nat → Bytes) (h : ¬Uncounted s) :
    InBounds scheme entropy s where
  count := epochCount_toNat h
  made := by
    intro all hall
    have hlength := (length_of_teams hall).trans (epochCount_toNat h)
    refine ⟨hlength, fun index hindex => ⟨?_, exists_teamAt hlength hindex⟩⟩
    rw [hlength]
    exact Nat.lt_succ_of_le (epochOf_mono s.rotation.toNat hindex)
  unmade := by
    intro e he
    obtain ⟨failed, cause, _, hlt, hfailed, herror⟩ := authority_of_teams he
    rw [epochCount_toNat h] at hlt
    exact ⟨failed, cause, by omega, hfailed, herror⟩
  ends := fun disk fault => stages_panicFree h (.start disk s.node.streamBuffer) fault

/-- **There is a team for every block, but for one pair of numbers.** With valid settings the teams
are as many as the epochs, and the block at any index up to the last finds the team of its epoch, so
that no rehearsal panics. Only when the last index is the largest that there is and every block
begins an epoch, the count is zero: valid settings, with which every rehearsal panics at its first
lookup, in a list of no teams. -/
theorem epochs_in_bounds (scheme : Scheme Key) (entropy : Nat → Nat → Bytes)
    (hvalid : s.validate = .ok ()) :
    (¬Uncounted s → InBounds scheme entropy s) ∧
      (Uncounted s → (epochCount s.rotation s.blocks).toNat = 0 ∧
        teams scheme entropy s (epochCount s.rotation s.blocks).toNat 0 = .ok [] ∧
        ∀ disk, run scheme entropy s disk = (.error (.panic ⟨0, 0⟩), disk)) :=
  ⟨inBounds scheme entropy, fun h => ⟨epochCount_of_uncounted h,
    teams_uncounted scheme entropy h, run_uncounted scheme entropy hvalid h⟩⟩

end

section Examples
open Transparent

/-- Two members, and as many blocks as there are words after zero, each with an epoch of its own. -/
def uncounted : Settings := ⟨2, 18446744073709551615, 1, none, "info", .default⟩

theorem epochs_in_bounds_every_second :
    let s := { uncounted with rotation := 2 }
    s.validate = .ok () ∧ ¬Uncounted s ∧ InBounds scheme (fun _ _ => []) s :=
  have hcounted : ¬Uncounted { uncounted with rotation := 2 } := fun h =>
    absurd h.rotation (by decide)
  ⟨rfl, hcounted, (epochs_in_bounds scheme (fun _ _ => []) rfl).1 hcounted⟩

/-- Valid settings whose epochs are one more than a word counts: there is no team, and the lookup of
the first one panics. -/
theorem epochs_uncounted :
    uncounted.validate = .ok () ∧
      epochOf uncounted.rotation.toNat uncounted.blocks.toNat + 1 = UInt64.size ∧
      (epochCount uncounted.rotation uncounted.blocks).toNat = 0 ∧
      teams scheme (fun _ _ => []) uncounted
        (epochCount uncounted.rotation uncounted.blocks).toNat 0 = .ok [] ∧
      (run scheme (fun _ _ => []) uncounted .empty).1 = .error (.panic ⟨0, 0⟩) := by
  have h : Uncounted uncounted := ⟨by decide, by decide⟩
  refine ⟨rfl, by decide, epochCount_of_uncounted h, teams_uncounted _ _ h, ?_⟩
  rw [run_uncounted scheme _ rfl h]

end Examples

end Rehearsal

end CosignedLedger
