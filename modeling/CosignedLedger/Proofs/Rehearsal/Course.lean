import CosignedLedger.Proofs.Rehearsal.Teams

/-!
# The blocks of a rehearsal

With a seed the settings of a rehearsal decide its blocks. They are authorised, and the authority
changes from one block to the next just where an epoch ends.

* `Rehearsal.course`: the blocks that the leader makes.
* `Rehearsal.Playable`: settings, and a cryptography, with which a rehearsal can be played.
* `Rehearsal.Playable.exists_course`: there are such blocks.
* `Rehearsal.Course.authorised`: they follow each other, each signed by the epoch before it;
  `Rehearsal.Course.epochs`: the authority changes where an epoch ends.
-/

namespace CosignedLedger

namespace Rehearsal
variable {Key : Type}

/-! ### Blocks -/

section Blocks
variable (scheme : Scheme Key) (s : Settings) (all : List (Team Key))

def draftAfter (next : Team Key) (index : Nat) (previous : Block) : Block :=
  .draft scheme.crypto (UInt64.ofNat index) previous.hash next.roster (Bytes.ofText s!"block-{index}")

/-- The block at `index`: it records the team of its epoch, and the team that the block before it
records has signed it. -/
def blockAfter (index : Nat) (previous : Block) : Except Failure Block := do
  let next ← (teamAt all s index).mapError .panic
  let signing ← (teamAt all s (index - 1)).mapError .panic
  let draft := draftAfter scheme next index previous
  let signature ← (signing.signer.sign scheme draft.hash.bytes).mapError
    fun e => .error (.signature index e)
  return draft.withSignature signature

def blocksAfter : (count index : Nat) → (previous : Block) → Except Failure (List Block)
  | 0, _, _ => .ok []
  | count + 1, index, previous => do
    let b ← blockAfter scheme s all index previous
    let rest ← blocksAfter count (index + 1) b
    return b :: rest

def firstBlock (first : Team Key) : Block :=
  .genesis scheme.crypto first.roster (Bytes.ofText "genesis")

/-- The blocks that the leader makes. -/
def course (entropy : Nat → Nat → Bytes) : Except Failure (List Block) := do
  let all ← (teams scheme entropy s (epochCount s.rotation s.blocks).toNat 0).mapError .error
  let first ← (teamAt all s 0).mapError .panic
  let rest ← blocksAfter scheme s all s.blocks.toNat 1 (firstBlock scheme first)
  return firstBlock scheme first :: rest

end Blocks

/-- What a rehearsal with a seed and without a data folder takes for granted: settings that are
valid, numbers of 64 bits, keys that can be made, signatures that their authority stands for, and
blocks whose hashes are told apart and which fit, with their chains, into the limit. -/
structure Playable (scheme : Scheme Key) (entropy : Nat → Nat → Bytes) (seed : UInt64)
    (s : Settings) : Prop where
  valid : s.validate = .ok ()
  seeded : s.seed = some seed
  inMemory : s.node.dataFolder = none
  epochs : epochOf s.rotation.toNat s.blocks.toNat + 1 < UInt64.size
  word : s.node.maxBlockSize < UInt64.size
  keys : ∀ epoch position, epoch ≤ epochOf s.rotation.toNat s.blocks.toNat → position < s.nodes →
    ∃ key, scheme.keyOfMaterial (Signer.seedMaterial (seed + UInt64.ofNat epoch)
      (memberAddress epoch position)) = .ok key
  signs : ∀ epoch members, team scheme entropy s epoch = .ok members → ∀ message, ∃ signature,
    members.signer.sign scheme message = .ok signature ∧
      scheme.crypto.Accepts members.roster message signature
  distinct : ∀ blocks, course scheme s entropy = .ok blocks → (blocks.map (·.hash)).Nodup
  nonzero : ∀ blocks, course scheme s entropy = .ok blocks → ∀ b ∈ blocks, b.hash.isZero = false
  blocksFit : ∀ blocks, course scheme s entropy = .ok blocks → ∀ b ∈ blocks,
    (Block.format.write b).length ≤ s.node.maxBlockSize
  chainsFit : ∀ blocks store, course scheme s entropy = .ok blocks →
    Store.replay blocks = .ok store → ∀ b ∈ blocks, ∀ chain, store.chainTo b.hash = .ok chain →
      (Chain.format.write chain).length ≤ s.node.maxBlockSize

structure Course (scheme : Scheme Key) (entropy : Nat → Nat → Bytes) (s : Settings)
    (all : List (Team Key)) (blocks : List Block) : Prop where
  teams_eq : teams scheme entropy s (epochCount s.rotation s.blocks).toNat 0 = .ok all
  count : all.length = epochOf s.rotation.toNat s.blocks.toNat + 1
  members : ∀ (epoch : Nat) (members : Team Key), all[epoch]? = some members →
    team scheme entropy s epoch = .ok members
  first : ∃ first, teamAt all s 0 = .ok first ∧ blocks[0]? = some (firstBlock scheme first)
  length_eq : blocks.length = s.blocks.toNat + 1
  next : ∀ (i : Nat) (a b : Block), blocks[i]? = some a → blocks[i + 1]? = some b →
    blockAfter scheme s all (i + 1) a = .ok b

section
variable {scheme : Scheme Key} {entropy : Nat → Nat → Bytes} {seed : UInt64} {s : Settings}
  {all : List (Team Key)} {blocks : List Block}

theorem blockAfter_eq_ok_iff {index : Nat} {previous b : Block} :
    blockAfter scheme s all index previous = .ok b ↔
      ∃ next signing signature, teamAt all s index = .ok next ∧
        teamAt all s (index - 1) = .ok signing ∧
        signing.signer.sign scheme (draftAfter scheme next index previous).hash.bytes =
          .ok signature ∧
        b = (draftAfter scheme next index previous).withSignature signature := by
  simp only [blockAfter, Except.bind_eq_ok, Except.mapError_eq_ok, Except.pure_eq_ok]
  constructor
  · rintro ⟨next, hnext, signing, hsigning, signature, hsignature, rfl⟩
    exact ⟨next, signing, signature, hnext, hsigning, hsignature, rfl⟩
  · rintro ⟨next, signing, signature, hnext, hsigning, hsignature, rfl⟩
    exact ⟨next, hnext, signing, hsigning, signature, hsignature, rfl⟩

theorem teamAt_eq_ok_iff {index : Nat} {members : Team Key} :
    teamAt all s index = .ok members ↔ all[epochOf s.rotation.toNat index]? = some members :=
  elementAt_eq_ok_iff

theorem exists_teamAt (hall : all.length = epochOf s.rotation.toNat s.blocks.toNat + 1)
    {index : Nat} (hindex : index ≤ s.blocks.toNat) : ∃ members, teamAt all s index = .ok members := by
  have hlt : epochOf s.rotation.toNat index < all.length := by
    have := epochOf_mono s.rotation.toNat hindex
    omega
  exact ⟨all[epochOf s.rotation.toNat index], teamAt_eq_ok_iff.2 (List.getElem?_eq_getElem hlt)⟩

namespace Playable

theorem nodes_pos (h : Playable scheme entropy seed s) : 0 < s.nodes := by
  have hvalid := h.valid
  unfold Settings.validate at hvalid
  split at hvalid
  · cases hvalid
  · omega

theorem epochCount_toNat (h : Playable scheme entropy seed s) :
    (epochCount s.rotation s.blocks).toNat = epochOf s.rotation.toNat s.blocks.toNat + 1 :=
  epochCount_of_lt h.epochs

theorem exists_team (h : Playable scheme entropy seed s) {epoch : Nat}
    (hepoch : epoch ≤ epochOf s.rotation.toNat s.blocks.toNat) :
    ∃ members, team scheme entropy s epoch = .ok members := by
  obtain ⟨signer, hsigner⟩ : ∃ signer, Signer.ofSeed scheme (seed + UInt64.ofNat epoch)
      ((List.range s.nodes).map (memberAddress epoch)) = .ok signer := by
    refine Signer.exists_generate scheme fun m hm => ?_
    simp only [List.map_map, List.mem_map, List.mem_range] at hm
    obtain ⟨position, hposition, rfl⟩ := hm
    exact h.keys epoch position hepoch hposition
  exact ⟨⟨signer, signer.roster scheme⟩, by
    simp only [team, h.seeded, Except.bind_eq_ok, Except.pure_eq_ok]
    exact ⟨signer, hsigner, rfl⟩⟩

theorem exists_blockAfter (h : Playable scheme entropy seed s)
    (hall : all.length = epochOf s.rotation.toNat s.blocks.toNat + 1)
    (hmembers : ∀ (epoch : Nat) (members : Team Key), all[epoch]? = some members →
      team scheme entropy s epoch = .ok members)
    {index : Nat} (hindex : index ≤ s.blocks.toNat) (previous : Block) :
    ∃ b, blockAfter scheme s all index previous = .ok b := by
  obtain ⟨next, hnext⟩ := exists_teamAt hall hindex
  obtain ⟨signing, hsigning⟩ := exists_teamAt hall (show index - 1 ≤ s.blocks.toNat by omega)
  obtain ⟨signature, hsignature, _⟩ :=
    h.signs _ signing (hmembers _ signing (teamAt_eq_ok_iff.1 hsigning))
      (draftAfter scheme next index previous).hash.bytes
  exact ⟨_, blockAfter_eq_ok_iff.2 ⟨next, signing, signature, hnext, hsigning, hsignature, rfl⟩⟩

theorem exists_blocksAfter (h : Playable scheme entropy seed s)
    (hall : all.length = epochOf s.rotation.toNat s.blocks.toNat + 1)
    (hmembers : ∀ (epoch : Nat) (members : Team Key), all[epoch]? = some members →
      team scheme entropy s epoch = .ok members)
    {count index : Nat} (hindex : index + count ≤ s.blocks.toNat + 1) (previous : Block) :
    ∃ rest, blocksAfter scheme s all count index previous = .ok rest ∧ rest.length = count ∧
      ∀ i a b, (previous :: rest)[i]? = some a → (previous :: rest)[i + 1]? = some b →
        blockAfter scheme s all (index + i) a = .ok b := by
  induction count generalizing index previous with
  | zero => exact ⟨[], rfl, rfl, fun i a b _ hb => by simp at hb⟩
  | succ count ih =>
    obtain ⟨b, hb⟩ := h.exists_blockAfter hall hmembers (show index ≤ s.blocks.toNat by omega) previous
    obtain ⟨rest, hrest, hlength, hnext⟩ := ih (show index + 1 + count ≤ s.blocks.toNat + 1 by omega) b
    refine ⟨b :: rest, ?_, by rw [List.length_cons, hlength], ?_⟩
    · simp only [blocksAfter, Except.bind_eq_ok, Except.pure_eq_ok]
      exact ⟨b, hb, rest, hrest, rfl⟩
    · intro i a b' ha hb'
      cases i with
      | zero =>
        cases ha
        cases hb'
        exact hb
      | succ i =>
        rw [Nat.add_comm i, ← Nat.add_assoc]
        exact hnext i a b' ha hb'

theorem exists_course (h : Playable scheme entropy seed s) :
    ∃ all blocks, course scheme s entropy = .ok blocks ∧ Course scheme entropy s all blocks := by
  have hteam : ∀ i, i < (epochCount s.rotation s.blocks).toNat →
      ∃ members, team scheme entropy s (0 + i) = .ok members := by
    intro i hi
    rw [h.epochCount_toNat] at hi
    exact h.exists_team (by omega)
  obtain ⟨all, hteams, hlength, hmembers⟩ := exists_teams scheme entropy hteam
  simp only [Nat.zero_add] at hmembers
  rw [h.epochCount_toNat] at hlength
  obtain ⟨first, hfirst⟩ := exists_teamAt hlength (Nat.zero_le s.blocks.toNat)
  obtain ⟨rest, hrest, hcount, hnext⟩ := h.exists_blocksAfter hlength hmembers
    (show 1 + s.blocks.toNat ≤ s.blocks.toNat + 1 by omega) (firstBlock scheme first)
  refine ⟨all, firstBlock scheme first :: rest, ?_, hteams, hlength, hmembers, ⟨first, hfirst, rfl⟩,
    by rw [List.length_cons, hcount], fun i a b ha hb => ?_⟩
  · simp only [course, Except.bind_eq_ok, Except.mapError_eq_ok, Except.pure_eq_ok]
    exact ⟨all, hteams, first, hfirst, rest, hrest, rfl⟩
  · rw [Nat.add_comm]
    exact hnext i a b ha hb

end Playable

namespace Course

theorem made (h : Course scheme entropy s all blocks) {i : Nat} {b : Block}
    (hb : blocks[i + 1]? = some b) :
    ∃ a next signing signature, blocks[i]? = some a ∧ teamAt all s (i + 1) = .ok next ∧
      teamAt all s i = .ok signing ∧
      signing.signer.sign scheme (draftAfter scheme next (i + 1) a).hash.bytes = .ok signature ∧
      b = (draftAfter scheme next (i + 1) a).withSignature signature := by
  have hi : i + 1 < blocks.length := (List.getElem?_eq_some_iff.1 hb).1
  obtain ⟨a, ha⟩ : ∃ a, blocks[i]? = some a := ⟨_, List.getElem?_eq_getElem (by omega)⟩
  obtain ⟨next, signing, signature, hnext, hsigning, hsignature, hb'⟩ :=
    blockAfter_eq_ok_iff.1 (h.next i a b ha hb)
  exact ⟨a, next, signing, signature, ha, hnext, hsigning, hsignature, hb'⟩

/-- The signers of the teams, and the blocks that they have made one after the other. -/
theorem drafted (h : Course scheme entropy s all blocks) :
    Drafted scheme (all.map (·.signer)) s.rotation.toNat blocks := by
  have hseat : ∀ {i : Nat} {members : Team Key}, teamAt all s i = .ok members →
      (all.map (·.signer))[epochOf s.rotation.toNat i]? = some members.signer ∧
        members.roster = members.signer.roster scheme := by
    intro i members hmembers
    rw [teamAt_eq_ok_iff] at hmembers
    rw [List.getElem?_map, hmembers]
    exact ⟨rfl, team_roster scheme entropy (h.members _ members hmembers)⟩
  constructor
  case first =>
    intro b hb
    obtain ⟨first, hfirst, hblock⟩ := h.first
    rw [hblock] at hb
    cases hb
    obtain ⟨hsigner, hroster⟩ := hseat hfirst
    exact ⟨first.signer, _, hsigner, by rw [firstBlock, hroster]⟩
  case next =>
    intro i a b ha hb
    obtain ⟨a', next, signing, signature, ha', hnext, hsigning, hsignature, rfl⟩ := h.made hb
    rw [ha] at ha'
    cases ha'
    obtain ⟨hsigner, hroster⟩ := hseat hnext
    rw [draftAfter, hroster] at hsignature ⊢
    exact ⟨next.signer, signing.signer, _, signature, hsigner, (hseat hsigning).1, hsignature, rfl⟩

theorem hashed (h : Course scheme entropy s all blocks) : ∀ b ∈ blocks, b.Hashed scheme.crypto :=
  h.drafted.hashed

theorem length_le (h : Course scheme entropy s all blocks) : blocks.length ≤ UInt64.size := by
  rw [h.length_eq]
  exact s.blocks.toNat_lt

theorem position (h : Course scheme entropy s all blocks) {i : Nat} {b : Block}
    (hb : blocks[i]? = some b) : b.index = i :=
  h.drafted.position h.length_le hb

theorem authorised (h : Course scheme entropy s all blocks)
    (hplayable : Playable scheme entropy seed s) (hcourse : course scheme s entropy = .ok blocks) :
    Authorised scheme.crypto blocks := by
  refine h.drafted.authorised h.length_le (hplayable.distinct blocks hcourse) fun signer hsigner => ?_
  obtain ⟨members, hmember, rfl⟩ := List.mem_map.1 hsigner
  obtain ⟨epoch, hepoch⟩ := List.getElem?_of_mem hmember
  have hteam := h.members epoch members hepoch
  have hsigns := hplayable.signs epoch members hteam
  rwa [team_roster scheme entropy hteam] at hsigns

/-- The epochs of the blocks are those of their authorities, which are told apart by the addresses
in them. -/
theorem epochs (h : Course scheme entropy s all blocks) (hnodes : 0 < s.nodes) {store : Store}
    (hblocks : store.blocks = blocks) : store.Epochs (epochOf s.rotation.toNat) := by
  have hdrafted := h.drafted
  rw [← hblocks] at hdrafted
  refine hdrafted.epochs fun {m n before after} hm hn hsame => ?_
  rw [List.getElem?_map, Option.map_eq_some_iff] at hm hn
  obtain ⟨team, hteam, rfl⟩ := hm
  obtain ⟨team', hteam', rfl⟩ := hn
  have haddresses := team_addresses scheme entropy (h.members m team hteam)
  have haddresses' := team_addresses scheme entropy (h.members n team' hteam')
  rw [team_roster scheme entropy (h.members m team hteam), hsame,
    ← team_roster scheme entropy (h.members n team' hteam'), haddresses'] at haddresses
  have hfirst := congrArg List.head? haddresses
  obtain ⟨nodes, hsucc⟩ : ∃ nodes, s.nodes = nodes + 1 := ⟨s.nodes - 1, by omega⟩
  rw [hsucc, List.range_succ_eq_map, List.map_cons, List.map_cons] at hfirst
  exact (memberAddress_inj.1 (Option.some.inj hfirst)).1.symm

end Course

end

end Rehearsal

end CosignedLedger
