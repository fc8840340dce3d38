import CosignedLedger.Proofs.Chain.Completeness
import CosignedLedger.Proofs.Chain.Succession
import CosignedLedger.Proofs.Store.Replay
import Mathlib.Algebra.Order.Floor.Div
import Mathlib.Data.Finset.Image

/-!
# Samples are authorised

Whatever the number of blocks and however long the epochs, a sample ledger is what it is meant to
be: signers and blocks are there, and each block past the first is signed by the authority that the
block before it records. Where hashes are told apart, each first part of it opens as a store, in
which a chain has one link for each epoch on the way.

* `Sample.image_epochOf`: the epochs that the blocks belong to.
* `Sample.Signable`: keys that can be made, and signatures that their roster stands for.
* `Sample.blocksFrom_steps`, `Sample.exists_blocksFrom`: the blocks one by one.
* `Sample.drafted`: how they follow each other.
* `Sample.build_opens`: all of this for any number of blocks and any rotation.
-/

namespace CosignedLedger.Sample
variable {Key : Type} {scheme : Scheme Key} {signers : List (Signer Key)} {sample : Sample Key}
  {rotation count index : Nat}

/-! ### Epochs -/

/-- The first blocks belong to the epochs from zero on, none of which is passed over. -/
theorem image_epochOf (rotation count : Nat) :
    (Finset.range count).image (epochOf rotation) = Finset.range (epochs rotation count) := by
  induction count with
  | zero => rfl
  | succ count ih =>
    have hepochs : epochs rotation (count + 1) = epochOf rotation count + 1 := rfl
    rw [Finset.range_add_one, Finset.image_insert, ih, hepochs]
    cases count with
    | zero => rw [epochOf_zero]; rfl
    | succ count =>
      have hbefore : epochs rotation (count + 1) = epochOf rotation count + 1 := rfl
      have hsucc := epochOf_succ rotation count
      ext epoch
      rw [hbefore, Finset.mem_insert, Finset.mem_range, Finset.mem_range]
      omega

theorem epochOf_lt_epochs (h : index < count) : epochOf rotation index < epochs rotation count := by
  rw [← Finset.mem_range, ← image_epochOf]
  exact Finset.mem_image_of_mem _ (Finset.mem_range.2 h)

/-! ### Signers -/

/-- What a sample with so many epochs takes for granted: keys that can be made, and signatures that
the roster of all who have signed stands for. -/
structure Signable (scheme : Scheme Key) (count : Nat) : Prop where
  keys : ∀ epoch < count, ∃ s, signer scheme epoch = .ok s
  signs : ∀ epoch < count, ∀ s, signer scheme epoch = .ok s → s.Vouches scheme

theorem signer_addresses {epoch : Nat} {s : Signer Key} (h : signer scheme epoch = .ok s) :
    (s.roster scheme).members.map (·.address) =
      (List.range authoritySize).map fun i => ⟨s!"member-{epoch}-{i}"⟩ := by
  rw [signer, Signer.ofSeed] at h
  rw [Signer.roster_addresses, Signer.generate_addresses scheme h, List.map_map, List.map_map]
  rfl

theorem roster_inj {m n : Nat} {s s' : Signer Key} (h : signer scheme m = .ok s)
    (h' : signer scheme n = .ok s') (hsame : s.roster scheme = s'.roster scheme) : m = n := by
  have haddresses := signer_addresses h
  rw [hsame, signer_addresses h'] at haddresses
  have hfirst : (⟨s!"member-{n}-{0}"⟩ : Address) = ⟨s!"member-{m}-{0}"⟩ :=
    Option.some.inj (congrArg List.head? haddresses)
  exact (numbered_inj.1 (Address.mk.inj hfirst)).1.symm

theorem signerAt_eq_ok_iff {s : Signer Key} :
    signerAt signers rotation index = .ok s ↔ signers[epochOf rotation index]? = some s := by
  rw [signerAt, Except.mapError_eq_ok, elementAt_eq_ok_iff]

theorem signers_eq (h : (List.range count).mapM (signer scheme) = .ok signers) :
    signers.length = count ∧
      ∀ (epoch : Nat) (s : Signer Key), signers[epoch]? = some s → signer scheme epoch = .ok s := by
  have hmap := Except.mapM_eq_ok_iff.1 h
  have hlength := congrArg List.length hmap
  rw [List.length_map, List.length_map, List.length_range] at hlength
  refine ⟨hlength.symm, fun epoch s hs => ?_⟩
  have hepoch : epoch < count := by
    rw [hlength]
    exact (List.getElem?_eq_some_iff.1 hs).1
  have hat := congrArg (·[epoch]?) hmap
  simp only [List.getElem?_map, hs, List.getElem?_range hepoch, Option.map_some] at hat
  exact Option.some.inj hat

/-! ### Blocks -/

def draftAfter (scheme : Scheme Key) (s : Signer Key) (index : Nat) (previous : Block) : Block :=
  .draft scheme.crypto (UInt64.ofNat index) previous.hash (s.roster scheme)
    (Bytes.ofText s!"block-{index}")

theorem block_none_eq_ok_iff {b : Block} :
    block scheme signers rotation index none = .ok b ↔
      ∃ s, signerAt signers rotation index = .ok s ∧
        b = .genesis scheme.crypto (s.roster scheme) (Bytes.ofText s!"block-{index}") := by
  simp only [block, Except.bind_eq_ok, Except.pure_eq_ok]
  exact exists_congr fun s => and_congr_right fun _ => eq_comm

theorem block_some_eq_ok_iff {previous b : Block} :
    block scheme signers rotation index (some previous) = .ok b ↔
      ∃ s signing signature, signerAt signers rotation index = .ok s ∧
        signerAt signers rotation (index - 1) = .ok signing ∧
        signing.sign scheme (draftAfter scheme s index previous).hash.bytes = .ok signature ∧
        b = (draftAfter scheme s index previous).withSignature signature := by
  simp only [block, Except.bind_eq_ok, Except.mapError_eq_ok, Except.pure_eq_ok]
  constructor
  · rintro ⟨s, hs, signing, hsigning, signature, hsignature, rfl⟩
    exact ⟨s, signing, signature, hs, hsigning, hsignature, rfl⟩
  · rintro ⟨s, signing, signature, hs, hsigning, hsignature, rfl⟩
    exact ⟨s, hs, signing, hsigning, signature, hsignature, rfl⟩

/-- Each block is made after the one before it, and the first one after what comes before them all. -/
theorem blocksFrom_steps {before? : Option Block} {blocks : List Block}
    (h : blocksFrom scheme signers rotation count index before? = .ok blocks) :
    blocks.length = count ∧
      ∀ (k : Nat) (previous? : Option Block) (b : Block),
        (before? :: blocks.map some)[k]? = some previous? → blocks[k]? = some b →
          block scheme signers rotation (index + k) previous? = .ok b := by
  induction count generalizing index before? blocks with
  | zero =>
    cases h
    exact ⟨rfl, fun k previous? b _ hb => by simp at hb⟩
  | succ count ih =>
    simp only [blocksFrom, Except.bind_eq_ok, Except.pure_eq_ok] at h
    obtain ⟨first, hfirst, rest, hrest, rfl⟩ := h
    obtain ⟨hlength, hsteps⟩ := ih hrest
    refine ⟨by rw [List.length_cons, hlength], fun k previous? b hprevious hb => ?_⟩
    cases k with
    | zero =>
      cases hprevious
      cases hb
      exact hfirst
    | succ k =>
      rw [Nat.add_comm k, ← Nat.add_assoc]
      exact hsteps k previous? b hprevious hb

theorem exists_blocksFrom (before? : Option Block)
    (h : ∀ k < count, ∀ previous?, ∃ b,
      block scheme signers rotation (index + k) previous? = .ok b) :
    ∃ blocks, blocksFrom scheme signers rotation count index before? = .ok blocks := by
  induction count generalizing index before? with
  | zero => exact ⟨[], rfl⟩
  | succ count ih =>
    obtain ⟨b, hb⟩ := h 0 (Nat.succ_pos count) before?
    have hlater : ∀ k < count, ∀ previous?, ∃ b,
        block scheme signers rotation (index + 1 + k) previous? = .ok b := by
      intro k hk
      rw [Nat.add_assoc, Nat.add_comm 1]
      exact h (k + 1) (Nat.succ_lt_succ hk)
    obtain ⟨rest, hrest⟩ := ih (some b) hlater
    refine ⟨b :: rest, ?_⟩
    simp only [blocksFrom, Except.bind_eq_ok, Except.pure_eq_ok]
    exact ⟨b, hb, rest, hrest, rfl⟩

/-! ### The whole -/

theorem build_eq_ok_iff : build scheme count rotation = .ok sample ↔
    (List.range (epochs rotation count)).mapM (signer scheme) = .ok sample.signers ∧
      blocksFrom scheme sample.signers rotation count 0 none = .ok sample.blocks := by
  simp only [build, Except.bind_eq_ok, Except.mapError_eq_ok, Except.pure_eq_ok]
  constructor
  · rintro ⟨signers, hsigners, blocks, hblocks, rfl⟩
    exact ⟨hsigners, hblocks⟩
  · rintro ⟨hsigners, hblocks⟩
    exact ⟨_, hsigners, _, hblocks, rfl⟩

namespace Signable

theorem exists_block (h : Signable scheme (epochs rotation count))
    (hsigners : (List.range (epochs rotation count)).mapM (signer scheme) = .ok signers)
    (hindex : index < count) (previous? : Option Block) :
    ∃ b, block scheme signers rotation index previous? = .ok b := by
  obtain ⟨hlength, hsigner⟩ := signers_eq hsigners
  have hseat : ∀ k < count, ∃ s, signerAt signers rotation k = .ok s := by
    intro k hk
    have hlt : epochOf rotation k < signers.length := hlength ▸ epochOf_lt_epochs hk
    exact ⟨_, signerAt_eq_ok_iff.2 (List.getElem?_eq_getElem hlt)⟩
  obtain ⟨s, hs⟩ := hseat index hindex
  cases previous? with
  | none => exact ⟨_, block_none_eq_ok_iff.2 ⟨s, hs, rfl⟩⟩
  | some previous =>
    have hbefore : index - 1 < count := by omega
    obtain ⟨signing, hsigning⟩ := hseat (index - 1) hbefore
    obtain ⟨signature, hsignature, _⟩ := h.signs _ (epochOf_lt_epochs hbefore) signing
      (hsigner _ _ (signerAt_eq_ok_iff.1 hsigning)) (draftAfter scheme s index previous).hash.bytes
    exact ⟨_, block_some_eq_ok_iff.2 ⟨s, signing, signature, hs, hsigning, hsignature, rfl⟩⟩

theorem exists_build (h : Signable scheme (epochs rotation count)) :
    ∃ sample, build scheme count rotation = .ok sample := by
  obtain ⟨signers, hsigners⟩ := Except.exists_mapM fun epoch hepoch =>
    h.keys epoch (List.mem_range.1 hepoch)
  obtain ⟨blocks, hblocks⟩ : ∃ blocks,
      blocksFrom scheme signers rotation count 0 none = .ok blocks := by
    refine exists_blocksFrom none fun k hk previous? => ?_
    rw [Nat.zero_add]
    exact h.exists_block hsigners hk previous?
  exact ⟨⟨signers, blocks⟩, build_eq_ok_iff.2 ⟨hsigners, hblocks⟩⟩

end Signable

section
variable (hbuild : build scheme count rotation = .ok sample)
include hbuild

theorem length_signers : sample.signers.length = epochs rotation count :=
  (signers_eq (build_eq_ok_iff.1 hbuild).1).1

theorem length_blocks : sample.blocks.length = count :=
  (blocksFrom_steps (build_eq_ok_iff.1 hbuild).2).1

theorem signer_of_getElem? {epoch : Nat} {s : Signer Key} (h : sample.signers[epoch]? = some s) :
    signer scheme epoch = .ok s :=
  (signers_eq (build_eq_ok_iff.1 hbuild).1).2 epoch s h

theorem block_first {b : Block} (hb : sample.blocks[0]? = some b) :
    block scheme sample.signers rotation 0 none = .ok b :=
  (blocksFrom_steps (build_eq_ok_iff.1 hbuild).2).2 0 none b rfl hb

theorem block_next {i : Nat} {a b : Block} (ha : sample.blocks[i]? = some a)
    (hb : sample.blocks[i + 1]? = some b) :
    block scheme sample.signers rotation (i + 1) (some a) = .ok b := by
  have hstep := (blocksFrom_steps (build_eq_ok_iff.1 hbuild).2).2 (i + 1) (some a) b
  rw [Nat.zero_add, List.getElem?_cons_succ, List.getElem?_map, ha] at hstep
  exact hstep rfl hb

theorem drafted : Drafted scheme sample.signers rotation sample.blocks where
  first := by
    intro b hb
    obtain ⟨s, hs, rfl⟩ := block_none_eq_ok_iff.1 (block_first hbuild hb)
    exact ⟨s, _, signerAt_eq_ok_iff.1 hs, rfl⟩
  next := by
    intro i a b ha hb
    obtain ⟨s, signing, signature, hs, hsigning, hsignature, rfl⟩ :=
      block_some_eq_ok_iff.1 (block_next hbuild ha hb)
    exact ⟨s, signing, _, signature, signerAt_eq_ok_iff.1 hs, signerAt_eq_ok_iff.1 hsigning,
      hsignature, rfl⟩

theorem vouches (hsignable : Signable scheme (epochs rotation count)) :
    ∀ s ∈ sample.signers, s.Vouches scheme := by
  intro s hs
  obtain ⟨epoch, hepoch⟩ := List.getElem?_of_mem hs
  have hlt : epoch < epochs rotation count := by
    rw [← length_signers hbuild]
    exact (List.getElem?_eq_some_iff.1 hepoch).1
  exact hsignable.signs epoch hlt s (signer_of_getElem? hbuild hepoch)

end

/-- What a sample is made of. -/
structure Made (scheme : Scheme Key) (count rotation : Nat) (sample : Sample Key) : Prop where
  length_blocks : sample.blocks.length = count
  /-- There are as many signers as epochs that a block belongs to. -/
  length_signers :
    sample.signers.length = ((Finset.range count).image (epochOf rotation)).card
  inBounds : ∀ index < count, epochOf rotation index < sample.signers.length
  recorded : ∀ {index : Nat} {b : Block}, sample.blocks[index]? = some b →
    ∃ s, signer scheme (epochOf rotation index) = .ok s ∧ b.authority = s.roster scheme
  position : ∀ {index : Nat} {b : Block}, sample.blocks[index]? = some b → b.index = index
  first : ∀ {b : Block}, sample.blocks[0]? = some b → b.previousHash = .zero ∧ b.signature = none
  linked : ∀ {index : Nat} {a b : Block}, sample.blocks[index]? = some a →
    sample.blocks[index + 1]? = some b → b.previousHash = a.hash
  hashed : ∀ b ∈ sample.blocks, b.Hashed scheme.crypto
  signed : SignedInTurn scheme.crypto sample.blocks

/-- The first `n` blocks open as a store, whatever log they are loaded from, and in it the chain to
each of them has one link for each epoch that begins before it. -/
structure Opens (sample : Sample Key) (rotation n : Nat) (s : Store) : Prop where
  blocks_eq : s.blocks = sample.blocks.take n
  opened : ∀ {μ : Type} (log : BlockLog μ) (medium opened : μ),
    log.load medium = (.ok (sample.blocks.take n), opened) →
      Ledger.openStore log medium = (.ok s, opened)
  chained : ∀ {index : Nat} {b : Block}, s.blocks[index]? = some b → ∃ chain,
    s.chainTo b.hash = .ok chain ∧
      chain.length = if rotation = 0 then min index 1 else index ⌈/⌉ rotation

theorem made (hcount : count ≤ UInt64.size) (hsignable : Signable scheme (epochs rotation count))
    (hbuild : build scheme count rotation = .ok sample) : sample.Made scheme count rotation := by
  have hdrafted := drafted hbuild
  have hlength := length_blocks hbuild
  constructor
  case length_blocks => exact hlength
  case length_signers => rw [length_signers hbuild, image_epochOf, Finset.card_range]
  case inBounds =>
    intro index hindex
    rw [length_signers hbuild]
    exact epochOf_lt_epochs hindex
  case recorded =>
    intro index b hb
    obtain ⟨s, hs, hauthority⟩ := hdrafted.recorded hb
    exact ⟨s, signer_of_getElem? hbuild hs, hauthority⟩
  case position => exact hdrafted.position (hlength ▸ hcount)
  case first => exact fun hb => ⟨hdrafted.previous_first hb, hdrafted.unsigned_first hb⟩
  case linked => exact hdrafted.linked
  case hashed => exact hdrafted.hashed
  case signed => exact hdrafted.signedInTurn (vouches hbuild hsignable)

theorem length_chain (rotation index : Nat) :
    (if index = 0 then 0 else epochOf rotation (index - 1) - epochOf rotation 0 + 1) =
      if rotation = 0 then min index 1 else index ⌈/⌉ rotation := by
  rw [links_eq, Nat.ceilDiv_eq_add_pred_div]
  by_cases hrotation : rotation = 0
  · rw [if_pos hrotation, if_pos hrotation]
    split <;> omega
  · rw [if_neg hrotation, if_neg hrotation]
    split
    · rename_i hindex
      rw [hindex, Nat.zero_add, Nat.div_eq_of_lt (by omega)]
    · rfl

theorem exists_opens (hbuild : build scheme count rotation = .ok sample)
    (hauthorised : Authorised scheme.crypto sample.blocks)
    (hnonzero : ∀ b ∈ sample.blocks, b.hash ≠ .zero) (n : Nat) :
    ∃ s, sample.Opens rotation n s := by
  have hstorable : Storable sample.blocks :=
    ⟨hauthorised.toConsecutive, fun hb _ => hnonzero _ (List.mem_of_getElem? hb)⟩
  obtain ⟨s, hs, hblocks⟩ := Store.exists_reachable_take hstorable n
  refine ⟨s, hblocks, fun log medium opened hload => ?_, fun {index b} hb => ?_⟩
  · rw [Ledger.openStore_of_load hload, ← hblocks, hs.replay]
  · -- What holds of all blocks holds of the first ones, which are those of the store.
    have hfirst := hauthorised.take n
    have hdrafted := (drafted hbuild).take n
    rw [← hblocks] at hfirst hdrafted
    obtain ⟨g, hg⟩ := Store.exists_block_of_le hb (Nat.zero_le index)
    obtain ⟨chain, hchain, _⟩ := Store.chainBetween_leads hs.coherent
      (fun b hb => (hfirst.hashed b hb).header) hfirst.signed hg hb (Nat.zero_le index)
    rw [← Store.chainTo_eq hg] at hchain
    have hepochs : s.Epochs (epochOf rotation) := hdrafted.epochs fun hm hn hsame =>
      roster_inj (signer_of_getElem? hbuild hm) (signer_of_getElem? hbuild hn) hsame
    exact ⟨chain, hchain, by rw [hepochs.length_chainTo hs.coherent hb hchain, length_chain]⟩

/-- **A sample is authorised and opens, whatever its size and its rotation.** As many blocks as a
word can number are made. Each of them records the roster of its epoch, and past the first it is
signed by the roster that the block before it records. If their hashes differ and are not zero, each
first part opens as a store, and there the chain to a block has one link for each epoch that begins
before it. -/
theorem build_opens (hcount : count ≤ UInt64.size)
    (hsignable : Signable scheme (epochs rotation count)) :
    ∃ sample, build scheme count rotation = .ok sample ∧ sample.Made scheme count rotation ∧
      ((sample.blocks.map (·.hash)).Nodup → (∀ b ∈ sample.blocks, b.hash ≠ .zero) →
        Authorised scheme.crypto sample.blocks ∧ ∀ n, ∃ s, sample.Opens rotation n s) := by
  obtain ⟨sample, hbuild⟩ := hsignable.exists_build
  have hmade := made hcount hsignable hbuild
  refine ⟨sample, hbuild, hmade, fun hdistinct hnonzero => ?_⟩
  have hauthorised : Authorised scheme.crypto sample.blocks :=
    (drafted hbuild).authorised (hmade.length_blocks ▸ hcount) hdistinct (vouches hbuild hsignable)
  exact ⟨hauthorised, exists_opens hbuild hauthorised hnonzero⟩

theorem signable_transparent (count : Nat) : Signable Transparent.scheme count where
  keys _ _ := Signer.exists_generate Transparent.scheme fun _ _ => ⟨_, rfl⟩
  signs _ _ s _ message := Transparent.accepts_signer s message

/-- Six blocks of three epochs, two of each: the chain to the last one has three links. -/
theorem build_opens_rotated :
    6 ≤ UInt64.size ∧ Signable Transparent.scheme (epochs 2 6) ∧
    ∃ sample s b chain, build Transparent.scheme 6 2 = .ok sample ∧
      sample.blocks.length = 6 ∧ sample.signers.length = 3 ∧
      Ledger.openStore .inMemory sample.blocks = (.ok s, sample.blocks) ∧
      s.blocks[5]? = some b ∧ s.chainTo b.hash = .ok chain ∧ chain.length = 3 := by
  have hcount : 6 ≤ UInt64.size := by decide
  have hsignable : Signable Transparent.scheme (epochs 2 6) := signable_transparent _
  refine ⟨hcount, hsignable, ?_⟩
  obtain ⟨sample, hbuild, hmade, hopens⟩ := build_opens hcount hsignable
  have hnonzero : ∀ b ∈ sample.blocks, b.hash ≠ .zero := by
    intro b hb
    rw [← (hmade.hashed b hb).header]
    exact Transparent.hash_ne_zero _
  obtain ⟨_, hstores⟩ := hopens (Transparent.nodup_hashes hmade.hashed hmade.position) hnonzero
  obtain ⟨s, hblocks, hopened, hchained⟩ := hstores 6
  have hall : sample.blocks.take 6 = sample.blocks :=
    List.take_of_length_le (Nat.le_of_eq hmade.length_blocks)
  rw [hall] at hblocks hopened
  obtain ⟨b, hb⟩ : ∃ b, s.blocks[5]? = some b := by
    rw [hblocks]
    exact ⟨_, List.getElem?_eq_getElem (by rw [hmade.length_blocks]; decide)⟩
  obtain ⟨chain, hchain, hlength⟩ := hchained hb
  exact ⟨sample, s, b, chain, hbuild, hmade.length_blocks, hmade.length_signers.trans (by decide),
    hopened .inMemory _ _ rfl, hb, hchain, hlength.trans (by decide)⟩

end CosignedLedger.Sample
