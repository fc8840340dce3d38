import CosignedLedger.Proofs.Replication.Completion
import CosignedLedger.Proofs.Replication.Forks
import CosignedLedger.Proofs.Replication.Installation
import Mathlib.Data.List.Induction

/-!
# Where the first block comes from

A node that holds nothing takes its first block as it comes, by propagation or in a catch-up. Its
hashes are checked, so the header and the payload are what the hash commits to. A first block needs
no signature, but it may have one: the signature is outside the hash, there is no authority before
the block whose key could tell what it is worth, and neither way in looks at it.

* `Intake.Event.Brings`: an event that hands over a block.
* `Intake.step_brings`: what is stored has been handed over.
* `Intake.Origin`, `Intake.origin_of_first`: the event that the first block came with.
* `Intake.blocksAfter_genesis`, `Intake.blocksAfter_response`: either way in takes any signature.
* `Intake.first_signature_unchecked`: the first block is as it was brought, signature and all.
-/

namespace CosignedLedger

namespace Ledger
variable {μ : Type} {c : Crypto} {limit : Nat} {b : Block} {bytes : Bytes} {l : Ledger μ}

theorem insert_store (log : BlockLog μ) (b : Block) (l : Ledger μ) :
    (l.insert log b).2.store = l.store ∨
      l.store.Admits b ∧ (l.insert log b).2.store = l.store.publish b := by
  obtain ⟨hb, medium, _, hinsert⟩ | ⟨e, medium, hinsert, _⟩ := insert_cases log b l
  · exact .inr ⟨hb, by rw [hinsert]⟩
  · exact .inl (by rw [hinsert])

theorem acceptGenesis_of_empty (log : BlockLog μ)
    (hdecode : (decodeBlock c limit bytes).result = .ok b) (hindex : b.index = 0) (hempty : l.store = .empty) :
    (l.acceptGenesis log c limit bytes).ledger = (l.insert log b).2 := by
  have hgenesis : b.isGenesis = true := by simpa [Block.isGenesis] using hindex
  have hnone : l.store.genesis? = none := by rw [hempty]; rfl
  simp only [acceptGenesis, hdecode, hgenesis, hnone, if_true]
  exact insertGenesis_ledger log b l

theorem accept_of_empty (log : BlockLog μ) (hdecode : (decodeBlock c limit bytes).result = .ok b)
    (hindex : b.index = 0) (hempty : l.store = .empty) :
    (l.accept log c limit bytes none).ledger = (l.insert log b).2 := by
  have hgenesis : b.isGenesis = true := by simpa [Block.isGenesis] using hindex
  have hnone : l.store.genesis? = none := by rw [hempty]; rfl
  have hjudge : (l.store.judge c limit b none).result = .ok .fresh := by
    simp [Store.judge, Store.judgeGenesis, hgenesis, hnone]
  exact (accept_of_fresh log hdecode hjudge).2

end Ledger

namespace Intake
variable {μ ν : Type} {log : BlockLog μ} {c : Crypto} {limit : Nat} {medium : μ}
  {events : List Event} {b : Block}

inductive Event.Brings (c : Crypto) (limit : Nat) (b : Block) : Event → Prop where
  | genesis {bytes : Bytes} : (decodeBlock c limit bytes).result = .ok b →
      Brings c limit b (.genesis bytes)
  | response {stream : Nat} {sender : Address} {bytes : Bytes} {chain : Option Bytes} :
      (decodeBlock c limit bytes).result = .ok b →
      Brings c limit b (.frame stream (.ok (sender, .blockResponse bytes chain)))

theorem Event.Brings.hashed {event : Event} (h : event.Brings c limit b) : b.Hashed c := by
  cases h with
  | genesis hdecode | response hdecode => exact (decodeBlock_eq_ok_iff.1 hdecode).2.2

/-- An event stores nothing, or a block that it hands over. -/
theorem step_brings (log : BlockLog μ) (c : Crypto) (limit : Nat) (n : Intake μ) (event : Event) :
    (n.step log c limit event).ledger.store = n.ledger.store ∨
      ∃ b, event.Brings c limit b ∧ n.ledger.store.Admits b ∧
        (n.step log c limit event).ledger.store = n.ledger.store.publish b := by
  cases event with
  | request target => exact .inl rfl
  | frame stream frame =>
    simp only [step]
    split
    · unfold Progress.receive
      split
      · exact .inl rfl
      · rename_i sender block chain
        obtain hsame | ⟨b, hdecode, _, hledger⟩ := n.ledger.accept_cases log limit c block chain
        · exact .inl (congrArg Ledger.store hsame)
        · dsimp only
          rw [hledger]
          obtain hsame | ⟨hadmits, hstore⟩ := n.ledger.insert_store log b
          · exact .inl hsame
          · exact .inr ⟨b, .response hdecode, hadmits, hstore⟩
      · exact .inl rfl
    · exact .inl rfl
  | genesis bytes =>
    simp only [step]
    obtain hsame | ⟨b, hdecode, _, hledger⟩ := n.ledger.acceptGenesis_cases log limit c bytes
    · exact .inl (congrArg Ledger.store hsame)
    · rw [hledger]
      obtain hsame | ⟨hadmits, hstore⟩ := n.ledger.insert_store log b
      · exact .inl hsame
      · exact .inr ⟨b, .genesis hdecode, hadmits, hstore⟩

/-- A block that a node holds first: the event that it came with, as what it came, and that the node
held nothing before. -/
structure Origin (log : BlockLog μ) (c : Crypto) (limit : Nat) (medium : μ) (events : List Event)
    (b : Block) : Prop where
  index : b.index = 0
  previous : b.previousHash = .zero
  hashed : b.Hashed c
  brought : ∃ before event later, events = before ++ event :: later ∧
    blocksAfter log c limit medium before = [] ∧ event.Brings c limit b

theorem Origin.snoc (h : Origin log c limit medium events b) (event : Event) :
    Origin log c limit medium (events ++ [event]) b where
  index := h.index
  previous := h.previous
  hashed := h.hashed
  brought := by
    obtain ⟨before, first, later, rfl, hnothing, hbrings⟩ := h.brought
    exact ⟨before, first, later ++ [event], by simp, hnothing, hbrings⟩

theorem origin_of_first (h : (blocksAfter log c limit medium events)[0]? = some b) :
    Origin log c limit medium events b := by
  induction events using List.reverseRecOn with
  | nil => cases h
  | append_singleton events event ih =>
    have hrun : (start medium).run log c limit (events ++ [event]) =
        ((start medium).run log c limit events).step log c limit event := List.foldl_append
    rw [blocksAfter, hrun] at h
    obtain hsame | ⟨b', hbrings, hadmits, hpublish⟩ :=
      step_brings log c limit ((start medium).run log c limit events) event
    · rw [hsame] at h
      exact (ih h).snoc event
    · rw [hpublish] at h
      cases hblocks : ((start medium).run log c limit events).ledger.store.blocks with
      | cons first rest =>
        simp only [Store.publish, hblocks, List.cons_append, List.getElem?_cons_zero] at h
        exact (ih (by rw [blocksAfter, hblocks]; exact h)).snoc event
      | nil =>
        -- Nothing has been stored so far, so this is the event.
        simp only [Store.publish, hblocks, List.nil_append, List.getElem?_cons_zero,
          Option.some.injEq] at h
        subst h
        exact
          { index := by rw [hadmits.index, Store.size, hblocks]; rfl
            previous := by rw [hadmits.previous, Store.lastHash, Store.last?, hblocks]; rfl
            hashed := hbrings.hashed
            brought := ⟨events, event, [], rfl, hblocks, hbrings⟩ }

/-! ### Any signature -/

section
variable (hindex : b.index = 0) (hprevious : b.previousHash = .zero) (hhashed : b.Hashed c)
  (hfit : (Block.format.write b).length ≤ limit) (hlimit : limit < Bytes.capacity 8)
  (htakes : (log.append b medium).1 = .ok ())

include hindex hprevious htakes

theorem insert_start :
    ((start medium).ledger.insert log b).2.store.blocks = [b] := by
  have hadmits : (start medium).ledger.store.Admits b :=
    Store.check_eq_ok_iff.1 (Store.check_empty_of_linked hindex hprevious)
  rw [Ledger.insert_of_admits hadmits htakes]
  rfl

include hhashed hfit hlimit

theorem blocksAfter_genesis :
    blocksAfter log c limit medium [.genesis (Block.format.write b)] = [b] := by
  have hdecode := decodeBlock_write hhashed hfit hlimit
  have hledger := Ledger.acceptGenesis_of_empty (l := (start medium).ledger) log hdecode hindex rfl
  exact (congrArg (·.store.blocks) hledger).trans (insert_start hindex hprevious htakes)

theorem blocksAfter_response (target : Digest) (sender : Address) :
    blocksAfter log c limit medium
      [.request target, .frame 0 (.ok (sender, .blockResponse (Block.format.write b) none))] =
        [b] := by
  have hdecode := decodeBlock_write hhashed hfit hlimit
  have hledger := Ledger.accept_of_empty (l := (start medium).ledger) log hdecode hindex rfl
  exact (congrArg (·.store.blocks) hledger).trans (insert_start hindex hprevious htakes)

end

/-- **Nobody checks the signature of a first block.** Whatever peers send to two nodes that hold
nothing: the first block that one comes to hold is one that was brought to it while it held nothing,
with the hashes that it states; it is unsigned if all first blocks that were brought are. If both
come to hold the same first hash, the blocks are the same but for the signature, or what is hashed
of them collides. And with any signature at all a first block is stored as it is, whether it is sent
or comes in a catch-up, as long as it is within the limit and the log takes it. -/
theorem first_signature_unchecked (c : Crypto) (log : BlockLog μ) (log' : BlockLog ν)
    (limit limit' : Nat) (medium : μ) (medium' : ν) (events events' : List Event) :
    let xs := blocksAfter log c limit medium events
    let ys := blocksAfter log' c limit' medium' events'
    (∀ a, xs[0]? = some a → Origin log c limit medium events a ∧
      ((∀ event ∈ events, ∀ g : Block, event.Brings c limit g → g.index = 0 → g.signature = none) →
        a.signature = none)) ∧
    (∀ a b, xs[0]? = some a → ys[0]? = some b → a.hash = b.hash →
      a.authority.canonicalBytes.length < UInt32.size →
      { a with signature := b.signature } = b ∨ a.header.Collide c b.header ∨
        a.payload ≠ b.payload ∧ c.hash a.payload = c.hash b.payload) ∧
    ∀ (g : Block) (signature : Option Bytes) (target : Digest) (sender : Address),
      let signed := { g with signature }
      g.index = 0 → g.previousHash = .zero → g.Hashed c → limit < Bytes.capacity 8 →
      (Block.format.write signed).length ≤ limit → (log.append signed medium).1 = .ok () →
      blocksAfter log c limit medium [.genesis (Block.format.write signed)] = [signed] ∧
      blocksAfter log c limit medium [.request target,
        .frame 0 (.ok (sender, .blockResponse (Block.format.write signed) none))] = [signed] := by
  intro xs ys
  refine ⟨?_, ?_, ?_⟩
  · intro a ha
    have horigin := origin_of_first ha
    refine ⟨horigin, fun hunsigned => ?_⟩
    obtain ⟨before, event, later, hevents, _, hbrings⟩ := horigin.brought
    exact hunsigned event (by rw [hevents]; simp) a hbrings horigin.index
  · intro a b ha hb hhash hshort
    rcases Block.commits (origin_of_first ha).hashed (origin_of_first hb).hashed hshort hhash with
      ⟨hheader, hpayload⟩ | hcollide
    · left
      rw [hheader, hhash, hpayload]
    · exact .inr hcollide
  · intro g signature target sender signed hindex hprevious hhashed hlimit hfit htakes
    have hsigned : signed.Hashed c := ⟨hhashed.header, hhashed.payload⟩
    exact ⟨blocksAfter_genesis (b := signed) hindex hprevious hsigned hfit hlimit htakes,
      blocksAfter_response (b := signed) hindex hprevious hsigned hfit hlimit htakes target sender⟩

section Signed
open Transparent

def unsigned : Block := Block.genesis crypto (one 1) [10]

def signed : Block := unsigned.withSignature [7]

/-- A node that is sent the signed block and one that is handed the unsigned one hold the same
hash. -/
theorem first_signature_unchecked_signed :
    let events : List Event := [.genesis (Block.format.write signed)]
    let response := Message.blockResponse (Block.format.write unsigned) none
    let events' : List Event := [.request unsigned.hash, .frame 0 (.ok (⟨"peer"⟩, response))]
    let xs := blocksAfter .inMemory crypto 1000 [] events
    let ys := blocksAfter .failing crypto 2000 1 events'
    xs[0]? = some signed ∧ ys[0]? = some unsigned ∧ signed.hash = unsigned.hash ∧
      signed.authority.canonicalBytes.length < UInt32.size ∧
      Origin .inMemory crypto 1000 [] events signed ∧
      ({ signed with signature := unsigned.signature } = unsigned ∨
        signed.header.Collide crypto unsigned.header ∨
        signed.payload ≠ unsigned.payload ∧
          crypto.hash signed.payload = crypto.hash unsigned.payload) ∧
      unsigned.index = 0 ∧ unsigned.previousHash = .zero ∧ unsigned.Hashed crypto ∧
      1000 < Bytes.capacity 8 ∧ (Block.format.write signed).length ≤ 1000 ∧
      (BlockLog.inMemory.append signed []).1 = .ok () ∧ xs = [signed] := by
  intro events response events'
  obtain ⟨hfirst, hsame, hany⟩ :=
    first_signature_unchecked crypto .inMemory .failing 1000 2000 [] 1 events events'
  have hx : (blocksAfter .inMemory crypto 1000 [] events)[0]? = some signed := by decide +kernel
  have hy : (blocksAfter .failing crypto 2000 1 events')[0]? = some unsigned := by decide +kernel
  have hshort : signed.authority.canonicalBytes.length < UInt32.size := by decide +kernel
  have hlimit : 1000 < Bytes.capacity 8 := by decide
  have hfit : (Block.format.write signed).length ≤ 1000 := by decide +kernel
  exact ⟨hx, hy, rfl, hshort, (hfirst signed hx).1, hsame signed unsigned hx hy rfl hshort,
    rfl, rfl, ⟨rfl, rfl⟩, hlimit, hfit, rfl,
    (hany unsigned (some [7]) .zero ⟨"peer"⟩ rfl rfl ⟨rfl, rfl⟩ hlimit hfit rfl).1⟩

/-- Either way in stores bytes in the place of a signature that nobody has made, and two nodes with
the same first hash hold different first blocks. -/
theorem first_block_signed :
    let response := Message.blockResponse (Block.format.write signed) none
    blocksAfter .inMemory crypto 1000 [] [.genesis (Block.format.write signed)] = [signed] ∧
      blocksAfter .inMemory crypto 1000 []
        [.request signed.hash, .frame 0 (.ok (⟨"peer"⟩, response))] = [signed] ∧
      blocksAfter .inMemory crypto 1000 [] [.genesis (Block.format.write unsigned)] = [unsigned] ∧
      signed.signature ≠ none ∧ signed.hash = unsigned.hash ∧ signed ≠ unsigned := by
  decide +kernel

end Signed

end Intake

end CosignedLedger
