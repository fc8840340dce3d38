import CosignedLedger.Proofs.Replication.Completion

/-!
# Responses and the limit on their size

The size of what is sent is not looked at, only that of what is decoded. A peer with the same limit
therefore takes every block that is within it, but not every proof, since a proof grows with each
change of the authority while the blocks do not.

* `Serving.mem_run`: all that is sent are responses for stored blocks.
* `Serving.serve_judged`: what a peer with the same limit makes of them.
* `Serving.serve_outgrown`: a proof that no such peer takes.
-/

namespace CosignedLedger

theorem Format.decodeWithin_eq_tooLarge {α : Type} {f : Format α} {limit : Nat} {bytes : Bytes}
    (h : limit < bytes.length) :
    f.decodeWithin limit bytes = .error (.tooLarge bytes.length limit) := by
  rw [decodeWithin, if_pos h]

namespace Serving
variable {s : Store} {c : Crypto} {limit : Nat}

/-- What serving holds comes from the store. -/
def Holds (s : Store) : Serving → Prop
  | proving _ _ b => b ∈ s.blocks
  | sending _ _ b m => b ∈ s.blocks ∧ response s b = .ok m
  | _ => True

theorem Holds.step {serving : Serving} (h : serving.Holds s) (cancelled : Bool) :
    (serving.step s cancelled).Holds s := by
  cases serving with
  | checking r i =>
    simp only [Serving.step]
    split
    · trivial
    · split <;> trivial
  | reading r i =>
    simp only [Serving.step]
    split
    · trivial
    · rename_i b hread
      exact List.mem_of_getElem? (Store.read_eq_ok_iff.1 hread)
  | proving r i b =>
    simp only [Serving.step]
    split
    · trivial
    · rename_i m hm
      exact ⟨h, hm⟩
  | _ => exact h

theorem holds_sent (attempt : Except TransportError Unit) (r : BlockRequest) (i : Nat) (b : Block)
    (m : Message) : (sent attempt (sending r i b m)).Holds s := by
  rcases sent_cases attempt r i b m with ⟨result, h⟩ | h <;> rw [h] <;> trivial

theorem mem_run {meet : Nat → Reception} {cancelled : Bool} {serving : Serving}
    (h : serving.Holds s) {requester : Address} {m : Message}
    (hm : (requester, m) ∈ (run s meet cancelled serving).1) :
    ∃ b ∈ s.blocks, response s b = .ok m := by
  fun_induction run s meet cancelled serving with
  | case1 cancelled => cases hm
  | case2 cancelled r i ih => exact ih (h.step cancelled) hm
  | case3 cancelled r i ih => exact ih (h.step cancelled) hm
  | case4 cancelled r i b ih => exact ih (h.step cancelled) hm
  | case5 => cases hm
  | case6 => cases hm
  | case7 cancelled r i b m' _ _ served ih =>
    rcases List.mem_cons.1 hm with hm | hm
    · cases hm
      exact ⟨b, h⟩
    · exact ih (holds_sent ..) hm
  | case8 cancelled r i b m' _ _ _ served ih => exact ih (holds_sent ..) hm
  | case9 => cases hm

theorem mem_serve {meet : Nat → Reception} {first : Option Frame} {requester : Address} {m : Message}
    (hm : (requester, m) ∈ (serve s meet first).1) : ∃ b ∈ s.blocks, response s b = .ok m := by
  cases first with
  | none => exact mem_run (show Holds s awaiting from trivial) hm
  | some frame =>
    have hholds : (receive frame).Holds s := by
      unfold receive
      split <;> trivial
    exact mem_run hholds hm

/-- What a peer makes of a response: it takes the block, and it takes the chain unless that is too
large. -/
inductive Judged (c : Crypto) (limit : Nat) (s : Store) : Message → Prop where
  | first {b : Block} : b.isGenesis = true →
      (decodeBlock c limit (Block.format.write b)).result = .ok b →
      Judged c limit s (.blockResponse (Block.format.write b) none)
  | proven {b : Block} {chain : Chain} : b.isGenesis = false →
      (decodeBlock c limit (Block.format.write b)).result = .ok b → s.chainTo b.hash = .ok chain →
      (Chain.format.write chain).length ≤ limit →
      decodeChain limit (Chain.format.write chain) = .ok chain →
      Judged c limit s (.blockResponse (Block.format.write b) (some (Chain.format.write chain)))
  | outgrown {b : Block} {chain : Chain} : b.isGenesis = false →
      (decodeBlock c limit (Block.format.write b)).result = .ok b → s.chainTo b.hash = .ok chain →
      limit < (Chain.format.write chain).length →
      decodeChain limit (Chain.format.write chain) =
        .error (.tooLarge (Chain.format.write chain).length limit) →
      Judged c limit s (.blockResponse (Block.format.write b) (some (Chain.format.write chain)))

/-- **What is served is taken by a peer with the same limit unless its proof has outgrown it.** All
blocks of the store are within the limit and have the hashes that they state. Whoever asks for
whatever, each response holds a block that the peer decodes, and a chain that it decodes just if the
chain is within the limit; otherwise the size of the chain is what it complains of. -/
theorem serve_judged (hword : limit < UInt64.size) (hhashed : ∀ b ∈ s.blocks, b.Hashed c)
    (hfit : ∀ b ∈ s.blocks, (Block.format.write b).length ≤ limit) (meet : Nat → Reception)
    (first : Option Frame) :
    ∀ sent ∈ (serve s meet first).1, Judged c limit s sent.2 := by
  rintro ⟨requester, m⟩ hm
  obtain ⟨b, hb, hresponse⟩ := mem_serve hm
  have hdecode := decodeBlock_write (hhashed b hb) (hfit b hb) hword
  rcases response_eq_ok_iff.1 hresponse with ⟨hgenesis, rfl⟩ | ⟨hlater, chain, hchain, rfl⟩
  · exact .first hgenesis hdecode
  · rcases Nat.lt_or_ge limit (Chain.format.write chain).length with hlarge | hsmall
    · exact .outgrown hlater hdecode hchain hlarge (Format.decodeWithin_eq_tooLarge hlarge)
    · exact .proven hlater hdecode hchain hsmall (decodeChain_write hsmall hword)

open Transparent in
/-- Three changes of the authority are too many for proofs of three hundred bytes. -/
theorem serve_judged_rotated :
    ∃ b, rotated.blocks[3]? = some b ∧ 300 < UInt64.size ∧ (∀ b ∈ rotated.blocks, b.Hashed crypto) ∧
      (∀ b ∈ rotated.blocks, (Block.format.write b).length ≤ 300) ∧
      let sent := (serve rotated willing (some (.ok (⟨"client"⟩, .blockRequest b.hash)))).1
      sent.length = 4 ∧ ∀ m ∈ sent, Judged crypto 300 rotated m.2 := by
  obtain ⟨b, hb⟩ : ∃ b, rotated.blocks[3]? = some b := ⟨_, rfl⟩
  have hfit : ∀ b ∈ rotated.blocks, (Block.format.write b).length ≤ 300 := by decide +kernel
  have hserved := Serving.serve_answers rotated_reachable.coherent
    (fun _ hb => rotated_serveable.exists_response hb) hb ⟨"client"⟩
  obtain ⟨ms, _, hlength, hserve⟩ := hserved
  refine ⟨b, hb, by decide, rotated_authorised.hashed, hfit, ?_,
    serve_judged (by decide) rotated_authorised.hashed hfit _ _⟩
  rw [hserve, List.length_map, hlength]

def chainIn : Message → Option Bytes
  | .blockResponse _ chain => chain
  | _ => none

theorem chainIn_eq_some_iff {m : Message} {bytes : Bytes} :
    chainIn m = some bytes ↔ ∃ block, m = .blockResponse block (some bytes) := by
  cases m <;> simp [chainIn]

open Transparent in
/-- A node may serve what no peer with the same limit takes: its blocks are within the limit and
signed, and the chain to the last one is not. -/
theorem serve_outgrown :
    rotated.Reachable ∧ (∀ b ∈ rotated.blocks, b.Hashed crypto) ∧
    (∀ b ∈ rotated.blocks, (Block.format.write b).length ≤ 300) ∧
    (∀ b ∈ rotated.blocks, 0 < b.index → b.signature.isSome) ∧
    let request : Frame := .ok (⟨"client"⟩, .blockRequest rotated.lastHash)
    ∃ requester block chain,
      (requester, .blockResponse block (some chain)) ∈ (serve rotated willing (some request)).1 ∧
      decodeChain 300 chain = .error (.tooLarge 466 300) := by
  refine ⟨rotated_reachable, rotated_authorised.hashed, by decide +kernel, by decide +kernel, ?_⟩
  have hsent : ((serve rotated willing (some (.ok (⟨"client"⟩, .blockRequest rotated.lastHash)))).1.any
      fun sent => (chainIn sent.2).any (·.length == 466)) = true := by decide +kernel
  obtain ⟨⟨requester, m⟩, hm, hlarge⟩ := List.any_eq_true.1 hsent
  obtain ⟨chain, hchain, hlength⟩ := (Option.any_eq_true _ _).1 hlarge
  obtain ⟨block, rfl⟩ := chainIn_eq_some_iff.1 hchain
  have hlength : chain.length = 466 := by simpa using hlength
  refine ⟨requester, block, chain, hm, ?_⟩
  rw [← hlength]
  exact Format.decodeWithin_eq_tooLarge (by omega)

end Serving

end CosignedLedger
