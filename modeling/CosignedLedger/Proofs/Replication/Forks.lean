import CosignedLedger.Proofs.Commitment
import CosignedLedger.Proofs.Replication.Intake

/-!
# Forks are accounted for

Two nodes that are fed by whatever peers may come to hold different blocks. If they have the first
block in common, then where they part, one authority has signed two blocks at the same index, unless
the hash has taken two different headers for one.

* `ForkAt`: where two lists of blocks part.
* `Equivocates`: an authority's signatures on two blocks with the same index.
* `Authorised.forkAt`: the authority before the fork has signed both blocks.
* `Intake.fork_accountable`: so it is for any two nodes, whatever they have been sent.
-/

namespace CosignedLedger

/-- Both lists have a block at `k`, and there their hashes differ for the first time. -/
structure ForkAt (xs ys : List Block) (k : Nat) (a b : Block) : Prop where
  left : xs[k]? = some a
  right : ys[k]? = some b
  differ : a.hash ≠ b.hash
  before : ∀ i < k, xs[i]?.map (·.hash) = ys[i]?.map (·.hash)

/-- Under one key of the authority, both blocks carry valid signatures over their hashes, which
differ though the blocks have the same index. -/
structure Equivocates (c : Crypto) (authority : Roster) (a b : Block) : Prop where
  index : a.index = b.index
  differ : a.hash ≠ b.hash
  signed : ∃ key s t, c.aggregateKey (Authority.members authority) = .ok key ∧
    a.signature = some s ∧ c.verify key a.hash.bytes s = .ok () ∧
    b.signature = some t ∧ c.verify key b.hash.bytes t = .ok ()

section
variable {c : Crypto} {xs ys : List Block} {k : Nat} {a b p q : Block}

namespace Block

theorem equivocates_of_signedAfter (ha : a.SignedAfter c p) (hb : b.SignedAfter c q)
    (hauthority : p.authority = q.authority) (hindex : a.index = b.index) (hdiffer : a.hash ≠ b.hash) :
    Equivocates c p.authority a b := by
  obtain ⟨s, hs, key, hkey, hverify⟩ := ha
  obtain ⟨t, ht, key', hkey', hverify'⟩ := hb
  rw [← hauthority, hkey] at hkey'
  cases hkey'
  exact ⟨hindex, hdiffer, key, s, t, hkey, hs, hverify, ht, hverify'⟩

end Block

/-- Where two authorised lists with the same first hash part, it is past the first block, and the
authority of the block before has signed both blocks, or the headers of the blocks before collide. -/
theorem Authorised.forkAt (hx : Authorised c xs) (hy : Authorised c ys) (hfork : ForkAt xs ys k a b)
    (hfirst : xs[0]?.map (·.hash) = ys[0]?.map (·.hash))
    (hshort : ∀ x ∈ xs, x.authority.canonicalBytes.length < UInt32.size) :
    1 ≤ k ∧ ∃ p q, xs[k - 1]? = some p ∧ ys[k - 1]? = some q ∧
      (p.header.Collide c q.header ∨
        p.authority = q.authority ∧ Equivocates c p.authority a b) := by
  cases k with
  | zero =>
    rw [hfork.left, hfork.right] at hfirst
    exact absurd (Option.some.inj hfirst) hfork.differ
  | succ k =>
    have hleft := (List.getElem?_eq_some_iff.1 hfork.left).1
    have hright := (List.getElem?_eq_some_iff.1 hfork.right).1
    obtain ⟨p, hp⟩ : ∃ p, xs[k]? = some p := ⟨_, List.getElem?_eq_getElem (by omega)⟩
    obtain ⟨q, hq⟩ : ∃ q, ys[k]? = some q := ⟨_, List.getElem?_eq_getElem (by omega)⟩
    have hhash : p.hash = q.hash := by
      have hbefore := hfork.before k (Nat.lt_succ_self k)
      rw [hp, hq] at hbefore
      exact Option.some.inj hbefore
    have hp' := List.mem_of_getElem? hp
    have hq' := List.mem_of_getElem? hq
    refine ⟨Nat.succ_pos k, p, q, hp, hq, ?_⟩
    rcases Block.collide_or_header_eq (hx.hashed p hp') (hy.hashed q hq') (hshort p hp') hhash
      with hcollide | hheader
    · exact .inl hcollide
    · have hauthority : p.authority = q.authority := congrArg Header.authority hheader
      have hindex : a.index = b.index := by
        rw [hx.position hfork.left, hy.position hfork.right]
      exact .inr ⟨hauthority, Block.equivocates_of_signedAfter (hx.signed hp hfork.left)
        (hy.signed hq hfork.right) hauthority hindex hfork.differ⟩

end

namespace Intake
variable {μ ν : Type}

def blocksAfter (log : BlockLog μ) (c : Crypto) (limit : Nat) (medium : μ) (events : List Event) :
    List Block :=
  ((start medium).run log c limit events).ledger.store.blocks

/-- **Only an authority that signs twice can divide nodes.** Two nodes that hold nothing are fed
whatever peers send them. If they come to hold the same first hash and then part at `k`, the
authority that both record just before `k` has signed both blocks there; or else the headers
recorded just before `k` are a collision of the hash. -/
theorem fork_accountable (c : Crypto) (log : BlockLog μ) (log' : BlockLog ν) (limit limit' : Nat)
    (medium : μ) (medium' : ν) (events events' : List Event) :
    let xs := blocksAfter log c limit medium events
    let ys := blocksAfter log' c limit' medium' events'
    ∀ {k : Nat} {a b : Block}, xs[0]?.map (·.hash) = ys[0]?.map (·.hash) → ForkAt xs ys k a b →
      (∀ x ∈ xs, x.authority.canonicalBytes.length < UInt32.size) →
      1 ≤ k ∧ ∃ p q, xs[k - 1]? = some p ∧ ys[k - 1]? = some q ∧
        (p.header.Collide c q.header ∨
          p.authority = q.authority ∧ Equivocates c p.authority a b) := by
  intro xs ys k a b hfirst hfork hshort
  have hx : Authorised c xs := run_start_authorised log c limit medium events
  have hy : Authorised c ys := run_start_authorised log' c limit' medium' events'
  exact hx.forkAt hy hfork hfirst hshort

section Divided
open Transparent

/-- A hash that shows the end of what is hashed, so that it tells authorities apart. -/
def mirrored : Crypto := { crypto with hash := fun bytes => Transparent.hash bytes.reverse }

def root : Block := Block.genesis mirrored (one 1) [10]

def heir (authority : Roster) : Block :=
  let draft := Block.draft mirrored 1 root.hash authority []
  draft.withSignature (sign (one 1) draft.hash.bytes)

def served (authority : Roster) : List Event :=
  let b := heir authority
  let chain := (((Store.empty.publish root).publish b).chainTo b.hash).toOption.getD ⟨[]⟩
  let response := Message.blockResponse (Block.format.write b) (some (Chain.format.write chain))
  [.genesis (Block.format.write root), .request b.hash, .frame 0 (.ok (⟨"peer"⟩, response))]

/-- Two nodes are served two heirs of one root, both signed by its authority. -/
theorem fork_accountable_divided :
    let xs := blocksAfter .inMemory mirrored 1000 [] (served (one 2))
    let ys := blocksAfter .failing mirrored 2000 5 (served (one 3))
    xs[0]?.map (·.hash) = ys[0]?.map (·.hash) ∧
      ForkAt xs ys 1 (heir (one 2)) (heir (one 3)) ∧
      (∀ x ∈ xs, x.authority.canonicalBytes.length < UInt32.size) ∧
      1 ≤ 1 ∧ ∃ p q, xs[1 - 1]? = some p ∧ ys[1 - 1]? = some q ∧
        (p.header.Collide mirrored q.header ∨
          p.authority = q.authority ∧
            Equivocates mirrored p.authority (heir (one 2)) (heir (one 3))) := by
  have hfirst : (blocksAfter .inMemory mirrored 1000 [] (served (one 2)))[0]?.map (·.hash) =
      (blocksAfter .failing mirrored 2000 5 (served (one 3)))[0]?.map (·.hash) := by
    decide +kernel
  have hfork : ForkAt (blocksAfter .inMemory mirrored 1000 [] (served (one 2)))
      (blocksAfter .failing mirrored 2000 5 (served (one 3))) 1 (heir (one 2)) (heir (one 3)) :=
    ⟨by decide +kernel, by decide +kernel, by decide +kernel, by decide +kernel⟩
  have hshort : ∀ x ∈ blocksAfter .inMemory mirrored 1000 [] (served (one 2)),
      x.authority.canonicalBytes.length < UInt32.size := by
    decide +kernel
  exact ⟨hfirst, hfork, hshort, fork_accountable mirrored .inMemory .failing 1000 2000 [] 5
    (served (one 2)) (served (one 3)) hfirst hfork hshort⟩

end Divided

end Intake

end CosignedLedger
