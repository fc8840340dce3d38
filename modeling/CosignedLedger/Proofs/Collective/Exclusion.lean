import CosignedLedger.Bls.Scheme
import CosignedLedger.Proofs.Collective.Propagation

/-!
# Leaving one address out

Combining the keys of an authority and sending it a first block look at its members and at nothing
else. So both do with a view that leaves an address out just what they do with the roster of the
members that are left: keys fail with the same first fault, and the same addresses are called, in
the same order.

* `Bls.aggregateKey_cases`: the first key that cannot be parsed decides.
* `Collective.Contacts`, `Collective.propagate_contacts`: whom a propagation calls.
* `Roster.LeavesOut`, `Roster.excluding_leaves_out`: all that can be seen of such a view.
-/

namespace CosignedLedger

namespace Bls

def keyFault? (m : Member) : Option CryptoError :=
  Except.error? (PublicKey.ofBytes? m.publicKey)

theorem aggregateKey_cases (members : List Member) :
    (∃ e, members.findSome? keyFault? = some e ∧ aggregateKey members = .error e) ∨
    ∃ keys, members.findSome? keyFault? = none ∧
      members.map (fun m => PublicKey.ofBytes? m.publicKey) = keys.map .ok ∧
      aggregateKey members = (PublicKey.aggregate keys).map fun sum => ⟨sum.toBytes⟩ := by
  have hfault : ∀ e, parseKeys (members.map (·.publicKey)) = .error e ↔
      members.findSome? keyFault? = some e := fun e => by
    rw [parseKeys, Except.mapM_eq_error_iff, List.findSome?_map]
    rfl
  cases hparse : parseKeys (members.map (·.publicKey)) with
  | error e =>
    refine .inl ⟨e, (hfault e).1 hparse, ?_⟩
    rw [aggregateKey, hparse]
    rfl
  | ok keys =>
    refine .inr ⟨keys, ?_, ?_, ?_⟩
    · refine Option.eq_none_iff_forall_ne_some.2 fun e he => ?_
      rw [(hfault e).2 he] at hparse
      cases hparse
    · rw [parseKeys, Except.mapM_eq_ok_iff, List.map_map] at hparse
      exact hparse
    · rw [aggregateKey, hparse]
      rfl

theorem aggregateKey_of_fault {members : List Member} {e : CryptoError}
    (h : members.findSome? keyFault? = some e) : aggregateKey members = .error e := by
  obtain ⟨e', he', haggregate⟩ | ⟨_, hnone, _⟩ := aggregateKey_cases members
  · rw [h] at he'
    cases he'
    exact haggregate
  · rw [h] at hnone
    cases hnone

end Bls

namespace Collective
variable {α β : Type} [Authority α] [Authority β]

/-- A propagation is one call to each of these addresses, in order, and fails with the calls that
fail. -/
structure Contacts (c : Collective) (crypto : Crypto) (g : Block) (authority : α)
    (addresses : List Address) : Prop where
  called : ((callAll crypto (offering g) addresses).run c).1.map (·.1) = addresses
  outcome : let called := (callAll crypto (offering g) addresses).run c
    let failures := called.1.filterMap failure?
    c.propagate crypto authority g =
      (if failures = [] then .ok () else .error (.propagation failures), called.2)

theorem callAll_addresses (crypto : Crypto) (message : Message) (addresses : List Address)
    (c : Collective) : ((callAll crypto message addresses).run c).1.map (·.1) = addresses := by
  induction addresses generalizing c with
  | nil => rfl
  | cons address rest ih => rw [callAll_cons, List.map_cons, ih]

theorem propagate_contacts (c : Collective) (crypto : Crypto) (g : Block) (authority : α) :
    c.Contacts crypto g authority ((Authority.members authority).map (·.address)) where
  called := callAll_addresses crypto (offering g) _ c
  outcome := propagate_eq c crypto authority g

end Collective

theorem Authority.Alike.propagate {α β : Type} [Authority α] [Authority β] {a : α} {b : β}
    (h : Authority.Alike a b) (c : Collective) (crypto : Crypto) (g : Block) :
    c.propagate crypto a g = c.propagate crypto b g := by
  rw [Collective.propagate, Collective.propagate, h.members]

namespace Roster

/-- All that can be seen of the view that leaves an address out. -/
structure LeavesOut (r : Roster) (address : Address) : Prop where
  alike : Authority.Alike (r.excluding address) (r.without address)
  listed : Authority.members (r.excluding address) = r.members.filter (·.address ≠ address)
  /-- There is a member at each position below the size, and at no other. -/
  missing : ∀ i, Authority.memberAt? (r.excluding address) i = none ↔
    Authority.size (r.excluding address) ≤ i
  combined : ∀ crypto : Crypto,
    crypto.runAggregate (r.excluding address) = crypto.runAggregate (r.without address)
  /-- The first key that is left and cannot be parsed is the reason why there is no combined key. -/
  faulty : ∀ e, (r.without address).members.findSome? Bls.keyFault? = some e →
    (Bls.scheme.crypto.runAggregate (r.excluding address)).result = .error e ∧
      (Bls.scheme.crypto.runAggregate (r.without address)).result = .error e
  propagated : ∀ (c : Collective) (crypto : Crypto) (g : Block),
    c.propagate crypto (r.excluding address) g = c.propagate crypto (r.without address) g
  contacted : ∀ (c : Collective) (crypto : Crypto) (g : Block),
    c.Contacts crypto g (r.excluding address)
      ((r.members.map (·.address)).filter (· ≠ address))
  /-- Leaving out an address that nobody has changes nothing. -/
  absent : (∀ m ∈ r.members, m.address ≠ address) → Authority.Alike (r.excluding address) r

/-- **A view that leaves an address out stands in for the members that are left**, whether or not
addresses are repeated: it answers as their roster does, has the same combined key or the same fault,
and is sent a first block in the same calls. -/
theorem excluding_leaves_out (r : Roster) (address : Address) : r.LeavesOut address := by
  have halike := excluding_alike r address
  have hlisted := excluding_members r address
  constructor
  case alike => exact halike
  case listed => exact hlisted
  case missing =>
    intro i
    rw [halike.memberAt?, halike.size]
    exact List.getElem?_eq_none_iff
  case combined => exact halike.runAggregate
  case faulty =>
    intro e he
    have haggregate : (Bls.scheme.crypto.runAggregate (r.without address)).result = .error e := by
      rw [Crypto.result_runAggregate, authority_members]
      exact Bls.aggregateKey_of_fault he
    exact ⟨by rw [halike.runAggregate, haggregate], haggregate⟩
  case propagated => exact halike.propagate
  case contacted =>
    intro c crypto g
    have hcontacts := Collective.propagate_contacts c crypto g (r.excluding address)
    rwa [halike.members, authority_members, without_addresses] at hcontacts
  case absent =>
    intro habsent
    rwa [without_of_absent r address habsent] at halike

/-- A roster in which one address is listed twice, and in which no key can be parsed. -/
def repeated : Roster :=
  ⟨[⟨⟨"a"⟩, [1]⟩, ⟨⟨"b"⟩, [1, 2]⟩, ⟨⟨"a"⟩, [1]⟩, ⟨⟨"c"⟩, [1, 2, 3]⟩]⟩

/-- Both of the repeated members are left out, and the fault is that of the first one who is not. -/
theorem excluding_leaves_out_repeated :
    (repeated.excluding ⟨"a"⟩).positions = [1, 3] ∧
    Authority.members (repeated.excluding ⟨"a"⟩) = [⟨⟨"b"⟩, [1, 2]⟩, ⟨⟨"c"⟩, [1, 2, 3]⟩] ∧
    (∀ i, Authority.memberAt? (repeated.excluding ⟨"a"⟩) i = none ↔ 2 ≤ i) ∧
    (Bls.scheme.crypto.runAggregate (repeated.excluding ⟨"a"⟩)).result =
      .error (.wrongLength 48 2) ∧
    Authority.members (repeated.excluding ⟨"d"⟩) = repeated.members := by
  have hleft : repeated.members.filter (·.address ≠ ⟨"a"⟩) =
      [⟨⟨"b"⟩, [1, 2]⟩, ⟨⟨"c"⟩, [1, 2, 3]⟩] := by decide
  have hfault : (repeated.without ⟨"a"⟩).members.findSome? Bls.keyFault? =
      some (.wrongLength 48 2) := by
    rw [without, hleft]
    rfl
  obtain ⟨_, hlisted, hmissing, _, hfaulty, _, _, _⟩ := excluding_leaves_out repeated ⟨"a"⟩
  have habsent := (excluding_leaves_out repeated ⟨"d"⟩).absent (by decide)
  refine ⟨by decide, hlisted.trans hleft, hmissing, (hfaulty _ hfault).1, ?_⟩
  rw [habsent.members, authority_members]

end Roster

end CosignedLedger
