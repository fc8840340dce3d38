import CosignedLedger.Proofs.Chain.Succession
import CosignedLedger.Proofs.Roster
import CosignedLedger.Rehearsal.Basic
import Mathlib.Data.List.Basic

/-!
# The teams of a rehearsal

Every epoch has a team of its own. No two members of a rehearsal have one address, so that teams of
different epochs have different rosters, and the leader is left out of its team by its address.

* `Rehearsal.epochCount_of_lt`: the number of epochs, where it has a word.
* `Rehearsal.memberAddress_inj`: an address tells the epoch and the position.
* `Rehearsal.team_addresses`: the addresses of a team; `Rehearsal.size_others` counts all but one.
-/

namespace CosignedLedger

namespace Rehearsal
variable {Key : Type}

theorem epochCount_of_lt {rotation blocks : UInt64}
    (h : epochOf rotation.toNat blocks.toNat + 1 < UInt64.size) :
    (epochCount rotation blocks).toNat = epochOf rotation.toNat blocks.toNat + 1 := by
  simp only [epochCount, UInt64.toNat_add, UInt64.toNat_ofNat']
  have hsize : UInt64.size = 2 ^ 64 := rfl
  rw [UInt64.toNat_one, Nat.mod_eq_of_lt (by omega), Nat.mod_eq_of_lt (by omega)]

/-! ### Addresses -/

theorem memberAddress_inj {epoch epoch' i j : Nat} :
    memberAddress epoch i = memberAddress epoch' j ↔ epoch = epoch' ∧ i = j := by
  rw [memberAddress, memberAddress, Address.mk.injEq]
  exact numbered_inj

/-! ### The others -/

theorem address_ne_of_mem_excluding {r : Roster} {address : Address} {m : Member}
    (hm : m ∈ Authority.members (r.excluding address)) : m.address ≠ address := by
  rw [Roster.excluding_members] at hm
  simpa using (List.mem_filter.1 hm).2

theorem size_excluding (r : Roster) (address : Address) :
    Authority.size (r.excluding address) = (r.members.map (·.address)).countP (· ≠ address) := by
  rw [(Roster.excluding_alike r address).size, List.countP_map]
  exact List.countP_eq_length_filter.symm

/-! ### Teams -/

section Teams
variable (scheme : Scheme Key) (entropy : Nat → Nat → Bytes) {s : Settings}

/-- A team has a key for each of its addresses, whatever its keys are made from. -/
theorem exists_generate_of_team {epoch : Nat} {members : Team Key}
    (h : team scheme entropy s epoch = .ok members) :
    ∃ material signer, Signer.generate scheme material = .ok signer ∧
      material.map (·.1) = (List.range s.nodes).map (memberAddress epoch) ∧
      members = ⟨signer, signer.roster scheme⟩ := by
  unfold team at h
  cases hseed : s.seed with
  | none =>
    simp only [hseed, Except.bind_eq_ok, Except.pure_eq_ok] at h
    obtain ⟨signer, hsigner, rfl⟩ := h
    exact ⟨_, signer, hsigner, by rw [List.map_map]; rfl, rfl⟩
  | some seed =>
    simp only [hseed, Signer.ofSeed, Except.bind_eq_ok, Except.pure_eq_ok] at h
    obtain ⟨signer, hsigner, rfl⟩ := h
    exact ⟨_, signer, hsigner, by rw [List.map_map, List.map_map]; rfl, rfl⟩

theorem team_roster {epoch : Nat} {members : Team Key}
    (h : team scheme entropy s epoch = .ok members) :
    members.roster = members.signer.roster scheme := by
  obtain ⟨_, signer, _, _, rfl⟩ := exists_generate_of_team scheme entropy h
  rfl

theorem team_addresses {epoch : Nat} {members : Team Key}
    (h : team scheme entropy s epoch = .ok members) :
    members.roster.members.map (·.address) = (List.range s.nodes).map (memberAddress epoch) := by
  obtain ⟨material, signer, hsigner, haddresses, rfl⟩ := exists_generate_of_team scheme entropy h
  rw [← haddresses, ← Signer.generate_addresses scheme hsigner, Signer.roster_addresses]

theorem exists_teams {count epoch : Nat}
    (h : ∀ i, i < count → ∃ members, team scheme entropy s (epoch + i) = .ok members) :
    ∃ all, teams scheme entropy s count epoch = .ok all ∧ all.length = count ∧
      ∀ (i : Nat) (members : Team Key), all[i]? = some members →
        team scheme entropy s (epoch + i) = .ok members := by
  induction count generalizing epoch with
  | zero => exact ⟨[], rfl, rfl, fun i members hi => by simp at hi⟩
  | succ count ih =>
    obtain ⟨first, hfirst⟩ := h 0 (by omega)
    have hlater : ∀ i, i < count → ∃ members, team scheme entropy s (epoch + 1 + i) = .ok members := by
      intro i hi
      rw [Nat.add_assoc, Nat.add_comm 1]
      exact h (i + 1) (by omega)
    obtain ⟨rest, hrest, hlength, hmembers⟩ := ih hlater
    refine ⟨first :: rest, ?_, by rw [List.length_cons, hlength], ?_⟩
    · simp only [teams, Except.bind_eq_ok, Except.mapError_eq_ok, Except.pure_eq_ok]
      exact ⟨first, hfirst, rest, hrest, rfl⟩
    · intro i members hi
      cases i with
      | zero =>
        cases hi
        exact hfirst
      | succ i =>
        rw [Nat.add_comm i, ← Nat.add_assoc]
        exact hmembers i members hi

theorem size_others {epoch : Nat} {members : Team Key}
    (h : team scheme entropy s epoch = .ok members) :
    Authority.size (members.roster.excluding (memberAddress epoch 0)) = s.nodes - 1 := by
  rw [size_excluding, team_addresses scheme entropy h, List.countP_map]
  cases hnodes : s.nodes with
  | zero => rfl
  | succ nodes =>
    rw [List.range_succ_eq_map, List.countP_cons_of_neg (by simp), List.countP_map,
      List.countP_eq_length.2, List.length_range, Nat.add_sub_cancel]
    intro i _
    simp [memberAddress_inj]

end Teams

end Rehearsal

end CosignedLedger
