import CosignedLedger.Crypto.Basic
import Mathlib.Data.List.Basic

/-!
# Authorities that are alike

Whoever uses an authority sees how many members it has and which member stands at a position, and
no more than that. So a view that leaves an address out stands in for the roster of the members
that are left, although it keeps positions in the whole roster.

* `Authority.Alike`, `Authority.alike_of_memberAt?`: two authorities that cannot be told apart.
* `Roster.without`: the members with another address.
* `Roster.excluding_alike`: the view and that roster are alike.
-/

namespace CosignedLedger

namespace Authority
variable {α β : Type} [Authority α] [Authority β] {a : α} {b : β}

/-- Whatever they are asked, the two authorities answer the same. -/
structure Alike (a : α) (b : β) : Prop where
  size : size a = size b
  isEmpty : isEmpty a = isEmpty b
  memberAt? : ∀ i, memberAt? a i = memberAt? b i
  members : members a = members b

/-- All answers follow from the size and the member at each position. -/
theorem alike_of_memberAt? (hsize : size a = size b) (hmember : ∀ i, memberAt? a i = memberAt? b i) :
    Alike a b where
  size := hsize
  isEmpty := by rw [isEmpty, isEmpty, hsize]
  memberAt? := hmember
  members := by
    rw [members, members, hsize]
    exact List.filterMap_congr fun i _ => hmember i

theorem Alike.runAggregate (h : Alike a b) (c : Crypto) : c.runAggregate a = c.runAggregate b := by
  rw [Crypto.runAggregate, Crypto.runAggregate, h.members]

end Authority

namespace Roster

theorem authority_members (r : Roster) : Authority.members r = r.members := by
  obtain ⟨members⟩ := r
  show (List.range members.length).filterMap (fun i => members[i]?) = members
  induction members with
  | nil => rfl
  | cons m ms ih =>
    rw [List.length_cons, List.range_succ_eq_map, List.filterMap_cons]
    simpa [List.filterMap_map, Function.comp_def] using ih

def without (r : Roster) (address : Address) : Roster :=
  ⟨r.members.filter (·.address ≠ address)⟩

variable (r : Roster) (address : Address)

theorem without_of_absent (h : ∀ m ∈ r.members, m.address ≠ address) : r.without address = r := by
  have hall : r.members.filter (·.address ≠ address) = r.members :=
    List.filter_eq_self.2 fun m hm => by simpa using h m hm
  rw [without, hall]

theorem without_addresses : (r.without address).members.map (·.address) =
    (r.members.map (·.address)).filter (· ≠ address) := by
  rw [List.filter_map]
  rfl

theorem map_memberAt?_positions :
    (r.excluding address).positions.map (Authority.memberAt? r) =
      (r.without address).members.map some := by
  let kept := r.members.zipIdx.filter (·.1.address ≠ address)
  have hmember : ∀ entry ∈ kept, Authority.memberAt? r entry.2 = some entry.1 := fun entry hentry =>
    List.mem_zipIdx_iff_getElem?.1 (List.mem_filter.1 hentry).1
  calc (kept.map (·.2)).map (Authority.memberAt? r)
      = kept.map fun entry => some entry.1 := by
        rw [List.map_map]
        exact List.map_congr_left hmember
    _ = ((r.members.zipIdx.map (·.1)).filter (·.address ≠ address)).map some := by
        rw [List.filter_map, List.map_map]
        rfl
    _ = (r.without address).members.map some := by
        rw [List.zipIdx_map_fst]
        rfl

/-- The view that leaves an address out stands in for the members that are left. -/
theorem excluding_alike : Authority.Alike (r.excluding address) (r.without address) := by
  refine Authority.alike_of_memberAt? ?_ fun i => ?_
  · have hlength := congrArg List.length (map_memberAt?_positions r address)
    rwa [List.length_map, List.length_map] at hlength
  · have hi := congrArg (·[i]?) (map_memberAt?_positions r address)
    simp only [List.getElem?_map] at hi
    show (r.excluding address).positions[i]?.bind (Authority.memberAt? r) =
      (r.without address).members[i]?
    cases hposition : (r.excluding address).positions[i]? with
    | none =>
      rw [hposition] at hi
      exact (Option.map_eq_none_iff.1 hi.symm).symm
    | some position =>
      rw [hposition] at hi
      obtain ⟨m, hm, hat⟩ := Option.map_eq_some_iff.1 hi.symm
      rw [hm, hat]
      rfl

theorem excluding_members :
    Authority.members (r.excluding address) = r.members.filter (·.address ≠ address) :=
  (excluding_alike r address).members.trans (authority_members _)

end Roster

end CosignedLedger
