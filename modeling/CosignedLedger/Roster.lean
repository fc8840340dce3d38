import CosignedLedger.Bytes

/-!
# Rosters

The members whose keys together make one authority, in order. A `Roster.View` leaves one address
out.
-/

namespace CosignedLedger

structure Address where
  name : String
deriving DecidableEq, Inhabited

structure Member where
  address : Address
  publicKey : Bytes
deriving DecidableEq

/-- A length or count in front of what it measures: four bytes, so taken modulo `2 ^ 32`. -/
def Bytes.count32 (n : Nat) : Bytes := Bytes.ofNatLE 4 n

/-- The member in the form that headers are hashed in: address and key, each after its length. -/
def Member.canonicalBytes (m : Member) : Bytes :=
  let address := Bytes.ofText m.address.name
  Bytes.count32 address.length ++ address ++ Bytes.count32 m.publicKey.length ++ m.publicKey

class Authority (α : Type) where
  size : α → Nat
  memberAt? : α → Nat → Option Member

namespace Authority
variable {α : Type} [Authority α]

def isEmpty (a : α) : Bool := size a = 0

def members (a : α) : List Member :=
  (List.range (size a)).filterMap (memberAt? a)

end Authority

structure Roster where
  members : List Member
deriving DecidableEq, Inhabited

namespace Roster

instance : Authority Roster where
  size r := r.members.length
  memberAt? r i := r.members[i]?

/-- The number of members and then each member, in the form that headers are hashed in. -/
def canonicalBytes (r : Roster) : Bytes :=
  Bytes.count32 r.members.length ++ r.members.flatMap Member.canonicalBytes

/-- Some of the members of a roster, by their positions in it. -/
structure View where
  roster : Roster
  positions : List Nat

instance : Authority View where
  size v := v.positions.length
  memberAt? v i := v.positions[i]?.bind (Authority.memberAt? v.roster)

def excluding (r : Roster) (address : Address) : View :=
  ⟨r, (r.members.zipIdx.filter (·.1.address ≠ address)).map (·.2)⟩

end Roster

end CosignedLedger
