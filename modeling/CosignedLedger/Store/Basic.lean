import CosignedLedger.Block
import CosignedLedger.Wire.Format

/-!
# The store

The blocks of one ledger in order, and the position of each by its hash. Only the block that comes
next is admitted.
-/

namespace CosignedLedger

inductive FileFault where
  | fileExists
  | notFolder
  | isFolder
  | notFound
  | tooLarge
  | nameTooLong
  | nulByte
deriving DecidableEq

def FileFault.message : FileFault → String
  | fileExists => "File exists (os error 17)"
  | notFolder => "Not a directory (os error 20)"
  | isFolder => "Is a directory (os error 21)"
  | notFound => "No such file or directory (os error 2)"
  | tooLarge => "File too large (os error 27)"
  | nameTooLong => "File name too long (os error 36)"
  | nulByte => "file name contained an unexpected NUL byte"

inductive LogFault where
  | full
  | noFolder
  | corrupt (offset : Nat) (path : String)
  | undecodable (offset : Nat) (fault : WireFault)
  | recordTooLarge (size : Nat)
  | file (path : String) (fault : FileFault)
  | other (text : String)
deriving DecidableEq

def LogFault.message : LogFault → String
  | full => "disk full"
  | noFolder => "no data directory configured"
  | corrupt offset path => s!"corrupt record at offset {offset} in {path}"
  | undecodable offset fault => s!"undecodable record at offset {offset}: {fault.message}"
  | recordTooLarge size => s!"record too large: {size} bytes"
  | file path fault => s!"{path}: {fault.message}"
  | other text => text

inductive StoreError where
  | notFound (index : Nat)
  | hashNotFound (hash : Digest)
  | outOfOrder (expected got : Nat)
  | duplicate (index : Nat) (hash : Digest)
  | linkage (index : Nat) (expected got : Digest)
  | zeroHash (index : Nat)
  | log (fault : LogFault)
deriving DecidableEq

def StoreError.message : StoreError → String
  | notFound index => s!"Block not found at index {index}"
  | hashNotFound hash => s!"Block not found: {hash}"
  | outOfOrder expected got => s!"Out of order insert: expected index {expected}, got {got}"
  | duplicate index hash => s!"Duplicate block {hash} at index {index}"
  | linkage index expected got =>
    s!"Linkage broken at index {index}: expected previous {expected}, got {got}"
  | zeroHash index => s!"Zero hash at index {index}"
  | log fault => s!"Block log error: {fault.message}"

structure Store where
  blocks : List Block
  /-- The position of every stored hash, newest first. -/
  positions : List (Digest × Nat)
deriving DecidableEq

namespace Store

def empty : Store := ⟨[], []⟩

instance : Inhabited Store := ⟨empty⟩

def size (s : Store) : Nat := s.blocks.length

def isEmpty (s : Store) : Bool := s.size = 0

def genesis? (s : Store) : Option Block := s.blocks.head?

def last? (s : Store) : Option Block := s.blocks.getLast?

def indexOf? (s : Store) (hash : Digest) : Option Nat := s.positions.lookup hash

def read (s : Store) (index : Nat) : Except StoreError Block :=
  match s.blocks[index]? with
  | some block => .ok block
  | none => .error (.notFound index)

def readByHash (s : Store) (hash : Digest) : Except StoreError Block :=
  match (s.indexOf? hash).bind (s.blocks[·]?) with
  | some block => .ok block
  | none => .error (.hashNotFound hash)

def lastHash (s : Store) : Digest := (s.last?.map (·.hash)).getD .zero

/-- Why a block may not come next, if there is a reason. -/
def check (s : Store) (b : Block) : Except StoreError Unit :=
  if b.index ≠ s.size then .error (.outOfOrder s.size b.index)
  else match s.indexOf? b.hash with
    | some position => .error (.duplicate position b.hash)
    | none =>
      if b.previousHash ≠ s.lastHash then .error (.linkage b.index s.lastHash b.previousHash)
      else if 0 < b.index ∧ b.hash.isZero then .error (.zeroHash b.index)
      else .ok ()

def publish (s : Store) (b : Block) : Store :=
  ⟨s.blocks ++ [b], (b.hash, s.size) :: s.positions⟩

/-- The store with the given blocks added one by one, each checked before it is added. -/
def replayFrom (s : Store) : List Block → Except StoreError Store
  | [] => .ok s
  | b :: bs =>
    match s.check b with
    | .error e => .error e
    | .ok () => replayFrom (s.publish b) bs

def replay (bs : List Block) : Except StoreError Store := empty.replayFrom bs

end Store

end CosignedLedger
