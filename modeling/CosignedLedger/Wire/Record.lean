import CosignedLedger.Chain.Basic
import CosignedLedger.Message
import CosignedLedger.Wire.Format

/-!
# The wire formats of blocks, chains and messages

The fields of a structure in order; a message follows its kind in four bytes.
-/

namespace CosignedLedger

def Member.format : Format Member :=
  (Format.text.pair .blob).along (fun p => ⟨⟨p.1⟩, p.2⟩) (fun m => (m.address.name, m.publicKey))

def Roster.format : Format Roster :=
  Member.format.list.along Roster.mk Roster.members

def Header.format : Format Header :=
  (Format.word.pair (Format.digest.pair (Format.digest.pair Roster.format))).along
    (fun p => ⟨p.1, p.2.1, p.2.2.1, p.2.2.2⟩)
    (fun h => (h.index, h.previousHash, h.payloadHash, h.authority))

def Block.format : Format Block :=
  (Header.format.pair (Format.digest.pair (Format.blob.pair Format.blob.option))).along
    (fun p => ⟨p.1, p.2.1, p.2.2.1, p.2.2.2⟩)
    (fun b => (b.header, b.hash, b.payload, b.signature))

def Link.format : Format Link :=
  (Format.digest.pair (Format.digest.pair (Header.format.pair (Roster.format.pair .blob)))).along
    (fun p => ⟨p.1, p.2.1, p.2.2.1, p.2.2.2.1, p.2.2.2.2⟩)
    (fun l => (l.source, l.target, l.header, l.authority, l.signature))

def Chain.format : Format Chain :=
  Link.format.list.along Chain.mk Chain.links

namespace Message

def tag : Message → Nat
  | propagateGenesis _ => 0
  | blockRequest _ => 1
  | blockResponse _ _ => 2

def writeContents : Message → Bytes
  | propagateGenesis genesis => Format.blob.write genesis
  | blockRequest target => Format.digest.write target
  | blockResponse block chain => (Format.blob.pair Format.blob.option).write (block, chain)

def readContents (tag : Nat) (bytes : Bytes) : Except WireFault (Message × Bytes) :=
  match tag with
  | 0 => do
    let (genesis, rest) ← Format.blob.read bytes
    return (.propagateGenesis genesis, rest)
  | 1 => do
    let (target, rest) ← Format.digest.read bytes
    return (.blockRequest target, rest)
  | 2 => do
    let ((block, chain), rest) ← (Format.blob.pair Format.blob.option).read bytes
    return (.blockResponse block chain, rest)
  | tag => .error (.badVariant tag)

def format : Format Message where
  write m := Bytes.ofNatLE 4 m.tag ++ m.writeContents
  read bytes := do
    let (tag, rest) ← (Format.fixed 4).read bytes
    readContents tag rest

end Message

end CosignedLedger
