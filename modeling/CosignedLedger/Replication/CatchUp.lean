import CosignedLedger.Chain.Verify
import CosignedLedger.Replication.Genesis

/-!
# Catching up

A block past the first is stored only if its chain from the local first block verifies, its
signature is the one the chain ends with, and that is by the authority of the block stored before
it. Stored blocks are skipped; another block in the place of one is a conflict.
-/

namespace CosignedLedger

structure Progress where
  target : Digest
  received : Nat
  inserted : Nat
  skipped : Nat
deriving DecidableEq

def Progress.start (target : Digest) : Progress := ⟨target, 0, 0, 0⟩

inductive Verdict where
  | known
  | fresh

namespace Store

def compare (stored received : Block) : Except ReplicationError Verdict :=
  if stored.hash = received.hash then .ok .known
  else .error (.conflict stored.index stored.hash received.hash)

def judgeGenesis (s : Store) (b : Block) (chain : Option Bytes) :
    Except ReplicationError Verdict :=
  if chain.isSome then .error (.protocol .genesisWithChain)
  else match s.genesis? with
    | some stored => compare stored b
    | none => .ok .fresh

/-- Judges a block past the first whose chain has been verified, by the blocks around its index.
The chain may pass over the block before it, so its signer is compared with the authority that is
stored there. -/
def judgeProven (s : Store) (b : Block) (chain : Chain) : Except ReplicationError Verdict :=
  if b.signature ≠ chain.last?.map (·.signature) then
    .error (.protocol (.signatureDiffers b.index))
  else match s.read b.index with
    | .ok stored => compare stored b
    | .error _ =>
      match s.read (b.index - 1) with
      | .ok previous =>
        if chain.last?.map (·.authority) ≠ some previous.authority then
          .error (.chain (.invalidProof chain.lastPosition.toNat (.wrongSigner b.index)))
        else .ok .fresh
      | .error _ => .ok .fresh

/-- Judges a decoded block and the bytes of its chain. -/
def judge (s : Store) (c : Crypto) (limit : Nat) (b : Block) (chain : Option Bytes) :
    Metered ReplicationError Verdict :=
  if b.isGenesis then .ofExcept (s.judgeGenesis b chain)
  else match chain with
    | none => .fail (.protocol (.noChain b.index))
    | some bytes => do
      let chain ← .ofExcept ((decodeChain limit bytes).mapError .ofCodec)
      match s.genesis? with
      | none => .fail (.protocol (.beforeGenesis b.index))
      | some genesis =>
        (s.verifyTo c chain genesis.hash b.hash).mapError .chain
        .ofExcept (s.judgeProven b chain)

end Store

namespace Ledger
variable {μ : Type}

/-- Takes one response: the block it held, and whether it was stored. -/
def accept (log : BlockLog μ) (c : Crypto) (limit : Nat) (block : Bytes) (chain : Option Bytes)
    (l : Ledger μ) : Acted μ ReplicationError (Block × Verdict) :=
  let judged : Metered ReplicationError (Block × Verdict) := do
    let b ← (decodeBlock c limit block).mapError .ofCodec
    let verdict ← l.store.judge c limit b chain
    return (b, verdict)
  match judged.result with
  | .error e => ⟨.error e, l, judged.calls⟩
  | .ok (b, .known) => ⟨.ok (b, .known), l, judged.calls⟩
  | .ok (b, .fresh) =>
    match l.insert log b with
    | (.error e, l) => ⟨.error (.store e), l, judged.calls⟩
    | (.ok (), l) => ⟨.ok (b, .fresh), l, judged.calls⟩

end Ledger

namespace Progress
variable {μ : Type}

def count (p : Progress) : Verdict → Progress
  | .known => { p with received := p.received + 1, skipped := p.skipped + 1 }
  | .fresh => { p with received := p.received + 1, inserted := p.inserted + 1 }

def receive (log : BlockLog μ) (c : Crypto) (limit : Nat) (frame : Frame) (p : Progress)
    (l : Ledger μ) : Acted μ ReplicationError (Progress × Bool) :=
  match frame with
  | .error cause => ⟨.error (.incomplete p.target p.received cause), l, .none⟩
  | .ok (_, .blockResponse block chain) =>
    let acted := l.accept log c limit block chain
    ⟨acted.result.map fun (b, verdict) => (p.count verdict, b.hash = p.target),
      acted.ledger, acted.calls⟩
  | .ok (_, other) => ⟨.error (.protocol (.expectedResponse other.kind)), l, .none⟩

/-- Takes frames until the target is reached or one fails. After the last frame the stream is
closed. -/
def receiveAll (log : BlockLog μ) (c : Crypto) (limit : Nat) (p : Progress) (l : Ledger μ) :
    List Frame → Acted μ ReplicationError Progress
  | [] => ⟨.error (.incomplete p.target p.received .closed), l, .none⟩
  | frame :: frames =>
    let acted := p.receive log c limit frame l
    match acted.result with
    | .error e => ⟨.error e, acted.ledger, acted.calls⟩
    | .ok (p, true) => ⟨.ok p, acted.ledger, acted.calls⟩
    | .ok (p, false) =>
      let rest := p.receiveAll log c limit acted.ledger frames
      ⟨rest.result, rest.ledger, acted.calls + rest.calls⟩

end Progress

end CosignedLedger
