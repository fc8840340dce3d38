import CosignedLedger.Store.Basic

/-!
# Logs

A log gives back the blocks that were appended to it, in order. In a `Ledger` a block is written to
the log before it is published in the store.
-/

namespace CosignedLedger

structure BlockLog (μ : Type) where
  load : μ → Except StoreError (List Block) × μ
  append : Block → μ → Except StoreError Unit × μ

namespace BlockLog

def inMemory : BlockLog (List Block) where
  load blocks := (.ok blocks, blocks)
  append b blocks := (.ok (), blocks ++ [b])

/-- A log that starts empty and has room for a number of blocks. -/
def failing : BlockLog Nat where
  load room := (.ok [], room)
  append _
    | 0 => (.error (.log .full), 0)
    | room + 1 => (.ok (), room)

end BlockLog

structure Ledger (μ : Type) where
  store : Store
  medium : μ

namespace Ledger
variable {μ : Type}

/-- The store of everything in the log, every block checked as an insertion would be. -/
def openStore (log : BlockLog μ) (medium : μ) : Except StoreError Store × μ :=
  match log.load medium with
  | (.error e, medium) => (.error e, medium)
  | (.ok blocks, medium) => (Store.replay blocks, medium)

/-- Checks a block, appends it to the log and publishes it. -/
def insert (log : BlockLog μ) (b : Block) (l : Ledger μ) : Except StoreError Unit × Ledger μ :=
  match l.store.check b with
  | .error e => (.error e, l)
  | .ok () =>
    match log.append b l.medium with
    | (.error e, medium) => (.error e, ⟨l.store, medium⟩)
    | (.ok (), medium) => (.ok (), ⟨l.store.publish b, medium⟩)

end Ledger

end CosignedLedger
