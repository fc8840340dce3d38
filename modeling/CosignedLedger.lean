import CosignedLedger.Main
import CosignedLedger.Proofs.Chain.Completeness
import CosignedLedger.Proofs.Replication.Growth
import CosignedLedger.Proofs.Replication.Intake
import CosignedLedger.Proofs.Transparent
import CosignedLedger.Proofs.Replication.Answers
import CosignedLedger.Proofs.Replication.Completion
import CosignedLedger.Proofs.Store.Records
import CosignedLedger.Proofs.Store.Durability
import CosignedLedger.Proofs.Store.Refinement
import CosignedLedger.Proofs.Wire.Layout
import CosignedLedger.Proofs.Canonical
import CosignedLedger.Proofs.Replication.Forks
import CosignedLedger.Proofs.Replication.Relaying
import CosignedLedger.Proofs.Collective.Led
import CosignedLedger.Proofs.Collective.Agreement
import CosignedLedger.Proofs.Chain.FirstFault
import CosignedLedger.Proofs.Chain.Stability
import CosignedLedger.Proofs.Replication.Interleaving
import CosignedLedger.Proofs.Replication.Undisturbed
import CosignedLedger.Proofs.Replication.Remaining
import CosignedLedger.Proofs.Replication.Buffering
import CosignedLedger.Proofs.Collective.CatchingUp
import CosignedLedger.Proofs.Chain.Length
import CosignedLedger.Proofs.Rehearsal.Teams
import CosignedLedger.Proofs.Rehearsal.Course
import CosignedLedger.Proofs.Rehearsal.Stages
import CosignedLedger.Proofs.Rehearsal.Production
import CosignedLedger.Proofs.Rehearsal.Report
import CosignedLedger.Proofs.Replication.Limits
import CosignedLedger.Proofs.Replication.Resuming
import CosignedLedger.Proofs.Replication.Alongside
import CosignedLedger.Proofs.Store.Files
import CosignedLedger.Proofs.Rehearsal.Series
import CosignedLedger.Proofs.Hash.Crc32
import CosignedLedger.Proofs.Store.Loading
import CosignedLedger.Proofs.Store.Damage
import CosignedLedger.Proofs.Chain.Tampering
import CosignedLedger.Proofs.Chain.Shape
import CosignedLedger.Proofs.Chain.Composition
import CosignedLedger.Proofs.Commitment
import CosignedLedger.Proofs.Replication.Extent
import CosignedLedger.Proofs.Replication.Accounting
import CosignedLedger.Proofs.Replication.Positions
import CosignedLedger.Proofs.Replication.Installation
import CosignedLedger.Proofs.Collective.Propagation
import CosignedLedger.Proofs.Replication.Origin
import CosignedLedger.Proofs.Rehearsal.Epochs
import CosignedLedger.Proofs.Collective.Creation
import CosignedLedger.Proofs.Collective.Exclusion
import CosignedLedger.Proofs.Chain.Samples
