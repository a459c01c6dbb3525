import MeteredLedger.Delta.Merge
import MeteredLedger.Ledger
import MeteredLedger.Proofs.Agreement
import MeteredLedger.Proofs.Approvals
import MeteredLedger.Proofs.Atomicity
import MeteredLedger.Proofs.Backing
import MeteredLedger.Proofs.Batches
import MeteredLedger.Proofs.Billing
import MeteredLedger.Proofs.Blocks
import MeteredLedger.Proofs.Bookkeeping
import MeteredLedger.Proofs.Callables
import MeteredLedger.Proofs.Canonical
import MeteredLedger.Proofs.Chain
import MeteredLedger.Proofs.Commuting
import MeteredLedger.Proofs.Confinement
import MeteredLedger.Proofs.Conservation
import MeteredLedger.Proofs.Debits
import MeteredLedger.Proofs.EitherOrder
import MeteredLedger.Proofs.Endings
import MeteredLedger.Proofs.Entries
import MeteredLedger.Proofs.Failing
import MeteredLedger.Proofs.Headway
import MeteredLedger.Proofs.Heights
import MeteredLedger.Proofs.History
import MeteredLedger.Proofs.Issuance
import MeteredLedger.Proofs.Layers
import MeteredLedger.Proofs.LeftOut
import MeteredLedger.Proofs.Lifecycle
import MeteredLedger.Proofs.Mediation
import MeteredLedger.Proofs.Naming
import MeteredLedger.Proofs.Nesting
import MeteredLedger.Proofs.Pointwise
import MeteredLedger.Proofs.ReadBack
import MeteredLedger.Proofs.Receipts
import MeteredLedger.Proofs.Records
import MeteredLedger.Proofs.Resumption
import MeteredLedger.Proofs.Scoping
import MeteredLedger.Proofs.Snapshots
import MeteredLedger.Proofs.Solvency
import MeteredLedger.Proofs.Stepping
import MeteredLedger.Proofs.Steps
import MeteredLedger.Proofs.StepwiseLimit
import MeteredLedger.Proofs.Store
import MeteredLedger.Proofs.Survivors
import MeteredLedger.Proofs.Suspension
import MeteredLedger.Proofs.Tally
import MeteredLedger.Proofs.Threshold
import MeteredLedger.Proofs.Transparency
import MeteredLedger.Proofs.Writable
import MeteredLedger.Stepwise
import MeteredLedger.Transition
import MeteredLedger.Proofs.Chain
