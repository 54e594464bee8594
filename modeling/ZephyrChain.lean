import ZephyrChain.Tx.Proofs.Wire
import ZephyrChain.State.Proofs.Paths
import ZephyrChain.WorldState.Proofs.Faults
import ZephyrChain.Consensus.Proofs.Checkpoint
import ZephyrChain.Consensus.Proofs.Roots
import ZephyrChain.Consensus.Proofs.Rotation
import ZephyrChain.Execution.Proofs.Conservation
import ZephyrChain.Execution.Proofs.Parallel
import ZephyrChain.Execution.Proofs.Isolation
import ZephyrChain.Execution.Proofs.JobRecords
import ZephyrChain.Execution.Proofs.Payloads
import ZephyrChain.Execution.Proofs.Payouts
import ZephyrChain.Execution.Proofs.Work
import ZephyrChain.Ledger.Proofs.Accounting
import ZephyrChain.Ledger.Proofs.Binding
import ZephyrChain.Ledger.Proofs.Finality
import ZephyrChain.Compute.Proofs.Market
import ZephyrChain.Economics.Proofs.Fees
import ZephyrChain.Economics.Proofs.ZcuReference
import ZephyrChain.Committee.Proofs.Selection
import ZephyrChain.Committee.Proofs.KeySchedule
import ZephyrChain.Node.Proofs.Expiry
import ZephyrChain.Node.Proofs.Mempool
import ZephyrChain.Codec.Proofs
import ZephyrChain.Election.Proofs
import ZephyrChain.Node.Proofs.Journal
import ZephyrChain.Execution.Proofs.Lending
import ZephyrChain.Node.Proofs.Chain
