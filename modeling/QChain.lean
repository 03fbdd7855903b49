import QChain.Core.Crypto
import QChain.Core.Dag
import QChain.Consensus.Quorum
import QChain.Consensus.DagStore
import QChain.Graph.PostOrder
import QChain.Consensus.Bullshark
import QChain.Consensus.State
import QChain.Consensus.Certificates
import QChain.Consensus.Walk
import QChain.Consensus.Reachability
import QChain.Consensus.Delivery
import QChain.Consensus.CertifiedDag
import QChain.Consensus.Verdicts
import QChain.Consensus.Agreement
import QChain.Consensus.FrontierClamp
import QChain.Node.Engine
import QChain.Node.VoteLock
import QChain.Node.Rotation
import QChain.Node.Parents
import QChain.Consensus.Barrier
import QChain.Consensus.Rederivation
import QChain.Consensus.Growth
import QChain.Consensus.Pruning
import QChain.Data.Borsh
import QChain.Data.FiniteMap
import QChain.System.Transact
import QChain.Core.Transaction
import QChain.Execution.Account
import QChain.Execution.SystemProgram
import QChain.Execution.Staking
import QChain.Execution.StakingV7
import QChain.Execution.Governance
import QChain.Execution.TreasuryV7
import QChain.Execution.ValidatorV7
import QChain.Execution.Ledger
import QChain.Node.Genesis
import QChain.Execution.Effects
import QChain.Execution.ProgramEffects
import QChain.Execution.NativeEffects
import QChain.Execution.ContractEffects
import QChain.Execution.Trace
import QChain.Execution.Closing
import QChain.Execution.FeeSteps
import QChain.Execution.LedgerSteps
import QChain.Execution.Received
import QChain.Execution.Chain
import QChain.Execution.HardCap
import QChain.Execution.Sandbox
import QChain.Execution.Charge
import QChain.Execution.Replay
import QChain.Execution.Deployment
import QChain.Data.BorshSize
import QChain.Execution.Positions
import QChain.Execution.Unstaking
import QChain.Execution.StakingSteps
import QChain.Execution.Solvency
import QChain.Execution.Principal
import QChain.Execution.ValidatorBooks
import QChain.Execution.ValidatorSteps
import QChain.Execution.ValidatorHistory
import QChain.Execution.Recovery
import QChain.Execution.Sanctions
import QChain.Execution.Uniqueness
import QChain.Execution.Bonds
import QChain.Execution.Evidence
import QChain.Execution.Accountability
import QChain.Merkle.Sparse
import QChain.Merkle.Trie
import QChain.Storage.StateTree
import QChain.Storage.CompressedTree
import QChain.Storage.RedbStore
import QChain.Signer.Guard
import QChain.Signer.Daemon
import QChain.Execution.StakeBooks
import QChain.Execution.V6Steps
import QChain.Execution.V6Runs
import QChain.Merkle.Update
import QChain.Storage.IncrementalTree
import QChain.Stark.Batch
import QChain.Execution.Emission
import QChain.Execution.FeePath
import QChain.Node.Pending
import QChain.Signer.RateLimit
