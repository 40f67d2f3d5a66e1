import Bongtu.TreeAgreement
import Bongtu.Core.PathClosure
import Bongtu.Evm.Admission
import Bongtu.Evm.Gate
import Bongtu.Solana.Transfer
import Bongtu.Indexer.SolanaRun
import Bongtu.RailsAgree
import Bongtu.Client.Session
import Bongtu.Client.Resume
import Bongtu.Client.Gated
import Bongtu.Client.LockSafety
import Bongtu.Client.Discovery
import Bongtu.Merkle.Path
import Bongtu.Indexer.PathCorrect
import Bongtu.Indexer.HistoryPages
import Bongtu.Indexer.HistoryBacked
import Bongtu.Indexer.DisclosureVerdict
import Bongtu.Indexer.BatchPrivacy
import Bongtu.Indexer.IngestRun
import Bongtu.Indexer.NameRoutes
import Bongtu.Indexer.PortalSweep
import Bongtu.Indexer.PortalFeed
import Bongtu.Indexer.KemChunks
import Bongtu.EnvelopeTrip
import Bongtu.Payroll.DisburseRead
import Bongtu.Spend.Provable
import Bongtu.Spend.Assemble
import Bongtu.Spend.Driver
import Bongtu.Spend.ChainRun
import Bongtu.Spend.Families
import Bongtu.ByteOrder
import Bongtu.Core.SolanaOps
import Bongtu.Solana.Wire
import Bongtu.Solana.Accepted
import Bongtu.Solana.PublicInputs
import Bongtu.Client.OpData
import Bongtu.Solana.Reconstruct
import Bongtu.Indexer.SolanaWire
import Bongtu.Indexer.SolanaTrip
import Bongtu.Core.BigIntText
import Bongtu.Sweeper.Round
import Bongtu.Indexer.ServedRegistry
import Bongtu.Client.MoneyTrip
import Bongtu.Indexer.ViewTokens
import Bongtu.Lucas
import Bongtu.Edwards
import Bongtu.Core.Primes
import Bongtu.Core.BabyJub
import Bongtu.Core.SqrtMod
import Bongtu.Core.PointText
import Bongtu.Core.AddressTrip
import Bongtu.Core.EdDsa
import Bongtu.Radix
import Bongtu.Core.Base58
import Bongtu.Core.Stealth
import Bongtu.Solana.Groth16
import Bongtu.Indexer.ScanRange
import Bongtu.Utf8
import Bongtu.Core.Ens
import Bongtu.Indexer.EnsGateway
import Bongtu.Solana.TreeAccount
import Bongtu.Client.AppendedRoot
import Bongtu.Lockstep
import Bongtu.Monitor
import Bongtu.Solana.Bank
import Bongtu.Solana.Prefunding
import Bongtu.Spend.Purse
import Bongtu.Evm.Notes
