import SimpleKv.Lib.Outcome
import SimpleKv.Lib.Incremental
import SimpleKv.Lib.Grammar
import SimpleKv.Lib.Recursion
import SimpleKv.Lib.RecursiveGrammar
import SimpleKv.Lib.RobinHood
import SimpleKv.Lib.Occupancy
import SimpleKv.Lib.PartialMap
import SimpleKv.Lib.Expiring
import SimpleKv.Lib.Readings
import SimpleKv.Lib.Journal
import SimpleKv.Lib.RwLock
import SimpleKv.Lib.FairLock
import SimpleKv.Lib.Binary32
import SimpleKv.Lib.Lockstep
import SimpleKv.Rust
import SimpleKv.Util
import SimpleKv.KeyStore
import SimpleKv.KeyStoreLayout
import SimpleKv.KeyStoreMemory
import SimpleKv.KeyStoreMap
import SimpleKv.KeyStoreInvariant
import SimpleKv.KeyStoreFloat
import SimpleKv.KeyStoreInsertion
import SimpleKv.KeyStoreHistory
import SimpleKv.KeyStoreProbes
import SimpleKv.KeyStoreGrowth
import SimpleKv.KeyStoreChecked
import SimpleKv.KeyStoreCrowding
import SimpleKv.KeyStoreOverflow
import SimpleKv.Reader
import SimpleKv.Request
import SimpleKv.RequestGrammar
import SimpleKv.RequestReading
import SimpleKv.RequestSyntax
import SimpleKv.RequestState
import SimpleKv.Response
import SimpleKv.ResponseGrammar
import SimpleKv.ResponseReading
import SimpleKv.ResponseChecked
import SimpleKv.RequestChecked
import SimpleKv.ReaderChecked
import SimpleKv.ResponseSafety
import SimpleKv.ResponseSyntax
import SimpleKv.ResponseAcceptance
import SimpleKv.Command
import SimpleKv.CommandParsing
import SimpleKv.CommandErrors
import SimpleKv.CommandCodec
import SimpleKv.CommandRecord
import SimpleKv.CommandMap
import SimpleKv.CommandMemory
import SimpleKv.CommandInstants
import SimpleKv.Server
import SimpleKv.Connection
import SimpleKv.ServerMap
import SimpleKv.CommandRefinement
import SimpleKv.CommandTtl
import SimpleKv.CommandSafety
import SimpleKv.Restore
import SimpleKv.RestoreTotal
import SimpleKv.Replies
import SimpleKv.ServerMemory
import SimpleKv.CleanUp
import SimpleKv.Serial
import SimpleKv.Restart
import SimpleKv.Durability
import SimpleKv.Lifecycle
import SimpleKv.CommandFrame
import SimpleKv.Locking
import SimpleKv.LockingRefinement
import SimpleKv.LockingProgress
import SimpleKv.LockingQueue
import SimpleKv.LockingLiveness
import SimpleKv.LockingSerial
import SimpleKv.LockingCleanUp
import SimpleKv.ReaderFailures
import SimpleKv.Failures
import SimpleKv.FailuresSerial
import SimpleKv.Service
import SimpleKv.ServiceDurability
import SimpleKv.Isolation
