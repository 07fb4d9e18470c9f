import LockPrune.Main
import LockPrune.Proofs.Lockfile.Keys
import LockPrune.Proofs.Lockfile.KeyTexts
import LockPrune.Proofs.Lockfile.Reachability
import LockPrune.Proofs.Lockfile.Pruning
import LockPrune.Proofs.Lockfile.Repruning
import LockPrune.Proofs.Lockfile.LayoutContent
import LockPrune.Proofs.Command.Folder
import LockPrune.Proofs.Command.Failure
import LockPrune.Proofs.Lockfile.Apart
import LockPrune.Proofs.Command.Again
import LockPrune.Proofs.Decimal.Rounding
import LockPrune.Proofs.Decimal.Shortest
import LockPrune.Proofs.Lockfile.EntryReading
import LockPrune.Proofs.Lockfile.FileReading
import LockPrune.Proofs.Lockfile.ReservedKey
import LockPrune.Proofs.Lockfile.RoundTrip
import LockPrune.Proofs.Lockfile.Session
import LockPrune.Proofs.Lockfile.Splitting
import LockPrune.Proofs.Lockfile.Invariance
import LockPrune.Proofs.Lockfile.RegularBlocks
import LockPrune.Proofs.Lockfile.Expansion
import LockPrune.Proofs.Lockfile.Restriction
import LockPrune.Proofs.Lockfile.LimitedSink
import LockPrune.Proofs.Lockfile.FileQuotes
import LockPrune.Proofs.Lockfile.Requoting
import LockPrune.Proofs.Lockfile.KeptLines
import LockPrune.Proofs.Lockfile.Resolution
import LockPrune.Proofs.Lockfile.Workspaces
import LockPrune.Proofs.Lockfile.FieldOrder
import LockPrune.Proofs.Lockfile.Outcomes
import LockPrune.Proofs.Command.Dump
import LockPrune.Proofs.Lockfile.OtherFields
