import TxnStore.Device.Sparse
import TxnStore.Json.Printer
import TxnStore.Json.Reader
import TxnStore.Log.Bench
import TxnStore.Log.RecordWriter
import TxnStore.Main
import TxnStore.Settings.Reader
import TxnStore.Value.Document
import TxnStore.Value.Literal
import TxnStore.Workspace.Sequences
import TxnStore.Proofs.Transactions.Outcomes
import TxnStore.Proofs.Transactions.Overlay
import TxnStore.Proofs.Transactions.Effects
import TxnStore.Proofs.Transactions.Simulation
import TxnStore.Proofs.Transactions.Steps
import TxnStore.Proofs.Transactions.Isolation
import TxnStore.Proofs.Log.Contents
import TxnStore.Proofs.Log.Appending
import TxnStore.Proofs.Log.Opening
import TxnStore.Proofs.Log.Ledger
import TxnStore.Proofs.Log.FailedResets
import TxnStore.Proofs.Log.TornTails
import TxnStore.Proofs.Values.Reading
import TxnStore.Proofs.Values.Records
import TxnStore.Proofs.Values.Writing
import TxnStore.Proofs.Values.Spelling
import TxnStore.Proofs.Values.Tagged
import TxnStore.Proofs.Recovery.Histories
import TxnStore.Proofs.Recovery.Footing
import TxnStore.Proofs.Recovery.Logging
import TxnStore.Proofs.Recovery.Replay
import TxnStore.Proofs.Json.Documents
import TxnStore.Proofs.Catalog.Batches
import TxnStore.Proofs.Catalog.Faults
import TxnStore.Proofs.Catalog.Order
import TxnStore.Proofs.Catalog.Documents
import TxnStore.Proofs.Catalog.BatchRuns
import TxnStore.Proofs.Recovery.MapDefinitions
import TxnStore.Proofs.Recovery.Reopening
import TxnStore.Proofs.Recovery.Durability
import TxnStore.Proofs.Recovery.Stops
import TxnStore.Proofs.Recovery.Lifetimes
import TxnStore.Proofs.Transactions.MissingMaps
import TxnStore.Proofs.Transactions.DroppedMaps
import TxnStore.Proofs.Transactions.MapChanges
import TxnStore.Proofs.Transactions.RepeatedReads
import TxnStore.Proofs.Transactions.Rows
import TxnStore.Proofs.Log.RefusedFrames
import TxnStore.Proofs.Log.Checksums
import TxnStore.Proofs.Log.Salvage
import TxnStore.Proofs.Log.AlteredBytes
import TxnStore.Proofs.Sequences.Operations
import TxnStore.Proofs.Sequences.Margins
import TxnStore.Proofs.Sequences.Safety
import TxnStore.Proofs.Sequences.Creation
import TxnStore.Proofs.Sequences.Incarnations
import TxnStore.Proofs.Sequences.LostMargins
import TxnStore.Proofs.Sequences.Attributes
import TxnStore.Proofs.Sequences.Calls
import TxnStore.Proofs.Sequences.Refusals
import TxnStore.Proofs.Sequences.Kept
import TxnStore.Proofs.Transactions.WriteHistories
import TxnStore.Proofs.Transactions.Aborts
import TxnStore.Proofs.Sequences.CleanCloses
import TxnStore.Proofs.Schema.Registry
import TxnStore.Proofs.Schema.Operations
import TxnStore.Proofs.Schema.Reopening
import TxnStore.Proofs.Schema.Lives
import TxnStore.Proofs.Sequences.CallerBatches
import TxnStore.Proofs.Transactions.Savepoints
import TxnStore.Proofs.Transactions.MapSizes
import TxnStore.Proofs.Values.Order
import TxnStore.Proofs.Recovery.ReplayTwice
import TxnStore.Proofs.Log.Additions
import TxnStore.Proofs.Recovery.CommitFrames
import TxnStore.Proofs.Recovery.LostMaps
import TxnStore.Proofs.Sequences.FailedCalls
import TxnStore.Proofs.Sequences.Numbers
import TxnStore.Proofs.Sequences.Blocks
import TxnStore.Proofs.Schema.Targets
import TxnStore.Proofs.Schema.Handles
import TxnStore.Proofs.Sequences.Statements
import TxnStore.Proofs.Log.Iterators
import TxnStore.Proofs.Recovery.Estimates
import TxnStore.Proofs.Transactions.Tombstones
import TxnStore.Proofs.Values.Literals
import TxnStore.Proofs.Sequences.DoubleWords
import TxnStore.Proofs.Maps.PlainMaps
import TxnStore.Proofs.Transactions.FinishedWrites
import TxnStore.Proofs.Recovery.MapNumbers
