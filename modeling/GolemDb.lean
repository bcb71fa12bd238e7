import GolemDb.Lib.Bytes
import GolemDb.Lib.OrdMap
import GolemDb.Lib.LastWins
import GolemDb.Lib.Radix
import GolemDb.Lib.RadixList
import GolemDb.Lib.Prog
import GolemDb.Storage.Basic
import GolemDb.Storage.Memory
import GolemDb.Merkle.Path
import GolemDb.Merkle.Node
import GolemDb.Merkle.Codec
import GolemDb.Merkle.Trie
import GolemDb.Merkle.Canon
import GolemDb.Merkle.Edit
import GolemDb.Merkle.Read
import GolemDb.Merkle.Apply
import GolemDb.Merkle.Reference
import GolemDb.Merkle.History
import GolemDb.Cells.Types
import GolemDb.Cells.Value
import GolemDb.Cells.Key
import GolemDb.Lib.OrdSet
import GolemDb.Index.Term
import GolemDb.Cells.Cells
import GolemDb.Index.Container
import GolemDb.Index.Index
import GolemDb.Storage.Scan
import GolemDb.Cells.Table
import GolemDb.Branch.Overlay
import GolemDb.Lib.Overlay
import GolemDb.Branch.Visible
import GolemDb.Branch.Snapshots
import GolemDb.Branch.Buffer
import GolemDb.Branch.Seal
import GolemDb.Branch.Manager
import GolemDb.Records.Crud
import GolemDb.Storage.Frame
import GolemDb.Api.Genesis
import GolemDb.Merkle.Frame
import GolemDb.Cells.Access
import GolemDb.Cells.Apply
import GolemDb.Index.Frame
import GolemDb.Branch.Publish
import GolemDb.Branch.Groups
import GolemDb.Records.Identity
import GolemDb.Records.Lookup
import GolemDb.Records.Mutations
import GolemDb.Branch.Admission
import GolemDb.Branch.Calls
import GolemDb.Api.History
import GolemDb.Api.System
import GolemDb.Api.Runs
import GolemDb.Api.Published
import GolemDb.Merkle.Total
import GolemDb.Storage.Access
import GolemDb.Branch.BufferCursor
import GolemDb.Merkle.Raw
import GolemDb.Storage.Faults
import GolemDb.Branch.Retry
import GolemDb.Merkle.Binding
import GolemDb.Index.Authentic
import GolemDb.Branch.Capacity
import GolemDb.Api.Capacity
import GolemDb.Index.TermRange
import GolemDb.Query.Plan
import GolemDb.Query.Queries
import GolemDb.Storage.Limited
import GolemDb.Query.Bounded
import GolemDb.Api.Bounded
import GolemDb.Merkle.Flat
import GolemDb.Cells.Order
import GolemDb.Cells.Native
import GolemDb.Index.Table
import GolemDb.Index.TermOrder
import GolemDb.Storage.Isolation
import GolemDb.Branch.Threads
import GolemDb.Branch.Lifecycle
import GolemDb.Branch.Handles
import GolemDb.Cells.Commit
import GolemDb.Index.Sets
import GolemDb.Index.Bitmaps
import GolemDb.Index.Postings
import GolemDb.Index.Commit
import GolemDb.Merkle.Reach
import GolemDb.Branch.Attributes
import GolemDb.Branch.Commitment
import GolemDb.Branch.Binding
import GolemDb.Api.Commitment
import GolemDb.Api.Roots
import GolemDb.Api.Garbage
import GolemDb.Index.Native
import GolemDb.Storage.Mdbx
import GolemDb.Branch.CellScan
import GolemDb.Records.Lineage
import GolemDb.Api.Steps
import GolemDb.Api.Ids
import GolemDb.Api.Effects
import GolemDb.Branch.Determined
import GolemDb.Api.Seals
import GolemDb.Api.Opening
import GolemDb.Api.Reopening
import GolemDb.Query.Meaning
import GolemDb.Api.Queries
import GolemDb.Branch.Serial
import GolemDb.Lib.Simulation
import GolemDb.Branch.Atomic
import GolemDb.Branch.Matching
import GolemDb.Branch.Linear
import GolemDb.Branch.Moves
import GolemDb.Branch.Progress
import GolemDb.Api.Concurrent
import GolemDb.Api.Contents
import GolemDb.Api.Abstract
import GolemDb.Api.Refinement
