import OrderedIndex.Bytes
import OrderedIndex.SortedMap
import OrderedIndex.Direction
import OrderedIndex.Hex
import OrderedIndex.Value
import OrderedIndex.RowId
import OrderedIndex.CodecError
import OrderedIndex.Key.Component
import OrderedIndex.Key.Reader
import OrderedIndex.Cbor.Header
import OrderedIndex.Cbor.Item
import OrderedIndex.StoredRow
import OrderedIndex.Column
import OrderedIndex.Row
import OrderedIndex.StoreError
import OrderedIndex.Error
import OrderedIndex.Index.Descriptor
import OrderedIndex.Index.Config
import OrderedIndex.Index.KeyLayout
import OrderedIndex.Index.Cost
import OrderedIndex.Store.Basic
import OrderedIndex.Store.KeyIter
import OrderedIndex.Store.Client
import OrderedIndex.Index.Basic
import OrderedIndex.Index.Cursor
import OrderedIndex.Index.Scan
import OrderedIndex.Index.Group
import OrderedIndex.Table.Basic
import OrderedIndex.Table.Session
import OrderedIndex.Table.Indexing
import OrderedIndex.Table.Scan
import OrderedIndex.Table.Command
import OrderedIndex.Table.History
import OrderedIndex.Table.Database
import OrderedIndex.Table.Shared
import OrderedIndex.Check.People
import OrderedIndex.Check.Shadow
import OrderedIndex.Check.Script
import OrderedIndex.Check.Workload
import OrderedIndex.Check.Document
import OrderedIndex.Check.KeyVectors
import OrderedIndex.Proofs.Outcome
import OrderedIndex.Proofs.ByteOrder
import OrderedIndex.Proofs.ValueOrder
import OrderedIndex.Proofs.ComponentOrder
import OrderedIndex.Proofs.KeyOrder
import OrderedIndex.Proofs.Probe
import OrderedIndex.Proofs.KeyReading
import OrderedIndex.Proofs.Cbor.Header
import OrderedIndex.Proofs.Cbor.Item
import OrderedIndex.Proofs.StoredRow
import OrderedIndex.Proofs.SortedMap
import OrderedIndex.Proofs.Store
import OrderedIndex.Proofs.Directory
import OrderedIndex.Proofs.KeyIter
import OrderedIndex.Proofs.Handles
import OrderedIndex.Proofs.Iteration
import OrderedIndex.Proofs.Navigation
import OrderedIndex.Proofs.Index.Conflict
import OrderedIndex.Proofs.KeyCanonical
import OrderedIndex.Proofs.Index.Entries
import OrderedIndex.Proofs.Index.Unique
import OrderedIndex.Proofs.Index.LiveScan
import OrderedIndex.Proofs.Index.Group
import OrderedIndex.Proofs.Index.Undo
import OrderedIndex.Proofs.Index.Cursor
import OrderedIndex.Proofs.Index.Bounds
import OrderedIndex.Proofs.Index.Edge
import OrderedIndex.Proofs.Index.Reading
import OrderedIndex.Proofs.Index.Cost
import OrderedIndex.Proofs.Table.Rows
import OrderedIndex.Proofs.Table.Wiring
import OrderedIndex.Proofs.Table.Sound
import OrderedIndex.Proofs.Table.Indexing
import OrderedIndex.Proofs.Table.Consistent
import OrderedIndex.Proofs.Table.Run
import OrderedIndex.Proofs.Table.Drift
import OrderedIndex.Proofs.Table.Truncation
import OrderedIndex.Proofs.Table.Insert
import OrderedIndex.Proofs.Table.Creation
import OrderedIndex.Proofs.Table.Scan
import OrderedIndex.Proofs.Table.Effect
import OrderedIndex.Proofs.Table.Naming
import OrderedIndex.Proofs.Table.View
import OrderedIndex.Proofs.Table.Placement
import OrderedIndex.Proofs.Table.Renaming
import OrderedIndex.Proofs.Database
import OrderedIndex.Proofs.Table.History
import OrderedIndex.Proofs.Table.RowIds
import OrderedIndex.Proofs.Table.Listing
import OrderedIndex.Proofs.Table.Hosted
import OrderedIndex.Proofs.Table.Reopening
import OrderedIndex.Proofs.Check.People
import OrderedIndex.Proofs.Check.Shadow
import OrderedIndex.Proofs.Check.Workload
