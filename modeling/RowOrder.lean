import RowOrder.Value
import RowOrder.Direction
import RowOrder.Text.Case
import RowOrder.Text.Blank
import RowOrder.Text.Segments
import RowOrder.Text.Outline
import RowOrder.Schema
import RowOrder.Row
import RowOrder.SortKey
import RowOrder.Chain
import RowOrder.Event
import RowOrder.Store
import RowOrder.Catalog
import RowOrder.Query
import RowOrder.Token
import RowOrder.Descriptor.Config
import RowOrder.Descriptor.Basic
import RowOrder.Descriptor.Edit
import RowOrder.Descriptor.Apply
import RowOrder.Json.Printer
import RowOrder.Json.Reader
import RowOrder.Descriptor.ConfigText
import RowOrder.Workspace
import RowOrder.Proofs.Lookup
import RowOrder.Proofs.Text.Commas
import RowOrder.Proofs.Text.Ends
import RowOrder.Proofs.Tokens
import RowOrder.Proofs.Reading
import RowOrder.Proofs.RoundTrip
import RowOrder.Proofs.Edits
import RowOrder.Proofs.Removal
import RowOrder.Proofs.Expressible
import RowOrder.Proofs.PlainNames
import RowOrder.Proofs.EditRuns
import RowOrder.Proofs.EditPairs
import RowOrder.Proofs.ChainOrder
import RowOrder.Proofs.Arrangement
import RowOrder.Proofs.StableSorting
import RowOrder.Proofs.Derivations
import RowOrder.Proofs.Reachable
import RowOrder.Proofs.OrderingHistory
import RowOrder.Proofs.RepeatedFields
import RowOrder.Proofs.FirstKeys
import RowOrder.Proofs.Verdicts
import RowOrder.Proofs.Requests
import RowOrder.Proofs.Concatenation
import RowOrder.Proofs.Typing
import RowOrder.Proofs.Records
import RowOrder.Proofs.StoreRuns
import RowOrder.Proofs.FilledStores
import RowOrder.Proofs.Mirroring
import RowOrder.Proofs.InsertedRows
import RowOrder.Proofs.BulkInsertion
import RowOrder.Proofs.Reloading
import RowOrder.Proofs.Commands
import RowOrder.Proofs.Ledger
import RowOrder.Proofs.Views
import RowOrder.Proofs.Declarations
import RowOrder.Proofs.Variants
import RowOrder.Proofs.Surroundings
import RowOrder.Proofs.PayloadOrder
