import IndexedStore.Cursor
import IndexedStore.Disk
import IndexedStore.Tree.Lifecycle
import IndexedStore.Index.Verify
import IndexedStore.Pipeline.Ingest
import IndexedStore.Proofs.PlainMap
import IndexedStore.Proofs.Lifetime
import IndexedStore.Proofs.Pipeline
import IndexedStore.Proofs.Verification
import IndexedStore.Proofs.Population
import IndexedStore.Proofs.Catalog
import IndexedStore.Proofs.Cursor
import IndexedStore.Proofs.Reopening
import IndexedStore.Pipeline.Ring
import IndexedStore.Proofs.Ring
import IndexedStore.Proofs.Handover
import IndexedStore.Proofs.Refusals
import IndexedStore.Proofs.Isolation
import IndexedStore.Proofs.Shutdown
import IndexedStore.Proofs.Lookup
import IndexedStore.Proofs.Listing
import IndexedStore.Proofs.TableLimit
import IndexedStore.Proofs.Deletion
import IndexedStore.Proofs.Interleaving
import IndexedStore.Proofs.Opening
import IndexedStore.Proofs.Positions
import IndexedStore.Proofs.Seeking
import IndexedStore.Proofs.Windows
import IndexedStore.Proofs.Sweeping
import IndexedStore.Proofs.Populating
import IndexedStore.Proofs.Rollback
import IndexedStore.Proofs.Encoding
import IndexedStore.Proofs.Accounts
import IndexedStore.Proofs.Census
import IndexedStore.Proofs.Cutting
import IndexedStore.Proofs.Strokes
import IndexedStore.Proofs.Ledger
import IndexedStore.Proofs.Balance
