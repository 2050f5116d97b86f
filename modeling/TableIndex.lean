import TableIndex.Index.Visible
import TableIndex.Index.Scan
import TableIndex.Index.Summary
import TableIndex.Map.Summary
import TableIndex.Txn.Versions
import TableIndex.Value.Digest
import TableIndex.Proofs.Slot.Column
import TableIndex.Proofs.Slot.Recency
import TableIndex.Proofs.Map.Entries
import TableIndex.Proofs.Map.Chains
import TableIndex.Proofs.Map.Relinking
import TableIndex.Proofs.Map.Soundness
import TableIndex.Proofs.Map.Content
import TableIndex.Proofs.Map.Refinement
import TableIndex.Proofs.Tree.Insertion
import TableIndex.Proofs.Tree.Removal
import TableIndex.Proofs.Tree.Runs
import TableIndex.Proofs.Index.KeyOrder
import TableIndex.Proofs.Index.Content
import TableIndex.Proofs.Index.Walk
import TableIndex.Proofs.Index.Paging
import TableIndex.Proofs.Txn.Registry
import TableIndex.Proofs.Txn.Succession
import TableIndex.Proofs.Txn.Uniqueness
import TableIndex.Proofs.Tree.Verification
import TableIndex.Proofs.Index.SortedSet
import TableIndex.Proofs.Index.Search
import TableIndex.Proofs.Txn.Level
import TableIndex.Proofs.Txn.Snapshot
import TableIndex.Proofs.Txn.History
import TableIndex.Proofs.Txn.Deletions
import TableIndex.Proofs.Map.ChainRuns
import TableIndex.Proofs.Map.Verification
import TableIndex.Proofs.Map.HashChoice
import TableIndex.Proofs.Map.Load
import TableIndex.Proofs.Index.Resumption
import TableIndex.Proofs.Index.Admission
import TableIndex.Proofs.Txn.Deleters
import TableIndex.Proofs.Map.Refusals
import TableIndex.Proofs.Tree.Listing
import TableIndex.Proofs.Tree.InOrder
import TableIndex.Proofs.Tree.Ancestry
import TableIndex.Proofs.Tree.Acceptance
import TableIndex.Proofs.Map.Alignment
import TableIndex.Proofs.Map.LastTouch
import TableIndex.Proofs.Map.Renewal
import TableIndex.Proofs.Value.Digest
import TableIndex.Proofs.Index.Placement
import TableIndex.Proofs.Txn.LifeCycle
import TableIndex.Proofs.Tree.Height
import TableIndex.Proofs.Map.Acceptance
import TableIndex.Proofs.Slot.Occupancy
import TableIndex.Proofs.Tree.Navigation
import TableIndex.Proofs.Map.Enlargement
import TableIndex.Proofs.Map.IntegerKeys
