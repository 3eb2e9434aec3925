import ObjectGraph.Arena.Basic
import ObjectGraph.Arena.Words
import ObjectGraph.Proofs.Arena.Calls
import ObjectGraph.Proofs.Overlay.Calls
import ObjectGraph.History.LinkedDraft
import ObjectGraph.Proofs.History.RoundTrip
import ObjectGraph.Proofs.History.ReadBack
import ObjectGraph.Proofs.Database.FailedEdits
import ObjectGraph.Proofs.Database.SingleWriter
import ObjectGraph.Proofs.Database.TextQueries
import ObjectGraph.Proofs.Workspace.ReadYourWrites
import ObjectGraph.Proofs.Search.ValueOrder
import ObjectGraph.Proofs.Database.RangeQueries
import ObjectGraph.Proofs.Graph.Machine
import ObjectGraph.Proofs.Session.Refinement
import ObjectGraph.Proofs.History.Draft
import ObjectGraph.Proofs.History.Record
import ObjectGraph.Proofs.History.Replay
import ObjectGraph.Proofs.History.CommitId
import ObjectGraph.Proofs.History.Store
import ObjectGraph.Proofs.Session.Recording
import ObjectGraph.Proofs.Database.Equipment
import ObjectGraph.Proofs.Database.Chronicle
import ObjectGraph.Proofs.Session.Enumeration
import ObjectGraph.Proofs.Schema.Construction
import ObjectGraph.Proofs.Session.Calls
import ObjectGraph.Proofs.Database.Refinement
import ObjectGraph.Proofs.History.Confinement
import ObjectGraph.Proofs.Database.FailedCommits
import ObjectGraph.Proofs.Database.Recreation
import ObjectGraph.Proofs.Database.Reopening
import ObjectGraph.Proofs.History.Archive
import ObjectGraph.Proofs.History.Blocks
import ObjectGraph.Proofs.History.CommitSequence
import ObjectGraph.Proofs.Session.Filing
import ObjectGraph.Proofs.Session.Mirroring
import ObjectGraph.Proofs.Database.Lifetimes
import ObjectGraph.Proofs.Database.Mirroring
import ObjectGraph.Proofs.Search.TotalOrder
import ObjectGraph.Proofs.Storage.Ledger
import ObjectGraph.History.Reader
import ObjectGraph.Proofs.History.Reader
import ObjectGraph.Proofs.History.Walks
import ObjectGraph.Proofs.History.CommitSuccessor
import ObjectGraph.Proofs.Search.Intrusions
import ObjectGraph.Proofs.Search.Collapsing
import ObjectGraph.Proofs.Workspace.Changes
import ObjectGraph.Proofs.Search.EditDistance
import ObjectGraph.Proofs.Schema.Ancestry
import ObjectGraph.Proofs.Session.Scan
import ObjectGraph.Proofs.Database.Restoring
import ObjectGraph.Proofs.Session.ScanOrder
import ObjectGraph.Overlay.Nodes
import ObjectGraph.Proofs.Overlay.Shape
import ObjectGraph.Overlay.LinkedCursor
import ObjectGraph.Proofs.Overlay.LinkedCursor
import ObjectGraph.Proofs.Database.Reinstallation
