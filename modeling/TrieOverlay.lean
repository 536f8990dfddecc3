import TrieOverlay.Address
import TrieOverlay.Bulk.Draft
import TrieOverlay.Bulk.File
import TrieOverlay.Bulk.Line
import TrieOverlay.Bulk.List
import TrieOverlay.Bulk.ScratchFile
import TrieOverlay.Bulk.Split
import TrieOverlay.Command
import TrieOverlay.CommandLine
import TrieOverlay.Config
import TrieOverlay.Console
import TrieOverlay.Delivery
import TrieOverlay.Disk.FileLocks
import TrieOverlay.Disk.Path
import TrieOverlay.Disk.Volume
import TrieOverlay.Endpoint
import TrieOverlay.Entry
import TrieOverlay.Envelope
import TrieOverlay.Forms.Api
import TrieOverlay.Forms.Command
import TrieOverlay.Forms.Entry
import TrieOverlay.Forms.Input
import TrieOverlay.Forms.Output
import TrieOverlay.Holdings
import TrieOverlay.Ident
import TrieOverlay.InFlight
import TrieOverlay.Json.Basic
import TrieOverlay.Json.Printer
import TrieOverlay.Json.Record
import TrieOverlay.Json.Written
import TrieOverlay.Key
import TrieOverlay.Key.Scheme
import TrieOverlay.Listeners
import TrieOverlay.Main
import TrieOverlay.Message
import TrieOverlay.Naming
import TrieOverlay.Network
import TrieOverlay.Node.Basic
import TrieOverlay.Node.Changes
import TrieOverlay.Node.Cycle
import TrieOverlay.Node.Service
import TrieOverlay.Operation
import TrieOverlay.Partition
import TrieOverlay.Peer
import TrieOverlay.Proofs.Bulk.AsList
import TrieOverlay.Proofs.Bulk.Calls
import TrieOverlay.Proofs.Bulk.Content
import TrieOverlay.Proofs.Bulk.Faults
import TrieOverlay.Proofs.Bulk.File
import TrieOverlay.Proofs.Bulk.Line
import TrieOverlay.Proofs.Bulk.List
import TrieOverlay.Proofs.Bulk.Neighbours
import TrieOverlay.Proofs.Bulk.PassingOn
import TrieOverlay.Proofs.Bulk.Portions
import TrieOverlay.Proofs.Bulk.Reading
import TrieOverlay.Proofs.Bulk.Recovery
import TrieOverlay.Proofs.Bulk.RoundTrip
import TrieOverlay.Proofs.Bulk.ScratchFile
import TrieOverlay.Proofs.Bulk.Shelf
import TrieOverlay.Proofs.Bulk.Split
import TrieOverlay.Proofs.Bulk.Streaming
import TrieOverlay.Proofs.Bulk.Unhindered
import TrieOverlay.Proofs.Delivery
import TrieOverlay.Proofs.Disk.Faults
import TrieOverlay.Proofs.Disk.FileLocks
import TrieOverlay.Proofs.Disk.Tree
import TrieOverlay.Proofs.Disk.Volume
import TrieOverlay.Proofs.Envelope
import TrieOverlay.Proofs.Ident
import TrieOverlay.Proofs.InFlight
import TrieOverlay.Proofs.Json.Parse
import TrieOverlay.Proofs.Json.Record
import TrieOverlay.Proofs.Json.Scan
import TrieOverlay.Proofs.Key.Binary
import TrieOverlay.Proofs.Mesh.Basic
import TrieOverlay.Proofs.Mesh.Guard
import TrieOverlay.Proofs.Mesh.HandOff
import TrieOverlay.Proofs.Mesh.Reserved
import TrieOverlay.Proofs.Mesh.Shift
import TrieOverlay.Proofs.Mesh.Steps
import TrieOverlay.Proofs.Node.Chores
import TrieOverlay.Proofs.Node.Courses
import TrieOverlay.Proofs.Node.Custody
import TrieOverlay.Proofs.Node.Deletions
import TrieOverlay.Proofs.Node.Delivery
import TrieOverlay.Proofs.Node.Desk
import TrieOverlay.Proofs.Node.Draining
import TrieOverlay.Proofs.Node.Duties
import TrieOverlay.Proofs.Node.Engines
import TrieOverlay.Proofs.Node.Frame
import TrieOverlay.Proofs.Node.HandingOff
import TrieOverlay.Proofs.Node.Hops
import TrieOverlay.Proofs.Node.Independence
import TrieOverlay.Proofs.Node.Inputs
import TrieOverlay.Proofs.Node.Inventory
import TrieOverlay.Proofs.Node.Jobs
import TrieOverlay.Proofs.Node.Opening
import TrieOverlay.Proofs.Node.Overtaken
import TrieOverlay.Proofs.Node.Pending
import TrieOverlay.Proofs.Node.Queueing
import TrieOverlay.Proofs.Node.Receiving
import TrieOverlay.Proofs.Node.Record
import TrieOverlay.Proofs.Node.Replicas
import TrieOverlay.Proofs.Node.Rest
import TrieOverlay.Proofs.Node.Revision
import TrieOverlay.Proofs.Node.Runs
import TrieOverlay.Proofs.Node.ScratchFiles
import TrieOverlay.Proofs.Node.Sharing
import TrieOverlay.Proofs.Node.Shelf
import TrieOverlay.Proofs.Node.Steps
import TrieOverlay.Proofs.Node.Substance
import TrieOverlay.Proofs.Node.Transfer
import TrieOverlay.Proofs.Node.View
import TrieOverlay.Proofs.Partition
import TrieOverlay.Proofs.Routing.Announcements
import TrieOverlay.Proofs.Routing.Filing
import TrieOverlay.Proofs.Routing.Forwarding
import TrieOverlay.Proofs.Routing.Ownership
import TrieOverlay.Proofs.Routing.Table
import TrieOverlay.Proofs.Signature
import TrieOverlay.Proofs.Store
import TrieOverlay.Proofs.Store.Consistency
import TrieOverlay.Proofs.Store.Deletions
import TrieOverlay.Proofs.Store.Edits
import TrieOverlay.Proofs.Store.Freshness
import TrieOverlay.Proofs.Store.Ledger
import TrieOverlay.Proofs.Store.Maps
import TrieOverlay.Proofs.Store.Range
import TrieOverlay.Proofs.Store.Replay
import TrieOverlay.Proofs.Store.Sampling
import TrieOverlay.Proofs.Store.Updates
import TrieOverlay.Proofs.Text.Base64
import TrieOverlay.Proofs.Text.Utf8
import TrieOverlay.Proofs.Wire
import TrieOverlay.Request
import TrieOverlay.RoutingTable
import TrieOverlay.Signature
import TrieOverlay.Store
import TrieOverlay.Text.Base64
import TrieOverlay.Text.Blank
import TrieOverlay.Text.Decimal
import TrieOverlay.Text.Hex
import TrieOverlay.Text.Quoted
import TrieOverlay.Text.Unshown
import TrieOverlay.Text.Utf8
import TrieOverlay.Toml.Basic
import TrieOverlay.Toml.Parser
import TrieOverlay.Toml.Scalar
import TrieOverlay.Toml.Tree
import TrieOverlay.Trace
