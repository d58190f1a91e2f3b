import Overlay.Config
import Overlay.IoError
import Overlay.Path.Entry
import Overlay.Walk
import Overlay.Root.Basic
import Overlay.Root.Joined
import Overlay.Root.Memory
import Overlay.Root.Tables
import Overlay.Index.Node
import Overlay.Index.Table
import Overlay.Index.Standard
import Overlay.Index.Basic
import Overlay.Registration
import Overlay.Scan.Indexer
import Overlay.Scan.Pool
import Overlay.Scan.Run
import Overlay.ClassPath.Basic
import Overlay.ClassPath.Register
import Overlay.ClassPath.Scanning
import Overlay.ClassPath.Lookup
import Overlay.ClassPath.Validation
import Overlay.ClassPath.Metadata
import Overlay.ClassPath.Resources
import Overlay.Text.Lossy
import Overlay.Text.CodePage437
import Overlay.Archive.Checksum
import Overlay.Archive.Inflate
import Overlay.Archive.Layout
import Overlay.Archive.EndRecord
import Overlay.Archive.ExtraField
import Overlay.Archive.Directory
import Overlay.Archive.Contents
import Overlay.Archive.Tree
import Overlay.Root.Archive
import Overlay.Disk.Lexical
import Overlay.Disk.Basic
import Overlay.Root.Directory
import Overlay.World
import Overlay.Scan.Indexing
import Overlay.Proofs.Path.Rendering
import Overlay.Proofs.Path.Normal
import Overlay.Proofs.Path.Keyed
import Overlay.Proofs.Path.Canonical
import Overlay.Proofs.Path.Parsing
import Overlay.Proofs.Path.Comparing
import Overlay.Proofs.Index.Grouping
import Overlay.Proofs.Index.Table
import Overlay.Proofs.Index.Contents
import Overlay.Proofs.Index.Representations
import Overlay.Proofs.Registration
import Overlay.Proofs.Registry
import Overlay.Proofs.Disk.Lexical
import Overlay.Proofs.Disk.Normal
import Overlay.Proofs.Scan.Tasks
import Overlay.Proofs.Scan.Runs
import Overlay.Proofs.Scan.Rest
import Overlay.Proofs.Scan.Room
import Overlay.Proofs.Scan.Traversal
import Overlay.Proofs.Scan.Outcome
import Overlay.Proofs.Scan.Delivery
import Overlay.Proofs.Root.Contract
import Overlay.Proofs.Root.Directory
import Overlay.Proofs.Disk.Relative
import Overlay.Proofs.Root.Edits
import Overlay.Proofs.Root.Listing
import Overlay.Proofs.Root.Memory
import Overlay.Proofs.Archive.Forest
import Overlay.Proofs.Archive.Tree
import Overlay.Proofs.Archive.Scan
import Overlay.Proofs.Archive.Entering
import Overlay.Proofs.Archive.Visits
import Overlay.Proofs.ClassPath.Merging
import Overlay.Proofs.ClassPath.Moves
import Overlay.Proofs.ClassPath.Session
import Overlay.Proofs.ClassPath.Bookkeeping
import Overlay.Proofs.ClassPath.Honesty
import Overlay.Proofs.ClassPath.Answers
import Overlay.Proofs.ClassPath.Snapshots
import Overlay.Proofs.ClassPath.Agreement
import Overlay.Proofs.ClassPath.Lasting
import Overlay.Proofs.ClassPath.Accounts
import Overlay.Proofs.ClassPath.AtRest
import Overlay.Proofs.ClassPath.Checking
import Overlay.Proofs.ClassPath.Replay
import Overlay.Proofs.ClassPath.Registering
import Overlay.Proofs.ClassPath.Written
import Overlay.Proofs.ClassPath.Chronicle
import Overlay.Proofs.ClassPath.Joined
import Overlay.Proofs.Index.Marks
import Overlay.Proofs.ClassPath.Mismatch
import Overlay.Proofs.Index.Shape
import Overlay.Proofs.Index.Capacity
import Overlay.Proofs.Scan.Streams
import Overlay.Proofs.Index.Reports
import Overlay.Proofs.ClassPath.Reports
import Overlay.Proofs.Text.Trimming
import Overlay.Proofs.Config
import Overlay.Proofs.Index.Bucket
