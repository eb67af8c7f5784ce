import SheetPackages.Archive.Basic
import SheetPackages.Archive.Deflate
import SheetPackages.Archive.Filling
import SheetPackages.Archive.Inflate
import SheetPackages.Archive.Pieces
import SheetPackages.Archive.PrefixCode
import SheetPackages.Archive.Store
import SheetPackages.Archive.Zip
import SheetPackages.Command.Alias
import SheetPackages.Command.Arguments
import SheetPackages.Command.Basic
import SheetPackages.Command.Console
import SheetPackages.Command.Grammar
import SheetPackages.Command.Inspect
import SheetPackages.Command.Modify
import SheetPackages.Command.Program
import SheetPackages.Command.Run
import SheetPackages.Command.Session
import SheetPackages.Decimal.Shortest
import SheetPackages.Decimal.Whole
import SheetPackages.Dependency
import SheetPackages.Digest.Crc32
import SheetPackages.Digest.Hex
import SheetPackages.Digest.Integrity
import SheetPackages.Digest.Sha256
import SheetPackages.Fault
import SheetPackages.Formula.Rename
import SheetPackages.Formula.Token
import SheetPackages.Formula.Tree
import SheetPackages.Function
import SheetPackages.Index.Basic
import SheetPackages.Json.Basic
import SheetPackages.Json.Document
import SheetPackages.Json.Lexer
import SheetPackages.Json.Number
import SheetPackages.Json.Printer
import SheetPackages.Lockfile.Basic
import SheetPackages.Lockfile.Closure
import SheetPackages.Main
import SheetPackages.OrderedMap
import SheetPackages.Package
import SheetPackages.Path
import SheetPackages.Plan.Basic
import SheetPackages.Plan.Batch
import SheetPackages.Plan.Checkout
import SheetPackages.Plan.Install
import SheetPackages.Plan.Removal
import SheetPackages.Plan.Selection
import SheetPackages.Plan.Supply
import SheetPackages.Project
import SheetPackages.Proofs.Archive.Containers
import SheetPackages.Proofs.Archive.Filling
import SheetPackages.Proofs.Archive.Keeping
import SheetPackages.Proofs.Archive.Packing
import SheetPackages.Proofs.Archive.WriteOnce
import SheetPackages.Proofs.Arrival
import SheetPackages.Proofs.Command.Answers
import SheetPackages.Proofs.Decimal.Digits
import SheetPackages.Proofs.Declarations
import SheetPackages.Proofs.Formula.Capture
import SheetPackages.Proofs.Formula.Inversion
import SheetPackages.Proofs.Formula.Leaves
import SheetPackages.Proofs.Formula.Lexing
import SheetPackages.Proofs.Formula.Lookahead
import SheetPackages.Proofs.Formula.Merging
import SheetPackages.Proofs.Formula.Parameters
import SheetPackages.Proofs.Formula.Reading
import SheetPackages.Proofs.Formula.Renaming
import SheetPackages.Proofs.Formula.Respelling
import SheetPackages.Proofs.Formula.RoundTrip
import SheetPackages.Proofs.Formula.Shape
import SheetPackages.Proofs.Formula.Sites
import SheetPackages.Proofs.Formula.Slices
import SheetPackages.Proofs.Interruption
import SheetPackages.Proofs.Json.Reading
import SheetPackages.Proofs.Json.Values
import SheetPackages.Proofs.Json.Written
import SheetPackages.Proofs.Lockfile.Closure
import SheetPackages.Proofs.Lockfile.Edges
import SheetPackages.Proofs.Lockfile.FirstOwners
import SheetPackages.Proofs.Lockfile.Pruning
import SheetPackages.Proofs.Lockfile.Rounds
import SheetPackages.Proofs.Ownership
import SheetPackages.Proofs.Path.Locations
import SheetPackages.Proofs.Path.Names
import SheetPackages.Proofs.Path.Safety
import SheetPackages.Proofs.Plan.Batch
import SheetPackages.Proofs.Plan.Carrying
import SheetPackages.Proofs.Plan.Collisions
import SheetPackages.Proofs.Plan.Completions
import SheetPackages.Proofs.Plan.Coverage
import SheetPackages.Proofs.Plan.Opening
import SheetPackages.Proofs.Plan.Pinning
import SheetPackages.Proofs.Plan.Releases
import SheetPackages.Proofs.Plan.Removing
import SheetPackages.Proofs.Plan.Rewriting
import SheetPackages.Proofs.Plan.Sealing
import SheetPackages.Proofs.Plan.Selection
import SheetPackages.Proofs.Plan.Shadowing
import SheetPackages.Proofs.Plan.Steady
import SheetPackages.Proofs.Plan.Targets
import SheetPackages.Proofs.Plan.Unpacking
import SheetPackages.Proofs.Project.Editing
import SheetPackages.Proofs.Project.Persistence
import SheetPackages.Proofs.Project.Repeating
import SheetPackages.Proofs.Project.Upserting
import SheetPackages.Proofs.Publication
import SheetPackages.Proofs.Registry.Agreement
import SheetPackages.Proofs.Registry.Confinement
import SheetPackages.Proofs.Registry.Directory
import SheetPackages.Proofs.Registry.Loading
import SheetPackages.Proofs.Registry.Lookup
import SheetPackages.Proofs.Registry.Reloading
import SheetPackages.Proofs.Registry.Requests
import SheetPackages.Proofs.Registry.Saving
import SheetPackages.Proofs.Reinstallation
import SheetPackages.Proofs.Repetition
import SheetPackages.Proofs.Resolution.Candidates
import SheetPackages.Proofs.Resolution.Completeness
import SheetPackages.Proofs.Resolution.Conflicts
import SheetPackages.Proofs.Resolution.Depth
import SheetPackages.Proofs.Resolution.Exploration
import SheetPackages.Proofs.Resolution.Guidance
import SheetPackages.Proofs.Resolution.Limits
import SheetPackages.Proofs.Resolution.Offers
import SheetPackages.Proofs.Resolution.Placement
import SheetPackages.Proofs.Resolution.Preference
import SheetPackages.Proofs.Resolution.Rearrangement
import SheetPackages.Proofs.Resolution.Relisting
import SheetPackages.Proofs.Resolution.Remembering
import SheetPackages.Proofs.Resolution.Requirements
import SheetPackages.Proofs.Resolution.Rounds
import SheetPackages.Proofs.Resolution.Soundness
import SheetPackages.Proofs.Resolution.Transparency
import SheetPackages.Proofs.Runs
import SheetPackages.Proofs.Text.Cutting
import SheetPackages.Proofs.Text.Trimming
import SheetPackages.Proofs.Version.Attachment
import SheetPackages.Proofs.Version.Clauses
import SheetPackages.Proofs.Version.Comparators
import SheetPackages.Proofs.Version.Exactness
import SheetPackages.Proofs.Version.Grammar
import SheetPackages.Proofs.Version.Intervals
import SheetPackages.Proofs.Version.Pools
import SheetPackages.Proofs.Version.Preorder
import SheetPackages.Proofs.Version.Semantic
import SheetPackages.Proofs.Version.Spelling
import SheetPackages.Proofs.Workbook.Entries
import SheetPackages.Proofs.Workbook.Fragments
import SheetPackages.Proofs.Workbook.Grid
import SheetPackages.Proofs.Workbook.Interchange
import SheetPackages.Proofs.Workbook.Lists
import SheetPackages.Proofs.Workbook.Records
import SheetPackages.Proofs.World.Dates
import SheetPackages.Proofs.World.Erasing
import SheetPackages.Proofs.World.Growing
import SheetPackages.Proofs.World.Observing
import SheetPackages.Proofs.World.Replacing
import SheetPackages.Proofs.World.Sequences
import SheetPackages.Registry.Address
import SheetPackages.Registry.Basic
import SheetPackages.Registry.IndexCache
import SheetPackages.Registry.Status
import SheetPackages.Resolution.Provider
import SheetPackages.Resolution.Search
import SheetPackages.Settings.Basic
import SheetPackages.Settings.KeyValues
import SheetPackages.Settings.Layer
import SheetPackages.Settings.Sources
import SheetPackages.Text.Ascii
import SheetPackages.Text.Blank
import SheetPackages.Text.Cut
import SheetPackages.Text.Hexadecimal
import SheetPackages.Toml.Basic
import SheetPackages.Toml.Document
import SheetPackages.Toml.Quoted
import SheetPackages.Toml.Scalar
import SheetPackages.Version.Basic
import SheetPackages.Version.Candidates
import SheetPackages.Version.Comparator
import SheetPackages.Version.Identifier
import SheetPackages.Version.Partial
import SheetPackages.Version.Range
import SheetPackages.Workbook.Authoring
import SheetPackages.Workbook.File
import SheetPackages.Workbook.Grid
import SheetPackages.Workbook.Records
import SheetPackages.Workbook.State
import SheetPackages.World.Basic
import SheetPackages.World.Files
import SheetPackages.World.Instant
import SheetPackages.World.Span
import SheetPackages.World.Web
