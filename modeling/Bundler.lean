import Bundler.Build.ByteSettings
import Bundler.Build.Compilation
import Bundler.Build.Compiler
import Bundler.Build.Error
import Bundler.Build.Factories
import Bundler.Build.Hook
import Bundler.Build.Pages
import Bundler.Build.Plugin
import Bundler.Build.Registry
import Bundler.Build.Report
import Bundler.Build.Settings
import Bundler.Chunk.Basic
import Bundler.Chunk.Loading
import Bundler.Command.Assets
import Bundler.Command.Failure
import Bundler.Command.Invocation
import Bundler.Command.Run
import Bundler.Config.Basic
import Bundler.Config.Codec
import Bundler.Config.Discovery
import Bundler.Config.Error
import Bundler.Config.Overrides
import Bundler.Config.Profile
import Bundler.Config.Schema
import Bundler.Config.Variable
import Bundler.Decimal.Places
import Bundler.Decimal.Shortest
import Bundler.Files.Basic
import Bundler.Files.Disk
import Bundler.Files.Memory
import Bundler.GraphError
import Bundler.Html.Template
import Bundler.Json.Basic
import Bundler.Json.Decode
import Bundler.Json.Parser
import Bundler.Json.Printer
import Bundler.Keys
import Bundler.Main
import Bundler.Merge.BucketQueue
import Bundler.Merge.Buckets
import Bundler.Merge.Candidate
import Bundler.Module.Basic
import Bundler.Module.Graph
import Bundler.Module.Roots
import Bundler.Ordered.Map
import Bundler.Ordered.NameMap
import Bundler.Ordered.NameSet
import Bundler.Ordered.Set
import Bundler.Ordered.Walk
import Bundler.Placement.Basic
import Bundler.Placement.Merge
import Bundler.Placement.Queries
import Bundler.Plan.Basic
import Bundler.Plan.Limit
import Bundler.Size
import Bundler.Terminal.Console
import Bundler.Terminal.Measure
import Bundler.Terminal.Messages
import Bundler.Terminal.Summary
import Bundler.Text.Blank
import Bundler.Text.BytePath
import Bundler.Text.CaseTable
import Bundler.Text.Hidden
import Bundler.Text.LowerCase
import Bundler.Text.Path
import Bundler.Text.Quoted
import Bundler.Text.Search
import Bundler.Text.Utf8
import Bundler.Toml.Date
import Bundler.Toml.Document
import Bundler.Toml.Edition
import Bundler.Toml.Reading
import Bundler.Toml.Scalar
import Bundler.Proofs.Actions
import Bundler.Proofs.Additions
import Bundler.Proofs.Availability
import Bundler.Proofs.BothSides
import Bundler.Proofs.BreadthFirst
import Bundler.Proofs.BucketQueue
import Bundler.Proofs.Buckets
import Bundler.Proofs.BytePaths
import Bundler.Proofs.Calls
import Bundler.Proofs.Candidates
import Bundler.Proofs.ChosenAgain
import Bundler.Proofs.ChunkGroup
import Bundler.Proofs.ChunkIds
import Bundler.Proofs.ChunkOrder
import Bundler.Proofs.ComponentRoots
import Bundler.Proofs.Consistent
import Bundler.Proofs.DeclaredPlugins
import Bundler.Proofs.DeepOverlay
import Bundler.Proofs.Dependencies
import Bundler.Proofs.Detachable
import Bundler.Proofs.DistinctKeys
import Bundler.Proofs.EntryChunks
import Bundler.Proofs.EntryModules
import Bundler.Proofs.EntryPaths
import Bundler.Proofs.Entrypoints
import Bundler.Proofs.Escaping
import Bundler.Proofs.ExactSizes
import Bundler.Proofs.GroupEdits
import Bundler.Proofs.Growth
import Bundler.Proofs.Joined
import Bundler.Proofs.Layers
import Bundler.Proofs.Lifecycle
import Bundler.Proofs.LimitRound
import Bundler.Proofs.LimitRun
import Bundler.Proofs.LimitStart
import Bundler.Proofs.MergeOrder
import Bundler.Proofs.MergePartition
import Bundler.Proofs.Merged
import Bundler.Proofs.ModuleOrder
import Bundler.Proofs.Occurrences
import Bundler.Proofs.OptimizeLoop
import Bundler.Proofs.OrderedMaps
import Bundler.Proofs.Overlay
import Bundler.Proofs.Pages
import Bundler.Proofs.PassKeeps
import Bundler.Proofs.PassedOver
import Bundler.Proofs.Paths
import Bundler.Proofs.PlainBuild
import Bundler.Proofs.PlainSet
import Bundler.Proofs.ProfileContext
import Bundler.Proofs.Profiles
import Bundler.Proofs.RecordParts
import Bundler.Proofs.References
import Bundler.Proofs.Removals
import Bundler.Proofs.Reordered
import Bundler.Proofs.RepeatedAdditions
import Bundler.Proofs.Results
import Bundler.Proofs.Roots
import Bundler.Proofs.RoundTrip
import Bundler.Proofs.Runtimes
import Bundler.Proofs.Savings
import Bundler.Proofs.Settling
import Bundler.Proofs.SingleMerge
import Bundler.Proofs.Sizes
import Bundler.Proofs.StoredFiles
import Bundler.Proofs.TagLines
import Bundler.Proofs.Titles
import Bundler.Proofs.Utf8
import Bundler.Proofs.Walks
import Bundler.Proofs.WrittenAssets
