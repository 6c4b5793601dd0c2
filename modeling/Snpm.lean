import Snpm.Library.Text
import Snpm.Library.OrderedMap
import Snpm.Library.Framing
import Snpm.Library.Digest
import Snpm.Library.MemoWalk
import Snpm.Library.LinkTree
import Snpm.Error
import Snpm.Semver
import Snpm.Project
import Snpm.Resolve.Types
import Snpm.Lockfile
import Snpm.Linker.Peers
import Snpm.Linker.EntryHash
import Snpm.Linker.EntryIdentity
import Snpm.Linker.Locality
import Snpm.Linker.VirtualStore
import Snpm.Linker.Layout
import Snpm.Linker.Link
import Snpm.Resolve.Query
import Snpm.Install.WorkspaceSpec
import Snpm.Install.Files
import Snpm.Install.Integrity
import Snpm.Install.LayoutHash
import Snpm.Install.InstallState
import Snpm.Install.Scenario
import Snpm.Install.HotSoundness
import Snpm.Install.Manifest
import Snpm.Install.WorkspaceRoots
import Snpm.Install.WorkspacePlan
import Snpm.Install.FrozenWorkspace
import Snpm.Lockfile.RoundTrip
import Snpm.Lockfile.Sidecar
import Snpm.Resolve.Root
import Snpm.Install.RootSpecs
import Snpm.Library.KeyedFold
import Snpm.Install.RangeMerge
import Snpm.Install.WorkspaceOrder
import Snpm.Library.StackWalk
import Snpm.Resolve.Registry
import Snpm.Resolve.Source
import Snpm.Resolve.Package
import Snpm.Resolve.Tasks
import Snpm.Resolve.Complete
import Snpm.Resolve.Closed
import Snpm.Resolve.Denotes
import Snpm.Install.ProjectPlan
import Snpm.Install.ProjectInstall
import Snpm.Install.RecordedSpecs
import Snpm.Install.WorkspaceInstall
import Snpm.Install.Records
import Snpm.Install.RecordSteps
import Snpm.Install.RecordRuns
import Snpm.Install.WorkspaceLinks
import Snpm.Linker.SharedWiring
import Snpm.Library.PathText
import Snpm.Store.Naming
import Snpm.Library.FileTree
import Snpm.Store.Extract
import Snpm.Store.Integrity
import Snpm.Store.Fetch
import Snpm.Store.BlobCache
import Snpm.Store.Ensure
import Snpm.Store.EnsureRuns
import Snpm.Store.Race
import Snpm.Store.RaceInvariant
import Snpm.Library.Overrides
import Snpm.Library.TextParts
import Snpm.Config.Env
import Snpm.Config.Rc
import Snpm.Config.Runtime
import Snpm.Config.DefaultAuth
import Snpm.Config.HostKeys
import Snpm.Config.HostAuth
import Snpm.Install.LayoutCapture
import Snpm.Install.CapturedLinks
import Snpm.Protocols.GitSpec
import Snpm.Protocols.GitRepo
import Snpm.Library.TrailWalk
import Snpm.Audit.Request
import Snpm.Patch.Inventory
import Snpm.Library.Lines
import Snpm.Auth.Persistence
import Snpm.Auth.Credentials
import Snpm.Auth.SavedToken
import Snpm.Library.Json
import Snpm.Lockfile.Compat.Npm
import Snpm.Lockfile.Compat.NpmLookup
import Snpm.Lockfile.Compat.NpmWorkspace
import Snpm.Library.LineParts
import Snpm.Lockfile.Compat.Yarn
import Snpm.Lockfile.Compat.YarnFormat
import Snpm.Lockfile.Compat.YarnEdges
import Snpm.Library.JsonKeeps
import Snpm.PackageJson.Manifest
import Snpm.PackageJson.RoundTrip
import Snpm.Library.JsonTokens
import Snpm.Lockfile.Compat.BunJsonc
import Snpm.Library.FirstGreatest
import Snpm.Resolve.Select
import Snpm.Library.SeqParts
import Snpm.Resolve.Alias
import Snpm.Install.RequestedSpec
import Snpm.Library.LevelWalk
import Snpm.Lifecycle.Chunks
import Snpm.Lifecycle.ChunkOrder
import Snpm.Library.QueueWalk
import Snpm.Run.Filters
import Snpm.Run.FilterSets
import Snpm.Library.Words
import Snpm.Store.IntegrityOrder
import Snpm.Config.Expansion
import Snpm.Library.Numerals
import Snpm.Semver.Requirement
import Snpm.Semver.Partial
import Snpm.Semver.RangeText
import Snpm.Semver.Hyphen
import Snpm.Library.DirTree
import Snpm.Library.LastMatch
import Snpm.Library.NamePath
import Snpm.Pack.Ignore
import Snpm.Pack.Walk
import Snpm.Pack.ManifestFiles
import Snpm.Pack.IgnoreMeaning
import Snpm.Publish.Rewrite
import Snpm.Publish.Published
import Snpm.Resolve.AliasOrRange
import Snpm.Library.Utf8
import Snpm.Library.SingleCall
import Snpm.Resolve.PatchSpec
import Snpm.Install.ProtocolAgreement
import Snpm.Semver.Pinned
import Snpm.Install.UpdateEntry
import Snpm.Library.Wildcard
import Snpm.Why.Pattern
import Snpm.Library.ShellTokens
import Snpm.Run.Quote
import Snpm.Library.LastGreatest
import Snpm.Linker.PeerChoice
import Snpm.Library.MemoAcyclic
import Snpm.Linker.AcyclicHashes
import Snpm.Audit.PathIndex
import Snpm.Why.Index
import Snpm.Why.Paths
import Snpm.Library.Neighbours
import Snpm.Store.PackageIndex
import Snpm.Store.PersistedIndex
import Snpm.Linker.IndexedLink
import Snpm.Patch.Diff
import Snpm.Library.HeadedBlocks
import Snpm.Patch.DiffKept
import Snpm.Install.Mutations
import Snpm.Install.MutationsKept
import Snpm.Library.OrderFree
import Snpm.Lockfile.Compat.PnpmRoot
import Snpm.Lockfile.Compat.BunNested
import Snpm.Lockfile.Compat.BunBytes
import Snpm.Lockfile.Compat.NpmNearest
import Snpm.Library.LowEnds
import Snpm.Semver.Precedence
import Snpm.Semver.Overlap
import Snpm.Install.FrozenProject
import Snpm.Install.LaterFrozen
import Snpm.Library.TaggedStream
import Snpm.Library.LossyText
import Snpm.Library.DirOrder
import Snpm.Lifecycle.TreeHash
import Snpm.Install.PinnedRequest
import Snpm.Library.BrokenOff
import Snpm.Lifecycle.RestoreCache
import Snpm.Library.Spawning
import Snpm.Resolve.Asked
import Snpm.Resolve.Progress
import Snpm.Resolve.ScheduleFree
import Snpm.Resolve.SingleFlight
import Snpm.Resolve.SingleFlightSafe
import Snpm.Resolve.SingleFlightRuns
import Snpm.Cache.Metadata
import Snpm.Cache.Writers
import Snpm.Cache.WriterRuns
import Snpm.Protocols.NpmFetch
import Snpm.Protocols.FetchRuns
import Snpm.Library.DepthWalk
import Snpm.Library.Counting
import Snpm.Lifecycle.Walk
import Snpm.Lifecycle.RunJobs
import Snpm.Linker.BinRace
import Snpm.Linker.Converge
import Snpm.Library.CrashLogic
import Snpm.Library.StagedDirs
import Snpm.Switch.Ensure
