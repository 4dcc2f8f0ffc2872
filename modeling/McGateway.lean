import McGateway.ByteStrings
import McGateway.Selections
import McGateway.LexicalPaths
import McGateway.Programs
import McGateway.LinearMemory
import McGateway.FileSystem
import McGateway.LuaTables
import McGateway.LuaLiterals
import McGateway.Render
import McGateway.Commit
import McGateway.RenderLiteral
import McGateway.RenderSpec
import McGateway.CommitSteps
import McGateway.MountRoot
import McGateway.ConfigValidation
import McGateway.Reload
import McGateway.RenderValidation
import McGateway.RenderOrder
import McGateway.RenderEmission
import McGateway.CommitSafety
import McGateway.CommitPlan
import McGateway.CommitPhases
import McGateway.CommitConvergence
import McGateway.CommitPaths
import McGateway.Merges
import McGateway.Registry
import McGateway.Watcher
import McGateway.Rescans
import McGateway.RegistryViews
import McGateway.Startup
import McGateway.Debounce
import McGateway.Pipeline
import McGateway.LiveRoutes
import McGateway.ReadPath
import McGateway.ReadLaw
import McGateway.Outcomes
import McGateway.EntryViews
import McGateway.Writes
import McGateway.Routes
import McGateway.FanOut
import McGateway.WasmHost
import McGateway.HostileGuest
import McGateway.HostBuffers
import McGateway.GuestSdk
import McGateway.GuestSteps
import McGateway.Boundary
import McGateway.Ledger
import McGateway.TokenBucket
import McGateway.Exporter
import McGateway.Interference
import McGateway.LeadsTo
import McGateway.Watches
import McGateway.CommitProgress
import McGateway.Reconciler
import McGateway.GatewayProcess
import McGateway.Pod
import McGateway.StableStorage
import McGateway.Kernel
import McGateway.OsRefinement
import McGateway.Durability
import McGateway.PowerFailure
import McGateway.Handlers
import McGateway.Coherence
import McGateway.Admission
