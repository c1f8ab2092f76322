import OpenwrtMcp.EffectSearch
import OpenwrtMcp.ArchiveGrammar
import OpenwrtMcp.Programs
import OpenwrtMcp.SealPorts
import OpenwrtMcp.Sealing
import OpenwrtMcp.SealLaws
import OpenwrtMcp.SealPublish
import OpenwrtMcp.BackupBinding
import OpenwrtMcp.RecordStore
import OpenwrtMcp.RecordLaws
import OpenwrtMcp.Json
import OpenwrtMcp.ProjectionSchema
import OpenwrtMcp.Projection
import OpenwrtMcp.ProjectionBudget
import OpenwrtMcp.ProjectionShape
import OpenwrtMcp.ProjectionRuns
import OpenwrtMcp.ProjectionRows
import OpenwrtMcp.ProjectionResults
import OpenwrtMcp.Metered
import OpenwrtMcp.ProjectionBytes
import OpenwrtMcp.ProjectionPaths
import OpenwrtMcp.ProjectionSelect
import OpenwrtMcp.SealCleanup
import OpenwrtMcp.SealGuard
import OpenwrtMcp.RecordFormat
import OpenwrtMcp.RecordScan
import OpenwrtMcp.RecordRetrieval
import OpenwrtMcp.GzipStream
import OpenwrtMcp.SealCapture
import OpenwrtMcp.SealInvariant
import OpenwrtMcp.CaptureSteps
import OpenwrtMcp.CaptureTruth
import OpenwrtMcp.GzipLaws
import OpenwrtMcp.Restore
import OpenwrtMcp.RestoreLaws
import OpenwrtMcp.RecordLanguage
import OpenwrtMcp.SealLatch
import OpenwrtMcp.Maps
import OpenwrtMcp.Operation
import OpenwrtMcp.Capability
import OpenwrtMcp.OperationCheck
import OpenwrtMcp.Catalog
import OpenwrtMcp.JsonText
import OpenwrtMcp.NormalizedResult
import OpenwrtMcp.ResultEnvelope
import OpenwrtMcp.Packages
import OpenwrtMcp.PackagePages
import OpenwrtMcp.LegacyProjection
import OpenwrtMcp.Prepare
import OpenwrtMcp.UciLaws
import OpenwrtMcp.JsonSchema
import OpenwrtMcp.InputSchema
import OpenwrtMcp.InputLaws
import OpenwrtMcp.CheckedBytes
import OpenwrtMcp.Utf8
import OpenwrtMcp.ZipArchive
import OpenwrtMcp.ZipRecords
import OpenwrtMcp.ZipLaws
import OpenwrtMcp.ZipEnd
import OpenwrtMcp.GzipHeader
import OpenwrtMcp.GzipMember
import OpenwrtMcp.Opkg
import OpenwrtMcp.OpkgGrammar
import OpenwrtMcp.OpkgLaws
import OpenwrtMcp.JsonDecoder
import OpenwrtMcp.ActionResponse
import OpenwrtMcp.LegacyLaws
import OpenwrtMcp.PrivateLog
import OpenwrtMcp.PrivateLogLaws
import OpenwrtMcp.MessageLoops
import OpenwrtMcp.SessionLaws
import OpenwrtMcp.ArchiveCapture
import OpenwrtMcp.ArchiveCaptureLaws
import OpenwrtMcp.Describe
import OpenwrtMcp.PackageCursors
import OpenwrtMcp.ManifestLaws
import OpenwrtMcp.PointerLaws
import OpenwrtMcp.Prefixes
import OpenwrtMcp.PathLaws
import OpenwrtMcp.HeaderLaws
import OpenwrtMcp.Framing
import OpenwrtMcp.AgeStreamLaws
import OpenwrtMcp.AgeProviderLaws
import OpenwrtMcp.AgeLimitLaws
import OpenwrtMcp.LengthPrefixed
import OpenwrtMcp.Provenance
import OpenwrtMcp.BoundedSearch
import OpenwrtMcp.Expansions
import OpenwrtMcp.LittleEndian
import OpenwrtMcp.SecurityDescriptor
import OpenwrtMcp.DescriptorLaws
import OpenwrtMcp.DescriptorVerdicts
import OpenwrtMcp.LogDescriptor
import OpenwrtMcp.DescribeRows
import OpenwrtMcp.DescribeLaws
import OpenwrtMcp.Command
import OpenwrtMcp.CommandLaws
import OpenwrtMcp.PreparedArguments
import OpenwrtMcp.ActionCommands
import OpenwrtMcp.CommandWords
import OpenwrtMcp.Protocols
import OpenwrtMcp.FallibleTasks
import OpenwrtMcp.RuntimePorts
import OpenwrtMcp.CapabilityCache
import OpenwrtMcp.Dispatcher
import OpenwrtMcp.DispatcherCalls
import OpenwrtMcp.AuditTrail
import OpenwrtMcp.RequestTrail
import OpenwrtMcp.ObservationLaws
import OpenwrtMcp.CacheInvariant
import OpenwrtMcp.DispatcherReplay
import OpenwrtMcp.DeviceCalls
import OpenwrtMcp.AuditLog
import OpenwrtMcp.AuditLatch
import OpenwrtMcp.AuditGate
