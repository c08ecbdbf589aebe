import NativeGuard.Core.Status
import NativeGuard.Data.Codes
import NativeGuard.Data.Cursor
import NativeGuard.Data.Lines
import NativeGuard.Data.Pairing
import NativeGuard.Data.Slots
import NativeGuard.Data.SortedTable
import NativeGuard.Data.BinarySearch
import NativeGuard.Data.Counter
import NativeGuard.Data.Rearranged
import NativeGuard.Data.Decimal
import NativeGuard.Data.Options
import NativeGuard.Json.Grammar
import NativeGuard.Json.Decode
import NativeGuard.Json.Scan
import NativeGuard.Json.Alike
import NativeGuard.Json.Search
import NativeGuard.Json.Site
import NativeGuard.Json.Triple
import NativeGuard.Json.Write
import NativeGuard.Json.Canonical
import NativeGuard.Io.AtomicFileWriter
import NativeGuard.Io.LineFramer
import NativeGuard.Io.InputFile
import NativeGuard.Io.CommandOutput
import NativeGuard.Protocol.Scanner
import NativeGuard.Protocol.Loops
import NativeGuard.Protocol.MemberSizes
import NativeGuard.Protocol.Nesting
import NativeGuard.Protocol.OffsetScanner
import NativeGuard.Protocol.Readers
import NativeGuard.Protocol.Collect
import NativeGuard.Protocol.Canonicalize
import NativeGuard.Protocol.CutText
import NativeGuard.Protocol.Envelope
import NativeGuard.Protocol.Extractor
import NativeGuard.Protocol.Invariants
import NativeGuard.Protocol.NestingLimit
import NativeGuard.Protocol.OffsetValues
import NativeGuard.Protocol.OffsetOutput
import NativeGuard.Protocol.OneTree
import NativeGuard.Protocol.CanonicalText
import NativeGuard.Protocol.Outcomes
import NativeGuard.Protocol.PartialEnvelope
import NativeGuard.Protocol.Pending
import NativeGuard.Protocol.ScannerContract
import NativeGuard.Protocol.BoundedOutput
import NativeGuard.Protocol.StringEscapers
import NativeGuard.Protocol.ToolInventory
import NativeGuard.Protocol.InventoryResponse
import NativeGuard.Protocol.InventoryOrder
import NativeGuard.Protocol.InventoryText
import NativeGuard.Protocol.InventoryDecodes
import NativeGuard.Protocol.ResponseAgrees
import NativeGuard.Protocol.RetainedNames
import NativeGuard.Protocol.Rewrite
import NativeGuard.Protocol.Filter
import NativeGuard.Protocol.CallPolicy
import NativeGuard.Protocol.ForwardedPrefix
import NativeGuard.Protocol.Correlation
import NativeGuard.Protocol.Acceptance
import NativeGuard.Protocol.AuditTrail
import NativeGuard.Protocol.ExtractionAgrees
import NativeGuard.Protocol.ArgumentsIgnored
import NativeGuard.Protocol.ToolsList
import NativeGuard.Protocol.GuardedInventory
import NativeGuard.Protocol.PolicyOrder
import NativeGuard.Protocol.ErrorReply
import NativeGuard.Proxy.ProxyCore
import NativeGuard.Security.Policy
import NativeGuard.Security.Fingerprint
import NativeGuard.Security.PolicyLoader
import NativeGuard.Security.EffectivePolicy
import NativeGuard.Security.PolicyGenerator
import NativeGuard.Security.AllowListOrder
import NativeGuard.Security.GeneratedPolicy
import NativeGuard.Security.InspectedPolicy
import NativeGuard.Security.NamePlaces
import NativeGuard.Security.NestingSuffices
import NativeGuard.Security.PolicyMap
import NativeGuard.Security.RaisedLimits
import NativeGuard.Security.ToolNames
import NativeGuard.Audit.AuditEvent
import NativeGuard.Audit.AuditSink
import NativeGuard.Audit.AuditLines
import NativeGuard.Audit.HealthSummary
import NativeGuard.Audit.SessionLines
import NativeGuard.Audit.HealthLog
import NativeGuard.Process.ClientMessageHandler
import NativeGuard.Process.AuditedRun
import NativeGuard.Process.Doctor
import NativeGuard.Process.Inspect
import NativeGuard.Process.IntactLines
import NativeGuard.Process.AuditHealth
import NativeGuard.Process.MessageLimit
import NativeGuard.Process.OutputBuffer
import NativeGuard.Process.Relay
import NativeGuard.Process.RelayConservation
import NativeGuard.Process.FilteredRelay
import NativeGuard.Process.RelayRoom
import NativeGuard.Process.SessionReport
import NativeGuard.Process.RelaySteps
import NativeGuard.Process.RelaySafety
import NativeGuard.Process.RelayDrain
import NativeGuard.Process.ClientSide
import NativeGuard.Process.RunOptions
import NativeGuard.Process.RunChild
import NativeGuard.Process.PolicyCreate
import NativeGuard.Process.CreatedPolicy
import NativeGuard.Process.InspectSession
import NativeGuard.Process.RunInspect
import NativeGuard.Process.InspectedTools
import NativeGuard.Process.RunRelay
import NativeGuard.Process.RunDoctor
import NativeGuard.Process.TerminateGroup
