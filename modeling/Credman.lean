import Credman.Library.OrdMap
import Credman.Library.Word
import Credman.Library.Wp
import Credman.Library.Crash
import Credman.Library.Checked
import Credman.Library.Codec
import Credman.Types
import Credman.Platform
import Credman.Generation
import Credman.Application
import Credman.Policy
import Credman.Snapshot
import Credman.Storage
import Credman.Validity
import Credman.Validation
import Credman.Reference
import Credman.Access
import Credman.Encoding
import Credman.Folding
import Credman.Compaction
import Credman.Retention
import Credman.Workflow
import Credman.Delivery
import Credman.Recovery
import Credman.Backup
import Credman.Sealing
import Credman.Ideal
import Credman.System
import Credman.Publishable
import Credman.Secrets
import Credman.Candidates
import Credman.Publication
import Credman.Entry
import Credman.Gates
import Credman.Reconciliation
import Credman.Operation
import Credman.Broker
import Credman.Brokered
import Credman.Lasting
import Credman.Settlement
import Credman.Handover
import Credman.Events
import Credman.Staging
import Credman.Law
import Credman.Mirror
import Credman.Lineage
import Credman.Growth
import Credman.Answers
import Credman.Restoration
import Credman.Pinned
import Credman.Refusals
import Credman.Visibility
import Credman.Outcomes
import Credman.Thaw
import Credman.Disagreements
import Credman.Cancellation
import Credman.Library.Runs
import Credman.Sessions
import Credman.Attachment
import Credman.Library.Json
import Credman.StrictJson
import Credman.JsonText
import Credman.Framing
import Credman.Channel
import Credman.Dispatch
import Credman.Frontend
import Credman.Work
import Credman.Correspondence
import Credman.Revocation
import Credman.Sampling
import Credman.AdminView
import Credman.Transition
import Credman.Library.Guarded
import Credman.Overflow
import Credman.Library.Inet
import Credman.Library.Uri
import Credman.Library.ConfigFile
import Credman.Https
import Credman.Origin
import Credman.Curl
import Credman.Paging
import Credman.Fixpoint
import Credman.Capacity
import Credman.Lines
import Credman.GateFormat
import Credman.Library.Buffer
import Credman.Assembly
import Credman.AuditPages
import Credman.Timekeeping
import Credman.EffectiveTime
import Credman.CrashSafety
import Credman.Undisturbed
import Credman.Resumption
import Credman.Interruption
import Credman.Workload
import Credman.Listing
import Credman.Supervisor
import Credman.Turns
import Credman.Peers
import Credman.Boundary
import Credman.Plaintext
import Credman.Consumer
import Credman.Confinement
import Credman.Updates
import Credman.Registration
import Credman.StandDown
import Credman.Transfer
import Credman.Litter
import Credman.Faultless
