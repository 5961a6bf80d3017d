import Marshal.Lib.System
import Marshal.Lib.Separator
import Marshal.Lib.Table
import Marshal.Lib.Growing
import Marshal.Lib.RingBuffer
import Marshal.Lib.Grouping
import Marshal.Lib.Watermark
import Marshal.Lib.Noninterference
import Marshal.Proto
import Marshal.MetricStore
import Marshal.LogStore
import Marshal.Logs
import Marshal.Server.Stores
import Marshal.Server.Ingest
import Marshal.Server.History
import Marshal.Lib.Following
import Marshal.Server.Follow
import Marshal.Server.Isolation
import Marshal.Server.Session
import Marshal.Server.SessionInvariant
import Marshal.Server.SessionProofs
import Marshal.Server.Broker
import Marshal.Server.Auth
import Marshal.Server.Registry
import Marshal.Server.Connect
import Marshal.Server.Identity
import Marshal.Server.Teardown
import Marshal.Server.Liveness
import Marshal.Fleet.Client
import Marshal.Server.Handshake
import Marshal.Server.Tokens
import Marshal.Server.Enrollment
import Marshal.Server.AuthStore
import Marshal.Server.Credentials
import Marshal.Server.AuthSteps
import Marshal.Server.Revocation
import Marshal.Server.AuthAtomic
import Marshal.Fleet.Shipping
import Marshal.Fleet.Prefixes
import Marshal.Fleet.Delivery
import Marshal.Fleet.LogShipping
import Marshal.Fleet.LogDelivery
import Marshal.Lib.StampedCopy
import Marshal.Lib.Streak
import Marshal.Config
import Marshal.Supervisor.Lifecycle
import Marshal.Supervisor.CrashLoop
import Marshal.Supervisor.RestartCount
import Marshal.Daemon.Selector
import Marshal.Daemon.Manager
import Marshal.Daemon.Steps
import Marshal.Notify.Model
import Marshal.Notify.Detector
import Marshal.Daemon.Representation
import Marshal.Daemon.Reload
import Marshal.Daemon.Slots
import Marshal.Daemon.Single
import Marshal.Daemon.SingleProcess
import Marshal.Daemon.Plans
import Marshal.Daemon.Focus
import Marshal.Daemon.Addressing
import Marshal.Daemon.Run
import Marshal.Daemon.Shutdown
import Marshal.Lib.Decimal
import Marshal.Lib.Json
import Marshal.Lib.FilePath
import Marshal.Deploy.Disk
import Marshal.Deploy.Browse
import Marshal.Deploy.Deployer
import Marshal.Deploy.Names
import Marshal.Duration
import Marshal.Store
import Marshal.Memguard
import Marshal.Ratelimit
import Marshal.Ratelimit.Streaks
import Marshal.Ratelimit.Requests
import Marshal.Lib.Expiring
import Marshal.Dashboard.Sessions
import Marshal.Dashboard.Login
import Marshal.Dashboard.Stamps
import Marshal.Ackstore
import Marshal.Errsig
import Marshal.Errsig.Totals
import Marshal.Errsig.Seen
import Marshal.Dashboard.Errors
import Marshal.Dashboard.Recurrences
import Marshal.Daemon.Command
import Marshal.Daemon.Fleet
import Marshal.Daemon.FleetSupervisor
import Marshal.Lib.Cooldown
import Marshal.Lib.Ledger
import Marshal.Notify.Coalesce
import Marshal.Notify.Flow
import Marshal.Notify.Dispatcher
import Marshal.Notify.Refires
import Marshal.Notify.Transitions
import Marshal.Notify.Recovery
import Marshal.Daemon.Deletion
import Marshal.Lib.BusyFlag
import Marshal.Deploy.Jobs
import Marshal.Deploy.Exclusion
import Marshal.Deploy.Retry
import Marshal.Config.Prepare
import Marshal.Daemon.Convert
import Marshal.Daemon.Service
import Marshal.Daemon.Tables
import Marshal.Lib.Keyed
import Marshal.Daemon.Tracking
import Marshal.Daemon.SinkPolicies
import Marshal.Daemon.SinkRuns
import Marshal.Daemon.Sinks
import Marshal.Lib.WriteBehind
import Marshal.Daemon.Saving
import Marshal.Lib.WriteThrough
import Marshal.Credstore
import Marshal.Notify.Store
import Marshal.Saves
import Marshal.Deploy.Confine
import Marshal.Lib.Crossing
import Marshal.Deploy.GitGuard
import Marshal.Logs.Followers
import Marshal.Logs.Backfill
import Marshal.Lib.WorkTree
import Marshal.Deploy.Mutate
import Marshal.Deploy.Rollback
import Marshal.Lib.Utf8
import Marshal.Dashboard.Files
import Marshal.Dashboard.Resave
import Marshal.Config.EnvFile
import Marshal.Pm2.Convert
import Marshal.Pm2.Env
import Marshal.Lib.InOrder
import Marshal.Pm2.Normalize
import Marshal.Pm2.Import
import Marshal.Memguard.Check
import Marshal.Memguard.Sustained
import Marshal.Lib.Trim
import Marshal.Config.ByteSize
import Marshal.Daemon.SpecTrip
import Marshal.Lib.Tail
import Marshal.Daemon.LogBackfill
import Marshal.Lib.Lines
import Marshal.Pm2.DotEnv
import Marshal.Lib.Blocks
import Marshal.Logs.Writes
import Marshal.Lib.Repeats
import Marshal.Logs.FileBackfill
import Marshal.Supervisor.Online
import Marshal.Daemon.Housed
import Marshal.Daemon.Rolling
import Marshal.Server.LogTail
import Marshal.LogStore.Search
import Marshal.MetricStore.Merge
import Marshal.Ratelimit.Backoff
import Marshal.Ratelimit.PerIp
import Marshal.Lib.Url
import Marshal.Lib.Clean
import Marshal.Deploy.Source
import Marshal.Lib.JsonText
import Marshal.Lib.Rfc3339
import Marshal.Audit
import Marshal.Lib.Matching
import Marshal.Errsig.Numbers
import Marshal.Dashboard.HostKey
import Marshal.Lib.Replacing
import Marshal.Lib.Language
import Marshal.Errsig.Rewrites
import Marshal.Errsig.Settled
import Marshal.Errsig.Leftover
import Marshal.Supervisor.Backoff
import Marshal.Logs.Ring
import Marshal.Lib.Shell
import Marshal.Startup
import Marshal.Startup.Display
import Marshal.Lib.UnitFile
import Marshal.Lib.UnitValue
import Marshal.Startup.Systemd
import Marshal.Lib.Chars
import Marshal.Errsig.Traced
import Marshal.Errsig.Lowered
import Marshal.Errsig.Stable
import Marshal.Notify.Routing
import Marshal.Notify.Delivery
import Marshal.Notify.Delivered
import Marshal.Notify.Fanout
import Marshal.Server.MetricHistory
import Marshal.Lib.Base64
import Marshal.Secretbox
import Marshal.Notify.Secrets
import Marshal.Server.Vault
import Marshal.Lib.Xml
import Marshal.Startup.Launchd
import Marshal.Lib.ServeMux
import Marshal.Dashboard.Mux
import Marshal.Dashboard.Routes
