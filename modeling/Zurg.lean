import Zurg.Lib.Machine
import Zurg.Lib.History
import Zurg.Lib.SerialQueue
import Zurg.Lib.Ledger
import Zurg.Lib.Locks
import Zurg.Lib.Ownership
import Zurg.Lib.Path
import Zurg.Lib.Loop
import Zurg.Lib.Codec
import Zurg.Lib.Calendar
import Zurg.Proto
import Zurg.Grpc
import Zurg.FileSystem
import Zurg.TempFile
import Zurg.EventBus
import Zurg.EventBus.Subscriptions
import Zurg.Auth.License
import Zurg.Auth.Publish
import Zurg.Auth.Manager
import Zurg.Auth.Persist
import Zurg.Auth.Evaluate
import Zurg.Auth.Session
import Zurg.Auth.Client
import Zurg.Auth.Reactor
import Zurg.Auth.Renewal
import Zurg.Auth.Stop
import Zurg.LogOps.Parse
import Zurg.LogOps.Files
import Zurg.LogOps.Rotations
import Zurg.LogOps.Filter
import Zurg.LogOps.Confinement
import Zurg.LogOps.Sources
import Zurg.LogOps.Correct
import Zurg.LogOps.Limit
import Zurg.LogOps.RoundTrip
import Zurg.LogOps.Spelled
import Zurg.LogOps.Grammar
import Zurg.LogOps.Written
import Zurg.PcapOps
import Zurg.PcapOps.Deadline
import Zurg.PcapOps.Synthetic
import Zurg.PcapOps.Live
import Zurg.PcapOps.Generate
import Zurg.PcapOps.Sizes
import Zurg.ControlStream.Client
import Zurg.ControlStream.Moves
import Zurg.ControlStream.Delivery
import Zurg.ControlStream.FirstWrite
import Zurg.ControlStream.LateWrite
import Zurg.ControlStream.SendQueue
import Zurg.ControlStream.Unlocked
import Zurg.ControlStream.Reconnect
import Zurg.ControlStream.Stopping
import Zurg.Control.Task
import Zurg.Control.Client
import Zurg.Control.Schedule
import Zurg.Control.TaskTable
import Zurg.Control.Features
import Zurg.Control.Construct
import Zurg.Control.Reports
import Zurg.Control.AckOrder
import Zurg.Control.Drain
import Zurg.Control.Connected
import Zurg.Control.HelloFirst
import Zurg.Control.Truncation
import Zurg.Control.SerialOrder
import Zurg.Control.AfterShutdown
import Zurg.Control.StartOp
import Zurg.Control.Wakeup
import Zurg.Tasks.PcapFile
import Zurg.Tasks.Run
import Zurg.Tasks.Pcap
import Zurg.Tasks.Exec
import Zurg.Tasks.Report
import Zurg.Tasks.Cancel
import Zurg.Tasks.Contract
import Zurg.Tasks.Cleanup
import Zurg.LoggerManager
import Zurg.LoggerManager.Registry
import Zurg.LoggerManager.Deleter
import Zurg.LoggerManager.Settings
import Zurg.AgentMain
import Zurg.Locks
import Zurg.Agent.Startup
import Zurg.Agent.System
import Zurg.Agent.Authorized
import Zurg.Agent.Offline
import Zurg.Agent.Results
