import Newiup.System
import Newiup.Wp
import Newiup.Ledger
import Newiup.Fs
import Newiup.Utils
import Newiup.Config
import Newiup.Checked
import Newiup.Block
import Newiup.ServerList
import Newiup.StrSplit
import Newiup.Finish
import Newiup.SourcePath
import Newiup.CleanString
import Newiup.StateNames
import Newiup.MoveFile
import Newiup.MakeDir
import Newiup.Relocation
import Newiup.Overwrite
import Newiup.StateFile
import Newiup.Touches
import Newiup.Tree
import Newiup.Daemon.State
import Newiup.Daemon.Step
import Newiup.Daemon.Owned
import Newiup.Daemon.Counts
import Newiup.Daemon.Choice
import Newiup.Daemon.Available
import Newiup.Daemon.StateFiles
import Newiup.Daemon.Marked
import Newiup.Daemon.Finished
import Newiup.Daemon.Once
import Newiup.Daemon.Completed
import Newiup.Daemon.Kept
import Newiup.Daemon.Fate
import Newiup.Daemon.Placed
import Newiup.Daemon.Backoff
import Newiup.Daemon.Retries
import Newiup.Daemon.Limit
import Newiup.Daemon.RoundRobin
import Newiup.Watch.Table
import Newiup.Watch.Monitor
import Newiup.Watch.Steps
import Newiup.Watch.EventLoop
import Newiup.Feedback
import Newiup.Watch.Walk
import Newiup.Watch.Growth
import Newiup.Watch.Agree
import Newiup.Watch.Single
import Newiup.Watch.Settled
import Newiup.Watch.Scans
import Newiup.Watch.Churn
import Newiup.Watch.Exact
import Newiup.Start
import Newiup.Conf
import Newiup.Traverse
import Newiup.Watch.Startup
import Newiup.Watch.Undisturbed
import Newiup.DbConfig
import Newiup.Servers
import Newiup.Threads
import Newiup.Checklist
import Newiup.ServerChecks
import Newiup.Groups
import Newiup.GroupChecks
import Newiup.CleanStart
import Newiup.NameCheck
import Newiup.Compress
import Newiup.Search
import Newiup.Lzma
import Newiup.TailQueue
import Newiup.Simulation
import Newiup.SpinQueue
import Newiup.Yaml.Document
import Newiup.Ensures
import Newiup.Yaml.Parser
import Newiup.Yaml.Nesting
import Newiup.Yaml.Grammar
import Newiup.Conf.Record
import Newiup.Conf.Loader
import Newiup.Conf.Names
import Newiup.Conf.Reading
import Newiup.Daemon.Client
import Newiup.Daemon.Custody
import Newiup.Daemon.Refinement
