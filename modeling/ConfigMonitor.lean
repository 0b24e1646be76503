import ConfigMonitor.Cppzk.Chain
import ConfigMonitor.Cppzk.Client
import ConfigMonitor.Cppzk.Completions
import ConfigMonitor.Cppzk.CreateAgree
import ConfigMonitor.Cppzk.CreatePath
import ConfigMonitor.Cppzk.DeletePath
import ConfigMonitor.Cppzk.DeleteSubtree
import ConfigMonitor.Cppzk.GetPathValue
import ConfigMonitor.Cppzk.Listing
import ConfigMonitor.Cppzk.LiveCreate
import ConfigMonitor.Cppzk.LiveListing
import ConfigMonitor.Cppzk.Operations
import ConfigMonitor.Cppzk.ReadBack
import ConfigMonitor.Cppzk.Releaser
import ConfigMonitor.Cppzk.RemoveWatches
import ConfigMonitor.Cppzk.SplitPath
import ConfigMonitor.Detection.Handled
import ConfigMonitor.Detection.Missed
import ConfigMonitor.Detection.Noticed
import ConfigMonitor.Detection.Threads
import ConfigMonitor.Independence.Alone
import ConfigMonitor.Independence.Handlers
import ConfigMonitor.Independence.View
import ConfigMonitor.Lib.Ancestry
import ConfigMonitor.Lib.Answers
import ConfigMonitor.Lib.Chains
import ConfigMonitor.Lib.History
import ConfigMonitor.Lib.LastWriter
import ConfigMonitor.Lib.Lookup
import ConfigMonitor.Lib.OneShot
import ConfigMonitor.Lib.PostOrder
import ConfigMonitor.Lib.Program
import ConfigMonitor.Lib.Progress
import ConfigMonitor.Lib.Queue
import ConfigMonitor.Lib.Registry
import ConfigMonitor.Lib.Run
import ConfigMonitor.Lib.Settle
import ConfigMonitor.Lib.Simulation
import ConfigMonitor.Lib.Traversal
import ConfigMonitor.LocalFile.Alternate
import ConfigMonitor.LocalFile.CallOrder
import ConfigMonitor.LocalFile.Copies
import ConfigMonitor.LocalFile.CreateFile
import ConfigMonitor.LocalFile.FileSystem
import ConfigMonitor.LocalFile.Files
import ConfigMonitor.LocalFile.LocFile
import ConfigMonitor.LocalFile.Paired
import ConfigMonitor.LocalFile.Reports
import ConfigMonitor.LocalFile.Shutdown
import ConfigMonitor.LocalFile.Silent
import ConfigMonitor.LocalFile.Values
import ConfigMonitor.Monitor.Callbacks
import ConfigMonitor.Monitor.ConnectionLoss
import ConfigMonitor.Monitor.Effect
import ConfigMonitor.Monitor.Entries
import ConfigMonitor.Monitor.Events
import ConfigMonitor.Monitor.Expiry
import ConfigMonitor.Monitor.External
import ConfigMonitor.Monitor.Held
import ConfigMonitor.Monitor.Leak
import ConfigMonitor.Monitor.NoRemoval
import ConfigMonitor.Monitor.Ownership
import ConfigMonitor.Monitor.Recorded
import ConfigMonitor.Monitor.Schedule
import ConfigMonitor.Monitor.Served
import ConfigMonitor.Monitor.Tables
import ConfigMonitor.Monitor.Tokens
import ConfigMonitor.Monitor.Truthful
import ConfigMonitor.Monitor.WatchPath
import ConfigMonitor.Monitor.Work
import ConfigMonitor.Monitor.World
import ConfigMonitor.Removal.Frame
import ConfigMonitor.Removal.Silent
import ConfigMonitor.Resubscribe.Expired
import ConfigMonitor.Resubscribe.Live
import ConfigMonitor.Resubscribe.Owed
import ConfigMonitor.Resubscribe.Picture
import ConfigMonitor.WatchSubPath.Complete
import ConfigMonitor.WatchSubPath.NoGhost
import ConfigMonitor.WatchSubPath.Once
import ConfigMonitor.WatchSubPath.Scan
import ConfigMonitor.WatchSubPath.Session
import ConfigMonitor.ZooKeeper.Hashtable
import ConfigMonitor.ZooKeeper.Path
import ConfigMonitor.ZooKeeper.Registrations
import ConfigMonitor.ZooKeeper.Server
import ConfigMonitor.ZooKeeper.Session
import ConfigMonitor.ZooKeeper.Tree
import ConfigMonitor.ZooKeeper.Watchers
