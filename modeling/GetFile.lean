import GetFile.Server.Termination
import GetFile.Steque.Refinement
import GetFile.Shm.Lookup
import GetFile.Shm.Names
import GetFile.Server.Segmentation
import GetFile.Server.Serve
import GetFile.Server.Isolation
import GetFile.Server.ContentInit
import GetFile.Client.Completion
import GetFile.Client.Callback
import GetFile.Client.Grammar
import GetFile.Client.Segmentation
import GetFile.Client.Window
import GetFile.Client.Termination
import GetFile.Exchange.Header
import GetFile.Exchange.Request
import GetFile.Exchange.Download
import GetFile.Exchange.Proxied
import GetFile.Exchange.Pooled
import GetFile.Exchange.Pools
import GetFile.Transition.Threads
import GetFile.Transition.Calls
import GetFile.Transition.Monitor
import GetFile.Transition.Progress
import GetFile.Transition.Waiting
import GetFile.Workers.Workload
import GetFile.Workers.Images
import GetFile.Workers.Paths
import GetFile.Workers.Handler
import GetFile.Workers.Download
import GetFile.Workers.Joining
import GetFile.Workers.LocalFiles
import GetFile.Workers.Serving
import GetFile.Cache.Size
import GetFile.Cache.Segments
import GetFile.Cache.Transfers
import GetFile.Cache.Answers
import GetFile.Cache.Single
import GetFile.Cache.Calls
import GetFile.Curl.HandleWithFile
