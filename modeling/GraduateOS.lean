import GraduateOS.Cache.ListEntries
import GraduateOS.Cache.Lookups
import GraduateOS.Cache.Sessions
import GraduateOS.Curl.Downloads
import GraduateOS.Curl.LocalFiles
import GraduateOS.Dfs.Agreement
import GraduateOS.Dfs.Bursts
import GraduateOS.Dfs.CallbackSlots
import GraduateOS.Dfs.ChecksumReads
import GraduateOS.Dfs.Convergence
import GraduateOS.Dfs.Downloads
import GraduateOS.Dfs.FedBytes
import GraduateOS.Dfs.Fetching
import GraduateOS.Dfs.Handlers
import GraduateOS.Dfs.LastEdit
import GraduateOS.Dfs.LockRuns
import GraduateOS.Dfs.OneWriter
import GraduateOS.Dfs.Overlaps
import GraduateOS.Dfs.Part1Runs
import GraduateOS.Dfs.Refusals
import GraduateOS.Dfs.Rounds
import GraduateOS.Dfs.StoredBytes
import GraduateOS.Dfs.StoredFiles
import GraduateOS.Dfs.SyncDecisions
import GraduateOS.Dfs.TwoParts
import GraduateOS.Dfs.UnfinishedStore
import GraduateOS.Dfs.Watcher
import GraduateOS.Echo.Clients
import GraduateOS.Gflib.BodyLoops
import GraduateOS.Gflib.Rejections
import GraduateOS.Gflib.RequestBounds
import GraduateOS.Gflib.RequestEnds
import GraduateOS.Gflib.RequestPaths
import GraduateOS.Gflib.Sends
import GraduateOS.Shm.Bounds
import GraduateOS.Shm.FailedSends
import GraduateOS.Shm.Handshake
import GraduateOS.Shm.Headers
import GraduateOS.Shm.PoolRuns
import GraduateOS.Shm.QueueOrder
import GraduateOS.Shm.Reuse
import GraduateOS.Steques.Lists
import GraduateOS.Transfer.ExactFiles
import GraduateOS.Workload.Calls
import GraduateOS.Workload.Downloads
