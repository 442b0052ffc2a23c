import Millipede.Library.Machine
import Millipede.Library.OrderedMap
import Millipede.Library.Tasks
import Millipede.Library.Keyed
import Millipede.Library.Firsts
import Millipede.Library.Rotation
import Millipede.Library.Utf8
import Millipede.Library.Paging
import Millipede.Library.Csv
import Millipede.Request
import Millipede.RequestBuilder
import Millipede.Fingerprint
import Millipede.FormBodies
import Millipede.Storage.Layout
import Millipede.Storage.Queue
import Millipede.Storage.FsDataset
import Millipede.Storage.DatasetRefinement
import Millipede.Storage.CsvExport
import Millipede.Storage.KeyValueStore
import Millipede.Storage.KeyValueRefinement
import Millipede.Storage.MemoryQueue
import Millipede.Storage.MemoryConservation
import Millipede.Storage.DomainRotation
import Millipede.Library.Nesting
import Millipede.Sitemap.Parser
import Millipede.Sitemap.ParserElements
import Millipede.Sitemap.ParserIsolation
import Millipede.Storage.FsQueue
import Millipede.Storage.QueueFile
import Millipede.Storage.FsQueueInvariant
import Millipede.Storage.FsQueueRun
import Millipede.Storage.FsQueueScan
import Millipede.Storage.FsQueueRecovery
import Millipede.Storage.FsQueueRekey
import Millipede.Storage.QueueRefinement
import Millipede.Storage.LeaseQueue
import Millipede.Errors
import Millipede.RetryStrategy
import Millipede.Autoscale
import Millipede.Autoscale.HostSlots
import Millipede.Autoscale.RetryAfter
import Millipede.Autoscale.TaskRate
import Millipede.Statistics
import Millipede.StatisticsTotals
import Millipede.Proxy
import Millipede.ProxyRecovery
import Millipede.Sessions
import Millipede.SessionLimits
import Millipede.Crawler.Engine
import Millipede.Crawler.SpawnAttempt
import Millipede.Crawler.Moves
import Millipede.Crawler.Leases
import Millipede.Crawler.System
import Millipede.Crawler.Accounting
import Millipede.Crawler.Attempts
import Millipede.Crawler.Retries
import Millipede.Crawler.Politeness
import Millipede.Crawler.Journal
import Millipede.Crawler.Overrides
import Millipede.Crawler.Enqueue
import Millipede.Crawler.EnqueueKeys
import Millipede.Crawler.EnqueueSend
import Millipede.Crawler.EnqueueFates
import Millipede.Crawler.EnqueuePartition
import Millipede.Crawler.Admission
import Millipede.Crawler.AdmissionLimit
import Millipede.Http.Coalesce
import Millipede.Http.CoalesceSafety
import Millipede.Http.CoalesceEntries
import Millipede.Http.CoalesceIdentity
import Millipede.Http.SessionRotation
import Millipede.Http.PercentDecode
import Millipede.Http.Redirects
import Millipede.Http.RedirectCredentials
import Millipede.AntiBot
import Millipede.Browser.Detect
import Millipede.Browser.Pool
import Millipede.Browser.PoolMoves
import Millipede.Browser.PoolWakeups
import Millipede.Browser.PoolPages
import Millipede.Browser.PoolAccounting
import Millipede.Browser.PoolClose
import Millipede.Browser.PoolDrops
import Millipede.Sitemap.Chunks
import Millipede.Sitemap.RequestList
import Millipede.Sitemap.Schedule
import Millipede.Sitemap.Traversal
import Millipede.Sitemap.TraversalEnd
import Millipede.Sitemap.Snapshots
import Millipede.Sitemap.Walk
import Millipede.Sitemap.Emission
import Millipede.Sitemap.Reread
import Millipede.Sitemap.Resumption
import Millipede.Sitemap.Coverage
import Millipede.Sitemap.Tandem
import Millipede.Storage.LeaseService
import Millipede.Storage.MemoryLeases
import Millipede.Storage.FsLeases
import Millipede.Storage.FsLeaseTable
import Millipede.Crawler.Completion
import Millipede.Crawler.QueueCrawl
import Millipede.Crawler.MemoryCrawl
import Millipede.Crawler.FsCrawl
import Millipede.Crawler.LeaseExpiry
import Millipede.Crawler.Abort
import Millipede.Autoscale.LoadSignals
