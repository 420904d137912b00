import HybridCache.RangeHandler.PartialHit
import HybridCache.Eviction.Trigger
import HybridCache.WriteTier.Accounting
import HybridCache.SizeTracking.Validation
import HybridCache.CacheManager.Revalidation
import HybridCache.CacheManager.RefreshTarget
import HybridCache.HttpProxy.WidenedFreshness
import HybridCache.Inflight.Reservations
import HybridCache.Multipart.PartFiles
import HybridCache.Journal.AppendSafety
import HybridCache.MetadataLock.Publication
import HybridCache.HttpProxy.Overrides
import HybridCache.AwsChunked.Incremental
import HybridCache.SignedRequest.Delivery
import HybridCache.HttpProxy.CacheKey
import HybridCache.Inflight.Completion
import HybridCache.RamCache.Latest
import HybridCache.Tee.Watchdog
import HybridCache.Bandwidth.Throttle
import HybridCache.Bandwidth.Tokens
import HybridCache.CacheManager.Hierarchy
import HybridCache.HttpProxy.WidenedTarget
import HybridCache.WriteLedger.Staging
import HybridCache.Journal.ColdVersion
import HybridCache.SizeTracking.Staged
import HybridCache.Journal.LastWriter
import HybridCache.Journal.Retirement
import HybridCache.Bandwidth.TopK
import HybridCache.BucketSettings.Reload
import HybridCache.BucketSettings.Stamps
import HybridCache.HedgedFetch.Governor
import HybridCache.HedgedFetch.Race
import HybridCache.MetadataLock.Fencing
import HybridCache.Journal.HitBuffer
import HybridCache.WriteTier.InflightBytes
import HybridCache.ConnectionPool.Endpoints
import HybridCache.ConnectionPool.Exclusion
import HybridCache.HttpProxy.PathStyleAlias
