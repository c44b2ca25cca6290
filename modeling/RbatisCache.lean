import RbatisCache.Interleaving.Protocol
import RbatisCache.Interleaving.Progress
import RbatisCache.Collections.DashMap
import RbatisCache.Spi.Envelope
import RbatisCache.Spi.Policy
import RbatisCache.Spi.LocalBackend
import RbatisCache.Spi.Sample
import RbatisCache.Spi.Boundaries
import RbatisCache.Spi.Wire
import RbatisCache.CacheInterceptor.Call
import RbatisCache.CacheInterceptor.Freshness
import RbatisCache.CacheInterceptor.Lateness
import RbatisCache.CacheInterceptor.Leaks
import RbatisCache.CacheInterceptor.OneLoad
import RbatisCache.CacheInterceptor.FailOpen
import RbatisCache.CacheInterceptor.Accounting
import RbatisCache.CacheInterceptor.TwoPhase
import RbatisCache.RbatisInterceptor.Isolation
import RbatisCache.RbatisInterceptor.Bypass
import RbatisCache.RbatisInterceptor.Staleness
import RbatisCache.RbatisInterceptor.PureReads
import RbatisCache.RbatisInterceptor.Coherence
import RbatisCache.RbatisInterceptor.ReadOwnWrites
import RbatisCache.RbatisInterceptor.FailureModes
import RbatisCache.RbatisInterceptor.Writes
import RbatisCache.RbatisInterceptor.Invalidations
import RbatisCache.RbatisInterceptor.Transactions
import RbatisCache.RbatisInterceptor.RoundTrips
import RbatisCache.RbatisInterceptor.Ages
import RbatisCache.Classification
import RbatisCache.RbatisInterceptor.Arguments
import RbatisCache.Spi.LocalBackend.Eviction
import RbatisCache.Spi.LocalBackend.Capacity
import RbatisCache.Spi.LocalBackend.Cleanup
import RbatisCache.Spi.LocalBackend.Counters
import RbatisCache.Spi.LocalBackend.Alone
import RbatisCache.Spi.LocalBackend.Overlap
import RbatisCache.Spi.LocalBackend.Overshoot
import RbatisCache.Spi.LocalBackend.Linearizability
import RbatisCache.Redis.CircuitBreaker
import RbatisCache.Redis.Overlap
import RbatisCache.Redis.Processes
import RbatisCache.Redis.Prefixes
import RbatisCache.Redis.Properties
import RbatisCache.Redis.FieldTable
import RbatisCache.Redis.ReadBack
import RbatisCache.Memcached.Generations
import RbatisCache.Memcached.Linearizability
import RbatisCache.Memcached.Logging
import RbatisCache.Memcached.ConsistentHashRing
import RbatisCache.Memcached.Expiration
import RbatisCache.Memcached.AddressList
import RbatisCache.Memcached.ConfigurationBuilder
import RbatisCache.Moka.Generations
import RbatisCache.Moka.Interchange
import RbatisCache.RbatisInterceptor.Ownership
import RbatisCache.RbatisInterceptor.Wakeups
import RbatisCache.RbatisInterceptor.Publications
import RbatisCache.RbatisInterceptor.SingleLoad
import RbatisCache.RbatisInterceptor.Executors
import RbatisCache.RbatisInterceptor.ExpiryArithmetic
import RbatisCache.RbatisInterceptor.Probes
import RbatisCache.RbatisInterceptor.Counters
import RbatisCache.CacheInterceptor.Cancellation
import RbatisCache.CacheInterceptor.Handover
import RbatisCache.Redis.Cancellation
