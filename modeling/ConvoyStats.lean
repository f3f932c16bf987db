import ConvoyStats.Transport.RingProgress
import ConvoyStats.Transport.RingSequential
import ConvoyStats.Pipeline.Memory
import ConvoyStats.Pipeline.Balance
import ConvoyStats.Prometheus.Expiry
import ConvoyStats.Prometheus.Refusals
import ConvoyStats.Pipeline.Honesty
import ConvoyStats.Pipeline.Attribution
import ConvoyStats.Pipeline.BatchBound
import ConvoyStats.Otlp.DeltaExports
import ConvoyStats.Otlp.SeriesTypes
import ConvoyStats.Cardinality.Slots
import ConvoyStats.Client.Retry
import ConvoyStats.Transport.Recovery
import ConvoyStats.Exporters.BufferFlush
import ConvoyStats.Otel.Attributes
import ConvoyStats.Otel.Unregister
import ConvoyStats.Otel.Observable
import ConvoyStats.Httpstats.ActiveRequests
import ConvoyStats.Netstats.Accounting
import ConvoyStats.Client.RateLimiter
import ConvoyStats.Runtimemetrics.PauseTracker
import ConvoyStats.Cardinality.TagKeys
import ConvoyStats.Otlp.ExpoExact
import ConvoyStats.DogStatsD.Events
import ConvoyStats.Prometheus.Totals
import ConvoyStats.Transport.AtomicBreaker
import ConvoyStats.Transport.ConnPool
