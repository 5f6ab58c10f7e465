import DelayedNotifier.Domain
import DelayedNotifier.Postgres
import DelayedNotifier.CachedRepository
import DelayedNotifier.CacheCoherence
import DelayedNotifier.Broker
import DelayedNotifier.DelayQueue
import DelayedNotifier.System
import DelayedNotifier.Copies
import DelayedNotifier.Settled
import DelayedNotifier.Delivery
import DelayedNotifier.RepoRefinement
import DelayedNotifier.Cancel
import DelayedNotifier.Schedule
import DelayedNotifier.Lineage
import DelayedNotifier.Attempts
import DelayedNotifier.FinalRecord
import DelayedNotifier.RoundTrip
import DelayedNotifier.Handlers
import DelayedNotifier.Notifiers
import DelayedNotifier.Decorator
import DelayedNotifier.BrokerRefinement
import DelayedNotifier.Reads
import DelayedNotifier.Progress
import DelayedNotifier.Answers
import DelayedNotifier.SentStatus
import DelayedNotifier.Uniqueness
