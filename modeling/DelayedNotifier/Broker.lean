import DelayedNotifier.Domain

/-!
# The delay queues

`RabbitMQQueue.Publish` sends the JSON of a notification to `wait.exchange` and
`PublishRetry` to `retry.exchange`, each with a per-message `Expiration` in milliseconds,
which RabbitMQ refuses above `maxExpiration` (about 49.7 days).
`wait.queue.delay` and `retry.queue.delay` have no consumer: RabbitMQ dead-letters a message
to `notifications.exchange` once it is at the head of its queue and its expiration has
elapsed, and `notifications.queue.process` is where the workers consume. JSON encoding is the
identity on a notification at this level, so a message carries the record itself.
-/

namespace DelayedNotifier

/-- A message on one of the queues: its body, its `Expiration` in milliseconds, and the
instant the broker enqueued it. -/
structure Msg where
  body : Notification
  expiration : Int
  publishedAt : Int
  deriving DecidableEq, Repr

def Msg.due (m : Msg) : Int := m.publishedAt + m.expiration * 1000000

def publishMsg (now : Int) (n : Notification) : Msg :=
  let delay := timeUntil now n.scheduledAt
  let delay := if delay < 0 then 0 else delay
  { body := n, expiration := milliseconds delay, publishedAt := now }

def publishRetryMsg (now : Int) (n : Notification) (retryDelay : Int) : Msg :=
  { body := n, expiration := milliseconds retryDelay, publishedAt := now }

def maxExpiration : Int := 4294967295

/-- RabbitMQ accepts the message. A larger `Expiration` is refused with `PRECONDITION_FAILED`,
which closes the channel; with no publisher confirms, `PublishWithContext` has already
returned nil. -/
def Msg.accepted (m : Msg) : Bool := decide (m.expiration ≤ maxExpiration)

theorem publishRetryMsg_accepted (now : Int) (n : Notification) {a : Int} (h : a < maxRetries) :
    (publishRetryMsg now n (calculateExponentialBackoff a)).accepted := by
  obtain ⟨h₀, h₁⟩ := calculateExponentialBackoff_range h
  simp only [Msg.accepted, publishRetryMsg, milliseconds, maxExpiration, second,
    decide_eq_true_eq] at h₁ ⊢
  rw [Int.tdiv_eq_ediv h₀ (by norm_num)]; omega

inductive DelayQueue
  | wait
  | retry
  deriving DecidableEq, Repr

/-- Dead-lettering at instant `now`: only the head leaves, and only once it is due. -/
def deadLetter (now : Int) : List Msg → Option (Msg × List Msg)
  | m :: rest => if m.due ≤ now then some (m, rest) else none
  | [] => none

theorem deadLetter_some {now : Int} {q rest : List Msg} {m : Msg}
    (h : deadLetter now q = some (m, rest)) : q = m :: rest ∧ m.due ≤ now := by
  cases q with
  | nil => cases h
  | cons m' rest' =>
    simp only [deadLetter] at h
    split_ifs at h with hd
    cases h; exact ⟨rfl, hd⟩

end DelayedNotifier
