import Mathlib.Tactic.NormNum.Basic
import Mathlib.Algebra.Order.Ring.Cast

/-!
# The notification record and the arithmetic it is scheduled with

`model.Notification` with its channel and status enums and the two factories, the Go
time arithmetic that `RabbitMQQueue.Publish` and the worker use (`time.Time.Sub`
saturates, `Duration.Milliseconds` truncates, `int64` multiplication wraps), and
`calculateExponentialBackoff`. Instants are nanoseconds since the epoch.
-/

namespace DelayedNotifier

inductive Channel
  | email
  | telegram
  deriving DecidableEq, Repr

inductive Status
  | scheduled
  | sent
  | failed
  | cancelled
  deriving DecidableEq, Repr

structure EmailDetails where
  address : String
  deriving DecidableEq, Repr

structure TelegramDetails where
  chatID : Int
  deriving DecidableEq, Repr

/-- `model.Notification`. `id` is the UUID, read as a number. -/
structure Notification where
  id : Nat
  subject : String
  message : String
  channel : Channel
  status : Status
  attempts : Int
  authorID : Option String
  email : Option EmailDetails
  telegram : Option TelegramDetails
  scheduledAt : Int
  sentAt : Option Int
  createdAt : Int
  updatedAt : Int
  deriving DecidableEq, Repr

def newEmailNotification (uuid : Nat) (now : Int) (recipientEmail subject message : String)
    (scheduledAt : Int) (authorID : Option String) : Notification :=
  { id := uuid, subject, message, channel := .email, status := .scheduled, attempts := 0,
    authorID, email := some ⟨recipientEmail⟩, telegram := none, scheduledAt,
    sentAt := none, createdAt := now, updatedAt := now }

def newTelegramNotification (uuid : Nat) (now : Int) (chatID : Int) (subject message : String)
    (scheduledAt : Int) (authorID : Option String) : Notification :=
  { id := uuid, subject, message, channel := .telegram, status := .scheduled, attempts := 0,
    authorID, email := none, telegram := some ⟨chatID⟩, scheduledAt,
    sentAt := none, createdAt := now, updatedAt := now }

/-- Exactly one recipient is set, it matches the channel, and an email address is non-empty. -/
def Notification.recipientOk (n : Notification) : Bool :=
  match n.channel, n.email, n.telegram with
  | .email, some e, none => e.address != ""
  | .telegram, none, some _ => true
  | _, _, _ => false

def Notification.fixed (n : Notification) : Notification :=
  { n with status := .scheduled, attempts := 0, sentAt := none, updatedAt := n.createdAt }

@[simp] theorem Notification.fixed_id (n : Notification) : n.fixed.id = n.id := rfl

theorem Notification.recipientOk_fixed (n : Notification) : n.fixed.recipientOk = n.recipientOk :=
  rfl

def maxRetries : Int := 5

def maxDuration : Int := 2 ^ 63 - 1

def minDuration : Int := -2 ^ 63

def second : Int := 1000000000

def int64 (x : Int) : Int := x.bmod (2 ^ 64)

/-- `time.Time.Sub`: `t - u`, saturated to the range of `time.Duration`. -/
def timeSub (t u : Int) : Int := max minDuration (min maxDuration (t - u))

def timeUntil (now t : Int) : Int := timeSub t now

/-- `Duration.Milliseconds`: Go integer division, truncating toward zero. -/
def milliseconds (d : Int) : Int := d.tdiv 1000000

/-- `calculateExponentialBackoff`: `time.Duration(5.0 * math.Pow(2, attempt)) * time.Second`.
The float `5 * 2 ^ attempt` is exact in binary64 and `time.Duration` truncates it, which for
a negative `attempt` is `5 / 2 ^ (-attempt)` rounded down; for `attempt ≥ 61` the float
exceeds `int64` and Go leaves the conversion to the implementation, so only
`attempt ≤ 60` is modelled faithfully (the worker reaches it with `1 ≤ attempt ≤ 4`). -/
def calculateExponentialBackoff (attempt : Int) : Int :=
  let delay : Int := if 0 ≤ attempt then 5 * 2 ^ attempt.toNat else 5 / 2 ^ (-attempt).toNat
  int64 (delay * second)

theorem calculateExponentialBackoff_of_le {a : Nat} (ha : a ≤ 30) :
    calculateExponentialBackoff a = 5 * 2 ^ a * second := by
  have hp : (2 : Int) ^ a ≤ 2 ^ 30 := pow_le_pow_right₀ (by norm_num) ha
  have hpos : (0 : Int) < 2 ^ a := pow_pos (by norm_num) a
  simp only [calculateExponentialBackoff, int64, second, Nat.cast_nonneg, if_true,
    Int.toNat_natCast]
  rw [Int.bmod_def, Int.emod_eq_of_lt (by omega) (by omega), if_pos (by omega)]

example : calculateExponentialBackoff 1 = 10 * second := by decide

theorem calculateExponentialBackoff_range {a : Int} (h : a < maxRetries) :
    0 ≤ calculateExponentialBackoff a ∧ calculateExponentialBackoff a ≤ 80 * second := by
  rcases le_or_lt 0 a with ha | ha
  · obtain ⟨b, rfl⟩ := Int.eq_ofNat_of_zero_le ha
    have hb : b ≤ 4 := by simp only [maxRetries] at h; omega
    rw [calculateExponentialBackoff_of_le (by omega)]
    have hp : (2 : Int) ^ b ≤ 2 ^ 4 := pow_le_pow_right₀ (by norm_num) hb
    have hpos : (0 : Int) < 2 ^ b := pow_pos (by norm_num) b
    simp only [second]; omega
  · simp only [calculateExponentialBackoff, if_neg (not_le.2 ha), int64, second]
    have hp : (0 : Int) < 2 ^ (-a).toNat := pow_pos (by norm_num) _
    have h₁ : (5 : Int) / 2 ^ (-a).toNat ≤ 5 := Int.ediv_le_self _ (by norm_num)
    have h₂ : 0 ≤ (5 : Int) / 2 ^ (-a).toNat := Int.ediv_nonneg (by norm_num) hp.le
    rw [Int.bmod_def, Int.emod_eq_of_lt (by omega) (by omega), if_pos (by omega)]
    omega

end DelayedNotifier
