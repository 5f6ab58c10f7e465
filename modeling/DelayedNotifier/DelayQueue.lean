import DelayedNotifier.Broker

/-!
# Head-of-line release from the delay queues

Any sequence of `Publish` and `PublishRetry` calls feeds `wait.queue.delay` and
`retry.queue.delay`. RabbitMQ expires only the head of a queue, so a message whose due
instant has passed waits behind a head that is not yet due (`overdue_behind_head`). With a
broker that dead-letters every expired head before time moves on, each message leaves at
exactly the later of its own due instant (or its publish instant) and the instant the message
ahead of it left (`release_instant`).
-/

namespace DelayedNotifier.DelayQueue

/-- The two delay queues, the clock, and the dead-letterings so far with their instants. -/
structure Broker where
  now : Int
  wait : List Msg
  retry : List Msg
  released : List (DelayQueue × Msg × Int)
  deriving DecidableEq

inductive BrokerAction
  /-- `RabbitMQQueue.Publish(n)`. -/
  | publish (n : Notification)
  /-- `RabbitMQQueue.PublishRetry(n, retryDelay)`. -/
  | publishRetry (n : Notification) (retryDelay : Int)
  | deadLetter (q : DelayQueue)
  | tick (δ : Nat)

namespace Broker

def init (now : Int) : Broker := ⟨now, [], [], []⟩

def queue (b : Broker) : DelayQueue → List Msg
  | .wait => b.wait
  | .retry => b.retry

def setQueue (b : Broker) : DelayQueue → List Msg → Broker
  | .wait, l => { b with wait := l }
  | .retry, l => { b with retry := l }

def step (b : Broker) : BrokerAction → Option Broker
  | .publish n => some { b with wait := b.wait ++ [publishMsg b.now n] }
  | .publishRetry n d => some { b with retry := b.retry ++ [publishRetryMsg b.now n d] }
  | .deadLetter q =>
    (deadLetter b.now (b.queue q)).map fun (m, rest) =>
      { b.setQueue q rest with released := b.released ++ [(q, m, b.now)] }
  | .tick δ => some { b with now := b.now + δ }

def headDueFrom (t : Int) : List Msg → Bool
  | m :: _ => decide (t ≤ m.due)
  | [] => true

/-- The broker never lets the clock pass the due instant of a queue's head. -/
def prompt (b : Broker) : BrokerAction → Bool
  | .tick δ => headDueFrom (b.now + δ) b.wait && headDueFrom (b.now + δ) b.retry
  | _ => true

def run (P : Broker → BrokerAction → Bool) (b : Broker) : List BrokerAction → Option Broker
  | [] => some b
  | a :: as => if P b a then (b.step a).bind (·.run P as) else none

end Broker

inductive Reach (P : Broker → BrokerAction → Bool) : Broker → Prop
  | init (now : Int) : Reach P (Broker.init now)
  | next {b b' : Broker} {a : BrokerAction} : Reach P b → P b a → b.step a = some b' → Reach P b'

def lastRelease (log : List (DelayQueue × Msg × Int)) (q : DelayQueue) : Option Int :=
  ((log.filter (·.1 = q)).getLast?).map (·.2.2)

theorem lastRelease_append_self (l : List (DelayQueue × Msg × Int)) (q : DelayQueue) (m : Msg)
    (t : Int) : lastRelease (l ++ [(q, m, t)]) q = some t := by
  simp [lastRelease, List.filter_append]

theorem lastRelease_append_ne (l : List (DelayQueue × Msg × Int)) {q q' : DelayQueue} (m : Msg)
    (t : Int) (h : q' ≠ q) : lastRelease (l ++ [(q, m, t)]) q' = lastRelease l q' := by
  simp [lastRelease, List.filter_append, Ne.symm h]

/-- What a prompt broker keeps true: nothing was published or released after the present,
the clock has not passed the instant at which each head is due to leave, and every
dead-lettering so far happened at that instant. -/
structure OnTime (b : Broker) : Prop where
  published : ∀ q, ∀ m ∈ b.queue q, m.publishedAt ≤ b.now
  releases : ∀ q t, lastRelease b.released q = some t → t ≤ b.now
  head : ∀ q m rest, b.queue q = m :: rest →
    b.now ≤ max (max m.due m.publishedAt) ((lastRelease b.released q).getD m.publishedAt)
  log : ∀ i q m t, b.released[i]? = some (q, m, t) →
    t = max (max m.due m.publishedAt) ((lastRelease (b.released.take i) q).getD m.publishedAt)

theorem onTime_init (now : Int) : OnTime (Broker.init now) :=
  ⟨fun q => by cases q <;> simp [Broker.init, Broker.queue],
   by simp [Broker.init, lastRelease], fun q => by cases q <;> simp [Broker.init, Broker.queue],
   by simp [Broker.init]⟩

theorem onTime_enqueue {b : Broker} (h : OnTime b) (q : DelayQueue) {m : Msg}
    (hm : m.publishedAt = b.now) : OnTime (b.setQueue q (b.queue q ++ [m])) := by
  have hq : ∀ q', (b.setQueue q (b.queue q ++ [m])).queue q' =
      if q' = q then b.queue q ++ [m] else b.queue q' := by
    intro q'; cases q <;> cases q' <;> rfl
  have hr : (b.setQueue q (b.queue q ++ [m])).released = b.released := by cases q <;> rfl
  have hn : (b.setQueue q (b.queue q ++ [m])).now = b.now := by cases q <;> rfl
  refine ⟨fun q' m' hm' => ?_, fun q' t ht => ?_, fun q' m' rest hq' => ?_, fun i q' m' t hi => ?_⟩
  · rw [hq] at hm'; rw [hn]
    split_ifs at hm'
    · rcases List.mem_append.1 hm' with hm' | hm'
      · exact h.published _ m' hm'
      · simp only [List.mem_singleton] at hm'; subst hm'; exact hm.le
    · exact h.published q' m' hm'
  · rw [hr] at ht; rw [hn]; exact h.releases q' t ht
  · rw [hq] at hq'; rw [hn, hr]
    split_ifs at hq' with hqq
    · subst hqq
      cases hb : b.queue q' with
      | nil =>
        rw [hb] at hq'; simp only [List.nil_append, List.cons.injEq] at hq'
        obtain ⟨rfl, -⟩ := hq'
        exact le_max_of_le_left (le_max_of_le_right hm.ge)
      | cons m₀ rest₀ =>
        rw [hb] at hq'; simp only [List.cons_append, List.cons.injEq] at hq'
        obtain ⟨rfl, -⟩ := hq'
        exact h.head q' _ _ hb
    · exact h.head q' m' rest hq'
  · rw [hr] at hi ⊢; exact h.log i q' m' t hi

theorem onTime_step {b b' : Broker} {a : BrokerAction} (h : OnTime b) (hp : b.prompt a)
    (hs : b.step a = some b') : OnTime b' := by
  cases a with
  | publish n => cases hs; exact onTime_enqueue h .wait rfl
  | publishRetry n d => cases hs; exact onTime_enqueue h .retry rfl
  | tick δ =>
    cases hs
    have hd : ∀ q m rest, b.queue q = m :: rest → b.now + δ ≤ m.due := by
      intro q m rest hq
      simp only [Broker.prompt, Bool.and_eq_true] at hp
      cases q <;> simp_all [Broker.queue, Broker.headDueFrom]
    refine ⟨fun q m hm => (h.published q m hm).trans (by simp), fun q t ht =>
      (h.releases q t ht).trans (by simp), fun q m rest hq => ?_, h.log⟩
    exact (hd q m rest hq).trans (le_max_of_le_left (le_max_left _ _))
  | deadLetter q =>
    obtain ⟨⟨m, rest⟩, hdl, rfl⟩ := Option.map_eq_some'.1 hs
    obtain ⟨hq, hdue⟩ := deadLetter_some hdl
    have hqs : ∀ q', ({ b.setQueue q rest with released := b.released ++ [(q, m, b.now)] }).queue q' =
        if q' = q then rest else b.queue q' := by
      intro q'; cases q <;> cases q' <;> rfl
    have hnow : ({ b.setQueue q rest with released := b.released ++ [(q, m, b.now)] }).now = b.now := by
      cases q <;> rfl
    have hlast : ∀ q', lastRelease (b.released ++ [(q, m, b.now)]) q' =
        if q' = q then some b.now else lastRelease b.released q' := by
      intro q'; split_ifs with h'
      · subst h'; exact lastRelease_append_self _ _ _ _
      · exact lastRelease_append_ne _ _ _ h'
    refine ⟨fun q' m' hm' => ?_, fun q' t ht => ?_, fun q' m' rest' hq' => ?_, fun i q' m' t hi => ?_⟩
    · rw [hqs] at hm'; rw [hnow]
      split_ifs at hm' with h'
      · subst h'; exact h.published _ m' (by rw [hq]; exact List.mem_cons_of_mem _ hm')
      · exact h.published q' m' hm'
    · rw [hnow]; simp only [hlast] at ht
      split_ifs at ht
      · cases ht; exact le_rfl
      · exact h.releases q' t ht
    · rw [hqs] at hq'; rw [hnow]; simp only [hlast]
      split_ifs at hq' ⊢ with h'
      · exact le_max_right _ _
      · exact h.head q' m' rest' hq'
    · simp only at hi ⊢
      rcases Nat.lt_or_ge i b.released.length with hi' | hi'
      · rw [List.getElem?_append_left hi'] at hi
        rw [List.take_append_of_le_length hi'.le]
        exact h.log i q' m' t hi
      · rw [List.getElem?_append_right hi'] at hi
        obtain rfl : i = b.released.length := by
          by_contra hne
          rw [List.getElem?_eq_none (by simp only [List.length_singleton]; omega)] at hi
          cases hi
        obtain ⟨rfl, rfl, rfl⟩ : q = q' ∧ m = m' ∧ b.now = t := by simpa using hi
        rw [List.take_append_of_le_length le_rfl, List.take_length]
        refine le_antisymm (h.head _ _ _ hq) (max_le (max_le hdue (h.published q m (by simp [hq]))) ?_)
        cases hl : lastRelease b.released q with
        | none => exact h.published q m (by simp [hq])
        | some t' => exact h.releases _ _ hl

theorem reach_onTime {b : Broker} (h : Reach Broker.prompt b) : OnTime b := by
  induction h with
  | init now => exact onTime_init now
  | next _ hp hs ih => exact onTime_step ih hp hs

theorem reach_run {P : Broker → BrokerAction → Bool} {b b' : Broker} {as : List BrokerAction}
    (hb : Reach P b) (h : b.run P as = some b') : Reach P b' := by
  induction as generalizing b with
  | nil => cases h; exact hb
  | cons a as ih =>
    simp only [Broker.run] at h
    split_ifs at h with hp
    cases hn : b.step a with
    | none => simp [hn] at h
    | some b₁ => exact ih (.next hb hp hn) (by simpa [hn] using h)

/-- Each message leaves its delay queue at the later of its due instant (its publish instant
when the expiration is negative) and the instant the previous message left that queue. -/
theorem release_instant {b : Broker} (h : Reach Broker.prompt b) {i : Nat} {q : DelayQueue}
    {m : Msg} {t : Int} (hi : b.released[i]? = some (q, m, t)) :
    t = max (max m.due m.publishedAt) ((lastRelease (b.released.take i) q).getD m.publishedAt) :=
  (reach_onTime h).log i q m t hi

private def note (scheduledAt : Int) : Notification :=
  newTelegramNotification 1 0 7 "" "" scheduledAt none

private def headOfLine : List BrokerAction :=
  [.publish (note (3600 * second)), .publish (note second), .tick (2 * 1000000000)]

set_option maxRecDepth 20000 in
/-- Published first, the hour-long message holds the one-second message past its due instant. -/
theorem overdue_behind_head :
    ∃ b, Reach Broker.prompt b ∧ ∃ m ∈ b.wait, m.due < b.now := by
  have h : (Broker.init 0).run Broker.prompt headOfLine =
      some ⟨2 * second, [publishMsg 0 (note (3600 * second)), publishMsg 0 (note second)], [], []⟩ := by
    decide
  refine ⟨_, reach_run (.init 0) h, publishMsg 0 (note second), by simp, by decide⟩

set_option maxRecDepth 20000 in
/-- Dead-lettering both once the first is due: the one-second message leaves an hour late,
together with the message ahead of it. -/
theorem release_instant_behind_head :
    ∃ b, Reach Broker.prompt b ∧
      b.released[1]? = some (.wait, publishMsg 0 (note second), 3600 * second) ∧
      3600 * second = max (max (publishMsg 0 (note second)).due (publishMsg 0 (note second)).publishedAt)
        ((lastRelease (b.released.take 1) .wait).getD (publishMsg 0 (note second)).publishedAt) := by
  have h : (Broker.init 0).run Broker.prompt
      (headOfLine.take 2 ++ [.tick (3600 * 1000000000), .deadLetter .wait, .deadLetter .wait]) =
      some ⟨3600 * second, [], [], [(.wait, publishMsg 0 (note (3600 * second)), 3600 * second),
        (.wait, publishMsg 0 (note second), 3600 * second)]⟩ := by
    decide
  exact ⟨_, reach_run (.init 0) h, rfl, release_instant (reach_run (.init 0) h) rfl⟩

end DelayedNotifier.DelayQueue
