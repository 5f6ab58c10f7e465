import DelayedNotifier.System
import DelayedNotifier.DelayQueue

/-!
# The system's delay queues are a run of the broker model

`DelayQueue` studies `wait.queue.delay` and `retry.queue.delay` on their own: publishes,
dead-lettering of due heads, and the clock. In the running system the same queues are fed by
the API's `Publish` and the workers' `PublishRetry` under every failure, while calls, workers
and the cache go on around them. Each step of the system moves the clock and the two queues as
at most one step of the broker model does (`State.step_delays`), and dead-letters what that
step does. So with a broker that dead-letters every due head before the clock passes it, every
run of the system is followed by a run of the broker model that ends with the same clock and
delay queues and has made the same dead-letterings, in the same order and at the same instants
(`delay_queues_refine_broker`): each message leaves at the instant `release_instant` computes.
-/

namespace DelayedNotifier

open DelayQueue

/-- The broker never lets the clock pass the due instant of a delay queue's head. -/
def promptBroker (s : State) : Action → Bool
  | .tick δ => Broker.headDueFrom (s.now + δ) s.wait && Broker.headDueFrom (s.now + δ) s.retry
  | _ => true

def State.delays (s : State) : Int × List Msg × List Msg := (s.now, s.wait, s.retry)

def DelayQueue.Broker.delays (b : Broker) : Int × List Msg × List Msg := (b.now, b.wait, b.retry)

def State.release (s : State) : Action → List (DelayQueue × Msg × Int)
  | .deadLetter q => ((deadLetter s.now (s.queue q)).map fun (m, _) => (q, m, s.now)).toList
  | _ => []

/-- The dead-letterings of a run, in order. -/
def State.releases (P : State → Action → Bool) (s : State) :
    List Action → List (DelayQueue × Msg × Int)
  | [] => []
  | a :: as => if P s a then ((s.step a).map fun s' => s.release a ++ s'.releases P as).getD []
    else []

namespace State

section Delays

variable (s : State) (i : Nat) (e : Event) (j : Job) (c : Call) (m : Msg)

@[simp] theorem record_delays : (s.record e).delays = s.delays := rfl
@[simp] theorem setJob_delays : (s.setJob i j).delays = s.delays := rfl
@[simp] theorem dropJob_delays : (s.dropJob i).delays = s.delays := rfl
@[simp] theorem setCall_delays : (s.setCall i c).delays = s.delays := rfl
@[simp] theorem dropCall_delays : (s.dropCall i).delays = s.delays := rfl
@[simp] theorem requeue_delays : (s.requeue m).delays = s.delays := rfl

theorem repoStep_delays (o : Outcome) (fresh : Nat) (rc : RepoCall) :
    (s.repoStep o fresh rc).1.delays = s.delays := by
  rw [repoStep_fst]; rfl

theorem enqueue_delays (o : Outcome) (q : DelayQueue) :
    (s.enqueue o q m).delays = s.delays ∨ o.applied ∧ (s.enqueue o q m).delays =
      match q with
      | .wait => (s.now, s.wait ++ [m], s.retry)
      | .retry => (s.now, s.wait, s.retry ++ [m]) := by
  unfold enqueue
  split <;> rename_i h
  · exact .inr ⟨(Bool.and_eq_true _ _ ▸ h).1, by cases q <;> rfl⟩
  · exact .inl rfl

theorem publishWait_delays (o : Outcome) :
    (s.publishWait o m).delays = s.delays ∨
      (s.publishWait o m).delays = (s.now, s.wait ++ [m], s.retry) := by
  rcases publishWait_eq s m o with e | ⟨-, -, e⟩ <;> rw [e]
  · exact (enqueue_delays s m o .wait).imp_right And.right
  · exact .inl rfl

end Delays

variable {s s' s₁ : State} {i : Nat}

theorem advanceCall_delays (o : Outcome) (fresh : Nat) (c : Call) :
    (s.advanceCall i o fresh c).delays = s.delays ∨
      ∃ n, (s.advanceCall i o fresh c).delays = (s.now, s.wait ++ [publishMsg s.now n], s.retry) := by
  cases c with
  | publish n =>
    rw [advanceCall_publish]
    rcases publishWait_delays s (publishMsg s.now n) o with h | h
    · left; split_ifs <;> simp only [dropCall_delays, record_delays, h]
    · split_ifs
      · exact .inl rfl
      · exact .inr ⟨n, by simp only [dropCall_delays, record_delays, h]⟩
      · exact .inr ⟨n, by simp only [dropCall_delays, h]⟩
  | create rc | get rc | cancelLookup _ rc | cancelDelete _ rc =>
    left
    rcases hp : s.repoStep o fresh rc with ⟨s₁, r⟩
    have h₁ : s₁.delays = s.delays := by rw [← repoStep_delays s o fresh rc, hp]
    simp only [advanceCall, hp]
    rcases r with c' | ⟨n⟩ | _ | e <;> dsimp only <;> (try split_ifs) <;>
      simp only [setCall_delays, dropCall_delays, record_delays, h₁]

theorem advanceJob_delays {o : Outcome} {j : Job} (h : s.advanceJob i o j = some s') :
    s'.delays = s.delays ∨ ∃ n d, s'.delays = (s.now, s.wait, s.retry ++ [publishRetryMsg s.now n d]) := by
  cases hpc : j.pc with
  | revalidate c =>
    rcases hp : s.repoStep o 0 c with ⟨s₁, r⟩
    have h₁ : s₁.delays = s.delays := by rw [← repoStep_delays s o 0 c, hp]
    left
    rcases advanceJob_revalidate hpc hp h with ⟨_, -, rfl⟩ | ⟨_, -, -, rfl⟩ | ⟨_, -, -, rfl⟩ |
      ⟨-, -, rfl⟩ <;> simp only [setJob_delays, record_delays, h₁]
  | update c =>
    rcases hp : s.repoStep o 0 c with ⟨s₁, r⟩
    have h₁ : s₁.delays = s.delays := by rw [← repoStep_delays s o 0 c, hp]
    left
    rcases advanceJob_update hpc hp h with ⟨_, -, rfl⟩ | ⟨_, -, rfl⟩ | ⟨-, -, rfl⟩ <;>
      simp only [setJob_delays, h₁]
  | publishRetry =>
    have he := enqueue_delays s (publishRetryMsg s.now j.notification
      (calculateExponentialBackoff j.notification.attempts)) o .retry
    rcases advanceJob_publishRetry hpc h with ⟨-, rfl⟩ | ⟨-, rfl⟩ <;>
      simp only [setJob_delays, record_delays] <;> rcases he with he | ⟨-, he⟩ <;> rw [he]
    all_goals first | exact .inl rfl | exact .inr ⟨_, _, rfl⟩
  | ack => rcases advanceJob_ack hpc h with ⟨-, rfl⟩ | ⟨-, rfl⟩ <;> simp
  | ackUnchecked => rcases advanceJob_ackUnchecked hpc h with ⟨-, rfl⟩ | ⟨-, rfl⟩ <;> simp
  | nack => rw [advanceJob_nack hpc h]; simp
  | send => exact absurd hpc (advanceJob_pc h)

theorem step_delays {a : Action} (hs : s.step a = some s') :
    (s.release a = [] ∧ (s'.delays = s.delays ∨
      (∃ n, s'.delays = (s.now, s.wait ++ [publishMsg s.now n], s.retry)) ∨
      (∃ n d, s'.delays = (s.now, s.wait, s.retry ++ [publishRetryMsg s.now n d])) ∨
      (∃ δ, a = .tick δ ∧ s'.delays = (s.now + δ, s.wait, s.retry)))) ∨
    (∃ q m rest, a = .deadLetter q ∧ deadLetter s.now (s.queue q) = some (m, rest) ∧
      s.release a = [(q, m, s.now)] ∧ s'.delays = (s.setQueue q rest).delays) := by
  cases a with
  | create uuid req address chatID =>
    simp only [step] at hs
    split at hs <;> cases hs <;> exact .inl ⟨rfl, .inl rfl⟩
  | get id | cancel id | expire id => cases hs; exact .inl ⟨rfl, .inl rfl⟩
  | call i o fresh =>
    obtain ⟨c, -, rfl⟩ := Option.map_eq_some'.1 hs
    exact .inl ⟨rfl, (advanceCall_delays o fresh c).imp_right .inl⟩
  | deliver i =>
    obtain ⟨m, -, rfl⟩ := Option.map_eq_some'.1 hs
    exact .inl ⟨rfl, .inl rfl⟩
  | job i o =>
    obtain ⟨j, -, h⟩ := Option.bind_eq_some.1 hs
    exact .inl ⟨rfl, (advanceJob_delays h).imp_right fun h => .inr (.inl h)⟩
  | send i ok =>
    obtain ⟨j, -, h⟩ := Option.bind_eq_some.1 hs
    obtain ⟨-, ⟨-, rfl⟩ | ⟨-, -, rfl⟩ | ⟨-, -, rfl⟩⟩ := sendJob_cases h <;>
      exact .inl ⟨rfl, .inl rfl⟩
  | crashJob i | crashCall i =>
    obtain ⟨_, -, rfl⟩ := Option.map_eq_some'.1 hs
    exact .inl ⟨rfl, .inl rfl⟩
  | deadLetter q =>
    obtain ⟨⟨m, rest⟩, hdl, rfl⟩ := Option.map_eq_some'.1 hs
    exact .inr ⟨q, m, rest, rfl, hdl, by simp [release, hdl], rfl⟩
  | tick δ => cases hs; exact .inl ⟨rfl, .inr (.inr (.inr ⟨δ, rfl, rfl⟩))⟩

theorem releases_cons {P : State → Action → Bool} {a : Action} {as : List Action}
    (hp : P s a) (hs : s.step a = some s') :
    s.releases P (a :: as) = s.release a ++ s'.releases P as := by
  simp [releases, hp, hs]

end State

variable {s s' : State} {b : Broker}

theorem broker_step {a : Action} (hb : b.delays = s.delays) (hp : promptBroker s a)
    (hs : s.step a = some s') :
    (b.delays = s'.delays ∧ s.release a = []) ∨ ∃ ba b', b.prompt ba ∧ b.step ba = some b' ∧
      b'.delays = s'.delays ∧ b'.released = b.released ++ s.release a := by
  obtain ⟨hn, hw, hr⟩ : b.now = s.now ∧ b.wait = s.wait ∧ b.retry = s.retry := by
    simpa [Broker.delays, State.delays] using hb
  rcases State.step_delays hs with ⟨hrel, h | ⟨n, h⟩ | ⟨n, d, h⟩ | ⟨δ, rfl, h⟩⟩ |
    ⟨q, m, rest, rfl, hdl, hrel, h⟩
  · exact .inl ⟨hb.trans h.symm, hrel⟩
  · exact .inr ⟨.publish n, _, rfl, rfl, by simp [h, Broker.delays, hn, hw, hr], by simp [hrel]⟩
  · exact .inr ⟨.publishRetry n d, _, rfl, rfl, by simp [h, Broker.delays, hn, hw, hr],
      by simp [hrel]⟩
  · refine .inr ⟨.tick δ, _, ?_, rfl, by simp [h, Broker.delays, hn, hw, hr], by simp [hrel]⟩
    simpa [Broker.prompt, promptBroker, hn, hw, hr] using hp
  · have hq : b.queue q = s.queue q := by cases q <;> simp [Broker.queue, State.queue, hw, hr]
    refine .inr ⟨.deadLetter q, { b.setQueue q rest with released := b.released ++ [(q, m, b.now)] },
      rfl, by simp [Broker.step, hq, hdl, hn], ?_, by rw [hrel, hn]⟩
    rw [h]
    cases q <;> simp [Broker.setQueue, State.setQueue, Broker.delays, State.delays, hn, hw, hr]

theorem broker_run {b₀ : Broker} {s₀ : State} {as : List Action}
    (hb₀ : DelayQueue.Reach Broker.prompt b₀) (he : b₀.delays = s₀.delays)
    (h : s₀.run promptBroker as = some s) :
    ∃ b, DelayQueue.Reach Broker.prompt b ∧ b.delays = s.delays ∧
      b.released = b₀.released ++ s₀.releases promptBroker as := by
  induction as generalizing s₀ b₀ with
  | nil => cases h; exact ⟨b₀, hb₀, he, by simp [State.releases]⟩
  | cons a as ih =>
    simp only [State.run] at h
    split_ifs at h with hp
    obtain ⟨s₁, hs, h⟩ := Option.bind_eq_some.1 h
    rw [State.releases_cons hp hs]
    rcases broker_step he hp hs with ⟨e, hrel⟩ | ⟨ba, b₁, hba, hs₁, e, hrel⟩
    · obtain ⟨b, hb, e', hre⟩ := ih hb₀ e h
      exact ⟨b, hb, e', by rw [hre, hrel, List.nil_append]⟩
    · obtain ⟨b, hb, e', hre⟩ := ih (hb₀.next hba hs₁) e h
      exact ⟨b, hb, e', by rw [hre, hrel, List.append_assoc]⟩

/-- Whatever the API calls and the workers do and whatever fails, with a broker that
dead-letters every due head before the clock passes it, every run of the system is followed by
a run of the broker model that ends with its clock and delay queues and has dead-lettered the
same messages from the same queues in the same order, each at the later of its due instant
(its publish instant when the expiration is negative) and the instant the message before it
left that queue. -/
theorem delay_queues_refine_broker {now : Int} {as : List Action}
    (h : (State.init now).run promptBroker as = some s) :
    ∃ b, DelayQueue.Reach Broker.prompt b ∧ b.now = s.now ∧ b.wait = s.wait ∧ b.retry = s.retry ∧
      b.released = (State.init now).releases promptBroker as ∧
      ∀ i q m t, ((State.init now).releases promptBroker as)[i]? = some (q, m, t) →
        t = max (max m.due m.publishedAt)
          ((lastRelease (((State.init now).releases promptBroker as).take i) q).getD
            m.publishedAt) := by
  have he : (Broker.init now).delays = (State.init now).delays := rfl
  obtain ⟨b, hb, e, hre⟩ := broker_run (.init now) he h
  obtain ⟨hn, hw, hr⟩ : b.now = s.now ∧ b.wait = s.wait ∧ b.retry = s.retry := by
    simpa [Broker.delays, State.delays] using e
  have hre' : b.released = (State.init now).releases promptBroker as := by
    simpa [Broker.init] using hre
  refine ⟨b, hb, hn, hw, hr, hre', fun i q m t hi => ?_⟩
  rw [← hre'] at hi ⊢
  exact (reach_onTime hb).log i q m t hi

private def releasedOnTime : List Action :=
  [.create 0 ⟨"a@b.co", "email", "s", "", 1500000, none⟩ (.ok ()) (.error ""), .call 0 .ok 1,
   .call 0 .ok 0, .call 0 .ok 0, .tick 1000000, .deadLetter .wait]

set_option maxRecDepth 20000 in
theorem delay_queues_refine_broker_on_release :
    ∃ s, (State.init 0).run promptBroker releasedOnTime = some s ∧ s.process.length = 1 ∧
      ((State.init 0).releases promptBroker releasedOnTime).length = 1 ∧
      ∃ b, DelayQueue.Reach Broker.prompt b ∧ b.now = s.now ∧ b.wait = s.wait ∧
        b.retry = s.retry ∧ b.released = (State.init 0).releases promptBroker releasedOnTime ∧
        ∀ i q m t, ((State.init 0).releases promptBroker releasedOnTime)[i]? = some (q, m, t) →
          t = max (max m.due m.publishedAt)
            ((lastRelease (((State.init 0).releases promptBroker releasedOnTime).take i) q).getD
              m.publishedAt) := by
  have h : ((State.init 0).run promptBroker releasedOnTime).map (·.process.length) = some 1 := by
    decide
  have hl : ((State.init 0).releases promptBroker releasedOnTime).length = 1 := by decide
  cases hrun : (State.init 0).run promptBroker releasedOnTime with
  | none => simp [hrun] at h
  | some s =>
    simp only [hrun, Option.map_some', Option.some.injEq] at h
    exact ⟨s, rfl, h, hl, delay_queues_refine_broker hrun⟩

end DelayedNotifier
