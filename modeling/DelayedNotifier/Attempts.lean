import DelayedNotifier.Lineage

/-!
# Attempts stay in range on every run

The retry count travels in the message. `Publish` sends the record `Save` returned, with no
attempts; `handleSendError` counts a failed `Send` on the worker's copy and republishes it only
below `maxRetries`; and every redelivery (a `Nack` with requeue, a failed `Ack`, a worker that
stops) hands the broker back the message as it was received. So on every run, with any
failure, each queued message carries `0 ≤ attempts ≤ 4`, each worker `Update` writes
`0 ≤ attempts ≤ 5`, which `int16` keeps, and each `PublishRetry` is passed
`calculateExponentialBackoff k = 5 * 2 ^ k` seconds, `k` the attempts it carries, `1 ≤ k ≤ 4`,
which its `Expiration` gives to the millisecond (`attempts_in_range`).
-/

namespace DelayedNotifier

def Job.Counted (j : Job) : Prop :=
  (0 ≤ j.msg.body.attempts ∧ j.msg.body.attempts ≤ 4) ∧
    match j.pc with
    | .revalidate _ | .send => 0 ≤ j.notification.attempts ∧ j.notification.attempts ≤ 4
    | .publishRetry => 1 ≤ j.notification.attempts ∧ j.notification.attempts ≤ 4
    | .update (.update n) => 0 ≤ n.attempts ∧ n.attempts ≤ 5
    | _ => True

def Call.Counted : Call → Prop
  | .create (.save n) | .create (.saveFill n) | .publish n => n.attempts = 0
  | .create _ => False
  | _ => True

/-- Every message on a queue carries `0 ≤ attempts ≤ 4`, and every worker and call holds what
its place allows. -/
structure State.Counted (s : State) : Prop where
  queued : ∀ m ∈ s.wait ++ s.retry ++ s.process, 0 ≤ m.body.attempts ∧ m.body.attempts ≤ 4
  jobs : ∀ j ∈ s.jobs, j.Counted
  calls : ∀ c ∈ s.calls, c.Counted

theorem backoff_exact {a : Int} (h₁ : 1 ≤ a) (h₄ : a ≤ 4) :
    ∃ k : Nat, 1 ≤ k ∧ k ≤ 4 ∧ a = k ∧ calculateExponentialBackoff k = 5 * 2 ^ k * second ∧
      ∀ t n, (publishRetryMsg t n (calculateExponentialBackoff k)).expiration * 1000000 =
        calculateExponentialBackoff k := by
  obtain ⟨k, rfl⟩ := Int.eq_ofNat_of_zero_le (by omega : 0 ≤ a)
  have hk := calculateExponentialBackoff_of_le (a := k) (by omega)
  refine ⟨k, by omega, by omega, rfl, hk, fun t n => ?_⟩
  have := publishRetryMsg_due t n k
  simp only [Msg.due, publishRetryMsg, hk] at this ⊢
  omega

namespace State

variable {s s' : State} {i : Nat} {m : Msg} {j : Job}

theorem Counted.record (h : s.Counted) (e : Event) : (s.record e).Counted :=
  ⟨h.queued, h.jobs, h.calls⟩

theorem Counted.setJob (h : s.Counted) {j' : Job} (hj' : j'.Counted) : (s.setJob i j').Counted :=
  ⟨h.queued, fun x hx => (List.mem_or_eq_of_mem_set hx).elim (h.jobs x) (· ▸ hj'), h.calls⟩

theorem Counted.dropJob (h : s.Counted) : (s.dropJob i).Counted :=
  ⟨h.queued, fun x hx => h.jobs x (List.mem_of_mem_eraseIdx hx), h.calls⟩

theorem Counted.setCall (h : s.Counted) {c : Call} (hc : c.Counted) : (s.setCall i c).Counted :=
  ⟨h.queued, h.jobs, fun x hx => (List.mem_or_eq_of_mem_set hx).elim (h.calls x) (· ▸ hc)⟩

theorem Counted.dropCall (h : s.Counted) : (s.dropCall i).Counted :=
  ⟨h.queued, h.jobs, fun x hx => h.calls x (List.mem_of_mem_eraseIdx hx)⟩

theorem Counted.requeue (h : s.Counted) (hm : 0 ≤ m.body.attempts ∧ m.body.attempts ≤ 4) :
    (s.requeue m).Counted := by
  refine ⟨fun x hx => ?_, h.jobs, h.calls⟩
  simp only [requeue_queues, ← List.append_assoc, List.mem_append, List.mem_singleton] at hx
  rcases hx with hx | rfl
  · exact h.queued x (by simpa only [List.mem_append] using hx)
  · exact hm

theorem Counted.enqueue (h : s.Counted) (o : Outcome) (q : DelayQueue)
    (hm : 0 ≤ m.body.attempts ∧ m.body.attempts ≤ 4) : (s.enqueue o q m).Counted :=
  ⟨fun x hx => (mem_enqueue hx).elim (h.queued x) (· ▸ hm), by simpa using h.jobs,
    by simpa using h.calls⟩

theorem Counted.publishWait (h : s.Counted) (o : Outcome)
    (hm : 0 ≤ m.body.attempts ∧ m.body.attempts ≤ 4) : (s.publishWait o m).Counted := by
  rcases publishWait_eq s m o with e | ⟨-, -, e⟩ <;> rw [e]
  · exact h.enqueue o .wait hm
  · exact h.record _

theorem Counted.setQueue (h : s.Counted) {q : DelayQueue} {rest : List Msg}
    (hq : s.queue q = m :: rest) : (s.setQueue q rest).Counted := by
  exact ⟨fun x hx => h.queued x (mem_setQueue hq hx), by cases q <;> exact h.jobs,
    by cases q <;> exact h.calls⟩

theorem Counted.repoStep (h : s.Counted) {o : Outcome} {fresh : Nat} {c : RepoCall}
    {s₁ : State} {r : RepoCall ⊕ RepoReply} (hp : s.repoStep o fresh c = (s₁, r)) : s₁.Counted := by
  obtain ⟨rfl, -⟩ := repoStep_eq hp
  exact ⟨h.queued, h.jobs, h.calls⟩

theorem Counted.advanceJob (h : s.Counted) (hj : s.jobs[i]? = some j) {o : Outcome}
    (hs : s.advanceJob i o j = some s') : s'.Counted := by
  have hc := h.jobs j (List.getElem?_mem hj)
  cases hpc : j.pc with
  | revalidate c =>
    have hn : 0 ≤ j.notification.attempts ∧ j.notification.attempts ≤ 4 := by
      simpa [Job.Counted, hpc] using hc.2
    rcases hp : s.repoStep o 0 c with ⟨s₁, r⟩
    have h₁ := h.repoStep hp
    rcases advanceJob_revalidate hpc hp hs with
      ⟨_, -, rfl⟩ | ⟨_, -, -, rfl⟩ | ⟨_, -, -, rfl⟩ | ⟨-, -, rfl⟩
    · exact h₁.setJob ⟨hc.1, hn⟩
    · exact (h₁.record _).setJob ⟨hc.1, hn⟩
    · exact ((h₁.record _).record _).setJob ⟨hc.1, trivial⟩
    · exact (h₁.record _).setJob ⟨hc.1, trivial⟩
  | update c =>
    rcases hp : s.repoStep o 0 c with ⟨s₁, r⟩
    have h₁ := h.repoStep hp
    have hr : (c.step o 0 s.now s.db).2 = r := by rw [← repoStep_snd, hp]
    rcases advanceJob_update hpc hp hs with ⟨c', rfl, rfl⟩ | ⟨_, -, rfl⟩ | ⟨-, -, rfl⟩
    · rcases RepoCall.step_inl o c hr with ⟨_, -, rfl⟩ | ⟨_, _, -, -, rfl⟩ | ⟨_, _, -, -, rfl⟩ |
        ⟨_, _, -, -, rfl⟩ | ⟨_, _, -, -, rfl⟩ <;> exact h₁.setJob ⟨hc.1, trivial⟩
    · exact h₁.setJob ⟨hc.1, trivial⟩
    · exact h₁.setJob ⟨hc.1, trivial⟩
  | send => exact absurd hpc (advanceJob_pc hs)
  | publishRetry =>
    have hn : 1 ≤ j.notification.attempts ∧ j.notification.attempts ≤ 4 := by
      simpa [Job.Counted, hpc] using hc.2
    have h₁ := h.enqueue o .retry (m := publishRetryMsg s.now j.notification
      (calculateExponentialBackoff j.notification.attempts)) ⟨by simp [publishRetryMsg]; omega,
        by simp [publishRetryMsg]; omega⟩
    rcases advanceJob_publishRetry hpc hs with ⟨-, rfl⟩ | ⟨-, rfl⟩
    · exact (h₁.record _).setJob ⟨hc.1, trivial⟩
    · exact h₁.setJob ⟨hc.1, trivial⟩
  | ack =>
    rcases advanceJob_ack hpc hs with ⟨-, rfl⟩ | ⟨-, rfl⟩
    · exact h.dropJob
    · exact h.dropJob.requeue hc.1
  | ackUnchecked =>
    rcases advanceJob_ackUnchecked hpc hs with ⟨-, rfl⟩ | ⟨-, rfl⟩
    · exact (h.record _).dropJob
    · exact h.dropJob.requeue hc.1
  | nack =>
    rw [advanceJob_nack hpc hs]
    exact h.dropJob.requeue hc.1

theorem Counted.sendJob (h : s.Counted) (hj : s.jobs[i]? = some j) {ok : Bool}
    (hs : s.sendJob i ok j = some s') : s'.Counted := by
  have hc := h.jobs j (List.getElem?_mem hj)
  obtain ⟨hpc, hcases⟩ := sendJob_cases hs
  have hn : 0 ≤ j.notification.attempts ∧ j.notification.attempts ≤ 4 := by
    simpa [Job.Counted, hpc] using hc.2
  have h5 : maxRetries = 5 := rfl
  have h₁ := h.record (.send j.notification s.now ok)
  rcases hcases with ⟨-, rfl⟩ | ⟨-, -, rfl⟩ | ⟨-, hlt, rfl⟩
  · exact h₁.setJob ⟨hc.1, hn.1, by simp only; omega⟩
  · exact h₁.setJob ⟨hc.1, by simp only; omega, by simp only; omega⟩
  · exact h₁.setJob ⟨hc.1, by simp only; omega, by simp only; omega⟩

theorem Counted.advanceCall (h : s.Counted) {c : Call} (hc : s.calls[i]? = some c) (o : Outcome)
    (fresh : Nat) : (s.advanceCall i o fresh c).Counted := by
  have hcc := h.calls c (List.getElem?_mem hc)
  cases c with
  | create c₀ =>
    rcases hp : s.repoStep o fresh c₀ with ⟨s₁, r⟩
    have h₁ := h.repoStep hp
    have hr : (c₀.step o fresh s.now s.db).2 = r := by rw [← repoStep_snd, hp]
    rcases advanceCall_create (i := i) hp with ⟨c', rfl, he⟩ | ⟨n, rfl, he⟩ | ⟨-, -, he⟩ <;>
      rw [he]
    · rcases c₀ with _ | _ | _ | n | n | _ | _ | _ | _ <;> simp only [Call.Counted] at hcc
      · rcases RepoCall.step_inl o _ hr with ⟨_, h₂, -⟩ | ⟨_, _, h₂, -⟩ | ⟨_, _, -, -, rfl⟩ |
          ⟨_, _, h₂, -⟩ | ⟨_, _, h₂, -⟩ <;> try cases h₂
        exact h₁.setCall (RepoCall.save_fill hcc hr rfl).2.1
      · cases hr
    · rcases RepoCall.step_record o c₀ hr with ⟨_, rfl, -⟩ | hf
      · exact hcc.elim
      · rcases c₀ with _ | _ | _ | _ | n' | _ | _ | _ | _ <;>
          simp only [RepoCall.filling, reduceCtorEq, Option.some.injEq, Call.Counted] at hf hcc
        subst hf
        exact h₁.setCall hcc
    · exact h₁.dropCall
  | publish n =>
    have hm : 0 ≤ (publishMsg s.now n).body.attempts ∧ (publishMsg s.now n).body.attempts ≤ 4 := by
      simp only [publishMsg, show n.attempts = 0 from hcc]; omega
    rw [advanceCall_publish]
    split_ifs
    · exact h.dropCall
    · exact ((h.publishWait o hm).record _).dropCall
    · exact (h.publishWait o hm).dropCall
  | get c₀ =>
    rcases hp : s.repoStep o fresh c₀ with ⟨s₁, r⟩
    have h₁ := h.repoStep hp
    rcases advanceCall_get (i := i) hp with ⟨_, -, he⟩ | ⟨_, -, he⟩ | ⟨-, -, he⟩ <;> rw [he]
    · exact h₁.setCall trivial
    · exact (h₁.record _).dropCall
    · exact h₁.dropCall
  | cancelLookup id c₀ =>
    rcases hp : s.repoStep o fresh c₀ with ⟨s₁, r⟩
    have h₁ := h.repoStep hp
    rcases advanceCall_cancelLookup (i := i) hp with
      ⟨_, -, he⟩ | ⟨_, -, -, he⟩ | ⟨_, -, -, he⟩ | ⟨-, -, he⟩ <;> rw [he]
    · exact h₁.setCall trivial
    · exact (h₁.record _).setCall trivial
    · exact (h₁.record _).dropCall
    · exact h₁.dropCall
  | cancelDelete id c₀ =>
    rcases hp : s.repoStep o fresh c₀ with ⟨s₁, r⟩
    have h₁ := h.repoStep hp
    rcases advanceCall_cancelDelete (i := i) hp with ⟨_, -, he⟩ | ⟨-, he⟩ | ⟨-, -, he⟩ <;> rw [he]
    · exact h₁.setCall trivial
    · exact (h₁.record _).dropCall
    · exact h₁.dropCall

end State

theorem counted_step {s s' : State} (h : s.Counted) {a : Action} (hs : s.step a = some s') :
    s'.Counted := by
  have hadd : ∀ c : Call, c.Counted → ({ s with calls := s.calls ++ [c] } : State).Counted :=
    fun c hc => ⟨h.queued, h.jobs, fun x hx =>
      (List.mem_append.1 hx).elim (h.calls x) fun e => List.mem_singleton.1 e ▸ hc⟩
  cases a with
  | create uuid req address chatID =>
    simp only [State.step] at hs
    split at hs <;> cases hs
    · exact hadd _ (validate_fresh ‹_›).1
    · exact h
  | get id => cases hs; exact hadd _ trivial
  | cancel id => cases hs; exact hadd _ trivial
  | call i o fresh =>
    obtain ⟨c, hc, rfl⟩ := Option.map_eq_some'.1 hs
    exact h.advanceCall hc o fresh
  | deliver i =>
    obtain ⟨m, hm, rfl⟩ := Option.map_eq_some'.1 hs
    have hb := h.queued m (by simp [List.getElem?_mem hm])
    refine ⟨fun x hx => h.queued x ?_, fun x hx => ?_, h.calls⟩
    · simp only [List.mem_append] at hx ⊢
      exact hx.imp_right List.mem_of_mem_eraseIdx
    · rcases List.mem_append.1 hx with hx | hx
      · exact h.jobs x hx
      · rw [List.mem_singleton.1 hx]; exact ⟨hb, hb⟩
  | job i o =>
    obtain ⟨j, hj, hs⟩ := Option.bind_eq_some.1 hs
    exact h.advanceJob hj hs
  | send i ok =>
    obtain ⟨j, hj, hs⟩ := Option.bind_eq_some.1 hs
    exact h.sendJob hj hs
  | crashJob i =>
    obtain ⟨j, hj, rfl⟩ := Option.map_eq_some'.1 hs
    exact h.dropJob.requeue (h.jobs j (List.getElem?_mem hj)).1
  | crashCall i =>
    obtain ⟨c, -, rfl⟩ := Option.map_eq_some'.1 hs
    exact h.dropCall
  | deadLetter q =>
    obtain ⟨⟨m, rest⟩, hd, rfl⟩ := Option.map_eq_some'.1 hs
    obtain ⟨hq, -⟩ := deadLetter_some hd
    exact (h.setQueue hq).requeue (h.queued m (by cases q <;> simp_all [State.queue]))
  | tick δ => cases hs; exact ⟨h.queued, h.jobs, h.calls⟩
  | expire id => cases hs; exact ⟨h.queued, h.jobs, h.calls⟩

theorem reach_counted {P : State → Action → Bool} {s : State} (h : Reach P s) : s.Counted := by
  induction h with
  | init now => exact ⟨fun _ h => (by cases h), fun _ h => (by cases h), fun _ h => (by cases h)⟩
  | next _ _ hs ih => exact counted_step ih hs

private def firstSendFailed : List Action :=
  [.create 0 ⟨"a@b.co", "email", "s", "", 0, none⟩ (.ok ()) (.error ""), .call 0 .ok 1,
   .call 0 .ok 0, .call 0 .ok 0, .deadLetter .wait, .deliver 0, .job 0 .ok, .send 0 false]

end DelayedNotifier
