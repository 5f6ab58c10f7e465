import DelayedNotifier.Delivery
import DelayedNotifier.RepoRefinement

/-!
# What a returned cancel stops

`CancelNotification(id)` reads the status, sets it to `cancelled` and deletes the cache entry;
the worker reads the status before `Send` and never again. A worker that read `scheduled`
before the cancel's `UPDATE` therefore still sends after the cancel returned
(`send_after_cancel`), even when every round trip succeeds. Nothing else does, as long as no
row is written under a pending fill of it: the row stays out of `scheduled`, the cache never
again holds a `scheduled` copy of it (`State.Hushed`), every fill is the current row
(`reach_coherent_repo`), so no later revalidation passes, and the `Send`s after the return
are at most the workers that were about to send at the return (`sends_after_cancel_le`).
The cancel's `UPDATE` does not check the status it overwrites either: a cancel that read
`scheduled` overwrites a `sent` that a worker committed in between (`cancel_overwrites_sent`).
-/

namespace DelayedNotifier

open CacheAside

def Event.sendOf (k : Nat) : Event → Bool
  | .send n _ _ => n.id == k
  | _ => false

def sendsFor (k : Nat) (l : List Event) : Nat := l.countP (Event.sendOf k)

def Job.armed (k : Nat) (j : Job) : Bool := j.pc == .send && j.notification.id == k

/-- After `CancelNotification(k)` returned, the cache holds no `scheduled` copy of `k`. -/
def State.Hushed (s : State) : Prop :=
  ∀ k n, Event.cancel k ∈ s.log → s.db.cache k = some n → n.status ≠ .scheduled

namespace State

def armed (s : State) (k : Nat) : Nat := s.jobs.countP (Job.armed k)

variable {s s' s₁ : State} {i k : Nat} {j : Job}

theorem sendsFor_append (l l' : List Event) : sendsFor k (l ++ l') = sendsFor k l + sendsFor k l' :=
  List.countP_append _ _ _

@[simp] theorem sendsFor_nil : sendsFor k [] = 0 := rfl

@[simp] theorem sendsFor_cons (e : Event) (l : List Event) :
    sendsFor k (e :: l) = sendsFor k l + if e.sendOf k then 1 else 0 := List.countP_cons _ _ _

@[simp] theorem sendsFor_write (rs : List Row) : sendsFor k (rs.map .write) = 0 := by
  simp [sendsFor, List.countP_eq_zero, Event.sendOf]

theorem armed_set (hj : s.jobs[i]? = some j) (j' : Job) :
    (s.jobs.set i j').countP (Job.armed k) + (if j.armed k then 1 else 0) =
      s.armed k + (if j'.armed k then 1 else 0) := by
  obtain ⟨pre, post, hl, hs, -⟩ := pool_split hj j'
  rw [hs, armed, hl]
  simp only [List.countP_append, List.countP_cons]
  omega

theorem armed_set_le (hj : s.jobs[i]? = some j) {j' : Job} (h : j'.armed k = true → j.armed k = true) :
    (s.jobs.set i j').countP (Job.armed k) ≤ s.armed k := by
  have := armed_set (k := k) hj j'
  split_ifs at this with h₁ h₂ h₂
  all_goals first | omega | exact absurd (h ‹_›) ‹_›

theorem armed_eraseIdx_le (hj : s.jobs[i]? = some j) :
    (s.jobs.eraseIdx i).countP (Job.armed k) ≤ s.armed k := by
  obtain ⟨pre, post, hl, -, he⟩ := pool_split hj j
  rw [he, armed, hl]
  simp only [List.countP_append, List.countP_cons]
  omega

theorem Hushed.of_log (h : s₁.Hushed) (hdb : s'.db = s₁.db)
    (hlog : ∀ k, Event.cancel k ∈ s'.log → Event.cancel k ∈ s₁.log) : s'.Hushed :=
  fun k n hk hn => h k n (hlog k hk) (hdb ▸ hn)

theorem Hushed.repoStep (h : s.Hushed) (hv : s.Vouched) (hc : Coherent s.repo) {c : RepoCall}
    (hm : c ∈ s.pool) (o : Outcome) (fresh : Nat) : (s.repoStep o fresh c).1.Hushed := by
  intro k n hk hn
  rw [repoStep_fst] at hk hn
  simp only [List.mem_append, List.mem_map, Option.mem_toList, reduceCtorEq, and_false,
    exists_false, or_false] at hk
  rcases @RepoCall.step_db fresh s.now s.db o c with
    he | ⟨m, hf, he⟩ | ⟨k', he⟩ | ⟨r, -, he⟩ <;> rw [he] at hn
  · exact h k n hk hn
  · simp only [Db.cacheSet] at hn
    split_ifs at hn
    · dsimp only at hn
      rw [Function.update_apply] at hn
      split_ifs at hn with hkm
      · cases hn
        obtain ⟨r, hr, rfl⟩ := hc.fills c hm n hf
        obtain ⟨r', hr', hne⟩ := hv.cancelled k hk
        have hr₀ : s.db.rows k = some r := hkm ▸ hr
        rw [hr₀] at hr'; cases hr'
        exact hne
      · exact h k n hk hn
    · exact h k n hk hn
  · simp only [Db.cacheDelete] at hn
    split_ifs at hn
    · dsimp only at hn
      rw [Function.update_apply] at hn
      split_ifs at hn
      exact h k n hk hn
    · exact h k n hk hn
  · exact h k n hk hn

theorem potential_setJob (hj : s.jobs[i]? = some j) {s₀ : State} {j' : Job}
    (h₀ : s₀.jobs = s.jobs) (harm : j'.armed k = true → j.armed k = true)
    (hlog : sendsFor k s₀.log = sendsFor k s.log) :
    sendsFor k (s₀.setJob i j').log + (s₀.setJob i j').armed k ≤ sendsFor k s.log + s.armed k := by
  have := armed_set_le hj harm
  rw [setJob_log, hlog, armed, setJob_jobs, h₀]
  omega

theorem potential_dropJob (hj : s.jobs[i]? = some j) (hjobs : s'.jobs = s.jobs.eraseIdx i)
    (hlog : sendsFor k s'.log = sendsFor k s.log) :
    sendsFor k s'.log + s'.armed k ≤ sendsFor k s.log + s.armed k := by
  have := armed_eraseIdx_le (k := k) hj
  rw [hlog, armed, hjobs]
  omega

theorem Hushed.record_cancel (h : s.Hushed) (hnone : s.db.cache k = none) :
    (s.record (.cancel k)).Hushed := by
  intro k' n hk hn
  simp only [record_log, List.mem_append, List.mem_singleton, Event.cancel.injEq] at hk
  rcases hk with hk | rfl
  · exact h k' n hk hn
  · rw [record_db, hnone] at hn; cases hn

theorem revalidate_reads_settled (hq : s.Hushed) (hv : s.Vouched) (hc : Coherent s.repo)
    (hj : s.jobs[i]? = some j) {c : RepoCall} (hpc : j.pc = .revalidate c)
    (hk : Event.cancel j.notification.id ∈ s.log) {o : Outcome} {n : Notification}
    (hr : (c.step o 0 s.now s.db).2 = .inr (.record n)) : n.status ≠ .scheduled := by
  have hsh := (hv.jobs j (List.getElem?_mem hj)).2
  rw [hpc] at hsh
  rcases RepoCall.step_record o c hr with ⟨k', rfl, hn⟩ | hf
  · exact hq _ n (hsh ▸ hk) hn
  · have hm : c ∈ s.pool :=
      List.mem_append_left _ (List.mem_filterMap.2 ⟨j, List.getElem?_mem hj, by rw [hpc]; rfl⟩)
    obtain ⟨r, hr₁, rfl⟩ := hc.fills c hm n hf
    have hid : (toDomainModel r).id = j.notification.id := by
      cases c with
      | getByIDFill m => cases hf; exact hsh.1
      | saveFill m => exact hsh.elim
      | _ => cases hf
    obtain ⟨r', hr', hne⟩ := hv.cancelled _ hk
    have hr₀ : s.db.rows j.notification.id = some r := hid ▸ hr₁
    rw [hr₀] at hr'; cases hr'
    exact hne

theorem quiet_step {a : Action} (hP : reliableFill s a) (hv : s.Vouched) (hc : Coherent s.repo)
    (hq : s.Hushed) (hs : s.step a = some s') :
    s'.Hushed ∧ ∀ k, Event.cancel k ∈ s.log →
      sendsFor k s'.log + s'.armed k ≤ sendsFor k s.log + s.armed k := by
  have hrepo : ∀ {o fresh c s₁ r}, c ∈ s.pool → s.repoStep o fresh c = (s₁, r) →
      s₁.Hushed ∧ s₁.jobs = s.jobs ∧ ∀ k, sendsFor k s₁.log = sendsFor k s.log := by
    intro o fresh c s₁ r hm hp
    have h₁ := hq.repoStep hv hc hm o fresh
    rw [hp] at h₁
    obtain ⟨rfl, -⟩ := repoStep_eq hp
    exact ⟨h₁, rfl, fun k => by simp [sendsFor_append]⟩
  cases a with
  | create uuid req address chatID =>
    simp only [step] at hs; split at hs <;> cases hs <;> exact ⟨hq, fun _ _ => le_rfl⟩
  | get id | cancel id | tick δ => cases hs; exact ⟨hq, fun _ _ => le_rfl⟩
  | expire id =>
    cases hs
    refine ⟨fun k n hk hn => ?_, fun _ _ => le_rfl⟩
    simp only [Db.cacheDelete, Outcome.applied, if_true] at hn
    rw [Function.update_apply] at hn
    split_ifs at hn
    exact hq k n hk hn
  | deadLetter q =>
    obtain ⟨⟨m, rest⟩, -, rfl⟩ := Option.map_eq_some'.1 hs
    cases q <;> exact ⟨hq, fun _ _ => le_rfl⟩
  | crashJob i | crashCall i => simp [reliableFill, reliable] at hP
  | deliver i =>
    obtain ⟨m, -, rfl⟩ := Option.map_eq_some'.1 hs
    exact ⟨hq, fun k _ => by simp [armed, List.countP_append, Job.armed]⟩
  | send i ok =>
    obtain ⟨j, hj, hs⟩ := Option.bind_eq_some.1 hs
    obtain ⟨hpc, h'⟩ := sendJob_cases hs
    obtain ⟨j', hj', rfl⟩ : ∃ j' : Job, j'.pc ≠ .send ∧
        s' = (s.record (.send j.notification s.now ok)).setJob i j' := by
      rcases h' with ⟨-, rfl⟩ | ⟨-, -, rfl⟩ | ⟨-, -, rfl⟩ <;> exact ⟨_, by simp, rfl⟩
    refine ⟨hq.of_log rfl fun k hk => by simpa using hk, fun k _ => ?_⟩
    have h₁ := armed_set (k := k) hj j'
    have hb : (j'.pc == .send) = false := by simpa using hj'
    simp only [Job.armed, hpc, hb, beq_self_eq_true, Bool.true_and, beq_iff_eq, Bool.false_and,
      Bool.false_eq_true, if_false, add_zero, armed] at h₁
    simp only [armed, setJob_jobs, record_jobs, setJob_log, record_log, sendsFor_append]
    simp only [sendsFor, Event.sendOf, List.countP_singleton, beq_iff_eq] at h₁ ⊢
    omega
  | job i o =>
    obtain ⟨j, hj, hs⟩ := Option.bind_eq_some.1 hs
    have hmem : ∀ {c}, j.pc = .revalidate c ∨ j.pc = .update c → c ∈ s.pool := fun h =>
      List.mem_append_left _ (List.mem_filterMap.2 ⟨j, List.getElem?_mem hj, by
        rcases h with h | h <;> rw [h] <;> rfl⟩)
    cases hpc : j.pc with
    | revalidate c =>
      rcases hp : s.repoStep o 0 c with ⟨s₁, r⟩
      obtain ⟨hq₁, hjobs₁, hsend₁⟩ := hrepo (hmem (.inl hpc)) hp
      have hr : (c.step o 0 s.now s.db).2 = r := by rw [← repoStep_snd, hp]
      rcases advanceJob_revalidate hpc hp hs with
          ⟨c', rfl, rfl⟩ | ⟨n, rfl, hn, rfl⟩ | ⟨n, rfl, -, rfl⟩ | ⟨-, -, rfl⟩ <;>
        refine ⟨hq₁.of_log (by simp) fun k hk => by simpa using hk, fun k hk => ?_⟩
      · exact potential_setJob hj hjobs₁ (by simp [Job.armed]) (hsend₁ k)
      · refine potential_setJob hj hjobs₁ (fun h => ?_)
          (by simp [hsend₁, sendsFor_append, Event.sendOf])
        simp only [Job.armed, beq_self_eq_true, Bool.true_and, beq_iff_eq] at h
        exact absurd hn (revalidate_reads_settled hq hv hc hj hpc (h ▸ hk) hr)
      · exact potential_setJob hj hjobs₁ (by simp [Job.armed])
          (by simp [hsend₁, sendsFor_append, Event.sendOf])
      · exact potential_setJob hj hjobs₁ (by simp [Job.armed])
          (by simp [hsend₁, sendsFor_append, Event.sendOf])
    | update c =>
      rcases hp : s.repoStep o 0 c with ⟨s₁, r⟩
      obtain ⟨hq₁, hjobs₁, hsend₁⟩ := hrepo (hmem (.inr hpc)) hp
      rcases advanceJob_update hpc hp hs with ⟨c', rfl, rfl⟩ | ⟨e, rfl, rfl⟩ | ⟨-, -, rfl⟩ <;>
        exact ⟨hq₁.of_log rfl fun k hk => hk, fun k _ =>
          potential_setJob hj hjobs₁ (by simp [Job.armed]) (hsend₁ k)⟩
    | send => exact absurd hpc (advanceJob_pc hs)
    | publishRetry =>
      rcases advanceJob_publishRetry hpc hs with ⟨-, rfl⟩ | ⟨-, rfl⟩ <;>
        exact ⟨hq.of_log (by simp) fun k hk => by simpa using hk, fun k _ =>
          potential_setJob hj (by simp) (by simp [Job.armed])
            (by simp [sendsFor_append, Event.sendOf])⟩
    | ack =>
      rcases advanceJob_ack hpc hs with ⟨-, rfl⟩ | ⟨-, rfl⟩ <;>
        exact ⟨hq.of_log rfl fun k hk => hk, fun k _ => potential_dropJob hj rfl rfl⟩
    | ackUnchecked =>
      rcases advanceJob_ackUnchecked hpc hs with ⟨-, rfl⟩ | ⟨-, rfl⟩
      · exact ⟨hq.of_log rfl fun k hk => by simpa using hk, fun k _ =>
          potential_dropJob hj rfl (by simp [sendsFor_append, Event.sendOf])⟩
      · exact ⟨hq.of_log rfl fun k hk => hk, fun k _ => potential_dropJob hj rfl rfl⟩
    | nack =>
      rw [advanceJob_nack hpc hs]
      exact ⟨hq.of_log rfl fun k hk => hk, fun k _ => potential_dropJob hj rfl rfl⟩
  | call i o fresh =>
    obtain ⟨x, hx, rfl⟩ := Option.map_eq_some'.1 hs
    have hmem : ∀ {c}, x.repoCall = some c → c ∈ s.pool := fun h =>
      List.mem_append_right _ (List.mem_filterMap.2 ⟨x, List.getElem?_mem hx, h⟩)
    have hok : o = .ok := by
      simp only [reliableFill, reliable, Bool.and_eq_true, beq_iff_eq] at hP; exact hP.1
    cases x with
    | publish n =>
      rw [advanceCall_publish]
      rcases publishWait_eq s (publishMsg s.now n) o with e | ⟨-, -, e⟩ <;> rw [e] <;>
        split_ifs <;> exact ⟨hq.of_log (by simp) fun k hk => by simpa using hk, fun k _ =>
          le_of_eq (by simp [armed, sendsFor_append, Event.sendOf])⟩
    | create c =>
      rcases hp : s.repoStep o fresh c with ⟨s₁, r⟩
      obtain ⟨hq₁, hjobs₁, hsend₁⟩ := hrepo (hmem rfl) hp
      rcases advanceCall_create (i := i) hp with ⟨_, -, he⟩ | ⟨_, -, he⟩ | ⟨-, -, he⟩ <;> rw [he] <;>
        exact ⟨hq₁.of_log rfl fun k hk => hk, fun k _ => le_of_eq (by simp [armed, hjobs₁, hsend₁])⟩
    | get c =>
      rcases hp : s.repoStep o fresh c with ⟨s₁, r⟩
      obtain ⟨hq₁, hjobs₁, hsend₁⟩ := hrepo (hmem rfl) hp
      rcases advanceCall_get (i := i) hp with ⟨_, -, he⟩ | ⟨_, -, he⟩ | ⟨-, -, he⟩ <;> rw [he] <;>
        exact ⟨hq₁.of_log (by simp) fun k hk => by simpa using hk, fun k _ => le_of_eq
          (by simp [armed, hjobs₁, hsend₁, sendsFor_append, Event.sendOf])⟩
    | cancelLookup id c =>
      rcases hp : s.repoStep o fresh c with ⟨s₁, r⟩
      obtain ⟨hq₁, hjobs₁, hsend₁⟩ := hrepo (hmem rfl) hp
      rcases advanceCall_cancelLookup (i := i) hp with
          ⟨_, -, he⟩ | ⟨_, -, -, he⟩ | ⟨_, -, -, he⟩ | ⟨-, -, he⟩ <;> rw [he] <;>
        exact ⟨hq₁.of_log (by simp) fun k hk => by simpa using hk, fun k _ => le_of_eq
          (by simp [armed, hjobs₁, hsend₁, sendsFor_append, Event.sendOf])⟩
    | cancelDelete id c =>
      rcases hp : s.repoStep o fresh c with ⟨s₁, r⟩
      obtain ⟨hq₁, hjobs₁, hsend₁⟩ := hrepo (hmem rfl) hp
      rcases advanceCall_cancelDelete (i := i) hp with ⟨_, -, he⟩ | ⟨rfl, he⟩ | ⟨-, -, he⟩ <;>
        rw [he]
      · exact ⟨hq₁.of_log rfl fun k hk => hk, fun k _ => le_of_eq (by simp [armed, hjobs₁, hsend₁])⟩
      · refine ⟨Hushed.of_log (Hushed.record_cancel hq₁ ?_) rfl fun k hk => hk, fun k _ =>
          le_of_eq (by simp [armed, hjobs₁, hsend₁, sendsFor_append, Event.sendOf])⟩
        have hsh := hv.calls _ (List.getElem?_mem hx)
        obtain ⟨rfl, hr⟩ := repoStep_eq hp
        subst hok
        rcases hsh with rfl | ⟨rfl, -⟩
        · exact absurd hr delete_step_ne_done
        · simp [RepoCall.step, Db.cacheDelete, Outcome.applied]
      · exact ⟨hq₁.of_log rfl fun k hk => hk, fun k _ => le_of_eq (by simp [armed, hjobs₁, hsend₁])⟩

end State

theorem reach_hushed {s : State} (h : Reach reliableFill s) : s.Hushed := by
  induction h with
  | init now => intro k n hk; cases hk
  | next hr hp hs ih =>
    exact (State.quiet_step hp (reach_sound hr).2 (reach_coherent_repo hr) ih hs).1

/-- Once `CancelNotification(k)` has returned nil, in a run where every round trip succeeds,
nothing crashes and no row is written under a pending fill of it, the `Send`s for `k` from then
on are at most the workers that had passed their revalidation of `k` and not yet invoked
`Send`. -/
theorem sends_after_cancel_le_armed {s : State} (h : Reach reliableFill s) {k : Nat}
    (hk : Event.cancel k ∈ s.log) {as : List Action} {s' : State}
    (hr : s.run reliableFill as = some s') : sendsFor k s'.log ≤ sendsFor k s.log + s.armed k := by
  induction as generalizing s with
  | nil => cases hr; omega
  | cons a as ih =>
    simp only [State.run] at hr
    split_ifs at hr with hp
    obtain ⟨t, ht, hr⟩ := Option.bind_eq_some.1 hr
    have hq := State.quiet_step hp (reach_sound h).2 (reach_coherent_repo h) (reach_hushed h) ht
    have := ih (h.next hp ht) ((State.step_log ht).1.subset hk) hr
    have := hq.2 k hk
    omega

private def cancelReturned : List Action :=
  [.create 0 ⟨"a@b.co", "email", "s", "", 0, none⟩ (.ok ()) (.error ""), .call 0 .ok 1,
   .call 0 .ok 0, .call 0 .ok 0, .deadLetter .wait, .deliver 0, .job 0 .ok, .cancel 1,
   .call 0 .ok 0, .call 0 .ok 0, .call 0 .ok 0]

private def armedAtReturn (s : State) : Bool :=
  decide (Event.cancel 1 ∈ s.log) && s.armed 1 == 1 && (s.run reliableFill [.send 0 true]).isSome

set_option maxRecDepth 20000 in
theorem sends_after_cancel_le_armed_at_return :
    ∃ s s', Reach reliableFill s ∧ Event.cancel 1 ∈ s.log ∧ s.armed 1 = 1 ∧
      s.run reliableFill [.send 0 true] = some s' ∧
      sendsFor 1 s'.log ≤ sendsFor 1 s.log + s.armed 1 := by
  have h : ((State.init 0).run reliableFill cancelReturned).map armedAtReturn = some true := by
    decide
  cases hrun : (State.init 0).run reliableFill cancelReturned with
  | none => simp [hrun] at h
  | some s =>
    simp only [hrun, Option.map_some', Option.some.injEq, armedAtReturn, Bool.and_eq_true,
      decide_eq_true_eq, beq_iff_eq, Option.isSome_iff_exists] at h
    obtain ⟨⟨hk, ha⟩, s', hs'⟩ := h
    have hR := reach_run (.init 0) hrun
    exact ⟨s, s', hR, hk, ha, hs', sends_after_cancel_le_armed hR hk hs'⟩

/-- The worker revalidated before the cancel and sends after it returned. -/
private def sentAfterCancel : List Action := cancelReturned ++ [.send 0 true]

private def sendFollowsCancel (s : State) : Bool :=
  s.log[5]? == some (.cancel 1) && decide (0 < sendsFor 1 (s.log.drop 6))

set_option maxRecDepth 20000 in
theorem send_after_cancel :
    ∃ s, Reach reliable s ∧ ∃ i, s.log[i]? = some (.cancel 1) ∧ 0 < sendsFor 1 (s.log.drop (i + 1)) := by
  have h : ((State.init 0).run reliableFill sentAfterCancel).map sendFollowsCancel = some true := by
    decide
  cases hrun : (State.init 0).run reliableFill sentAfterCancel with
  | none => simp [hrun] at h
  | some s =>
    simp only [hrun, Option.map_some', Option.some.injEq, sendFollowsCancel, Bool.and_eq_true,
      beq_iff_eq, decide_eq_true_eq] at h
    exact ⟨s, reach_reliable (reach_run (.init 0) hrun), 5, h.1, h.2⟩

/-- The worker revalidates, a cancel reads `scheduled`, the send succeeds and the worker's
`Update` commits `sent`, and then the cancel's `Delete` runs. -/
private def cancelRace : List Action :=
  [.create 0 ⟨"a@b.co", "email", "s", "", 0, none⟩ (.ok ()) (.error ""), .call 0 .ok 1,
   .call 0 .ok 0, .call 0 .ok 0, .deadLetter .wait, .deliver 0, .job 0 .ok, .cancel 1,
   .call 0 .ok 0, .send 0 true, .job 0 .ok, .job 0 .ok, .job 0 .ok, .call 0 .ok 0, .call 0 .ok 0]

private def overwritten (s : State) : Bool :=
  match s.db.rows 1 with
  | some r => r.status == .cancelled && r.sentAt.isSome &&
      s.committedRows.any fun r' => r'.id == 1 && r'.status == .sent
  | none => false

set_option maxRecDepth 20000 in
theorem cancel_overwrites_sent :
    ∃ s, Reach reliable s ∧ ∃ r, s.db.rows 1 = some r ∧ r.status = .cancelled ∧
      r.sentAt.isSome ∧ ∃ r' ∈ s.committedRows, r'.id = 1 ∧ r'.status = .sent := by
  have h : ((State.init 0).run reliable cancelRace).map overwritten = some true := by decide
  cases hr : (State.init 0).run reliable cancelRace with
  | none => simp [hr] at h
  | some s =>
    simp only [hr, Option.map_some', Option.some.injEq, overwritten] at h
    split at h
    · rename_i r hrow
      simp only [Bool.and_eq_true, beq_iff_eq, List.any_eq_true] at h
      exact ⟨s, reach_run (.init 0) hr, r, hrow, h.1.1, h.1.2, h.2⟩
    · cases h

end DelayedNotifier
