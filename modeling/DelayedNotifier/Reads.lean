import DelayedNotifier.Delivery
import DelayedNotifier.Handlers

/-!
# A read returns a version of its row that a statement committed

`CachedNotificationRepository.GetByID` answers from the cache or from the table, and the cache
is filled by `Save` with the row it inserted and by `GetByID` with the row it read. Under any
interleaving and any failure a read can be stale (a cache entry can outlive the row it was
copied from), but it is never made up: every cache entry, every record a thread is about to put
in the cache, and every record a `GetByID` has returned is `toDomainModel` of a row that one
of the three statements committed (`reads_committed`). With `State.Traced` this also says that
from any reachable state on no row is lost or changes a field that no write changes, and with
`State.step_keeps` that no row that has left `scheduled` comes back to it
(`rows_outlive_every_run`). Nor does a read miss a row that exists: `ErrNotFound`, and with it
a `404`, comes only from a statement that found no row, so a `GET` or `DELETE` is answered
`404` only for an id nothing was ever created under (`not_found_never_created`).
-/

namespace DelayedNotifier

/-- `n` is the version of its row that a statement committed on the way to the log `l`. -/
def Committed (l : List Event) (n : Notification) : Prop :=
  ∃ r, Event.write r ∈ l ∧ toDomainModel r = n

theorem Committed.mono {l l' : List Event} {n : Notification} (h : Committed l n)
    (hl : l ⊆ l') : Committed l' n :=
  let ⟨r, hr, e⟩ := h
  ⟨r, hl hr, e⟩

/-- Every row of the table was committed, and every record that the cache holds, that a
thread is about to put in it or hand to its caller, or that a read returned, is a committed
version of its row. -/
structure State.Recorded (s : State) : Prop where
  rows : ∀ k r, s.db.rows k = some r → Event.write r ∈ s.log
  cache : ∀ k n, s.db.cache k = some n → Committed s.log n
  jobs : ∀ j ∈ s.jobs, ∀ n, j.pc.filling = some n → Committed s.log n
  calls : ∀ c ∈ s.calls, ∀ n ∈ c.held, Committed s.log n
  found : ∀ n, Event.found n ∈ s.log → Committed s.log n

namespace State

variable {s : State}

theorem Recorded.record (h : s.Recorded) {e : Event}
    (he : ∀ n, e = .found n → Committed s.log n) : (s.record e).Recorded := by
  have sub : s.log ⊆ (s.record e).log := List.subset_append_left _ _
  refine ⟨fun k r hr => sub (h.rows k r hr), fun k n hn => (h.cache k n hn).mono sub,
    fun j hj n hn => (h.jobs j hj n hn).mono sub, fun c hc n hn => (h.calls c hc n hn).mono sub,
    fun n hn => ?_⟩
  rcases List.mem_append.1 hn with hn | hn
  · exact (h.found n hn).mono sub
  · exact (he n (List.mem_singleton.1 hn).symm).mono sub

theorem Recorded.record_quiet (h : s.Recorded) {e : Event} (he : ∀ n, e ≠ .found n) :
    (s.record e).Recorded :=
  h.record fun n e' => absurd e' (he n)

theorem Recorded.setJob (h : s.Recorded) (i : Nat) {j : Job}
    (hj : ∀ n, j.pc.filling = some n → Committed s.log n) : (s.setJob i j).Recorded := by
  refine ⟨h.rows, h.cache, fun j' hj' => ?_, h.calls, h.found⟩
  rcases List.mem_or_eq_of_mem_set hj' with hj' | rfl
  · exact h.jobs j' hj'
  · exact hj

theorem Recorded.dropJob (h : s.Recorded) (i : Nat) : (s.dropJob i).Recorded :=
  ⟨h.rows, h.cache, fun j hj => h.jobs j (List.mem_of_mem_eraseIdx hj), h.calls, h.found⟩

theorem Recorded.setCall (h : s.Recorded) (i : Nat) {c : Call}
    (hc : ∀ n ∈ c.held, Committed s.log n) : (s.setCall i c).Recorded := by
  refine ⟨h.rows, h.cache, h.jobs, fun c' hc' => ?_, h.found⟩
  rcases List.mem_or_eq_of_mem_set hc' with hc' | rfl
  · exact h.calls c' hc'
  · exact hc

theorem Recorded.dropCall (h : s.Recorded) (i : Nat) : (s.dropCall i).Recorded :=
  ⟨h.rows, h.cache, h.jobs, fun c hc => h.calls c (List.mem_of_mem_eraseIdx hc), h.found⟩

theorem Recorded.requeue (h : s.Recorded) (m : Msg) : (s.requeue m).Recorded :=
  ⟨h.rows, h.cache, h.jobs, h.calls, h.found⟩

theorem Recorded.setQueue (h : s.Recorded) (q : DelayQueue) (l : List Msg) :
    (s.setQueue q l).Recorded := by
  cases q <;> exact ⟨h.rows, h.cache, h.jobs, h.calls, h.found⟩

theorem Recorded.enqueue (h : s.Recorded) (o : Outcome) (q : DelayQueue) (m : Msg) :
    (s.enqueue o q m).Recorded := by
  unfold State.enqueue
  split
  · exact h.setQueue q _
  · exact h

theorem Recorded.publishWait (h : s.Recorded) (o : Outcome) (m : Msg) :
    (s.publishWait o m).Recorded := by
  unfold State.publishWait
  split
  · exact (h.enqueue o .wait m).record_quiet (by simp)
  · exact h.enqueue o .wait m

theorem Recorded.addCall (h : s.Recorded) {c : Call} (hc : ∀ n ∈ c.held, Committed s.log n) :
    ({ s with calls := s.calls ++ [c] } : State).Recorded := by
  refine ⟨h.rows, h.cache, h.jobs, fun c' hc' => ?_, h.found⟩
  rcases List.mem_append.1 hc' with hc' | hc'
  · exact h.calls c' hc'
  · rw [List.mem_singleton.1 hc']; exact hc

theorem Recorded.repoStep (h : s.Recorded) (o : Outcome) (fresh : Nat) (c : RepoCall)
    (hc : ∀ n, c.filling = some n → Committed s.log n) :
    (s.repoStep o fresh c).1.Recorded ∧ ∀ n, RepoCall.handed (s.repoStep o fresh c).2 = some n →
      Committed (s.repoStep o fresh c).1.log n := by
  rw [repoStep_fst, repoStep_snd]
  have sub : s.log ⊆ s.log ++ (c.written o fresh s.now s.db).toList.map .write :=
    List.subset_append_left _ _
  have hnew : ∀ r, c.written o fresh s.now s.db = some r →
      Event.write r ∈ s.log ++ (c.written o fresh s.now s.db).toList.map .write :=
    fun r hw => by simp [hw]
  refine ⟨⟨fun k r hr => ?_, fun k n hn => ?_, fun j hj n hn => (h.jobs j hj n hn).mono sub,
    fun c' hc' n hn => (h.calls c' hc' n hn).mono sub, fun n hn => ?_⟩, fun n hn => ?_⟩
  · rw [RepoCall.step_rows] at hr
    split at hr
    · rename_i r' hw
      rw [Table.put_apply] at hr
      split_ifs at hr
      · cases hr; exact hnew r hw
      · exact sub (h.rows k r hr)
    · exact sub (h.rows k r hr)
  · rcases RepoCall.step_db o c with hd | ⟨m, hm, hd⟩ | ⟨k', hd⟩ | ⟨r, -, hd⟩ <;> rw [hd] at hn
    · exact (h.cache k n hn).mono sub
    · rcases Db.cacheSet_entry hn with rfl | hn
      · exact (hc n hm).mono sub
      · exact (h.cache k n hn).mono sub
    · exact (h.cache k n (Db.cacheDelete_entry hn)).mono sub
    · exact (h.cache k n hn).mono sub
  · simp only [List.mem_append, List.mem_map, Option.mem_toList, reduceCtorEq, and_false,
      exists_false, or_false] at hn
    exact (h.found n hn).mono sub
  · rcases RepoCall.handed_source o c hn with hf | ⟨k, hk⟩ | ⟨k, r, hr, rfl⟩ | ⟨r, hw, rfl⟩
    · exact (hc n hf).mono sub
    · exact (h.cache k n hk).mono sub
    · exact ⟨r, sub (h.rows k r hr), rfl⟩
    · exact ⟨r, hnew r hw, rfl⟩

theorem Recorded.advanceJob (h : s.Recorded) {i : Nat} {j : Job} (hj : s.jobs[i]? = some j)
    {o : Outcome} {s' : State} (hs : s.advanceJob i o j = some s') : s'.Recorded := by
  have hfill := h.jobs j (List.getElem?_mem hj)
  have quiet : ∀ (t : State) (p : WorkerPc), p.filling = none →
      ∀ n, ({ j with pc := p } : Job).pc.filling = some n → Committed t.log n := by
    intro t p hp n hn; simp [hp] at hn
  cases hpc : j.pc with
  | revalidate c =>
    rcases hp : s.repoStep o 0 c with ⟨s₁, r⟩
    obtain ⟨h₁, hr⟩ := h.repoStep o 0 c (by simpa [hpc, WorkerPc.filling] using hfill)
    simp only [hp] at h₁ hr
    rcases State.advanceJob_revalidate hpc hp hs with
      ⟨c', rfl, rfl⟩ | ⟨n, rfl, -, rfl⟩ | ⟨n, rfl, -, rfl⟩ | ⟨-, -, rfl⟩
    · exact h₁.setJob i hr
    · exact (h₁.record fun _ e => by cases e; exact hr n rfl).setJob i (quiet _ _ rfl)
    · exact ((h₁.record fun _ e => by cases e; exact hr n rfl).record_quiet (by simp)).setJob i
        (quiet _ _ rfl)
    · exact (h₁.record_quiet (by simp)).setJob i (quiet _ _ rfl)
  | send => exact absurd hpc (State.advanceJob_pc hs)
  | update c =>
    rcases hp : s.repoStep o 0 c with ⟨s₁, r⟩
    obtain ⟨h₁, hr⟩ := h.repoStep o 0 c (by simpa [hpc, WorkerPc.filling] using hfill)
    simp only [hp] at h₁ hr
    rcases State.advanceJob_update hpc hp hs with ⟨c', rfl, rfl⟩ | ⟨e, rfl, rfl⟩ | ⟨-, -, rfl⟩
    · exact h₁.setJob i hr
    all_goals exact h₁.setJob i (quiet _ _ rfl)
  | publishRetry =>
    rcases State.advanceJob_publishRetry hpc hs with ⟨-, rfl⟩ | ⟨-, rfl⟩
    · exact ((h.enqueue o .retry _).record_quiet (by simp)).setJob i (quiet _ _ rfl)
    · exact (h.enqueue o .retry _).setJob i (quiet _ _ rfl)
  | ack =>
    rcases State.advanceJob_ack hpc hs with ⟨-, rfl⟩ | ⟨-, rfl⟩
    · exact h.dropJob i
    · exact (h.dropJob i).requeue _
  | ackUnchecked =>
    rcases State.advanceJob_ackUnchecked hpc hs with ⟨-, rfl⟩ | ⟨-, rfl⟩
    · exact (h.record_quiet (by simp)).dropJob i
    · exact (h.dropJob i).requeue _
  | nack =>
    rw [State.advanceJob_nack hpc hs]
    exact (h.dropJob i).requeue _

theorem Recorded.sendJob (h : s.Recorded) {i : Nat} {j : Job} {ok : Bool} {s' : State}
    (hs : s.sendJob i ok j = some s') : s'.Recorded := by
  have h₁ := h.record_quiet (e := .send j.notification s.now ok) (by simp)
  obtain ⟨-, ⟨-, rfl⟩ | ⟨-, -, rfl⟩ | ⟨-, -, rfl⟩⟩ := State.sendJob_cases hs <;>
    exact h₁.setJob i (by simp [WorkerPc.filling, RepoCall.filling])

theorem Recorded.advanceCall (h : s.Recorded) {i : Nat} {c : Call} (hc : s.calls[i]? = some c)
    (o : Outcome) (fresh : Nat) : (s.advanceCall i o fresh c).Recorded := by
  have hcall := h.calls c (List.getElem?_mem hc)
  have hrepo : ∀ c' : RepoCall, (∀ n ∈ c'.filling.toList, Committed s.log n) → ∀ s₁ r,
      s.repoStep o fresh c' = (s₁, r) →
        s₁.Recorded ∧ ∀ n, RepoCall.handed r = some n → Committed s₁.log n := by
    intro c' hc' s₁ r hp
    obtain ⟨h₁, hr⟩ := h.repoStep o fresh c' fun n hn => hc' n (by simp [hn])
    simp only [hp] at h₁ hr
    exact ⟨h₁, hr⟩
  have hset : ∀ (s₁ : State) (k : RepoCall → Call) (c' : RepoCall), s₁.Recorded →
      (∀ n, c'.filling = some n → Committed s₁.log n) → (k c').held = c'.filling.toList →
      (s₁.setCall i (k c')).Recorded := fun s₁ k c' h₁ hr hk =>
    h₁.setCall i fun n hn => hr n (by simpa [hk] using hn)
  have hfound : ∀ {s₁ : State} {n : Notification}, (∀ n', RepoCall.handed (.inr (.record n)) =
      some n' → Committed s₁.log n') → ∀ n', Event.found n = .found n' → Committed s₁.log n' :=
    fun hr _ e => by cases e; exact hr _ rfl
  cases c with
  | create c =>
    rcases hp : s.repoStep o fresh c with ⟨s₁, r⟩
    obtain ⟨h₁, hr⟩ := hrepo c hcall s₁ r hp
    rcases State.advanceCall_create (i := i) hp with ⟨c', rfl, he⟩ | ⟨n, rfl, he⟩ | ⟨-, -, he⟩ <;>
      rw [he]
    · exact hset s₁ Call.create c' h₁ hr rfl
    · exact h₁.setCall i fun x hx => hr x (by simpa [Call.held, RepoCall.handed, eq_comm] using hx)
    · exact h₁.dropCall i
  | publish n =>
    rw [State.advanceCall_publish]
    split_ifs
    · exact h.dropCall i
    · exact ((h.publishWait o _).record_quiet (by simp)).dropCall i
    · exact (h.publishWait o _).dropCall i
  | get c =>
    rcases hp : s.repoStep o fresh c with ⟨s₁, r⟩
    obtain ⟨h₁, hr⟩ := hrepo c hcall s₁ r hp
    rcases State.advanceCall_get (i := i) hp with ⟨c', rfl, he⟩ | ⟨n, rfl, he⟩ | ⟨-, -, he⟩ <;>
      rw [he]
    · exact hset s₁ Call.get c' h₁ hr rfl
    · exact (h₁.record (hfound hr)).dropCall i
    · exact h₁.dropCall i
  | cancelLookup id c =>
    rcases hp : s.repoStep o fresh c with ⟨s₁, r⟩
    obtain ⟨h₁, hr⟩ := hrepo c hcall s₁ r hp
    rcases State.advanceCall_cancelLookup (i := i) hp with
      ⟨c', rfl, he⟩ | ⟨n, rfl, -, he⟩ | ⟨n, rfl, -, he⟩ | ⟨-, -, he⟩ <;> rw [he]
    · exact hset s₁ (Call.cancelLookup id) c' h₁ hr rfl
    · exact (h₁.record (hfound hr)).setCall i (by simp [Call.held, RepoCall.filling])
    · exact (h₁.record (hfound hr)).dropCall i
    · exact h₁.dropCall i
  | cancelDelete id c =>
    rcases hp : s.repoStep o fresh c with ⟨s₁, r⟩
    obtain ⟨h₁, hr⟩ := hrepo c hcall s₁ r hp
    rcases State.advanceCall_cancelDelete (i := i) hp with ⟨c', rfl, he⟩ | ⟨-, he⟩ | ⟨-, -, he⟩ <;>
      rw [he]
    · exact hset s₁ (Call.cancelDelete id) c' h₁ hr rfl
    · exact (h₁.record_quiet (by simp)).dropCall i
    · exact h₁.dropCall i

end State

theorem recorded_step {s s' : State} (h : s.Recorded) {a : Action} (hs : s.step a = some s') :
    s'.Recorded := by
  have hnew : ∀ {c : Call}, (∀ n ∈ c.held, False) → ∀ n ∈ c.held, Committed s.log n :=
    fun hc n hn => (hc n hn).elim
  cases a with
  | create uuid req address chatID =>
    simp only [State.step] at hs
    split at hs <;> cases hs
    · exact h.addCall (hnew (by simp [Call.held, RepoCall.filling]))
    · exact h
  | get id => cases hs; exact h.addCall (hnew (by simp [Call.held, RepoCall.filling]))
  | cancel id => cases hs; exact h.addCall (hnew (by simp [Call.held, RepoCall.filling]))
  | call i o fresh =>
    obtain ⟨c, hc, rfl⟩ := Option.map_eq_some'.1 hs
    exact h.advanceCall hc o fresh
  | deliver i =>
    obtain ⟨m, -, rfl⟩ := Option.map_eq_some'.1 hs
    refine ⟨h.rows, h.cache, fun j hj => ?_, h.calls, h.found⟩
    rcases List.mem_append.1 hj with hj | hj
    · exact h.jobs j hj
    · rw [List.mem_singleton.1 hj]; simp [WorkerPc.filling, RepoCall.filling]
  | job i o =>
    obtain ⟨j, hj, hs⟩ := Option.bind_eq_some.1 hs
    exact h.advanceJob hj hs
  | send i ok =>
    obtain ⟨j, -, hs⟩ := Option.bind_eq_some.1 hs
    exact h.sendJob hs
  | crashJob i =>
    obtain ⟨j, -, rfl⟩ := Option.map_eq_some'.1 hs
    exact (h.dropJob i).requeue _
  | crashCall i =>
    obtain ⟨c, -, rfl⟩ := Option.map_eq_some'.1 hs
    exact h.dropCall i
  | deadLetter q =>
    obtain ⟨⟨m, rest⟩, -, rfl⟩ := Option.map_eq_some'.1 hs
    exact (h.setQueue q rest).requeue m
  | tick δ => cases hs; exact ⟨h.rows, h.cache, h.jobs, h.calls, h.found⟩
  | expire id =>
    cases hs
    exact ⟨h.rows, fun k n (hn : (s.db.cacheDelete .ok id).cache k = some n) =>
      h.cache k n (Db.cacheDelete_entry hn), h.jobs, h.calls, h.found⟩

theorem reach_recorded {P : State → Action → Bool} {s : State} (h : Reach P s) : s.Recorded := by
  induction h with
  | init now =>
    exact ⟨fun _ _ h => (by cases h), fun _ _ h => (by cases h), fun _ h => (by cases h),
      fun _ h => (by cases h), fun _ h => (by cases h)⟩
  | next _ _ hs ih => exact recorded_step ih hs

/-- Under any interleaving and any failure, every record a `GetByID` has returned (to
`GetNotificationByID`, to `CancelNotification`'s lookup or to a worker's revalidation) and
every entry of the cache is `toDomainModel` of a row that a statement committed under that
id: a read may be stale, but it never returns a version the table never held. -/
theorem reads_committed {P : State → Action → Bool} {s : State} (h : Reach P s) :
    (∀ n, Event.found n ∈ s.log → ∃ r, Event.write r ∈ s.log ∧ r.id = n.id ∧ toDomainModel r = n) ∧
      ∀ k n, s.db.cache k = some n →
        ∃ r, Event.write r ∈ s.log ∧ r.id = n.id ∧ toDomainModel r = n := by
  have hr := reach_recorded h
  have hid : ∀ {n}, Committed s.log n →
      ∃ r, Event.write r ∈ s.log ∧ r.id = n.id ∧ toDomainModel r = n :=
    fun ⟨r, hw, e⟩ => ⟨r, hw, e ▸ rfl, e⟩
  exact ⟨fun n hn => hid (hr.found n hn), fun k n hn => hid (hr.cache k n hn)⟩

private def createdThenRead : List Action :=
  [.create 0 ⟨"a@b.co", "email", "s", "", 0, none⟩ (.ok ()) (.error ""), .call 0 .ok 1,
   .call 0 .ok 0, .call 0 .ok 0, .get 1, .call 0 .ok 0]

private def isFound : Event → Bool
  | .found .. => true
  | _ => false

set_option maxRecDepth 20000 in
theorem reads_committed_after_cache_hit :
    ∃ s n, Reach anyRun s ∧ Event.found n ∈ s.log ∧
      ∃ r, Event.write r ∈ s.log ∧ r.id = n.id ∧ toDomainModel r = n := by
  have h : ((State.init 0).run anyRun createdThenRead).map (·.log.any isFound) = some true := by
    decide
  cases hrun : (State.init 0).run anyRun createdThenRead with
  | none => simp [hrun] at h
  | some s =>
    simp only [hrun, Option.map_some', Option.some.injEq, List.any_eq_true] at h
    obtain ⟨e, he, hs⟩ := h
    cases e with
    | found n =>
      have hR := reach_run (.init 0) hrun
      exact ⟨s, n, hR, he, (reads_committed hR).1 n he⟩
    | _ => cases hs

theorem State.step_grows_keeps {P : State → Action → Bool} {s s' : State} (h : Reach P s)
    {a : Action} (hs : s.step a = some s') : s.db.rows.Grows s'.db.rows ∧ s.db.rows.Keeps s'.db.rows := by
  obtain ⟨ht, hv⟩ := reach_sound h
  have ht' := traced_step ht hs
  refine ⟨fun k r hr => ?_, State.step_keeps ht hv hs⟩
  have hw : Event.write r ∈ s'.log := (State.step_log hs).1.subset ((reach_recorded h).rows k r hr)
  obtain ⟨r', hr', e⟩ :=
    ht'.held (toDomainModel r) (State.mem_held.2 (.inr (.inr (.inr ⟨_, hw, by simp [Event.held]⟩))))
  have hk : r.id = k := (ht.db.rows k r hr).1
  exact ⟨r', by rw [← hk]; exact hr', e⟩

/-- From any reachable state, along any continuation of the run (any interleaving, any
failure), no row is lost, no field that no write changes ever changes, and no row that has
left `scheduled` comes back to it. -/
theorem rows_outlive_every_run {P : State → Action → Bool} {s s' : State} {as : List Action}
    (h : Reach P s) (hr : s.run P as = some s') :
    s.db.rows.Grows s'.db.rows ∧ s.db.rows.Keeps s'.db.rows := by
  induction as generalizing s with
  | nil => cases hr; exact ⟨Table.Grows.refl _, Table.Keeps.refl _⟩
  | cons a as ih =>
    simp only [State.run] at hr
    split_ifs at hr with hp
    obtain ⟨t, ht, hr⟩ := Option.bind_eq_some.1 hr
    obtain ⟨hg, hk⟩ := State.step_grows_keeps h ht
    obtain ⟨hg', hk'⟩ := ih (h.next hp ht) hr
    exact ⟨hg.trans hg', hk.trans hk'⟩

private def readThenCancelled : List Action := [.cancel 1, .call 0 .ok 0, .call 0 .ok 0, .call 0 .ok 0]

set_option maxRecDepth 20000 in
theorem rows_outlive_every_run_through_cancel :
    ∃ s s', Reach anyRun s ∧ s.run anyRun readThenCancelled = some s' ∧
      s.db.rows.Grows s'.db.rows ∧ s.db.rows.Keeps s'.db.rows := by
  have h : ((State.init 0).run anyRun (createdThenRead ++ readThenCancelled)).isSome = true := by
    decide
  rw [State.run_append] at h
  cases hrun : (State.init 0).run anyRun createdThenRead with
  | none => simp [hrun] at h
  | some s =>
    rw [hrun, Option.some_bind, Option.isSome_iff_exists] at h
    obtain ⟨s', hs'⟩ := h
    have hR := reach_run (.init 0) hrun
    exact ⟨s, s', hR, hs', rows_outlive_every_run hR hs'⟩

theorem RepoCall.step_notFound {o : Outcome} {fresh : Nat} {now : Int} {d : Db} {c : RepoCall}
    (h : (c.step o fresh now d).2 = .inr (.error .notFound)) :
    (∃ k, c = .getByIDPrimary k ∧ d.rows k = none) ∨ (∃ n, c = .update n ∧ d.rows n.id = none) ∨
      ∃ k, c = .delete k ∧ d.rows k = none := by
  cases c with
  | getByIDPrimary k =>
    simp only [RepoCall.step] at h
    split at h
    · cases h
    · rename_i hr
      split_ifs at h with ho
      · subst ho; exact .inl ⟨k, rfl, hr⟩
      · cases h
  | save n =>
    simp only [RepoCall.step] at h
    split at h
    · cases h
    · split_ifs at h
      · cases h
      · split at h <;> (try cases h)
        rw [Outcome.commit_snd] at h
        split_ifs at h
        cases h
  | update n =>
    simp only [RepoCall.step] at h
    split_ifs at h
    · cases h
    · split at h
      · rename_i hu
        exact .inr (.inl ⟨n, rfl, by simpa [updateNotificationStatus, toDBUpdateParams] using hu⟩)
      · rw [Outcome.commit_snd] at h
        split_ifs at h
        cases h
  | delete k =>
    simp only [RepoCall.step] at h
    split_ifs at h
    · cases h
    · split at h
      · rename_i hc
        exact .inr (.inr ⟨k, rfl, by simpa [cancelNotification] using hc⟩)
      · rw [Outcome.commit_snd] at h
        split_ifs at h
        cases h
  | getByID k => simp only [RepoCall.step] at h; split at h <;> cases h
  | _ => simp [RepoCall.step] at h

theorem State.advanceJob_calls {s s' : State} {i : Nat} {o : Outcome} {j : Job}
    (h : s.advanceJob i o j = some s') : s'.calls = s.calls := by
  cases hpc : j.pc with
  | revalidate c =>
    rcases hp : s.repoStep o 0 c with ⟨s₁, r⟩
    have e : s₁.calls = s.calls := by rw [(State.repoStep_eq hp).1]
    rcases State.advanceJob_revalidate hpc hp h with
      ⟨_, -, rfl⟩ | ⟨_, -, -, rfl⟩ | ⟨_, -, -, rfl⟩ | ⟨-, -, rfl⟩ <;> exact e
  | update c =>
    rcases hp : s.repoStep o 0 c with ⟨s₁, r⟩
    have e : s₁.calls = s.calls := by rw [(State.repoStep_eq hp).1]
    rcases State.advanceJob_update hpc hp h with ⟨_, -, rfl⟩ | ⟨_, -, rfl⟩ | ⟨-, -, rfl⟩ <;> exact e
  | send => exact absurd hpc (State.advanceJob_pc h)
  | publishRetry => rcases State.advanceJob_publishRetry hpc h with ⟨-, rfl⟩ | ⟨-, rfl⟩ <;> simp
  | ack => rcases State.advanceJob_ack hpc h with ⟨-, rfl⟩ | ⟨-, rfl⟩ <;> rfl
  | ackUnchecked => rcases State.advanceJob_ackUnchecked hpc h with ⟨-, rfl⟩ | ⟨-, rfl⟩ <;> rfl
  | nack => rw [State.advanceJob_nack hpc h]; rfl

/-- What the next round trip of an API call reads or writes: a `GET` reads, a cancel of `id`
reads and then writes the row of `id`. -/
def Call.Aimed : Call → Prop
  | .get c => (∃ k, c = .getByID k) ∨ (∃ k, c = .getByIDPrimary k) ∨ ∃ n, c = .getByIDFill n
  | .cancelLookup id c => c = .getByID id ∨ c = .getByIDPrimary id ∨ ∃ n, c = .getByIDFill n ∧ n.id = id
  | .cancelDelete id c => c = .delete id ∨ c = .deleteInvalidate id
  | .create _ | .publish _ => True

theorem State.aimed_advanceCall {s : State} (ht : s.Traced) {c : Call} (hc : c.Aimed) (i : Nat)
    (o : Outcome) (fresh : Nat) : ∀ c' ∈ (s.advanceCall i o fresh c).calls, c' ∈ s.calls ∨ c'.Aimed := by
  have hset : ∀ {t : State} {c₀ : Call}, t.calls = s.calls → c₀.Aimed →
      ∀ c' ∈ (t.setCall i c₀).calls, c' ∈ s.calls ∨ c'.Aimed :=
    fun e h₀ c' hc' => (List.mem_or_eq_of_mem_set hc').elim (fun h => .inl (e ▸ h)) (fun e' => .inr (e' ▸ h₀))
  have hdrop : ∀ {t : State}, t.calls = s.calls → ∀ c' ∈ (t.dropCall i).calls, c' ∈ s.calls ∨ c'.Aimed :=
    fun e c' hc' => .inl (e ▸ List.mem_of_mem_eraseIdx hc')
  have hk : ∀ k r, s.db.rows k = some r → (toDomainModel r).id = k := fun k r hr => (ht.db.rows k r hr).1
  cases c with
  | create c =>
    rcases hp : s.repoStep o fresh c with ⟨s₁, r⟩
    have e : s₁.calls = s.calls := by rw [(State.repoStep_eq hp).1]
    rcases State.advanceCall_create (i := i) hp with ⟨c', rfl, he⟩ | ⟨n, rfl, he⟩ | ⟨-, -, he⟩ <;>
      rw [he]
    · exact hset e trivial
    · exact hset e trivial
    · exact hdrop e
  | publish n =>
    rw [State.advanceCall_publish]
    split_ifs <;> exact hdrop (by simp)
  | get c =>
    rcases hp : s.repoStep o fresh c with ⟨s₁, r⟩
    obtain ⟨e₁, hr⟩ := State.repoStep_eq hp
    have e : s₁.calls = s.calls := by rw [e₁]
    rcases State.advanceCall_get (i := i) hp with ⟨c', rfl, he⟩ | ⟨n, rfl, he⟩ | ⟨-, -, he⟩ <;>
      rw [he]
    · refine hset e ?_
      rcases RepoCall.step_inl o c hr with ⟨k, -, rfl⟩ | ⟨k, r, -, -, rfl⟩ | ⟨_, _, rfl, -⟩ |
        ⟨_, _, rfl, -⟩ | ⟨_, _, rfl, -⟩
      · exact .inr (.inl ⟨k, rfl⟩)
      · exact .inr (.inr ⟨_, rfl⟩)
      all_goals simp [Call.Aimed] at hc
    · exact hdrop (by simp [e])
    · exact hdrop e
  | cancelLookup id c =>
    rcases hp : s.repoStep o fresh c with ⟨s₁, r⟩
    obtain ⟨e₁, hr⟩ := State.repoStep_eq hp
    have e : s₁.calls = s.calls := by rw [e₁]
    rcases State.advanceCall_cancelLookup (i := i) hp with
      ⟨c', rfl, he⟩ | ⟨n, rfl, -, he⟩ | ⟨n, rfl, -, he⟩ | ⟨-, -, he⟩ <;> rw [he]
    · refine hset e ?_
      rcases RepoCall.step_inl o c hr with ⟨k, rfl, rfl⟩ | ⟨k, r, rfl, hr', rfl⟩ | ⟨_, _, rfl, -⟩ |
        ⟨_, _, rfl, -⟩ | ⟨_, _, rfl, -⟩
      · exact .inr (.inl (by simpa [Call.Aimed] using hc))
      · exact .inr (.inr ⟨_, rfl, (hk k r hr').trans (by simpa [Call.Aimed] using hc)⟩)
      all_goals simp [Call.Aimed] at hc
    · exact hset (by simp [e]) (.inl rfl)
    · exact hdrop (by simp [e])
    · exact hdrop e
  | cancelDelete id c =>
    rcases hp : s.repoStep o fresh c with ⟨s₁, r⟩
    obtain ⟨e₁, hr⟩ := State.repoStep_eq hp
    have e : s₁.calls = s.calls := by rw [e₁]
    rcases State.advanceCall_cancelDelete (i := i) hp with ⟨c', rfl, he⟩ | ⟨-, he⟩ | ⟨-, -, he⟩ <;>
      rw [he]
    · refine hset e ?_
      rcases hc with rfl | rfl
      · rcases RepoCall.step_inl o _ hr with ⟨_, h', -⟩ | ⟨_, _, h', -⟩ | ⟨_, _, h', -⟩ |
          ⟨_, _, h', -⟩ | ⟨k, r, h', -, rfl⟩
        all_goals try (cases h'; done)
        cases h'; exact .inr rfl
      · simp [RepoCall.step] at hr
    · exact hdrop (by simp [e])
    · exact hdrop e

theorem aimed_step {s s' : State} (ht : s.Traced) (h : ∀ c ∈ s.calls, c.Aimed) {a : Action}
    (hs : s.step a = some s') : ∀ c ∈ s'.calls, c.Aimed := by
  have hadd : ∀ {c₀ : Call}, c₀.Aimed → ∀ c ∈ s.calls ++ [c₀], c.Aimed := fun h₀ c hc =>
    (List.mem_append.1 hc).elim (h c) fun e => List.mem_singleton.1 e ▸ h₀
  cases a with
  | create uuid req address chatID =>
    simp only [State.step] at hs
    split at hs <;> cases hs
    · exact hadd trivial
    · exact h
  | get id => cases hs; exact hadd (.inl ⟨id, rfl⟩)
  | cancel id => cases hs; exact hadd (.inl rfl)
  | call i o fresh =>
    obtain ⟨c, hc, rfl⟩ := Option.map_eq_some'.1 hs
    exact fun c' hc' => (State.aimed_advanceCall ht (h c (List.getElem?_mem hc)) i o fresh c' hc').elim
      (h c') id
  | crashCall i =>
    obtain ⟨c, -, rfl⟩ := Option.map_eq_some'.1 hs
    exact fun c' hc' => h c' (List.mem_of_mem_eraseIdx hc')
  | deliver i | crashJob i =>
    obtain ⟨_, -, rfl⟩ := Option.map_eq_some'.1 hs
    exact h
  | job i o =>
    obtain ⟨j, -, hs⟩ := Option.bind_eq_some.1 hs
    exact State.advanceJob_calls hs ▸ h
  | send i ok =>
    obtain ⟨j, -, hs⟩ := Option.bind_eq_some.1 hs
    obtain ⟨-, ⟨-, rfl⟩ | ⟨-, -, rfl⟩ | ⟨-, -, rfl⟩⟩ := State.sendJob_cases hs <;> exact h
  | deadLetter q =>
    obtain ⟨⟨m, rest⟩, -, rfl⟩ := Option.map_eq_some'.1 hs
    cases q <;> exact fun c' hc' => h c' (by simpa [State.setQueue] using hc')
  | tick δ | expire id => cases hs; exact h

theorem reach_aimed {P : State → Action → Bool} {s : State} (h : Reach P s) :
    ∀ c ∈ s.calls, c.Aimed := by
  induction h with
  | init now => exact fun _ h => by cases h
  | next hr _ hs ih => exact aimed_step (reach_traced hr) ih hs

theorem errorResponse_eq_404 {text : String} {err : ServiceError}
    (h : (errorResponse .notFound 404 text err).status = 404) : err = .repo .notFound := by
  unfold errorResponse at h
  split_ifs at h with he
  · simpa [ServiceError.is] using he
  · simp at h

theorem State.respond_notFound {s : State} {o : Outcome} {fresh : Nat} {c : Call}
    {resp : Response} (hr : s.respond o fresh c = some resp) (h404 : resp.status = 404) :
    ∃ c', (c = .get c' ∨ (∃ id, c = .cancelLookup id c') ∨ ∃ id, c = .cancelDelete id c') ∧
      (c'.step o fresh s.now s.db).2 = .inr (.error .notFound) := by
  have hne : ∀ {sentinel : RepoError} {status : Nat} {text : String} {err : ServiceError},
      status ≠ 404 → (errorResponse sentinel status text err).status ≠ 404 :=
    fun h => errorResponse_status_ne h (by decide)
  cases c with
  | create c =>
    simp only [State.respond] at hr
    split at hr <;> cases hr
    exact absurd h404 (hne (by decide))
  | publish n =>
    simp only [State.respond, Option.some.injEq] at hr
    subst hr
    split_ifs at h404
    · simp [Handlers.createResponse] at h404
    · exact absurd h404 (hne (by decide))
  | get c =>
    simp only [State.respond] at hr
    split at hr <;> cases hr
    · simp [Handlers.getResponse] at h404
    · rename_i e he
      obtain rfl : e = .notFound := by simpa using errorResponse_eq_404 h404
      exact ⟨c, .inl rfl, he⟩
  | cancelLookup id c =>
    simp only [State.respond] at hr
    split at hr
    · split_ifs at hr
      cases hr
      simpa [cannotCancel] using errorResponse_eq_404 h404
    · rename_i e he
      cases hr
      obtain rfl : e = .notFound := by simpa using errorResponse_eq_404 h404
      exact ⟨c, .inr (.inl ⟨id, rfl⟩), he⟩
    · cases hr
  | cancelDelete id c =>
    simp only [State.respond] at hr
    split at hr <;> cases hr
    · simp [Handlers.cancelResponse] at h404
    · rename_i e he
      obtain rfl : e = .notFound := by simpa using errorResponse_eq_404 h404
      exact ⟨c, .inr (.inr ⟨id, rfl⟩), he⟩

/-- Under any interleaving and any failure, a `GET` or `DELETE` of a notification is answered
`404` only when no statement has ever committed a row under its id: a failed or lost read is
answered `500`, never `404`, and no row is ever removed. -/
theorem not_found_never_created {P : State → Action → Bool} {s : State} (h : Reach P s)
    {c : Call} (hc : c ∈ s.calls) {o : Outcome} {fresh : Nat} {resp : Response}
    (hr : s.respond o fresh c = some resp) (h404 : resp.status = 404) :
    ∃ k, (c = .get (.getByIDPrimary k) ∨ c = .cancelLookup k (.getByIDPrimary k) ∨
      c = .cancelDelete k (.delete k)) ∧ ∀ r, Event.write r ∈ s.log → r.id ≠ k := by
  obtain ⟨c', hcc, hnf⟩ := State.respond_notFound hr h404
  have haim := reach_aimed h c hc
  have never : ∀ {k}, s.db.rows k = none → ∀ r, Event.write r ∈ s.log → r.id ≠ k := by
    intro k hk r hw e
    obtain ⟨r', hr', -⟩ := (reach_traced h).held (toDomainModel r)
      (State.mem_held.2 (.inr (.inr (.inr ⟨_, hw, by simp [Event.held]⟩))))
    rw [show (toDomainModel r).id = k from e, hk] at hr'
    cases hr'
  rcases RepoCall.step_notFound hnf with ⟨k, rfl, hk⟩ | ⟨n, rfl, -⟩ | ⟨k, rfl, hk⟩ <;>
    rcases hcc with rfl | ⟨id, rfl⟩ | ⟨id, rfl⟩ <;> simp [Call.Aimed] at haim
  · exact ⟨k, .inl rfl, never hk⟩
  · subst haim; exact ⟨k, .inr (.inl rfl), never hk⟩
  · subst haim; exact ⟨k, .inr (.inr rfl), never hk⟩

private def readMissing : List Action := [.get 5, .call 0 .ok 0]

theorem not_found_never_created_on_unknown_id :
    ∃ s c resp, Reach anyRun s ∧ c ∈ s.calls ∧ s.respond .ok 0 c = some resp ∧
      resp.status = 404 ∧ ∃ k, (c = .get (.getByIDPrimary k) ∨
        c = .cancelLookup k (.getByIDPrimary k) ∨ c = .cancelDelete k (.delete k)) ∧
        ∀ r, Event.write r ∈ s.log → r.id ≠ k := by
  have h : ((State.init 0).run anyRun readMissing).map
      (fun s => decide (Call.get (.getByIDPrimary 5) ∈ s.calls) &&
        (s.respond .ok 0 (.get (.getByIDPrimary 5))).any (·.status == 404)) = some true := by
    decide
  cases hrun : (State.init 0).run anyRun readMissing with
  | none => simp [hrun] at h
  | some s =>
    simp only [hrun, Option.map_some', Option.some.injEq, Bool.and_eq_true, decide_eq_true_eq] at h
    obtain ⟨hc, hresp⟩ := h
    obtain ⟨resp, hr, h404⟩ : ∃ resp, s.respond .ok 0 (.get (.getByIDPrimary 5)) = some resp ∧
        resp.status = 404 := by
      cases hx : s.respond .ok 0 (.get (.getByIDPrimary 5)) with
      | none => simp [hx] at hresp
      | some resp => exact ⟨resp, rfl, by simpa [hx] using hresp⟩
    have hR := reach_run (.init 0) hrun
    exact ⟨s, _, resp, hR, hc, hr, h404, not_found_never_created hR hc hr h404⟩

end DelayedNotifier
