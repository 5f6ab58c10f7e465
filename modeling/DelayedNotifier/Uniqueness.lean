import DelayedNotifier.SentStatus

/-!
# Each accepted POST creates a notification of its own

`CreateNotification`'s `Save` inserts under the id `gen_random_uuid()` gives, the primary key
refuses an id a row already holds, no row is ever removed, and `Publish` sends the record the
`Save` read back, once. So the notifications announced by `Publish`es that returned nil (each
answered `201`), whether RabbitMQ took the message or refused it, are all distinct
(`published_ids_distinct`), under any interleaving and any failure. The invariant is that the ids POSTs have inserted, published or still on their way to
`Publish` (`State.inserted`), repeat nowhere; each of them is a stored row.
-/

namespace DelayedNotifier

/-- The id of the notification a `Publish` that returned nil published. -/
def Event.publishedID : Event → Option Nat
  | .publish n => some n.id
  | .refuse m => some m.body.id
  | _ => none

def Call.insertedID : Call → Option Nat
  | .create (.saveFill n) | .publish n => some n.id
  | _ => none

/-- The ids POSTs have inserted: published, or on their way to `Publish`. -/
def State.inserted (s : State) : List Nat :=
  s.log.filterMap Event.publishedID ++ s.calls.filterMap Call.insertedID

theorem Call.insertedID_held {c : Call} {k : Nat} (h : c.insertedID = some k) :
    ∃ n ∈ c.held, n.id = k := by
  rcases c with c | n | _ | _ | _ <;> simp only [Call.insertedID, reduceCtorEq] at h
  · cases c <;> simp only [Call.insertedID, Option.some.injEq, reduceCtorEq] at h
    exact ⟨_, by simp [Call.held, RepoCall.filling], h⟩
  · exact ⟨n, List.mem_singleton_self n, Option.some.inj h⟩

theorem State.Traced.inserted_stored {s : State} (ht : s.Traced) :
    ∀ k ∈ s.inserted, ∃ r, s.db.rows k = some r := by
  intro k hk
  obtain ⟨n, hn, rfl⟩ : ∃ n ∈ s.held, n.id = k := by
    simp only [State.inserted, List.mem_append, List.mem_filterMap] at hk
    rcases hk with ⟨e, he, hk⟩ | ⟨c, hc, hk⟩
    · cases e <;> simp only [Event.publishedID, Option.some.injEq, reduceCtorEq] at hk <;>
        exact ⟨_, State.mem_held.2 (.inr (.inr (.inr ⟨_, he, List.mem_singleton_self _⟩))), hk⟩
    · obtain ⟨n, hn, rfl⟩ := Call.insertedID_held hk
      exact ⟨n, State.mem_held.2 (.inr (.inr (.inl ⟨c, hc, hn⟩))), rfl⟩
  obtain ⟨r, hr, -⟩ := ht.held n hn
  exact ⟨r, hr⟩

theorem publishedIDs_append_quiet {l l' : List Event} (h : ∀ e ∈ l', e.publishedID = none) :
    (l ++ l').filterMap Event.publishedID = l.filterMap Event.publishedID := by
  rw [List.filterMap_append, List.filterMap_eq_nil_iff.2 h, List.append_nil]

section Steps

variable {s s' : State} {i : Nat} {o : Outcome} {fresh : Nat}

theorem State.repoStep_publishedIDs (c : RepoCall) :
    (s.repoStep o fresh c).1.log.filterMap Event.publishedID = s.log.filterMap Event.publishedID := by
  rw [State.repoStep_log]
  exact publishedIDs_append_quiet (by simp [Event.publishedID])

theorem State.advanceJob_publishedIDs {j : Job} (hs : s.advanceJob i o j = some s') :
    s'.log.filterMap Event.publishedID = s.log.filterMap Event.publishedID := by
  have hrepo : ∀ {c₀ s₁ rr}, s.repoStep o 0 c₀ = (s₁, rr) →
      s₁.log.filterMap Event.publishedID = s.log.filterMap Event.publishedID := fun hp => by
    rw [(State.repoStep_eq hp).1]; exact publishedIDs_append_quiet (by simp [Event.publishedID])
  cases hpc : j.pc with
  | revalidate c =>
    rcases hp : s.repoStep o 0 c with ⟨s₁, r⟩
    rcases State.advanceJob_revalidate hpc hp hs with
      ⟨_, -, rfl⟩ | ⟨_, -, -, rfl⟩ | ⟨_, -, -, rfl⟩ | ⟨-, -, rfl⟩ <;>
      simp [← hrepo hp, Event.publishedID]
  | update c =>
    rcases hp : s.repoStep o 0 c with ⟨s₁, r⟩
    rcases State.advanceJob_update hpc hp hs with ⟨_, -, rfl⟩ | ⟨_, -, rfl⟩ | ⟨-, -, rfl⟩ <;>
      simpa using hrepo hp
  | send => exact absurd hpc (State.advanceJob_pc hs)
  | publishRetry =>
    rcases State.advanceJob_publishRetry hpc hs with ⟨-, rfl⟩ | ⟨-, rfl⟩ <;>
      simp [Event.publishedID]
  | ack => rcases State.advanceJob_ack hpc hs with ⟨-, rfl⟩ | ⟨-, rfl⟩ <;> rfl
  | ackUnchecked =>
    rcases State.advanceJob_ackUnchecked hpc hs with ⟨-, rfl⟩ | ⟨-, rfl⟩ <;>
      simp [Event.publishedID]
  | nack => rw [State.advanceJob_nack hpc hs]; rfl

def State.KeepsInserted (t s : State) : Prop :=
  t.calls = s.calls ∧ t.log.filterMap Event.publishedID = s.log.filterMap Event.publishedID

theorem State.repoStep_keepsInserted (s : State) (o : Outcome) (fresh : Nat) (c : RepoCall) :
    (s.repoStep o fresh c).1.KeepsInserted s :=
  ⟨by rw [State.repoStep_fst], State.repoStep_publishedIDs c⟩

theorem State.KeepsInserted.record {t : State} (hq : t.KeepsInserted s) {e : Event}
    (he : e.publishedID = none) : (t.record e).KeepsInserted s :=
  ⟨hq.1, by rw [State.record_log, publishedIDs_append_quiet (by simpa using he), hq.2]⟩

theorem State.KeepsInserted.setCall {t : State} (hq : t.KeepsInserted s) {c : Call}
    (hc : s.calls[i]? = some c) (c' : Call) :
    ((t.setCall i c').inserted ++ c.insertedID.toList).Perm (s.inserted ++ c'.insertedID.toList) := by
  rw [State.inserted, State.inserted, State.setCall_log, hq.2, State.setCall_calls, hq.1,
    List.append_assoc, List.append_assoc]
  exact (filterMap_set_perm Call.insertedID hc c').append_left _

theorem State.KeepsInserted.dropCall {t : State} (hq : t.KeepsInserted s) :
    (t.dropCall i).inserted.Sublist s.inserted := by
  rw [State.inserted, State.inserted, State.dropCall_log, hq.2, State.dropCall_calls, hq.1]
  exact ((List.eraseIdx_sublist _ _).filterMap _).append_left _

theorem State.advanceCall_inserted (ht : s.Traced) {c : Call} (hc : s.calls[i]? = some c)
    (hsch : c.Scheduled) (h : s.inserted.Nodup) : (s.advanceCall i o fresh c).inserted.Nodup := by
  have hset : ∀ {t : State} (c' : Call), t.KeepsInserted s → c'.insertedID = c.insertedID →
      (t.setCall i c').inserted.Nodup := fun c' hq hid => by
    have hp := hq.setCall hc c'
    rw [hid, List.perm_append_right_iff] at hp
    exact hp.nodup_iff.2 h
  have hdrop : ∀ {t : State}, t.KeepsInserted s → (t.dropCall i).inserted.Nodup :=
    fun hq => h.sublist hq.dropCall
  have hrepo := State.repoStep_keepsInserted s o fresh
  cases c with
  | create c =>
    rcases hp : s.repoStep o fresh c with ⟨s₁, r⟩
    obtain ⟨-, hr⟩ := State.repoStep_eq hp
    have h₁ : s₁ = (s.repoStep o fresh c).1 := by rw [hp]
    rcases State.advanceCall_create (i := i) hp with ⟨c', rfl, he⟩ | ⟨m, rfl, he⟩ | ⟨-, -, he⟩ <;>
      rw [he, h₁]
    · -- the insert: a new id, of a row that was not there
      rcases c with _ | _ | _ | n | n | _ | _ | _ | _ <;> simp only [Call.Scheduled] at hsch
      · rcases RepoCall.step_inl o _ hr with ⟨_, h₂, -⟩ | ⟨_, _, h₂, -⟩ | ⟨_, w, h₂, hw, rfl⟩ |
          ⟨_, _, h₂, -⟩ | ⟨_, _, h₂, -⟩ <;> cases h₂
        rcases RepoCall.written_cases hw with ⟨_, p, h₂, -, hcr⟩ | ⟨_, h₂, -⟩ | ⟨_, h₂, -⟩ <;>
          cases h₂
        obtain ⟨hfree, -, hid, -⟩ := createNotification_ok hcr
        have hp := (hrepo (.save n)).setCall hc (.create (.saveFill (toDomainModel w)))
        simp only [Call.insertedID, Option.toList_none, Option.toList_some, List.append_nil] at hp
        refine (hp.trans List.perm_append_comm).nodup_iff.2 (List.nodup_cons.2 ⟨fun hk => ?_, h⟩)
        obtain ⟨r', hr'⟩ := ht.inserted_stored _ hk
        rw [show (toDomainModel w).id = fresh from hid, hfree] at hr'
        cases hr'
      · simp [RepoCall.step] at hr
    · -- the record `Save` read back goes on to `Publish`: the same id
      refine hset _ (hrepo c) ?_
      rcases RepoCall.step_record o c hr with ⟨k, rfl, -⟩ | hf
      · exact hsch.elim
      · rcases c with _ | _ | _ | _ | m' | _ | _ | _ | _ <;>
          simp only [Call.Scheduled, RepoCall.filling, Option.some.injEq, reduceCtorEq] at hsch hf
        rw [hf]; rfl
    · exact hdrop (hrepo c)
  | publish n =>
    -- the id moves from the call to the log, whether RabbitMQ takes the message or refuses it
    have hmove : ∀ {t : State}, t.KeepsInserted s → ∀ e : Event, e.publishedID = some n.id →
        ((t.record e).dropCall i).inserted.Nodup := fun hq e he => by
      have hp := filterMap_eraseIdx_perm Call.insertedID hc
      simp only [State.inserted, State.dropCall_log, State.record_log, State.dropCall_calls,
        State.record_calls, hq.1, List.filterMap_append, hq.2, List.filterMap_cons,
        List.filterMap_nil, he, Call.insertedID, Option.toList_some] at hp ⊢
      refine (List.Perm.nodup_iff ?_).2 h
      rw [List.append_assoc]
      exact (List.perm_append_comm.trans hp).append_left _
    have hwait : (s.enqueue o .wait (publishMsg s.now n)).KeepsInserted s := ⟨by simp, by simp⟩
    rw [State.advanceCall_publish]
    split_ifs with hcl hacc
    · exact hdrop ⟨rfl, rfl⟩
    · rw [State.publishWait_of_accepted hacc.2]
      exact hmove hwait _ rfl
    · rcases State.publishWait_eq s (publishMsg s.now n) o with e | ⟨-, -, e⟩ <;> rw [e]
      · exact hdrop hwait
      · exact hmove ⟨rfl, rfl⟩ _ rfl
  | get c =>
    rcases hp : s.repoStep o fresh c with ⟨s₁, r⟩
    have h₁ : s₁ = (s.repoStep o fresh c).1 := by rw [hp]
    rcases State.advanceCall_get (i := i) hp with ⟨c', -, he⟩ | ⟨n, -, he⟩ | ⟨-, -, he⟩ <;>
      rw [he, h₁]
    · exact hset _ (hrepo c) rfl
    · exact hdrop ((hrepo c).record rfl)
    · exact hdrop (hrepo c)
  | cancelLookup id c =>
    rcases hp : s.repoStep o fresh c with ⟨s₁, r⟩
    have h₁ : s₁ = (s.repoStep o fresh c).1 := by rw [hp]
    rcases State.advanceCall_cancelLookup (i := i) hp with
      ⟨c', -, he⟩ | ⟨n, -, -, he⟩ | ⟨n, -, -, he⟩ | ⟨-, -, he⟩ <;> rw [he, h₁]
    · exact hset _ (hrepo c) rfl
    · exact hset _ ((hrepo c).record rfl) rfl
    · exact hdrop ((hrepo c).record rfl)
    · exact hdrop (hrepo c)
  | cancelDelete id c =>
    rcases hp : s.repoStep o fresh c with ⟨s₁, r⟩
    have h₁ : s₁ = (s.repoStep o fresh c).1 := by rw [hp]
    rcases State.advanceCall_cancelDelete (i := i) hp with ⟨c', -, he⟩ | ⟨-, he⟩ | ⟨-, -, he⟩ <;>
      rw [he, h₁]
    · exact hset _ (hrepo c) rfl
    · exact hdrop ((hrepo c).record rfl)
    · exact hdrop (hrepo c)

theorem inserted_step (ht : s.Traced) (hsch : ∀ c ∈ s.calls, c.Scheduled)
    (h : s.inserted.Nodup) {a : Action} (hs : s.step a = some s') : s'.inserted.Nodup := by
  have hsame : s'.KeepsInserted s → s'.inserted.Nodup := fun hq => by
    rw [State.inserted, hq.1, hq.2]; exact h
  have hadd : ∀ c : Call, c.insertedID = none →
      ({ s with calls := s.calls ++ [c] } : State).inserted.Nodup := fun c hc => by
    simpa [State.inserted, List.filterMap_append, hc] using h
  cases a with
  | create uuid req address chatID =>
    simp only [State.step] at hs
    split at hs <;> cases hs
    · exact hadd _ rfl
    · exact h
  | get id | cancel id => cases hs; exact hadd _ rfl
  | call i o fresh =>
    obtain ⟨c, hc, rfl⟩ := Option.map_eq_some'.1 hs
    exact State.advanceCall_inserted ht hc (hsch c (List.getElem?_mem hc)) h
  | crashCall i =>
    obtain ⟨c, -, rfl⟩ := Option.map_eq_some'.1 hs
    exact h.sublist (State.KeepsInserted.dropCall ⟨rfl, rfl⟩)
  | deliver i | crashJob i =>
    obtain ⟨_, -, rfl⟩ := Option.map_eq_some'.1 hs
    exact h
  | job i o =>
    obtain ⟨j, -, hs⟩ := Option.bind_eq_some.1 hs
    exact hsame ⟨State.advanceJob_calls hs, State.advanceJob_publishedIDs hs⟩
  | send i ok =>
    obtain ⟨j, -, hs⟩ := Option.bind_eq_some.1 hs
    obtain ⟨-, ⟨-, rfl⟩ | ⟨-, -, rfl⟩ | ⟨-, -, rfl⟩⟩ := State.sendJob_cases hs <;>
      exact hsame ⟨rfl, by simp [Event.publishedID]⟩
  | deadLetter q =>
    obtain ⟨⟨m, rest⟩, -, rfl⟩ := Option.map_eq_some'.1 hs
    cases q <;> exact h
  | tick δ | expire id => cases hs; exact h

theorem reach_inserted {P : State → Action → Bool} (h : Reach P s) : s.inserted.Nodup := by
  induction h with
  | init now => exact List.nodup_nil
  | next hr _ hs ih => exact inserted_step (reach_traced hr) (reach_scheduled hr) ih hs

end Steps

/-- Under any interleaving and any failure of cache, store and broker operations, lost replies
included, no two `Publish`es that returned nil, and so no two `201` answers to
`POST /api/v1/notifications`, are of the same notification: each accepted POST created its
own row. -/
theorem published_ids_distinct {P : State → Action → Bool} {s : State} (h : Reach P s) :
    (s.log.filterMap Event.publishedID).Nodup :=
  (reach_inserted h).sublist (List.sublist_append_left _ _)

private def twoPublished : List Action :=
  [.create 0 ⟨"a@b.co", "email", "s", "", 0, none⟩ (.ok ()) (.error ""), .call 0 .ok 1,
   .call 0 .ok 0, .call 0 .ok 0,
   .create 0 ⟨"a@b.co", "email", "t", "", 0, none⟩ (.ok ()) (.error ""), .call 0 .ok 2,
   .call 0 .ok 0, .call 0 .ok 0]

set_option maxRecDepth 20000 in
theorem published_ids_distinct_for_two_posts :
    ∃ s, Reach anyRun s ∧ (s.log.filterMap Event.publishedID).length = 2 ∧
      (s.log.filterMap Event.publishedID).Nodup := by
  have h : ((State.init 0).run anyRun twoPublished).map
      (fun s => (s.log.filterMap Event.publishedID).length) = some 2 := by
    decide
  cases hrun : (State.init 0).run anyRun twoPublished with
  | none => simp [hrun] at h
  | some s =>
    have hR := reach_run (.init 0) hrun
    exact ⟨s, hR, by simpa [hrun] using h, published_ids_distinct hR⟩

end DelayedNotifier
