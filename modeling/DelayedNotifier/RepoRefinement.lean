import DelayedNotifier.System
import DelayedNotifier.CacheCoherence

/-!
# The system's repository traffic is a run of the cache-aside model

A worker between two round trips of `CachedNotificationRepository` and an API call inside a
repository method are calls in progress of the concurrent model of `CacheCoherence`.
`State.repo` collects them with the table, the cache and the clock, and `repo_step` shows that
each step of the system is a run of that model, up to the order of the calls in progress: at
most one round trip of one call, then the methods the step starts. The model's invariant
`Coherent` therefore holds in every state the system reaches when no row is written under a
pending fill of it (`reach_coherent_repo`).
-/

namespace DelayedNotifier

open CacheAside

def WorkerPc.repoCall : WorkerPc → Option RepoCall
  | .revalidate c | .update c => some c
  | _ => none

def Call.repoCall : Call → Option RepoCall
  | .create c | .get c | .cancelLookup _ c | .cancelDelete _ c => some c
  | .publish _ => none

def RepoCall.continuation : RepoCall ⊕ RepoReply → List RepoCall
  | .inl c => [c]
  | .inr _ => []

theorem RepoCall.continuation_of_ne {r : RepoCall ⊕ RepoReply} (h : ∀ c, r ≠ .inl c) :
    RepoCall.continuation r = [] := by
  rcases r with c | _
  · exact absurd rfl (h c)
  · rfl

namespace State

def pool (s : State) : List RepoCall :=
  s.jobs.filterMap (·.pc.repoCall) ++ s.calls.filterMap Call.repoCall

def repo (s : State) : RepoState := ⟨s.now, s.db, s.pool⟩

def writes (s : State) : Action → Option Nat
  | .job i _ => (s.jobs[i]?.bind (·.pc.repoCall)).bind (·.writes 0)
  | .call i _ fresh => (s.calls[i]?.bind Call.repoCall).bind (·.writes fresh)
  | _ => none

end State

/-- Every round trip succeeds, nothing crashes, and no row is written while a repository call
in progress has still to copy it into the cache. -/
def reliableFill (s : State) (a : Action) : Bool :=
  reliable s a && match s.writes a with
    | some k => s.pool.all fun c => c.filling.map (·.id) != some k
    | none => true

/-- The model state `rs` is the system's repository traffic, up to the order of the calls. -/
def CacheAside.RepoState.Mirrors (rs : RepoState) (s : State) : Prop :=
  rs.now = s.now ∧ rs.db = s.db ∧ rs.calls.Perm s.pool

section Lists

variable {α β : Type} (f : α → Option β) {l : List α} {i : Nat} {x : α}

theorem filterMap_set_perm (h : l[i]? = some x) (y : α) :
    ((l.set i y).filterMap f ++ (f x).toList).Perm (l.filterMap f ++ (f y).toList) := by
  obtain ⟨pre, post, rfl, hs, -⟩ := pool_split h y
  rw [hs]
  simp only [List.filterMap_append, List.filterMap_cons, List.append_assoc]
  refine List.Perm.append_left _ ?_
  rcases f x with _ | b <;> rcases f y with _ | b' <;> simp [List.perm_middle]
  all_goals first
    | exact (List.perm_append_singleton _ _).symm
    | exact ((List.perm_append_singleton _ _).cons _).trans
        ((List.Perm.swap _ _ _).trans ((List.perm_append_singleton _ _).cons _).symm)

theorem filterMap_eraseIdx_perm (h : l[i]? = some x) :
    ((l.eraseIdx i).filterMap f ++ (f x).toList).Perm (l.filterMap f) := by
  obtain ⟨pre, post, rfl, -, he⟩ := pool_split h x
  rw [he]
  simp only [List.filterMap_append, List.filterMap_cons, List.append_assoc]
  refine List.Perm.append_left _ ?_
  rcases f x with _ | b <;> simp [List.perm_middle]

end Lists

namespace State

variable {s s' : State} {i : Nat} {j : Job} {x : Call}

@[simp] theorem pool_record (e : Event) : (s.record e).pool = s.pool := rfl
@[simp] theorem pool_requeue (m : Msg) : (s.requeue m).pool = s.pool := rfl
@[simp] theorem pool_setQueue (q : DelayQueue) (l : List Msg) : (s.setQueue q l).pool = s.pool := by
  cases q <;> rfl
@[simp] theorem pool_enqueue (o : Outcome) (q : DelayQueue) (m : Msg) :
    (s.enqueue o q m).pool = s.pool := by
  simp [pool]
@[simp] theorem pool_repoStep (o : Outcome) (fresh : Nat) (c : RepoCall) :
    (s.repoStep o fresh c).1.pool = s.pool := by
  rw [repoStep_fst]; rfl

theorem pool_setJob (hj : s.jobs[i]? = some j) (j' : Job) :
    ((s.setJob i j').pool ++ j.pc.repoCall.toList).Perm (s.pool ++ j'.pc.repoCall.toList) := by
  have := filterMap_set_perm (·.pc.repoCall) hj j'
  simp only [pool, setJob_jobs, setJob_calls, List.append_assoc]
  exact ((List.perm_append_comm.append_left _).trans (by simpa using this.append_right _)).trans
    (List.perm_append_comm.append_left _)

theorem pool_dropJob (hj : s.jobs[i]? = some j) :
    ((s.dropJob i).pool ++ j.pc.repoCall.toList).Perm s.pool := by
  have := filterMap_eraseIdx_perm (·.pc.repoCall) hj
  simp only [pool, dropJob_jobs, dropJob_calls, List.append_assoc]
  exact (List.perm_append_comm.append_left _).trans (by simpa using this.append_right _)

theorem pool_setCall (hx : s.calls[i]? = some x) (x' : Call) :
    ((s.setCall i x').pool ++ x.repoCall.toList).Perm (s.pool ++ x'.repoCall.toList) := by
  simpa only [pool, setCall_jobs, setCall_calls, List.append_assoc] using
    (filterMap_set_perm Call.repoCall hx x').append_left _

theorem pool_dropCall (hx : s.calls[i]? = some x) :
    ((s.dropCall i).pool ++ x.repoCall.toList).Perm s.pool := by
  simpa only [pool, dropCall_jobs, dropCall_calls, List.append_assoc] using
    (filterMap_eraseIdx_perm Call.repoCall hx).append_left _

theorem repoStep_fields {o : Outcome} {fresh : Nat} {c : RepoCall} {s₁ : State}
    {r : RepoCall ⊕ RepoReply} (hp : s.repoStep o fresh c = (s₁, r)) :
    s₁.jobs = s.jobs ∧ s₁.calls = s.calls := by
  obtain ⟨rfl, -⟩ := repoStep_eq hp
  exact ⟨rfl, rfl⟩

/-! The same, for a state `s₀` with the threads of `s`, in the form a step's goal takes once
the thread's call is known. -/

variable {s₀ : State} {c : RepoCall}

theorem pool_setJob_none (hj : s.jobs[i]? = some j) (hn : j.pc.repoCall = none) (j' : Job)
    (h₀ : s₀.jobs = s.jobs ∧ s₀.calls = s.calls) :
    (s₀.setJob i j').pool.Perm (s.pool ++ j'.pc.repoCall.toList) := by
  simpa [hn, pool, h₀.1, h₀.2] using pool_setJob hj j'

theorem pool_setJob_some (hj : s.jobs[i]? = some j) (hc : j.pc.repoCall = some c) (j' : Job)
    (h₀ : s₀.jobs = s.jobs ∧ s₀.calls = s.calls) :
    ((s₀.setJob i j').pool ++ [c]).Perm (s.pool ++ j'.pc.repoCall.toList) := by
  simpa [hc, pool, h₀.1, h₀.2] using pool_setJob hj j'

theorem pool_dropJob_none (hj : s.jobs[i]? = some j) (hn : j.pc.repoCall = none)
    (h₀ : s₀.jobs = s.jobs ∧ s₀.calls = s.calls) : (s₀.dropJob i).pool.Perm (s.pool ++ []) := by
  simpa [hn, pool, h₀.1, h₀.2] using pool_dropJob hj

theorem pool_setCall_some (hx : s.calls[i]? = some x) (hc : x.repoCall = some c) (x' : Call)
    (h₀ : s₀.jobs = s.jobs ∧ s₀.calls = s.calls) :
    ((s₀.setCall i x').pool ++ [c]).Perm (s.pool ++ x'.repoCall.toList) := by
  simpa [hc, pool, h₀.1, h₀.2] using pool_setCall hx x'

theorem pool_dropCall_some (hx : s.calls[i]? = some x) (hc : x.repoCall = some c)
    (h₀ : s₀.jobs = s.jobs ∧ s₀.calls = s.calls) :
    ((s₀.dropCall i).pool ++ [c]).Perm (s.pool ++ []) := by
  simpa [hc, pool, h₀.1, h₀.2] using pool_dropCall hx

theorem pool_dropCall_none (hx : s.calls[i]? = some x) (hn : x.repoCall = none)
    (h₀ : s₀.jobs = s.jobs ∧ s₀.calls = s.calls) : (s₀.dropCall i).pool.Perm (s.pool ++ []) := by
  simpa [hn, pool, h₀.1, h₀.2] using pool_dropCall hx

end State

section Model

variable {rs rs' : RepoState} {s s' : State}

theorem CacheAside.Coherent.mirror (h : Coherent rs) (hm : rs.Mirrors s) : Coherent s.repo := by
  obtain ⟨-, hdb, hp⟩ := hm
  show Coherent ⟨s.now, s.db, s.pool⟩
  rw [← hdb]
  refine ⟨h.keyed, fun c hc => h.fills c (hp.mem_iff.2 hc), fun k n hn => ?_,
    fun c hc => h.pending c (hp.mem_iff.2 hc)⟩
  rcases h.cached k n hn with h₁ | ⟨c, hc, hk⟩
  · exact .inl h₁
  · exact .inr ⟨c, hp.mem_iff.1 hc, hk⟩

theorem coherent_run {as : List RepoAction} (h : Coherent rs)
    (hr : rs.run noWriteUnderFill as = some rs') : Coherent rs' := by
  induction as generalizing rs with
  | nil => cases hr; exact h
  | cons a as ih =>
    simp only [RepoState.run] at hr
    split_ifs at hr with hp
    cases hn : rs.next a with
    | none => simp [hn] at hr
    | some t => simp only [hn, Option.bind_some] at hr; exact ih (coherent_next h hp hn) hr

theorem run_entries {es : List RepoCall} (hes : ∀ e ∈ es, e.isEntry) :
    rs.run noWriteUnderFill (es.map .call) = some { rs with calls := rs.calls ++ es } := by
  induction es generalizing rs with
  | nil => simp [RepoState.run]
  | cons e es ih =>
    simp only [List.map_cons, RepoState.run, noWriteUnderFill, RepoState.next,
      hes e (List.mem_cons_self _ _), if_true, Option.some_bind]
    rw [ih fun e' he' => hes e' (List.mem_cons_of_mem _ he')]
    simp

theorem mirror_entries (es : List RepoCall) (hes : ∀ e ∈ es, e.isEntry)
    (hnow : s'.now = s.now) (hdb : s'.db = s.db) (hpool : s'.pool.Perm (s.pool ++ es)) :
    ∃ as rs, s.repo.run noWriteUnderFill as = some rs ∧ rs.Mirrors s' :=
  ⟨_, _, run_entries hes, hnow.symm, hdb.symm, hpool.symm⟩

theorem mirror_round_trip {c : RepoCall} {o : Outcome} {fresh : Nat} (hc : c ∈ s.pool)
    (ho : o = .ok) (hw : ∀ k, c.writes fresh = some k →
      s.pool.all (fun c' => c'.filling.map (·.id) != some k) = true)
    (es : List RepoCall) (hes : ∀ e ∈ es, e.isEntry)
    (hnow : s'.now = s.now) (hdb : s'.db = (c.step o fresh s.now s.db).1)
    (hpool : (s'.pool ++ [c]).Perm
      (s.pool ++ RepoCall.continuation (c.step o fresh s.now s.db).2 ++ es)) :
    ∃ as rs, s.repo.run noWriteUnderFill as = some rs ∧ rs.Mirrors s' := by
  obtain ⟨p, hp⟩ := List.mem_iff_getElem?.1 hc
  obtain ⟨rs₁, hrs₁⟩ : ∃ rs₁, s.repo.next (.step p o fresh) = some rs₁ := by
    simp [RepoState.next, State.repo, hp]
  obtain ⟨c₀, pre, post, hc₀, hsplit, hnow₁, hdb₁, hcalls₁⟩ := next_step hrs₁
  simp only [State.repo] at hc₀ hsplit hnow₁ hdb₁ hcalls₁
  have hc₀c : c₀ = c := by simp only [hp, Option.some.injEq] at hc₀; exact hc₀.symm
  subst hc₀c
  have hallow : noWriteUnderFill s.repo (.step p o fresh) = true := by
    simp only [noWriteUnderFill, ho, beq_self_eq_true, Bool.true_and, State.repo, hp,
      Option.some_bind]
    split
    · exact hw _ ‹_›
    · rfl
  have hcont : (c₀.step o fresh s.now s.db).2.elim (fun c' => [c']) (fun _ => []) =
      RepoCall.continuation (c₀.step o fresh s.now s.db).2 := by
    rcases (c₀.step o fresh s.now s.db).2 <;> rfl
  refine ⟨.step p o fresh :: es.map .call, { rs₁ with calls := rs₁.calls ++ es }, ?_, ?_⟩
  · simp only [RepoState.run, hallow, if_true, hrs₁, Option.bind_some]
    exact run_entries hes
  refine ⟨hnow₁.trans hnow.symm, hdb₁.trans hdb.symm, ?_⟩
  have h₁ : (rs₁.calls ++ [c₀]).Perm
      (s.pool ++ RepoCall.continuation (c₀.step o fresh s.now s.db).2) := by
    rw [hcalls₁, ← hcont, hsplit]
    exact List.perm_iff_count.2 fun a => by simp [List.count_append, List.count_cons]; omega
  have h₂ : ((rs₁.calls ++ es) ++ [c₀]).Perm ((rs₁.calls ++ [c₀]) ++ es) := by
    simpa only [List.append_assoc] using List.perm_append_comm.append_left rs₁.calls
  exact (List.perm_append_right_iff [c₀]).1 ((h₂.trans (h₁.append_right es)).trans hpool.symm)

theorem mirror_job {i : Nat} {j : Job} {c : RepoCall} {o : Outcome} (hj : s.jobs[i]? = some j)
    (hpc : j.pc.repoCall = some c) (hP : reliableFill s (.job i o)) {s₁ : State}
    {r : RepoCall ⊕ RepoReply} (hp : s.repoStep o 0 c = (s₁, r)) (hnow : s'.now = s₁.now)
    (hdb : s'.db = s₁.db) {l : List RepoCall} (hpool : (s'.pool ++ [c]).Perm (s.pool ++ l))
    (hl : l = RepoCall.continuation r) :
    ∃ as rs, s.repo.run noWriteUnderFill as = some rs ∧ rs.Mirrors s' := by
  simp only [reliableFill, reliable, State.writes, hj, hpc, Option.some_bind, Bool.and_eq_true,
    beq_iff_eq] at hP
  obtain ⟨rfl, rfl⟩ := State.repoStep_eq hp
  subst hl
  refine mirror_round_trip (List.mem_append_left _ (List.mem_filterMap.2 ⟨j, List.getElem?_mem hj, hpc⟩))
    hP.1 (fun k hk => by simpa [hk] using hP.2) [] (by simp) hnow hdb ?_
  simpa using hpool

theorem mirror_call {i : Nat} {x : Call} {c : RepoCall} {o : Outcome} {fresh : Nat}
    (hx : s.calls[i]? = some x) (hpc : x.repoCall = some c) (hP : reliableFill s (.call i o fresh))
    {s₁ : State} {r : RepoCall ⊕ RepoReply} (hp : s.repoStep o fresh c = (s₁, r))
    (es : List RepoCall) (hes : ∀ e ∈ es, e.isEntry) (hnow : s'.now = s₁.now)
    (hdb : s'.db = s₁.db) {l : List RepoCall} (hpool : (s'.pool ++ [c]).Perm (s.pool ++ l))
    (hl : l = RepoCall.continuation r ++ es) :
    ∃ as rs, s.repo.run noWriteUnderFill as = some rs ∧ rs.Mirrors s' := by
  simp only [reliableFill, reliable, State.writes, hx, hpc, Option.some_bind, Bool.and_eq_true,
    beq_iff_eq] at hP
  obtain ⟨rfl, rfl⟩ := State.repoStep_eq hp
  subst hl
  exact mirror_round_trip (List.mem_append_right _ (List.mem_filterMap.2 ⟨x, List.getElem?_mem hx, hpc⟩))
    hP.1 (fun k hk => by simpa [hk] using hP.2) es hes hnow hdb (by simpa using hpool)

theorem repo_step {a : Action} (hP : reliableFill s a) (hs : s.step a = some s') :
    ∃ as rs, s.repo.run noWriteUnderFill as = some rs ∧ rs.Mirrors s' := by
  cases a with
  | create uuid req address chatID =>
    simp only [State.step] at hs
    split at hs <;> cases hs
    · rename_i n _
      exact mirror_entries [.save n] (by simp [RepoCall.isEntry]) rfl rfl
        (by simp [State.pool, Call.repoCall])
    · exact ⟨[], _, rfl, rfl, rfl, .refl _⟩
  | get id | cancel id =>
    cases hs
    exact mirror_entries [.getByID id] (by simp [RepoCall.isEntry]) rfl rfl
      (by simp [State.pool, Call.repoCall])
  | tick δ => cases hs; exact ⟨[.tick δ], _, rfl, rfl, rfl, .refl _⟩
  | expire id => cases hs; exact ⟨[.expire id], _, rfl, rfl, rfl, .refl _⟩
  | deadLetter q =>
    obtain ⟨⟨m, rest⟩, -, rfl⟩ := Option.map_eq_some'.1 hs
    exact ⟨[], _, rfl, by cases q <;> exact ⟨rfl, rfl, .refl _⟩⟩
  | crashJob i | crashCall i => simp [reliableFill, reliable] at hP
  | deliver i =>
    obtain ⟨m, -, rfl⟩ := Option.map_eq_some'.1 hs
    refine mirror_entries [.getByID m.body.id] (by simp [RepoCall.isEntry]) rfl rfl ?_
    simpa [State.pool, WorkerPc.repoCall] using (@List.perm_append_comm _
      [RepoCall.getByID m.body.id] (s.calls.filterMap Call.repoCall)).append_left _
  | send i ok =>
    obtain ⟨j, hj, hs⟩ := Option.bind_eq_some.1 hs
    have hn : j.pc.repoCall = none := by rw [State.sendJob_cases hs |>.1]; rfl
    obtain ⟨-, ⟨-, rfl⟩ | ⟨-, -, rfl⟩ | ⟨-, -, rfl⟩⟩ := State.sendJob_cases hs <;>
      exact mirror_entries _ (by simp [RepoCall.isEntry, WorkerPc.repoCall]) rfl rfl
        (State.pool_setJob_none hj hn _ ⟨rfl, rfl⟩)
  | job i o =>
    obtain ⟨j, hj, hs⟩ := Option.bind_eq_some.1 hs
    cases hpc : j.pc with
    | revalidate c =>
      rcases hp : s.repoStep o 0 c with ⟨s₁, r⟩
      have h₁ := State.repoStep_fields hp
      have hc : j.pc.repoCall = some c := by rw [hpc]; rfl
      rcases State.advanceJob_revalidate hpc hp hs with
          ⟨c', rfl, rfl⟩ | ⟨n, rfl, -, rfl⟩ | ⟨n, rfl, -, rfl⟩ | ⟨hr, -, rfl⟩ <;>
        exact mirror_job hj hc hP hp rfl rfl (State.pool_setJob_some hj hc _ h₁)
          (by first | rfl | exact (RepoCall.continuation_of_ne ‹_›).symm)
    | update c =>
      rcases hp : s.repoStep o 0 c with ⟨s₁, r⟩
      have h₁ := State.repoStep_fields hp
      have hc : j.pc.repoCall = some c := by rw [hpc]; rfl
      rcases State.advanceJob_update hpc hp hs with ⟨c', rfl, rfl⟩ | ⟨e, rfl, rfl⟩ | ⟨hr, -, rfl⟩ <;>
        exact mirror_job hj hc hP hp rfl rfl (State.pool_setJob_some hj hc _ h₁)
          (by first | rfl | exact (RepoCall.continuation_of_ne ‹_›).symm)
    | send => exact absurd hpc (State.advanceJob_pc hs)
    | publishRetry =>
      have hn : j.pc.repoCall = none := by rw [hpc]; rfl
      rcases State.advanceJob_publishRetry hpc hs with ⟨-, rfl⟩ | ⟨-, rfl⟩ <;>
        exact mirror_entries [] (by simp) (by simp) (by simp)
          (State.pool_setJob_none hj hn _ ⟨by simp, by simp⟩)
    | ack =>
      have hn : j.pc.repoCall = none := by rw [hpc]; rfl
      rcases State.advanceJob_ack hpc hs with ⟨-, rfl⟩ | ⟨-, rfl⟩ <;>
        exact mirror_entries [] (by simp) rfl rfl (State.pool_dropJob_none hj hn ⟨rfl, rfl⟩)
    | ackUnchecked =>
      have hn : j.pc.repoCall = none := by rw [hpc]; rfl
      rcases State.advanceJob_ackUnchecked hpc hs with ⟨-, rfl⟩ | ⟨-, rfl⟩ <;>
        exact mirror_entries [] (by simp) rfl rfl (State.pool_dropJob_none hj hn ⟨rfl, rfl⟩)
    | nack =>
      rw [State.advanceJob_nack hpc hs]
      exact mirror_entries [] (by simp) rfl rfl
        (State.pool_dropJob_none hj (by rw [hpc]; rfl) ⟨rfl, rfl⟩)
  | call i o fresh =>
    obtain ⟨x, hx, rfl⟩ := Option.map_eq_some'.1 hs
    cases x with
    | publish n =>
      rw [State.advanceCall_publish]
      split_ifs <;> exact mirror_entries [] (by simp) (by simp) (by simp)
        (State.pool_dropCall_none hx rfl ⟨by simp, by simp⟩)
    | create c =>
      rcases hp : s.repoStep o fresh c with ⟨s₁, r⟩
      have h₁ := State.repoStep_fields hp
      have h₀ : ∀ e, (s₁.record e).jobs = s.jobs ∧ (s₁.record e).calls = s.calls := fun _ => h₁
      rcases State.advanceCall_create (i := i) hp with ⟨c', rfl, he⟩ | ⟨n, rfl, he⟩ | ⟨hr, -, he⟩ <;>
        rw [he]
      · exact mirror_call hx rfl hP hp [] (by simp) rfl rfl
          (State.pool_setCall_some hx rfl _ h₁) rfl
      · exact mirror_call hx rfl hP hp [] (by simp) rfl rfl
          (State.pool_setCall_some hx rfl _ h₁) rfl
      · exact mirror_call hx rfl hP hp [] (by simp) rfl rfl
          (State.pool_dropCall_some hx rfl h₁) (by simp [RepoCall.continuation_of_ne hr])
    | get c =>
      rcases hp : s.repoStep o fresh c with ⟨s₁, r⟩
      have h₁ := State.repoStep_fields hp
      have h₀ : ∀ e, (s₁.record e).jobs = s.jobs ∧ (s₁.record e).calls = s.calls := fun _ => h₁
      rcases State.advanceCall_get (i := i) hp with ⟨c', rfl, he⟩ | ⟨n, rfl, he⟩ | ⟨hr, -, he⟩ <;>
        rw [he]
      · exact mirror_call hx rfl hP hp [] (by simp) rfl rfl
          (State.pool_setCall_some hx rfl _ h₁) rfl
      · exact mirror_call hx rfl hP hp [] (by simp) rfl rfl
          (State.pool_dropCall_some hx rfl (h₀ _)) rfl
      · exact mirror_call hx rfl hP hp [] (by simp) rfl rfl
          (State.pool_dropCall_some hx rfl h₁) (by simp [RepoCall.continuation_of_ne hr])
    | cancelLookup id c =>
      rcases hp : s.repoStep o fresh c with ⟨s₁, r⟩
      have h₁ := State.repoStep_fields hp
      have h₀ : ∀ e, (s₁.record e).jobs = s.jobs ∧ (s₁.record e).calls = s.calls := fun _ => h₁
      rcases State.advanceCall_cancelLookup (i := i) hp with
          ⟨c', rfl, he⟩ | ⟨n, rfl, -, he⟩ | ⟨n, rfl, -, he⟩ | ⟨hr, -, he⟩ <;> rw [he]
      · exact mirror_call hx rfl hP hp [] (by simp) rfl rfl
          (State.pool_setCall_some hx rfl _ h₁) rfl
      · exact mirror_call hx rfl hP hp [.delete id] (by simp [RepoCall.isEntry]) rfl rfl
          (State.pool_setCall_some hx rfl _ (h₀ _)) rfl
      · exact mirror_call hx rfl hP hp [] (by simp) rfl rfl
          (State.pool_dropCall_some hx rfl (h₀ _)) rfl
      · exact mirror_call hx rfl hP hp [] (by simp) rfl rfl
          (State.pool_dropCall_some hx rfl h₁) (by simp [RepoCall.continuation_of_ne hr])
    | cancelDelete id c =>
      rcases hp : s.repoStep o fresh c with ⟨s₁, r⟩
      have h₁ := State.repoStep_fields hp
      have h₀ : ∀ e, (s₁.record e).jobs = s.jobs ∧ (s₁.record e).calls = s.calls := fun _ => h₁
      rcases State.advanceCall_cancelDelete (i := i) hp with ⟨c', rfl, he⟩ | ⟨rfl, he⟩ | ⟨hr, -, he⟩ <;>
        rw [he]
      · exact mirror_call hx rfl hP hp [] (by simp) rfl rfl
          (State.pool_setCall_some hx rfl _ h₁) rfl
      · exact mirror_call hx rfl hP hp [] (by simp) rfl rfl
          (State.pool_dropCall_some hx rfl (h₀ _)) rfl
      · exact mirror_call hx rfl hP hp [] (by simp) rfl rfl
          (State.pool_dropCall_some hx rfl h₁) (by simp [RepoCall.continuation_of_ne hr])

theorem reach_coherent_repo (h : Reach reliableFill s) : Coherent s.repo := by
  induction h with
  | init now => exact coherent_init now
  | next _ hp hs ih =>
    obtain ⟨as, rs, hrun, hm⟩ := repo_step hp hs
    exact (coherent_run ih hrun).mirror hm

theorem reach_reliable (h : Reach reliableFill s) : Reach reliable s := by
  induction h with
  | init now => exact .init now
  | next _ hp hs ih => exact ih.next (by simp only [reliableFill, Bool.and_eq_true] at hp; exact hp.1) hs

end Model

end DelayedNotifier
