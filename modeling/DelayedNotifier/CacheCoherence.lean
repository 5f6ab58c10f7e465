import DelayedNotifier.CachedRepository

/-!
# Coherence of the cache-aside decorator under concurrent calls

Callers invoke the four methods of `CachedNotificationRepository` concurrently and the round
trips of the calls in progress interleave in any order. A `GetByID` that missed the cache can
read a row before an `Update` commits and fill the cache after that `Update` deleted the
entry; the stale copy then outlives every call (`cache_stale_when_quiescent`). That is the
only way the cache goes stale: while no row is written under a pending fill of it, every
cache entry is the table's row, except while an `Update` or `Delete` of that row has still
to invalidate it (`cache_entry_current`).
-/

namespace DelayedNotifier.CacheAside

structure RepoState where
  now : Int
  db : Db
  calls : List RepoCall

inductive RepoAction
  | call (c : RepoCall)
  | step (i : Nat) (o : Outcome) (fresh : Nat)
  | expire (id : Nat)
  | tick (δ : Nat)

def RepoState.init (now : Int) : RepoState := ⟨now, ⟨fun _ => none, fun _ => none⟩, []⟩

/-- A caller starts a method; a call in progress makes its next round trip; a cache entry's
TTL lapses; the clock advances. -/
def RepoState.next (s : RepoState) : RepoAction → Option RepoState
  | .call c => if c.isEntry then some { s with calls := s.calls ++ [c] } else none
  | .step i o fresh =>
    s.calls[i]?.map fun c =>
      match c.step o fresh s.now s.db with
      | (d, .inl c') => { s with db := d, calls := s.calls.set i c' }
      | (d, .inr _) => { s with db := d, calls := s.calls.eraseIdx i }
  | .expire id => some { s with db := s.db.cacheDelete .ok id }
  | .tick δ => some { s with now := s.now + δ }

inductive Reach (P : RepoState → RepoAction → Bool) : RepoState → Prop
  | init (now : Int) : Reach P (RepoState.init now)
  | next {s s' : RepoState} {a : RepoAction} :
      Reach P s → P s a → s.next a = some s' → Reach P s'

def RepoState.run (P : RepoState → RepoAction → Bool) (s : RepoState) :
    List RepoAction → Option RepoState
  | [] => some s
  | a :: as => if P s a then (s.next a).bind (·.run P as) else none

def succeeds (_ : RepoState) : RepoAction → Bool
  | .step _ o _ => o == .ok
  | _ => true

/-- Every round trip succeeds, and no row is written while a call in progress has still to
fill the cache with a copy of it. -/
def noWriteUnderFill (s : RepoState) : RepoAction → Bool
  | .step i o fresh =>
    o == .ok && match s.calls[i]?.bind (·.writes fresh) with
      | some k => s.calls.all fun c' => c'.filling.map (·.id) != some k
      | none => true
  | _ => true

theorem reach_run {P : RepoState → RepoAction → Bool} {s s' : RepoState} {as : List RepoAction}
    (hs : Reach P s) (h : s.run P as = some s') : Reach P s' := by
  induction as generalizing s with
  | nil => cases h; exact hs
  | cons a as ih =>
    simp only [RepoState.run] at h
    split_ifs at h with hp
    cases hn : s.next a with
    | none => simp [hn] at h
    | some t => simp only [hn, Option.bind_some] at h; exact ih (hs.next hp hn) h

theorem next_step {s s' : RepoState} {i : Nat} {o : Outcome} {fresh : Nat}
    (h : s.next (.step i o fresh) = some s') :
    ∃ c pre post, s.calls[i]? = some c ∧ s.calls = pre ++ c :: post ∧ s'.now = s.now ∧
      s'.db = (c.step o fresh s.now s.db).1 ∧
      s'.calls = pre ++ (c.step o fresh s.now s.db).2.elim (fun c' => [c']) (fun _ => []) ++ post := by
  simp only [RepoState.next, Option.map_eq_some'] at h
  obtain ⟨c, hc, rfl⟩ := h
  rcases hs : c.step o fresh s.now s.db with ⟨d, c' | rep⟩
  · obtain ⟨pre, post, h1, h2, -⟩ := pool_split hc c'
    exact ⟨c, pre, post, hc, h1, rfl, by simp [hs], by simp [hs, h2]⟩
  · obtain ⟨pre, post, h1, -, h3⟩ := pool_split hc c
    exact ⟨c, pre, post, hc, h1, rfl, by simp [hs], by simp [hs, h3]⟩

/-- What keeps the cache honest: rows sit under their own id, a pending fill carries the
row as it is now, every cache entry is its row unless an invalidation of it is pending, and
a pending invalidation is of a row that exists. -/
structure Coherent (s : RepoState) : Prop where
  keyed : ∀ k r, s.db.rows k = some r → r.id = k
  fills : ∀ c ∈ s.calls, ∀ n, c.filling = some n →
    ∃ r, s.db.rows n.id = some r ∧ toDomainModel r = n
  cached : ∀ k n, s.db.cache k = some n →
    (∃ r, s.db.rows k = some r ∧ toDomainModel r = n) ∨ ∃ c ∈ s.calls, c.invalidates = some k
  pending : ∀ c ∈ s.calls, ∀ k, c.invalidates = some k → (s.db.rows k).isSome

theorem coherent_init (now : Int) : Coherent (RepoState.init now) :=
  ⟨by simp [RepoState.init], by simp [RepoState.init], by simp [RepoState.init],
    by simp [RepoState.init]⟩

theorem RepoCall.entry_quiet {c : RepoCall} (h : c.isEntry) :
    c.filling = none ∧ c.invalidates = none := by
  cases c <;> simp_all [RepoCall.isEntry, RepoCall.filling, RepoCall.invalidates]

theorem coherent_call {s : RepoState} {c : RepoCall} (hc : Coherent s) (he : c.isEntry) :
    Coherent { s with calls := s.calls ++ [c] } := by
  obtain ⟨hf, hi⟩ := RepoCall.entry_quiet he
  refine ⟨hc.keyed, fun c' hc' n hn => ?_, fun k n hn => ?_, fun c' hc' k hk => ?_⟩
  · rcases List.mem_append.1 hc' with hc' | hc'
    · exact hc.fills c' hc' n hn
    · simp_all
  · rcases hc.cached k n hn with h1 | ⟨c', hc', hk⟩
    · exact .inl h1
    · exact .inr ⟨c', List.mem_append_left _ hc', hk⟩
  · rcases List.mem_append.1 hc' with hc' | hc'
    · exact hc.pending c' hc' k hk
    · simp_all

theorem coherent_expire {s : RepoState} (hc : Coherent s) (id : Nat) :
    Coherent { s with db := s.db.cacheDelete .ok id } := by
  refine ⟨hc.keyed, hc.fills, fun k n hn => ?_, hc.pending⟩
  simp only [Db.cacheDelete, Outcome.applied, if_true, Function.update_apply] at hn
  split_ifs at hn
  exact hc.cached k n hn

theorem coherent_step {s s' : RepoState} {i fresh : Nat} (hc : Coherent s)
    (hw : noWriteUnderFill s (.step i .ok fresh))
    (h : s.next (.step i .ok fresh) = some s') : Coherent s' := by
  obtain ⟨c, pre, post, hci, hcalls, -, hdb, hcalls'⟩ := next_step h
  have hw : ∀ k, c.writes fresh = some k → ∀ c' ∈ s.calls, ∀ n, c'.filling = some n → n.id ≠ k := by
    intro k hk c' hc' n hn
    simp only [noWriteUnderFill, hci, Option.some_bind, hk, beq_self_eq_true, Bool.true_and,
      List.all_eq_true] at hw
    simpa [hn] using hw c' hc'
  have old : ∀ x ∈ s'.calls, x ∈ s.calls ∨
      x ∈ (c.step .ok fresh s.now s.db).2.elim (fun c' => [c']) (fun _ => []) := by
    intro x hx; rw [hcalls'] at hx; rw [hcalls]; simp only [List.mem_append, List.mem_cons] at hx ⊢
    tauto
  have kept : ∀ x ∈ s.calls, x ≠ c → x ∈ s'.calls := by
    intro x hx hne; rw [hcalls] at hx; rw [hcalls']; simp only [List.mem_append, List.mem_cons] at hx ⊢
    tauto
  have kept_inv : ∀ k, c.invalidates ≠ some k → ∀ x ∈ s.calls, x.invalidates = some k →
      x ∈ s'.calls := fun k hk x hx hxk => kept x hx (by rintro rfl; exact hk hxk)
  rcases RepoCall.step_ok_cases c fresh s.now s.db with
    ⟨hd, hinv, -, hrest⟩ | ⟨n, rep, hfill, hinv, hd, hr⟩ | ⟨k, rep, hinv, hd, hr⟩ |
    ⟨n, r, rfl, hfresh, hrid, hd, hr⟩ | ⟨k, r, r', hwk, hinv, -, hrk, hd, hrr, c', hr, hinv', hfill'⟩
  · -- no effect on the table or the cache
    rw [hd] at hdb
    have hnew : ∀ x ∈ s'.calls, x ∈ s.calls ∨ (x.filling = none ∧ x.invalidates = none) ∨
        ∃ id r, s.db.rows id = some r ∧ x = .getByIDFill (toDomainModel r) := by
      intro x hx
      rcases old x hx with hx | hx
      · exact .inl hx
      · rcases hrest with ⟨rep, hrep⟩ | ⟨id, hid⟩ | ⟨id, r, -, hr, hid⟩
        · simp [hrep] at hx
        · simp only [hid, Sum.elim_inl, List.mem_singleton] at hx
          exact .inr (.inl (by subst hx; exact ⟨rfl, rfl⟩))
        · simp only [hid, Sum.elim_inl, List.mem_singleton] at hx
          exact .inr (.inr ⟨id, r, hr, hx⟩)
    refine ⟨by rw [hdb]; exact hc.keyed, fun x hx n hn => ?_, fun k n hn => ?_,
      fun x hx k hk => ?_⟩
    · rw [hdb]
      rcases hnew x hx with hx | hx | ⟨id, r, hr, rfl⟩
      · exact hc.fills x hx n hn
      · simp [hx.1] at hn
      · cases hn; exact ⟨r, by rw [toDomainModel, hc.keyed id r hr]; exact hr, rfl⟩
    · rw [hdb] at hn ⊢
      rcases hc.cached k n hn with h1 | ⟨x, hx, hxk⟩
      · exact .inl h1
      · exact .inr ⟨x, kept_inv k (by simp [hinv]) x hx hxk, hxk⟩
    · rw [hdb]
      rcases hnew x hx with hx | hx | ⟨id, r, -, rfl⟩
      · exact hc.pending x hx k hk
      · simp [hx.2] at hk
      · simp [RepoCall.invalidates] at hk
  · -- the call fills the cache entry of `n` and returns
    rw [hr] at old; rw [hd] at hdb
    have sub : ∀ x ∈ s'.calls, x ∈ s.calls := fun x hx => by simpa using old x hx
    refine ⟨?_, fun x hx => ?_, fun k m hm => ?_, fun x hx => ?_⟩
    · rw [hdb]; simpa using hc.keyed
    · rw [hdb]; simpa using hc.fills x (sub x hx)
    swap
    · rw [hdb]; simpa using hc.pending x (sub x hx)
    rw [hdb] at hm ⊢
    simp only [Db.cacheSet, Outcome.applied, if_true, Function.update_apply] at hm
    split_ifs at hm with hk
    · cases hm; subst hk
      exact .inl (by simpa using hc.fills c (by rw [hcalls]; simp) n hfill)
    · rcases hc.cached k m hm with h1 | ⟨x, hx, hxk⟩
      · exact .inl (by simpa using h1)
      · exact .inr ⟨x, kept_inv k (by simp [hinv]) x hx hxk, hxk⟩
  · -- the call deletes the cache entry of `k` and returns
    rw [hr] at old; rw [hd] at hdb
    have sub : ∀ x ∈ s'.calls, x ∈ s.calls := fun x hx => by simpa using old x hx
    refine ⟨?_, fun x hx => ?_, fun k' m hm => ?_, fun x hx => ?_⟩
    · rw [hdb]; simpa using hc.keyed
    · rw [hdb]; simpa using hc.fills x (sub x hx)
    swap
    · rw [hdb]; simpa using hc.pending x (sub x hx)
    rw [hdb] at hm ⊢
    simp only [Db.cacheDelete, Outcome.applied, if_true, Function.update_apply] at hm
    split_ifs at hm with hk'
    rcases hc.cached k' m hm with h1 | ⟨x, hx, hxk⟩
    · exact .inl (by simpa using h1)
    · exact .inr ⟨x, kept_inv k' (by simp [hinv, Ne.symm hk']) x hx hxk, hxk⟩
  · -- `Save` inserted the fresh row `r`
    rw [hd] at hdb; rw [hr] at old
    have hnot : ∀ k, (s.db.rows k).isSome → k ≠ fresh := by
      rintro k hk rfl; simp [hfresh] at hk
    have put_eq : ∀ k, k ≠ fresh → (s.db.rows.put r) k = s.db.rows k := fun k hk => by
      simp [Table.put_apply, hrid, hk]
    refine ⟨fun k r₀ h₀ => ?_, fun x hx m hm => ?_, fun k m hm => ?_, fun x hx k hk => ?_⟩
    · rw [hdb] at h₀; simp only [Db.put_rows, Table.put_apply, hrid] at h₀
      split_ifs at h₀ with hk
      · cases h₀; exact hk.symm ▸ hrid
      · exact hc.keyed k r₀ h₀
    · rw [hdb]; simp only [Db.put_rows]
      rcases old x hx with hx | hx
      · obtain ⟨r₀, h₀, h₁⟩ := hc.fills x hx m hm
        exact ⟨r₀, by rw [put_eq _ (hnot _ (by simp [h₀]))]; exact h₀, h₁⟩
      · simp only [Sum.elim_inl, List.mem_singleton] at hx
        subst hx; cases hm
        exact ⟨r, by simp [toDomainModel, Table.put_apply], rfl⟩
    · rw [hdb] at hm ⊢; simp only [Db.put_cache, Db.put_rows] at hm ⊢
      rcases hc.cached k m hm with ⟨r₀, h₀, h₁⟩ | ⟨x, hx, hxk⟩
      · exact .inl ⟨r₀, by rw [put_eq _ (hnot _ (by simp [h₀]))]; exact h₀, h₁⟩
      · have hk := hnot k (hc.pending x hx k hxk)
        exact .inr ⟨x, kept_inv k (by simp [RepoCall.invalidates]) x hx hxk, hxk⟩
    · rw [hdb]; simp only [Db.put_rows, Table.put_apply]
      rcases old x hx with hx | hx
      · split_ifs <;> simp [hc.pending x hx k hk]
      · simp only [Sum.elim_inl, List.mem_singleton] at hx; subst hx
        simp [RepoCall.invalidates] at hk
  · -- `Update` or `Delete` wrote row `k`, and will invalidate its cache entry next
    rw [hd] at hdb; rw [hr] at old
    have hrk' : r'.id = k := hrr.trans (hc.keyed k r hrk)
    have put_eq : ∀ k', k' ≠ k → (s.db.rows.put r') k' = s.db.rows k' := fun k' hk => by
      simp [Table.put_apply, hrk', hk]
    have hc' : c' ∈ s'.calls := by rw [hcalls', hr]; simp
    refine ⟨fun k₀ r₀ h₀ => ?_, fun x hx m hm => ?_, fun k₀ m hm => ?_, fun x hx k₀ hk₀ => ?_⟩
    · rw [hdb] at h₀; simp only [Db.put_rows, Table.put_apply, hrk'] at h₀
      split_ifs at h₀ with hk
      · cases h₀; exact hk.symm ▸ hrk'
      · exact hc.keyed k₀ r₀ h₀
    · rw [hdb]; simp only [Db.put_rows]
      rcases old x hx with hx | hx
      · obtain ⟨r₀, h₀, h₁⟩ := hc.fills x hx m hm
        exact ⟨r₀, by rw [put_eq _ (hw k hwk x hx m hm)]; exact h₀, h₁⟩
      · simp only [Sum.elim_inl, List.mem_singleton] at hx; subst hx; simp [hfill'] at hm
    · rw [hdb] at hm ⊢; simp only [Db.put_cache, Db.put_rows] at hm ⊢
      by_cases hk : k₀ = k
      · subst hk; exact .inr ⟨c', hc', hinv'⟩
      · rcases hc.cached k₀ m hm with ⟨r₀, h₀, h₁⟩ | ⟨x, hx, hxk⟩
        · exact .inl ⟨r₀, by rw [put_eq _ hk]; exact h₀, h₁⟩
        · exact .inr ⟨x, kept_inv k₀ (by simp [hinv]) x hx hxk, hxk⟩
    · rw [hdb]; simp only [Db.put_rows, Table.put_apply]
      rcases old x hx with hx | hx
      · split_ifs <;> simp [hc.pending x hx k₀ hk₀]
      · simp only [Sum.elim_inl, List.mem_singleton] at hx; subst hx
        rw [hinv'] at hk₀; cases hk₀; simp [hrk']

theorem coherent_next {s s' : RepoState} {a : RepoAction} (hc : Coherent s)
    (hP : noWriteUnderFill s a) (h : s.next a = some s') : Coherent s' := by
  cases a with
  | call c =>
    simp only [RepoState.next] at h
    split_ifs at h with he
    cases h; exact coherent_call hc he
  | step i o fresh =>
    have ho : o = .ok := by simp only [noWriteUnderFill, Bool.and_eq_true, beq_iff_eq] at hP; exact hP.1
    subst ho; exact coherent_step hc hP h
  | expire id => cases h; exact coherent_expire hc id
  | tick δ => cases h; exact ⟨hc.keyed, hc.fills, hc.cached, hc.pending⟩

theorem reach_coherent {s : RepoState} (h : Reach noWriteUnderFill s) : Coherent s := by
  induction h with
  | init now => exact coherent_init now
  | next _ hp hs ih => exact coherent_next ih hp hs

/-- As long as no row is written while a call in progress has still to copy it into the
cache, a cache entry is the table's row, except while an `Update` or `Delete` of that row
has still to invalidate it; in particular whenever no call is in progress. -/
theorem cache_entry_current {s : RepoState} (h : Reach noWriteUnderFill s) {k : Nat}
    (hk : ∀ c ∈ s.calls, c.invalidates ≠ some k) {n : Notification}
    (hn : s.db.cache k = some n) : ∃ r, s.db.rows k = some r ∧ toDomainModel r = n := by
  rcases (reach_coherent h).cached k n hn with h1 | ⟨c, hc, hck⟩
  · exact h1
  · exact absurd hck (hk c hc)

section Traces

private def firstRecord : Notification :=
  newEmailNotification 0 0 "a@b.co" "s" "" 0 none

private def saveTrace : List RepoAction :=
  [.call (.save firstRecord), .step 0 .ok 1, .step 0 .ok 0]

theorem cache_entry_current_after_save :
    ∃ s, Reach noWriteUnderFill s ∧ (∀ c ∈ s.calls, c.invalidates ≠ some 1) ∧
      ∃ n, s.db.cache 1 = some n ∧ ∃ r, s.db.rows 1 = some r ∧ toDomainModel r = n := by
  have h : ((RepoState.init 0).run noWriteUnderFill saveTrace).map
      (fun s => s.calls.isEmpty && (s.db.cache 1).isSome) = some true := by decide
  cases hr : (RepoState.init 0).run noWriteUnderFill saveTrace with
  | none => simp [hr] at h
  | some s =>
    simp only [hr, Option.map_some', Option.some.injEq, Bool.and_eq_true, List.isEmpty_iff,
      Option.isSome_iff_exists] at h
    obtain ⟨hc, n, hn⟩ := h
    have hs := reach_run (.init 0) hr
    have hk : ∀ c ∈ s.calls, c.invalidates ≠ some 1 := by simp [hc]
    exact ⟨s, hs, hk, n, hn, cache_entry_current hs hk hn⟩

/-- Save a notification (id 1), let its cache entry lapse, start a `GetByID` that misses and
reads the row, run a whole `Update` of the row, and only then let the `GetByID` fill the
cache. -/
private def staleTrace : List RepoAction :=
  saveTrace ++ [.expire 1, .call (.getByID 1), .step 0 .ok 0, .step 0 .ok 0,
   .call (.update { firstRecord with id := 1, status := .sent }), .step 1 .ok 0, .step 1 .ok 0,
   .step 0 .ok 0]

private def staleAt (s : RepoState) : Bool :=
  s.calls.isEmpty &&
    match s.db.cache 1, s.db.rows 1 with
    | some n, some r => toDomainModel r != n
    | _, _ => false

theorem cache_stale_when_quiescent :
    ∃ s, Reach succeeds s ∧ s.calls = [] ∧
      ∃ k n r, s.db.cache k = some n ∧ s.db.rows k = some r ∧ toDomainModel r ≠ n := by
  have h : ((RepoState.init 0).run succeeds staleTrace).map staleAt = some true := by decide
  cases hr : (RepoState.init 0).run succeeds staleTrace with
  | none => simp [hr] at h
  | some s =>
    simp only [hr, Option.map_some', Option.some.injEq, staleAt, Bool.and_eq_true,
      List.isEmpty_iff] at h
    obtain ⟨hc, hst⟩ := h
    refine ⟨s, reach_run (.init 0) hr, hc, 1, ?_⟩
    split at hst
    · rename_i n r hn hr'
      exact ⟨n, r, hn, hr', by simpa using hst⟩
    · cases hst

end Traces

end DelayedNotifier.CacheAside
