import Mathlib.Algebra.Group.Nat.Defs
import Willo.TaskExecutor

/-! Tasks from their creation on (`task/mod.rs` over `task/executor.rs`). `Task::new`
takes the next value of a 64-bit counter; `spawn` moves the task into the
executor, so an id enters the task map at most once. `created` is ghost state:
the ids handed out so far. -/

namespace Willo.TaskLifetimes
open TaskExecutor BoundedQueue

def idCount : Nat := 2 ^ 64

structure Runtime where
  nextId : Nat
  unspawned : List TaskId
  executor : Executor
  created : List TaskId

def start : Runtime := ⟨0, [], new, []⟩

inductive Action where
  | create
  | event (e : Event)

/-- `Task::new`: `fetch_add` wraps around. -/
def create (s : Runtime) : Runtime :=
  { s with
    nextId := (s.nextId + 1) % idCount
    unspawned := s.nextId :: s.unspawned
    created := s.nextId :: s.created }

/-- Only a task that was created and not yet moved can be spawned. -/
def step (s : Runtime) : Action → Option Runtime
  | .create => some (create s)
  | .event (.spawn t) =>
    if t ∈ s.unspawned then
      (spawn s.executor t).map fun x => { s with executor := x, unspawned := s.unspawned.erase t }
    else none
  | .event e => (TaskExecutor.step s.executor e).map fun x => { s with executor := x }

def run (s : Runtime) (as : List Action) : Option Runtime := as.foldlM step s

theorem run_cons (s : Runtime) (a : Action) (as : List Action) :
    run s (a :: as) = (step s a).bind fun s' => run s' as := rfl

theorem run_append (s : Runtime) (as bs : List Action) :
    run s (as ++ bs) = (run s as).bind fun s' => run s' bs := by
  simp [run, List.foldlM_append, bind]

/-! What one event does to the executor's maps. -/

inductive Moves (x x' : Executor) : Event → Prop
  | spawn {t : TaskId} : t ∉ x.tasks → x'.tasks = t :: x.tasks → x'.wakerCache = x.wakerCache →
      x'.polling = x.polling → Moves x x' (.spawn t)
  | idle : x'.tasks = x.tasks → x'.wakerCache = x.wakerCache → x'.polling = x.polling →
    Moves x x' .poll
  | poll {t : TaskId} : x.polling = none → t ∈ x.tasks → x'.tasks = x.tasks →
      (∀ u ∈ x'.wakerCache, u = t ∨ u ∈ x.wakerCache) → x'.polling = some t → Moves x x' .poll
  | wake {t : TaskId} : x'.tasks = x.tasks → x'.wakerCache = x.wakerCache → x'.polling = x.polling →
      Moves x x' (.wake t)
  | pending {t : TaskId} : x.polling = some t → x'.tasks = x.tasks → x'.wakerCache = x.wakerCache →
      x'.polling = none → Moves x x' (.finish false)
  | ready {t : TaskId} : x.polling = some t → x'.tasks = x.tasks.filter (· ≠ t) →
      x'.wakerCache = x.wakerCache.filter (· ≠ t) → x'.polling = none → Moves x x' (.finish true)

theorem poll_moves {x x' : Executor} (h : poll x = some x') : Moves x x' .poll := by
  unfold poll at h
  split at h
  · cases h
  · cases h
    exact .idle rfl rfl rfl
  · next t q hnone hpop =>
    by_cases live : t ∈ x.tasks
    · rw [if_pos live, Option.some.injEq] at h
      subst h
      refine .poll hnone live rfl (fun u hu => ?_) rfl
      dsimp only at hu
      split_ifs at hu
      · exact Or.inr hu
      · exact List.mem_cons.mp hu
    · rw [if_neg live, Option.some.injEq] at h
      subst h
      exact .idle rfl rfl rfl

theorem step_moves {x x' : Executor} {e : Event} (h : TaskExecutor.step x e = some x') :
    Moves x x' e := by
  cases e with
  | spawn t =>
    simp only [TaskExecutor.step, spawn] at h
    split_ifs at h with dup
    obtain ⟨q, -, rfl⟩ := Option.map_eq_some_iff.mp h
    exact .spawn dup rfl rfl rfl
  | poll => exact poll_moves h
  | wake t =>
    cases h
    exact .wake rfl rfl rfl
  | finish ready =>
    obtain ⟨t, ht, rfl⟩ := Option.map_eq_some_iff.mp h
    cases ready with
    | false => exact .pending ht rfl rfl rfl
    | true => exact .ready ht rfl rfl rfl

/-! Ids. -/

/-- The counter has handed out exactly the ids below it, each once. -/
structure Counted (s : Runtime) : Prop where
  next : s.nextId = s.created.length % idCount
  below : s.created.length ≤ idCount → ∀ t : Nat, t ∈ s.created → t < s.created.length
  distinct : s.created.length ≤ idCount → s.created.Nodup

theorem create_counted {s : Runtime} (h : Counted s) : Counted (create s) := by
  have hnext (hn : s.created.length + 1 ≤ idCount) : s.nextId = s.created.length := by
    rw [h.next, Nat.mod_eq_of_lt (by omega)]
  refine ⟨?_, fun hn => ?_, fun hn => ?_⟩
  · simp only [create, List.length_cons, h.next, Nat.mod_add_mod]
  · simp only [create, List.length_cons] at hn ⊢
    intro t ht
    rcases List.mem_cons.mp ht with rfl | ht
    · rw [hnext hn]
      omega
    · have := h.below (by omega) t ht
      omega
  · simp only [create, List.length_cons] at hn ⊢
    refine List.nodup_cons.mpr ⟨fun hmem => ?_, h.distinct (by omega)⟩
    have := h.below (by omega) _ hmem
    rw [hnext hn] at this
    omega

/-- Between creation and completion an id is in one place, and the cache follows the map. -/
structure Placed (s : Runtime) : Prop where
  unspawned : ∀ t ∈ s.unspawned, t ∈ s.created
  tasks : ∀ t ∈ s.executor.tasks, t ∈ s.created
  once : s.unspawned.Nodup
  apart : ∀ t ∈ s.unspawned, t ∉ s.executor.tasks
  polling : ∀ t, s.executor.polling = some t → t ∈ s.executor.tasks
  cached : ∀ t ∈ s.executor.wakerCache, t ∈ s.executor.tasks

theorem Counted.fresh {s : Runtime} (h : Counted s) (hn : s.created.length < idCount) :
    s.nextId ∉ s.created := by
  intro hmem
  have hlt := h.below hn.le _ hmem
  rw [h.next, Nat.mod_eq_of_lt hn] at hlt
  omega

theorem create_placed {s : Runtime} (C : Counted s) (hn : s.created.length < idCount)
    (h : Placed s) :
    Placed (create s) := by
  have hfresh := C.fresh hn
  refine ⟨fun t ht => ?_, fun t ht => ?_, ?_, fun t ht => ?_, h.polling, h.cached⟩
  · exact List.mem_cons.mpr ((List.mem_cons.mp ht).imp_right (h.unspawned t))
  · exact List.mem_cons_of_mem _ (h.tasks t ht)
  · exact List.nodup_cons.mpr ⟨fun hm => hfresh (h.unspawned _ hm), h.once⟩
  · rcases List.mem_cons.mp ht with rfl | ht
    · exact fun hm => hfresh (h.tasks _ hm)
    · exact h.apart t ht

theorem spawn_placed {s : Runtime} {t : TaskId} {x : Executor} (ht : t ∈ s.unspawned) (h : Placed s)
    (m : Moves s.executor x (.spawn t)) :
    Placed { s with executor := x, unspawned := s.unspawned.erase t } := by
  cases m with
  | spawn _ htasks hcache hpoll =>
    refine ⟨fun u hu => h.unspawned u (List.mem_of_mem_erase hu), fun u hu => ?_, h.once.erase t,
      fun u hu => ?_, fun u hu => ?_, fun u hu => ?_⟩
    · rw [htasks] at hu
      rcases List.mem_cons.mp hu with rfl | hu
      · exact h.unspawned _ ht
      · exact h.tasks u hu
    · obtain ⟨hne, hmem⟩ := h.once.mem_erase_iff.mp hu
      rw [htasks, List.mem_cons, not_or]
      exact ⟨hne, h.apart u hmem⟩
    · rw [hpoll] at hu
      rw [htasks]
      exact List.mem_cons_of_mem _ (h.polling u hu)
    · rw [hcache] at hu
      rw [htasks]
      exact List.mem_cons_of_mem _ (h.cached u hu)

theorem Placed.of_same {s : Runtime} {x : Executor} (h : Placed s)
    (htasks : x.tasks = s.executor.tasks) (hcache : x.wakerCache = s.executor.wakerCache)
    (hpoll : x.polling = s.executor.polling ∨ x.polling = none) :
    Placed { s with executor := x } := by
  refine ⟨h.unspawned, by simpa [htasks] using h.tasks, h.once, by simpa [htasks] using h.apart,
    fun t ht => ?_, by simpa [htasks, hcache] using h.cached⟩
  dsimp only at ht ⊢
  rw [htasks]
  rcases hpoll with hpoll | hpoll
  · exact h.polling t (by rw [← hpoll, ht])
  · rw [hpoll] at ht
    cases ht

theorem event_placed {s : Runtime} {e : Event} {x : Executor} (h : Placed s)
    (m : Moves s.executor x e) (hspawn : ∀ t, e ≠ .spawn t) : Placed { s with executor := x } := by
  cases m with
  | @spawn t => exact absurd rfl (hspawn t)
  | idle htasks hcache hpoll => exact h.of_same htasks hcache (Or.inl hpoll)
  | wake htasks hcache hpoll => exact h.of_same htasks hcache (Or.inl hpoll)
  | pending _ htasks hcache hpoll => exact h.of_same htasks hcache (Or.inr hpoll)
  | @poll t _ live htasks hcache hpoll =>
    refine ⟨h.unspawned, by simpa [htasks] using h.tasks, h.once, by simpa [htasks] using h.apart,
      fun u hu => ?_, fun u hu => ?_⟩
    · dsimp only at hu ⊢
      rw [hpoll, Option.some.injEq] at hu
      rwa [htasks, ← hu]
    · dsimp only at hu ⊢
      rw [htasks]
      rcases hcache u hu with rfl | hu
      · exact live
      · exact h.cached u hu
  | @ready t _ htasks hcache hpoll =>
    refine ⟨h.unspawned, fun u hu => ?_, h.once, fun u hu => ?_, fun u hu => ?_, fun u hu => ?_⟩
    · dsimp only at hu
      rw [htasks] at hu
      exact h.tasks u (List.mem_of_mem_filter hu)
    · dsimp only
      rw [htasks]
      exact fun hm => h.apart u hu (List.mem_of_mem_filter hm)
    · dsimp only at hu
      rw [hpoll] at hu
      cases hu
    · dsimp only at hu ⊢
      rw [hcache] at hu
      rw [htasks]
      obtain ⟨hu, hne⟩ := List.mem_filter.mp hu
      exact List.mem_filter.mpr ⟨h.cached u hu, hne⟩

/-! Runs. -/

theorem step_cases {s s' : Runtime} {a : Action} (h : step s a = some s') :
    (a = .create ∧ s' = create s) ∨
    (∃ t x, a = .event (.spawn t) ∧ t ∈ s.unspawned ∧ Moves s.executor x (.spawn t) ∧
      s' = { s with executor := x, unspawned := s.unspawned.erase t }) ∨
    (∃ e x, a = .event e ∧ (∀ t, e ≠ .spawn t) ∧ Moves s.executor x e ∧
      s' = { s with executor := x }) := by
  cases a with
  | create => exact Or.inl ⟨rfl, (Option.some.inj h).symm⟩
  | event e =>
    cases e with
    | spawn t =>
      simp only [step] at h
      split_ifs at h with hmem
      obtain ⟨x, hx, rfl⟩ := Option.map_eq_some_iff.mp h
      exact Or.inr (Or.inl ⟨t, x, rfl, hmem, step_moves (e := .spawn t) hx, rfl⟩)
    | poll | wake t | finish ready =>
      rw [step] at h
      · obtain ⟨x, hx, rfl⟩ := Option.map_eq_some_iff.mp h
        exact Or.inr (Or.inr ⟨_, x, rfl, by simp, step_moves hx, rfl⟩)
      · simp

theorem step_created {s s' : Runtime} {a : Action} (h : step s a = some s') :
    s.created.length ≤ s'.created.length := by
  rcases step_cases h with ⟨-, rfl⟩ | ⟨t, x, -, -, -, rfl⟩ | ⟨e, x, -, -, -, rfl⟩
  · simp [create]
  · exact le_rfl
  · exact le_rfl

theorem run_created {s s' : Runtime} {as : List Action} (h : run s as = some s') :
    s.created.length ≤ s'.created.length := by
  induction as generalizing s with
  | nil =>
    cases h
    exact le_rfl
  | cons a as ih =>
    rw [run_cons] at h
    obtain ⟨m, hm, hrest⟩ := Option.bind_eq_some_iff.mp h
    exact (step_created hm).trans (ih hrest)

structure Kept (s : Runtime) : Prop extends Counted s, Placed s

theorem step_kept {s s' : Runtime} {a : Action} (h : step s a = some s')
    (hn : s'.created.length ≤ idCount) (K : Kept s) : Kept s' := by
  rcases step_cases h with ⟨-, rfl⟩ | ⟨t, x, -, ht, m, rfl⟩ | ⟨e, x, -, hspawn, m, rfl⟩
  · exact ⟨create_counted K.toCounted,
      create_placed K.toCounted (Nat.lt_of_succ_le hn) K.toPlaced⟩
  · exact ⟨⟨K.next, K.below, K.distinct⟩, spawn_placed ht K.toPlaced m⟩
  · exact ⟨⟨K.next, K.below, K.distinct⟩, event_placed K.toPlaced m hspawn⟩

theorem start_kept : Kept start where
  next := rfl
  below := by simp [start]
  distinct := by simp [start]
  unspawned := by simp [start]
  tasks := by simp [start, new]
  once := by simp [start]
  apart := by simp [start]
  polling := by simp [start, new]
  cached := by simp [start, new]

/-- An id that has left the task map for good. -/
structure Retired (t : TaskId) (s : Runtime) : Prop where
  created : t ∈ s.created
  unspawned : t ∉ s.unspawned
  gone : t ∉ s.executor.tasks
  idle : s.executor.polling ≠ some t

theorem ready_retired {s s' : Runtime} {t : TaskId} (h : step s (.event (.finish true)) = some s')
    (ht : s.executor.polling = some t) (P : Placed s) : Retired t s' := by
  have hlive := P.polling t ht
  rcases step_cases h with ⟨ha, -⟩ | ⟨u, x, ha, -⟩ | ⟨e, x, ha, -, m, rfl⟩
  · cases ha
  · cases ha
  · obtain rfl : Event.finish true = e := Action.event.inj ha
    cases m with
    | @ready u hu htasks _ hpoll =>
      obtain rfl : t = u := Option.some.inj (ht.symm.trans hu)
      refine ⟨P.tasks t hlive, fun hm => P.apart t hm hlive, ?_, by simp [hpoll]⟩
      simp [htasks]

theorem step_retired {s s' : Runtime} {t : TaskId} {a : Action} (h : step s a = some s')
    (hn : s'.created.length ≤ idCount) (C : Counted s) (R : Retired t s) : Retired t s' := by
  rcases step_cases h with ⟨-, rfl⟩ | ⟨u, x, -, hu, m, rfl⟩ | ⟨e, x, -, hspawn, m, rfl⟩
  · have hfresh := C.fresh (Nat.lt_of_succ_le hn)
    refine ⟨List.mem_cons_of_mem _ R.created, fun hm => ?_, R.gone, R.idle⟩
    rcases List.mem_cons.mp hm with rfl | hm
    · exact hfresh R.created
    · exact R.unspawned hm
  · cases m with
    | spawn _ htasks _ hpoll =>
      refine ⟨R.created, fun hm => R.unspawned (List.mem_of_mem_erase hm),
        ?_, by simpa [hpoll] using R.idle⟩
      rw [htasks, List.mem_cons, not_or]
      exact ⟨fun htu => R.unspawned (htu ▸ hu), R.gone⟩
  · cases m with
    | @spawn u => exact absurd rfl (hspawn u)
    | idle htasks _ hpoll =>
      exact ⟨R.created, R.unspawned, by simpa [htasks] using R.gone, by simpa [hpoll] using R.idle⟩
    | wake htasks _ hpoll =>
      exact ⟨R.created, R.unspawned, by simpa [htasks] using R.gone, by simpa [hpoll] using R.idle⟩
    | pending _ htasks _ hpoll =>
      exact ⟨R.created, R.unspawned, by simpa [htasks] using R.gone, by simp [hpoll]⟩
    | @poll u _ live htasks _ hpoll =>
      refine ⟨R.created, R.unspawned, by simpa [htasks] using R.gone, ?_⟩
      -- the polled task is in the map, the retired one is not
      simp only [hpoll, ne_eq, Option.some.injEq]
      exact fun hut => R.gone (hut ▸ live)
    | ready _ htasks _ hpoll =>
      refine ⟨R.created, R.unspawned, ?_, by simp [hpoll]⟩
      rw [htasks]
      exact fun hm => R.gone (List.mem_of_mem_filter hm)

theorem run_kept {s s' : Runtime} {as : List Action} (h : run s as = some s')
    (hn : s'.created.length ≤ idCount) (K : Kept s) :
    Kept s' ∧ ∀ t, Retired t s → Retired t s' := by
  induction as generalizing s with
  | nil =>
    cases h
    exact ⟨K, fun _ R => R⟩
  | cons a as ih =>
    rw [run_cons] at h
    obtain ⟨m, hm, hrest⟩ := Option.bind_eq_some_iff.mp h
    have hle := (run_created hrest).trans hn
    obtain ⟨K', hret⟩ := ih hrest (step_kept hm hle K)
    exact ⟨K', fun t R => hret t (step_retired hm hle K.toCounted R)⟩

/-- Over every run that creates fewer than 2^64 tasks: no id is given out twice, the
waker cache keeps no waker of a task that is gone, and a task whose future has
returned `Ready` is never polled again. -/
theorem finished_never_polled {as : List Action} {s : Runtime} (h : run start as = some s)
    (hn : s.created.length < idCount) :
    s.created.Nodup ∧
    (s.executor.polling = none → ∀ t ∈ s.executor.wakerCache, t ∈ s.executor.tasks) ∧
    ∀ before after m t, as = before ++ .event (.finish true) :: after → run start before = some m →
      m.executor.polling = some t → s.executor.polling ≠ some t := by
  have K := (run_kept h hn.le start_kept).1
  refine ⟨K.distinct hn.le, fun _ => K.cached, fun before after m t hsplit hm ht => ?_⟩
  rw [hsplit, run_append, hm, Option.bind_some, run_cons] at h
  obtain ⟨m', hm', hafter⟩ := Option.bind_eq_some_iff.mp h
  have hle' := (run_created hafter).trans hn.le
  have Km := (run_kept hm ((step_created hm').trans hle') start_kept).1
  have R := ready_retired hm' ht Km.toPlaced
  exact ((run_kept hafter hn.le (step_kept hm' hle' Km)).2 t R).idle

/-- A task finishes while a late wake puts its id back into the queue; the id is skipped. -/
def lateWake : List Action :=
  [.create, .event (.spawn 0), .event .poll, .event (.finish true), .event (.wake 0), .event .poll]

theorem finished_never_polled_lateWake :
    ∃ s, run start lateWake = some s ∧ s.executor.polling ≠ some 0 := by
  have hrun : (run start lateWake).any (fun s => decide (s.created.length < 2)) = true := by
    decide +kernel
  obtain ⟨s, hs, hlen⟩ := (Option.any_eq_true _ _).mp hrun
  have hn : s.created.length < idCount := by
    have := of_decide_eq_true hlen
    unfold idCount
    omega
  refine ⟨s, hs, (finished_never_polled hs hn).2.2 [.create, .event (.spawn 0), .event .poll]
    [.event (.wake 0), .event .poll] _ 0 rfl rfl rfl⟩

end Willo.TaskLifetimes
