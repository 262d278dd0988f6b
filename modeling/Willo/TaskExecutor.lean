import Mathlib.Data.List.Induction
import Mathlib.Data.List.Infix
import Willo.BoundedQueue

/-! The cooperative executor (`task/executor.rs`) as a step machine. Its events are
`spawn`, the pop-and-poll of `run_ready_tasks`, the return of the polled future,
and `wake_task` through any clone of any waker, from the running future or from
an interrupt handler. A step that panics or cannot happen has no successor.
`due` is ghost state: the tasks spawned or woken since their last poll began. -/

namespace Willo.TaskExecutor
open BoundedQueue

abbrev TaskId := Nat

def queueCapacity : Nat := 100

structure Executor where
  tasks : List TaskId
  taskQueue : List TaskId
  wakerCache : List TaskId
  polling : Option TaskId
  due : List TaskId

def new : Executor := ⟨[], [], [], none, []⟩

inductive Event where
  | spawn (t : TaskId)
  | poll
  | wake (t : TaskId)
  | finish (ready : Bool)
  deriving DecidableEq

/-- Insert the task and push its id; a duplicate id or a full queue panics. -/
def spawn (s : Executor) (t : TaskId) : Option Executor :=
  if t ∈ s.tasks then none
  else
    (push queueCapacity s.taskQueue t).map fun q =>
      { s with tasks := t :: s.tasks, taskQueue := q, due := t :: s.due }

/-- One turn of the `while let` up to the call of the future. An id without a task
is skipped; an empty queue ends the loop and leaves the state alone. -/
def poll (s : Executor) : Option Executor :=
  match s.polling, pop s.taskQueue with
  | some _, _ => none
  | none, none => some s
  | none, some (t, q) =>
    if t ∈ s.tasks then
      some { s with
        taskQueue := q
        wakerCache := if t ∈ s.wakerCache then s.wakerCache else t :: s.wakerCache
        polling := some t
        due := s.due.filter (· ≠ t) }
    else some { s with taskQueue := q }

/-- `wake_task`: the push result is discarded. -/
def wake (s : Executor) (t : TaskId) : Executor :=
  { s with taskQueue := offer queueCapacity s.taskQueue t, due := t :: s.due }

def finish (s : Executor) (ready : Bool) : Option Executor :=
  s.polling.map fun t =>
    if ready then
      { s with
        tasks := s.tasks.filter (· ≠ t)
        wakerCache := s.wakerCache.filter (· ≠ t)
        polling := none }
    else { s with polling := none }

def step (s : Executor) : Event → Option Executor
  | .spawn t => spawn s t
  | .poll => poll s
  | .wake t => some (wake s t)
  | .finish ready => finish s ready

def run (s : Executor) (es : List Event) : Option Executor := es.foldlM step s

/-- Every live task spawned or woken since its last poll began is queued. -/
def NoLostWake (s : Executor) : Prop := ∀ t ∈ s.tasks, t ∈ s.due → t ∈ s.taskQueue

/-- A wake of a live task finds its id queued or a free place. -/
def Room (s : Executor) : Event → Prop
  | .wake t => t ∈ s.tasks → t ∈ s.taskQueue ∨ s.taskQueue.length < queueCapacity
  | _ => True

theorem run_append (s : Executor) (es fs : List Event) :
    run s (es ++ fs) = (run s es).bind fun s' => run s' fs := by
  simp [run, List.foldlM_append, bind]

theorem run_snoc {s s' : Executor} {es : List Event} {e : Event}
    (h : run s (es ++ [e]) = some s') : ∃ m, run s es = some m ∧ step m e = some s' := by
  rw [run_append] at h
  obtain ⟨m, hm, hs⟩ := Option.bind_eq_some_iff.mp h
  exact ⟨m, hm, by simpa [run] using hs⟩

theorem spawn_noLostWake {s s' : Executor} {t : TaskId} (h : NoLostWake s)
    (hs : spawn s t = some s') : NoLostWake s' := by
  unfold spawn push at hs
  split_ifs at hs with dup room
  · simp only [Option.map_some, Option.some.injEq] at hs
    subst hs
    intro u hu hd
    simp only [List.mem_cons] at hu hd
    simp only [List.mem_append, List.mem_singleton]
    by_cases hut : u = t
    · exact Or.inr hut
    · exact Or.inl (h u (hu.resolve_left hut) (hd.resolve_left hut))
  · simp at hs

theorem poll_noLostWake {s s' : Executor} (h : NoLostWake s) (hs : poll s = some s') :
    NoLostWake s' := by
  have rest : ∀ {t u : TaskId} {q : List TaskId}, s.taskQueue = t :: q → u ≠ t →
      u ∈ s.taskQueue → u ∈ q := by
    intro t u q hq hne hu
    rw [hq, List.mem_cons] at hu
    exact hu.resolve_left hne
  unfold poll at hs
  split at hs
  · simp at hs
  · simp only [Option.some.injEq] at hs
    exact hs ▸ h
  · next t q _ hpop =>
    have hq : s.taskQueue = t :: q := by
      cases hc : s.taskQueue with
      | nil => simp [hc, pop] at hpop
      | cons x xs =>
        simp only [hc, pop, Option.some.injEq, Prod.mk.injEq] at hpop
        rw [hpop.1, hpop.2]
    by_cases live : t ∈ s.tasks
    · rw [if_pos live, Option.some.injEq] at hs
      subst hs
      intro u hu hd
      simp only [List.mem_filter, ne_eq, decide_eq_true_eq] at hd
      exact rest hq hd.2 (h u hu hd.1)
    · rw [if_neg live, Option.some.injEq] at hs
      subst hs
      intro u hu hd
      exact rest hq (fun heq => live (heq ▸ hu)) (h u hu hd)

theorem wake_noLostWake {s : Executor} {t : TaskId} (h : NoLostWake s) (room : Room s (.wake t)) :
    NoLostWake (wake s t) := by
  intro u hu hd
  simp only [wake, List.mem_cons] at hu hd ⊢
  by_cases hut : u = t
  · subst hut
    exact mem_offer_self (room hu)
  · exact mem_offer_of_mem (h u hu (hd.resolve_left hut)) t

theorem finish_noLostWake {s s' : Executor} {ready : Bool} (h : NoLostWake s)
    (hs : finish s ready = some s') : NoLostWake s' := by
  obtain ⟨t, _, rfl⟩ := Option.map_eq_some_iff.mp hs
  cases ready with
  | false => exact h
  | true =>
    intro u hu hd
    exact h u (List.mem_of_mem_filter hu) hd

theorem step_noLostWake {s s' : Executor} {e : Event} (h : NoLostWake s) (room : Room s e)
    (hs : step s e = some s') : NoLostWake s' := by
  cases e with
  | spawn t => exact spawn_noLostWake h hs
  | poll => exact poll_noLostWake h hs
  | wake t =>
    simp only [step, Option.some.injEq] at hs
    exact hs ▸ wake_noLostWake h room
  | finish ready => exact finish_noLostWake h hs

/-- The discarded push is the only way to lose a wake, and it always loses one. -/
theorem room_of_noLostWake {s s' : Executor} {e : Event} (hs : step s e = some s')
    (h : NoLostWake s') : Room s e := by
  cases e with
  | wake t =>
    simp only [step, Option.some.injEq] at hs
    subst hs
    intro live
    by_contra lost
    push Not at lost
    have queued := h t live (by simp [wake])
    rw [wake, offer_of_full (Nat.not_lt.mpr lost.2)] at queued
    exact lost.1 queued
  | spawn | poll | finish => trivial

/-- Over every run from the empty executor: no wake is lost in any state exactly
when no wake of a live, unqueued task meets a full run queue. -/
theorem run_noLostWake_iff (es : List Event) :
    (∀ before s, before <+: es → run new before = some s → NoLostWake s) ↔
    (∀ before e s s', before ++ [e] <+: es → run new before = some s → step s e = some s' →
      Room s e) := by
  constructor
  · intro h before e s s' hpre hrun hstep
    refine room_of_noLostWake hstep (h (before ++ [e]) s' hpre ?_)
    rw [run_append, hrun]
    simpa [run] using hstep
  · intro h before
    induction before using List.reverseRecOn with
    | nil =>
      intro s _ hrun
      simp only [run, List.foldlM_nil, Option.pure_def, Option.some.injEq] at hrun
      subst hrun
      simp [NoLostWake, new]
    | append_singleton before e ih =>
      intro s hpre hrun
      obtain ⟨m, hm, hstep⟩ := run_snoc hrun
      have sub : before <+: es := (List.prefix_append before [e]).trans hpre
      exact step_noLostWake (ih m sub hm) (h before e m s hpre hm hstep) hstep

/-- Task 0 fills the queue during its poll; task 1 is then woken while it runs. -/
def floodedRun : List Event :=
  [.spawn 0, .spawn 1, .poll] ++ List.replicate 99 (.wake 0) ++
    [.finish false, .poll, .wake 0, .wake 1]

theorem floodedRun_loses_wake :
    ∃ s, run new floodedRun = some s ∧ 1 ∈ s.tasks ∧ 1 ∈ s.due ∧ 1 ∉ s.taskQueue ∧
      ¬ NoLostWake s := by
  have h : (run new floodedRun).any
      (fun s => decide (1 ∈ s.tasks ∧ 1 ∈ s.due ∧ 1 ∉ s.taskQueue)) = true := by
    decide +kernel
  obtain ⟨s, hs, hp⟩ := (Option.any_eq_true _ _).mp h
  simp only [decide_eq_true_eq] at hp
  exact ⟨s, hs, hp.1, hp.2.1, hp.2.2, fun hn => hp.2.2 (hn 1 hp.1 hp.2.1)⟩

end Willo.TaskExecutor
