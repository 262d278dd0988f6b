import Willo.TaskExecutor

/-! How long a queued task waits. Pushes go to the tail and every turn of
`run_ready_tasks` takes the head, so the place of an id in the run queue goes down by one
each turn and by nothing else, and the capacity bounds it. -/

namespace Willo.TaskExecutor
open BoundedQueue

structure Waiting (t : TaskId) (s : Executor) : Prop where
  live : t ∈ s.tasks
  queued : t ∈ s.taskQueue
  idle : s.polling ≠ some t

section Waiting

variable {t u : TaskId} {s s' : Executor} {e : Event} {es : List Event}

theorem spawn_waiting (W : Waiting t s) (hs : spawn s u = some s') :
    Waiting t s' ∧ s'.taskQueue.idxOf t = s.taskQueue.idxOf t := by
  unfold spawn push at hs
  split_ifs at hs with dup room
  · simp only [Option.map_some, Option.some.injEq] at hs
    subst hs
    exact ⟨⟨List.mem_cons_of_mem _ W.live, List.mem_append_left _ W.queued, W.idle⟩,
      List.idxOf_append_of_mem W.queued⟩
  · cases hs

theorem poll_waiting (W : Waiting t s) (hs : poll s = some s') :
    (s.taskQueue.idxOf t = 0 ∧ s'.polling = some t) ∨
      (Waiting t s' ∧ s'.taskQueue.idxOf t + 1 = s.taskQueue.idxOf t) := by
  have hqueued := W.queued
  unfold poll at hs
  cases hq : s.taskQueue with
  | nil => simp [hq] at hqueued
  | cons u q =>
    cases hp : s.polling with
    | some v => simp [hq, hp, pop] at hs
    | none =>
      simp only [hq, hp, pop] at hs
      by_cases hut : u = t
      · subst hut
        rw [if_pos W.live, Option.some.injEq] at hs
        subst hs
        exact Or.inl ⟨List.idxOf_cons_self, rfl⟩
      · have hmem : t ∈ q := by
          rw [hq, List.mem_cons] at hqueued
          exact hqueued.resolve_left fun h => hut h.symm
        have hidx : (u :: q).idxOf t = q.idxOf t + 1 := List.idxOf_cons_ne _ hut
        refine Or.inr ?_
        by_cases hu : u ∈ s.tasks
        · rw [if_pos hu, Option.some.injEq] at hs
          subst hs
          exact ⟨⟨W.live, hmem, fun h => hut (Option.some.inj h)⟩, hidx.symm⟩
        · rw [if_neg hu, Option.some.injEq] at hs
          subst hs
          exact ⟨⟨W.live, hmem, fun h => W.idle (hp.trans h)⟩, hidx.symm⟩

theorem wake_waiting (W : Waiting t s) (u : TaskId) :
    Waiting t (wake s u) ∧ (wake s u).taskQueue.idxOf t = s.taskQueue.idxOf t :=
  ⟨⟨W.live, mem_offer_of_mem W.queued u, W.idle⟩, idxOf_offer W.queued u⟩

theorem finish_waiting (W : Waiting t s) {ready : Bool} (hs : finish s ready = some s') :
    Waiting t s' ∧ s'.taskQueue.idxOf t = s.taskQueue.idxOf t := by
  obtain ⟨u, hu, rfl⟩ := Option.map_eq_some_iff.mp hs
  have hne : t ≠ u := fun h => W.idle (h ▸ hu)
  cases ready with
  | false => exact ⟨⟨W.live, W.queued, by simp⟩, rfl⟩
  | true => exact ⟨⟨List.mem_filter.mpr ⟨W.live, by simpa using hne⟩, W.queued, by simp⟩, rfl⟩

theorem step_waiting (W : Waiting t s) (hs : step s e = some s') :
    (e = .poll ∧ s.taskQueue.idxOf t = 0 ∧ s'.polling = some t) ∨
      (Waiting t s' ∧ s'.taskQueue.idxOf t + (if e = .poll then 1 else 0) =
      s.taskQueue.idxOf t) := by
  cases e with
  | spawn u => exact Or.inr (spawn_waiting W hs)
  | poll => exact (poll_waiting W hs).imp (fun h => ⟨rfl, h⟩) id
  | wake u =>
    cases hs
    exact Or.inr (wake_waiting W u)
  | finish ready => exact Or.inr (finish_waiting W hs)

theorem polled_at (W : Waiting t s) (h : run s es = some s')
    (hn : s.taskQueue.idxOf t < es.count .poll) :
    ∃ before m, before ++ [.poll] <+: es ∧ before.count .poll = s.taskQueue.idxOf t ∧
      run s (before ++ [.poll]) = some m ∧ m.polling = some t := by
  induction es generalizing s with
  | nil => simp at hn
  | cons e es ih =>
    obtain ⟨s₁, hstep, hrest⟩ :=
      Option.bind_eq_some_iff.mp (show (step s e).bind (run · es) = some s' from h)
    rcases step_waiting W hstep with ⟨rfl, hzero, hpolled⟩ | ⟨W₁, hplace⟩
    · refine ⟨[], s₁, by simp, by simp [hzero], ?_, hpolled⟩
      simpa [run] using hstep
    · obtain ⟨before, m, hpre, hcount, hrun, hm⟩ := ih W₁ hrest (by
        rw [List.count_cons] at hn
        simp only [beq_iff_eq] at hn
        omega)
      refine ⟨e :: before, m, List.cons_prefix_cons.mpr ⟨rfl, hpre⟩, ?_, ?_, hm⟩
      · rw [List.count_cons, hcount]
        simpa only [beq_iff_eq] using hplace
      · change (step s e).bind (run · (before ++ [.poll])) = some m
        rw [hstep]
        exact hrun

theorem step_length (h : s.taskQueue.length ≤ queueCapacity) (hs : step s e = some s') :
    s'.taskQueue.length ≤ queueCapacity := by
  cases e with
  | spawn u =>
    simp only [step, spawn, push] at hs
    split_ifs at hs with dup room
    · cases hs
      rw [List.length_append, List.length_singleton]
      exact room
    · cases hs
  | poll =>
    simp only [step, poll] at hs
    cases hq : s.taskQueue with
    | nil =>
      cases hp : s.polling <;> simp only [hq, hp, pop] at hs <;> cases hs
      exact h
    | cons u q =>
      rw [hq, List.length_cons] at h
      cases hp : s.polling <;> simp only [hq, hp, pop] at hs
      · split_ifs at hs <;> cases hs <;> exact Nat.le_of_succ_le h
      · cases hs
  | wake u =>
    cases hs
    exact length_offer_le h u
  | finish ready =>
    obtain ⟨u, -, rfl⟩ := Option.map_eq_some_iff.mp hs
    cases ready <;> exact h

theorem run_length (h : s.taskQueue.length ≤ queueCapacity) (hs : run s es = some s') :
    s'.taskQueue.length ≤ queueCapacity := by
  induction es generalizing s with
  | nil =>
    cases hs
    exact h
  | cons e es ih =>
    obtain ⟨s₁, hstep, hrest⟩ :=
      Option.bind_eq_some_iff.mp (show (step s e).bind (run · es) = some s' from hs)
    exact ih (step_length h hstep) hrest

end Waiting

/-- A queued live task is polled within the next hundred turns of the loop, whatever is
spawned, woken, polled or finished meanwhile, at the turn its place in the queue says. -/
theorem waiting_polled {t : TaskId} {before es : List Event} {s s' : Executor}
    (hb : run new before = some s)
    (W : Waiting t s) (h : run s es = some s') (hturns : queueCapacity ≤ es.count .poll) :
    ∃ first m, first ++ [.poll] <+: es ∧ first.count .poll = s.taskQueue.idxOf t ∧
      first.count .poll < queueCapacity ∧ run s (first ++ [.poll]) = some m ∧
      m.polling = some t := by
  have hbound : s.taskQueue.idxOf t < queueCapacity :=
    (List.idxOf_lt_length_of_mem W.queued).trans_le (run_length (Nat.zero_le _) hb)
  obtain ⟨first, m, hpre, hcount, hrun, hm⟩ := polled_at W h (hbound.trans_le hturns)
  exact ⟨first, m, hpre, hcount, hcount ▸ hbound, hrun, hm⟩

def twoSpawned : Executor := ⟨[1, 0], [0, 1], [], none, [1, 0]⟩

/-- The first wakes itself, the second ends at its first poll. -/
def selfWaker : List Event :=
  [.poll, .wake 0, .finish false, .poll, .finish true, .poll, .finish true] ++
    List.replicate 97 .poll

theorem waiting_polled_twoSpawned :
    ∃ first m, first ++ [.poll] <+: selfWaker ∧ first.count .poll = twoSpawned.taskQueue.idxOf 1 ∧
      first.count .poll < queueCapacity ∧ run twoSpawned (first ++ [.poll]) = some m ∧
      m.polling = some 1 := by
  have hends : (run twoSpawned selfWaker).isSome = true := by decide +kernel
  obtain ⟨s', hs'⟩ := Option.isSome_iff_exists.mp hends
  have hstart : run new [.spawn 0, .spawn 1] = some twoSpawned := rfl
  exact waiting_polled hstart ⟨by decide, by decide, by decide⟩ hs' (by decide +kernel)

end Willo.TaskExecutor
