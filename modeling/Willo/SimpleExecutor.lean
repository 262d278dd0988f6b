import Mathlib.Algebra.Ring.Nat
import Mathlib.Logic.Function.Iterate

/-! The polling executor (`task/simple_executor.rs`). Its waker does nothing, so a task that
is pending goes back to the tail and is polled again. A poll gives back the task in its
new state, or nothing when it is ready; `σ` is what the tasks share. -/

namespace Willo.SimpleExecutor

variable {τ σ : Type}

def spawn (q : List τ) (t : τ) : List τ := q ++ [t]

theorem foldl_spawn (ts q : List τ) : ts.foldl spawn q = q ++ ts := by
  induction ts generalizing q with
  | nil => simp
  | cons t ts ih => simp [ih, spawn]

/-- One turn of the `while let`; an empty queue ends the loop and leaves the state alone. -/
def turn (poll : τ → σ → Option τ × σ) : List τ × σ → List τ × σ
  | ([], w) => ([], w)
  | (t :: q, w) =>
    match poll t w with
    | (none, w') => (q, w')
    | (some t', w') => (q ++ [t'], w')

/-- The loop, for at most so many turns; it returns when the queue is empty. -/
def run (poll : τ → σ → Option τ × σ) : Nat → List τ × σ → Option σ
  | _, ([], w) => some w
  | 0, (_ :: _, _) => none
  | fuel + 1, (t :: q, w) => run poll fuel (turn poll (t :: q, w))

def sweep (poll : τ → σ → Option τ × σ) : List τ → σ → List τ × σ
  | [], w => ([], w)
  | t :: q, w =>
    let r := poll t w
    let rest := sweep poll q r.2
    (r.1.toList ++ rest.1, rest.2)

def round (poll : τ → σ → Option τ × σ) (s : List τ × σ) : List τ × σ := sweep poll s.1 s.2

section Rounds

variable (poll : τ → σ → Option τ × σ)

theorem turn_cons (t : τ) (q : List τ) (w : σ) :
    turn poll (t :: q, w) = (q ++ (poll t w).1.toList, (poll t w).2) := by
  rw [turn]
  rcases poll t w with ⟨_ | t', w'⟩ <;> simp

theorem turns_round (q rest : List τ) (w : σ) :
    (turn poll)^[q.length] (q ++ rest, w) = (rest ++ (sweep poll q w).1, (sweep poll q w).2) := by
  induction q generalizing rest w with
  | nil => simp [sweep]
  | cons t q ih =>
    rw [List.length_cons, Function.iterate_succ_apply, List.cons_append, turn_cons,
      List.append_assoc, ih, sweep, List.append_assoc]

end Rounds

section Ending

variable {poll : τ → σ → Option τ × σ} {s : List τ × σ} {w w' : σ} {n m : Nat}

theorem turn_nil (n : Nat) (w : σ) : (turn poll)^[n] ([], w) = ([], w) :=
  Function.iterate_fixed rfl n

theorem run_eq_some : run poll n s = some w ↔ (turn poll)^[n] s = ([], w) := by
  induction n generalizing s with
  | zero => rcases s with ⟨_ | ⟨t, q⟩, v⟩ <;> simp [run]
  | succ n ih =>
    rcases s with ⟨_ | ⟨t, q⟩, v⟩
    · rw [turn_nil]
      simp [run]
    · rw [run, ih, Function.iterate_succ_apply]

theorem run_mono (h : run poll n s = some w) (hn : n ≤ m) : run poll m s = some w := by
  rw [run_eq_some] at h ⊢
  obtain ⟨k, rfl⟩ := Nat.exists_eq_add_of_le' hn
  rw [Function.iterate_add_apply, h, turn_nil]

theorem run_unique (h : run poll n s = some w) (h' : run poll m s = some w') : w = w' := by
  have hn := run_mono h (Nat.le_max_left n m)
  rw [run_mono h' (Nat.le_max_right n m)] at hn
  exact (Option.some.inj hn).symm

theorem exists_turns_rounds (poll : τ → σ → Option τ × σ) (k : Nat) (s : List τ × σ) :
    ∃ n, (turn poll)^[n] s = (round poll)^[k] s ∧ (((round poll)^[k] s).1 ≠ [] → k ≤ n) := by
  induction k generalizing s with
  | zero => exact ⟨0, rfl, fun _ => le_rfl⟩
  | succ k ih =>
    obtain ⟨n, hn, hle⟩ := ih (round poll s)
    have hround : (turn poll)^[s.1.length] s = round poll s := by
      simpa [round] using turns_round poll s.1 [] s.2
    refine ⟨n + s.1.length, ?_, fun h => ?_⟩
    · rw [Function.iterate_add_apply, hround, hn, Function.iterate_succ_apply]
    · rw [Function.iterate_succ_apply] at h
      have hk := hle h
      have hpos : 0 < s.1.length := by
        rcases s with ⟨_ | ⟨t, q⟩, v⟩
        · have hfix : (round poll)^[k] ([], v) = ([], v) := Function.iterate_fixed rfl k
          exact absurd (congrArg Prod.fst hfix) h
        · exact Nat.succ_pos _
      omega

theorem run_iff_rounds :
    (∃ fuel, run poll fuel s = some w) ↔ ∃ k, (round poll)^[k] s = ([], w) := by
  constructor
  · rintro ⟨n, h⟩
    obtain ⟨m, hm, hle⟩ := exists_turns_rounds poll n s
    have hempty : ((round poll)^[n] s).1 = [] := by
      by_contra hne
      have hrun := run_eq_some.mp (run_mono h (hle hne))
      rw [hm] at hrun
      exact hne (by rw [hrun])
    have hlast : (round poll)^[n] s = ([], ((round poll)^[n] s).2) := Prod.ext hempty rfl
    exact ⟨n, by rw [hlast, run_unique h (run_eq_some.mpr (hm.trans hlast))]⟩
  · rintro ⟨k, h⟩
    obtain ⟨n, hn, -⟩ := exists_turns_rounds poll k s
    exact ⟨n, run_eq_some.mpr (hn.trans h)⟩

theorem run_of_rank {rank : τ → Nat} (h : ∀ t w t' w', poll t w = (some t', w') → rank t' < rank t)
    (s : List τ × σ) :
    ∃ w', run poll (s.1.map fun t => rank t + 1).sum s = some w' := by
  generalize hn : (s.1.map fun t => rank t + 1).sum = n
  induction n using Nat.strong_induction_on generalizing s with
  | _ n ih =>
    rcases s with ⟨_ | ⟨t, q⟩, w⟩
    · exact ⟨w, by cases n <;> rfl⟩
    · rw [List.map_cons, List.sum_cons] at hn
      obtain ⟨m, rfl⟩ : ∃ m, n = m + 1 := ⟨n - 1, by omega⟩
      have hless : ((turn poll (t :: q, w)).1.map fun t => rank t + 1).sum ≤ m := by
        rw [turn_cons, List.map_append, List.sum_append]
        rcases hpoll : poll t w with ⟨_ | t', w'⟩
        · simp only [Option.toList_none, List.map_nil, List.sum_nil]
          omega
        · have := h t w t' w' hpoll
          simp only [Option.toList_some, List.map_cons, List.map_nil, List.sum_cons, List.sum_nil]
          omega
      obtain ⟨w', hw⟩ := ih _ (Nat.lt_succ_of_le hless) _ rfl
      exact ⟨w', run_mono (m := m) hw hless⟩

end Ending

/-! How often each task is polled. -/

def counted (poll : τ → σ → Option τ × σ) (x : τ × Nat) (w : σ) : Option (τ × Nat) × σ :=
  ((poll x.1 w).1.map fun t => (t, x.2 + 1), (poll x.1 w).2)

section Counts

variable {poll : τ → σ → Option τ × σ}

theorem turn_counted (n : Nat) (q : List (τ × Nat)) (w : σ) :
    (((turn (counted poll))^[n] (q, w)).1.map Prod.fst, ((turn (counted poll))^[n] (q, w)).2) =
      (turn poll)^[n] (q.map Prod.fst, w) := by
  induction n generalizing q w with
  | zero => rfl
  | succ n ih =>
    cases q with
    | nil => simp only [turn_nil, List.map_nil]
    | cons x q =>
      rw [Function.iterate_succ_apply, Function.iterate_succ_apply, List.map_cons, turn_cons,
        turn_cons, ih, List.map_append]
      have hone : (counted poll x w).1.toList.map Prod.fst = (poll x.1 w).1.toList := by
        simp only [counted]
        cases (poll x.1 w).1 <;> rfl
      rw [hone]
      rfl

/-- Those not yet polled in this round stand before those already polled. -/
def Level (c : Nat) (q : List (τ × Nat)) : Prop :=
  ∃ xs ys, q = xs ++ ys ∧ (∀ x ∈ xs, x.2 = c) ∧ ∀ y ∈ ys, y.2 = c + 1

theorem turn_level {c : Nat} {q : List (τ × Nat)} (h : Level c q) (w : σ) :
    ∃ c', Level c' (turn (counted poll) (q, w)).1 := by
  obtain ⟨xs, ys, rfl, hxs, hys⟩ := h
  -- the first of a new round counts as one not yet polled in it
  have hstep : ∀ (c : Nat) (x : τ × Nat) (xs ys : List (τ × Nat)), (∀ y ∈ x :: xs, y.2 = c) →
    (∀ y ∈ ys, y.2 = c + 1) →
      Level c (turn (counted poll) (x :: xs ++ ys, w)).1 := by
    intro c x xs ys hxs hys
    rw [List.cons_append, turn_cons, List.append_assoc]
    refine ⟨xs, _, rfl, fun y hy => hxs y (List.mem_cons_of_mem _ hy), fun y hy => ?_⟩
    rcases List.mem_append.mp hy with hy | hy
    · exact hys y hy
    · simp only [counted, Option.mem_toList, Option.map_eq_some_iff] at hy
      obtain ⟨t, -, rfl⟩ := hy
      simp only [hxs x List.mem_cons_self]
  cases xs with
  | cons x xs => exact ⟨c, hstep c x xs ys hxs hys⟩
  | nil =>
    cases ys with
    | nil => exact ⟨c, [], [], rfl, by simp, by simp⟩
    | cons y ys => exact ⟨c + 1, by simpa using hstep (c + 1) y ys [] hys (by simp)⟩

theorem turns_level (poll : τ → σ → Option τ × σ) (n : Nat) (q : List τ) (w : σ) :
    ∃ c, Level c ((turn (counted poll))^[n] (q.map fun t => (t, 0), w)).1 := by
  induction n with
  | zero => exact ⟨0, q.map fun t => (t, 0), [], by simp, by simp, by simp⟩
  | succ n ih =>
    obtain ⟨c, hc⟩ := ih
    rw [Function.iterate_succ_apply']
    exact turn_level hc _

end Counts

/-- At every moment any two tasks still queued have been polled equally often, up to one
poll; the loop ends exactly when some round of polls leaves no task, and it does end when
each poll brings its task nearer to its end. -/
theorem rounds_fair (poll : τ → σ → Option τ × σ) (tasks : List τ) (w : σ) :
    (∀ n, let s := (turn (counted poll))^[n] ((tasks.map fun t => (t, 0)).foldl spawn [], w)
      (s.1.map Prod.fst, s.2) = (turn poll)^[n] (tasks.foldl spawn [], w) ∧
        ∀ x ∈ s.1, ∀ y ∈ s.1, x.2 ≤ y.2 + 1) ∧
    (∀ w', (∃ fuel, run poll fuel (tasks.foldl spawn [], w) = some w') ↔
      ∃ k, (round poll)^[k] (tasks, w) = ([], w')) ∧
    ∀ rank : τ → Nat, (∀ t w t' w', poll t w = (some t', w') → rank t' < rank t) →
      ∃ w', run poll (tasks.map fun t => rank t + 1).sum (tasks.foldl spawn [], w) = some w' := by
  simp only [foldl_spawn, List.nil_append]
  refine ⟨fun n => ⟨?_, fun x hx y hy => ?_⟩, fun w' => run_iff_rounds, fun rank h =>
    run_of_rank h (tasks, w)⟩
  · have hplain : (tasks.map fun t => (t, 0)).map Prod.fst = tasks := by simp [Function.comp_def]
    rw [turn_counted, hplain]
  · obtain ⟨c, xs, ys, hq, hxs, hys⟩ := turns_level poll n tasks w
    have hcount : ∀ z ∈ xs ++ ys, z.2 = c ∨ z.2 = c + 1 := fun z hz =>
      (List.mem_append.mp hz).imp (hxs z) (hys z)
    rw [hq] at hx hy
    have := hcount x hx
    have := hcount y hy
    omega

/-- A task that writes what it has left, and counts down. -/
def countdown (t : Nat) (log : List Nat) : Option Nat × List Nat :=
  (if t = 0 then none else some (t - 1), log ++ [t])

theorem rounds_fair_countdown : ∃ log, run countdown 6 ([2, 0, 1].foldl spawn [], []) = some log :=
  (rounds_fair countdown [2, 0, 1] []).2.2 id fun t w t' w' h => by
    simp only [countdown, Prod.mk.injEq] at h
    split_ifs at h with hzero
    · cases h.1
    · cases h.1
      exact Nat.sub_one_lt hzero

example : run countdown 6 ([2, 0, 1], []) = some [2, 0, 1, 1, 0, 0] := by decide

end Willo.SimpleExecutor
