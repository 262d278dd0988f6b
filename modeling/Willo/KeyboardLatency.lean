import Willo.KeyboardInput

/-! How long an accepted scancode waits for the shell. CPU steps are counted;
interrupts may land between any two of them. While input is pending the CPU is
never on its way to `hlt`, so each of its steps brings the next scancode closer,
and no handler moves it away. -/

namespace Willo.KeyboardInput
open BoundedQueue

/-- A run of `n` CPU steps, with any number of interrupts between them. -/
inductive Runs : Nat → Kernel → Kernel → Prop where
  | refl (k : Kernel) : Runs 0 k k
  | cpu {n : Nat} {k l m : Kernel} (h : Runs n k l) (hs : cpu l = some m) : Runs (n + 1) k m
  | keyboard {n : Nat} {k l : Kernel} (h : Runs n k l) (c : UInt8) (on : l.interrupts = true) :
      Runs n k (resume (addScancode l c))
  | timer {n : Nat} {k l : Kernel} (h : Runs n k l) (on : l.interrupts = true) :
      Runs n k (resume l)

theorem Runs.reachable {n : Nat} {k m : Kernel} (h : Runs n k m) (hk : Reachable k) :
    Reachable m := by
  induction h with
  | refl => exact hk
  | cpu _ hs ih => exact .step (ih hk) (.cpu hs)
  | keyboard _ c on ih => exact .step (ih hk) (.keyboard c on)
  | timer _ on ih => exact .step (ih hk) (.timer on)

/-- The CPU steps from a point to the next one that yields, while input is pending.
The longest way is from an idle test that is too late to see the new task. -/
def distance : Point → Nat
  | .take _ | .popFirst => 0
  | .popTask | .popAgain => 1
  | .register | .enable => 2
  | .testEmpty => 3
  | .disable => 4
  | .streamNew | .enableAndHlt | .halted => 0

theorem distance_le (p : Point) : distance p ≤ 4 := by
  cases p <;> simp [distance]

def remaining (target : Nat) (k : Kernel) : Nat :=
  if target ≤ k.yielded.length then 0 else target - k.yielded.length + distance k.point

theorem remaining_le (target : Nat) (k : Kernel) :
    remaining target k ≤ target - k.yielded.length + 4 := by
  have far := distance_le k.point
  unfold remaining
  split_ifs <;> omega

theorem remaining_of_le {target : Nat} {k : Kernel} (h : target ≤ k.yielded.length) :
    remaining target k = 0 :=
  if_pos h

theorem remaining_of_lt {target : Nat} {k : Kernel} (h : k.yielded.length < target) :
    remaining target k = target - k.yielded.length + distance k.point :=
  if_neg (by omega)

theorem remaining_yield {target : Nat} {k m : Kernel} {c : UInt8}
    (short : k.yielded.length < target) (yields : m.yielded = k.yielded ++ [c])
    (next : distance m.point = 0) : remaining target m + 1 ≤ remaining target k := by
  rw [remaining_of_lt short]
  unfold remaining
  rw [yields, List.length_append, List.length_singleton, next]
  split_ifs <;> omega

theorem remaining_approach {target : Nat} {k m : Kernel} (short : k.yielded.length < target)
    (same : m.yielded = k.yielded) (closer : distance m.point + 1 = distance k.point) :
    remaining target m + 1 ≤ remaining target k := by
  rw [remaining_of_lt short, remaining_of_lt (by rw [same]; exact short), same]
  omega

theorem pending_ne_nil {k : Kernel} {q : List UInt8} (run : Running k q)
    (pending : k.yielded.length < k.accepted.length) (free : held k.point = []) : q ≠ [] := by
  rintro rfl
  rw [run.history, free] at pending
  simp at pending

theorem armed_queued {k : Kernel} {q : List UInt8} (started : k.scancodes = some q)
    (armed : Armed k) (unread : q ≠ []) : k.taskQueue ≠ [] := by
  refine armed.resolve_left fun ⟨drained, _⟩ => unread ?_
  rw [started] at drained
  exact Option.some.inj drained

theorem pending_awake {k : Kernel} {q : List UInt8} (started : k.scancodes = some q)
    (run : Running k q) (pending : k.yielded.length < k.accepted.length) :
    k.point ≠ .halted ∧ k.point ≠ .enableAndHlt := by
  have point := run.point
  constructor <;> intro hp <;>
    refine pending_ne_nil run pending (by rw [hp]; rfl) ?_ <;>
    simp only [AtPoint, hp, started, Option.some.injEq] at point <;> exact point.1

theorem cpu_remaining {k m : Kernel} {q : List UInt8} {target : Nat}
    (started : k.scancodes = some q) (run : Running k q) (hs : cpu k = some m)
    (short : k.yielded.length < target) (known : target ≤ k.accepted.length) :
    remaining target m + 1 ≤ remaining target k := by
  have pending : k.yielded.length < k.accepted.length := by omega
  obtain ⟨notHalted, notHlt⟩ := pending_awake started run pending
  have point := run.point
  have unread := pending_ne_nil run pending
  have queued := armed_queued started
  unfold cpu at hs
  cases hp : k.point with
  | popTask =>
    simp only [AtPoint, hp] at point
    cases ht : k.taskQueue with
    | nil => exact absurd ht (queued point (unread (by rw [hp]; rfl)))
    | cons t ts =>
      have hshell : t = shell := run.queued t (by simp [ht])
      simp only [hp, ht, pop, hshell, if_true, started, Option.some.injEq] at hs
      subst hs
      exact remaining_approach short rfl (by rw [hp]; rfl)
  | streamNew => simp [AtPoint, hp] at point
  | popFirst =>
    cases q with
    | nil => exact absurd rfl (unread (by rw [hp]; rfl))
    | cons c q =>
      simp only [hp, started, Option.getD_some, pop, Option.some.injEq] at hs
      subst hs
      exact remaining_yield short rfl rfl
  | register =>
    simp only [hp, Option.some.injEq] at hs
    subst hs
    exact remaining_approach short rfl (by rw [hp]; rfl)
  | popAgain =>
    cases q with
    | nil => exact absurd rfl (unread (by rw [hp]; rfl))
    | cons c q =>
      simp only [hp, started, Option.getD_some, pop, Option.some.injEq] at hs
      subst hs
      exact remaining_approach short rfl (by rw [hp]; rfl)
  | take c =>
    simp only [hp, Option.some.injEq] at hs
    subst hs
    exact remaining_yield short rfl rfl
  | disable =>
    simp only [hp, Option.some.injEq] at hs
    subst hs
    exact remaining_approach short rfl (by rw [hp]; rfl)
  | testEmpty =>
    simp only [AtPoint, hp] at point
    cases ht : k.taskQueue with
    | nil => exact absurd ht (queued point (unread (by rw [hp]; rfl)))
    | cons t ts =>
      simp only [hp, ht, List.isEmpty_cons, Bool.false_eq_true, if_false, Option.some.injEq] at hs
      subst hs
      exact remaining_approach short rfl (by rw [hp]; rfl)
  | enableAndHlt => exact absurd hp notHlt
  | enable =>
    simp only [hp, Option.some.injEq] at hs
    subst hs
    exact remaining_approach short rfl (by rw [hp]; rfl)
  | halted => exact absurd hp notHalted

/-! Handlers: they yield nothing and leave a CPU that is not halted where it is. -/

theorem resume_yielded (k : Kernel) : (resume k).yielded = k.yielded := by
  rw [resume_eq]

theorem resume_accepted (k : Kernel) : (resume k).accepted = k.accepted := by
  rw [resume_eq]

theorem resume_point {k : Kernel} (h : k.point ≠ .halted) : (resume k).point = k.point := by
  rw [resume_eq]
  exact if_neg h

theorem addScancode_frame (k : Kernel) (c : UInt8) :
    (addScancode k c).point = k.point ∧ (addScancode k c).yielded = k.yielded ∧
      k.accepted <+: (addScancode k c).accepted := by
  cases hq : k.scancodes with
  | none => simp [addScancode, hq]
  | some q =>
    rcases addScancode_cases hq c with ⟨_, hk⟩ | ⟨_, hk⟩ <;> rw [hk]
    · exact ⟨rfl, rfl, List.prefix_append _ _⟩
    · exact ⟨rfl, rfl, List.prefix_refl _⟩

theorem cpu_histories {k m : Kernel} (hs : cpu k = some m) :
    m.accepted = k.accepted ∧ k.yielded.length ≤ m.yielded.length := by
  unfold cpu at hs
  split at hs <;> (repeat' split at hs) <;> cases hs <;> simp

theorem cpu_isSome {k : Kernel} (awake : k.point ≠ .halted) : (cpu k).isSome := by
  unfold cpu
  split <;> (repeat' split) <;> first | rfl | contradiction

theorem Runs.accepted_grows {n : Nat} {k m : Kernel} (h : Runs n k m) :
    k.accepted <+: m.accepted := by
  induction h with
  | refl => exact List.prefix_refl _
  | cpu _ hs ih => rwa [(cpu_histories hs).1]
  | @keyboard n k l _ c _ ih =>
    rw [resume_accepted]
    exact ih.trans (addScancode_frame l c).2.2
  | timer _ _ ih => rwa [resume_accepted]

theorem pending_started {k : Kernel} (hk : Reachable k)
    (pending : k.yielded.length < k.accepted.length) : ∃ q, k.scancodes = some q := by
  cases hq : k.scancodes with
  | some q => exact ⟨q, rfl⟩
  | none =>
    have start : Starting k := by simpa only [Inv, hq] using reachable_inv hk
    rw [start.2.2.1] at pending
    simp at pending

theorem remaining_cpu {k m : Kernel} {target : Nat} (hk : Reachable k) (hs : cpu k = some m)
    (known : target ≤ k.accepted.length) : remaining target m ≤ remaining target k - 1 := by
  by_cases short : k.yielded.length < target
  · obtain ⟨q, started⟩ := pending_started hk (by omega)
    have step := cpu_remaining started (reachable_running hk started) hs short known
    omega
  · have kept := (cpu_histories hs).2
    rw [remaining_of_le (by omega)]
    exact Nat.zero_le _

theorem remaining_resume {k l : Kernel} {target : Nat} (hk : Reachable k)
    (hp : l.point = k.point) (hy : l.yielded = k.yielded) (known : target ≤ k.accepted.length) :
    remaining target (resume l) ≤ remaining target k := by
  by_cases short : k.yielded.length < target
  · obtain ⟨q, started⟩ := pending_started hk (by omega)
    have awake := (pending_awake started (reachable_running hk started) (by omega)).1
    refine Nat.le_of_eq ?_
    rw [remaining_of_lt (by rw [resume_yielded, hy]; exact short), remaining_of_lt short,
      resume_yielded, hy, resume_point (by rw [hp]; exact awake), hp]
  · rw [remaining_of_le (by rw [resume_yielded, hy]; omega)]
    exact Nat.zero_le _

/-- Over a run each CPU step takes one off what remained at its start. -/
theorem Runs.remaining_le {n target : Nat} {k m : Kernel} (h : Runs n k m) (hk : Reachable k)
    (known : target ≤ k.accepted.length) : remaining target m ≤ remaining target k - n := by
  induction h with
  | refl => exact Nat.le_refl _
  | cpu h hs ih =>
    have step := remaining_cpu (h.reachable hk) hs (Nat.le_trans known h.accepted_grows.length_le)
    have before := ih hk known
    omega
  | @keyboard n k l h c _ ih =>
    have frame := addScancode_frame l c
    have step := remaining_resume (h.reachable hk) frame.1 frame.2.1
      (Nat.le_trans known h.accepted_grows.length_le)
    exact Nat.le_trans step (ih hk known)
  | timer h _ ih =>
    have step := remaining_resume (h.reachable hk) rfl rfl
      (Nat.le_trans known h.accepted_grows.length_le)
    exact Nat.le_trans step (ih hk known)

theorem yielded_accepted {k : Kernel} (hk : Reachable k) : k.yielded <+: k.accepted := by
  have inv := reachable_inv hk
  cases hq : k.scancodes with
  | none =>
    have start : Starting k := by simpa only [Inv, hq] using inv
    rw [start.2.2.2.1]
    exact List.nil_prefix
  | some q =>
    rw [(reachable_running hk hq).history, List.append_assoc]
    exact List.prefix_append _ _

theorem backlog_le {k : Kernel} (hk : Reachable k) :
    k.accepted.length ≤ k.yielded.length + (capacity + 1) := by
  by_cases pending : k.yielded.length < k.accepted.length
  · obtain ⟨q, started⟩ := pending_started hk pending
    have run := reachable_running hk started
    have bounded := run.bounded
    have single : (held k.point).length ≤ 1 := by cases k.point <;> simp [held]
    rw [run.history, List.length_append, List.length_append]
    omega
  · omega

/-- Every accepted scancode reaches the shell, in order, within as many CPU steps
as there are unread ones and four more, whatever interrupts land between them and
whatever they add; while one is unread the CPU can step; and there are never more
than 101 unread. -/
theorem accepted_yielded {k : Kernel} (hk : Reachable k) :
    (∀ n m, Runs n k m → k.accepted.length + 4 ≤ k.yielded.length + n →
      k.accepted <+: m.yielded) ∧
    (k.yielded.length < k.accepted.length → (cpu k).isSome) ∧
    k.accepted.length ≤ k.yielded.length + 101 := by
  refine ⟨fun n m h long => ?_, fun pending => ?_, backlog_le hk⟩
  · have spent := h.remaining_le hk (Nat.le_refl _)
    have start := remaining_le k.accepted.length k
    have behind := (yielded_accepted hk).length_le
    have done : k.accepted.length ≤ m.yielded.length := by
      by_contra short
      rw [remaining_of_lt (by omega)] at spent
      omega
    exact List.prefix_of_prefix_length_le h.accepted_grows (yielded_accepted (h.reachable hk)) done
  · obtain ⟨q, started⟩ := pending_started hk pending
    exact cpu_isSome (pending_awake started (reachable_running hk started) pending).1

/-- A key that wakes the sleeping kernel, and the five steps that deliver it. -/
def struck : Kernel := resume (addScancode asleep 30)

theorem accepted_yielded_struck :
    ∃ m, Runs 5 struck m ∧ struck.accepted = [30] ∧ struck.accepted <+: m.yielded := by
  have reached : Reachable struck := .step asleep_reachable (.keyboard 30 rfl)
  have polled : Runs 2 struck ⟨.popFirst, true, [], none, some [], [30], [30]⟩ :=
    .cpu (.cpu (.refl struck) rfl) rfl
  have pending : Runs 5 struck ⟨.popTask, true, [], some shell, some [], [30], [30]⟩ :=
    .cpu (.cpu (.cpu polled rfl) rfl) rfl
  exact ⟨_, pending, rfl, (accepted_yielded reached).1 5 _ pending (by decide)⟩

end Willo.KeyboardInput
