import Willo.BoundedQueue

/-! The running kernel with the shell as its only task: the executor loop
(`task/executor.rs`), the scancode stream the shell awaits
(`task/keyboard.rs`) and the interrupt handlers (`interrupts.rs`). The CPU
steps through the points between which an interrupt can land; a handler runs
as one step, since interrupts stay off inside it, and only while the interrupt
flag is set. `accepted` and `yielded` are ghost histories. -/

namespace Willo.KeyboardInput
open BoundedQueue

abbrev TaskId := Nat

def shell : TaskId := 0

def capacity : Nat := 100

/-- Where the CPU stands: in `run_ready_tasks`, in the shell's first poll before
`ScancodeStream::new`, inside `poll_next`, or in `sleep_if_idle`. -/
inductive Point where
  | popTask
  | streamNew
  | popFirst
  | register
  | popAgain
  | take (scancode : UInt8)
  | disable
  | testEmpty
  | enableAndHlt
  | enable
  | halted
  deriving DecidableEq

structure Kernel where
  point : Point
  interrupts : Bool
  taskQueue : List TaskId
  waker : Option TaskId
  scancodes : Option (List UInt8)
  accepted : List UInt8
  yielded : List UInt8

/-- After `spawn` of the shell, at the start of `run`. -/
def boot : Kernel := ⟨.popTask, true, [shell], none, none, [], []⟩

def cpu (k : Kernel) : Option Kernel :=
  match k.point with
  | .popTask =>
    match pop k.taskQueue with
    | none => some { k with point := .disable }
    | some (t, q) =>
      if t = shell then
        match k.scancodes with
        | none => some { k with taskQueue := q, point := .streamNew }
        | some _ => some { k with taskQueue := q, point := .popFirst }
      else some { k with taskQueue := q }
  | .streamNew => some { k with scancodes := some [], point := .popFirst }
  | .popFirst =>
    match pop (k.scancodes.getD []) with
    | some (c, q) => some { k with scancodes := some q, yielded := k.yielded ++ [c] }
    | none => some { k with point := .register }
  | .register => some { k with waker := some shell, point := .popAgain }
  | .popAgain =>
    match pop (k.scancodes.getD []) with
    | some (c, q) => some { k with scancodes := some q, point := .take c }
    | none => some { k with point := .popTask }
  | .take c => some { k with waker := none, yielded := k.yielded ++ [c], point := .popFirst }
  | .disable => some { k with interrupts := false, point := .testEmpty }
  | .testEmpty =>
    if k.taskQueue.isEmpty then some { k with point := .enableAndHlt }
    else some { k with point := .enable }
  | .enableAndHlt => some { k with interrupts := true, point := .halted }
  | .enable => some { k with interrupts := true, point := .popTask }
  | .halted => none

/-- Returning from any handler resumes a halted CPU after its `hlt`. -/
def resume (k : Kernel) : Kernel := if k.point = .halted then { k with point := .popTask } else k

def wake (k : Kernel) : Kernel :=
  { k with
    waker := none
    taskQueue :=
      match k.waker with
      | none => k.taskQueue
      | some t => offer capacity k.taskQueue t }

/-- `add_scancode`: nothing before the queue exists; a full queue drops the code. -/
def addScancode (k : Kernel) (c : UInt8) : Kernel :=
  match k.scancodes with
  | none => k
  | some q =>
    wake (match push capacity q c with
      | some q' => { k with scancodes := some q', accepted := k.accepted ++ [c] }
      | none => k)

inductive Step : Kernel → Kernel → Prop where
  | cpu {k k' : Kernel} (h : cpu k = some k') : Step k k'
  | keyboard {k : Kernel} (c : UInt8) (h : k.interrupts = true) : Step k (resume (addScancode k c))
  | timer {k : Kernel} (h : k.interrupts = true) : Step k (resume k)

inductive Reachable : Kernel → Prop where
  | boot : Reachable boot
  | step {k k' : Kernel} (h : Reachable k) (s : Step k k') : Reachable k'

/-- A scancode popped by the second attempt and not yet returned. -/
def held : Point → List UInt8
  | .take c => [c]
  | _ => []

/-- Either nothing waits and the shell can be woken, or the shell is queued. -/
def Armed (k : Kernel) : Prop :=
  (k.scancodes = some [] ∧ k.waker = some shell) ∨ k.taskQueue ≠ []

def AtPoint (k : Kernel) : Prop :=
  match k.point with
  | .popTask | .disable | .testEmpty | .enable => Armed k
  | .popAgain => k.waker = some shell ∨ k.taskQueue ≠ []
  | .enableAndHlt | .halted => k.scancodes = some [] ∧ k.waker = some shell
  | .streamNew => False
  | .popFirst | .register | .take _ => True

structure Running (k : Kernel) (q : List UInt8) : Prop where
  flag : k.interrupts = false ↔ k.point = .testEmpty ∨ k.point = .enableAndHlt ∨ k.point = .enable
  point : AtPoint k
  wakes : ∀ t, k.waker = some t → t = shell
  queued : ∀ t ∈ k.taskQueue, t = shell
  history : k.accepted = k.yielded ++ held k.point ++ q
  bounded : q.length ≤ capacity

def Starting (k : Kernel) : Prop :=
  k.interrupts = true ∧ k.waker = none ∧ k.accepted = [] ∧ k.yielded = [] ∧
    ((k.point = .popTask ∧ k.taskQueue = [shell]) ∨ (k.point = .streamNew ∧ k.taskQueue = []))

def Inv (k : Kernel) : Prop :=
  match k.scancodes with
  | none => Starting k
  | some q => Running k q

theorem boot_inv : Inv boot := ⟨rfl, rfl, rfl, rfl, Or.inl ⟨rfl, rfl⟩⟩

theorem starting_cpu {k k' : Kernel} (hq : k.scancodes = none) (h : Starting k)
    (hs : cpu k = some k') : Inv k' := by
  obtain ⟨hi, hw, ha, hy, ⟨hp, ht⟩ | ⟨hp, ht⟩⟩ := h
  · simp only [cpu, hp, ht, pop, hq, if_true, Option.some.injEq] at hs
    subst hs
    exact ⟨hi, hw, ha, hy, Or.inr ⟨rfl, rfl⟩⟩
  · simp only [cpu, hp, Option.some.injEq] at hs
    subst hs
    exact ⟨by simp [hi], trivial, by simp [hw], by simp [ht], by simp [ha, hy, held], by simp⟩

/-- The invariant is a conjunction over independent fields; a step rebuilds the
ones it touches. -/
theorem running_intro {k : Kernel} {q : List UInt8} (hq : k.scancodes = some q)
    (h : Running k q) : Inv k := by
  simpa only [Inv, hq] using h

theorem running_cpu {k k' : Kernel} {q : List UInt8} (hq : k.scancodes = some q)
    (h : Running k q) (hs : cpu k = some k') : Inv k' := by
  obtain ⟨p, i, ts, w, sc, acc, yld⟩ := k
  obtain ⟨flag, point, wakes, queued, history, bounded⟩ := h
  dsimp only at hq flag wakes queued history
  subst hq
  cases p with
  | popTask =>
    cases ts with
    | nil =>
      simp only [cpu, pop, Option.some.injEq] at hs
      subst hs
      exact ⟨by simpa using flag, point, wakes, queued, history, bounded⟩
    | cons t ts =>
      have hts : t = shell := queued t (by simp)
      simp only [cpu, pop, hts, if_true, Option.some.injEq] at hs
      subst hs
      exact ⟨by simpa using flag, trivial, wakes, fun u hu => queued u (by simp [hu]), history,
        bounded⟩
  | streamNew => exact point.elim
  | popFirst =>
    cases q with
    | nil =>
      simp only [cpu, Option.getD_some, pop, Option.some.injEq] at hs
      subst hs
      exact ⟨by simpa using flag, trivial, wakes, queued, history, bounded⟩
    | cons c q =>
      simp only [cpu, Option.getD_some, pop, Option.some.injEq] at hs
      subst hs
      refine ⟨flag, trivial, wakes, queued, by simpa [held] using history, ?_⟩
      simp only [List.length_cons] at bounded
      omega
  | register =>
    simp only [cpu, Option.some.injEq] at hs
    subst hs
    exact ⟨by simpa using flag, Or.inl rfl, by simp, queued, history, bounded⟩
  | popAgain =>
    cases q with
    | nil =>
      simp only [cpu, Option.getD_some, pop, Option.some.injEq] at hs
      subst hs
      exact ⟨by simpa using flag, Or.imp_left (fun hw => ⟨rfl, hw⟩) point, wakes, queued, history,
        bounded⟩
    | cons c q =>
      simp only [cpu, Option.getD_some, pop, Option.some.injEq] at hs
      subst hs
      refine ⟨by simpa using flag, trivial, wakes, queued, by simpa [held] using history, ?_⟩
      simp only [List.length_cons] at bounded
      omega
  | take c =>
    simp only [cpu, Option.some.injEq] at hs
    subst hs
    exact ⟨by simpa using flag, trivial, by simp, queued, by simpa [held] using history, bounded⟩
  | disable =>
    simp only [cpu, Option.some.injEq] at hs
    subst hs
    exact ⟨by simp, point, wakes, queued, history, bounded⟩
  | testEmpty =>
    cases ts with
    | nil =>
      simp only [cpu, List.isEmpty_nil, if_true, Option.some.injEq] at hs
      subst hs
      exact ⟨by simpa using flag, Or.resolve_right point (by simp), wakes, queued, history, bounded⟩
    | cons t ts =>
      simp only [cpu, List.isEmpty_cons, Bool.false_eq_true, if_false, Option.some.injEq] at hs
      subst hs
      exact ⟨by simpa using flag, Or.inr (by simp), wakes, queued, history, bounded⟩
  | enableAndHlt =>
    simp only [cpu, Option.some.injEq] at hs
    subst hs
    exact ⟨by simp, point, wakes, queued, history, bounded⟩
  | enable =>
    simp only [cpu, Option.some.injEq] at hs
    subst hs
    exact ⟨by simp, point, wakes, queued, history, bounded⟩
  | halted => simp [cpu] at hs

/-! Interrupts. `add_scancode` leaves the point alone and, whenever the shell's
waker is registered or the run queue is not empty, leaves the run queue non-empty. -/

theorem addScancode_cases {k : Kernel} {q : List UInt8} (hq : k.scancodes = some q) (c : UInt8) :
    (q.length < capacity ∧ addScancode k c =
      wake { k with scancodes := some (q ++ [c]), accepted := k.accepted ++ [c] }) ∨
    (¬ q.length < capacity ∧ addScancode k c = wake k) := by
  by_cases room : q.length < capacity
  · exact Or.inl ⟨room, by simp [addScancode, hq, push, room]⟩
  · exact Or.inr ⟨room, by simp [addScancode, hq, push, room]⟩

theorem wake_queue_ne_nil {k : Kernel} (h : k.waker = some shell ∨ k.taskQueue ≠ []) :
    (wake k).taskQueue ≠ [] := by
  unfold wake
  cases hw : k.waker with
  | none => exact h.resolve_left (by simp [hw])
  | some t => exact offer_ne_nil (by decide) _ _

theorem wake_queue_shell {k : Kernel} (hw : ∀ t, k.waker = some t → t = shell)
    (ht : ∀ t ∈ k.taskQueue, t = shell) : ∀ t ∈ (wake k).taskQueue, t = shell := by
  unfold wake
  cases hk : k.waker with
  | none => exact ht
  | some t =>
    intro u hu
    rcases mem_of_mem_offer hu with rfl | hu
    · exact hw u hk
    · exact ht u hu

def resumed (p : Point) : Point := if p = .halted then .popTask else p

theorem resume_eq (k : Kernel) : resume k = { k with point := resumed k.point } := by
  unfold resume resumed
  split_ifs <;> rfl

theorem atPoint_resumed {k : Kernel} {q : List UInt8} (h : Running k q)
    (on : k.interrupts = true) (k' : Kernel) (hp : k'.point = resumed k.point)
    (woken : (k.waker = some shell ∨ k.taskQueue ≠ []) → k'.taskQueue ≠ []) :
    AtPoint k' ∧ held k'.point = held k.point ∧
      ¬ (k'.point = .testEmpty ∨ k'.point = .enableAndHlt ∨ k'.point = .enable) := by
  have flag := h.flag
  have point := h.point
  rw [on] at flag
  unfold AtPoint at point
  cases hk : k.point <;> simp only [hk, resumed, reduceCtorEq, if_true, if_false] at hp <;>
    simp [hk] at flag <;> simp only [hk, Armed] at point <;>
    simp only [AtPoint, hp, Armed, held, and_self, and_true, reduceCtorEq, or_self,
      not_false_eq_true]
  · exact Or.inr (woken (point.imp_left And.right))
  · exact woken point |> Or.inr
  · exact Or.inr (woken (point.imp_left And.right))
  · exact Or.inr (woken (Or.inl point.2))

theorem running_keyboard {k : Kernel} {q : List UInt8} (hq : k.scancodes = some q)
    (h : Running k q) (c : UInt8) (on : k.interrupts = true) :
    Inv (resume (addScancode k c)) := by
  rw [resume_eq]
  rcases addScancode_cases hq c with ⟨room, hk⟩ | ⟨_, hk⟩
  · rw [hk]
    obtain ⟨point, hheld, off⟩ := atPoint_resumed h on
      { wake { k with scancodes := some (q ++ [c]), accepted := k.accepted ++ [c] } with
        point := resumed k.point } rfl (fun armed => wake_queue_ne_nil (by exact armed))
    refine running_intro (q := q ++ [c]) rfl ⟨?_, point, by simp [wake],
      wake_queue_shell (by exact h.wakes) h.queued, ?_, ?_⟩
    · exact ⟨fun hi => absurd (on.symm.trans hi) (by simp), fun hp => absurd hp off⟩
    · change k.accepted ++ [c] = k.yielded ++ held (resumed k.point) ++ (q ++ [c])
      rw [show held (resumed k.point) = held k.point from hheld, h.history]
      simp
    · simp only [List.length_append, List.length_singleton]
      omega
  · rw [hk]
    obtain ⟨point, hheld, off⟩ := atPoint_resumed h on
      { wake k with point := resumed k.point } rfl wake_queue_ne_nil
    refine running_intro (q := q) hq ⟨?_, point, by simp [wake],
      wake_queue_shell h.wakes h.queued, ?_, h.bounded⟩
    · exact ⟨fun hi => absurd (on.symm.trans hi) (by simp), fun hp => absurd hp off⟩
    · change k.accepted = k.yielded ++ held (resumed k.point) ++ q
      rw [show held (resumed k.point) = held k.point from hheld, h.history]

theorem running_timer {k : Kernel} {q : List UInt8} (hq : k.scancodes = some q)
    (h : Running k q) : Inv (resume k) := by
  unfold resume
  split_ifs with halted
  · have point := h.point
    have flag := h.flag
    have history := h.history
    simp only [AtPoint, halted] at point
    refine running_intro (q := q) hq ⟨?_, Or.inl point, h.wakes, h.queued, ?_, h.bounded⟩
    · simpa [halted] using flag
    · simpa [halted, held] using history
  · exact running_intro hq h

theorem step_inv {k k' : Kernel} (h : Inv k) (s : Step k k') : Inv k' := by
  cases hq : k.scancodes with
  | none =>
    have start : Starting k := by simpa only [Inv, hq] using h
    have awake : resume k = k := by
      obtain ⟨_, _, _, _, ⟨hp, _⟩ | ⟨hp, _⟩⟩ := start <;> simp [resume, hp]
    cases s with
    | cpu hs => exact starting_cpu hq start hs
    | keyboard c _ =>
      rw [show addScancode k c = k by simp [addScancode, hq], awake]
      exact h
    | timer _ =>
      rw [awake]
      exact h
  | some q =>
    have run : Running k q := by simpa only [Inv, hq] using h
    cases s with
    | cpu hs => exact running_cpu hq run hs
    | keyboard c on => exact running_keyboard hq run c on
    | timer _ => exact running_timer hq run

theorem reachable_inv {k : Kernel} (h : Reachable k) : Inv k := by
  induction h with
  | boot => exact boot_inv
  | step _ s ih => exact step_inv ih s

theorem reachable_running {k : Kernel} (h : Reachable k) {q : List UInt8}
    (hq : k.scancodes = some q) : Running k q := by
  simpa only [Inv, hq] using reachable_inv h

/-- Over every interleaving, once the stream exists: a halted CPU has no unread
scancode and can be woken by the next one; the yielded scancodes are the
accepted ones in order; and only a full queue rejects a scancode. -/
theorem no_stalled_input {k : Kernel} (h : Reachable k) {q : List UInt8}
    (started : k.scancodes = some q) :
    (k.point = .halted → q = [] ∧ k.waker = some shell) ∧
    k.accepted = k.yielded ++ held k.point ++ q ∧
    ∀ c, (q.length < capacity ∧ (addScancode k c).accepted = k.accepted ++ [c]) ∨
      (q.length = capacity ∧ (addScancode k c).accepted = k.accepted) := by
  have run := reachable_running h started
  refine ⟨fun halted => ?_, run.history, fun c => ?_⟩
  · have point := run.point
    simp only [AtPoint, halted, started, Option.some.injEq] at point
    exact point
  · have bounded := run.bounded
    rcases addScancode_cases started c with ⟨room, hk⟩ | ⟨full, hk⟩
    · exact Or.inl ⟨room, by rw [hk]; rfl⟩
    · exact Or.inr ⟨by omega, by rw [hk]; rfl⟩

def asleep : Kernel := ⟨.halted, true, [], some shell, some [], [], []⟩

theorem asleep_reachable : Reachable asleep := by
  have polled : Reachable ⟨.popFirst, true, [], none, some [], [], []⟩ :=
    .step (.step .boot (.cpu rfl)) (.cpu rfl)
  have pending : Reachable ⟨.popTask, true, [], some shell, some [], [], []⟩ :=
    .step (.step (.step polled (.cpu rfl)) (.cpu rfl)) (.cpu rfl)
  exact .step (.step (.step (.step pending (.cpu rfl)) (.cpu rfl)) (.cpu rfl)) (.cpu rfl)

theorem no_stalled_input_asleep :
    asleep.point = .halted ∧ asleep.waker = some shell ∧
    (addScancode asleep 30).accepted = [30] := by
  obtain ⟨halted, _, irq⟩ := no_stalled_input asleep_reachable (q := []) rfl
  refine ⟨rfl, (halted rfl).2, ?_⟩
  rcases irq 30 with ⟨_, h⟩ | ⟨h, _⟩
  · exact h
  · exact absurd h (by decide)

end Willo.KeyboardInput
