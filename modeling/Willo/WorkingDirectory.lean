import Willo.ShellCore

/-! The shell's working directory. Only `cd` sets it, and only to a normalised path,
so it stays canonical through every session; and since the components form a
stack, going down in two steps or in one names the same directory. -/

namespace Willo.ShellCore
open Text Paths FaultState TreeStore MountTable KernelFs

/-- However the computation ends, the working directory is canonical if it was before. -/
def StaysHome {α : Type} (x : ShellM α) (w : World) : Prop :=
  Leaves (fun _ w => Canonical w.shell.cwd) x w fun _ w => Canonical w.shell.cwd

section Commands

variable {α : Type} {w : World}

theorem call_home (h : Canonical w.shell.cwd) (x : KernelM α) : StaysHome (call x) w := by
  unfold StaysHome Leaves
  rw [exec_call]
  rcases exec x w.kernel with ⟨(_ | _ | _) | _, k⟩ <;> exact h

theorem ask_home (h : Canonical w.shell.cwd) (x : KernelM α) : StaysHome (ask x) w := by
  unfold StaysHome Leaves
  rw [exec_ask]
  rcases exec x w.kernel with ⟨_ | _, k⟩ <;> exact h

theorem mutate_home (h : Canonical w.shell.cwd) (abs : Str) (op : Mutation UInt8) :
    StaysHome (mutate abs op) w := by
  unfold StaysHome Leaves
  rw [exec_mutate]
  rcases KernelFs.apply w.shell.vfs abs op w.kernel with ⟨(_ | _ | _) | _, vfs, k⟩ <;> exact h

theorem lsLines_home (h : Canonical w.shell.cwd) (vfs : Vfs Backend) (target : Str)
    (names : List Str) :
    StaysHome (lsLines vfs target names) w := by
  induction names generalizing w with
  | nil => exact .pure h
  | cons name names ih =>
    refine (ask_home h _).bind fun dir w hw => ?_
    exact (ih hw).bind fun rest w hw => .pure hw

theorem cmdLs_home (h : Canonical w.shell.cwd) (path : Option Str) : StaysHome (cmdLs path) w := by
  refine (call_home h _).bind fun r w hw => ?_
  rcases r with (_ | _ | _ | _ | _) | entries
  all_goals first | exact lsLines_home hw _ _ _ | exact .pure hw | exact .throw hw

theorem cmdCd_home (h : Canonical w.shell.cwd) (path : Option Str) : StaysHome (cmdCd path) w := by
  refine (ask_home h _).bind fun dir w' hw => .ite (fun _ => ?_) fun _ => hw
  cases path with
  | some p => exact normalize_canonical h p
  | none => exact ⟨[], by simp, rfl⟩

theorem cmdCat_home (h : Canonical w.shell.cwd) (path : Option Str) :
    StaysHome (cmdCat path) w := by
  cases path with
  | none => exact .pure h
  | some path =>
    refine (call_home h _).bind fun r w hw => ?_
    rcases r with (_ | _ | _ | _ | _) | bytes
    all_goals exact .pure hw

theorem runMutation_home (h : Canonical w.shell.cwd) (name path : Str) (op : Mutation UInt8) :
    StaysHome (runMutation name path op) w := by
  refine (mutate_home h _ op).bind fun r w hw => ?_
  rcases r with (_ | _ | _ | _ | _) | u
  all_goals exact .pure hw

theorem command_home (h : Canonical w.shell.cwd) (cmd : Str) (args : List Str) :
    StaysHome (command cmd args) w := by
  unfold command
  refine .ite (fun _ => h) fun _ => .ite (fun _ => cmdLs_home h _) fun _ =>
    .ite (fun _ => cmdCd_home h _)
    fun _ => .ite (fun _ => cmdCat_home h _) fun _ => .ite (fun _ => .pure h) fun _ =>
    .ite (fun _ => .pure h) fun _ => .ite (fun _ => h) fun _ => .ite (fun _ => h) fun _ =>
    .ite (fun _ => ?_) fun _ => .ite (fun _ => ?_) fun _ => .ite (fun _ => ?_) fun _ =>
    .ite (fun _ => ?_) fun _ => .ite (fun _ => .pure h) fun _ => .pure h
  · cases args.head? with
    | none => exact .pure h
    | some path => exact runMutation_home h _ path _
  · cases args.head? with
    | none => exact .pure h
    | some path => exact runMutation_home h _ path _
  · cases args.head? with
    | none => exact .pure h
    | some path => exact runMutation_home h _ path _
  · cases args with
    | nil => exact .pure h
    | cons path words => exact runMutation_home h _ path _

theorem executeLine_home (h : Canonical w.shell.cwd) (line : Str) :
    StaysHome (executeLine line) w := by
  unfold executeLine
  cases tokens line with
  | nil => exact .pure h
  | cons cmd args => exact command_home h cmd args

theorem session_home (h : Canonical w.shell.cwd) (lines : List (Nat × Str)) :
    StaysHome (session lines) w := by
  induction lines generalizing w with
  | nil => exact .pure h
  | cons x lines ih =>
    have hline := executeLine_home (w := { w with kernel := { w.kernel with ticks := x.1 } }) h x.2
    have hrest : StaysHome (do
        let out ← executeLine x.2
        let outs ← session lines
        pure (out :: outs)) { w with kernel := { w.kernel with ticks := x.1 } } :=
      hline.bind fun out w hw => (ih hw).bind fun outs w hw => .pure hw
    exact hrest

end Commands

/-- The working directory is canonical after every session of a new shell; normalised
paths are canonical and fixed; and two steps down are one. -/
theorem workingDirectory_canonical :
    (∀ (vfs : Vfs Backend) (k : Kernel) (lines : List (Nat × Str)),
      Canonical (exec (session lines) ⟨newShell vfs, k⟩).2.shell.cwd) ∧
    (∀ cwd input : Str, Canonical cwd → Canonical (normalize cwd input) ∧
      ∀ anywhere, normalize anywhere (normalize cwd input) = normalize cwd input) ∧
    ∀ cwd a b : Str, Canonical cwd → a ≠ [] → b.head? ≠ some slash →
      normalize cwd (a ++ slash :: b) = normalize (normalize cwd a) b := by
  refine ⟨fun vfs k lines => ?_, fun cwd input h => ?_, fun cwd a b h => normalize_append h⟩
  · have hroot : Canonical (newShell vfs).cwd := ⟨[], by simp, rfl⟩
    exact Leaves.state (session_home (w := ⟨newShell vfs, k⟩) hroot lines)
  · have hnew := normalize_canonical h input
    exact ⟨hnew, normalize_eq_self hnew⟩

/-- `cd ../proc` and then `cd ./uptime`, from `/etc`. -/
theorem workingDirectory_canonical_etc :
    normalize (text "/etc") (text "../proc/./uptime") =
      normalize (normalize (text "/etc") (text "../proc")) (text "./uptime") := by
  have hetc : Canonical (text "/etc") := ⟨[text "etc"], by decide +kernel, by decide +kernel⟩
  have hstep := workingDirectory_canonical.2.2 (text "/etc") (text "../proc") (text "./uptime") hetc
    (by decide +kernel) (by decide +kernel)
  rw [← hstep, show text "../proc/./uptime" =
    text "../proc" ++ slash :: text "./uptime" by decide +kernel]

end Willo.ShellCore
