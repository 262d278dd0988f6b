import Willo.ShellFiles

/-! What the kernel sent out. The screen's text and the serial port's bytes are written and
never read back: a call that finds more output in front of its own does the same and leaves
that output there. So what one command line sends can be told from the line alone. -/

namespace Willo.KernelFs
open Text Paths ByteCodec BlockDevice FaultState TreeStore MountTable

/-- The kernel with earlier output in front. -/
def Kernel.after (shown : Str) (sent : Bytes) (k : Kernel) : Kernel :=
  { k with console := shown ++ k.console, serial := k.serial.map (sent ++ ·) }

section Calls

variable {α : Type} {shown : Str} {sent : Bytes} {vfs : Vfs Backend}

theorem onDisk_commutes (x : FatM α) : Commutes (Kernel.after shown sent) (onDisk x) := fun _ => rfl

theorem ofResult_commutes (r : Except FsError α) :
    Commutes (Kernel.after shown sent) (ofResult r) := by
  cases r with
  | ok a => exact .pure a
  | error e => exact .throw _

theorem DevNode.write_commutes (node : DevNode) (off : Nat) (buf : Bytes) :
    Commutes (Kernel.after shown sent) (node.write off buf) := by
  cases node with
  | console =>
    refine Commutes.bind (.modify fun k => ?_) fun _ => .pure _
    simp only [Kernel.after, List.append_assoc]
  | null => exact .pure _
  | zero => exact .pure _
  | serial0 =>
    intro k
    unfold DevNode.write
    rw [exec_get_bind, exec_get_bind]
    obtain ⟨disk, ticks, console, serial⟩ := k
    cases serial with
    | none => rfl
    | some bytes =>
      change (Except.ok buf.length,
        Kernel.mk disk ticks (shown ++ console) (some (sent ++ bytes ++ buf))) =
        (Except.ok buf.length,
          Kernel.mk disk ticks (shown ++ console) (some (sent ++ (bytes ++ buf))))
      rw [List.append_assoc]
  | disk0 => exact .ite (.pure _) (.ite (.throw _) ((onDisk_commutes _).bind fun _ => .pure _))

theorem devWriteFile_commutes (rel : Str) (data : Bytes) :
    Commutes (Kernel.after shown sent) (devWriteFile rel data) := by
  refine Commutes.bind ((ofResult_commutes _).bind fun name => ?_) fun n =>
    .ite (.pure _) (.throw _)
  cases devNode name with
  | none => exact .throw _
  | some node => exact node.write_commutes 0 data

theorem Backend.readFile_commutes (b : Backend) (rel : Str) :
    Commutes (Kernel.after shown sent) (b.readFile rel) := by
  cases b with
  | tmp root => exact ofResult_commutes _
  | ram root => exact .get_bind (fun _ => rfl) fun k => ofResult_commutes _
  | dev => exact ofResult_commutes _
  | fat v => exact onDisk_commutes _

theorem Backend.listDir_commutes (b : Backend) (rel : Str) :
    Commutes (Kernel.after shown sent) (b.listDir rel) := by
  cases b with
  | fat v => exact onDisk_commutes _
  | _ => exact ofResult_commutes _

theorem Backend.isDir_commutes (b : Backend) (rel : Str) :
    Commutes (Kernel.after shown sent) (b.isDir rel) := by
  cases b with
  | fat v => exact onDisk_commutes _
  | _ => exact .pure _

theorem readFile_commutes (abs : Str) : Commutes (Kernel.after shown sent) (readFile vfs abs) :=
  (ofResult_commutes _).bind fun r => r.1.readFile_commutes r.2

theorem listDir_commutes (abs : Str) : Commutes (Kernel.after shown sent) (listDir vfs abs) :=
  (ofResult_commutes _).bind fun r => (r.1.listDir_commutes r.2).bind fun _ => .pure _

theorem isDir_commutes (abs : Str) : Commutes (Kernel.after shown sent) (isDir vfs abs) := by
  refine .ite (.pure _) ?_
  cases resolve vfs abs with
  | error e => exact .pure _
  | ok r => exact r.1.isDir_commutes r.2

theorem Backend.apply_after (b : Backend) (rel : Str) (op : Mutation UInt8) (k : Kernel) :
    b.apply rel op (k.after shown sent) =
      ((b.apply rel op k).1, (b.apply rel op k).2.1, (b.apply rel op k).2.2.after shown sent) := by
  cases b with
  | tmp root => rfl
  | ram root => rfl
  | fat v => rfl
  | dev =>
    cases op with
    | writeFile data => simp only [Backend.apply, devWriteFile_commutes rel data k]
    | _ => rfl

theorem apply_after (abs : Str) (op : Mutation UInt8) (k : Kernel) :
    apply vfs abs op (k.after shown sent) =
      ((apply vfs abs op k).1, (apply vfs abs op k).2.1,
      (apply vfs abs op k).2.2.after shown sent) := by
  unfold apply
  cases resolveMount vfs abs with
  | error e => rfl
  | ok r =>
    obtain ⟨m, rel⟩ := r
    simp only [m.fs.apply_after rel op k]

/-! The port. -/

theorem devWriteFile_port (rel : Str) (data : Bytes) (k : Kernel) :
    (exec (devWriteFile rel data) k).2.serial.isSome = k.serial.isSome := by
  have hnode (node : DevNode) : Leaves (fun _ k' =>
    k'.serial.isSome = k.serial.isSome) (node.write 0 data) k
      fun _ k' => k'.serial.isSome = k.serial.isSome := by
    cases node with
    | console => exact rfl
    | null => exact rfl
    | zero => exact rfl
    | serial0 =>
      obtain ⟨disk, ticks, console, serial⟩ := k
      cases serial <;> exact rfl
    | disk0 =>
      refine .ite (fun _ => .pure rfl) fun _ => .ite (fun _ => .throw rfl) fun _ => ?_
      have hdisk (x : FatM Unit) : Leaves (fun _ k' =>
        k'.serial.isSome = k.serial.isSome) (onDisk x) k
          fun _ k' => k'.serial.isSome = k.serial.isSome :=
        .of_exec (fun _ _ h => (congrArg (fun r => r.2.serial.isSome) h).symm)
          fun _ _ h => (congrArg (fun r => r.2.serial.isSome) h).symm
      exact (hdisk _).bind fun _ _ h => .pure h
  have hat : Leaves (fun _ k' => k'.serial.isSome = k.serial.isSome) (devWriteAt rel 0 data) k
      fun _ k' => k'.serial.isSome = k.serial.isSome := by
    unfold devWriteAt
    cases flatName rel with
    | error e => exact rfl
    | ok name =>
      have hname : exec (ofResult (.ok name) : KernelM Str) k = (.ok name, k) := rfl
      refine Leaves.ok_bind hname ?_
      cases devNode name with
      | none => exact rfl
      | some node => exact hnode node
  exact Leaves.state (hat.bind fun n k' h => .ite (fun _ => .pure h) fun _ => .throw h)

theorem apply_port (abs : Str) (op : Mutation UInt8) (k : Kernel) :
    (apply vfs abs op k).2.2.serial.isSome = k.serial.isSome := by
  unfold apply
  cases resolveMount vfs abs with
  | error e => rfl
  | ok r =>
    obtain ⟨⟨pfx, b⟩, rel⟩ := r
    cases b with
    | dev =>
      cases op with
      | writeFile data => exact devWriteFile_port rel data k
      | _ => rfl
    | _ => rfl

end Calls

end Willo.KernelFs

namespace Willo.ShellCore
open Text Paths ByteCodec BlockDevice FaultState TreeStore MountTable KernelFs

def World.after (shown : Str) (sent : Bytes) (w : World) : World :=
  { w with kernel := w.kernel.after shown sent }

def World.bare (w : World) : World :=
  { w with kernel := { w.kernel with console := [], serial := w.kernel.serial.map fun _ => [] } }

section Lines

variable {α : Type} {shown : Str} {sent : Bytes} {w w' : World}

theorem after_bare (w : World) : w.bare.after w.kernel.console (w.kernel.serial.getD []) = w := by
  obtain ⟨shell, disk, ticks, console, serial⟩ := w
  cases serial <;> simp [World.after, World.bare, Kernel.after]

theorem bare_after (w : World) : (w.after shown sent).bare = w.bare := by
  obtain ⟨shell, disk, ticks, console, serial⟩ := w
  cases serial <;> rfl

theorem call_commutes {x : KernelM α} (h : Commutes (Kernel.after shown sent) x) :
    Commutes (World.after shown sent) (call x) := by
  intro w
  have hrun : exec x (w.after shown sent).kernel =
    ((exec x w.kernel).1, (exec x w.kernel).2.after shown sent) :=
    h w.kernel
  rw [exec_call, exec_call, hrun]
  rcases exec x w.kernel with ⟨(_ | _ | _) | _, k⟩ <;> rfl

theorem ask_commutes {x : KernelM α} (h : Commutes (Kernel.after shown sent) x) :
    Commutes (World.after shown sent) (ask x) := by
  intro w
  rw [exec_ask, exec_ask]
  change ((exec x (w.kernel.after shown sent)).1,
    World.mk w.shell (exec x (w.kernel.after shown sent)).2) = _
  rw [h w.kernel]
  rfl

theorem mutate_commutes (abs : Str) (op : Mutation UInt8) :
    Commutes (World.after shown sent) (mutate abs op) := by
  intro w
  rw [exec_mutate, exec_mutate]
  have happly : KernelFs.apply (w.after shown sent).shell.vfs abs op (w.after shown sent).kernel =
      ((KernelFs.apply w.shell.vfs abs op w.kernel).1,
        (KernelFs.apply w.shell.vfs abs op w.kernel).2.1,
        (KernelFs.apply w.shell.vfs abs op w.kernel).2.2.after shown sent) :=
          apply_after abs op w.kernel
  rw [happly]
  rcases KernelFs.apply w.shell.vfs abs op w.kernel with ⟨(_ | _ | _) | _, vfs, k⟩ <;> rfl

theorem lsLines_commutes (vfs : Vfs Backend) (target : Str) (names : List Str) :
    Commutes (World.after shown sent) (lsLines vfs target names) := by
  induction names with
  | nil => exact .pure _
  | cons name names ih =>
    exact (ask_commutes (isDir_commutes _)).bind fun _ => ih.bind fun _ => .pure _

theorem cmdLs_commutes (path : Option Str) : Commutes (World.after shown sent) (cmdLs path) := by
  refine .get_bind (fun _ => rfl) fun w => (call_commutes (listDir_commutes _)).bind fun r => ?_
  rcases r with (_ | _ | _ | _ | _) | entries
  all_goals first | exact lsLines_commutes _ _ _ | exact .pure _ | exact .throw _

theorem cmdCd_commutes (path : Option Str) : Commutes (World.after shown sent) (cmdCd path) := by
  refine .get_bind (fun _ => rfl) fun w => (ask_commutes (isDir_commutes _)).bind fun dir =>
    .ite ?_ (.pure _)
  refine Commutes.bind ?_ fun _ => .pure _
  exact .modify fun _ => rfl

theorem cmdCat_commutes (path : Option Str) : Commutes (World.after shown sent) (cmdCat path) := by
  cases path with
  | none => exact .pure _
  | some path =>
    refine .get_bind (fun _ => rfl) fun w => (call_commutes (readFile_commutes _)).bind fun r => ?_
    rcases r with (_ | _ | _ | _ | _) | bytes
    all_goals exact .pure _

theorem runMutation_commutes (name path : Str) (op : Mutation UInt8) :
    Commutes (World.after shown sent) (runMutation name path op) := by
  refine .get_bind (fun _ => rfl) fun w => (mutate_commutes _ op).bind fun r => ?_
  rcases r with (_ | _ | _ | _ | _) | u
  all_goals exact .pure _

theorem command_commutes (cmd : Str) (args : List Str) :
    Commutes (World.after shown sent) (command cmd args) := by
  have hget (f : World → Str) (h : ∀ w, f (w.after shown sent) = f w) :
      Commutes (World.after shown sent) (do let w ← get; pure (f w) : ShellM Str) :=
    .get_bind (fun w => by rw [h w]) fun w => .pure _
  unfold command
  refine .ite (hget _ fun _ =>
    rfl) (.ite (cmdLs_commutes _) (.ite (cmdCd_commutes _) (.ite (cmdCat_commutes _)
    (.ite (.pure _) (.ite (.pure _)
      (.ite (hget _ fun _ => rfl) (.ite (hget _ fun _ => rfl) (.ite ?_ (.ite ?_ (.ite ?_
      (.ite ?_ (.ite (.pure _) (.pure _)))))))))))))
  · cases args.head? with
    | none => exact .pure _
    | some path => exact runMutation_commutes _ _ _
  · cases args.head? with
    | none => exact .pure _
    | some path => exact runMutation_commutes _ _ _
  · cases args.head? with
    | none => exact .pure _
    | some path => exact runMutation_commutes _ _ _
  · cases args with
    | nil => exact .pure _
    | cons path words => exact runMutation_commutes _ _ _

theorem executeLine_commutes (line : Str) :
    Commutes (World.after shown sent) (executeLine line) := by
  unfold executeLine
  cases tokens line with
  | nil => exact .pure _
  | cons cmd args => exact command_commutes cmd args

/-- What a line does can be told from the world without what was sent before. -/
theorem exec_bare (line : Str) (w : World) : exec (executeLine line) w =
    ((exec (executeLine line) w.bare).1,
      (exec (executeLine line) w.bare).2.after w.kernel.console (w.kernel.serial.getD [])) := by
  have h := @executeLine_commutes w.kernel.console (w.kernel.serial.getD []) line w.bare
  rwa [after_bare] at h

theorem session_commutes (lines : List (Nat × Str)) :
    Commutes (World.after shown sent) (session lines) := by
  induction lines with
  | nil => exact .pure _
  | cons x lines ih =>
    refine Commutes.bind ?_ fun _ => (executeLine_commutes x.2).bind fun _ =>
      ih.bind fun _ => .pure _
    exact .modify fun _ => rfl

theorem executeLine_port (line : Str) (w : World) :
    (exec (executeLine line) w).2.kernel.serial.isSome = w.kernel.serial.isSome := by
  refine executeLine_keeps (P := fun w' =>
    w'.kernel.serial.isSome = w.kernel.serial.isSome) line rfl (fun _ _ h => h) ?_
  intro path op _
  rw [mutate_state]
  exact apply_port _ op w.kernel

theorem lineAfter_bare (h : w.bare = w'.bare) (x : Nat × Str) :
    (exec (executeLine x.2) (tick x.1 w)).1 = (exec (executeLine x.2) (tick x.1 w')).1 ∧
      (lineAfter w x).bare = (lineAfter w' x).bare := by
  have htick : (tick x.1 w).bare = (tick x.1 w').bare := congrArg (tick x.1) h
  rw [lineAfter, lineAfter, exec_bare x.2 (tick x.1 w), exec_bare x.2 (tick x.1 w'), htick,
    bare_after, bare_after]
  exact ⟨rfl, rfl⟩

theorem worldAfter_bare (h : w.bare = w'.bare) (lines : List (Nat × Str)) :
    (worldAfter lines w).bare = (worldAfter lines w').bare := by
  induction lines generalizing w w' with
  | nil => exact h
  | cons x lines ih => exact ih (lineAfter_bare h x).2

theorem session_bare (lines : List (Nat × Str)) (w : World) :
    (exec (session lines) w).1 = (exec (session lines) w.bare).1 := by
  have h := @session_commutes w.kernel.console (w.kernel.serial.getD []) lines w.bare
  rw [after_bare] at h
  rw [h]

end Lines

end Willo.ShellCore
