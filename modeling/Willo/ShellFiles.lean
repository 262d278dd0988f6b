import Willo.FatCopies
import Willo.MountIsolation
import Willo.ShellSafety
import Willo.WorkingDirectory

/-! What the shell does to the files. Four commands change something, each at the one path
its operand names; all others leave every mount, the drive and the ports as they are, on
any disk and however they end. So what `write` put into the in-memory store is what a
later `cat` prints, whatever ran in between, as long as it named other paths. -/

namespace Willo.KernelFs
open Text Paths ByteCodec BlockDevice FaultState TreeStore MountTable

section Reading

variable {α : Type} {vfs : Vfs Backend}

theorem onDisk_reads {x : FatM α} (h : Reads x) : Reads (onDisk x) := by
  intro k
  change { k with disk := (exec x k.disk).2 } = k
  rw [h k.disk]

theorem ofResult_reads (r : Except FsError α) : Reads (ofResult r) := fun k => by rw [exec_ofResult]

theorem fat_listDir_reads (v : Fat.FatFs) (abs : Str) : Reads (Fat.listDir v abs) :=
  (Fat.lookup_reads v abs).bind fun _ =>
    .ite ((Fat.readDir_reads v _).bind fun _ => .pure _) (.throw _)

theorem Backend.readFile_reads (b : Backend) (rel : Str) : Reads (b.readFile rel) := by
  cases b with
  | tmp root => exact ofResult_reads _
  | ram root => exact fun k => ofResult_reads _ k
  | dev => exact ofResult_reads _
  | fat v => exact onDisk_reads (Fat.readFile_reads v rel)

theorem Backend.listDir_reads (b : Backend) (rel : Str) : Reads (b.listDir rel) := by
  cases b with
  | tmp root => exact ofResult_reads _
  | ram root => exact ofResult_reads _
  | dev => exact ofResult_reads _
  | fat v => exact onDisk_reads (fat_listDir_reads v rel)

theorem Backend.isDir_reads (b : Backend) (rel : Str) : Reads (b.isDir rel) := by
  cases b with
  | tmp root => exact .pure _
  | ram root => exact .pure _
  | dev => exact .pure _
  | fat v => exact onDisk_reads (Fat.isDir_reads v rel)

theorem readFile_reads (abs : Str) : Reads (readFile vfs abs) :=
  (ofResult_reads _).bind fun r => r.1.readFile_reads r.2

theorem listDir_reads (abs : Str) : Reads (listDir vfs abs) :=
  (ofResult_reads _).bind fun r => (r.1.listDir_reads r.2).bind fun _ => .pure _

theorem isDir_reads (abs : Str) : Reads (isDir vfs abs) := by
  refine .ite (.pure _) ?_
  cases resolve vfs abs with
  | error e => exact .pure _
  | ok r => exact r.1.isDir_reads r.2

end Reading

/-! Plain text. -/

theorem isValidUTF8_ascii {b : UInt8} (h : b < 128) :
    ByteArray.IsValidUTF8 (ByteArray.mk #[b]) := by
  have hall : ∀ n < 128, String.utf8EncodeChar (Char.ofNat n) = [UInt8.ofNat n] := by decide +kernel
  have hchar : String.utf8EncodeChar (Char.ofNat b.toNat) = [b] := by
    rw [hall b.toNat h, UInt8.ofNat_toNat]
  refine ⟨[Char.ofNat b.toNat], ?_⟩
  simp [List.utf8Encode, hchar]
  rfl

theorem fromUtf8_ascii {bytes : Bytes} (h : ∀ b ∈ bytes, b < 128) :
    fromUtf8 bytes = some bytes := by
  have hvalid : ByteArray.IsValidUTF8 (ByteArray.mk bytes.toArray) := by
    induction bytes with
    | nil => exact ByteArray.isValidUTF8_empty
    | cons b bytes ih =>
      have happend := (isValidUTF8_ascii (h b List.mem_cons_self)).append (ih fun c hc =>
        h c (List.mem_cons_of_mem _ hc))
      rwa [show ByteArray.mk #[b] ++ ByteArray.mk bytes.toArray =
        ByteArray.mk (b :: bytes).toArray from
        ByteArray.ext (by simp)] at happend
  rw [fromUtf8, if_pos (ByteArray.validateUTF8_eq_true_iff.mpr hvalid)]

end Willo.KernelFs

namespace Willo.ShellCore
open Text Paths ByteCodec BlockDevice FaultState TreeStore MountTable KernelFs

def mutation (line : Str) : Option (Str × Mutation UInt8) :=
  match tokens line with
  | cmd :: path :: words =>
    if cmd = text "touch" then some (path, .createFile)
    else if cmd = text "mkdir" then some (path, .createDir)
    else if cmd = text "rm" then some (path, .remove)
    else if cmd = text "write" then some (path, .writeFile (joinSpace words ++ [newlineByte]))
    else none
  | _ => none

section Commands

variable {α : Type} {w : World} {P : World → Prop}

theorem call_reads {x : KernelM α} (h : Reads x) : Reads (call x) := by
  intro w
  have hk := h w.kernel
  rw [exec_call]
  rcases hrun : exec x w.kernel with ⟨(_ | _ | _) | _, k⟩ <;> rw [hrun] at hk <;> subst hk <;> rfl

theorem ask_reads {x : KernelM α} (h : Reads x) : Reads (ask x) := by
  intro w
  rw [exec_ask, h w.kernel]

theorem lsLines_reads (vfs : Vfs Backend) (target : Str) (names : List Str) :
    Reads (lsLines vfs target names) := by
  induction names with
  | nil => exact .pure _
  | cons name names ih => exact (ask_reads (isDir_reads _)).bind fun _ => ih.bind fun _ => .pure _

theorem get_reads {f : World → ShellM α} (h : ∀ w, Reads (f w)) : Reads (get >>= f) :=
  fun w => h w w

theorem cmdLs_reads (path : Option Str) : Reads (cmdLs path) := by
  refine get_reads fun w => (call_reads (listDir_reads _)).bind fun r => ?_
  rcases r with (_ | _ | _ | _ | _) | entries
  all_goals first | exact lsLines_reads _ _ _ | exact .pure _ | exact .throw _

theorem cmdCat_reads (path : Option Str) : Reads (cmdCat path) := by
  cases path with
  | none => exact .pure _
  | some path =>
    refine get_reads fun w => (call_reads (readFile_reads _)).bind fun r => ?_
    rcases r with (_ | _ | _ | _ | _) | bytes
    all_goals exact .pure _

theorem Reads.leaves {x : ShellM α} (h : Reads x) (hP : P w) :
    Leaves (fun _ => P) x w fun _ => P := by
  have hw := h w
  unfold Leaves
  rcases hrun : exec x w with ⟨e | a, w'⟩ <;> rw [hrun] at hw <;> subst hw <;> exact hP

theorem cmdCd_leaves (hP : P w)
    (hcwd : ∀ w p, P w → P { w with shell := { w.shell with cwd := p } })
    (path : Option Str) : Leaves (fun _ => P) (cmdCd path) w fun _ => P := by
  have hask (x : KernelM Bool) (hx : Reads x) : Leaves (fun _ => P) (ask x) w fun _ => P :=
    Reads.leaves (ask_reads hx) hP
  refine (hask _ (isDir_reads _)).bind fun dir w' hw => .ite (fun _ => ?_) fun _ => .pure hw
  exact hcwd w' _ hw

theorem runMutation_state (name path : Str) (op : Mutation UInt8) (w : World) :
    (exec (runMutation name path op) w).2 =
      (exec (mutate (normalize w.shell.cwd path) op) w).2 := by
  change (exec (mutate (normalize w.shell.cwd path) op >>= _) w).2 = _
  rw [exec_bind]
  rcases exec (mutate (normalize w.shell.cwd path) op) w with ⟨e | r, w'⟩
  · rfl
  · rcases r with (_ | _ | _ | _ | _) | u <;> rfl

theorem command_mutating {cmd : Str} (args : List Str)
    (h : ∀ s ∈ ["pwd", "ls", "cd", "cat", "echo", "clear", "mount", "uptime"], cmd ≠ text s) :
    command cmd args =
      if cmd = text "touch" then cmdTouch args.head?
      else if cmd = text "mkdir" then cmdMkdir args.head?
      else if cmd = text "rm" then cmdRm args.head?
      else if cmd = text "write" then cmdWrite args
      else if cmd = text "help" then pure helpText
      else pure (text "willo: command not found: " ++ cmd ++ [newlineByte]) := by
  rw [command, if_neg (h _ (by simp)), if_neg (h _ (by simp)), if_neg (h _ (by simp)),
    if_neg (h _ (by simp)), if_neg (h _ (by simp)), if_neg (h _ (by simp)), if_neg (h _ (by simp)),
    if_neg (h _ (by simp))]

theorem executeLine_mutation {line path : Str} {op : Mutation UInt8}
    (h : mutation line = some (path, op)) :
    ∃ name, executeLine line = runMutation name path op := by
  have hwords : ∀ cmd ∈ [text "touch", text "mkdir", text "rm", text "write"],
      ∀ s ∈ ["pwd", "ls", "cd", "cat", "echo", "clear", "mount", "uptime"], cmd ≠ text s := by
        decide +kernel
  unfold mutation at h
  cases ht : tokens line with
  | nil => simp [ht] at h
  | cons cmd args =>
    cases args with
    | nil => simp [ht] at h
    | cons p words =>
      rw [ht] at h
      dsimp only at h
      have hline : executeLine line = command cmd (p :: words) := by rw [executeLine, ht]
      rw [hline]
      split_ifs at h with h₁ h₂ h₃ h₄
      · cases h
        exact ⟨_, by rw [command_mutating _ (hwords _ (by simp [h₁])), if_pos h₁]; rfl⟩
      · cases h
        exact ⟨_, by rw [command_mutating _ (hwords _ (by simp [h₂])), if_neg h₁, if_pos h₂]; rfl⟩
      · cases h
        exact ⟨_, by rw [command_mutating _ (hwords _ (by simp [h₃])), if_neg h₁, if_neg h₂,
          if_pos h₃]; rfl⟩
      · cases h
        exact ⟨_, by rw [command_mutating _ (hwords _ (by simp [h₄])), if_neg h₁, if_neg h₂,
          if_neg h₃, if_pos h₄]; rfl⟩

theorem executeLine_quiet {line : Str} (hP : P w)
    (hcwd : ∀ w p, P w → P { w with shell := { w.shell with cwd := p } })
    (h : mutation line = none) :
    Leaves (fun _ => P) (executeLine line) w fun _ => P := by
  unfold mutation at h
  unfold executeLine
  cases ht : tokens line with
  | nil => exact .pure hP
  | cons cmd args =>
    rw [ht] at h
    have hargs : ∀ s ∈ ["touch", "mkdir", "rm", "write"], cmd = text s → args = [] := by
      intro s hs hcmd
      cases args with
      | nil => rfl
      | cons path words =>
        dsimp only at h
        split_ifs at h with h₁ h₂ h₃ h₄
        simp only [List.mem_cons, List.not_mem_nil, or_false] at hs
        rcases hs with rfl | rfl | rfl | rfl
        · exact absurd hcmd h₁
        · exact absurd hcmd h₂
        · exact absurd hcmd h₃
        · exact absurd hcmd h₄
    change Leaves (fun _ => P) (command cmd args) w fun _ => P
    unfold command
    refine .ite (fun _ => hP) fun _ => .ite (fun _ => Reads.leaves (cmdLs_reads _) hP) fun _ => .ite
      (fun _ => cmdCd_leaves hP hcwd _) fun _ =>
        .ite (fun _ => Reads.leaves (cmdCat_reads _) hP) fun _ => .ite
      (fun _ => .pure hP) fun _ => .ite (fun _ => .pure hP) fun _ =>
        .ite (fun _ => hP) fun _ => .ite
      (fun _ => hP) fun _ => .ite (fun h => ?_) fun _ => .ite (fun h => ?_) fun _ =>
        .ite (fun h => ?_) fun _ => .ite
      (fun h => ?_) fun _ => .ite (fun _ => .pure hP) fun _ => .pure hP
    · rw [hargs _ (by simp) h]
      exact .pure hP
    · rw [hargs _ (by simp) h]
      exact .pure hP
    · rw [hargs _ (by simp) h]
      exact .pure hP
    · rw [hargs _ (by simp) h]
      exact .pure hP

theorem executeLine_keeps (line : Str) (hP : P w)
    (hcwd : ∀ w p, P w → P { w with shell := { w.shell with cwd := p } })
    (hmut : ∀ path op, mutation line = some (path, op) →
      P (exec (mutate (normalize w.shell.cwd path) op) w).2) :
    P (exec (executeLine line) w).2 := by
  cases h : mutation line with
  | none => exact Leaves.state (executeLine_quiet hP hcwd h)
  | some r =>
    obtain ⟨path, op⟩ := r
    obtain ⟨name, hline⟩ := executeLine_mutation h
    rw [hline, runMutation_state]
    exact hmut path op h

structure Untouched (w w' : World) : Prop where
  vfs : w'.shell.vfs = w.shell.vfs
  disk : w'.kernel.disk = w.kernel.disk
  console : w'.kernel.console = w.kernel.console
  serial : w'.kernel.serial = w.kernel.serial

/-- A session without a mutating command changes no mount, no block of the drive and
nothing sent to a port, whatever is on the disk and however it ends. -/
theorem session_untouched (lines : List (Nat × Str))
    (h : ∀ x ∈ lines, mutation x.2 = none) (w : World) :
    Untouched w (exec (session lines) w).2 := by
  have hall : ∀ w', Untouched w w' → Leaves (fun _ => Untouched w) (session lines) w' fun _ =>
    Untouched w := by
    induction lines with
    | nil => exact fun w' hw => .pure hw
    | cons x lines ih =>
      intro w' hw
      have hx := h x List.mem_cons_self
      have hline := executeLine_quiet (P := Untouched w)
        (w := { w' with kernel := { w'.kernel with ticks := x.1 } })
        ⟨hw.vfs, hw.disk, hw.console, hw.serial⟩ (fun _ _ h =>
          ⟨h.vfs, h.disk, h.console, h.serial⟩) hx
      have hrest : Leaves (fun _ => Untouched w) (do
          let out ← executeLine x.2
          let outs ← session lines
          pure (out :: outs)) { w' with kernel := { w'.kernel with ticks := x.1 } } fun _ =>
            Untouched w :=
        hline.bind fun out w₁ h₁ => (ih (fun y hy => h y (List.mem_cons_of_mem _ hy)) w₁ h₁).bind
          fun outs w₂ h₂ => .pure h₂
      exact hrest
  exact Leaves.state (hall w ⟨rfl, rfl, rfl, rfl⟩)

theorem session_untouched_boot :
    Untouched ⟨newShell bootTable, bootKernel⟩
      (exec (session [(0, text "ls /tmp"), (1, text "cat /a"), (2, text "cd /dev"),
      (3, text "write")])
        ⟨newShell bootTable, bootKernel⟩).2 :=
  session_untouched _ (by decide +kernel) _

end Commands

/-! A path of an in-memory store. -/

/-- The path goes to an in-memory store, and what that holds there satisfies `Q`. -/
structure Holds (p : Str) (Q : Option (Entry UInt8) → Prop) (w : World) : Prop where
  table : TableOk w.shell.vfs
  there : ∃ m root, bestMount w.shell.vfs p = some m ∧ m.fs = .tmp root ∧ TmpFs.Ordered root ∧
    Q (TmpFs.store root (segments (relative m p)))

abbrev Stored (p : Str) (data : Bytes) : World → Prop := Holds p (· = some (.file data))

section Files

variable {Q : Option (Entry UInt8) → Prop} {w w' : World} {p q : Str} {data : Bytes}
    {op : Mutation UInt8}
  {m : Mount Backend} {root : TmpFs.Node}

theorem mutate_state (abs : Str) (op : Mutation UInt8) (w : World) :
    (exec (mutate abs op) w).2 =
      ⟨{ w.shell with vfs := (KernelFs.apply w.shell.vfs abs op w.kernel).2.1 },
      (KernelFs.apply w.shell.vfs abs op w.kernel).2.2⟩ := by
  rw [exec_mutate]
  rcases KernelFs.apply w.shell.vfs abs op w.kernel with ⟨(_ | _ | _) | _, vfs, k⟩ <;> rfl

theorem mutate_eq_ok {abs : Str} {u : Except FsError Unit}
    (h : exec (mutate abs op) w = (.ok u, w')) :
    u = .ok () ↔ (KernelFs.apply w.shell.vfs abs op w.kernel).1 = .ok () := by
  rw [exec_mutate] at h
  rcases hrun : KernelFs.apply w.shell.vfs abs op w.kernel with ⟨(_ | _ | _) | _, vfs, k⟩ <;>
    rw [hrun] at h <;>
    cases h <;> simp

theorem matches_of_bestMount {v : Vfs Backend} (hb : bestMount v p = some m) : Matches m.pfx p := by
  have hbest := bestMount_best v p
  rw [hb] at hbest
  exact hbest.2.1

theorem segments_relative_ne (hp : Canonical p) (hq : Canonical q) (hm : Matches m.pfx p)
    (hn : Matches m.pfx q) (hne : p ≠ q) : segments (relative m p) ≠ segments (relative m q) := by
  intro heq
  refine hne (relative_injective hm hn hp hq ?_)
  obtain ⟨ps, hps, hrp⟩ := relative_canonical hm hp
  obtain ⟨qs, hqs, hrq⟩ := relative_canonical hn hq
  rw [hrp, hrq, segments_render hps, segments_render hqs] at heq
  rw [hrp, hrq, heq]

theorem apply_tmp {v : Vfs Backend} (hq : Canonical q) (hb : bestMount v q = some m)
    (hfs : m.fs = .tmp root) (op : Mutation UInt8) (k : Kernel) :
    (KernelFs.apply v q op k).2.1 =
      replaceFs v m.pfx (.tmp (TmpFs.apply root (relative m q) op).2) ∧
      ((KernelFs.apply v q op k).1 = .ok () ↔ (TmpFs.apply root (relative m q) op).1 = .ok ()) := by
  obtain ⟨segs, hsegs, rfl⟩ := hq
  have hres : resolveMount v (render segs) = .ok (m, relative m (render segs)) := by
    rw [resolveMount, if_neg (by simp [render_head]), hb]
  simp only [KernelFs.apply, hres, hfs, Backend.apply, true_and]
  cases (TmpFs.apply root (relative m (render segs)) op).1 <;> simp

theorem bestMount_replaceFs_self {v : Vfs Backend} (hb : bestMount v p = some m) (fs : Backend) :
    bestMount (replaceFs v m.pfx fs) p = some { m with fs := fs } := by
  rw [replaceFs, bestMount_map (pfx_replace m.pfx fs), hb, Option.map_some, if_pos rfl]

theorem Holds.mutate (S : Holds p Q w) (hp : Canonical p) (hq : Canonical q) (h : q = p → ∀ s, Q s)
    (op : Mutation UInt8) : Holds p Q (exec (mutate q op) w).2 := by
  obtain ⟨m, root, hb, hfs, hroot, hstore⟩ := S.there
  have hkeep {v : Vfs Backend} (hv : v = (KernelFs.apply w.shell.vfs q op w.kernel).2.1)
    (ht : TableOk v)
      (hthere : ∃ m root, bestMount v p = some m ∧ m.fs = .tmp root ∧ TmpFs.Ordered root ∧
        Q (TmpFs.store root (segments (relative m p)))) :
          Holds p Q (exec (ShellCore.mutate q op) w).2 := by
    subst hv
    rw [mutate_state]
    exact ⟨ht, hthere⟩
  cases hn : bestMount w.shell.vfs q with
  | none =>
    have hres : resolveMount w.shell.vfs q = .error .notFound := by
      unfold resolveMount
      split_ifs
      · rfl
      · rw [hn]
    refine hkeep (v := w.shell.vfs) ?_ S.table S.there
    simp only [KernelFs.apply, hres]
  | some n =>
    by_cases hsame : m.pfx = n.pfx
    · obtain rfl : m = n := mount_unique S.table (mem_of_bestMount hb) (mem_of_bestMount hn) hsame
      obtain ⟨happly, -⟩ := apply_tmp hq hn hfs op w.kernel
      refine hkeep happly.symm (tableOk_replaceFs S.table _ _) ⟨_, _,
        bestMount_replaceFs_self hb _, rfl,
        TmpFs.apply_ordered hroot _ _, ?_⟩
      change Q (TmpFs.store _ (segments (relative m p)))
      by_cases hpq : q = p
      · exact h hpq _
      · cases hr : (TmpFs.apply root (relative m q) op).1 with
        | error e =>
          have hsame : (TmpFs.apply root (relative m q) op).2 = root :=
            TmpFs.apply_error hroot (Prod.ext hr rfl)
          rwa [hsame]
        | ok u =>
          rw [TmpFs.store_apply hroot (Prod.ext hr rfl), after_of_ne]
          · exact hstore
          · exact segments_relative_ne hp hq (matches_of_bestMount hb) (matches_of_bestMount hn)
              fun heq => hpq heq.symm
    · have hres : ∃ fs, (KernelFs.apply w.shell.vfs q op w.kernel).2.1 =
        replaceFs w.shell.vfs n.pfx fs := by
        obtain ⟨segs, hsegs, rfl⟩ := hq
        have hres : resolveMount w.shell.vfs (render segs) = .ok (n, relative n (render segs)) := by
          rw [resolveMount, if_neg (by simp [render_head]), hn]
        exact ⟨_, by simp only [KernelFs.apply, hres]; rfl⟩
      obtain ⟨fs, happly⟩ := hres
      exact hkeep happly.symm (tableOk_replaceFs S.table _ _)
        ⟨m, root, bestMount_replaceFs hb hsame fs, hfs, hroot, hstore⟩

theorem stored_of_write (S : Holds p Q w) (hp : Canonical p)
    (hok : (KernelFs.apply w.shell.vfs p (.writeFile data) w.kernel).1 = .ok ()) :
    Stored p data (exec (ShellCore.mutate p (.writeFile data)) w).2 := by
  obtain ⟨m, root, hb, hfs, hroot, -⟩ := S.there
  obtain ⟨happly, hiff⟩ := apply_tmp hp hb hfs (.writeFile data) w.kernel
  refine ⟨?_, ?_⟩
  · rw [mutate_state, happly]
    exact tableOk_replaceFs S.table _ _
  · rw [mutate_state, happly]
    refine ⟨_, _, bestMount_replaceFs_self hb _, rfl, TmpFs.apply_ordered hroot _ _, ?_⟩
    change TmpFs.store _ (segments (relative m p)) = _
    rw [TmpFs.store_apply hroot (Prod.ext (hiff.mp hok) rfl), after, put_self]
    rfl

theorem Holds.read (S : Stored p data w) (hp : Canonical p) :
    exec (readFile w.shell.vfs p) w.kernel = (.ok data, w.kernel) := by
  obtain ⟨m, root, hb, hfs, -, hstore⟩ := S.there
  obtain ⟨segs, hsegs, rfl⟩ := hp
  have hres : resolve w.shell.vfs (render segs) = .ok (.tmp root, relative m (render segs)) := by
    rw [resolve, resolveMount, if_neg (by simp [render_head]), hb, ← hfs]
    rfl
  have hread : TmpFs.readFile root (relative m (render segs)) = .ok data := by
    unfold TmpFs.store at hstore
    unfold TmpFs.readFile
    rcases hw : TmpFs.walk root (segments (relative m (render segs))) with e | ⟨b⟩ | ⟨d⟩ <;>
      rw [hw] at hstore <;>
      cases hstore
    rfl
  rw [readFile, hres]
  change exec (ofResult (TmpFs.readFile root (relative m (render segs)))) w.kernel = _
  rw [hread]
  rfl

end Files

/-! Over a session. -/

def tick (ticks : Nat) (w : World) : World := { w with kernel := { w.kernel with ticks := ticks } }

def lineAfter (w : World) (x : Nat × Str) : World := (exec (executeLine x.2) (tick x.1 w)).2

/-- The world the lines leave, as long as none stops the shell. -/
def worldAfter (lines : List (Nat × Str)) (w : World) : World := lines.foldl lineAfter w

def AllSpare (p : Str) : List (Nat × Str) → World → Prop
  | [], _ => True
  | x :: lines, w =>
    (∀ m ∈ mutation x.2, normalize w.shell.cwd m.1 ≠ p) ∧
      AllSpare p lines (lineAfter w x)

instance decidableAllSpare (p : Str) : (lines : List (Nat × Str)) → (w : World) →
  Decidable (AllSpare p lines w)
  | [], _ => isTrue trivial
  | x :: lines, w =>
    have := decidableAllSpare p lines (lineAfter w x)
    inferInstanceAs (Decidable (_ ∧ _))

section Sessions

variable {Q : Option (Entry UInt8) → Prop} {w w' : World} {p : Str} {data : Bytes}

theorem session_append (before rest : List (Nat × Str)) :
    session (before ++ rest) = (do
      let outs ← session before
      let outs' ← session rest
      pure (outs ++ outs')) := by
  induction before with
  | nil => simp [session]
  | cons x before ih =>
    obtain ⟨ticks, line⟩ := x
    simp only [List.cons_append, session, ih, bind_assoc, pure_bind, List.cons_append]

theorem session_then {lines rest : List (Nat × Str)} {outs outs' : List Str} {w₁ w₂ : World}
    (h : exec (session lines) w = (.ok outs, w₁)) (h' : exec (session rest) w₁ = (.ok outs', w₂)) :
    exec (session (lines ++ rest)) w = (.ok (outs ++ outs'), w₂) := by
  rw [session_append, exec_bind, h]
  dsimp only
  rw [exec_bind, h']
  rfl

theorem session_step {x : Nat × Str} {lines : List (Nat × Str)} {out : Str} {outs : List Str}
    {w₁ w₂ : World} (h : exec (executeLine x.2) (tick x.1 w) = (.ok out, w₁))
    (h' : exec (session lines) w₁ = (.ok outs, w₂)) :
    exec (session (x :: lines)) w = (.ok (out :: outs), w₂) := by
  change exec (executeLine x.2 >>= _) (tick x.1 w) = _
  rw [exec_bind, h]
  dsimp only
  rw [exec_bind, h']
  rfl

theorem worldAfter_eq {lines : List (Nat × Str)} {outs : List Str}
    (h : exec (session lines) w = (.ok outs, w')) :
    worldAfter lines w = w' := by
  induction lines generalizing w outs with
  | nil =>
    cases h
    rfl
  | cons x lines ih =>
    change exec (executeLine x.2 >>= _) (tick x.1 w) = _ at h
    rw [exec_bind] at h
    have hline : lineAfter w x = (exec (executeLine x.2) (tick x.1 w)).2 := rfl
    rw [worldAfter, List.foldl_cons, hline]
    rcases hrun : exec (executeLine x.2) (tick x.1 w) with ⟨e | out, w₁⟩
    · rw [hrun] at h
      cases h
    · rw [hrun] at h
      dsimp only at h
      rw [exec_bind] at h
      rcases hrest : exec (session lines) w₁ with ⟨e | outs', w₂⟩ <;> rw [hrest] at h <;> cases h
      exact ih hrest

theorem executeLine_holds (S : Holds p Q w) (hp : Canonical p) (hcwd : Canonical w.shell.cwd)
    {line : Str} (h : ∀ m ∈ mutation line, normalize w.shell.cwd m.1 = p → ∀ s, Q s) :
    Holds p Q (exec (executeLine line) w).2 := by
  refine executeLine_keeps line S (fun w q S => ⟨S.table, S.there⟩) fun path op hpath => ?_
  exact S.mutate hp (normalize_canonical hcwd path) (h (path, op) hpath) op

theorem session_holds {lines : List (Nat × Str)} (S : Holds p Q w) (hp : Canonical p)
    (hcwd : Canonical w.shell.cwd)
    (h : (∀ s, Q s) ∨ AllSpare p lines w) : Holds p Q (exec (session lines) w).2 := by
  induction lines generalizing w with
  | nil => exact S
  | cons x lines ih =>
    have S₁ : Holds p Q (tick x.1 w) := ⟨S.table, S.there⟩
    have S₂ : Holds p Q (exec (executeLine x.2) (tick x.1 w)).2 :=
      executeLine_holds S₁ hp hcwd fun m hm heq =>
      h.elim id fun hs => absurd heq (hs.1 m hm)
    have hcwd₂ : Canonical (exec (executeLine x.2) (tick x.1 w)).2.shell.cwd :=
      Leaves.state (executeLine_home (w := tick x.1 w) hcwd x.2)
    have hrest := ih S₂ hcwd₂ (h.imp_right And.right)
    change Holds p Q (exec (do
      let out ← executeLine x.2
      let outs ← session lines
      pure (out :: outs)) (tick x.1 w)).2
    rw [exec_bind]
    rcases hrun : exec (executeLine x.2) (tick x.1 w) with ⟨e | out, w₁⟩
    · rw [hrun] at S₂
      exact S₂
    · rw [hrun] at hrest
      dsimp only at hrest ⊢
      rw [exec_bind]
      rcases hrun₂ : exec (session lines) w₁ with ⟨e | outs, w₂⟩ <;>
        rw [hrun₂] at hrest <;> exact hrest

theorem runMutation_silent {name path : Str} {op : Mutation UInt8}
    (h : exec (runMutation name path op) w = (.ok [], w')) :
    (KernelFs.apply w.shell.vfs (normalize w.shell.cwd path) op w.kernel).1 = .ok () ∧
      w' = (exec (mutate (normalize w.shell.cwd path) op) w).2 := by
  change exec (mutate (normalize w.shell.cwd path) op >>= _) w = _ at h
  rw [exec_bind] at h
  rcases hrun : exec (mutate (normalize w.shell.cwd path) op) w with ⟨e | r, w₁⟩
  · rw [hrun] at h
    cases h
  · rw [← mutate_eq_ok hrun]
    rw [hrun] at h
    have hends : ∀ s : Str, s ++ [newlineByte] ≠ [] :=
      fun s => List.append_ne_nil_of_right_ne_nil _ (by simp)
    have hreadOnly : text ": read-only filesystem\n" ≠ [] := by decide +kernel
    match r with
    | .ok () =>
      cases h
      exact ⟨rfl, rfl⟩
    | .error .unsupported =>
      exact absurd (Except.ok.inj (congrArg Prod.fst h))
        (List.append_ne_nil_of_right_ne_nil _ hreadOnly)
    | .error .notFound => exact absurd (Except.ok.inj (congrArg Prod.fst h)) (hends _)
    | .error .notADir => exact absurd (Except.ok.inj (congrArg Prod.fst h)) (hends _)
    | .error .isADir => exact absurd (Except.ok.inj (congrArg Prod.fst h)) (hends _)
    | .error .io => exact absurd (Except.ok.inj (congrArg Prod.fst h)) (hends _)

theorem mutation_write {line path : Str} {words : List Str}
    (ht : tokens line = text "write" :: path :: words) :
    mutation line = some (path, .writeFile (joinSpace words ++ [newlineByte])) := by
  have hne : ∀ s ∈ ["touch", "mkdir", "rm"], text "write" ≠ text s := by decide +kernel
  rw [mutation, ht]
  simp [hne]

theorem executeLine_cat {line path : Str} {words : List Str}
    (ht : tokens line = text "cat" :: path :: words) :
    executeLine line = cmdCat (some path) := by
  have hne : ∀ s ∈ ["pwd", "ls", "cd"], text "cat" ≠ text s := by decide +kernel
  unfold executeLine
  rw [ht]
  change command (text "cat") (path :: words) = _
  rw [command, if_neg (hne _ (by simp)), if_neg (hne _ (by simp)), if_neg (hne _ (by simp)),
    if_pos rfl]
  rfl

theorem cat_read {path : Str}
    (hread : exec (readFile w.shell.vfs (normalize w.shell.cwd path)) w.kernel =
      (.ok data, w.kernel))
    (hascii : ∀ b ∈ data, b < 128) (hend : data.getLast? = some newlineByte) :
    exec (cmdCat (some path)) w = (.ok data, w) := by
  change exec (call (readFile w.shell.vfs (normalize w.shell.cwd path)) >>= _) w = _
  rw [exec_bind, exec_call, hread]
  change (Except.ok (terminated (fileText data)), w) = _
  rw [fileText, fromUtf8_ascii hascii]
  change (Except.ok (terminated data), w) = _
  rw [terminated, if_pos hend]

theorem mem_joinSpace {words : List Str} {b : UInt8} (h : b ∈ joinSpace words) :
    b = space ∨ ∃ word ∈ words, b ∈ word := by
  fun_induction joinSpace words with
  | case1 => simp at h
  | case2 word => exact Or.inr ⟨word, List.mem_singleton_self _, h⟩
  | case3 word words hne ih =>
    rw [List.mem_append, List.mem_cons] at h
    rcases h with h | h | h
    · exact Or.inr ⟨word, List.mem_cons_self, h⟩
    · exact Or.inl h
    · exact (ih h).imp_right fun ⟨x, hx, hb⟩ => ⟨x, List.mem_cons_of_mem _ hx, hb⟩

theorem Typed.ascii {line cmd path : Str} {words : List Str} (h : Typed line)
    (ht : tokens line = cmd :: path :: words) :
    ∀ b ∈ joinSpace words ++ [newlineByte], b < 128 := by
  have hlow : ∀ b : UInt8, Printable b → b < 128 :=
    fun b hb => UInt8.lt_of_le_of_lt hb.2 (by decide)
  intro b hb
  rcases List.mem_append.mp hb with hb | hb
  · rcases mem_joinSpace hb with rfl | ⟨word, hw, hb⟩
    · decide
    · exact hlow b (h.word (ht ▸ List.mem_cons_of_mem _ (List.mem_cons_of_mem _ hw)) b hb)
  · rw [List.mem_singleton.mp hb]
    decide

/-- On a volume in order, a text that `write` put into an in-memory store without complaint
is what `cat` prints later, whatever ran before and in between, if nothing in between
names its path. -/
theorem write_then_cat {v : Fat.FatFs} {vfs : Vfs Backend} {k : Kernel}
    {before mid : List (Nat × Str)} {put look : Nat × Str}
    {path path' : Str} {words words' : List Str} (hf : FatsAre v vfs) (W : Fat.WellFormed v k.disk)
    (S : Holds p (fun _ => True) ⟨newShell vfs, k⟩)
    (htyped : ∀ x ∈ before ++ put :: (mid ++ [look]), Typed x.2)
    (hput : tokens put.2 = text "write" :: path :: words)
    (hpath : normalize (worldAfter before ⟨newShell vfs, k⟩).shell.cwd path = p)
    (hmid : AllSpare p mid (worldAfter (before ++ [put]) ⟨newShell vfs, k⟩))
    (hlook : tokens look.2 = text "cat" :: path' :: words')
    (hpath' : normalize (worldAfter (before ++ put :: mid) ⟨newShell vfs, k⟩).shell.cwd path' = p) :
    ∃ outs answer outs' printed w,
    exec (session (before ++ put :: (mid ++ [look]))) ⟨newShell vfs, k⟩ =
        (.ok (outs ++ answer :: (outs' ++ [printed])), w) ∧
      outs.length = before.length ∧ outs'.length = mid.length ∧
      (answer = [] → printed = joinSpace words ++ [newlineByte]) := by
  have H : Healthy True v k.console ⟨newShell vfs, k⟩ :=
    newShell_healthy (fun _ => hf) fun _ => W.sound
  have hbefore : ∀ x ∈ before, Typed x.2 := fun x hx => htyped x (by simp [hx])
  have hbetween : ∀ x ∈ mid, Typed x.2 := fun x hx => htyped x (by simp [hx])
  -- the four parts of the session, each from where the one before it ended
  obtain ⟨outs, w₁, hrun₁, H₁, houts⟩ := (session_meets H hbefore).returns trivial
  have H₁' : Healthy True v k.console (tick put.1 w₁) :=
    ⟨H₁.fats, H₁.sound, H₁.cwd, H₁.printable, H₁.printed⟩
  obtain ⟨answer, w₂, hrun₂, H₂, -⟩ :=
    (executeLine_meets H₁' (htyped put (by simp))).returns trivial
  obtain ⟨outs', w₃, hrun₃, H₃, houts'⟩ := (session_meets H₂ hbetween).returns trivial
  have H₃' : Healthy True v k.console (tick look.1 w₃) :=
    ⟨H₃.fats, H₃.sound, H₃.cwd, H₃.printable, H₃.printed⟩
  obtain ⟨printed, w₄, hrun₄, -, -⟩ :=
    (executeLine_meets H₃' (htyped look (by simp))).returns trivial
  have hlast : exec (session [look]) w₃ = (.ok [printed], w₄) := session_step hrun₄ rfl
  refine ⟨outs, answer, outs', printed, w₄,
    session_then hrun₁ (session_step hrun₂ (session_then hrun₃ hlast)),
    houts.length_eq.symm, houts'.length_eq.symm, ?_⟩
  rintro rfl
  have hone : exec (session [put]) w₁ = (.ok [[]], w₂) := session_step hrun₂ rfl
  rw [worldAfter_eq hrun₁] at hpath
  rw [worldAfter_eq (session_then hrun₁ hone)] at hmid
  rw [worldAfter_eq (session_then hrun₁ (session_step hrun₂ hrun₃))] at hpath'
  have hp : Canonical p := hpath ▸ normalize_canonical H₁.cwd path
  have S₁ : Holds p (fun _ => True) w₁ := by
    have hall : Holds p (fun _ => True) (exec (session before) _).2 :=
      session_holds S hp H.cwd (Or.inl fun _ => trivial)
    rwa [hrun₁] at hall
  have S₂ : Stored p (joinSpace words ++ [newlineByte]) w₂ := by
    obtain ⟨name, hline⟩ := executeLine_mutation (mutation_write hput)
    rw [hline] at hrun₂
    obtain ⟨hok, rfl⟩ := runMutation_silent hrun₂
    have hsame : normalize (tick put.1 w₁).shell.cwd path = p := hpath
    rw [hsame] at hok ⊢
    exact stored_of_write (Q := fun _ => True) (w := tick put.1 w₁) ⟨S₁.table, S₁.there⟩ hp hok
  have S₃ : Stored p (joinSpace words ++ [newlineByte]) w₃ := by
    have hall := session_holds S₂ hp H₂.cwd (Or.inr hmid)
    rwa [hrun₃] at hall
  have S₄ : Stored p (joinSpace words ++ [newlineByte]) (tick look.1 w₃) := ⟨S₃.table, S₃.there⟩
  have hread := S₄.read hp
  rw [← hpath'] at hread
  rw [executeLine_cat hlook, cat_read hread ((htyped put (by simp)).ascii hput) (by simp)] at hrun₄
  cases hrun₄
  rfl

theorem bootTable_tmp : Holds (text "/tmp/f") (fun _ => True) ⟨newShell bootTable, bootKernel⟩ := by
  refine ⟨reachable_tableOk (.mount (.mount (.mount .new _ _) _ _) _ _), ?_⟩
  have hbacking : (bestMount bootTable (text "/tmp/f")).map (fun m => m.fs.backing) =
    some (Backend.tmp TmpFs.new).backing := by
    decide +kernel
  obtain ⟨m, hb, hm⟩ := Option.map_eq_some_iff.mp hbacking
  refine ⟨m, TmpFs.new, hb, ?_, TmpFs.reachable_ordered .new, trivial⟩
  rcases mem_of_mem_mount (mem_of_bestMount hb) with hmem | hfs
  · rcases mem_of_mem_mount hmem with hmem | hfs
    · rcases mem_of_mem_mount hmem with hmem | hfs
      · simp [MountTable.new] at hmem
      · rw [hfs] at hm
        exact absurd hm (by decide +kernel)
    · exact hfs
  · rw [hfs] at hm
    exact absurd hm (by decide +kernel)

/-- `write f a  b` in `/tmp`, and then from the root `cat tmp/f`. -/
theorem write_then_cat_boot :
    ∃ outs answer outs' printed w,
      exec
          (session ([(0, text "cd /tmp")] ++ (1, text "write f a  b") ::
            ([(2, text "rm g"), (3, text "cd /")] ++ [(4, text "cat tmp/f")])))
          ⟨newShell bootTable, bootKernel⟩ =
        (.ok (outs ++ answer :: (outs' ++ [printed])), w) ∧
      outs.length = 1 ∧ outs'.length = 2 ∧
      (answer = [] → printed = joinSpace [text "a", text "b"] ++ [newlineByte]) := by
  have htyped : ∀ x ∈ [(0, text "cd /tmp"), (1, text "write f a  b"), (2, text "rm g"),
    (3, text "cd /"),
      (4, text "cat tmp/f")], x.2.length ≤ 120 ∧ ∀ b ∈ x.2, 32 ≤ b ∧ b ≤ 126 := by decide +kernel
  have hput : tokens (text "write f a  b") = [text "write", text "f", text "a", text "b"] := by
    decide +kernel
  have hlook : tokens (text "cat tmp/f") = [text "cat", text "tmp/f"] := by decide +kernel
  exact write_then_cat bootTable_fats (Fat.blankDisk_wellFormed (by decide)) bootTable_tmp
    (fun x hx => ⟨(htyped x hx).1, (htyped x hx).2⟩) hput (by decide +kernel)
      (by decide +kernel) hlook (by decide +kernel)

end Sessions

end Willo.ShellCore
