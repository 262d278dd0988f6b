import Willo.RootMounts
import Willo.ShellFiles
import Willo.StoreRuns

/-! The shell over the booted kernel. Of everything it does only some mutations reach the
drive, as calls of the FAT driver; so a session, and a series of power cycles, is one
run of the driver, and the volume refines the store machine through all of them. -/

namespace Willo.ShellCore
open Text Paths ByteCodec BlockDevice FaultState TreeStore MountTable KernelFs
open Fat (FatFs view Call perform runCalls Regular WellFormed Along Kept store reports)

/-- The table of the boot, with the volume `v` at the root and some tree in `/tmp`. -/
def Booted (v : FatFs) (w : World) : Prop :=
  ∃ root, TmpFs.Ordered root ∧ w.shell.vfs = rootTable (.fat v) (.tmp root)

def onVolume (segs : List Str) : Bool :=
  segs.head?.all fun s => !([text "tmp", text "dev", text "ram"].contains s)

/-- The call that a line makes on the volume, if it makes one. -/
def driveCall (w : World) (line : Str) : Option Call :=
  (mutation line).bind fun m =>
    let segs := segments (normalize w.shell.cwd m.1)
    if onVolume segs then some ⟨segs, m.2⟩ else none

section Routing

variable {v : FatFs} {w : World} {segs : List Str} {op : Mutation UInt8}

theorem routed_volume (root tmp : Backend) (h : onVolume segs = true) :
    routed root tmp segs = ⟨[], root⟩ ∧ below segs = segs := by
  cases segs with
  | nil => exact ⟨rfl, rfl⟩
  | cons s segs =>
    have hs : s ∉ [text "tmp", text "dev", text "ram"] := by simpa [onVolume] using h
    rw [routed, below, if_neg hs]
    simp only [List.mem_cons, List.not_mem_nil, or_false, not_or] at hs
    rw [if_neg hs.1, if_neg hs.2.1, if_neg hs.2.2]
    exact ⟨rfl, rfl⟩

theorem routed_elsewhere (root tmp : Backend) (h : onVolume segs = false) :
    routed root tmp segs = ⟨join [text "tmp"], tmp⟩ ∨
      routed root tmp segs = ⟨join [text "dev"], .dev⟩ ∨
      routed root tmp segs = ⟨join [text "ram"], .ram seed⟩ := by
  cases segs with
  | nil => simp [onVolume] at h
  | cons s segs =>
    have hs : s ∈ [text "tmp", text "dev", text "ram"] := by
      by_contra hs
      have hon : onVolume (s :: segs) = true := by simpa [onVolume] using hs
      simp [hon] at h
    simp only [List.mem_cons, List.not_mem_nil, or_false] at hs
    rw [routed]
    split_ifs with h₁ h₂ h₃
    · exact Or.inl rfl
    · exact Or.inr (Or.inl rfl)
    · exact Or.inr (Or.inr rfl)
    · rcases hs with hs | hs | hs
      · exact absurd hs h₁
      · exact absurd hs h₂
      · exact absurd hs h₃

theorem resolveMount_rootTable (root tmp : Backend) (hs : ∀ s ∈ segs, Component s) :
    resolveMount (rootTable root tmp) (render segs) =
      .ok (routed root tmp segs, render (below segs)) := by
  obtain ⟨as, has, hsplit⟩ := routed_split root tmp segs
  have hplain : ∀ s ∈ segs, Plain s := fun s h => (hs s h).1
  have hrel : relative (routed root tmp segs) (render (as ++ below segs)) = render (below segs) :=
    relative_render has
  rw [← hsplit] at hrel
  rw [resolveMount, if_neg (by simp [render_head]), bestMount_rootTable hplain]
  simp only [hrel]

theorem replaceFs_tmp (root tmp tmp' : Backend) :
    replaceFs (rootTable root tmp) (join [text "tmp"]) tmp' = rootTable root tmp' := by
  obtain ⟨hdt, hrt, -⟩ := mountNames_apart
  simp [replaceFs, rootTable, hdt, hrt]

theorem replaceFs_same (root tmp : Backend) (segs : List Str) :
    replaceFs (rootTable root tmp) (routed root tmp segs).pfx (routed root tmp segs).fs =
      rootTable root tmp := by
  refine replaceFs_self (reachable_tableOk (rootTable_reachable root tmp)) ?_
  cases segs with
  | nil => simp [routed, rootTable]
  | cons s segs =>
    rw [routed]
    split_ifs <;> simp [rootTable]

theorem mutate_booted (B : Booted v w) (hs : ∀ s ∈ segs, Component s) (hop : Odd op) :
    Booted v (exec (mutate (render segs) op) w).2 ∧
      (exec (mutate (render segs) op) w).2.kernel.disk =
        (if onVolume segs then (perform v ⟨segs, op⟩ w.kernel.disk).2 else w.kernel.disk) ∧
      (onVolume segs = true → (KernelFs.apply w.shell.vfs (render segs) op w.kernel).1 =
        (perform v ⟨segs, op⟩ w.kernel.disk).1) := by
  obtain ⟨root, hroot, hvfs⟩ := B
  have hres := resolveMount_rootTable (.fat v) (.tmp root) hs
  have hsame := replaceFs_same (.fat v) (.tmp root) segs
  rw [mutate_state, hvfs, KernelFs.apply, hres]
  have hkeep {vfs : Vfs Backend} {root' : TmpFs.Node} {k : Kernel} (ho : TmpFs.Ordered root')
      (hv : vfs = rootTable (.fat v) (.tmp root')) : Booted v ⟨{ w.shell with vfs := vfs }, k⟩ :=
        ⟨root', ho, hv⟩
  cases hon : onVolume segs with
  | true =>
    obtain ⟨hm, hbelow⟩ := routed_volume (.fat v) (.tmp root) hon
    rw [hm] at hsame ⊢
    rw [hbelow]
    exact ⟨⟨root, hroot, hsame⟩, rfl, fun _ => rfl⟩
  | false =>
    refine and_assoc.mp ⟨?_, fun h => by cases h⟩
    rw [if_neg Bool.false_ne_true]
    rcases routed_elsewhere (.fat v) (.tmp root) hon with hm | hm | hm <;> rw [hm] at hsame ⊢
    · exact ⟨hkeep (TmpFs.apply_ordered hroot (render (below segs)) op) (replaceFs_tmp _ _ _), rfl⟩
    · cases op with
      | writeFile data =>
        obtain ⟨r, k', hrun, hdisk⟩ : ∃ r k',
          exec (devWriteFile (render (below segs)) data) w.kernel = (Fat.outcome r, k') ∧
            k'.disk = w.kernel.disk := devWriteFile_returns (hop data rfl)
        have happly : Backend.dev.apply (render (below segs)) (.writeFile data) w.kernel =
          (Fat.outcome r, .dev, k') := by
          rw [Backend.apply, hrun]
        dsimp only
        rw [happly]
        exact ⟨hkeep hroot hsame, hdisk⟩
      | _ => exact ⟨hkeep hroot hsame, rfl⟩
    · cases op <;> exact ⟨hkeep hroot hsame, rfl⟩

end Routing

/-! Lines and sessions. -/

def driveCalls : List (Nat × Str) → World → List Call
  | [], _ => []
  | x :: lines, w => (driveCall w x.2).toList ++ driveCalls lines (lineAfter w x)

section Sessions

variable {v : FatFs} {w w' : World} {line path : Str} {op : Mutation UInt8}
    {lines : List (Nat × Str)} {base : Str}
  {c : Call}

theorem driveCalls_append (lines rest : List (Nat × Str)) (w : World) :
    driveCalls (lines ++ rest) w = driveCalls lines w ++ driveCalls rest (worldAfter lines w) := by
  induction lines generalizing w with
  | nil => rfl
  | cons x lines ih =>
    rw [List.cons_append, driveCalls, driveCalls, ih, List.append_assoc]
    rfl

theorem mutation_cases (hm : mutation line = some (path, op)) :
    op = .createFile ∨ op = .createDir ∨ op = .remove ∨
      ∃ cmd words, tokens line = cmd :: path :: words ∧
      op = .writeFile (joinSpace words ++ [newlineByte]) := by
  unfold mutation at hm
  split at hm
  · next cmd p words ht =>
    split_ifs at hm
    · cases hm
      exact Or.inl rfl
    · cases hm
      exact Or.inr (Or.inl rfl)
    · cases hm
      exact Or.inr (Or.inr (Or.inl rfl))
    · cases hm
      exact Or.inr (Or.inr (Or.inr ⟨cmd, words, ht, rfl⟩))
  · cases hm

theorem mutation_odd (h : Typed line) (hm : mutation line = some (path, op)) : Odd op := by
  rcases mutation_cases hm with rfl | rfl | rfl | ⟨cmd, words, ht, rfl⟩
  · exact fun data hd => by cases hd
  · exact fun data hd => by cases hd
  · exact fun data hd => by cases hd
  · exact h.odd ht

theorem Typed.words_length {cmd : Str} {words : List Str} (h : Typed line)
    (ht : tokens line = cmd :: path :: words) :
    (joinSpace words ++ [newlineByte]).length < 2 ^ 32 := by
  have hwords := splitWords_length [] line
  have hjoin := joinSpace_length words
  have hlen := h.length
  rw [show splitWords [] line = _ from ht] at hwords
  simp only [List.map_cons, List.sum_cons, List.length_nil] at hwords
  rw [List.length_append, List.length_singleton]
  omega

theorem mutation_short (h : Typed line) (hm : mutation line = some (path, op))
    (old : Option (Entry UInt8)) {data : Bytes}
    (hd : TreeStore.target op old = some (.file data)) : data.length < 2 ^ 32 := by
  rcases mutation_cases hm with rfl | rfl | rfl | ⟨cmd, words, ht, rfl⟩
  · cases hd
    decide
  · cases hd
  · cases hd
  · cases hd
    exact h.words_length ht

theorem driveCall_eq_some (h : driveCall w line = some c) :
    ∃ path, mutation line = some (path, c.op) ∧ c.path = segments (normalize w.shell.cwd path) ∧
      onVolume c.path = true := by
  obtain ⟨⟨path, op⟩, hm, hc⟩ := Option.bind_eq_some_iff.mp h
  dsimp only at hc
  split_ifs at hc with hon
  cases hc
  exact ⟨path, hm, rfl, hon⟩

theorem segments_normalize (hcwd : Canonical w.shell.cwd) (path : Str) :
    (∀ s ∈ segments (normalize w.shell.cwd path), Component s) ∧
      render (segments (normalize w.shell.cwd path)) = normalize w.shell.cwd path := by
  obtain ⟨segs, hsegs, heq⟩ := normalize_canonical hcwd path
  rw [heq, segments_render hsegs]
  exact ⟨hsegs, rfl⟩

theorem driveCall_regular (hcwd : Canonical w.shell.cwd) (h : Typed line)
    (hc : driveCall w line = some c)
    (hkept : c.op ≠ .remove → ∀ name, c.path.getLast? = some name → Kept name) (d : Disk) :
    Regular v d c := by
  obtain ⟨path, hm, hpath, -⟩ := driveCall_eq_some hc
  refine ⟨?_, hkept, fun data hd => mutation_short h hm _ hd⟩
  rw [hpath]
  exact (segments_normalize hcwd path).1

theorem executeLine_booted (B : Booted v w) (hcwd : Canonical w.shell.cwd) (h : Typed line) :
    Booted v (exec (executeLine line) w).2 ∧
      (exec (executeLine line) w).2.kernel.disk =
      runCalls v (driveCall w line).toList w.kernel.disk := by
  cases hm : mutation line with
  | none =>
    have hnone : driveCall w line = none := by rw [driveCall, hm, Option.bind_none]
    rw [hnone]
    exact Leaves.state (executeLine_quiet (P := fun w' => Booted v w' ∧
      w'.kernel.disk = w.kernel.disk) ⟨B, rfl⟩
      (fun w' p h => h) hm)
  | some m =>
    obtain ⟨path, op⟩ := m
    obtain ⟨name, hline⟩ := executeLine_mutation hm
    obtain ⟨hcomps, hrender⟩ := segments_normalize hcwd path
    obtain ⟨hbooted, hdisk, -⟩ := mutate_booted B hcomps (mutation_odd h hm)
    have hcall : driveCall w line = if onVolume (segments (normalize w.shell.cwd path)) then
        some ⟨segments (normalize w.shell.cwd path), op⟩ else none := by
      rw [driveCall, hm, Option.bind_some]
    rw [hline, runMutation_state, ← hrender, hcall]
    refine ⟨hbooted, hdisk.trans ?_⟩
    split_ifs <;> rfl

theorem session_booted (H : Healthy True v base w) (B : Booted v w) (h : ∀ x ∈ lines, Typed x.2) :
    ∃ outs w', exec (session lines) w = (.ok outs, w') ∧ Healthy True v base w' ∧ Booted v w' ∧
      w'.kernel.disk = runCalls v (driveCalls lines w) w.kernel.disk ∧
      outs.length = lines.length := by
  induction lines generalizing w with
  | nil => exact ⟨[], w, rfl, H, B, rfl, rfl⟩
  | cons x lines ih =>
    have H₁ : Healthy True v base (tick x.1 w) := ⟨H.fats, H.sound, H.cwd, H.printable, H.printed⟩
    obtain ⟨out, w₁, hline, H₂, -⟩ :=
      (executeLine_meets H₁ (h x List.mem_cons_self)).returns trivial
    have B₁ : Booted v (tick x.1 w) := B
    obtain ⟨B₂, hdisk⟩ := executeLine_booted B₁ H₁.cwd (h x List.mem_cons_self)
    have hnext : lineAfter w x = w₁ := by rw [lineAfter, hline]
    rw [hline] at B₂ hdisk
    obtain ⟨outs, w', hrest, H', B', hdisk', hlen⟩ :=
      ih H₂ B₂ fun y hy => h y (List.mem_cons_of_mem _ hy)
    refine ⟨out :: outs, w', session_step hline hrest, H', B',
      ?_, by rw [List.length_cons, List.length_cons, hlen]⟩
    rw [driveCalls, hnext, Fat.runCalls_append, hdisk', hdisk]
    rfl

end Sessions

/-! Power cycles. -/

def powerOn (d : Disk) : Kernel := ⟨d, 0, [], some []⟩

def boot (d : Disk) (lines : List (Nat × Str)) : Except Fault (List Str × World) :=
  match exec (mountRoot (.ok ())) (powerOn d) with
  | (.error f, _) => .error f
  | (.ok vfs, k) =>
    match exec (session lines) ⟨newShell vfs, k⟩ with
    | (.error f, _) => .error f
    | (.ok outs, w) => .ok (outs, w)

def powerCycles : List (List (Nat × Str)) → Disk → Except Fault (List (List Str) × Disk)
  | [], d => .ok ([], d)
  | lines :: cycles, d => do
    let (outs, w) ← boot d lines
    let (rest, d') ← powerCycles cycles w.kernel.disk
    pure (outs :: rest, d')

def bootWorld (v : FatFs) (d : Disk) : World :=
  ⟨newShell (rootTable (.fat v) (.tmp TmpFs.new)),
    { powerOn d with serial := some (text "[fs] mounted FAT32 on primary IDE slave" ++ text "\n") }⟩

def cycleCalls (v : FatFs) : List (List (Nat × Str)) → Disk → List Call
  | [], _ => []
  | lines :: cycles, d =>
    let calls := driveCalls lines (bootWorld v d)
    calls ++ cycleCalls v cycles (runCalls v calls d)

/-- The created names come back as they were given. -/
def NamesKept (calls : List Call) : Prop :=
  ∀ c ∈ calls, c.op ≠ .remove → ∀ name, c.path.getLast? = some name → Kept name

section Cycles

variable {v : FatFs} {d : Disk} {lines : List (Nat × Str)} {cycles : List (List (Nat × Str))}
    {w : World} {base : Str}

theorem mountRoot_volume (hm : (exec Fat.mount d).1 = .ok v) :
    exec (mountRoot (.ok ())) (powerOn d) =
      (.ok (rootTable (.fat v) (.tmp TmpFs.new)), (bootWorld v d).kernel) := by
  refine exec_mountRoot ?_
  have hsame : (exec Fat.mount d).2 = d := Fat.mount_reads d
  have hrun : exec Fat.mount d = (.ok v, d) := Prod.ext hm hsame
  have hcall : exec (onDisk (attempt Fat.mount)) (powerOn d) = (.ok (.ok v), powerOn d) := by
    change ((exec (attempt Fat.mount) d).1,
      { powerOn d with disk := (exec (attempt Fat.mount) d).2 }) = _
    rw [exec_attempt_ok hrun]
    rfl
  rw [rootBackend, exec_bind_ok hcall]
  rfl

theorem boot_eq (hm : (exec Fat.mount d).1 = .ok v) {outs : List Str}
    (h : exec (session lines) (bootWorld v d) = (.ok outs, w)) : boot d lines = .ok (outs, w) := by
  have hstart : ⟨newShell (rootTable (.fat v) (.tmp TmpFs.new)), (bootWorld v d).kernel⟩ =
    bootWorld v d := rfl
  rw [boot, mountRoot_volume hm]
  simp only [hstart, h]

theorem boot_split {outs : List Str} (h : boot d lines = .ok (outs, w)) :
    ∃ vfs k, exec (mountRoot (.ok ())) (powerOn d) = (.ok vfs, k) ∧
    exec (session lines) ⟨newShell vfs, k⟩ = (.ok outs, w) := by
  rw [boot] at h
  rcases hm : exec (mountRoot (.ok ())) (powerOn d) with ⟨f | vfs, k⟩
  · rw [hm] at h
    cases h
  · rw [hm] at h
    dsimp only at h
    rcases hrun : exec (session lines) ⟨newShell vfs, k⟩ with ⟨f | outs', w'⟩ <;>
      rw [hrun] at h <;> cases h
    exact ⟨vfs, k, rfl, hrun⟩

theorem bootWorld_booted (v : FatFs) (d : Disk) : Booted v (bootWorld v d) :=
  ⟨TmpFs.new, TmpFs.reachable_ordered .new, rfl⟩

theorem bootWorld_healthy (W : WellFormed v d) : Healthy True v [] (bootWorld v d) := by
  refine newShell_healthy (k := (bootWorld v d).kernel) (fun _ m hm u hu => ?_) fun _ => W.sound
  simp only [rootTable, List.mem_cons, List.not_mem_nil, or_false] at hm
  rcases hm with rfl | rfl | rfl | rfl
  · cases hu
    rfl
  · cases hu
  · cases hu
  · cases hu

theorem bootWorld_cwd (v : FatFs) (d : Disk) : Canonical (bootWorld v d).shell.cwd :=
  ⟨[], by simp, rfl⟩

theorem driveCalls_regular (hcwd : Canonical w.shell.cwd) (h : ∀ x ∈ lines, Typed x.2)
    (hkept : NamesKept (driveCalls lines w)) : ∀ c ∈ driveCalls lines w, ∀ d, Regular v d c := by
  induction lines generalizing w with
  | nil => exact fun c hc => absurd hc List.not_mem_nil
  | cons x lines ih =>
    intro c hc d
    have hnext : Canonical (lineAfter w x).shell.cwd :=
      Leaves.state (executeLine_home (w := tick x.1 w) hcwd x.2)
    rw [driveCalls, List.mem_append] at hc
    rcases hc with hc | hc
    · exact driveCall_regular hcwd (h x List.mem_cons_self) (by simpa using hc)
        (hkept c (List.mem_append_left _ hc)) d
    · exact ih hnext (fun y hy => h y (List.mem_cons_of_mem _ hy))
        (fun c' hc' => hkept c' (List.mem_append_right _ hc')) c hc d

theorem cycleCalls_regular (h : ∀ lines ∈ cycles, ∀ x ∈ lines, Typed x.2)
    (hkept : NamesKept (cycleCalls v cycles d)) :
    ∀ c ∈ cycleCalls v cycles d, ∀ d', Regular v d' c := by
  induction cycles generalizing d with
  | nil => exact fun c hc => absurd hc List.not_mem_nil
  | cons lines cycles ih =>
    intro c hc d'
    rw [cycleCalls, List.mem_append] at hc
    rcases hc with hc | hc
    · exact driveCalls_regular (bootWorld_cwd v d) (h lines List.mem_cons_self)
        (fun c' hc' => hkept c' (List.mem_append_left _ hc')) c hc d'
    · exact ih (fun ls hls => h ls (List.mem_cons_of_mem _ hls))
        (fun c' hc' => hkept c' (List.mem_append_right _ hc')) c hc d'

theorem cycleCalls_append (cycles rest : List (List (Nat × Str))) (d : Disk) :
    cycleCalls v (cycles ++ rest) d =
      cycleCalls v cycles d ++ cycleCalls v rest (runCalls v (cycleCalls v cycles d) d) := by
  induction cycles generalizing d with
  | nil => rfl
  | cons lines cycles ih =>
    simp only [List.cons_append, cycleCalls, ih, List.append_assoc, Fat.runCalls_append]

theorem powerCycles_cons {outs : List Str} {outs' : List (List Str)} {d' : Disk}
    (h : boot d lines = .ok (outs, w)) (h' : powerCycles cycles w.kernel.disk = .ok (outs', d')) :
    powerCycles (lines :: cycles) d = .ok (outs :: outs', d') := by
  rw [powerCycles, h]
  change (powerCycles cycles w.kernel.disk >>= _) = _
  rw [h']
  rfl

/-- Typed lines over any number of cycles: every boot finds the volume and every line is
answered, and the drive is left as the calls leave it. -/
theorem powerCycles_run (W : WellFormed v d) (h : ∀ lines ∈ cycles, ∀ x ∈ lines, Typed x.2)
    (hkept : NamesKept (cycleCalls v cycles d)) :
    ∃ outs, powerCycles cycles d = .ok (outs, runCalls v (cycleCalls v cycles d) d) ∧
      List.Forall₂ (fun lines out => out.length = lines.length) cycles outs ∧
      WellFormed v (runCalls v (cycleCalls v cycles d) d) := by
  induction cycles generalizing d with
  | nil => exact ⟨[], rfl, .nil, W⟩
  | cons lines cycles ih =>
    have hregular := cycleCalls_regular h hkept
    obtain ⟨outs, w, hrun, -, -, hdisk, hlen⟩ :=
      session_booted (bootWorld_healthy W) (bootWorld_booted v d) (h lines List.mem_cons_self)
    change w.kernel.disk = runCalls v (driveCalls lines (bootWorld v d)) d at hdisk
    have W' : WellFormed v w.kernel.disk := by
      rw [hdisk]
      exact Fat.runCalls_wellFormed W (Fat.along_of_forall fun c hc d =>
        hregular c (List.mem_append_left _ hc) d)
    rw [cycleCalls, Fat.runCalls_append, ← hdisk]
    rw [cycleCalls, ← hdisk] at hkept
    obtain ⟨rest, hcycles, hlens, W''⟩ := ih W' (fun ls hls => h ls (List.mem_cons_of_mem _ hls))
      fun c hc => hkept c (List.mem_append_right _ hc)
    exact ⟨outs :: rest, powerCycles_cons (boot_eq W.mounted hrun) hcycles, .cons hlen hlens, W''⟩

theorem powerCycles_split {outs : List (List Str)} {d' : Disk}
    (h : powerCycles (lines :: cycles) d = .ok (outs, d')) :
    ∃ out w outs', boot d lines = .ok (out, w) ∧
    powerCycles cycles w.kernel.disk = .ok (outs', d') ∧ outs = out :: outs' := by
  rw [powerCycles] at h
  rcases hboot : boot d lines with f | ⟨out, w⟩
  · rw [hboot] at h
    cases h
  · rw [hboot] at h
    change (powerCycles cycles w.kernel.disk >>= _) = _ at h
    rcases hcycles : powerCycles cycles w.kernel.disk with f | ⟨outs', d''⟩ <;>
      rw [hcycles] at h <;> cases h
    exact ⟨out, w, outs', rfl, hcycles, rfl⟩

theorem powerCycles_then {rest : List (List (Nat × Str))} {outs outs' : List (List Str)}
    {d' d'' : Disk}
    (h : powerCycles cycles d = .ok (outs, d')) (h' : powerCycles rest d' = .ok (outs', d'')) :
    powerCycles (cycles ++ rest) d = .ok (outs ++ outs', d'') := by
  induction cycles generalizing d outs with
  | nil =>
    cases h
    exact h'
  | cons lines cycles ih =>
    obtain ⟨out, w, outs'', hboot, hcycles, rfl⟩ := powerCycles_split h
    exact powerCycles_cons hboot (ih hcycles)

theorem driveCalls_put {first rest : List (Nat × Str)} {put : Nat × Str} {p : List Str}
    {words : List Str} (hp : ∀ s ∈ p, Component s) (hvol : onVolume p = true)
    (hput : tokens put.2 = text "write" :: render p :: words) (w : World) :
    driveCalls (first ++ put :: rest) w =
      driveCalls first w ++ ⟨p, .writeFile (joinSpace words ++ [newlineByte])⟩ ::
      driveCalls rest (worldAfter (first ++ [put]) w) := by
  have hself : ∀ cwd, normalize cwd (render p) = render p := normalize_eq_self ⟨p, hp, rfl⟩
  have hcall : ∀ w, driveCall w put.2 =
    some ⟨p, .writeFile (joinSpace words ++ [newlineByte])⟩ := by
    intro w
    rw [driveCall, mutation_write hput, Option.bind_some]
    simp only [hself, segments_render hp, hvol, if_true]
  rw [driveCalls_append, driveCalls, hcall, worldAfter, worldAfter, List.foldl_append]
  rfl

theorem boot_put (W : WellFormed v d) {first rest : List (Nat × Str)} {put : Nat × Str}
    {p : List Str} {words : List Str} (h : ∀ x ∈ first ++ put :: rest, Typed x.2)
    (hp : ∀ s ∈ p, Component s) (hvol : onVolume p = true)
    (hput : tokens put.2 = text "write" :: render p :: words) :
    ∃ outs answer outs', boot d (first ++ put :: rest) =
        .ok (outs ++ answer :: outs', worldAfter (first ++ put :: rest) (bootWorld v d)) ∧
      outs.length = first.length ∧
      (worldAfter (first ++ put :: rest) (bootWorld v d)).kernel.disk =
        runCalls v (driveCalls (first ++ put :: rest) (bootWorld v d)) d ∧
      (answer = [] → (perform v ⟨p, .writeFile (joinSpace words ++ [newlineByte])⟩
        (runCalls v (driveCalls first (bootWorld v d)) d)).1 = .ok ()) := by
  have hfirst : ∀ x ∈ first, Typed x.2 := fun x hx => h x (by simp [hx])
  have hrest : ∀ x ∈ rest, Typed x.2 := fun x hx => h x (by simp [hx])
  obtain ⟨outs, w₁, hrun₁, H₁, B₁, hdisk₁, hlen⟩ :=
    session_booted (bootWorld_healthy W) (bootWorld_booted v d) hfirst
  have H₁' : Healthy True v [] (tick put.1 w₁) :=
    ⟨H₁.fats, H₁.sound, H₁.cwd, H₁.printable, H₁.printed⟩
  have B₁' : Booted v (tick put.1 w₁) := B₁
  obtain ⟨answer, w₂, hrun₂, H₂, -⟩ := (executeLine_meets H₁' (h put (by simp))).returns trivial
  obtain ⟨B₂, -⟩ := executeLine_booted B₁' H₁'.cwd (h put (by simp))
  rw [hrun₂] at B₂
  obtain ⟨outs', w₃, hrun₃, -⟩ := session_booted H₂ B₂ hrest
  have hrun := session_then hrun₁ (session_step hrun₂ hrun₃)
  obtain ⟨all, w₃', hrun', -, -, hdisk, -⟩ :=
    session_booted (bootWorld_healthy W) (bootWorld_booted v d) h
  obtain rfl : w₃ = w₃' := (worldAfter_eq hrun).symm.trans (worldAfter_eq hrun')
  rw [worldAfter_eq hrun]
  refine ⟨outs, answer, outs', boot_eq W.mounted hrun, hlen, hdisk, ?_⟩
  rintro rfl
  obtain ⟨name, hline⟩ := executeLine_mutation (mutation_write hput)
  rw [hline] at hrun₂
  obtain ⟨hok, -⟩ := runMutation_silent hrun₂
  have hself : normalize (tick put.1 w₁).shell.cwd (render p) = render p :=
    normalize_eq_self ⟨p, hp, rfl⟩ _
  rw [hself,
    (mutate_booted B₁' hp (mutation_odd (h put (by simp)) (mutation_write hput))).2.2 hvol] at hok
  have hsame : (tick put.1 w₁).kernel.disk = runCalls v (driveCalls first (bootWorld v d)) d :=
    hdisk₁
  rwa [hsame] at hok

theorem cycleCalls_look {last : List (Nat × Str)} {look : Nat × Str} {path : Str} {words : List Str}
    (hlook : tokens look.2 = text "cat" :: path :: words) :
    cycleCalls v [last ++ [look]] d = driveCalls last (bootWorld v d) := by
  have hne : ∀ s ∈ ["touch", "mkdir", "rm", "write"], text "cat" ≠ text s := by decide +kernel
  have hnone : mutation look.2 = none := by
    unfold mutation
    rw [hlook]
    simp only [if_neg (hne _ (by simp : "touch" ∈ _)), if_neg (hne _ (by simp : "mkdir" ∈ _)),
      if_neg (hne _ (by simp : "rm" ∈ _)), if_neg (hne _ (by simp : "write" ∈ _))]
  have hcall : ∀ w, driveCall w look.2 = none := fun w => by rw [driveCall, hnone, Option.bind_none]
  rw [cycleCalls, cycleCalls, driveCalls_append, driveCalls, driveCalls, hcall, List.append_nil]
  exact List.append_nil _

theorem booted_read (B : Booted v w) (S : Fat.Sturdy v (view v w.kernel.disk)) {p : List Str}
    {data : Bytes} (hp : ∀ s ∈ p, Component s) (hvol : onVolume p = true)
    (h : store v (view v w.kernel.disk) p = some (.file data)) :
    exec (readFile w.shell.vfs (render p)) w.kernel = (.ok data, w.kernel) := by
  obtain ⟨root, -, hvfs⟩ := B
  obtain ⟨hm, hbelow⟩ := routed_volume (.fat v) (.tmp root) hvol
  have hread : (exec (Fat.readFile v (render p)) w.kernel.disk).1 = .ok data := by
    have hanswer := Fat.answer_readFile S (render p)
    rwa [(Fat.fileAt_store hp data).mpr h] at hanswer
  have hcall : exec (onDisk (Fat.readFile v (render p))) w.kernel = (.ok data, w.kernel) := by
    refine Prod.ext hread ?_
    exact onDisk_reads (Fat.readFile_reads v (render p)) w.kernel
  rw [readFile, hvfs, resolve_rootTable fun s hs => (hp s hs).1, hm, hbelow]
  exact hcall

theorem boot_look (W : WellFormed v d) {last : List (Nat × Str)} {look : Nat × Str}
    {p words : List Str} (h : ∀ x ∈ last ++ [look], Typed x.2)
    (hkept : NamesKept (driveCalls last (bootWorld v d))) (hp : ∀ s ∈ p, Component s)
    (hvol : onVolume p = true) (hlook : tokens look.2 = text "cat" :: render p :: words) :
    ∃ seen printed w, boot d (last ++ [look]) = .ok (seen ++ [printed], w) ∧
      seen.length = last.length ∧
      ∀ data, store v (view v (runCalls v (driveCalls last (bootWorld v d)) d)) p =
      some (.file data) →
        (∀ b ∈ data, b < 128) → data.getLast? = some newlineByte → printed = data := by
  have hlast : ∀ x ∈ last, Typed x.2 := fun x hx => h x (by simp [hx])
  obtain ⟨seen, w, hrun, H, B, hdisk, hlen⟩ :=
    session_booted (bootWorld_healthy W) (bootWorld_booted v d) hlast
  change w.kernel.disk = runCalls v (driveCalls last (bootWorld v d)) d at hdisk
  have H' : Healthy True v [] (tick look.1 w) := ⟨H.fats, H.sound, H.cwd, H.printable, H.printed⟩
  obtain ⟨printed, w', hline, -⟩ := (executeLine_meets H' (h look (by simp))).returns trivial
  refine ⟨seen, printed, w',
    boot_eq W.mounted (session_then hrun (session_step hline rfl)), hlen, ?_⟩
  intro data hstore hascii hend
  have W' : WellFormed v w.kernel.disk := by
    rw [hdisk]
    exact Fat.runCalls_wellFormed W
      (Fat.along_of_forall fun c hc d' =>
        driveCalls_regular (bootWorld_cwd v d) hlast hkept c hc d')
  rw [← hdisk] at hstore
  have hread := booted_read (w := tick look.1 w) B W'.sound.toSturdy hp hvol hstore
  have hself : normalize (tick look.1 w).shell.cwd (render p) = render p :=
    normalize_eq_self ⟨p, hp, rfl⟩ _
  rw [← hself] at hread
  rw [executeLine_cat hlook, cat_read hread hascii hend] at hline
  cases hline
  rfl

end Cycles

/-- At every boot of a run mounting finds the volume, on the drive as the calls before left it. -/
def MountsEach (v : FatFs) (d : Disk) (cycles : List (List (Nat × Str))) : Prop :=
  ∀ done, done <+: cycles →
    ∃ outs, powerCycles done d = .ok (outs, runCalls v (cycleCalls v done d) d) ∧
    (exec (mountRoot (.ok ())) (powerOn (runCalls v (cycleCalls v done d) d))).1 =
      .ok (rootTable (.fat v) (.tmp TmpFs.new))

theorem powerCycles_mounts {v : FatFs} {d : Disk} (W : WellFormed v d)
    {cycles : List (List (Nat × Str))}
    (h : ∀ lines ∈ cycles, ∀ x ∈ lines, Typed x.2) (hkept : NamesKept (cycleCalls v cycles d)) :
    MountsEach v d cycles := by
  rintro done ⟨rest, rfl⟩
  rw [cycleCalls_append] at hkept
  obtain ⟨outs, hrun, -, W'⟩ :=
    powerCycles_run W (fun lines hl => h lines (List.mem_append_left _ hl))
    fun c hc => hkept c (List.mem_append_left _ hc)
  exact ⟨outs, hrun, by rw [mountRoot_volume W'.mounted]⟩

/-- Through any number of power cycles the shell refines the store machine: with names that
come back, whatever lines are typed, every boot mounts the volume and answers every line, and
the mutations that went to the volume are carried out, refused or starved, one by one. -/
theorem powerCycles_refine {v : FatFs} {d : Disk} (W : WellFormed v d)
    {cycles : List (List (Nat × Str))}
    (h : ∀ lines ∈ cycles, ∀ x ∈ lines, Typed x.2) (hkept : NamesKept (cycleCalls v cycles d)) :
    ∃ outs d', powerCycles cycles d = .ok (outs, d') ∧ d' = runCalls v (cycleCalls v cycles d) d ∧
      WellFormed v d' ∧
      List.Forall₂ (fun lines out => out.length = lines.length) cycles outs ∧
      MountsEach v d cycles ∧
      History lower (store v (view v d)) ((cycleCalls v cycles d).map Call.request)
        (reports v (cycleCalls v cycles d) d) (store v (view v d')) := by
  obtain ⟨outs, hrun, hlens, W'⟩ := powerCycles_run W h hkept
  have hregular := cycleCalls_regular h hkept
  exact ⟨outs, _, hrun, rfl, W', hlens, powerCycles_mounts W h hkept,
    Fat.runCalls_refines W (Fat.along_of_forall fun c hc d => hregular c hc d)⟩

/-- A file in a directory written in one boot, and a removal refused in the next. -/
def twoBoots : List (List (Nat × Str)) :=
  [[(0, text "mkdir /d"), (1, text "cd d"), (2, text "write a hi"), (3, text "touch /tmp/x")],
    [(0, text "rm /d"), (1, text "cat /d/a")]]

theorem twoBoots_typed : ∀ lines ∈ twoBoots, ∀ x ∈ lines, Typed x.2 := by
  have h : ∀ lines ∈ twoBoots, ∀ x ∈ lines, x.2.length ≤ 120 ∧ ∀ b ∈ x.2, 32 ≤ b ∧ b ≤ 126 := by
    decide +kernel
  exact fun lines hl x hx => ⟨(h lines hl x hx).1, (h lines hl x hx).2⟩

theorem powerCycles_refine_twoBoots :
    ∃ outs d', powerCycles twoBoots (Fat.blankDisk 20) = .ok (outs, d') ∧
      d' = runCalls Fat.smallVolume (cycleCalls Fat.smallVolume twoBoots (Fat.blankDisk 20))
      (Fat.blankDisk 20) ∧
      WellFormed Fat.smallVolume d' ∧
      List.Forall₂ (fun lines out => out.length = lines.length) twoBoots outs ∧
      MountsEach Fat.smallVolume (Fat.blankDisk 20) twoBoots ∧
      History lower (store Fat.smallVolume (view Fat.smallVolume (Fat.blankDisk 20)))
        ((cycleCalls Fat.smallVolume twoBoots (Fat.blankDisk 20)).map Call.request)
        (reports Fat.smallVolume (cycleCalls Fat.smallVolume twoBoots (Fat.blankDisk 20))
        (Fat.blankDisk 20))
        (store Fat.smallVolume (view Fat.smallVolume d')) := by
  have hkept : ∀ c ∈ cycleCalls Fat.smallVolume twoBoots (Fat.blankDisk 20),
    ∀ name ∈ c.path.getLast?, Kept name := by
    decide +kernel
  exact powerCycles_refine (Fat.blankDisk_wellFormed (by decide)) twoBoots_typed
    fun c hc _ name hname => hkept c hc name hname

/-- On a well-formed volume, a text that `write` put into a file without complaint is what
`cat` prints in any later boot, whatever was typed around and between, if no line between
the two makes a call on the file's path. -/
theorem file_survives {v : FatFs} {d : Disk} (W : WellFormed v d)
    {first rest last : List (Nat × Str)}
    {middle : List (List (Nat × Str))} {put look : Nat × Str} {p words words' : List Str}
    (htyped : ∀ lines ∈ (first ++ put :: rest) :: (middle ++ [last ++ [look]]),
      ∀ x ∈ lines, Typed x.2)
    (hkept : NamesKept (cycleCalls v ((first ++ put :: rest) :: (middle ++ [last ++ [look]])) d))
    (hp : ∀ s ∈ p, Component s) (hvol : onVolume p = true)
    (hput : tokens put.2 = text "write" :: render p :: words)
    (hlook : tokens look.2 = text "cat" :: render p :: words')
    (hrest : ∀ c ∈ driveCalls rest (worldAfter (first ++ [put]) (bootWorld v d)),
      Fat.fold p ≠ Fat.fold c.path)
    (hlater : ∀ c ∈ cycleCalls v (middle ++ [last ++ [look]])
      (worldAfter (first ++ put :: rest) (bootWorld v d)).kernel.disk,
      Fat.fold p ≠ Fat.fold c.path) :
    ∃ outs answer outs' between seen printed d',
      powerCycles ((first ++ put :: rest) :: (middle ++ [last ++ [look]])) d =
        .ok ((outs ++ answer :: outs') :: (between ++ [seen ++ [printed]]), d') ∧
      outs.length = first.length ∧ between.length = middle.length ∧ seen.length = last.length ∧
      (answer = [] → printed = joinSpace words ++ [newlineByte]) := by
  obtain ⟨outs, answer, outs', hboot, hlen, hdisk, hok⟩ :=
    boot_put W (htyped _ List.mem_cons_self) hp hvol hput
  generalize hw : worldAfter (first ++ put :: rest) (bootWorld v d) = w₁ at hboot hdisk hlater
  have hregular := cycleCalls_regular htyped hkept
  rw [cycleCalls, ← hdisk] at hkept hregular
  have W₁ : WellFormed v w₁.kernel.disk := by
    rw [hdisk]
    exact Fat.runCalls_wellFormed W
      (Fat.along_of_forall fun c hc d' => hregular c (List.mem_append_left _ hc) d')
  rw [cycleCalls_append] at hkept hregular hlater
  obtain ⟨between, hmiddle, hlens, W₂⟩ :=
    powerCycles_run W₁ (fun ls hls => htyped ls (by simp [hls]))
    fun c hc => hkept c (List.mem_append_right _ (List.mem_append_left _ hc))
  generalize hd₂ : runCalls v (cycleCalls v middle w₁.kernel.disk) w₁.kernel.disk =
    d₂ at hmiddle W₂ hkept hregular hlater
  rw [cycleCalls_look hlook] at hkept hregular hlater
  obtain ⟨seen, printed, w₂, hlook', hlen', hprinted⟩ := boot_look W₂ (htyped _ (by simp))
    (fun c hc => hkept c (List.mem_append_right _ (List.mem_append_right _ hc))) hp hvol hlook
  refine ⟨outs, answer, outs', between, seen, printed, _,
    powerCycles_cons hboot (powerCycles_then hmiddle
    (powerCycles_cons hlook' rfl)), hlen, hlens.length_eq.symm, hlen', fun hempty => ?_⟩
  refine hprinted _ ?_ ((htyped _ List.mem_cons_self put (by simp)).ascii hput) (by simp)
  -- the run of the driver up to the look, with the call of the `write` in its middle
  have hcalls : driveCalls (first ++ put :: rest) (bootWorld v d) ++
    (cycleCalls v middle w₁.kernel.disk ++
      driveCalls last (bootWorld v d₂)) = driveCalls first (bootWorld v d) ++
        ⟨p, .writeFile (joinSpace words ++ [newlineByte])⟩ ::
          (driveCalls rest (worldAfter (first ++ [put]) (bootWorld v d)) ++
            (cycleCalls v middle w₁.kernel.disk ++ driveCalls last (bootWorld v d₂))) := by
    rw [driveCalls_put hp hvol hput, List.append_assoc, List.cons_append]
  have hrun : runCalls v (driveCalls last (bootWorld v d₂)) d₂ =
    runCalls v (driveCalls (first ++ put :: rest)
      (bootWorld v d) ++
        (cycleCalls v middle w₁.kernel.disk ++ driveCalls last (bootWorld v d₂))) d := by
    rw [Fat.runCalls_append, Fat.runCalls_append, ← hdisk, hd₂]
  rw [hrun, hcalls]
  rw [hcalls] at hregular
  refine Fat.store_of_last W (Fat.along_of_forall hregular) (hok hempty) fun c hc => ?_
  rcases List.mem_append.mp hc with hc | hc
  · exact hrest c hc
  · exact hlater c hc

/-- A boot that writes `/d/a`, one that cannot remove `/d`, one that looks. -/
theorem file_survives_threeBoots :
    ∃ outs answer outs' between seen printed d',
      powerCycles
          (([(0, text "mkdir /d")] ++ (1, text "write /d/a hi") :: [(2, text "touch /tmp/x")]) ::
            ([[(0, text "rm /d")]] ++ [[] ++ [(0, text "cat /d/a")]])) (Fat.blankDisk 20) =
        .ok ((outs ++ answer :: outs') :: (between ++ [seen ++ [printed]]), d') ∧
      outs.length = 1 ∧ between.length = 1 ∧ seen.length = 0 ∧
      (answer = [] → printed = joinSpace [text "hi"] ++ [newlineByte]) := by
  have htyped : ∀ lines ∈ [[(0, text "mkdir /d"), (1, text "write /d/a hi"),
      (2, text "touch /tmp/x")], [(0, text "rm /d")], [(0, text "cat /d/a")]], ∀ x ∈ lines,
      x.2.length ≤ 120 ∧ ∀ b ∈ x.2, 32 ≤ b ∧ b ≤ 126 := by
    decide +kernel
  have hkept : ∀ c ∈ cycleCalls Fat.smallVolume
      (([(0, text "mkdir /d")] ++ (1, text "write /d/a hi") :: [(2, text "touch /tmp/x")]) ::
        ([[(0, text "rm /d")]] ++ [[] ++ [(0, text "cat /d/a")]])) (Fat.blankDisk 20),
      ∀ name ∈ c.path.getLast?, Kept name := by
    decide +kernel
  exact file_survives (Fat.blankDisk_wellFormed (show 4 ≤ 20 by decide))
    (fun lines hl x hx => ⟨(htyped lines hl x hx).1, (htyped lines hl x hx).2⟩)
    (fun c hc _ name hname => hkept c hc name hname)
    (show ∀ s ∈ [[100], [97]], Component s by decide) (by decide +kernel) (by decide +kernel)
    (show tokens (text "cat /d/a") = text "cat" :: render [[100], [97]] :: [] by decide +kernel)
    (by decide +kernel) (by decide +kernel)

end Willo.ShellCore
