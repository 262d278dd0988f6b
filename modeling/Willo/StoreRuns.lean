import Willo.StoreMachine
import Willo.VolumeReboots

/-! The FAT volume refines the store machine over whole runs and boots. A regular call
on a well-formed volume is carried out, refused or starved, as the machine says; so what
one path holds in the end is what the last call on it left there. -/

namespace Willo.Fat
open Text Paths ByteCodec BlockDevice FaultState LinkedChain RootedGraph TreeStore

section Starving

variable {v : FatFs} {w w₁ w' : View} {ps q : List Str} {name : Str} {dir : Nat}
    {op : Mutation UInt8}

theorem Cleared.store_eq (S : Sound v w) (U : UniqueNames v w) (hdir : parentDir v w ps = some dir)
    (hperm : Permitted v w (findIn v w dir name) op) (C : Cleared v w dir (findIn v w dir name) w₁)
    (h : Spares w₁ w') : store v w' = overwrite lower (store v w) (ps ++ [name]) none := by
  funext q
  have hr := parentDir_reach hdir
  have S₁ := C.sturdy S.toSturdy
  have hr₁ := C.reach S.toSturdy hr
  have F : Confined v w w' dir name := C.confined_trans S U hr (h.confined S₁ hr₁ name)
  have hdir' := F.toFramed.parentDir_eq S.toSturdy hdir
  have hnone : findIn v w' dir name = none := by
    rw [findIn, S₁.entriesIn_spares h hr₁]
    exact C.findIn_self S.toSturdy U
  have hself : store v w' (ps ++ [name]) = none := by
    rw [store_snoc hdir', hnone, Option.map_none]
  unfold overwrite
  split_ifs with heq
  · rw [← store_fold, show fold q = fold (ps ++ [name]) from heq, store_fold, hself]
  · by_cases hq : fold (ps ++ [name]) <+: fold q
    · have hbelow : ∀ n, parentDir v w' (ps ++ [name]) = some n → ∀ s, findIn v w' n s = none := by
        intro n hn
        rw [parentDir_snoc, hdir', Option.bind_some, hnone] at hn
        cases hn
      rw [store_below hbelow hq heq, store_below (hperm.nothing_below hdir) hq heq]
    · exact F.store_eq S.toSturdy hdir hq

/-- Each way a call ends is one of the machine's. -/
theorem Effect.outcome {r : Except Fault Unit} (S : Sound v w) (U : UniqueNames v w)
    (hn : Component name) (E : Effect v w ps name op r w') (hkept : op ≠ .remove → Kept name)
    (hlen : Countable v w (ps ++ [name]) op) :
    Outcome lower (store v w) (ps ++ [name]) op r.isOk (store v w') := by
  have hdone (hr : r = .ok ()) :
    Outcome lower (store v w) (ps ++ [name]) op r.isOk (store v w') := by
    subst hr
    have hstore : store v w' = overwrite lower (store v w) (ps ++ [name])
        (target op (store v w (ps ++ [name]))) := by
      funext q
      rw [E.store_eq S U hn hkept hlen q]
      rfl
    rw [hstore]
    exact .done (ready_iff.mp E.ready)
  cases E with
  | refused hno => exact .refused (mt ready_iff.mpr hno)
  | starved hdir hperm hop _ C hspare _ _ =>
    rw [C.store_eq S U hdir hperm hspare]
    exact .starved (ready_iff.mp ⟨_, hdir, hperm⟩) hop
  | removed => exact hdone rfl
  | stored => exact hdone rfl

end Starving

section Histories

variable {v : FatFs} {d : Disk} {c : Call} {calls : List Call}

theorem perform_outcome (W : WellFormed v d) (R : Regular v d c) :
    Outcome lower (store v (view v d)) c.path c.op (perform v c d).1.isOk
      (store v (view v (perform v c d).2)) := by
  rcases perform_effect W.sound R.names with ⟨hnil, ⟨err, herr⟩, hsame⟩ | ⟨ps, name, hpath, hn, E⟩
  · rw [herr, hsame]
    exact .refused fun h => h.1 hnil
  · have hlen := R.countable
    rw [hpath] at hlen ⊢
    exact E.outcome W.sound W.names hn (R.kept_last hpath) hlen

def reports (v : FatFs) : List Call → Disk → List Bool
  | [], _ => []
  | c :: calls, d => (perform v c d).1.isOk :: reports v calls (perform v c d).2

def Call.request (c : Call) : List Str × Mutation UInt8 := (c.path, c.op)

theorem runCalls_refines (W : WellFormed v d) (h : Along v (Regular v) calls d) :
    History lower (store v (view v d)) (calls.map Call.request) (reports v calls d)
      (store v (view v (runCalls v calls d))) := by
  induction calls generalizing d with
  | nil => exact .nil
  | cons c calls ih => exact .cons (perform_outcome W h.1) (ih (perform_wellFormed W h.1) h.2)

/-- Two boots: a directory and a file in it, then a removal that fails and another file. -/
def twinRuns : List (List Call) := [[⟨[[100]], .createDir⟩, ⟨[[100], [97]], .writeFile [1, 2]⟩],
  [⟨[[100]], .remove⟩, ⟨[[98]], .writeFile [3]⟩]]

theorem twinRuns_regular (d : Disk) : Along twinVolume (Regular twinVolume) twinRuns.flatten d := by
  refine along_of_forall fun c hc d => ?_
  have hnames : ∀ c ∈ twinRuns.flatten, ∀ s ∈ c.path, Component s := by decide
  have hkept : ∀ s ∈ [[97], [98], [100]], Kept s := by decide
  simp only [twinRuns, List.flatten_cons, List.flatten_nil, List.append_nil, List.cons_append,
    List.nil_append, List.mem_cons, List.not_mem_nil, or_false] at hc hnames
  rcases hc with rfl | rfl | rfl | rfl
  · exact ⟨hnames _ (by simp),
      fun _ name h => by cases h; exact hkept _ (by simp), fun data h => by cases h⟩
  · exact ⟨hnames _ (by simp),
      fun _ name h => by cases h; exact hkept _ (by simp), fun data h => by cases h; decide⟩
  · exact ⟨hnames _ (by simp), fun h => absurd rfl h, fun data h => by cases h⟩
  · exact ⟨hnames _ (by simp),
      fun _ name h => by cases h; exact hkept _ (by simp), fun data h => by cases h; decide⟩

/-- Whatever the boots are, the volume they leave is that of a run of the machine. -/
theorem boots_refine (W : WellFormed v d) {runs : List (List Call)}
    (h : Along v (Regular v) runs.flatten d) :
    ∃ d', boots runs d = .ok d' ∧ WellFormed v d' ∧
      History lower (store v (view v d)) (runs.flatten.map Call.request) (reports v runs.flatten d)
        (store v (view v d')) := by
  obtain ⟨hboots, W'⟩ := boots_eq_runCalls W h
  exact ⟨_, hboots, W', runCalls_refines W h⟩

theorem boots_refine_twinDisk :
    ∃ d', boots twinRuns twinDisk = .ok d' ∧ WellFormed twinVolume d' ∧
      History lower (store twinVolume (view twinVolume twinDisk))
      (twinRuns.flatten.map Call.request)
        (reports twinVolume twinRuns.flatten twinDisk) (store twinVolume (view twinVolume d')) :=
  boots_refine twinDisk_wellFormed (twinRuns_regular twinDisk)

theorem store_of_last (W : WellFormed v d) {before after : List Call}
    (h : Along v (Regular v) (before ++ c :: after) d)
    (hok : (perform v c (runCalls v before d)).1 = .ok ())
    (hafter : ∀ c' ∈ after, fold c.path ≠ fold c'.path) :
    store v (view v (runCalls v (before ++ c :: after) d)) c.path =
      target c.op (store v (view v (runCalls v before d)) c.path) := by
  rw [Along.append] at h
  obtain ⟨hbefore, hc, hrest⟩ := h
  have W₁ := runCalls_wellFormed W hbefore
  have hstep := perform_outcome W₁ hc
  rw [hok] at hstep
  have hrun := runCalls_refines (perform_wellFormed W₁ hc) hrest
  have hframe := hrun.frame (q := c.path) fun c' hc' => by
    obtain ⟨c', hmem, rfl⟩ := List.mem_map.mp hc'
    exact hafter c' hmem
  rw [runCalls_append]
  exact hframe.trans hstep.of_ok

/-- A file once written is read back after any number of boots, in any spelling, as long
as no later call names it: failing calls, full volumes and removals elsewhere included. -/
theorem written_stays (W : WellFormed v d) {runs : List (List Call)} {before after : List Call}
    {p : List Str} {data : Bytes} (hruns : runs.flatten = before ++ ⟨p, .writeFile data⟩ :: after)
    (h : Along v (Regular v) runs.flatten d)
    (hok : (perform v ⟨p, .writeFile data⟩ (runCalls v before d)).1 = .ok ())
    (hafter : ∀ c ∈ after, fold p ≠ fold c.path) :
    ∃ d', boots runs d = .ok d' ∧ ∀ q, (∀ s ∈ q, Component s) → fold q = fold p →
      answer (readFile v (render q)) d' = .ok data := by
  obtain ⟨hboots, W'⟩ := boots_eq_runCalls W h
  refine ⟨_, hboots, fun q hq hfold => ?_⟩
  rw [answer_readFile W'.sound.toSturdy, outcome_eq_ok, fileAt_store hq, ← store_fold, hfold,
    store_fold]
  rw [hruns] at h ⊢
  exact store_of_last W h hok hafter

theorem written_stays_twinDisk :
    ∃ d', boots twinRuns twinDisk = .ok d' ∧ ∀ q, (∀ s ∈ q, Component s) → fold q = fold
    [[100], [97]] →
      answer (readFile twinVolume (render q)) d' = .ok [1, 2] :=
  written_stays twinDisk_wellFormed (show twinRuns.flatten = [⟨[[100]], .createDir⟩] ++
      ⟨[[100], [97]], .writeFile [1, 2]⟩ :: [⟨[[100]], .remove⟩, ⟨[[98]], .writeFile [3]⟩] from rfl)
    (twinRuns_regular twinDisk) (by decide +kernel) (by decide)

theorem store_folds (w : View) : Folds lower (store v w) := by
  intro p q h
  rw [← store_fold p, ← store_fold q, fold, h, fold]

/-- A file that calls only append to, all of them with success, is read back as what it was at
first and then their data in order, over any number of boots and in any spelling. Calls on
other paths come in between, and may fail. -/
theorem appends_accumulate (W : WellFormed v d) {runs : List (List Call)} {p : List Str}
    {old : Bytes} (hp : ∀ s ∈ p, Component s) (h : Along v (Regular v) runs.flatten d)
    (hold : answer (readFile v (render p)) d = .ok old)
    (hcalls : ∀ c ∈ (runs.flatten.map Call.request).zip (reports v runs.flatten d),
      Appends lower p c) :
    ∃ d', boots runs d = .ok d' ∧ ∀ q, (∀ s ∈ q, Component s) → fold q = fold p →
      answer (readFile v (render q)) d' =
      .ok (old ++ appended lower p (runs.flatten.map Call.request)) := by
  obtain ⟨d', hboots, W', hrun⟩ := boots_refine W h
  rw [answer_readFile W.sound.toSturdy, outcome_eq_ok, fileAt_store hp] at hold
  refine ⟨d', hboots, fun q hq hfold => ?_⟩
  rw [answer_readFile W'.sound.toSturdy, outcome_eq_ok, fileAt_store hq, ← store_fold, hfold,
    store_fold]
  exact hrun.appended (store_folds _) hold hcalls

def logDisk : Disk := (perform twinVolume ⟨[[97]], .writeFile [1]⟩ twinDisk).2

/-- An append in capitals, and in the next boot two calls elsewhere, of which the first fails. -/
def logRuns : List (List Call) :=
  [[⟨[[65]], .appendFile [2, 3]⟩], [⟨[[98]], .remove⟩, ⟨[[98]], .createDir⟩]]

theorem logDisk_wellFormed : WellFormed twinVolume logDisk := by
  have hkept : Kept [97] := by decide
  exact perform_wellFormed twinDisk_wellFormed
    ⟨by decide, fun _ name h => by cases h; exact hkept, fun data h => by cases h; decide⟩

theorem logRuns_regular : Along twinVolume (Regular twinVolume) logRuns.flatten logDisk := by
  have hlog : answer (readFile twinVolume (render [[65]])) logDisk = .ok [1] := by decide +kernel
  rw [answer_readFile logDisk_wellFormed.sound.toSturdy, outcome_eq_ok,
    fileAt_store (by decide)] at hlog
  have hkept : ∀ s ∈ [[65], [98]], Kept s := by decide
  refine ⟨⟨by decide, fun _ name h => by cases h; exact hkept _ (by simp), fun data h => ?_⟩,
    ⟨by decide, fun h => absurd rfl h, fun data h => by cases h⟩,
    ⟨by decide, fun _ name h => by cases h; exact hkept _ (by simp), fun data h => by cases h⟩,
      trivial⟩
  rw [hlog] at h
  cases h
  decide

theorem appends_accumulate_logDisk :
    ∃ d', boots logRuns logDisk = .ok d' ∧ ∀ q, (∀ s ∈ q, Component s) → fold q = fold [[97]] →
      answer (readFile twinVolume (render q)) d' = .ok [1, 2, 3] := by
  refine @appends_accumulate _ _ logDisk_wellFormed _ [[97]] [1] (by decide) logRuns_regular
    (by decide +kernel) ?_
  have hreports : reports twinVolume logRuns.flatten logDisk = [true, false, true] := by
    decide +kernel
  rw [hreports]
  have helse : List.map lower [[98]] ≠ List.map lower [[97]] := by decide
  exact List.forall_mem_cons.mpr ⟨fun _ => ⟨⟨_, rfl⟩, rfl⟩,
    List.forall_mem_cons.mpr ⟨fun h => absurd h helse,
    List.forall_mem_singleton.mpr fun h => absurd h helse⟩⟩

end Histories

end Willo.Fat
