import Willo.ClusterAccounts
import Willo.VolumeRuns

/-! What the driver keeps up beside the tree: the copies of the FAT, and the FSInfo
sector with its free count and next-free hint. -/

namespace Willo.Fat
open Text Paths ByteCodec BlockDevice FaultState LinkedChain RootedGraph TreeStore

def releaseNotes (v : FatFs) (w : View) : Option DirEntry → List (Int × Nat)
  | some e => if chainOf v w e.cluster = [] then [] else [((chainOf v w e.cluster).length, 0)]
  | none => []

/-- A call that released the chain of `old` and then took clusters, all of it reported. -/
def Settled (v : FatFs) (d : Disk) (old : Option DirEntry) (d' : Disk) : Prop :=
  ∃ us n, Wrote v (releaseNotes v (view v d) old ++ us) d d' ∧
    Taken v (released v (view v d) old) (view v d') us n

section Parts

variable {v : FatFs} {d d₁ d' : Disk} {dir : Nat} {name : Str} {e : DirEntry} {ps : List Str}

theorem Accounted.settled {old : Option DirEntry}
    (hw : Wrote v (releaseNotes v (view v d) old) d d₁)
    (hfree : freeClusters v (view v d₁) = freeClusters v (released v (view v d) old))
    (h : Accounted v d₁ d') :
    Settled v d old d' := by
  obtain ⟨us, n, hw', ht⟩ := h
  exact ⟨us, n, hw.trans hw', by
    rw [← hfree]; exact ht.room, by rw [← hfree]; exact ht.rest, ht.total, ht.falling,
    ht.hints, by rw [← hfree]; exact ht.hint⟩

theorem freeOld_wrote (S : Sturdy v (view v d)) {i : Nat} (hr : Reach (graph v (view v d)) dir)
    (he : entryAt v (view v d) dir i = some e) :
    Wrote v (releaseNotes v (view v d) (some e)) d (exec (freeOld v e) d).2 := by
  unfold freeOld releaseNotes
  by_cases hge : 2 ≤ e.cluster
  · rw [if_pos hge]
    exact freeChain_wrote S.geometry (S.entries hr he (Or.inr hge)).2
  · have hnone : chainOf v (view v d) e.cluster = [] := chainOf_small (by omega)
    dsimp only
    rw [if_neg hge, if_pos hnone]
    exact .refl v d

theorem cut_leaves (S : Sturdy v (view v d)) (hn : Component name)
    (hr : Reach (graph v (view v d)) dir) (hfind : findIn v (view v d) dir name = some e) :
    Leaves (fun _ => Logged v d) (freeOld v e >>= fun _ => deleteDirEntry v dir name) d
      fun _ d' => Wrote v (releaseNotes v (view v d) (some e)) d d' ∧
        freeClusters v (view v d') = freeClusters v (released v (view v d) (some e)) := by
  obtain ⟨i, -, -, he, -⟩ := find_entry hn hfind
  obtain ⟨d₁, hfreed, hview⟩ := (freeOld_runs S hr he).exec_view
  have hwrote := freeOld_wrote S hr he
  rw [hfreed] at hwrote
  have g₁ : Geometry v d₁.sectors := by
    rw [hwrote.sectors]
    exact S.geometry
  refine .ok_bind hfreed (((deleteDirEntry_behind dir name).leaves g₁).weaken ?_ ?_)
  · intro _ d' h
    exact (hwrote.trans h).logged
  · intro _ d' ⟨h, hfat⟩
    have hall := hwrote.trans h
    rw [List.append_nil] at hall
    refine ⟨hall, (freeClusters_congr hfat).trans ?_⟩
    rw [hview]
    rfl

theorem drop_leaves (S : Sturdy v (view v d)) (hn : Component name)
    (hr : Reach (graph v (view v d)) dir)
    (hf : findIn v (view v d) dir name = some e) (hd : e.isDir = false) :
    Leaves (fun _ => Logged v d) (freeOld v e >>= fun _ => deleteDirEntry v dir name) d
      fun _ d' => Wrote v (releaseNotes v (view v d) (some e)) d d' ∧
        freeClusters v (view v d') = freeClusters v (released v (view v d) (some e)) ∧
        Sturdy v (view v d') ∧ Reach (graph v (view v d')) dir := by
  obtain ⟨w₁, i, hrun, T, hfat⟩ := drop_runs S hn hr hf fun h => by simp [hd] at h
  have C : Cleared v (view v d) dir (some e) w₁ := .dropped hd T hfat (hrun.shown S.shown)
  have hparts := cut_leaves S hn hr hf
  refine .of_exec (fun a d' hexec => ?_) fun f d' hexec => hparts.of_error hexec
  obtain ⟨hwrote, hfree⟩ := hparts.of_ok hexec
  obtain ⟨-, rfl⟩ := hrun.exec_eq hexec
  exact ⟨hwrote, hfree, C.sturdy S, C.reach S hr⟩

theorem findInDir_leaves (S : Sturdy v (view v d)) (hr : Reach (graph v (view v d)) dir)
    {k : Option DirEntry → FatM Unit} {E : Fault → Disk → Prop} {R : Unit → Disk → Prop}
    (hk : Leaves E (k (findIn v (view v d) dir name)) d R) :
    Leaves E (findInDir v dir name >>= k) d R := by
  have hfind := findInDir_runs S hr name
  refine .reads_bind (findInDir_reads v dir name) (fun _ hfail => ?_) fun found hfound => ?_
  · have := (hfind.exec_eq hfail).1
    cases this
  · obtain rfl := Except.ok.inj (hfind.exec_eq hfound).1
    exact hk

theorem discardOld_leaves (S : Sturdy v (view v d)) (hn : Component name)
    (hr : Reach (graph v (view v d)) dir) :
    Leaves (fun _ => Logged v d) (discardOld v dir name) d
      fun _ d' => Wrote v (releaseNotes v (view v d) (findIn v (view v d) dir name)) d d' ∧
        freeClusters v (view v d') =
        freeClusters v (released v (view v d) (findIn v (view v d) dir name)) ∧
        Sturdy v (view v d') ∧ Reach (graph v (view v d')) dir := by
  refine findInDir_leaves S hr ?_
  cases hf : findIn v (view v d) dir name with
  | none => exact .pure ⟨.refl v d, rfl, S, hr⟩
  | some e =>
    refine .ite (fun _ => .throw (Wrote.refl v d).logged) fun hd => ?_
    have hdrop := drop_leaves S hn hr hf (by simpa using hd)
    rwa [freeOld_bind] at hdrop

theorem storeData_leaves (g : Geometry v d.sectors) (data : Bytes) :
    Leaves (fun _ => Logged v d) (storeData v data) d
      fun _ d' => Accounted v d d' ∧ Spares (view v d) (view v d') := by
  have haccount : Leaves (fun _ => Logged v d) (storeData v data) d fun _ => Accounted v d := by
    refine .ite (fun _ => .pure ⟨[], 0, .refl v d, .of_free rfl⟩) fun _ => ?_
    refine ((allocateChain_leaves g _).weaken (fun _ _ h => h.logged) fun _ _ h => h).bind
      fun head d₁ hd₁ => ?_
    obtain ⟨us, hwrote, htaken⟩ := hd₁
    have g₁ : Geometry v d₁.sectors := by rwa [hwrote.sectors]
    refine (((writeChainLoop_behind _ head data).leaves g₁).weaken (fun _ _ h =>
      (hwrote.trans h).logged)
      fun _ _ h => h).bind fun _ d₂ hd₂ => ?_
    obtain ⟨hwrote', hfat⟩ := hd₂
    exact .pure ⟨_, _, hwrote.trans hwrote', htaken.trans (.of_free (freeClusters_congr hfat))⟩
  refine .of_exec (fun a d' hexec => ⟨haccount.of_ok hexec, ?_⟩) fun f d' hexec =>
    haccount.of_error hexec
  by_cases hroom : clustersFor v data.length ≤ usable v (view v d)
  · obtain ⟨cs, w', -, hrun, F, -⟩ := storeData_ok (w := view v d) g hroom
    obtain ⟨-, rfl⟩ := hrun.exec_eq hexec
    exact F.spares
  · obtain ⟨w', hrun, -⟩ := storeData_error (w := view v d) g hroom
    have := (hrun.exec_eq hexec).1
    cases this

theorem hook_leaves (S : Sturdy v (view v d)) (hr : Reach (graph v (view v d)) dir)
    (hsec : d₁.sectors = d.sectors)
    (hfat : ∀ c, (view v d).fat c ≠ 0 → (view v d₁).fat c = (view v d).fat c) (name : Str)
    (attrs : UInt8) (cluster size : Nat) :
    Leaves (fun _ => Logged v d₁) (addDirEntry v dir name attrs cluster size) d₁ fun _ =>
      Accounted v d₁ := by
  have hdir := S.proper hr
  have hchain : Chain v (view v d₁) dir (chainOf v (view v d) dir) :=
    hdir.2.congr fun x hx => hfat x (hdir.fat_ne_zero hx)
  exact addDirEntryLoop_leaves (hsec ▸ S.geometry) hdir.1 hchain _ _

end Parts

/-! Whole calls. -/

def oldAt (v : FatFs) (w : View) (ps : List Str) (name : Str) : Option DirEntry :=
  (parentDir v w ps).bind fun dir => findIn v w dir name

section Calls

variable {v : FatFs} {d : Disk} {dir : Nat} {name : Str} {ps : List Str}

theorem oldAt_eq (h : parentDir v (view v d) ps = some dir) :
    oldAt v (view v d) ps name = findIn v (view v d) dir name := by
  rw [oldAt, h, Option.bind_some]

theorem openParent_leaves (S : Sturdy v (view v d)) (hps : ∀ s ∈ ps, Component s)
    (hn : Component name) {k : Str × Nat × Str → FatM Unit} {E : Fault → Disk → Prop}
    {R : Unit → Disk → Prop} (hno : E (.err .notADir) d)
    (hk : ∀ dir, parentDir v (view v d) ps = some dir → Reach (graph v (view v d)) dir →
      Leaves E (k (render ps, dir, name)) d R) :
    Leaves E (openParent v (render (ps ++ [name])) >>= k) d R := by
  cases hdir : parentDir v (view v d) ps with
  | none =>
    have hopen := openParent_none S hps hn hdir
    refine .reads_bind (openParent_reads v _) (fun f hfail => ?_) fun parent hok => ?_
    · obtain rfl := Except.error.inj (hopen.exec_eq hfail).1
      exact hno
    · have := (hopen.exec_eq hok).1
      cases this
  | some dir =>
    have hopen := openParent_some S hps hn hdir
    refine .reads_bind (openParent_reads v _) (fun f hfail => ?_) fun parent hok => ?_
    · have := (hopen.exec_eq hfail).1
      cases this
    · obtain rfl := Except.ok.inj (hopen.exec_eq hok).1
      exact hk dir hdir (parentDir_reach hdir)

theorem writeFile_leaves (S : Sturdy v (view v d)) (hps : ∀ s ∈ ps, Component s)
    (hn : Component name) (data : Bytes) :
    Leaves (fun _ => Logged v d) (writeFile v (render (ps ++ [name])) data) d
      fun _ => Settled v d (oldAt v (view v d) ps name) := by
  refine openParent_leaves S hps hn (Wrote.refl v d).logged fun dir hdir hr => ?_
  rw [oldAt_eq hdir]
  refine (discardOld_leaves S hn hr).bind fun _ d₁ hd₁ => ?_
  obtain ⟨hwrote, hfree, S₁, hr₁⟩ := hd₁
  refine ((storeData_leaves S₁.geometry data).weaken (fun _ _ => Logged.after hwrote)
    fun _ _ h => h).bind
    fun first d₂ hd₂ => ?_
  obtain ⟨hstored, hspare⟩ := hd₂
  obtain ⟨us, n, hwrote₂, htaken⟩ := hstored
  refine (hook_leaves S₁ hr₁ hspare.sectors hspare.fat name _ _ _).weaken (fun _ _ =>
    Logged.after (hwrote.trans hwrote₂)) ?_
  intro _ d₃ h₃
  exact (Accounted.trans ⟨us, n, hwrote₂, htaken⟩ h₃).settled hwrote hfree

theorem truncateFile_leaves (S : Sturdy v (view v d)) (hn : Component name)
    (hr : Reach (graph v (view v d)) dir) :
    Leaves (fun _ => Logged v d) (truncateFile v dir name) d
      fun _ => Settled v d (findIn v (view v d) dir name) := by
  have hstill := (Wrote.refl v d).logged
  refine findInDir_leaves S hr ?_
  cases hf : findIn v (view v d) dir name with
  | none => exact .throw hstill
  | some e =>
    refine .ite (fun _ => .throw hstill) fun hd => ?_
    have hall : Leaves (fun _ => Logged v d)
        (do (do freeOld v e; deleteDirEntry v dir name); addDirEntry v dir name 0x20 0 0) d
        fun _ => Settled v d (some e) := by
      refine (drop_leaves S hn hr hf (by simpa using hd)).bind fun _ d₁ hd₁ => ?_
      obtain ⟨hwrote, hfree, S₁, hr₁⟩ := hd₁
      refine (hook_leaves S₁ hr₁ rfl (fun _ _ => rfl) name _ _ _).weaken (fun _ _ =>
        Logged.after hwrote) ?_
      intro _ d₂ h₂
      exact h₂.settled hwrote hfree
    rwa [bind_assoc, freeOld_bind] at hall

theorem createFile_leaves (S : Sturdy v (view v d)) (hps : ∀ s ∈ ps, Component s)
    (hn : Component name) :
    Leaves (fun _ => Logged v d) (createFile v (render (ps ++ [name]))) d
      fun _ => Settled v d (oldAt v (view v d) ps name) := by
  refine openParent_leaves S hps hn (Wrote.refl v d).logged fun dir hdir hr => ?_
  rw [oldAt_eq hdir]
  refine findInDir_leaves S hr ?_
  have htruncate := truncateFile_leaves S hn hr
  cases hf : findIn v (view v d) dir name with
  | some e =>
    rw [hf] at htruncate
    exact htruncate
  | none =>
    refine (hook_leaves S hr rfl (fun _ _ => rfl) name _ _ _).weaken (fun _ _ h => h)
      fun _ _ h => ?_
    exact h.settled (.refl v d) rfl

theorem appendFile_leaves (S : Sturdy v (view v d)) (hps : ∀ s ∈ ps, Component s)
    (hn : Component name) (data : Bytes) :
    Leaves (fun _ => Logged v d) (appendFile v (render (ps ++ [name])) data) d
      fun _ => Settled v d (oldAt v (view v d) ps name) := by
  have hstill := (Wrote.refl v d).logged
  refine .reads_bind (Reads.attempt (readFile_reads v _)) (fun _ _ => hstill) fun found _ => ?_
  cases found with
  | ok existing => exact writeFile_leaves S hps hn _
  | error e =>
    cases e with
    | notFound => exact writeFile_leaves S hps hn _
    | _ => exact .throw hstill

theorem createDir_leaves (S : Sturdy v (view v d)) (hps : ∀ s ∈ ps, Component s)
    (hn : Component name) :
    Leaves (fun _ => Logged v d) (createDir v (render (ps ++ [name]))) d
      fun _ => Settled v d (oldAt v (view v d) ps name) := by
  refine openParent_leaves S hps hn (Wrote.refl v d).logged fun dir hdir hr => ?_
  rw [oldAt_eq hdir]
  refine findInDir_leaves S hr ?_
  cases hf : findIn v (view v d) dir name with
  | some e => exact .throw (Wrote.refl v d).logged
  | none =>
    have halloc : Leaves (fun _ => Logged v d) (allocateChain v 1) d
        fun _ d₁ => Accounted v d d₁ ∧ Spares (view v d) (view v d₁) := by
      have hparts := (allocateChain_leaves S.geometry 1).weaken (F := fun _ => Logged v d)
        (fun _ _ h => h.logged) fun _ _ h => h
      refine .of_exec (fun a d₁ hexec => ?_) fun f d₁ hexec => hparts.of_error hexec
      obtain ⟨us, hwrote, htaken⟩ := hparts.of_ok hexec
      refine ⟨⟨us, 1, hwrote, htaken⟩, ?_⟩
      by_cases hroom : 1 ≤ usable v (view v d)
      · obtain ⟨cs, w', -, hrun, F, -⟩ := allocateChain_ok S.geometry hroom
        obtain ⟨-, rfl⟩ := hrun.exec_eq hexec
        exact F.spares
      · obtain ⟨w', hrun, -⟩ := allocateChain_error S.geometry hroom
        have := (hrun.exec_eq hexec).1
        cases this
    refine halloc.bind fun cluster d₁ hd₁ => ?_
    obtain ⟨⟨us, n, hwrote, htaken⟩, hspare⟩ := hd₁
    have g₁ : Geometry v d₁.sectors := by
      rw [hwrote.sectors]
      exact S.geometry
    refine (((writeCluster_behind cluster _).leaves g₁).weaken (fun _ _ h =>
      (hwrote.trans h).logged)
      fun _ _ h => h).bind fun _ d₂ hd₂ => ?_
    obtain ⟨hwrote₂, hfat₂⟩ := hd₂
    have hsofar := hwrote.trans hwrote₂
    refine (hook_leaves S hr hsofar.sectors (fun c hc => by rw [hfat₂, hspare.fat c hc])
      name _ _ _).weaken
      (fun _ _ => Logged.after hsofar) fun _ d₃ h₃ => ?_
    have htaken₂ := htaken.trans (.of_free (freeClusters_congr hfat₂))
    exact (Accounted.trans ⟨_, _, hsofar, htaken₂⟩ h₃).settled (.refl v d) rfl

theorem remove_leaves (S : Sturdy v (view v d)) (hps : ∀ s ∈ ps, Component s)
    (hn : Component name) :
    Leaves (fun _ => Logged v d) (remove v (render (ps ++ [name]))) d
      fun _ => Settled v d (oldAt v (view v d) ps name) := by
  have hstill := (Wrote.refl v d).logged
  unfold remove
  rw [splitParent_render hn, pure_bind]
  refine .reads_bind (clusterFor_reads v _) (fun _ _ => hstill) fun parent hparent => ?_
  cases hdir : parentDir v (view v d) ps with
  | none =>
    obtain ⟨err, hrun⟩ := clusterFor_none S hps hdir
    have := (hrun.exec_eq hparent).1
    cases this
  | some dir =>
    obtain rfl := Except.ok.inj ((clusterFor_some S hps hdir).exec_eq hparent).1
    have hr := parentDir_reach hdir
    rw [oldAt_eq hdir]
    refine findInDir_leaves S hr ?_
    cases hf : findIn v (view v d) parent name with
    | none => exact .throw hstill
    | some e =>
      have hcut : Leaves (fun _ => Logged v d) (freeOld v e >>= fun _ =>
        deleteDirEntry v parent name) d
          fun _ => Settled v d (some e) := by
        refine (cut_leaves S hn hr hf).weaken (fun _ _ h => h) fun _ d₁ ⟨hwrote, hfree⟩ => ?_
        exact Accounted.settled hwrote hfree ⟨[], 0, .refl v d₁, .of_free rfl⟩
      rw [freeOld_bind] at hcut
      dsimp only
      refine .ite (fun hd => ?_) fun _ => hcut
      refine .reads_bind (readDir_reads v e.cluster) (fun _ _ => hstill) fun kids _ => ?_
      exact .ite (fun _ => .throw hstill) fun _ => hcut

/-- A call writes only what it may, however it ends, and reports what it took and gave back
when it succeeds. -/
theorem apply_leaves (S : Sturdy v (view v d)) (hps : ∀ s ∈ ps, Component s) (hn : Component name)
    (op : Mutation UInt8) :
    Leaves (fun _ => Logged v d) (apply v (render (ps ++ [name])) op) d
      fun _ => Settled v d (oldAt v (view v d) ps name) := by
  cases op with
  | createFile => exact createFile_leaves S hps hn
  | writeFile data => exact writeFile_leaves S hps hn data
  | appendFile data => exact appendFile_leaves S hps hn data
  | createDir => exact createDir_leaves S hps hn
  | remove => exact remove_leaves S hps hn

theorem apply_root_reads (v : FatFs) (op : Mutation UInt8) : Reads (apply v (render []) op) := by
  have hsplit : Reads (splitParent (render [])) := splitParent_reads _
  have hopen : openParent v (render []) = throw (.err .io) := by
    rw [openParent, splitParent_root]
    rfl
  have hopened (k : Str × Nat × Str → FatM Unit) : Reads (openParent v (render []) >>= k) := by
    rw [hopen]
    exact Reads.throw _
  cases op with
  | createFile => exact hopened _
  | writeFile data => exact hopened _
  | createDir => exact hopened _
  | remove =>
    change Reads (remove v (render []))
    rw [remove, splitParent_root]
    exact Reads.throw _
  | appendFile data =>
    have hread : attempt (readFile v (render [])) = pure (.error .isADir) := rfl
    change Reads (appendFile v (render []) data)
    rw [appendFile, hread, pure_bind]
    exact Reads.throw _

/-- The chains stay in order even where a removed directory still held entries behind its end. -/
theorem apply_sturdy (S : Sturdy v (view v d)) (hps : ∀ s ∈ ps, Component s) (hn : Component name)
    (op : Mutation UInt8) : Sturdy v (view v (exec (apply v (render (ps ++ [name])) op) d).2) := by
  have hstored : ∀ {x : FatM Unit},
    (∃ r w', Runs v x (view v d) r w' ∧ Effect v (view v d) ps name op r w') →
      Sturdy v (view v (exec x d).2) := by
    rintro x ⟨r, w', hrun, E⟩
    obtain ⟨d', hexec, rfl⟩ := hrun.exec_view
    rw [hexec]
    exact E.sturdy S
  cases op with
  | createFile => exact hstored (createFile_effect S hps hn)
  | writeFile data => exact hstored (writeFile_call S hps hn data)
  | appendFile data => exact hstored (appendFile_call S hps hn data)
  | createDir => exact hstored (createDir_call S hps hn)
  | remove =>
    obtain ⟨r, w', hrun, hcase⟩ := remove_runs S hps hn
    have hshown := hrun.shown S.shown
    obtain ⟨d', hexec, rfl⟩ := hrun.exec_view
    change Sturdy v (view v (exec (remove v (render (ps ++ [name]))) d).2)
    rw [hexec]
    rcases hcase with ⟨-, -, hsame⟩ | ⟨dir, i, e, -, -, -, -, T, -⟩
    · rwa [hsame]
    · exact T.sturdy S hshown

end Calls

/-! The copies over whole runs. -/

section Runs

variable {v : FatFs} {d : Disk} {c : Call}

theorem perform_upkeep (S : Sturdy v (view v d)) (hc : ∀ s ∈ c.path, Component s) :
    Sturdy v (view v (perform v c d).2) ∧ Logged v d (perform v c d).2 := by
  unfold perform
  rcases List.eq_nil_or_concat c.path with hnil | ⟨ps, name, hpath⟩
  · rw [hnil, apply_root_reads v c.op d]
    exact ⟨S, (Wrote.refl v d).logged⟩
  · rw [List.concat_eq_append] at hpath
    have hn : Component name := hc name (by simp [hpath])
    have hps : ∀ s ∈ ps, Component s := fun s hs => hc s (by simp [hpath, hs])
    rw [hpath]
    refine ⟨apply_sturdy S hps hn c.op, ?_⟩
    refine ((apply_leaves S hps hn c.op).weaken (fun _ _ h => h) fun _ d' h => ?_).state
    obtain ⟨us, n, hwrote, -⟩ := h
    exact hwrote.logged

theorem runCalls_upkeep (S : Sturdy v (view v d)) {calls : List Call}
    (hshort : ∀ c ∈ calls, ∀ s ∈ c.path, ShortName s) : Logged v d (runCalls v calls d) := by
  have hrun : Along v (fun _ c => ∀ s ∈ c.path, Component s) calls d :=
    along_of_forall fun c hc _ => ShortName.components (hshort c hc)
  refine (runCalls_invariant (I := fun d' => Sturdy v (view v d') ∧ Logged v d d') ?_ hrun
    ⟨S, (Wrote.refl v d).logged⟩).2
  intro d₁ c ⟨S₁, hlog⟩ hc
  obtain ⟨S₂, hstep⟩ := perform_upkeep S₁ hc
  obtain ⟨us, hwrote⟩ := hlog
  exact ⟨S₂, .after hwrote hstep⟩

end Runs

/-- After every run of calls on 8.3 paths, whatever they return, the copies of the FAT agree,
the top bits of their entries are the first ones, and in front of them only the FSInfo
sector may have changed. -/
theorem runCalls_mirrored {v : FatFs} {d : Disk} (W : WellFormed v d) {calls : List Call}
    (hshort : ∀ c ∈ calls, ∀ s ∈ c.path, ShortName s) :
    Mirrored v (runCalls v calls d) ∧
      (∀ i < v.numFats, ∀ c < clusterCount v,
      topBits v (runCalls v calls d) i c = topBits v d i c) ∧
      ∀ n < v.reservedSectors, n ≠ 1 → (runCalls v calls d).block n = d.block n := by
  obtain ⟨us, hwrote⟩ := runCalls_upkeep W.sound.toSturdy hshort
  have hstart : v.fatStartLba = v.reservedSectors := W.geometry.fatStart
  exact ⟨hwrote.mirrored W.copies, hwrote.top, fun n hn => hwrote.reserved n (by omega)⟩

/-- A volume with two copies of its FAT, the root at cluster 2. -/
def twinVolume : FatFs := ⟨512, 1, 2, 2, 1, 2, 2, 4⟩

/-- Its disk, empty but for a FSInfo sector that knows of 125 free clusters. -/
def twinDisk : Disk where
  sectors := 20
  block
    | 0 => sector (List.replicate 0x0B 0 ++ [0, 2, 1, 2, 0, 2] ++
      List.replicate 0x13 0 ++ toLe32 1 ++
        List.replicate 4 0 ++ toLe32 2)
    | 1 => sector (toLe32 0x41615252 ++ List.replicate 480 0 ++ toLe32 0x61417272 ++
      toLe32 125 ++ toLe32 3)
    | 2 | 3 => sector (toLe32 0x0FFFFFF8 ++ toLe32 0xFFFFFFFF ++ toLe32 0xAFFFFFFF)
    | _ => sector []

theorem twinDisk_layout : Layout twinVolume twinDisk where
  mounted := by decide +kernel
  rootCluster := by decide
  reserved := by decide
  clusters := by decide
  lbas c hc := by
    have h : 2 ≤ c ∧ c < 128 := hc
    change 4 + (c - 2) * 1 + 1 ≤ 2 ^ 32
    omega
  fats := by decide

theorem twinDisk_wellFormed : WellFormed twinVolume twinDisk := by
  have hflat : Flat twinVolume (view twinVolume twinDisk) :=
    ⟨by
      decide, by
        decide +kernel, by decide +kernel, by decide +kernel, by unfold ZeroTail; decide +kernel⟩
  refine hflat.wellFormed twinDisk_layout ?_ (by decide +kernel)
  intro i hi n hn
  obtain rfl : n = 0 := Nat.lt_one_iff.mp hn
  rcases Nat.le_one_iff_eq_zero_or_eq_one.mp (Nat.le_of_lt_succ hi) with rfl | rfl
  · rfl
  · rfl

/-- A new directory, a file in it, a removal that fails and a name that begins with the end
marker, with both copies checked. -/
theorem runCalls_mirrored_twinDisk :
    Mirrored twinVolume (runCalls twinVolume [⟨[[100]], .createDir⟩,
      ⟨[[100], [97]], .writeFile [1, 2]⟩,
      ⟨[[100]], .remove⟩, ⟨[[0x00]], .createFile⟩] twinDisk) := by
  refine (runCalls_mirrored twinDisk_wellFormed ?_).1
  have ha : ShortName [97] := .singleton (by decide)
  have hd : ShortName [100] := .singleton (by decide)
  have hmark : ShortName [0x00] := .singleton (by decide)
  simp [ha, hd, hmark]

end Willo.Fat
