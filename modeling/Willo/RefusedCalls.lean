import Willo.VolumeUpkeep

/-! Calls that the driver refuses. Every check comes before the first write: on a
well-formed volume, a call that does not get past its checks has only read. What
makes this more than a look at the source is `remove` and the overwriting calls,
which free the chain of an entry and then search the directory for it again. -/

namespace Willo.Fat
open Text Paths ByteCodec BlockDevice FaultState LinkedChain RootedGraph TreeStore

section Refusing

variable {v : FatFs} {d : Disk} {dir : Nat} {name : Str} {ps : List Str} {op : Mutation UInt8}

theorem exists_dir_of_not_files {found : Option DirEntry}
    (h : ¬∀ e, found = some e → e.isDir = false) :
    ∃ e, found = some e ∧ e.isDir = true := by
  simpa using h

theorem discardOld_still (S : Sturdy v (view v d)) (hr : Reach (graph v (view v d)) dir)
    (hno : ¬∀ e, findIn v (view v d) dir name = some e → e.isDir = false) :
    Leaves (fun _ d' => d' = d) (discardOld v dir name) d fun _ _ => False := by
  refine findInDir_leaves S hr ?_
  obtain ⟨e, hf, hd⟩ := exists_dir_of_not_files hno
  rw [hf]
  exact .ite (fun _ => .throw rfl) fun hfile => absurd hd hfile

theorem writeFile_still (S : Sturdy v (view v d)) (hps : ∀ s ∈ ps, Component s)
    (hn : Component name) (data : Bytes) (hno : ¬Ready v (view v d) ps name (.writeFile data)) :
    Leaves (fun _ d' => d' = d) (writeFile v (render (ps ++ [name])) data) d
      fun _ d' => d' = d := by
  refine openParent_leaves S hps hn rfl fun dir hdir hr => ?_
  rw [ready_dir hdir] at hno
  exact (discardOld_still S hr hno).bind fun _ _ h => h.elim

theorem createFile_still (S : Sturdy v (view v d)) (hps : ∀ s ∈ ps, Component s)
    (hn : Component name) (hno : ¬Ready v (view v d) ps name .createFile) :
    Leaves (fun _ d' => d' = d) (createFile v (render (ps ++ [name]))) d fun _ d' => d' = d := by
  refine openParent_leaves S hps hn rfl fun dir hdir hr => ?_
  rw [ready_dir hdir] at hno
  obtain ⟨e, hf, hd⟩ := exists_dir_of_not_files hno
  refine findInDir_leaves S hr ?_
  rw [hf]
  refine findInDir_leaves S hr ?_
  rw [hf]
  exact .ite (fun _ => .throw rfl) fun hfile => absurd hd hfile

theorem appendFile_still (S : Sturdy v (view v d)) (hps : ∀ s ∈ ps, Component s)
    (hn : Component name) (data : Bytes) (hno : ¬Ready v (view v d) ps name (.appendFile data)) :
    Leaves (fun _ d' => d' = d) (appendFile v (render (ps ++ [name])) data) d
      fun _ d' => d' = d := by
  refine .reads_bind (Reads.attempt (readFile_reads v _)) (fun _ _ => rfl) fun found _ => ?_
  cases found with
  | ok existing => exact writeFile_still S hps hn _ hno
  | error e =>
    cases e with
    | notFound => exact writeFile_still S hps hn _ hno
    | _ => exact .throw rfl

theorem createDir_still (S : Sturdy v (view v d)) (hps : ∀ s ∈ ps, Component s)
    (hn : Component name) (hno : ¬Ready v (view v d) ps name .createDir) :
    Leaves (fun _ d' => d' = d) (createDir v (render (ps ++ [name]))) d fun _ d' => d' = d := by
  refine openParent_leaves S hps hn rfl fun dir hdir hr => ?_
  rw [ready_dir hdir] at hno
  refine findInDir_leaves S hr ?_
  cases hf : findIn v (view v d) dir name with
  | none => exact absurd hf hno
  | some e => exact .throw rfl

theorem remove_still (S : Sturdy v (view v d)) (hps : ∀ s ∈ ps, Component s) (hn : Component name)
    (hno : ¬Ready v (view v d) ps name .remove) :
    Leaves (fun _ d' => d' = d) (remove v (render (ps ++ [name]))) d fun _ d' => d' = d := by
  unfold remove
  rw [splitParent_render hn, pure_bind]
  refine .reads_bind (clusterFor_reads v _) (fun _ _ => rfl) fun parent hparent => ?_
  cases hdir : parentDir v (view v d) ps with
  | none =>
    obtain ⟨err, hrun⟩ := clusterFor_none S hps hdir
    have := (hrun.exec_eq hparent).1
    cases this
  | some dir =>
    obtain rfl := Except.ok.inj ((clusterFor_some S hps hdir).exec_eq hparent).1
    have hr := parentDir_reach hdir
    rw [ready_dir hdir] at hno
    refine findInDir_leaves S hr ?_
    cases hf : findIn v (view v d) parent name with
    | none => exact .throw rfl
    | some e =>
      -- the entry is a directory with entries of its own: listing it is the last step
      have hkids : e.isDir = true ∧ entriesIn v (view v d) e.cluster ≠ [] :=
        Classical.not_imp.mp fun hall => hno ⟨e, hf, hall⟩
      obtain ⟨i, -, -, hi, -⟩ := find_entry hn hf
      have hkid : Reach (graph v (view v d)) e.cluster :=
        .step hr hi (DirEntry.child_eq_some.mpr ⟨hkids.1, rfl⟩)
      dsimp only
      rw [if_pos hkids.1]
      refine .reads_bind (readDir_reads v e.cluster) (fun _ _ => rfl) fun kids hread => ?_
      obtain rfl := Except.ok.inj ((readDir_runs S hkid).exec_eq hread).1
      rw [if_pos hkids.2]
      exact .throw rfl

theorem apply_still (S : Sturdy v (view v d)) (hps : ∀ s ∈ ps, Component s) (hn : Component name)
    (hno : ¬Ready v (view v d) ps name op) :
    Leaves (fun _ d' => d' = d) (apply v (render (ps ++ [name])) op) d fun _ d' => d' = d := by
  cases op with
  | createFile => exact createFile_still S hps hn hno
  | writeFile data => exact writeFile_still S hps hn data hno
  | appendFile data => exact appendFile_still S hps hn data hno
  | createDir => exact createDir_still S hps hn hno
  | remove => exact remove_still S hps hn hno

/-- The codes of a request refused for what its path names. -/
inductive Refusal : Except Fault Unit → Prop where
  | notFound : Refusal (.error (.err .notFound))
  | notADir : Refusal (.error (.err .notADir))
  | isADir : Refusal (.error (.err .isADir))

theorem Effect.not_ready_of_refusal {w w' : View} {r : Except Fault Unit}
    (E : Effect v w ps name op r w') (h : Refusal r) : ¬Ready v w ps name op := by
  cases E with
  | refused hno => exact hno
  | starved _ _ _ _ _ _ _ _ => cases h
  | removed _ _ _ _ _ => cases h
  | stored _ _ _ _ _ _ _ _ => cases h

theorem perform_refused (S : Sound v (view v d)) (hps : ∀ s ∈ ps, Component s) (hn : Component name)
    (hno : ¬Ready v (view v d) ps name op) :
    ∃ err, perform v ⟨ps ++ [name], op⟩ d = (.error (.err err), d) := by
  obtain ⟨r, w', hrun, E⟩ := apply_effect S hps hn op
  obtain ⟨⟨err, rfl⟩, -⟩ := E.refused_of hno
  obtain ⟨d', hexec, -⟩ := hrun.exec_view
  have hsame : d' = d := (apply_still S.toSturdy hps hn hno).of_error hexec
  exact ⟨err, by rw [perform, hexec, hsame]⟩

theorem perform_root (S : Sturdy v (view v d)) (op : Mutation UInt8) :
    ∃ err, perform v ⟨[], op⟩ d = (.error (.err err), d) := by
  obtain ⟨err, hrun⟩ := apply_root S op
  obtain ⟨d', hexec, -⟩ := hrun.exec_view
  have hsame : d' = d := (apply_root_reads v op).of_exec hexec
  exact ⟨err, by rw [perform, hexec, hsame]⟩

theorem apply_empty (v : FatFs) (op : Mutation UInt8) (d : Disk) :
    ∃ err, exec (apply v [] op) d = (.error (.err err), d) := by
  cases op with
  | appendFile data => exact ⟨.isADir, rfl⟩
  | _ => exact ⟨.io, rfl⟩

theorem Runs.answer_eq {α : Type} {x : FatM α} {r : Except Fault α} {w' : View}
    (h : Runs v x (view v d) r w') :
    answer x d = r :=
  (h.exec_eq rfl).1

theorem lookupIn_ok {w : View} (hps : ∀ s ∈ ps, Component s) (hn : Component name) {e : DirEntry}
    (h : lookupIn v w (render (ps ++ [name])) = .ok e) :
    ∃ dir, parentDir v w ps = some dir ∧ findIn v w dir name = some e := by
  have hcomps : ∀ s ∈ ps ++ [name], Component s :=
    List.forall_mem_append.mpr ⟨hps, List.forall_mem_singleton.mpr hn⟩
  rw [lookupIn_render hcomps, walk_snoc] at h
  cases hdir : parentDir v w ps with
  | none =>
    rw [hdir] at h
    dsimp only at h
    split at h <;> cases h
  | some dir =>
    rw [hdir] at h
    dsimp only at h
    cases hf : findIn v w dir name with
    | none =>
      rw [hf] at h
      cases h
    | some e' =>
      rw [hf] at h
      cases h
      exact ⟨dir, rfl, hf⟩

theorem clusterFor_ok (S : Sturdy v (view v d)) (hps : ∀ s ∈ ps, Component s)
    (h : answer (clusterFor v (render ps)) d = .ok dir) : parentDir v (view v d) ps = some dir := by
  cases hdir : parentDir v (view v d) ps with
  | none =>
    obtain ⟨err, hrun⟩ := clusterFor_none S hps hdir
    rw [hrun.answer_eq] at h
    cases h
  | some dir' =>
    rw [(clusterFor_some S hps hdir).answer_eq] at h
    cases h
    rfl

end Refusing

section Refused

variable {v : FatFs} {d : Disk} {ps : List Str} {name : Str}

theorem createDir_existing (S : Sound v (view v d)) (hps : ∀ s ∈ ps, Component s)
    (hn : Component name) {e : DirEntry} (h : answer (lookup v (render (ps ++ [name]))) d = .ok e) :
    ∃ err, perform v ⟨ps ++ [name], .createDir⟩ d = (.error (.err err), d) := by
  rw [(lookup_runs S.toSturdy _).answer_eq, outcome_eq_ok] at h
  obtain ⟨dir, hdir, hf⟩ := lookupIn_ok hps hn h
  refine perform_refused S hps hn ?_
  rw [ready_dir hdir, hf]
  exact fun hperm => by cases hperm

theorem remove_nonempty (S : Sound v (view v d)) (hps : ∀ s ∈ ps, Component s) (hn : Component name)
    {kids : List Str} (hkids : kids ≠ [])
    (h : answer (listDir v (render (ps ++ [name]))) d = .ok kids) :
    ∃ err, perform v ⟨ps ++ [name], .remove⟩ d = (.error (.err err), d) := by
  rw [answer_listDir S.toSturdy, outcome_eq_ok, namesAt] at h
  cases hlook : lookupIn v (view v d) (render (ps ++ [name])) with
  | error err =>
    rw [hlook] at h
    cases h
  | ok e =>
    obtain ⟨dir, hdir, hf⟩ := lookupIn_ok hps hn hlook
    rw [hlook] at h
    change (if e.isDir then _ else _) = Except.ok kids at h
    split_ifs at h with hd
    cases h
    refine perform_refused S hps hn ?_
    rw [ready_dir hdir, hf]
    rintro ⟨e', he', hempty⟩
    cases he'
    rw [hempty hd] at hkids
    exact hkids rfl

end Refused

/-- On a well-formed volume a refused call leaves the disk byte for byte as it is, and once the
chain of an entry has been freed the search for the entry finds it. -/
theorem refused_untouched {v : FatFs} {d : Disk} (W : WellFormed v d) {c : Call}
    (hshort : ∀ s ∈ c.path, ShortName s) :
    (Refusal (perform v c d).1 → (perform v c d).2 = d) ∧
      (c.op = .createDir → (∃ e, answer (lookup v (render c.path)) d = .ok e) →
        ∃ err, perform v c d = (.error (.err err), d)) ∧
      (c.op = .remove → (∃ kids, kids ≠ [] ∧ answer (listDir v (render c.path)) d = .ok kids) →
        ∃ err, perform v c d = (.error (.err err), d)) ∧
      (c.path = [] → ∃ err, perform v c d = (.error (.err err), d)) ∧
      (∃ err, exec (apply v [] c.op) d = (.error (.err err), d)) ∧
      ∀ name dir e, ShortName name → answer (clusterFor v (render c.path)) d = .ok dir →
        answer (findInDir v dir name) d = .ok (some e) →
        answer (freeOld v e >>= fun _ => deleteDirEntry v dir name) d = .ok () := by
  have S := W.sound
  have hcomps := ShortName.components hshort
  obtain ⟨path, op⟩ := c
  have hdelete : ∀ name dir e, ShortName name → answer (clusterFor v (render path)) d = .ok dir →
      answer (findInDir v dir name) d = .ok (some e) →
      answer (freeOld v e >>= fun _ => deleteDirEntry v dir name) d = .ok () := by
    intro name dir e hname hparent hfind
    have hr := parentDir_reach (clusterFor_ok S.toSturdy hcomps hparent)
    rw [(findInDir_runs S.toSturdy hr name).answer_eq] at hfind
    obtain ⟨w', i, hrun, -, -⟩ := cut_runs S.toSturdy hname.component hr (Except.ok.inj hfind)
    exact hrun.answer_eq
  rcases List.eq_nil_or_concat path with rfl | ⟨ps, name, hpath⟩
  · have hroot := perform_root (d := d) S.toSturdy op
    obtain ⟨err, hrefused⟩ := hroot
    exact ⟨fun _ => by rw [hrefused], fun _ _ => ⟨err, hrefused⟩, fun _ _ => ⟨err,
      hrefused⟩, fun _ => ⟨err, hrefused⟩,
      apply_empty v op d, hdelete⟩
  · rw [List.concat_eq_append] at hpath
    subst hpath
    have hn : Component name := hcomps name (by simp)
    have hps : ∀ s ∈ ps, Component s := fun s hs => hcomps s (by simp [hs])
    refine ⟨fun hcode => ?_, ?_, ?_, fun hnil => absurd hnil (by simp), apply_empty v op d, hdelete⟩
    · obtain ⟨r, w', hrun, E⟩ := apply_effect S hps hn op
      have hanswer : (perform v ⟨ps ++ [name], op⟩ d).1 = r := hrun.answer_eq
      rw [hanswer] at hcode
      obtain ⟨err, hrefused⟩ := perform_refused S hps hn (E.not_ready_of_refusal hcode)
      rw [hrefused]
    · rintro rfl ⟨e, he⟩
      exact createDir_existing S hps hn he
    · rintro rfl ⟨kids, hkids, hlist⟩
      exact remove_nonempty S hps hn hkids hlist

/-- Removing from a volume of empty directories a name that is not there. -/
theorem refused_untouched_blankDisk :
    (perform smallVolume ⟨[[97]], .remove⟩ (blankDisk 20)).2 = blankDisk 20 := by
  have hcode : (perform smallVolume ⟨[[97]], .remove⟩ (blankDisk 20)).1 =
    .error (.err .notFound) := by decide +kernel
  have hshort : ∀ s ∈ [[97]], ShortName s := List.forall_mem_singleton.mpr (.singleton (by decide))
  exact (refused_untouched (c := ⟨[[97]], .remove⟩) (blankDisk_wellFormed (by decide)) hshort).1
    (hcode ▸ .notFound)

end Willo.Fat
