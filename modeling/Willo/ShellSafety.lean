import Willo.ShellCore
import Willo.VfsListings
import Willo.Volumes

/-! No command line stops the shell. Calls on the file systems return, whatever is
stored there; a directory listing is never refused for being one; and only
`clear` answers with the clear signal. -/

namespace Willo.ShellCore
open Text Paths ByteCodec BlockDevice FaultState TreeStore MountTable KernelFs
open Fat (FatFs View view outcome Sound Sturdy)

/-! Calls that return. -/

def Returns {α : Type} (v : FatFs) (x : KernelM α) (k : Kernel)
    (Q : Except FsError α → Prop) : Prop :=
  ∃ r k', exec x k = (outcome r, k') ∧ view v k'.disk = view v k.disk ∧ Q r

/-- Every FAT backend of the table is the volume `v`. -/
def FatsAre (v : FatFs) (vfs : Vfs Backend) : Prop := ∀ m ∈ vfs.mounts, ∀ u, m.fs = .fat u → u = v

section Calls

variable {α β : Type} {v : FatFs} {k : Kernel} {vfs : Vfs Backend}

theorem returns_ofResult {r : Except FsError α} {Q : Except FsError α → Prop} (h : Q r) :
    Returns v (ofResult r) k Q := by
  refine ⟨r, k, ?_, rfl, h⟩
  cases r <;> rfl

theorem returns_pure {a : α} {Q : Except FsError α → Prop} (h : Q (.ok a)) :
    Returns v (pure a : KernelM α) k Q :=
  ⟨.ok a, k, rfl, rfl, h⟩

theorem Returns.bind {x : KernelM α} {f : α → KernelM β} {Q : Except FsError α → Prop}
    {R : Except FsError β → Prop} (hx : Returns v x k Q) (he : ∀ e, Q (.error e) → R (.error e))
    (hf : ∀ a k', view v k'.disk = view v k.disk → Q (.ok a) → Returns v (f a) k' R) :
    Returns v (x >>= f) k R := by
  obtain ⟨r, k', hrun, hview, hQ⟩ := hx
  cases r with
  | error e => exact ⟨.error e, k', exec_bind_error hrun, hview, he e hQ⟩
  | ok a =>
    obtain ⟨r, k'', hrun', hview', hR⟩ := hf a k' hview hQ
    exact ⟨r, k'', by rw [exec_bind_ok hrun, hrun'], hview'.trans hview, hR⟩

theorem returns_onDisk {x : FatM α} {r : Except FsError α} {Q : Except FsError α → Prop}
    (hrun : Fat.Runs v x (view v k.disk) (outcome r) (view v k.disk)) (hQ : Q r) :
    Returns v (onDisk x) k Q := by
  obtain ⟨d', hexec, hview⟩ := hrun k.disk rfl
  refine ⟨r, { k with disk := d' }, ?_, hview, hQ⟩
  change ((exec x k.disk).1, _) = _
  rw [hexec]

theorem backend_readFile_returns {b : Backend} (hb : ∀ u, b = .fat u → u = v)
    (S : Sturdy v (view v k.disk)) (rel : Str) : Returns v (b.readFile rel) k (fun _ => True) := by
  cases b with
  | tmp root => exact returns_ofResult trivial
  | ram root => exact returns_ofResult trivial
  | dev => exact returns_ofResult trivial
  | fat u =>
    obtain rfl := hb u rfl
    exact returns_onDisk (Fat.readFile_runs S rel) trivial

theorem lookupIn_ne_isADir {w : View} {abs : Str} : Fat.lookupIn v w abs ≠ .error .isADir := by
  have hwalk : ∀ segs e, Fat.walk v w e segs ≠ .error .isADir := by
    intro segs
    induction segs with
    | nil => simp [Fat.walk]
    | cons seg segs ih =>
      intro e
      unfold Fat.walk
      split_ifs
      · split
        · exact ih _
        · simp
      · simp
  unfold Fat.lookupIn
  split_ifs
  · simp
  · simp
  · exact hwalk _ _

theorem namesAt_ne_isADir {w : View} {abs : Str} : Fat.namesAt v w abs ≠ .error .isADir := by
  unfold Fat.namesAt
  cases h : Fat.lookupIn v w abs with
  | error e =>
    intro heq
    cases heq
    exact lookupIn_ne_isADir h
  | ok e =>
    change (if e.isDir then _ else _) ≠ _
    split_ifs <;> simp

theorem tmpListDir_ne_isADir {root : TmpFs.Node} {rel : Str} :
    TmpFs.listDir root rel ≠ .error .isADir := by
  unfold TmpFs.listDir
  cases h : TmpFs.walk root (segments rel) with
  | error e => rcases tmpWalk_error h with rfl | rfl <;> simp
  | ok node => cases node <;> simp

theorem devListDir_ne_isADir {rel : Str} : devListDir rel ≠ .error .isADir := by
  unfold devListDir flatName
  dsimp only
  split_ifs
  · simp [bind, Except.bind]
  · change (if _ ≠ [] then _ else _) ≠ _
    split_ifs <;> simp
  · simp [bind, Except.bind]
  · change (if _ ≠ [] then _ else _) ≠ _
    split_ifs <;> simp

theorem backend_listDir_returns {b : Backend} (hb : ∀ u, b = .fat u → u = v)
    (S : Sturdy v (view v k.disk)) (rel : Str) :
    Returns v (b.listDir rel) k (· ≠ .error .isADir) := by
  cases b with
  | tmp root => exact returns_ofResult tmpListDir_ne_isADir
  | ram root =>
    have hram : ramListDir root rel = TmpFs.listDir (freeze k.ticks root) rel :=
      ramListDir_eq root rel
    exact returns_ofResult (hram ▸ tmpListDir_ne_isADir)
  | dev => exact returns_ofResult devListDir_ne_isADir
  | fat u =>
    obtain rfl := hb u rfl
    exact returns_onDisk (Fat.listDir_runs S rel) namesAt_ne_isADir

theorem backend_isDir_returns {b : Backend} (hb : ∀ u, b = .fat u → u = v)
    (S : Sturdy v (view v k.disk)) (rel : Str) :
    Returns v (b.isDir rel) k (fun r => ∃ a, r = .ok a) := by
  cases b with
  | tmp root => exact returns_pure ⟨_, rfl⟩
  | ram root => exact returns_pure ⟨_, rfl⟩
  | dev => exact returns_pure ⟨_, rfl⟩
  | fat u =>
    obtain rfl := hb u rfl
    exact returns_onDisk (show Fat.Runs _ _ _ (outcome (.ok _)) _ from Fat.isDir_runs S rel) ⟨_,
      rfl⟩

theorem resolve_backend (hf : FatsAre v vfs) {abs rel : Str} {fs : Backend}
    (h : resolve vfs abs = .ok (fs, rel)) : ∀ u, fs = .fat u → u = v := by
  unfold resolve at h
  cases hr : resolveMount vfs abs with
  | error e =>
    rw [hr] at h
    cases h
  | ok r =>
    rw [hr] at h
    cases h
    have hbest := bestMount_best vfs abs
    rw [(resolveMount_ok hr).2.1] at hbest
    exact hf r.1 hbest.1

theorem readFile_returns (hf : FatsAre v vfs) (S : Sturdy v (view v k.disk)) (abs : Str) :
    Returns v (readFile vfs abs) k (fun _ => True) := by
  unfold readFile
  cases hr : resolve vfs abs with
  | error e => exact ⟨.error e, k, rfl, rfl, trivial⟩
  | ok r => exact backend_readFile_returns (resolve_backend hf hr) S r.2

theorem listDir_returns (hf : FatsAre v vfs) (S : Sturdy v (view v k.disk)) (abs : Str) :
    Returns v (listDir vfs abs) k (· ≠ .error .isADir) := by
  unfold listDir
  cases hr : resolve vfs abs with
  | error e =>
    refine ⟨.error e, k, rfl, rfl, ?_⟩
    intro heq
    cases heq
    unfold resolve resolveMount at hr
    split_ifs at hr
    · cases hr
    · cases hb : bestMount vfs abs with
      | none => simp [hb, Except.map] at hr
      | some m => simp [hb, Except.map] at hr
  | ok r =>
    refine (backend_listDir_returns (resolve_backend hf hr) S r.2).bind (fun e he => ?_)
      fun a k' _ _ => ?_
    · simpa using he
    · exact returns_pure (by simp)

theorem isDir_returns (hf : FatsAre v vfs) (S : Sturdy v (view v k.disk)) (abs : Str) :
    Returns v (isDir vfs abs) k (fun r => ∃ a, r = .ok a) := by
  unfold isDir
  split_ifs
  · exact returns_pure ⟨_, rfl⟩
  · cases hr : resolve vfs abs with
    | error e => exact returns_pure ⟨_, rfl⟩
    | ok r => exact backend_isDir_returns (resolve_backend hf hr) S r.2

end Calls

/-! Mutations. -/

section Mutations

variable {v : FatFs} {k : Kernel} {vfs : Vfs Backend} {rel : Str} {op : Mutation UInt8}

/-- Written data never fills whole blocks, so the raw disk refuses it. -/
def Odd (op : Mutation UInt8) : Prop := ∀ data, op = .writeFile data → data.length % blockSize ≠ 0

theorem nameField_first {name : Str} (hn : Component name) (h : (0x00 : UInt8) ∉ name) :
    byteAt (Fat.nameField name) 0 ≠ 0x00 := by
  rw [Fat.nameField, if_neg hn.2.1, if_neg hn.2.2]
  have hbase : ∀ b ∈ (Fat.splitName name).1, b ∈ name := by
    intro b hb
    unfold Fat.splitName at hb
    split_ifs at hb
    · exact hb
    · split at hb
      · exact List.mem_of_mem_take hb
      · exact hb
  generalize (Fat.splitName name).1 = base at hbase
  cases base with
  | nil => simp [Fat.heaplessUpper, Fat.padField, byteAt, space]
  | cons b base =>
    have hb : b ≠ 0x00 := fun heq => h (heq ▸ hbase b (by simp))
    simpa [Fat.heaplessUpper, Fat.padField, byteAt, Fat.upper_eq_zero] using hb

theorem effect_outcome {w w' : View} {ps : List Str} {name : Str} {r : Except Fault Unit}
    (E : Fat.Effect v w ps name op r w') : ∃ x, r = outcome x := by
  cases E with
  | refused _ => exact ⟨.error _, rfl⟩
  | starved => exact ⟨.error .io, rfl⟩
  | removed => exact ⟨.ok (), rfl⟩
  | stored => exact ⟨.ok (), rfl⟩

theorem fat_perform_returns (op : Mutation UInt8) {d : Disk} {segs : List Str}
    (S : Sound v (view v d)) (hc : ∀ s ∈ segs, Component s) (h : ∀ s ∈ segs, (0x00 : UInt8) ∉ s) :
    ∃ r, (Fat.perform v ⟨segs, op⟩ d).1 = outcome r ∧
    Sound v (view v (Fat.perform v ⟨segs, op⟩ d).2) := by
  rcases Fat.perform_effect (c := ⟨segs, op⟩) S hc with ⟨-, ⟨err, herr⟩, hsame⟩ | ⟨ps,
    name, hpath, hn, E⟩
  · exact ⟨.error err, herr, hsame ▸ S⟩
  · have hpath : segs = ps ++ [name] := hpath
    have hfirst := nameField_first hn (h name (by simp [hpath]))
    obtain ⟨x, hx⟩ := effect_outcome E
    exact ⟨x, hx, E.sound S fun _ => hfirst⟩

theorem mem_render {segs : List Str} {s : Str} {b : UInt8} (hs : s ∈ segs) (hb : b ∈ s) :
    b ∈ render segs := by
  rw [render_eq_join (List.ne_nil_of_mem hs)]
  exact List.mem_flatMap.mpr ⟨s, hs, List.mem_cons_of_mem _ hb⟩

theorem exec_ofResult_bind {α β : Type} (a : α) (f : α → KernelM β) (k : Kernel) :
    exec (ofResult (.ok a) >>= f) k = exec (f a) k := rfl

theorem nodeWrite_returns (node : DevNode) {data : Bytes} (hdata : data.length % blockSize ≠ 0) :
    ∃ r k', exec (node.write 0 data) k = (outcome r, k') ∧ k'.disk = k.disk := by
  cases node with
  | console => exact ⟨.ok data.length, _, rfl, rfl⟩
  | null => exact ⟨.ok data.length, _, rfl, rfl⟩
  | zero => exact ⟨.ok data.length, _, rfl, rfl⟩
  | serial0 =>
    cases hs : k.serial with
    | none =>
      refine ⟨.error .io, k, ?_, rfl⟩
      rw [DevNode.write, exec_get_bind, hs]
      rfl
    | some sent =>
      refine ⟨.ok data.length, { k with serial := some (sent ++ data) }, ?_, rfl⟩
      rw [DevNode.write, exec_get_bind, hs]
      rfl
  | disk0 =>
    have hne : data ≠ [] := by
      rintro rfl
      exact hdata rfl
    have hbad : (0 % blockSize ≠ 0 ∨ data.length % blockSize ≠ 0) := Or.inr hdata
    refine ⟨.error .io, k, ?_, rfl⟩
    rw [DevNode.write, if_neg hne, if_pos hbad]
    rfl

theorem devWriteAt_returns (rel : Str) {data : Bytes} (hdata : data.length % blockSize ≠ 0) :
    ∃ r k', exec (devWriteAt rel 0 data) k = (outcome r, k') ∧ k'.disk = k.disk := by
  unfold devWriteAt
  cases flatName rel with
  | error e => exact ⟨.error e, k, rfl, rfl⟩
  | ok name =>
    rw [exec_ofResult_bind]
    cases devNode name with
    | none => exact ⟨.error .notFound, k, rfl, rfl⟩
    | some node => exact nodeWrite_returns node hdata

theorem devWriteFile_returns {data : Bytes} (hdata : data.length % blockSize ≠ 0) :
    ∃ r k', exec (devWriteFile rel data) k = (outcome r, k') ∧ k'.disk = k.disk := by
  obtain ⟨r, k', hrun, hdisk⟩ := devWriteAt_returns (k := k) rel hdata
  unfold devWriteFile
  cases r with
  | error e => exact ⟨.error e, k', exec_bind_error hrun, hdisk⟩
  | ok n =>
    rw [exec_bind_ok hrun]
    split_ifs
    · exact ⟨.ok (), k', rfl, hdisk⟩
    · exact ⟨.error .io, k', rfl, hdisk⟩

theorem backend_apply_returns {b : Backend} (hb : ∀ u, b = .fat u → u = v)
    (S : Sound v (view v k.disk))
    (hrel : Canonical rel) (h0 : (0x00 : UInt8) ∉ rel) (hop : Odd op) :
    ∃ r b' k', b.apply rel op k = (outcome r, b', k') ∧ (∀ u, b' = .fat u → u = v) ∧
      Sound v (view v k'.disk) := by
  cases b with
  | tmp root =>
    refine ⟨(TmpFs.apply root rel op).1, .tmp (TmpFs.apply root rel op).2, k, ?_, ?_, S⟩
    · rw [Backend.apply]
      cases (TmpFs.apply root rel op).1 <;> rfl
    · intro u hu
      cases hu
  | ram root => exact ⟨.error .unsupported, .ram root, k, by cases op <;> rfl, hb, S⟩
  | dev =>
    cases op with
    | writeFile data =>
      obtain ⟨r, k', hrun, hdisk⟩ := devWriteFile_returns (hop data rfl)
      refine ⟨r, .dev, k', ?_, hb, by rwa [hdisk]⟩
      rw [Backend.apply, hrun]
    | createFile => exact ⟨.error .unsupported, .dev, k, rfl, hb, S⟩
    | appendFile data => exact ⟨.error .unsupported, .dev, k, rfl, hb, S⟩
    | createDir => exact ⟨.error .unsupported, .dev, k, rfl, hb, S⟩
    | remove => exact ⟨.error .unsupported, .dev, k, rfl, hb, S⟩
  | fat u =>
    obtain rfl := hb u rfl
    obtain ⟨segs, hsegs, rfl⟩ := hrel
    have hclean : ∀ s ∈ segs, (0x00 : UInt8) ∉ s := fun s hs hmem => h0 (mem_render hs hmem)
    obtain ⟨r, hr, S'⟩ := fat_perform_returns op S hsegs hclean
    exact ⟨r, .fat u, { k with disk := (Fat.perform u ⟨segs, op⟩ k.disk).2 }, by
      rw [← hr]; rfl, hb, S'⟩

theorem apply_returns {abs : Str} (hf : FatsAre v vfs) (S : Sound v (view v k.disk))
    (habs : Canonical abs) (h0 : (0x00 : UInt8) ∉ abs) (hop : Odd op) :
    ∃ r vfs' k', KernelFs.apply vfs abs op k = (outcome r, vfs', k') ∧ FatsAre v vfs' ∧
      Sound v (view v k'.disk) := by
  unfold KernelFs.apply
  cases hr : resolveMount vfs abs with
  | error e => exact ⟨.error e, vfs, k, rfl, hf, S⟩
  | ok r =>
    obtain ⟨m, rel⟩ := r
    obtain ⟨-, hb, hrel⟩ := resolveMount_ok hr
    have hbest := bestMount_best vfs abs
    rw [hb] at hbest
    have h0' : (0x00 : UInt8) ∉ relative m abs := by
      intro hmem
      unfold relative at hmem
      dsimp only at hmem
      split_ifs at hmem
      · exact h0 hmem
      · simp [slash] at hmem
      · exact h0 (List.mem_of_mem_drop hmem)
    dsimp only at hrel
    subst hrel
    obtain ⟨x, b', k', happly, hb', S'⟩ :=
      backend_apply_returns (hf m hbest.1) S (relative_canonical hbest.2.1 habs) h0' hop
    refine ⟨x, replaceFs vfs m.pfx b', k', by simp only [happly], fun m' hm' u hu => ?_, S'⟩
    obtain ⟨m₀, hm₀, rfl⟩ := List.mem_map.mp hm'
    split_ifs at hu
    · exact hb' u hu
    · exact hf m₀ hm₀ u hu

end Mutations

/-! Words and paths of a typed line. -/

section Lines

theorem splitWords_mem {word s w : Str} {b : UInt8} (hw : w ∈ splitWords word s) (hb : b ∈ w) :
    b ∈ word ∨ b ∈ s := by
  induction s generalizing word with
  | nil =>
    unfold splitWords at hw
    split_ifs at hw
    · simp at hw
    · rw [List.mem_singleton] at hw
      exact Or.inl (hw ▸ hb)
  | cons c s ih =>
    unfold splitWords at hw
    split_ifs at hw
    · exact (ih hw).imp (by simp) (List.mem_cons_of_mem _)
    · rcases List.mem_cons.mp hw with rfl | hw
      · exact Or.inl hb
      · exact (ih hw).imp (by simp) (List.mem_cons_of_mem _)
    · rcases ih hw with h | h
      · rcases List.mem_append.mp h with h | h
        · exact Or.inl h
        · exact Or.inr (List.mem_singleton.mp h ▸ List.mem_cons_self)
      · exact Or.inr (List.mem_cons_of_mem _ h)

theorem splitWords_length (word s : Str) :
    ((splitWords word s).map fun w => w.length + 1).sum ≤ word.length + s.length + 1 := by
  induction s generalizing word with
  | nil =>
    unfold splitWords
    split_ifs <;> simp
  | cons c s ih =>
    unfold splitWords
    split_ifs
    · have := ih []
      simp at this ⊢
      omega
    · have := ih []
      simp at this ⊢
      omega
    · have := ih (word ++ [c])
      simp at this ⊢
      omega

theorem joinSpace_length (words : List Str) :
    (joinSpace words).length ≤ (words.map fun w => w.length + 1).sum := by
  induction words with
  | nil => simp [joinSpace]
  | cons w words ih =>
    cases words with
    | nil => simp [joinSpace]
    | cons w' words =>
      simp only [joinSpace, List.length_append, List.length_cons, List.map_cons,
        List.sum_cons] at ih ⊢
      omega

theorem mem_of_mem_segments {s t : Str} {b : UInt8} (ht : t ∈ segments s) (hb : b ∈ t) : b ∈ s := by
  have hpiece : ∀ (s : Str), ∀ t ∈ s.splitOn slash, t ⊆ s := by
    intro s
    induction s with
    | nil => simp
    | cons c s ih =>
      intro t ht
      rw [List.splitOn_cons_eq_if_modifyHead] at ht
      obtain ⟨p, ps, hp⟩ := List.exists_cons_of_ne_nil (List.splitOn_ne_nil slash s)
      rw [hp] at ht ih
      split_ifs at ht
      · rcases List.mem_cons.mp ht with rfl | ht
        · exact List.nil_subset _
        · exact List.Subset.trans (ih t ht) (List.subset_cons_self _ _)
      · rcases List.mem_cons.mp ht with rfl | ht
        · exact List.cons_subset_cons _ (ih p (by simp))
        · exact List.Subset.trans (ih t (List.mem_cons_of_mem _ ht)) (List.subset_cons_self _ _)
  exact hpiece s t (List.mem_filter.mp ht).1 hb

theorem mem_normalize {cwd input : Str} {b : UInt8} (h : b ∈ normalize cwd input) :
    b = slash ∨ b ∈ cwd ∨ b ∈ input := by
  have hfold : ∀ (segs stack : List Str), ∀ t ∈ segs.foldl pushSegment stack, t ∈ stack ∨
    t ∈ segs := by
    intro segs
    induction segs with
    | nil => exact fun stack t ht => Or.inl ht
    | cons s segs ih =>
      intro stack t ht
      rcases ih _ t ht with ht | ht
      · unfold pushSegment at ht
        split_ifs at ht
        · exact Or.inl ht
        · exact Or.inl (List.dropLast_subset _ ht)
        · rcases List.mem_append.mp ht with ht | ht
          · exact Or.inl ht
          · exact Or.inr (List.mem_singleton.mp ht ▸ List.mem_cons_self)
      · exact Or.inr (List.mem_cons_of_mem _ ht)
  unfold Paths.normalize at h
  dsimp only at h
  generalize hsegs : (segments input).foldl pushSegment _ = segs at h
  by_cases hnil : segs = []
  · rw [hnil] at h
    exact Or.inl (List.mem_singleton.mp h)
  · rw [render_eq_join hnil] at h
    obtain ⟨t, ht, hb⟩ := List.mem_flatMap.mp h
    rcases List.mem_cons.mp hb with hb | hb
    · exact Or.inl hb
    · rw [← hsegs] at ht
      rcases hfold _ _ t ht with ht | ht
      · split_ifs at ht
        · simp at ht
        · exact Or.inr (Or.inl (mem_of_mem_segments ht hb))
      · exact Or.inr (Or.inr (mem_of_mem_segments ht hb))

end Lines

/-! What a command prints itself. -/

def Terminated (out : Str) : Prop := out = [] ∨ out.getLast? = some newlineByte

theorem terminated_snoc (s : Str) : Terminated (s ++ [newlineByte]) := Or.inr (by simp)

theorem Terminated.append {a b : Str} (ha : Terminated a) (hb : Terminated b) :
    Terminated (a ++ b) := by
  rcases hb with rfl | hb
  · rwa [List.append_nil]
  · refine Or.inr ?_
    rw [List.getLast?_append, hb]
    rfl

def Silent {α : Type} (x : KernelM α) : Prop := ∀ k, (exec x k).2.console = k.console

section Printing

variable {α β : Type} {vfs : Vfs Backend} {k : Kernel} {op : Mutation UInt8}

theorem silent_ofResult (r : Except FsError α) : Silent (ofResult r) := by
  cases r <;> exact fun k => rfl

theorem silent_onDisk (x : FatM α) : Silent (onDisk x) := fun _ => rfl

theorem Silent.bind {x : KernelM α} {f : α → KernelM β} (hx : Silent x) (hf : ∀ a, Silent (f a)) :
    Silent (x >>= f) := by
  intro k
  have h := hx k
  rw [exec_bind]
  rcases hrun : exec x k with ⟨e | a, k'⟩
  · rwa [hrun] at h
  · rw [hrun] at h
    exact (hf a k').trans h

theorem readFile_silent (abs : Str) : Silent (readFile vfs abs) := by
  refine (silent_ofResult _).bind fun ⟨fs, rel⟩ => ?_
  cases fs with
  | tmp root => exact silent_ofResult _
  | ram root => exact fun k => silent_ofResult _ k
  | dev => exact silent_ofResult _
  | fat u => exact silent_onDisk _

theorem listDir_silent (abs : Str) : Silent (listDir vfs abs) := by
  refine (silent_ofResult _).bind fun ⟨fs, rel⟩ => Silent.bind ?_ fun _ _ => rfl
  cases fs with
  | tmp root => exact silent_ofResult _
  | ram root => exact silent_ofResult _
  | dev => exact silent_ofResult _
  | fat u => exact silent_onDisk _

theorem isDir_silent (abs : Str) : Silent (isDir vfs abs) := by
  unfold isDir
  split_ifs
  · exact fun _ => rfl
  · split
    · next fs rel _ =>
      cases fs with
      | tmp root => exact fun _ => rfl
      | ram root => exact fun _ => rfl
      | dev => exact fun _ => rfl
      | fat u => exact silent_onDisk _
    · exact fun _ => rfl

theorem nodeWrite_prints (node : DevNode) {data : Bytes} (hdata : Terminated data) :
    ∃ t, Terminated t ∧ (exec (node.write 0 data) k).2.console = k.console ++ t := by
  have hnone : ∃ t, Terminated t ∧ k.console = k.console ++ t := ⟨[], Or.inl rfl, by simp⟩
  cases node with
  | console =>
    refine ⟨(fromUtf8 data).getD [], ?_, rfl⟩
    unfold fromUtf8
    split_ifs
    · exact hdata
    · exact Or.inl rfl
  | null => exact hnone
  | zero => exact hnone
  | serial0 =>
    rw [DevNode.write, exec_get_bind]
    cases k.serial with
    | none => exact hnone
    | some sent => exact hnone
  | disk0 =>
    rw [DevNode.write]
    split_ifs
    · exact hnone
    · exact hnone
    · refine ⟨[], Or.inl rfl, ?_⟩
      rw [List.append_nil]
      exact (silent_onDisk _).bind (fun _ _ => rfl) k

theorem devWriteAt_prints (rel : Str) {data : Bytes} (hdata : Terminated data) :
    ∃ t, Terminated t ∧ (exec (devWriteAt rel 0 data) k).2.console = k.console ++ t := by
  have hnone : ∃ t, Terminated t ∧ k.console = k.console ++ t := ⟨[], Or.inl rfl, by simp⟩
  unfold devWriteAt
  cases flatName rel with
  | error e => exact hnone
  | ok name =>
    rw [exec_ofResult_bind]
    cases devNode name with
    | none => exact hnone
    | some node => exact nodeWrite_prints node hdata

theorem devWriteFile_prints (rel : Str) {data : Bytes} (hdata : Terminated data) :
    ∃ t, Terminated t ∧ (exec (devWriteFile rel data) k).2.console = k.console ++ t := by
  obtain ⟨t, ht, hconsole⟩ := devWriteAt_prints (k := k) rel hdata
  refine ⟨t, ht, ?_⟩
  unfold devWriteFile
  rw [exec_bind]
  rcases hrun : exec (devWriteAt rel 0 data) k with ⟨e | n, k'⟩
  · rwa [hrun] at hconsole
  · rw [hrun] at hconsole
    dsimp only
    split_ifs <;> exact hconsole

theorem apply_prints (vfs : Vfs Backend) (k : Kernel) (abs : Str)
    (hop : ∀ data, op = .writeFile data → Terminated data) :
    ∃ t, Terminated t ∧ (KernelFs.apply vfs abs op k).2.2.console = k.console ++ t := by
  have hnone : ∃ t, Terminated t ∧ k.console = k.console ++ t := ⟨[], Or.inl rfl, by simp⟩
  unfold KernelFs.apply
  cases resolveMount vfs abs with
  | error e => exact hnone
  | ok r =>
    obtain ⟨⟨pfx, b⟩, rel⟩ := r
    cases b with
    | tmp root => exact hnone
    | ram root => cases op <;> exact hnone
    | fat u => exact hnone
    | dev =>
      cases op with
      | writeFile data => exact devWriteFile_prints rel (hop data rfl)
      | createFile => exact hnone
      | appendFile data => exact hnone
      | createDir => exact hnone
      | remove => exact hnone

end Printing

/-! Commands. -/

def Printable (b : UInt8) : Prop := 32 ≤ b ∧ b ≤ 126

/-- A line as the driver builds it: at most 120 printable characters. -/
structure Typed (line : Str) : Prop where
  length : line.length ≤ 120
  printable : ∀ b ∈ line, Printable b

/-- The working directory is a printable path, and what was printed behind `base` are whole
lines. When `T` holds, the volume `v` is in order too. -/
structure Healthy (T : Prop) (v : FatFs) (base : Str) (w : World) : Prop where
  fats : T → FatsAre v w.shell.vfs
  sound : T → Sound v (view v w.kernel.disk)
  cwd : Canonical w.shell.cwd
  printable : ∀ b ∈ w.shell.cwd, Printable b
  printed : ∃ t, Terminated t ∧ w.kernel.console = base ++ t

section Commands

variable {α : Type} {T : Prop} {v : FatFs} {base : Str} {w : World}

theorem root_printable : ∀ b ∈ [slash], Printable b := by
  intro b hb
  rw [List.mem_singleton.mp hb]
  exact ⟨by decide, by decide⟩

theorem clean_of_printable {s : Str} (h : ∀ b ∈ s, Printable b) : (0x00 : UInt8) ∉ s :=
  fun hmem => absurd (h 0 hmem).1 (by decide)

theorem Healthy.kernel (H : Healthy T v base w) {k : Kernel}
    (hview : T → view v k.disk = view v w.kernel.disk) (hprint : k.console = w.kernel.console) :
    Healthy T v base { w with kernel := k } :=
  ⟨H.fats, fun h => by
    rw [hview h]; exact H.sound h, H.cwd, H.printable, by rw [hprint]; exact H.printed⟩

theorem call_meets (H : Healthy T v base w) {x : KernelM α} (hs : Silent x)
    {Q : Except FsError α → Prop} (h : T → Returns v x w.kernel Q) :
    Meets T (Healthy T v base) (call x) w (fun r => T → Q r) := by
  have hprint := hs w.kernel
  unfold Meets
  rw [exec_call]
  by_cases ht : T
  · obtain ⟨r, k', hrun, hview, hQ⟩ := h ht
    rw [hrun] at hprint ⊢
    cases r <;> exact ⟨H.kernel (fun _ => hview) hprint, fun _ => hQ⟩
  · have hno : ∀ {p : Prop}, T → p := fun h => absurd h ht
    rcases hrun : exec x w.kernel with ⟨(e | _ | _) | a, k'⟩ <;> rw [hrun] at hprint
    · exact ⟨H.kernel hno hprint, hno⟩
    · exact ht
    · exact ht
    · exact ⟨H.kernel hno hprint, hno⟩

theorem ask_meets (H : Healthy T v base w) {x : KernelM α} (hs : Silent x)
    (h : T → Returns v x w.kernel (fun r => ∃ a, r = .ok a)) :
    Meets T (Healthy T v base) (ask x) w (fun _ => True) := by
  have hprint := hs w.kernel
  unfold Meets
  rw [exec_ask]
  by_cases ht : T
  · obtain ⟨_, k', hrun, hview, a, rfl⟩ := h ht
    rw [hrun] at hprint ⊢
    exact ⟨H.kernel (fun _ => hview) hprint, trivial⟩
  · rcases hrun : exec x w.kernel with ⟨e | a, k'⟩ <;> rw [hrun] at hprint
    · exact ht
    · exact ⟨H.kernel (fun h => absurd h ht) hprint, trivial⟩

theorem mutate_meets (H : Healthy T v base w) {abs : Str} {op : Mutation UInt8}
    (habs : Canonical abs) (h0 : (0x00 : UInt8) ∉ abs) (hop : Odd op)
    (hdata : ∀ data, op = .writeFile data → Terminated data) :
    Meets T (Healthy T v base) (mutate abs op) w (fun _ => True) := by
  obtain ⟨t, ht, hprint⟩ := apply_prints w.shell.vfs w.kernel abs hdata
  obtain ⟨t₀, ht₀, hbase⟩ := H.printed
  have hprinted : ∃ t, Terminated t ∧
    (KernelFs.apply w.shell.vfs abs op w.kernel).2.2.console = base ++ t :=
    ⟨t₀ ++ t, ht₀.append ht, by rw [hprint, hbase, List.append_assoc]⟩
  have hkept : T → ∃ r vfs' k', KernelFs.apply w.shell.vfs abs op w.kernel =
    (Fat.outcome r, vfs', k') ∧
      FatsAre v vfs' ∧ Sound v (view v k'.disk) :=
        fun h => apply_returns (H.fats h) (H.sound h) habs h0 hop
  unfold Meets
  rw [exec_mutate]
  by_cases h : T
  · obtain ⟨r, vfs', k', hrun, hf, S⟩ := hkept h
    rw [hrun] at hprinted ⊢
    cases r <;> exact ⟨⟨fun _ => hf, fun _ => S, H.cwd, H.printable, hprinted⟩, trivial⟩
  · have hno : ∀ {p : Prop}, T → p := fun ht => absurd ht h
    rcases hrun : KernelFs.apply w.shell.vfs abs op w.kernel with ⟨(e | _ | _) | u, vfs, k⟩ <;>
      rw [hrun] at hprinted
    · exact ⟨⟨hno, hno, H.cwd, H.printable, hprinted⟩, trivial⟩
    · exact h
    · exact h
    · exact ⟨⟨hno, hno, H.cwd, H.printable, hprinted⟩, trivial⟩

theorem Healthy.target (H : Healthy T v base w) {path : Str} (hp : ∀ b ∈ path, Printable b) :
    Canonical (normalize w.shell.cwd path) ∧ ∀ b ∈ normalize w.shell.cwd path, Printable b := by
  refine ⟨normalize_canonical H.cwd path, fun b hmem => ?_⟩
  rcases mem_normalize hmem with h | h | h
  · rw [h]
    exact ⟨by decide, by decide⟩
  · exact H.printable b h
  · exact hp b h

def fixedTexts : List String :=
  ["cat: missing operand\n", "touch: missing operand\n", "mkdir: missing operand\n",
    "rm: missing operand\n",
    "write: missing operand: <path> <text...>\n", ": read-only filesystem\n", " ticks\n"]

theorem fixedText_ends {s : String} (h : s ∈ fixedTexts) :
    (text s).getLast? = some newlineByte := by
  have hall : ∀ s ∈ fixedTexts, (text s).getLast? = some newlineByte := by decide +kernel
  exact hall s h

theorem lsLines_meets {vfs : Vfs Backend} (hf : T → FatsAre v vfs) (H : Healthy T v base w)
    (target : Str)
    (names : List Str) : Meets T (Healthy T v base) (lsLines vfs target names) w Terminated := by
  induction names generalizing w with
  | nil => exact .pure H (Or.inl rfl)
  | cons name names ih =>
    refine (ask_meets H (isDir_silent _) fun h => isDir_returns (hf h) (H.sound h).toSturdy _).bind
      fun dir w' H' _ => ?_
    refine (ih H').bind fun rest w'' H'' hrest => .pure H'' ?_
    exact (terminated_snoc _).append hrest

theorem cmdLs_meets (H : Healthy T v base w) (path : Option Str) :
    Meets T (Healthy T v base) (cmdLs path) w Terminated := by
  refine .get_bind ?_
  refine (call_meets H (listDir_silent _) fun h =>
    listDir_returns (H.fats h) (H.sound h).toSturdy _).bind
    fun r w' H' hr => ?_
  match r with
  | .ok entries => exact lsLines_meets H.fats H' _ _
  | .error .notFound => exact .pure H' (terminated_snoc _)
  | .error .notADir => exact .pure H' (terminated_snoc _)
  | .error .isADir => exact .throw _ fun h => hr h rfl
  | .error .io => exact .pure H' (terminated_snoc _)
  | .error .unsupported => exact .pure H' (terminated_snoc _)

theorem cmdCd_meets (H : Healthy T v base w) {path : Option Str}
    (hp : ∀ p ∈ path, ∀ b ∈ p, Printable b) :
    Meets T (Healthy T v base) (cmdCd path) w Terminated := by
  refine .get_bind ?_
  refine (ask_meets H (isDir_silent _) fun h =>
    isDir_returns (H.fats h) (H.sound h).toSturdy _).bind
    fun dir w' H' _ => ?_
  cases dir with
  | false => exact .pure H' (terminated_snoc _)
  | true =>
    refine .modify_bind (.pure ?_ (Or.inl rfl))
    cases path with
    | none => exact ⟨H'.fats, H'.sound, ⟨[], by simp, rfl⟩, root_printable, H'.printed⟩
    | some p =>
      obtain ⟨hcanon, hprint⟩ := H.target (hp p rfl)
      exact ⟨H'.fats, H'.sound, hcanon, hprint, H'.printed⟩

theorem cmdCat_meets (H : Healthy T v base w) (path : Option Str) :
    Meets T (Healthy T v base) (cmdCat path) w Terminated := by
  cases path with
  | none => exact .pure H (Or.inr (fixedText_ends (by simp [fixedTexts])))
  | some path =>
    refine .get_bind ?_
    refine (call_meets H (readFile_silent _) fun h =>
      readFile_returns (H.fats h) (H.sound h).toSturdy _).bind
      fun r w' H' _ => ?_
    match r with
    | .ok bytes =>
      refine .pure H' ?_
      unfold terminated
      split_ifs with hend
      · exact Or.inr hend
      · exact terminated_snoc _
    | .error .notFound => exact .pure H' (terminated_snoc _)
    | .error .notADir => exact .pure H' (terminated_snoc _)
    | .error .isADir => exact .pure H' (terminated_snoc _)
    | .error .io => exact .pure H' (terminated_snoc _)
    | .error .unsupported => exact .pure H' (terminated_snoc _)

theorem runMutation_meets (H : Healthy T v base w) (name : Str) {path : Str} {op : Mutation UInt8}
    (hp : ∀ b ∈ path, Printable b) (hop : Odd op)
    (hdata : ∀ data, op = .writeFile data → Terminated data) :
    Meets T (Healthy T v base) (runMutation name path op) w Terminated := by
  obtain ⟨hcanon, hprint⟩ := H.target hp
  refine .get_bind ?_
  refine (mutate_meets H hcanon (clean_of_printable hprint) hop hdata).bind fun r w' H' _ => ?_
  match r with
  | .ok () => exact .pure H' (Or.inl rfl)
  | .error .unsupported =>
    refine .pure H' (Or.inr ?_)
    rw [List.getLast?_append, fixedText_ends (by simp [fixedTexts])]
    rfl
  | .error .notFound => exact .pure H' (terminated_snoc _)
  | .error .notADir => exact .pure H' (terminated_snoc _)
  | .error .isADir => exact .pure H' (terminated_snoc _)
  | .error .io => exact .pure H' (terminated_snoc _)

theorem plainMutation_meets (H : Healthy T v base w) {name path : Str} {op : Mutation UInt8}
    (hp : ∀ b ∈ path, Printable b) (hop : ∀ data, op ≠ .writeFile data) :
    Meets T (Healthy T v base) (runMutation name path op) w Terminated :=
  runMutation_meets H _ hp (fun data h => absurd h (hop data)) fun data h => absurd h (hop data)

theorem cmdTouch_meets (H : Healthy T v base w) {path : Option Str}
    (hp : ∀ p ∈ path, ∀ b ∈ p, Printable b) :
    Meets T (Healthy T v base) (cmdTouch path) w Terminated := by
  cases path with
  | none => exact .pure H (Or.inr (fixedText_ends (by simp [fixedTexts])))
  | some p => exact plainMutation_meets H (hp p rfl) (by simp)

theorem cmdMkdir_meets (H : Healthy T v base w) {path : Option Str}
    (hp : ∀ p ∈ path, ∀ b ∈ p, Printable b) :
    Meets T (Healthy T v base) (cmdMkdir path) w Terminated := by
  cases path with
  | none => exact .pure H (Or.inr (fixedText_ends (by simp [fixedTexts])))
  | some p => exact plainMutation_meets H (hp p rfl) (by simp)

theorem cmdRm_meets (H : Healthy T v base w) {path : Option Str}
    (hp : ∀ p ∈ path, ∀ b ∈ p, Printable b) :
    Meets T (Healthy T v base) (cmdRm path) w Terminated := by
  cases path with
  | none => exact .pure H (Or.inr (fixedText_ends (by simp [fixedTexts])))
  | some p => exact plainMutation_meets H (hp p rfl) (by simp)

theorem Typed.word {line word : Str} (h : Typed line) (hw : word ∈ tokens line) :
    ∀ b ∈ word, Printable b := by
  intro b hb
  rcases splitWords_mem hw hb with hb | hb
  · simp at hb
  · exact h.printable b hb

/-- The text of a `write` and its line end stay within one block. -/
theorem Typed.odd {line cmd path : Str} {words : List Str} (h : Typed line)
    (ht : tokens line = cmd :: path :: words) :
    Odd (.writeFile (joinSpace words ++ [newlineByte])) := by
  intro data hdata
  cases hdata
  have hwords := splitWords_length [] line
  have hjoin := joinSpace_length words
  have hlen := h.length
  rw [show splitWords [] line = _ from ht] at hwords
  simp only [List.map_cons, List.sum_cons, List.length_nil] at hwords
  rw [List.length_append, List.length_singleton, Nat.mod_eq_of_lt]
  · omega
  · rw [blockSize]
    omega

theorem cmdWrite_meets (H : Healthy T v base w) {line cmd : Str} {args : List Str} (h : Typed line)
    (ht : tokens line = cmd :: args) : Meets T (Healthy T v base) (cmdWrite args) w Terminated := by
  cases args with
  | nil => exact .pure H (Or.inr (fixedText_ends (by simp [fixedTexts])))
  | cons path words =>
    refine runMutation_meets H _ (h.word (ht ▸ by simp)) (h.odd ht) fun data hdata => ?_
    cases hdata
    exact terminated_snoc _

theorem uptimeText_terminated (ticks : Nat) : Terminated (uptimeText ticks) := by
  refine Or.inr ?_
  rw [uptimeText, List.getLast?_append, fixedText_ends (by simp [fixedTexts])]
  rfl

theorem lines_terminated {β : Type} (g : β → Str) (l : List β) :
    Terminated (l.flatMap fun a => g a ++ [newlineByte]) := by
  induction l with
  | nil => exact Or.inl rfl
  | cons a l ih => exact (terminated_snoc _).append ih

theorem command_clear {cmd : Str} (args : List Str) (h : cmd = text "clear") :
    command cmd args = pure clearSentinel := by
  have hpwd : cmd ≠ text "pwd" := by
    rw [h]
    decide +kernel
  have hls : cmd ≠ text "ls" := by
    rw [h]
    decide +kernel
  have hcd : cmd ≠ text "cd" := by
    rw [h]
    decide +kernel
  have hcat : cmd ≠ text "cat" := by
    rw [h]
    decide +kernel
  have hecho : cmd ≠ text "echo" := by
    rw [h]
    decide +kernel
  rw [command, if_neg hpwd, if_neg hls, if_neg hcd, if_neg hcat, if_neg hecho, if_pos h]

theorem command_meets (H : Healthy T v base w) {line cmd : Str} {args : List Str} (h : Typed line)
    (ht : tokens line = cmd :: args) (hclear : cmd ≠ text "clear") :
    Meets T (Healthy T v base) (command cmd args) w Terminated := by
  have hp : ∀ word ∈ args.head?, ∀ b ∈ word, Printable b := fun word hw =>
    h.word (ht ▸ List.mem_cons_of_mem _ (List.mem_of_mem_head? hw))
  unfold command
  refine .ite (fun _ => .get_bind (.pure H (terminated_snoc _))) fun _ => ?_
  refine .ite (fun _ => cmdLs_meets H _) fun _ => ?_
  refine .ite (fun _ => cmdCd_meets H hp) fun _ => ?_
  refine .ite (fun _ => cmdCat_meets H _) fun _ => ?_
  refine .ite (fun _ => .pure H (terminated_snoc _)) fun _ => ?_
  refine .ite (fun h => absurd h hclear) fun _ => ?_
  refine .ite (fun _ => .get_bind (.pure H (lines_terminated _ _))) fun _ => ?_
  refine .ite (fun _ => .get_bind (.pure H (uptimeText_terminated _))) fun _ => ?_
  refine .ite (fun _ => cmdTouch_meets H hp) fun _ => ?_
  refine .ite (fun _ => cmdMkdir_meets H hp) fun _ => ?_
  refine .ite (fun _ => cmdRm_meets H hp) fun _ => ?_
  refine .ite (fun _ => cmdWrite_meets H h ht) fun _ => ?_
  refine .ite (fun _ => .pure H (lines_terminated _ _)) fun _ => ?_
  exact .pure H (terminated_snoc _)

/-- What a line may answer: nothing or whole lines, and the clear signal for `clear` alone. -/
structure GoodOutput (line out : Str) : Prop where
  shape : Terminated out ∨ out = clearSentinel
  clear : out = clearSentinel ↔ (tokens line).head? = some (text "clear")

theorem Terminated.ne_clear {out : Str} (h : Terminated out) : out ≠ clearSentinel := by
  rintro rfl
  rcases h with h | h
  · exact absurd h (by decide +kernel)
  · exact absurd h (by decide +kernel)

theorem executeLine_meets (H : Healthy T v base w) {line : Str} (h : Typed line) :
    Meets T (Healthy T v base) (executeLine line) w (GoodOutput line) := by
  unfold executeLine
  cases ht : tokens line with
  | nil =>
    have hempty : ([] : Str) ≠ clearSentinel := by decide +kernel
    exact .pure H ⟨Or.inl (Or.inl rfl), by simpa [ht] using hempty⟩
  | cons cmd args =>
    by_cases hclear : cmd = text "clear"
    · change Meets T (Healthy T v base) (command cmd args) w _
      rw [command_clear args hclear]
      exact .pure H ⟨Or.inr rfl, by simp [ht, hclear]⟩
    · refine (command_meets H h ht hclear).weaken fun out hout => ⟨Or.inl hout, ?_⟩
      simpa [ht, hclear] using hout.ne_clear

theorem session_meets (H : Healthy T v base w) {lines : List (Nat × Str)}
    (h : ∀ x ∈ lines, Typed x.2) :
    Meets T (Healthy T v base) (session lines) w
      (List.Forall₂ (fun x out => GoodOutput x.2 out) lines) := by
  induction lines generalizing w with
  | nil => exact .pure H .nil
  | cons x lines ih =>
    refine .modify_bind ?_
    have H₁ : Healthy T v base { w with kernel := { w.kernel with ticks := x.1 } } :=
      ⟨H.fats, H.sound, H.cwd, H.printable, H.printed⟩
    refine (executeLine_meets H₁ (h x (by simp))).bind fun out w₂ H₂ hout => ?_
    refine (ih H₂ fun y hy => h y (List.mem_cons_of_mem _ hy)).bind fun outs w₃ H₃ houts => ?_
    exact .pure H₃ (.cons hout houts)

end Commands

theorem newShell_healthy {T : Prop} {v : FatFs} {vfs : Vfs Backend} {k : Kernel}
    (hf : T → FatsAre v vfs)
    (hs : T → Sound v (view v k.disk)) : Healthy T v k.console ⟨newShell vfs, k⟩ :=
  ⟨hf, hs, ⟨[], by simp, rfl⟩, root_printable, [], Or.inl rfl, by simp⟩

/-- No sequence of typed lines stops the shell, and each output is empty, whole lines, or
the clear signal that `clear` alone gives. -/
theorem session_safe {v : FatFs} {vfs : Vfs Backend} {k : Kernel} (hf : FatsAre v vfs)
    (W : Fat.WellFormed v k.disk) {lines : List (Nat × Str)} (h : ∀ x ∈ lines, Typed x.2) :
    ∃ outs w, exec (session lines) ⟨newShell vfs, k⟩ = (.ok outs, w) ∧
      List.Forall₂ (fun x out => GoodOutput x.2 out) lines outs := by
  have H : Healthy True v k.console ⟨newShell vfs, k⟩ :=
    newShell_healthy (fun _ => hf) fun _ => W.sound
  obtain ⟨outs, w, hrun, -, houts⟩ := (session_meets H h).returns trivial
  exact ⟨outs, w, hrun, houts⟩

def bootTable : Vfs Backend :=
  (mount (mount (mount new (text "/") (.fat Fat.smallVolume)).2 (text "/tmp") (.tmp TmpFs.new)).2
    (text "/dev") .dev).2

def bootKernel : Kernel := ⟨Fat.blankDisk 20, 0, [], none⟩

theorem bootTable_fats : FatsAre Fat.smallVolume bootTable := by
  intro m hm u hu
  rcases mem_of_mem_mount hm with hm | hm
  · rcases mem_of_mem_mount hm with hm | hm
    · rcases mem_of_mem_mount hm with hm | hm
      · simp [MountTable.new] at hm
      · rw [hm] at hu
        cases hu
        rfl
    · rw [hm] at hu
      cases hu
  · rw [hm] at hu
    cases hu

theorem session_safe_boot :
    ∃ outs w, exec (session [(0, text "write /dev/disk0 x"), (3, text "ls /tmp"),
      (4, text "clear")])
        ⟨newShell bootTable, bootKernel⟩ = (.ok outs, w) ∧
      ∃ a b, outs = [a, b, clearSentinel] := by
  have htyped : ∀ x ∈ [(0, text "write /dev/disk0 x"), (3, text "ls /tmp"), (4, text "clear")],
      x.2.length ≤ 120 ∧ ∀ b ∈ x.2, 32 ≤ b ∧ b ≤ 126 := by decide +kernel
  obtain ⟨outs, w, hrun, hall⟩ := session_safe (k := bootKernel) bootTable_fats
    (Fat.blankDisk_wellFormed (by decide)) fun x hx => ⟨(htyped x hx).1, (htyped x hx).2⟩
  refine ⟨outs, w, hrun, ?_⟩
  cases hall with
  | cons _ hall =>
    cases hall with
    | cons _ hall =>
      cases hall with
      | cons hclear hall =>
        cases hall
        exact ⟨_, _, by rw [hclear.clear.mpr (by decide +kernel)]⟩

end Willo.ShellCore
