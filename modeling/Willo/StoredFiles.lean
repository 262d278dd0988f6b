import Willo.VolumeRuns

/-! What a successful store leaves behind. `write_file` reads back and leaves the rest
of the volume alone exactly when the name does not begin with the end marker and
the length fits the size field; under any name, what was stored is found again
exactly when the name comes back from its 11-byte field. -/

namespace Willo.Fat
open Text Paths ByteCodec BlockDevice FaultState LinkedChain RootedGraph TreeStore

/-- After storing `data` at `p`: it reads back, the parent lists the name besides what it
listed, other paths answer as before, and nothing is found below `p`, now or then. -/
structure Written (v : FatFs) (d d' : Disk) (p : List Str) (data : Bytes) : Prop where
  file : answer (readFile v (render p)) d' = .ok data
  listed : ∃ names names', answer (listDir v (render p.dropLast)) d = .ok names ∧
    answer (listDir v (render p.dropLast)) d' = .ok names' ∧
    ∀ s, s ∈ names' ↔ s ∈ names ∨ some s = p.getLast?.map lower
  others : ∀ q, (∀ s ∈ q, Component s) → ¬ fold p <+: fold q →
    answer (readFile v (render q)) d' = answer (readFile v (render q)) d ∧
    answer (isDir v (render q)) d' = answer (isDir v (render q)) d ∧
    (fold q ≠ fold p.dropLast → answer (listDir v (render q)) d' = answer (listDir v (render q)) d)
  below : ∀ q, (∀ s ∈ q, Component s) → fold p <+: fold q → fold q ≠ fold p → ∀ x, x = d ∨ x = d' →
    (∀ b, answer (readFile v (render q)) x ≠ .ok b) ∧
    (∀ l, answer (listDir v (render q)) x ≠ .ok l) ∧ answer (isDir v (render q)) x = .ok false

section ReadBack

variable {v : FatFs} {w w' : View} {d d' : Disk} {ps q : List Str} {name : Str} {dir : Nat}

theorem answers_below (S : Sturdy v (view v d)) {p : List Str}
    (hp : parentDir v (view v d) p = none)
    (hcomps : ∀ s ∈ q, Component s) (hq : fold p <+: fold q) (hne : fold q ≠ fold p) :
    (∀ b, answer (readFile v (render q)) d ≠ .ok b) ∧
      (∀ l, answer (listDir v (render q)) d ≠ .ok l) ∧
      answer (isDir v (render q)) d = .ok false := by
  obtain ⟨err, herr⟩ := walk_below (fun n hn => by rw [hp] at hn; cases hn) hq hne
  obtain ⟨hfile, hnames, hdir⟩ := answers_error hcomps herr
  rw [answer_readFile S, answer_listDir S, answer_isDir S, hfile, hnames, hdir]
  simp [outcome]

theorem Confined.names (F : Confined v w w' dir name)
    (hfound : (findIn v w' dir name).isSome) (s : Str) :
    s ∈ (entriesIn v w' dir).map DirEntry.name ↔
      s ∈ (entriesIn v w dir).map DirEntry.name ∨ s = lower name := by
  rw [mem_names, mem_names]
  by_cases hs : lower s = lower name
  · rw [findIn_congr hs]
    constructor
    · rintro ⟨hlower, -⟩
      exact Or.inr (hlower.symm.trans hs)
    · rintro (⟨hlower, -⟩ | rfl)
      · exact ⟨hlower, hfound⟩
      · exact ⟨lower_idem name, hfound⟩
  · rw [F.others hs]
    constructor
    · exact Or.inl
    · rintro (h | rfl)
      · exact h
      · exact absurd (lower_idem name) hs

/-- Reading back is possible exactly under a name that comes back and a size that fits. -/
theorem Effect.readBack_iff {data : Bytes} (S : Sound v w) (U : UniqueNames v w)
    (hn : Component name)
    (hps : ∀ s ∈ ps, Component s) (E : Effect v w ps name (.writeFile data) (.ok ()) w') :
    fileAt v w' (render (ps ++ [name])) = .ok data ↔ Kept name ∧ data.length < 2 ^ 32 := by
  obtain ⟨dir, e, hdir, hdir', hperm, hfind, hisDir, hcontent, -⟩ := E.found S U hn (by simp)
  have hcomps : ∀ s ∈ ps ++ [name], Component s :=
    List.forall_mem_append.mpr ⟨hps, List.forall_mem_singleton.mpr hn⟩
  have hfile : e.isDir = false := by simpa using hisDir
  rw [fileAt_snoc hcomps hdir', hfind]
  by_cases hkept : Kept name
  · simp only [if_pos hkept, hfile, Bool.false_eq_true, if_false, Except.ok.injEq,
      hcontent data rfl]
    tauto
  · simp [hkept]

theorem perform_ok (S : Sound v (view v d)) {c : Call} (hc : ∀ s ∈ c.path, Component s)
    (hok : (perform v c d).1 = .ok ()) : ∃ ps name, c.path = ps ++ [name] ∧ Component name ∧
      (∀ s ∈ ps, Component s) ∧
      Effect v (view v d) ps name c.op (.ok ()) (view v (perform v c d).2) := by
  rcases perform_effect S hc with ⟨-, ⟨err, herr⟩, -⟩ | ⟨ps, name, hpath, hn, E⟩
  · rw [hok] at herr
    cases herr
  · rw [hok] at E
    exact ⟨ps, name, hpath, hn, fun s hs => hc s (by simp [hpath, hs]), E⟩

theorem Effect.written {data : Bytes} (S : Sound v (view v d)) (U : UniqueNames v (view v d))
    (hn : Component name) (hps : ∀ s ∈ ps, Component s)
    (E : Effect v (view v d) ps name (.writeFile data) (.ok ()) (view v d')) (hkept : Kept name)
    (hlen : data.length < 2 ^ 32) : Written v d d' (ps ++ [name]) data := by
  have S' := E.sturdy S.toSturdy
  have hread := (E.readBack_iff S U hn hps).mpr ⟨hkept, hlen⟩
  obtain ⟨dir, e, hdir, hdir', hperm, hfind, hisDir, -, -⟩ := E.found S U hn (by simp)
  have F := E.confined S U hn hdir fun _ => hkept
  rw [if_pos hkept] at hfind
  have hfile : e.isDir = false := by simpa using hisDir
  have hbefore : parentDir v (view v d) (ps ++ [name]) = none := by
    rw [parentDir_snoc, hdir, Option.bind_some, Option.bind_eq_none_iff]
    exact fun f hf => DirEntry.child_of_file (hperm f hf)
  have hafter : parentDir v (view v d') (ps ++ [name]) = none := by
    rw [parentDir_snoc, hdir', Option.bind_some, hfind, Option.bind_some,
      DirEntry.child_of_file hfile]
  have hinit : (ps ++ [name]).dropLast = ps := List.dropLast_concat
  have hlast : (ps ++ [name]).getLast? = some name := List.getLast?_concat
  refine ⟨?_, ?_, fun q hq hout => ?_, fun q hq hin hne x hx => ?_⟩
  · rw [answer_readFile S', hread]
    rfl
  · refine ⟨(entriesIn v (view v d) dir).map DirEntry.name,
      (entriesIn v (view v d') dir).map DirEntry.name, ?_, ?_, ?_⟩
    · rw [hinit, answer_listDir S.toSturdy, namesAt_dir hps hdir]
      rfl
    · rw [hinit, answer_listDir S', namesAt_dir hps hdir']
      rfl
    · intro s
      rw [F.names (by simp [hfind]) s, hlast]
      simp
  · rw [answer_readFile S', answer_readFile S.toSturdy, answer_isDir S', answer_isDir S.toSturdy,
      answer_listDir S', answer_listDir S.toSturdy, F.fileAt_eq S.toSturdy hdir hq hout,
      F.dirAt_eq S.toSturdy hdir hq hout, hinit]
    exact ⟨rfl, rfl, fun hparent => by rw [F.namesAt_eq S.toSturdy hdir hq hout hparent]⟩
  · rcases hx with rfl | rfl
    · exact answers_below S.toSturdy hbefore hq hin hne
    · exact answers_below S' hafter hq hin hne

end ReadBack

/-- A successful `write_file` on an 8.3 path does what it is for exactly when the last
name does not begin with the end marker and the length fits 32 bits. -/
theorem writeFile_written_iff {v : FatFs} {d : Disk} (W : WellFormed v d) {p : List Str}
    (hp : ∀ s ∈ p, ShortName s) (data : Bytes)
    (hok : answer (writeFile v (render p) data) d = .ok ()) :
    Written v d (exec (writeFile v (render p) data) d).2 p data ↔
      ¬ beginsWithMark p ∧ data.length < 2 ^ 32 := by
  have S := W.sound
  obtain ⟨ps, name, hpath, hn, hps, E⟩ := perform_ok (c := ⟨p, .writeFile data⟩) S
    (ShortName.components hp) hok
  change p = ps ++ [name] at hpath
  subst hpath
  change Effect v _ ps name _ _ (view v (exec (writeFile v (render (ps ++ [name])) data) d).2) at E
  have hkept : Kept name ↔ ¬ beginsWithMark (ps ++ [name]) := by
    rw [(hp name (by simp)).kept_iff]
    simp [beginsWithMark]
  rw [← hkept]
  constructor
  · intro h
    have hfile := h.file
    rw [answer_readFile (E.sturdy S.toSturdy), outcome_eq_ok] at hfile
    exact (E.readBack_iff S W.names hn hps).mp hfile
  · rintro ⟨hk, hlen⟩
    exact E.written S W.names hn hps hk hlen

theorem shortName_a : ShortName [97] := .singleton (by decide)

theorem shortName_mark : ShortName [0x00] := .singleton (by decide)

/-- A file named by the end marker alone is written and not found again. -/
theorem writeMark_unreadable :
    WellFormed smallVolume (blankDisk 20) ∧ (∀ s ∈ [[0x00]], ShortName s) ∧
      answer (writeFile smallVolume (render [[0x00]]) [1]) (blankDisk 20) = .ok () ∧
      ¬ Written smallVolume (blankDisk 20)
        (exec (writeFile smallVolume (render [[0x00]]) [1]) (blankDisk 20)).2 [[0x00]] [1] :=
  ⟨blankDisk_wellFormed (by decide), by simpa using shortName_mark, by decide +kernel,
    fun h => absurd h.file (by decide +kernel)⟩

theorem writeFile_written_blankDisk :
    Written smallVolume (blankDisk 20)
      (exec (writeFile smallVolume (render [[97]]) [1, 2, 3]) (blankDisk 20)).2 [[97]] [1, 2, 3] :=
  (writeFile_written_iff (blankDisk_wellFormed (by decide)) (by simpa using shortName_a) [1, 2, 3]
    (by decide +kernel)).mpr (by decide)

/-! Any name at all. -/

inductive Creation where
  | createFile
  | writeFile (data : Bytes)
  | createDir

def Creation.op : Creation → Mutation UInt8
  | .createFile => .createFile
  | .writeFile data => .writeFile data
  | .createDir => .createDir

def Creation.length : Creation → Nat
  | .writeFile data => data.length
  | .createFile | .createDir => 0

def Creation.Found (v : FatFs) (d : Disk) (p : List Str) : Creation → Prop
  | .createFile => answer (readFile v (render p)) d = .ok []
  | .writeFile data => answer (readFile v (render p)) d = .ok data
  | .createDir => answer (isDir v (render p)) d = .ok true

/-- It is found, and its directory lists no name twice. -/
structure Findable (v : FatFs) (d : Disk) (p : List Str) (c : Creation) : Prop where
  found : c.Found v d p
  unique : ∀ names, answer (listDir v (render p.dropLast)) d = .ok names → (names.map lower).Nodup

section Creating

variable {v : FatFs} {d : Disk} {w w' : View} {ps : List Str} {name : Str} {c : Creation}

theorem Creation.op_ne_remove (c : Creation) : c.op ≠ .remove := by
  cases c <;> simp [Creation.op]

theorem Effect.found_iff (S : Sound v w) (U : UniqueNames v w) (hn : Component name)
    (hps : ∀ s ∈ ps, Component s) (E : Effect v w ps name c.op (.ok ()) (view v d)) :
    c.Found v d (ps ++ [name]) ↔ Kept name ∧ c.length < 2 ^ 32 := by
  have S' := E.sturdy S.toSturdy
  obtain ⟨dir, e, hdir, hdir', hperm, hfind, hisDir, hcontent, -⟩ := E.found S U hn c.op_ne_remove
  have hcomps : ∀ s ∈ ps ++ [name], Component s :=
    List.forall_mem_append.mpr ⟨hps, List.forall_mem_singleton.mpr hn⟩
  cases c with
  | createFile =>
    have hfile : e.isDir = false := by simpa [Creation.op] using hisDir
    rw [Creation.Found, answer_readFile S', outcome_eq_ok, fileAt_snoc hcomps hdir', hfind]
    by_cases hkept : Kept name
    · simp [hkept, hfile, Creation.length, hcontent [] rfl]
    · simp [hkept]
  | writeFile data =>
    rw [Creation.Found, answer_readFile S', outcome_eq_ok]
    exact E.readBack_iff S U hn hps
  | createDir =>
    have hd : e.isDir = true := hisDir.mpr rfl
    rw [Creation.Found, answer_isDir S', dirAt_snoc hcomps hdir', hfind]
    by_cases hkept : Kept name
    · simp [hkept, hd, Creation.length]
    · simp [hkept]

end Creating

/-- Whatever the last name of its path, a creating call that succeeds can be found again
exactly when the name comes back from its slot and the length fits 32 bits. -/
theorem creation_findable_iff {v : FatFs} {d : Disk} (W : WellFormed v d) {ps : List Str}
    {name : Str} (hps : ∀ s ∈ ps, Component s) (hn : Component name) (c : Creation)
    (hok : (perform v ⟨ps ++ [name], c.op⟩ d).1 = .ok ()) :
    Findable v (perform v ⟨ps ++ [name], c.op⟩ d).2 (ps ++ [name]) c ↔
      Kept name ∧ c.length < 2 ^ 32 := by
  have S := W.sound
  have hcomps : ∀ s ∈ ps ++ [name], Component s :=
    List.forall_mem_append.mpr ⟨hps, List.forall_mem_singleton.mpr hn⟩
  obtain ⟨ps', name', hpath, -, -, E⟩ := perform_ok (c := ⟨ps ++ [name], c.op⟩) S hcomps hok
  obtain ⟨rfl, rfl⟩ := List.append_singleton_inj.mp hpath
  have hfound := E.found_iff S W.names hn hps
  constructor
  · exact fun h => hfound.mp h.found
  · intro h
    refine ⟨hfound.mpr h, fun names hnames => ?_⟩
    have S' := E.sound S fun _ => h.1.first
    have U' := E.uniqueNames W.names S hn fun _ => h.1.2
    obtain ⟨dir, -, -, hdir', -⟩ := E.found S W.names hn c.op_ne_remove
    rw [List.dropLast_concat, answer_listDir S'.toSturdy, outcome_eq_ok,
      namesAt_dir hps hdir'] at hnames
    rw [← Except.ok.inj hnames, List.map_map]
    exact nodup_names S' U' (parentDir_reach hdir')

/-- A base of nine letters is cut to eight and not found again. -/
theorem createLong_unfindable :
    WellFormed smallVolume (blankDisk 20) ∧ Component [108, 111, 110, 103, 110, 97, 109, 101, 115] ∧
      (perform smallVolume ⟨[[108, 111, 110, 103, 110, 97, 109, 101, 115]],
      .createFile⟩ (blankDisk 20)).1 =
        .ok () ∧
      ¬ Findable smallVolume (perform smallVolume
        ⟨[[108, 111, 110, 103, 110, 97, 109, 101, 115]], .createFile⟩ (blankDisk 20)).2
        [[108, 111, 110, 103, 110, 97, 109, 101, 115]] .createFile :=
  ⟨blankDisk_wellFormed (by decide), by unfold Component Plain; decide, by decide +kernel,
    fun h => absurd h.found (by unfold Creation.Found; decide +kernel)⟩

theorem creation_findable_blankDisk :
    Findable smallVolume (perform smallVolume ⟨[] ++ [[97, 46, 99]], .createDir⟩ (blankDisk 20)).2
      ([] ++ [[97, 46, 99]]) .createDir :=
  (creation_findable_iff (blankDisk_wellFormed (by decide)) (by simp)
    (by unfold Component Plain; decide) .createDir (by decide +kernel)).mpr (by decide)

end Willo.Fat
