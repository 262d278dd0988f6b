import Willo.ShortNames

/-! What one mutating call of the driver can do, said once. A call is refused by its
own checks and changes nothing; or it runs out of clusters, after which the
clusters in use are those left once the old entry of the name was dropped; or it
removes an entry; or it stores one. All later results go through `Effect`. -/

namespace Willo.Fat
open Text Paths ByteCodec BlockDevice FaultState LinkedChain RootedGraph TreeStore

/-- The checks on the path itself, once the parent is a directory. -/
def Permitted (v : FatFs) (w : View) (old : Option DirEntry) : Mutation UInt8 → Prop
  | .createFile | .writeFile _ | .appendFile _ => ∀ e, old = some e → e.isDir = false
  | .createDir => old = none
  | .remove => ∃ e, old = some e ∧ (e.isDir = true → entriesIn v w e.cluster = [])

def Ready (v : FatFs) (w : View) (ps : List Str) (name : Str) (op : Mutation UInt8) : Prop :=
  ∃ dir, parentDir v w ps = some dir ∧ Permitted v w (findIn v w dir name) op

def newData (v : FatFs) (w : View) (old : Option DirEntry) : Mutation UInt8 → Option Bytes
  | .createFile => some []
  | .writeFile data => some data
  | .appendFile data =>
    match old with
    | some e => some (content v w e ++ data)
    | none => some data
  | .createDir | .remove => none

/-- How many clusters a call takes: for the content, and one if the directory must grow. -/
def demand (v : FatFs) (w : View) (dir : Nat) (old : Option DirEntry) (op : Mutation UInt8) : Nat :=
  (match newData v w old op with
    | some data => clustersFor v data.length
    | none => 1) +
  if old.isNone && crowded w (chainOf v w dir) then 1 else 0

def released (v : FatFs) (w : View) : Option DirEntry → View
  | some e => w.clear (chainOf v w e.cluster)
  | none => w

def Enough (v : FatFs) (w : View) (ps : List Str) (name : Str) (op : Mutation UInt8) : Prop :=
  ∀ dir, parentDir v w ps = some dir → op ≠ .remove → Permitted v w (findIn v w dir name) op →
    demand v w dir (findIn v w dir name) op ≤ usable v (released v w (findIn v w dir name))

inductive Cleared (v : FatFs) (w : View) (dir : Nat) : Option DirEntry → View → Prop
  | absent : Cleared v w dir none w
  | dropped {e : DirEntry} {i : Nat} {w₁ : View} : e.isDir = false → Dropped v w w₁ dir i e →
      w₁.fat = (w.clear (chainOf v w e.cluster)).fat → Shown v w₁ → Cleared v w dir (some e) w₁

/-- The fresh clusters hold what the call stores. -/
inductive Payload (v : FatFs) (w : View) (dir : Nat) (old : Option DirEntry) (op : Mutation UInt8) :
    UInt8 → Nat → List Nat → View → Prop
  | file {data : Bytes} {attrs : UInt8} {cs : List Nat} {w₂ : View} :
      newData v w old op = some data → attrs = 0 ∨ attrs = 0x20 →
      cs.length = clustersFor v data.length →
      (data.length ≤ cs.length * clusterBytes v → (cs.flatMap w₂.data).take data.length = data) →
      Payload v w dir old op attrs (data.length % 2 ^ 32) cs w₂
  | dir {c : Nat} {w₂ : View} : op = .createDir →
      w₂.data c = writeShortEntry [dot] attrDirectory c 0 ++
        writeShortEntry [dot, dot] attrDirectory (dotdotCluster v dir) 0 ++
        List.replicate (clusterBytes v - 64) 0 →
      Payload v w dir old op attrDirectory 0 [c] w₂

inductive Effect (v : FatFs) (w : View) (ps : List Str) (name : Str) (op : Mutation UInt8) :
    Except Fault Unit → View → Prop
  | refused {err : FsError} : ¬ Ready v w ps name op → Effect v w ps name op (.error (.err err)) w
  | starved {dir : Nat} {w₁ w' : View} : parentDir v w ps = some dir →
      Permitted v w (findIn v w dir name) op → op ≠ .remove →
      ¬ demand v w dir (findIn v w dir name) op ≤ usable v (released v w (findIn v w dir name)) →
      Cleared v w dir (findIn v w dir name) w₁ → Spares w₁ w' →
      (freeClusters v w₁ = [] → w' = w₁) → Shown v w' →
      Effect v w ps name op (.error (.err .io)) w'
  | removed {dir i : Nat} {e : DirEntry} {w' : View} : op = .remove → parentDir v w ps = some dir →
      findIn v w dir name = some e → Dropped v w w' dir i e → Shown v w' →
      Effect v w ps name op (.ok ()) w'
  | stored {dir i size : Nat} {attrs : UInt8} {cs cs' : List Nat} {blank : List Bytes}
      {w₁ w₂ w' : View} : parentDir v w ps = some dir → Permitted v w (findIn v w dir name) op →
      op ≠ .remove →
      demand v w dir (findIn v w dir name) op ≤ usable v (released v w (findIn v w dir name)) →
      Cleared v w dir (findIn v w dir name) w₁ →
      Hooked v w₁ w₂ w' dir i (writeShortEntry name attrs (cs.headD 0) size) cs cs' blank →
      Payload v w dir (findIn v w dir name) op attrs size cs w₂ → Shown v w' →
      Effect v w ps name op (.ok ()) w'

section Checking

variable {v : FatFs} {w : View} {ps : List Str} {name : Str} {dir : Nat} {op : Mutation UInt8}

theorem not_ready (hdir : parentDir v w ps = none) : ¬ Ready v w ps name op := by
  rintro ⟨dir, h, -⟩
  rw [hdir] at h
  cases h

theorem ready_dir (hdir : parentDir v w ps = some dir) :
    Ready v w ps name op ↔ Permitted v w (findIn v w dir name) op := by
  simp [Ready, hdir]

end Checking

section Clearing

variable {v : FatFs} {w w₁ : View} {dir : Nat} {old : Option DirEntry}

theorem Cleared.sound (S : Sound v w) (h : Cleared v w dir old w₁) : Sound v w₁ := by
  cases h with
  | absent => exact S
  | dropped _ T _ hw => exact T.sound S hw

theorem Cleared.sturdy (S : Sturdy v w) (h : Cleared v w dir old w₁) : Sturdy v w₁ := by
  cases h with
  | absent => exact S
  | dropped _ T _ hw => exact T.sturdy S hw

theorem Cleared.reach (S : Sturdy v w) (hr : Reach (graph v w) dir) (h : Cleared v w dir old w₁) :
    Reach (graph v w₁) dir := by
  cases h with
  | absent => exact hr
  | dropped _ T _ _ => exact ((T.detached S).reach_iff S.forest dir).mpr ⟨hr, T.not_self⟩

theorem Cleared.usable_eq (h : Cleared v w dir old w₁) :
    usable v w₁ = usable v (released v w old) ∧
      freeClusters v w₁ = freeClusters v (released v w old) := by
  cases h with
  | absent => exact ⟨rfl, rfl⟩
  | @dropped e i w₁ _ T hfat _ =>
    have hfree : freeClusters v w₁ = freeClusters v (released v w (some e)) := by
      unfold freeClusters
      rw [hfat]
      rfl
    have hfits : ∀ x, Fits v w₁ x ↔ Fits v (released v w (some e)) x := fun x => by
      unfold Fits
      rw [T.sectors]
      rfl
    refine ⟨?_, hfree⟩
    unfold usable
    simp only [hfree, hfits]

theorem Cleared.crowded_eq (S : Sturdy v w) (h : Cleared v w dir old w₁) :
    crowded w₁ (chainOf v w₁ dir) = (old.isNone && crowded w (chainOf v w dir)) := by
  cases h with
  | absent => rfl
  | dropped _ T _ _ => exact T.not_crowded S

end Clearing

section Storing

variable {v : FatFs} {w w₁ : View} {ps : List Str} {name : Str} {op : Mutation UInt8} {dir : Nat}

theorem Fresh.head_lt (g : Geometry v w.sectors) {cs : List Nat} (F : Fresh v w w₁ cs) :
    cs.headD 0 < 2 ^ 32 := by
  cases cs with
  | nil => decide
  | cons c cs =>
    have h := (F.wasFree (c := c) (by simp)).1.2
    have := g.countLe
    rw [List.headD_cons]
    omega

theorem Fresh.hooked_file (S : Sturdy v w) (hr : Reach (graph v w) dir) {cs cs' : List Nat}
    {w' : View} {blank : List Bytes} {i size : Nat} {attrs : UInt8} (F : Fresh v w w₁ cs)
    (ha : attrs = 0 ∨ attrs = 0x20) (hs : size < 2 ^ 32)
    (A : Added v w₁ w' dir (chainOf v w dir) (writeShortEntry name attrs (cs.headD 0) size)
      cs' blank i) :
    Hooked v w w₁ w' dir i (writeShortEntry name attrs (cs.headD 0) size) cs cs' blank := by
  have hdecode : ∀ e, decodeSlot (writeShortEntry name attrs (cs.headD 0) size) = some e →
      e.cluster = cs.headD 0 ∧ e.isDir = false := by
    intro e he
    rw [decodeSlot_writeShortEntry name _ _ (by tauto) (F.head_lt S.geometry) hs] at he
    split_ifs at he
    rw [← Option.some.inj he]
    refine ⟨rfl, ?_⟩
    rcases ha with rfl | rfl <;> rfl
  exact ⟨hr, F, A, fun e he => (hdecode e he).1, fun e he hd => by simp [(hdecode e he).2] at hd⟩

theorem discardOld_dir (S : Sturdy v w) (hr : Reach (graph v w) dir) {e : DirEntry}
    (hf : findIn v w dir name = some e) (hd : e.isDir = true) :
    Runs v (discardOld v dir name) w (.error (.err .isADir)) w := by
  refine (findInDir_runs S hr name).bind ?_
  simp only [hf, if_pos hd]
  exact .throw _

theorem discardOld_runs (S : Sturdy v w) (hn : Component name) (hr : Reach (graph v w) dir)
    (hfile : ∀ e, findIn v w dir name = some e → e.isDir = false) :
    ∃ w₁, Runs v (discardOld v dir name) w (.ok ()) w₁ ∧
    Cleared v w dir (findIn v w dir name) w₁ := by
  cases hf : findIn v w dir name with
  | none =>
    refine ⟨w, (findInDir_runs S hr name).bind ?_, .absent⟩
    rw [hf]
    exact .pure ()
  | some e =>
    have hd := hfile e hf
    obtain ⟨w₁, i, hrun, T, hfat⟩ := drop_runs S hn hr hf (by simp [hd])
    refine ⟨w₁, (findInDir_runs S hr name).bind ?_, .dropped hd T hfat (hrun.shown S.shown)⟩
    rw [freeOld_bind] at hrun
    simpa only [hf, hd, Bool.false_eq_true, if_false] using hrun

theorem hook_effect (S : Sturdy v w) (hdir : parentDir v w ps = some dir) (hop : op ≠ .remove)
    (hperm : Permitted v w (findIn v w dir name) op) (C : Cleared v w dir (findIn v w dir name) w₁)
    {w₂ : View} {cs : List Nat} {attrs : UInt8} {size : Nat} (F : Fresh v w₁ w₂ cs)
    (hw : Shown v w₂) (P : Payload v w dir (findIn v w dir name) op attrs size cs w₂)
    (hdemand : demand v w dir (findIn v w dir name) op =
      cs.length + if crowded w₁ (chainOf v w₁ dir) then 1 else 0)
    (hhook : ∀ {w' cs' blank i}, Added v w₂ w' dir (chainOf v w₁ dir)
        (writeShortEntry name attrs (cs.headD 0) size) cs' blank i →
      Hooked v w₁ w₂ w' dir i (writeShortEntry name attrs (cs.headD 0) size) cs cs' blank)
    (hroom : cs.length ≤ usable v w₁) :
    ∃ r w', Runs v (addDirEntry v dir name attrs (cs.headD 0) size) w₂ r w' ∧
      Effect v w ps name op r w' := by
  have S₁ := C.sturdy S
  have hr₁ := C.reach S (parentDir_reach hdir)
  obtain ⟨huse, -⟩ := C.usable_eq
  by_cases hgrow : crowded w₁ (chainOf v w₁ dir) = true → cs.length + 1 ≤ usable v w₁
  · obtain ⟨w', cs', blank, i, hrun, A⟩ := hook_ok S₁ hr₁ F
      (length_writeShortEntry name attrs (cs.headD 0) size) hgrow
    refine ⟨_, w', hrun, .stored hdir hperm hop ?_ C (hhook A) P (hrun.shown hw)⟩
    rw [hdemand, ← huse]
    split_ifs with hc
    · exact hgrow hc
    · exact hroom
  · rw [Classical.not_imp] at hgrow
    obtain ⟨w', hrun, hspare, hsame⟩ := hook_error S₁ hr₁ F hgrow.1 hgrow.2
    refine ⟨_, w', hrun, .starved hdir hperm hop ?_ C hspare hsame (hrun.shown hw)⟩
    rw [hdemand, if_pos hgrow.1, ← huse]
    exact hgrow.2

def replaceFile (v : FatFs) (dir : Nat) (name : Str) (data : Bytes) : FatM Unit := do
  discardOld v dir name
  let firstCluster ← storeData v data
  addDirEntry v dir name 0x20 firstCluster (data.length % 2 ^ 32)

theorem demand_file (S : Sturdy v w) {old : Option DirEntry} (C : Cleared v w dir old w₁)
    {data : Bytes} (hdata : newData v w old op = some data) : demand v w dir old op =
      clustersFor v data.length + if crowded w₁ (chainOf v w₁ dir) then 1 else 0 := by
  rw [demand, hdata, C.crowded_eq S]

theorem replaceFile_effect (S : Sturdy v w) (hn : Component name)
    (hdir : parentDir v w ps = some dir)
    (hop : op ≠ .remove) (hperm : Permitted v w (findIn v w dir name) op)
    (hfile : ∀ e, findIn v w dir name = some e → e.isDir = false) {data : Bytes}
    (hdata : newData v w (findIn v w dir name) op = some data) :
    ∃ r w', Runs v (replaceFile v dir name data) w r w' ∧ Effect v w ps name op r w' := by
  have hr := parentDir_reach hdir
  obtain ⟨w₁, hdrop, C⟩ := discardOld_runs S hn hr hfile
  have S₁ := C.sturdy S
  have hr₁ := C.reach S hr
  have hdemand := demand_file S C hdata
  by_cases hstore : clustersFor v data.length ≤ usable v w₁
  · obtain ⟨cs, w₂, hlen, hrun, F, hcontent⟩ := storeData_ok S₁.geometry hstore
    rw [← hlen] at hdemand hstore
    obtain ⟨r, w', hadd, E⟩ := hook_effect S hdir hop hperm C F (hrun.shown S₁.shown)
      (.file hdata (Or.inr rfl) hlen hcontent) hdemand
      (F.hooked_file S₁ hr₁ (Or.inr rfl) (Nat.mod_lt _ (by decide))) hstore
    exact ⟨r, w', hdrop.bind (hrun.bind hadd), E⟩
  · obtain ⟨w', hrun, hspare, hsame⟩ := storeData_error S₁.geometry hstore
    have hall : Runs v (replaceFile v dir name data) w _ w' := hdrop.bind hrun.bind_error
    refine ⟨_, w', hall, .starved hdir hperm hop ?_ C hspare hsame (hall.shown S.shown)⟩
    rw [hdemand, ← C.usable_eq.1]
    omega

theorem writeFile_effect (S : Sturdy v w) (hps : ∀ s ∈ ps, Component s) (hn : Component name)
    (hdir : parentDir v w ps = some dir) (hop : op ≠ .remove)
    (hperm : Permitted v w (findIn v w dir name) op)
    (hfile : ∀ e, findIn v w dir name = some e → e.isDir = false) {data : Bytes}
    (hdata : newData v w (findIn v w dir name) op = some data) :
    ∃ r w', Runs v (writeFile v (render (ps ++ [name])) data) w r w' ∧
    Effect v w ps name op r w' := by
  obtain ⟨r, w', hrun, E⟩ := replaceFile_effect S hn hdir hop hperm hfile hdata
  exact ⟨r, w', (openParent_some S hps hn hdir).bind hrun, E⟩

theorem openParent_refused (S : Sturdy v w) (hps : ∀ s ∈ ps, Component s) (hn : Component name)
    (hdir : parentDir v w ps = none) (k : Str × Nat × Str → FatM Unit) :
    ∃ r w', Runs v (openParent v (render (ps ++ [name])) >>= k) w r w' ∧
    Effect v w ps name op r w' :=
  ⟨_, w, (openParent_none S hps hn hdir).bind_error, .refused (not_ready hdir)⟩

theorem emptyFile_effect (S : Sturdy v w) (hdir : parentDir v w ps = some dir)
    (hfile : ∀ e, findIn v w dir name = some e → e.isDir = false)
    (C : Cleared v w dir (findIn v w dir name) w₁) {attrs : UInt8} (ha : attrs = 0 ∨ attrs = 0x20) :
    ∃ r w', Runs v (addDirEntry v dir name attrs 0 0) w₁ r w' ∧
    Effect v w ps name .createFile r w' := by
  have S₁ := C.sturdy S
  have hzero : ([] : List Nat).length = clustersFor v ([] : Bytes).length :=
    (clustersFor_nil S.geometry).symm
  have hdata : newData v w (findIn v w dir name) .createFile = some [] := rfl
  have hdemand := demand_file S C hdata
  rw [← hzero] at hdemand
  have P : Payload v w dir (findIn v w dir name) .createFile attrs
      (([] : Bytes).length % 2 ^ 32) [] w₁ :=
    .file hdata ha hzero (by simp)
  rw [List.length_nil, Nat.zero_mod] at P
  have hperm : Permitted v w (findIn v w dir name) .createFile := hfile
  have hall := hook_effect S hdir (by simp) hperm C (.refl v w₁) S₁.shown P hdemand
    ((Fresh.refl v w₁).hooked_file S₁ (C.reach S (parentDir_reach hdir)) ha (by decide))
    (Nat.zero_le _)
  rwa [List.headD_nil] at hall

theorem truncateFile_effect (S : Sturdy v w) (hn : Component name)
    (hdir : parentDir v w ps = some dir) {e : DirEntry} (hf : findIn v w dir name = some e) :
    ∃ r w', Runs v (truncateFile v dir name) w r w' ∧ Effect v w ps name .createFile r w' := by
  have hr := parentDir_reach hdir
  have hfind := findInDir_runs S hr name
  rw [hf] at hfind
  by_cases hd : e.isDir = true
  · refine ⟨.error (.err .isADir), w, hfind.bind ?_, .refused ?_⟩
    · simp only [if_pos hd]
      exact .throw _
    · rw [ready_dir hdir, hf]
      intro hperm
      simp [hperm e rfl] at hd
  · rw [Bool.not_eq_true] at hd
    have hfile : ∀ e', findIn v w dir name = some e' → e'.isDir = false := by
      intro e' he'
      rw [hf] at he'
      rwa [← Option.some.inj he']
    obtain ⟨w₁, i, hrun, T, hfat⟩ := drop_runs S hn hr hf (by simp [hd])
    have C : Cleared v w dir (findIn v w dir name) w₁ := by
      rw [hf]
      exact .dropped hd T hfat (hrun.shown S.shown)
    obtain ⟨r, w', hadd, E⟩ := emptyFile_effect S hdir hfile C (Or.inr rfl)
    have hall : Runs v
      (do (do freeOld v e; deleteDirEntry v dir name); addDirEntry v dir name 0x20 0 0)
        w r w' := hrun.bind hadd
    rw [bind_assoc, freeOld_bind] at hall
    refine ⟨r, w', hfind.bind ?_, E⟩
    simpa only [hd, Bool.false_eq_true, if_false] using hall

theorem createFile_effect (S : Sturdy v w) (hps : ∀ s ∈ ps, Component s) (hn : Component name) :
    ∃ r w', Runs v (createFile v (render (ps ++ [name]))) w r w' ∧
      Effect v w ps name .createFile r w' := by
  cases hdir : parentDir v w ps with
  | none => exact openParent_refused S hps hn hdir _
  | some dir =>
    have hopen := openParent_some S hps hn hdir
    have hfind := findInDir_runs S (parentDir_reach hdir) name
    cases hf : findIn v w dir name with
    | none =>
      have C : Cleared v w dir (findIn v w dir name) w := by
        rw [hf]
        exact .absent
      obtain ⟨r, w', hadd, E⟩ := emptyFile_effect S hdir (by simp [hf]) C (Or.inl rfl)
      rw [hf] at hfind
      exact ⟨r, w', hopen.bind (hfind.bind hadd), E⟩
    | some e =>
      obtain ⟨r, w', hrun, E⟩ := truncateFile_effect S hn hdir hf
      rw [hf] at hfind
      exact ⟨r, w', hopen.bind (hfind.bind hrun), E⟩

theorem writeFile_refused (S : Sturdy v w) (hps : ∀ s ∈ ps, Component s) (hn : Component name)
    (hdir : parentDir v w ps = some dir) {e : DirEntry} (hf : findIn v w dir name = some e)
    (hd : e.isDir = true) (data : Bytes) :
    Runs v (writeFile v (render (ps ++ [name])) data) w (.error (.err .isADir)) w :=
  (openParent_some S hps hn hdir).bind (discardOld_dir S (parentDir_reach hdir) hf hd).bind_error

theorem writeFile_call (S : Sturdy v w) (hps : ∀ s ∈ ps, Component s) (hn : Component name)
    (data : Bytes) : ∃ r w', Runs v (writeFile v (render (ps ++ [name])) data) w r w' ∧
      Effect v w ps name (.writeFile data) r w' := by
  cases hdir : parentDir v w ps with
  | none => exact openParent_refused S hps hn hdir _
  | some dir =>
    by_cases hfile : ∀ e, findIn v w dir name = some e → e.isDir = false
    · have hperm : Permitted v w (findIn v w dir name) (.writeFile data) := hfile
      exact writeFile_effect S hps hn hdir (by simp) hperm hfile rfl
    · obtain ⟨e, he⟩ := not_forall.mp hfile
      obtain ⟨hf, hd⟩ := Classical.not_imp.mp he
      refine ⟨_, w, writeFile_refused S hps hn hdir hf (by simpa using hd) data, .refused ?_⟩
      rw [ready_dir hdir]
      exact hfile

theorem appendFile_call (S : Sturdy v w) (hps : ∀ s ∈ ps, Component s) (hn : Component name)
    (data : Bytes) : ∃ r w', Runs v (appendFile v (render (ps ++ [name])) data) w r w' ∧
      Effect v w ps name (.appendFile data) r w' := by
  have hread := readFile_runs S (render (ps ++ [name]))
  have hcomps : ∀ s ∈ ps ++ [name], Component s :=
    List.forall_mem_append.mpr ⟨hps, List.forall_mem_singleton.mpr hn⟩
  rw [fileAt, lookupIn_render hcomps, walk_snoc] at hread
  cases hdir : parentDir v w ps with
  | none =>
    have hno : ¬ Ready v w ps name (.appendFile data) := not_ready hdir
    have hwrite (all : Bytes) : Runs v (writeFile v (render (ps ++ [name])) all) w
        (.error (.err .notADir)) w := (openParent_none S hps hn hdir).bind_error
    rw [hdir] at hread
    cases hw : walk v w (rootEntry v) ps with
    | ok d =>
      rw [hw] at hread
      exact ⟨_, w, hread.attempt_error.bind (.throw _), .refused hno⟩
    | error err =>
      rw [hw] at hread
      cases err with
      | notFound => exact ⟨_, w, hread.attempt_error.bind (hwrite _), .refused hno⟩
      | _ => exact ⟨_, w, hread.attempt_error.bind (.throw _), .refused hno⟩
  | some dir =>
    simp only [hdir] at hread
    cases hf : findIn v w dir name with
    | none =>
      rw [hf] at hread
      have hfile : ∀ e, findIn v w dir name = some e → e.isDir = false := by simp [hf]
      have hperm : Permitted v w (findIn v w dir name) (.appendFile data) := hfile
      have hdata : newData v w (findIn v w dir name) (.appendFile data) = some data := by
        rw [hf]; rfl
      obtain ⟨r, w', hrun, E⟩ := writeFile_effect S hps hn hdir (by simp) hperm hfile hdata
      exact ⟨r, w', hread.attempt_error.bind hrun, E⟩
    | some e =>
      rw [hf] at hread
      change Runs v _ w (outcome (if e.isDir then .error .isADir
        else .ok (content v w e))) w at hread
      by_cases hd : e.isDir = true
      · rw [if_pos hd] at hread
        refine ⟨_, w, hread.attempt_error.bind (.throw _), .refused ?_⟩
        rw [ready_dir hdir, hf]
        intro hperm
        simp [hperm e rfl] at hd
      · rw [if_neg hd] at hread
        have hfile : ∀ e', findIn v w dir name = some e' → e'.isDir = false := by
          intro e' he'
          rw [hf] at he'
          rw [← Option.some.inj he']
          simpa using hd
        have hperm : Permitted v w (findIn v w dir name) (.appendFile data) := hfile
        have hdata : newData v w (findIn v w dir name) (.appendFile data) =
            some (content v w e ++ data) := by rw [hf]; rfl
        obtain ⟨r, w', hrun, E⟩ := writeFile_effect S hps hn hdir (by simp) hperm hfile hdata
        exact ⟨r, w', hread.attempt_ok.bind hrun, E⟩

theorem remove_runs (S : Sturdy v w) (hps : ∀ s ∈ ps, Component s) (hn : Component name) :
    ∃ r w', Runs v (remove v (render (ps ++ [name]))) w r w' ∧
      ((¬ Ready v w ps name .remove ∧ (∃ err, r = .error (.err err)) ∧ w' = w) ∨
        ∃ dir i e, parentDir v w ps = some dir ∧ findIn v w dir name = some e ∧
          (e.isDir = true → entriesIn v w e.cluster = []) ∧ r = .ok () ∧ Cut v w w' dir i e ∧
          w'.fat = (w.clear (chainOf v w e.cluster)).fat) := by
  unfold remove
  rw [splitParent_render hn, pure_bind]
  cases hdir : parentDir v w ps with
  | none =>
    obtain ⟨err, hrun⟩ := clusterFor_none S hps hdir
    exact ⟨_, w, hrun.bind_error, Or.inl ⟨not_ready hdir, ⟨err, rfl⟩, rfl⟩⟩
  | some dir =>
    have hr := parentDir_reach hdir
    have hopen := clusterFor_some S hps hdir
    have hfind := findInDir_runs S hr name
    cases hf : findIn v w dir name with
    | none =>
      rw [hf] at hfind
      refine ⟨_, w, hopen.bind (hfind.bind (.throw _)), Or.inl ⟨?_, ⟨_, rfl⟩, rfl⟩⟩
      rw [ready_dir hdir, hf]
      rintro ⟨e, he, -⟩
      cases he
    | some e =>
      rw [hf] at hfind
      have hkid (hd : e.isDir = true) : Reach (graph v w) e.cluster := by
        obtain ⟨i, -, -, hi, -⟩ := find_entry hn hf
        exact .step hr hi (DirEntry.child_eq_some.mpr ⟨hd, rfl⟩)
      by_cases hkids : e.isDir = true → entriesIn v w e.cluster = []
      · obtain ⟨w', i, hrun, T, hfat⟩ := cut_runs S hn hr hf
        refine ⟨_, w', hopen.bind (hfind.bind ?_), Or.inr ⟨dir, i, e, rfl, hf, hkids, rfl, T, hfat⟩⟩
        rw [freeOld_bind] at hrun
        dsimp only
        by_cases hd : e.isDir = true
        · rw [if_pos hd]
          refine (readDir_runs S (hkid hd)).bind ?_
          rw [if_neg (by simp [hkids hd])]
          exact hrun
        · rw [if_neg hd]
          exact hrun
      · obtain ⟨hd, hfull⟩ := Classical.not_imp.mp hkids
        refine ⟨.error (.err .io), w, hopen.bind (hfind.bind ?_), Or.inl ⟨?_, ⟨_, rfl⟩, rfl⟩⟩
        · dsimp only
          rw [if_pos hd]
          refine (readDir_runs S (hkid hd)).bind ?_
          rw [if_pos hfull]
          exact (Runs.throw _).bind_error
        · rw [ready_dir hdir, hf]
          rintro ⟨e', he', hperm⟩
          rw [← Option.some.inj he'] at hperm
          exact hkids hperm

theorem remove_call (S : Sound v w) (hps : ∀ s ∈ ps, Component s) (hn : Component name) :
    ∃ r w', Runs v (remove v (render (ps ++ [name]))) w r w' ∧ Effect v w ps name .remove r w' := by
  obtain ⟨r, w', hrun, ⟨hno, ⟨err, rfl⟩, rfl⟩ | ⟨dir, i, e, hdir, hf, hkids, rfl, T, hfat⟩⟩ :=
    remove_runs S.toSturdy hps hn
  · exact ⟨_, _, hrun, .refused hno⟩
  · have hempty : e.isDir = true → ∀ j, entryAt v w e.cluster j = none := fun hd =>
      entryAt_of_empty S (.step T.reach T.was (DirEntry.child_eq_some.mpr ⟨hd, rfl⟩)) (hkids hd)
    have hfreed : ∀ c, c ∈ chainOf v w e.cluster → w'.fat c = 0 := fun c hc => by
      rw [hfat]
      exact View.clear_fat_of_mem _ hc
    exact ⟨_, w', hrun, .removed rfl hdir hf
      ⟨T.reach, T.was, hempty, T.sectors, hfreed, T.fat, T.data, T.marked⟩ (hrun.shown S.shown)⟩

end Storing

/-! A new directory. -/

section Directories

variable {v : FatFs} {w : View} {ps : List Str} {name : Str} {dir c : Nat}

theorem chunksExact_one {b : Bytes} {n : Nat} (hn : 0 < n) (hb : b.length = n) :
    chunksExact n b = [b] := by
  subst hb
  rw [chunksExact, Nat.div_self hn, List.range_one, List.map_singleton, Nat.mul_zero, slice,
    List.drop_zero, List.take_length]

theorem slots_newDir {a b : Bytes} (ha : a.length = 32) (hb : b.length = 32) {n : Nat}
    (h : w.data c = a ++ b ++ List.replicate n 0) :
    ∃ blank, slots w [c] = a :: b :: blank ∧ ∀ s ∈ blank, byteAt s 0 = 0x00 := by
  refine ⟨chunksExact 32 (List.replicate n 0), ?_, ?_⟩
  · rw [slots_cons, slots_nil, List.append_nil, h, List.append_assoc,
      chunksExact_append (k := 1) (by decide) ha, chunksExact_append (k := 1) (by decide) hb,
      chunksExact_one (by decide) ha, chunksExact_one (by decide) hb]
    rfl
  · intro s hs
    obtain ⟨i, hi, rfl⟩ := List.mem_iff_getElem.mp hs
    rw [getElem_chunksExact, byteAt_slot, byteAt, List.getD_eq_getElem?_getD,
      List.getElem?_replicate]
    split_ifs <;> rfl

theorem dotSlot_writeShortEntry (name : Str) (attrs : UInt8) {c : Nat} (size : Nat)
    (hc : c < 2 ^ 32) :
    DotSlot (writeShortEntry name attrs c size) name c :=
  ⟨slice_name name attrs c size, by rw [decodeEntry_cluster, Nat.mod_eq_of_lt hc]⟩

theorem dotdotCluster_lt (S : Sturdy v w) (hr : Reach (graph v w) dir) :
    dotdotCluster v dir < 2 ^ 32 := by
  have hin := (S.proper hr).1.2
  have := S.geometry.countLe
  unfold dotdotCluster
  split_ifs <;> omega

/-- The slots `mkdir` writes: the dot entries, which are not listed, and unused ones. -/
structure NewDir (v : FatFs) (w : View) (c parent : Nat) : Prop where
  start : ∃ a b blank, slots w [c] = a :: b :: blank ∧ DotSlot a [dot] c ∧
    DotSlot b [dot, dot] (dotdotCluster v parent) ∧ ∀ s ∈ blank, byteAt s 0 = 0x00

theorem NewDir.of_data (hc : c < 2 ^ 32) (hp : dotdotCluster v dir < 2 ^ 32)
    (h : w.data c = writeShortEntry [dot] attrDirectory c 0 ++
      writeShortEntry [dot, dot] attrDirectory (dotdotCluster v dir) 0 ++
      List.replicate (clusterBytes v - 64) 0) : NewDir v w c dir := by
  obtain ⟨blank, hslots, hblank⟩ :=
    slots_newDir (length_writeShortEntry ..) (length_writeShortEntry ..) h
  exact ⟨_, _, blank, hslots, dotSlot_writeShortEntry _ _ 0 hc,
    dotSlot_writeShortEntry _ _ 0 hp, hblank⟩

theorem NewDir.not_entry (h : NewDir v w c dir) : ∀ s ∈ slots w [c], decodeSlot s = none := by
  obtain ⟨a, b, blank, hslots, ha, hb, hblank⟩ := h.start
  intro s hs
  rw [hslots] at hs
  rcases List.mem_cons.mp hs with rfl | hs
  · exact ha.not_entry (Or.inl rfl)
  · rcases List.mem_cons.mp hs with rfl | hs
    · exact hb.not_entry (Or.inr rfl)
    · exact decodeSlot_vacant (by simp [vacant, hblank s hs])

theorem NewDir.zeroTail (h : NewDir v w c dir) : ZeroTail (slots w [c]) := by
  obtain ⟨a, b, blank, hslots, ha, hb, hblank⟩ := h.start
  have hused : byteAt a 0 ≠ 0x00 ∧ byteAt b 0 ≠ 0x00 := by
    rw [(ha.dotName (Or.inl rfl)).1, (hb.dotName (Or.inr rfl)).1]
    decide
  rw [hslots]
  refine List.pairwise_cons.mpr ⟨fun _ _ hz => absurd hz hused.1, ?_⟩
  refine List.pairwise_cons.mpr ⟨fun _ _ hz => absurd hz hused.2, ?_⟩
  exact List.pairwise_of_forall_mem_list fun _ _ b hb' _ => hblank b hb'

theorem Fresh.hooked_dir (S : Sturdy v w) (hr : Reach (graph v w) dir) {w₁ w' : View}
    {cs' : List Nat} {blank : List Bytes} {i : Nat} (F : Fresh v w w₁ [c]) (N : NewDir v w₁ c dir)
    (A : Added v w₁ w' dir (chainOf v w dir) (writeShortEntry name attrDirectory c 0) cs' blank i) :
    Hooked v w w₁ w' dir i (writeShortEntry name attrDirectory c 0) [c] cs' blank := by
  have hc : c < 2 ^ 32 := F.head_lt S.geometry
  refine ⟨hr, F, A, fun e he => ?_, fun e he _ => ⟨by simp, N.not_entry⟩⟩
  rw [decodeSlot_writeShortEntry name c 0 (by decide) hc (by decide)] at he
  split_ifs at he
  rw [← Option.some.inj he]
  rfl

theorem writeDots_runs (g : Geometry v w.sectors) {w₁ : View} (F : Fresh v w w₁ [c])
    (parent : Nat) :
    let dots :=
      writeShortEntry [dot] attrDirectory c 0 ++ writeShortEntry [dot, dot] attrDirectory parent 0
    ∃ w₂, Runs v (writeCluster v c (dots ++ List.replicate (clusterBytes v - dots.length) 0)) w₁
        (.ok ()) w₂ ∧
      Fresh v w w₂ [c] ∧ w₂.data c = dots ++ List.replicate (clusterBytes v - 64) 0 := by
  intro dots
  have hdots : dots.length = 64 := by
    simp only [dots, List.length_append, length_writeShortEntry]
  have hbig : 64 ≤ clusterBytes v := by
    have := g.clusterPos
    rw [clusterBytes, g.sectorSize, blockSize]
    omega
  have hlen : (dots ++ List.replicate (clusterBytes v - dots.length) 0).length =
    clusterBytes v := by
    rw [List.length_append, List.length_replicate, hdots]
    omega
  have hfit : Fits v w₁ c := by
    unfold Fits
    rw [F.sectors]
    exact F.fits c (by simp)
  refine ⟨_, writeCluster_runs (by rwa [F.sectors]) (F.wasFree (by simp)).1 hfit hlen,
    F.fill rfl rfl fun x hx => ?_, ?_⟩
  · exact View.setData_data_of_ne _ _ _ _ (by simpa using hx)
  · rw [View.setData_data_self, hdots]

theorem createDir_call (S : Sturdy v w) (hps : ∀ s ∈ ps, Component s) (hn : Component name) :
    ∃ r w', Runs v (createDir v (render (ps ++ [name]))) w r w' ∧
      Effect v w ps name .createDir r w' := by
  cases hdir : parentDir v w ps with
  | none => exact openParent_refused S hps hn hdir _
  | some dir =>
    have hr := parentDir_reach hdir
    have hopen := openParent_some S hps hn hdir
    have hfind := findInDir_runs S hr name
    cases hf : findIn v w dir name with
    | some e =>
      rw [hf] at hfind
      refine ⟨_, w, hopen.bind (hfind.bind (.throw _)), .refused ?_⟩
      rw [ready_dir hdir, hf]
      rintro ⟨⟩
    | none =>
      have hperm : Permitted v w (findIn v w dir name) .createDir := hf
      have C : Cleared v w dir (findIn v w dir name) w := by
        rw [hf]
        exact .absent
      have hdemand : demand v w dir (findIn v w dir name) .createDir =
          1 + if crowded w (chainOf v w dir) then 1 else 0 := by
        rw [hf]
        rfl
      rw [hf] at hfind
      by_cases hroom : 1 ≤ usable v w
      · obtain ⟨cs, w₁, hlen, hrun, F, -⟩ := allocateChain_ok S.geometry hroom
        obtain ⟨c, rfl⟩ := List.length_eq_one_iff.mp hlen
        have hparent : (if render ps = [slash] then 0 else dir) = dotdotCluster v dir := by
          simp only [render_eq_slash hps, dotdotCluster, parentDir_root_iff S hdir]
        obtain ⟨w₂, hfill, F₂, hdata⟩ := writeDots_runs S.geometry F (dotdotCluster v dir)
        have N : NewDir v w₂ c dir := .of_data (F.head_lt S.geometry) (dotdotCluster_lt S hr) hdata
        obtain ⟨r, w', hadd, E⟩ := hook_effect S hdir (by simp) hperm C F₂
          (hfill.shown (hrun.shown S.shown)) (.dir rfl hdata) hdemand (F₂.hooked_dir S hr N) hroom
        refine ⟨r, w', hopen.bind (hfind.bind (hrun.bind ?_)), E⟩
        simp only [hparent]
        exact hfill.bind hadd
      · obtain ⟨w', hrun, hspare, hsame⟩ := allocateChain_error S.geometry hroom
        refine ⟨_, w', hopen.bind (hfind.bind hrun.bind_error),
          .starved hdir hperm (by simp) ?_ C hspare hsame (hrun.shown S.shown)⟩
        rw [hdemand, hf]
        change ¬ _ ≤ usable v w
        omega

end Directories

/-- Every mutating call on a path below the root ends, in one of the ways of `Effect`. -/
theorem apply_effect {v : FatFs} {w : View} {ps : List Str} {name : Str} (S : Sound v w)
    (hps : ∀ s ∈ ps, Component s) (hn : Component name) (op : Mutation UInt8) :
    ∃ r w', Runs v (apply v (render (ps ++ [name])) op) w r w' ∧ Effect v w ps name op r w' := by
  cases op with
  | createFile => exact createFile_effect S.toSturdy hps hn
  | writeFile data => exact writeFile_call S.toSturdy hps hn data
  | appendFile data => exact appendFile_call S.toSturdy hps hn data
  | createDir => exact createDir_call S.toSturdy hps hn
  | remove => exact remove_call S hps hn

theorem apply_root {v : FatFs} {w : View} (S : Sturdy v w) (op : Mutation UInt8) :
    ∃ err, Runs v (apply v (render []) op) w (.error (.err err)) w := by
  have hsplit : Runs v (splitParent (render [])) w (.error (.err .io)) w := by
    rw [splitParent_root]
    exact .throw _
  have hopen : Runs v (openParent v (render [])) w (.error (.err .io)) w := hsplit.bind_error
  cases op with
  | createFile => exact ⟨_, hopen.bind_error⟩
  | writeFile data => exact ⟨_, hopen.bind_error⟩
  | appendFile data =>
    have hread : Runs v (readFile v (render [])) w (.error (.err .isADir)) w :=
      readFile_runs S (render [])
    exact ⟨_, hread.attempt_error.bind (.throw _)⟩
  | createDir => exact ⟨_, hopen.bind_error⟩
  | remove => exact ⟨_, hsplit.bind_error⟩

end Willo.Fat
