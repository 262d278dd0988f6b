import Willo.DirectorySlots
import Willo.RootedGraph

/-! The directory tree of a view. Following the FAT from a first cluster gives a
chain, a directory's chain gives its slots, and the live slots give its
entries, so the view becomes a rooted graph whose root and entries own the
clusters of their chains. `Sound` collects what keeps this graph in order. On
such a view the read-only calls of the driver compute plain functions of it. -/

namespace Willo.Fat
open Text Paths ByteCodec BlockDevice FaultState LinkedChain RootedGraph

def onChain (c : Nat) : Bool := decide (2 ≤ c ∧ c < eocThreshold)

/-- The clusters from a first cluster on, as a walk along the FAT meets them. -/
def chainOf (v : FatFs) (w : View) (c : Nat) : List Nat := follow w.fat onChain (clusterCount v) c

def dirSlots (v : FatFs) (w : View) (dir : Nat) : List Bytes := slots w (chainOf v w dir)

/-- The entry in a slot, unless the slot is unused, deleted, a label, or a dot entry. -/
def decodeSlot (s : Bytes) : Option DirEntry :=
  if byteAt s 0 = 0x00 ∨ skipped s ∨ isDotName (decodeShortName s) then none
  else some (decodeEntry s)

def entryAt (v : FatFs) (w : View) (dir i : Nat) : Option DirEntry :=
  (dirSlots v w dir)[i]?.bind decodeSlot

/-- Once a slot is unused, so are all the later ones. -/
def ZeroTail (ss : List Bytes) : Prop := ss.Pairwise fun a b => byteAt a 0 = 0x00 →
    byteAt b 0 = 0x00

def DirEntry.child (e : DirEntry) : Option Nat := if e.isDir then some e.cluster else none

def graph (v : FatFs) (w : View) : Graph Nat Nat DirEntry where
  root := v.rootCluster
  entry := entryAt v w
  child := DirEntry.child
  base c := c ∈ chainOf v w v.rootCluster
  part e c := c ∈ chainOf v w e.cluster

def Proper (v : FatFs) (w : View) (c : Nat) : Prop := InFat v c ∧ Chain v w c (chainOf v w c)

/-- The chains in reach are chains, on the device, and apart from each other. -/
structure Sturdy (v : FatFs) (w : View) : Prop where
  geometry : Geometry v w.sectors
  shown : Shown v w
  root : Proper v w v.rootCluster
  entries : ∀ {dir i e}, Reach (graph v w) dir → entryAt v w dir i = some e →
    e.isDir = true ∨ 2 ≤ e.cluster → Proper v w e.cluster
  forest : Forest (graph v w)
  fits : ∀ {c}, Held (graph v w) c → Fits v w c

structure Sound (v : FatFs) (w : View) : Prop extends Sturdy v w where
  tails : ∀ {dir}, Reach (graph v w) dir → ZeroTail (dirSlots v w dir)

section Chains

variable {v : FatFs} {w w' : View} {c : Nat} {cs : List Nat}

theorem chainOf_eq (g : Geometry v w.sectors) (h : Chain v w c cs) : chainOf v w c = cs := by
  refine h.follow_eq (fun b hb => ?_) (fun b hb => ?_) (h.length_le g)
  · simpa [onChain] using ⟨hb.1, hb.lt_eoc g⟩
  · simp only [onChain, decide_eq_false_iff_not]
    omega

theorem chainOf_small (h : c < 2) : chainOf v w c = [] := by
  unfold chainOf
  cases clusterCount v with
  | zero => rfl
  | succ n =>
    rw [follow, if_neg]
    simp only [onChain, decide_eq_true_eq]
    omega

theorem Proper.of_chain (g : Geometry v w.sectors) (hc : InFat v c) (h : Chain v w c cs) :
    Proper v w c := ⟨hc, by rwa [chainOf_eq g h]⟩

theorem Proper.start_mem (g : Geometry v w.sectors) (h : Proper v w c) : c ∈ chainOf v w c := by
  obtain ⟨rest, hrest⟩ := h.2.head (inFat_not_eoc g) h.1
  rw [hrest]
  exact List.mem_cons_self

theorem Proper.fat_ne_zero (h : Proper v w c) {x : Nat} (hx : x ∈ chainOf v w c) : w.fat x ≠ 0 :=
  h.2.fat_ne_zero x hx

theorem Proper.congr (g : Geometry v w.sectors) (hs : w'.sectors = w.sectors) (h : Proper v w c)
    (heq : ∀ x ∈ chainOf v w c, w'.fat x = w.fat x) :
    Proper v w' c ∧ chainOf v w' c = chainOf v w c := by
  have hg : Geometry v w'.sectors := by rwa [hs]
  have hchain : Chain v w' c (chainOf v w c) := h.2.congr heq
  exact ⟨.of_chain hg h.1 hchain, chainOf_eq hg hchain⟩

theorem DirEntry.child_eq_some {e : DirEntry} {n : Nat} :
    e.child = some n ↔ e.isDir = true ∧ e.cluster = n := by
  unfold DirEntry.child
  split_ifs with h <;> simp [h]

end Chains

section SturdyViews

variable {v : FatFs} {w : View} {dir i c : Nat} {e : DirEntry}

theorem Sturdy.proper (S : Sturdy v w) (h : Reach (graph v w) dir) : Proper v w dir := by
  cases h with
  | root => exact S.root
  | step hn he hm =>
    obtain ⟨hd, rfl⟩ := DirEntry.child_eq_some.mp hm
    exact S.entries hn he (Or.inl hd)

theorem held_dir (h : Reach (graph v w) dir) (hc : c ∈ chainOf v w dir) : Held (graph v w) c := by
  cases h with
  | root => exact ⟨.root, .root hc⟩
  | step hn he hm =>
    obtain ⟨-, rfl⟩ := DirEntry.child_eq_some.mp hm
    exact ⟨_, .slot hn he hc⟩

theorem Sturdy.held_chain (S : Sturdy v w) (h : Held (graph v w) c) :
    ∃ start, Proper v w start ∧ c ∈ chainOf v w start := by
  obtain ⟨o, h⟩ := h
  cases h with
  | root hb => exact ⟨v.rootCluster, S.root, hb⟩
  | @slot n _ i e hn he hp =>
    refine ⟨e.cluster, S.entries hn he (Or.inr ?_), hp⟩
    by_contra hlt
    change c ∈ chainOf v w e.cluster at hp
    rw [chainOf_small (by omega)] at hp
    simp at hp

theorem Sturdy.held_used (S : Sturdy v w) (h : Held (graph v w) c) : w.fat c ≠ 0 := by
  obtain ⟨start, hp, hc⟩ := S.held_chain h
  exact hp.fat_ne_zero hc

theorem Sturdy.fits_dir (S : Sturdy v w) (h : Reach (graph v w) dir) :
    ∀ c ∈ chainOf v w dir, Fits v w c := fun _ hc => S.fits (held_dir h hc)

theorem Sturdy.fits_entry (S : Sturdy v w) (h : Reach (graph v w) dir)
    (he : entryAt v w dir i = some e) : ∀ c ∈ chainOf v w e.cluster, Fits v w c :=
  fun _ hc => S.fits ⟨_, .slot h he hc⟩

end SturdyViews

/-! Reading directories and paths. -/

theorem scanDir_subset {ss : List Bytes} {e : DirEntry} (h : e ∈ scanDir ss) :
    ∃ s ∈ ss, decodeSlot s = some e := by
  induction ss with
  | nil => simp [scanDir] at h
  | cons s ss ih =>
    have hrest : e ∈ scanDir ss → ∃ t ∈ s :: ss, decodeSlot t = some e := by
      intro h
      obtain ⟨t, ht, he⟩ := ih h
      exact ⟨t, by simp [ht], he⟩
    unfold scanDir at h
    split_ifs at h with h1 h2 h3
    · simp at h
    · exact hrest h
    · exact hrest h
    · rcases List.mem_cons.mp h with rfl | h
      · exact ⟨s, by simp, by simp [decodeSlot, h1, h2, h3]⟩
      · exact hrest h

theorem scanDir_eq {ss : List Bytes} (h : ZeroTail ss) : scanDir ss = ss.filterMap decodeSlot := by
  induction ss with
  | nil => rfl
  | cons s ss ih =>
    obtain ⟨hs, hss⟩ := List.pairwise_cons.mp h
    unfold scanDir
    split_ifs with h1 h2 h3
    · rw [eq_comm, List.filterMap_eq_nil_iff]
      intro t ht
      rcases List.mem_cons.mp ht with rfl | ht
      · simp [decodeSlot, h1]
      · simp [decodeSlot, hs t ht h1]
    · rw [List.filterMap_cons_none (by simp [decodeSlot, h2]), ih hss]
    · rw [List.filterMap_cons_none (by simp [decodeSlot, h3]), ih hss]
    · have hdecode : decodeSlot s = some (decodeEntry s) := by simp [decodeSlot, h1, h2, h3]
      rw [List.filterMap_cons_some hdecode, ih hss]

def entriesIn (v : FatFs) (w : View) (dir : Nat) : List DirEntry := scanDir (dirSlots v w dir)

def findIn (v : FatFs) (w : View) (dir : Nat) (name : Str) : Option DirEntry :=
  (entriesIn v w dir).find? fun e => eqIgnoreAsciiCase e.name name

section Reading

variable {v : FatFs} {w : View} {dir i : Nat} {e : DirEntry} {name : Str}

theorem entryAt_of_mem (h : e ∈ entriesIn v w dir) : ∃ i, entryAt v w dir i = some e := by
  obtain ⟨s, hs, he⟩ := scanDir_subset h
  obtain ⟨i, hi⟩ := List.mem_iff_getElem?.mp hs
  exact ⟨i, by rw [entryAt, hi, Option.bind_some, he]⟩

theorem mem_entriesIn (S : Sound v w) (h : Reach (graph v w) dir) :
    e ∈ entriesIn v w dir ↔ ∃ i, entryAt v w dir i = some e := by
  refine ⟨entryAt_of_mem, fun ⟨i, hi⟩ => ?_⟩
  obtain ⟨s, hs, he⟩ := Option.bind_eq_some_iff.mp hi
  rw [entriesIn, scanDir_eq (S.tails h), List.mem_filterMap]
  exact ⟨s, List.mem_iff_getElem?.mpr ⟨i, hs⟩, he⟩

theorem entryAt_of_empty (S : Sound v w) (h : Reach (graph v w) dir) (hnil : entriesIn v w dir = [])
    (i : Nat) : entryAt v w dir i = none := by
  by_contra hne
  obtain ⟨e, he⟩ := Option.ne_none_iff_exists'.mp hne
  have hmem := (mem_entriesIn S h).mpr ⟨i, he⟩
  simp [hnil] at hmem

theorem findIn_eq_none (S : Sound v w) (h : Reach (graph v w) dir) :
    findIn v w dir name = none ↔
      ∀ i e, entryAt v w dir i = some e → lower e.name ≠ lower name := by
  simp only [findIn, List.find?_eq_none, mem_entriesIn S h, eqIgnoreAsciiCase_iff]
  constructor
  · intro hall i e he
    exact hall e ⟨i, he⟩
  · rintro hall e ⟨i, he⟩
    exact hall i e he

theorem readDir_runs (S : Sturdy v w) (h : Reach (graph v w) dir) :
    Runs v (readDir v dir) w (.ok (entriesIn v w dir)) w := by
  have g := S.geometry
  have hp := S.proper h
  obtain ⟨r, hrun, -, hall⟩ := readChain_runs g hp.2 (S.fits_dir h) usizeMax
  have hdata : ∀ x ∈ chainOf v w dir, (w.data x).length = 32 * (16 * v.sectorsPerCluster) := by
    intro x hx
    rw [S.shown.length_data g (hp.2.mem_inside x hx), clusterBytes, g.sectorSize, blockSize]
    omega
  have hlen : ((chainOf v w dir).flatMap w.data).length < usizeMax := by
    have hle := hp.2.length_le g
    have hcount := g.countLe
    have hspc := g.clusterLe
    have hsum : ((chainOf v w dir).flatMap w.data).length =
        (chainOf v w dir).length * (32 * (16 * v.sectorsPerCluster)) :=
      length_flatMap_of_length hdata
    have hbound : (chainOf v w dir).length * (32 * (16 * v.sectorsPerCluster)) ≤
        0x0FFFFFF7 * (32 * (16 * 255)) := Nat.mul_le_mul (by omega) (by omega)
    rw [hsum]
    unfold usizeMax
    omega
  rw [hall hlen] at hrun
  have hchunks := chunksExact_flatMap (n := 32) (by decide) hdata
  refine hrun.bind ?_
  rw [hchunks]
  exact .pure _

theorem findInDir_runs (S : Sturdy v w) (h : Reach (graph v w) dir) (name : Str) :
    Runs v (findInDir v dir name) w (.ok (findIn v w dir name)) w :=
  (readDir_runs S h).bind (.pure _)

end Reading

def outcome {α : Type} : Except FsError α → Except Fault α
  | .ok a => .ok a
  | .error e => .error (.err e)

/-- The path walk of `lookup` on a view, from an entry on. -/
def walk (v : FatFs) (w : View) : DirEntry → List Str → Except FsError DirEntry
  | e, [] => .ok e
  | e, seg :: rest =>
    if e.isDir then
      match findIn v w e.cluster seg with
      | some e' => walk v w e' rest
      | none => .error .notFound
    else .error .notADir

def lookupIn (v : FatFs) (w : View) (abs : Str) : Except FsError DirEntry :=
  if abs = [slash] ∨ abs = [] then .ok (rootEntry v)
  else if segments abs = [] then .error .notFound
  else walk v w (rootEntry v) (segments abs)

def content (v : FatFs) (w : View) (e : DirEntry) : Bytes :=
  ((chainOf v w e.cluster).flatMap w.data).take e.size

def fileAt (v : FatFs) (w : View) (abs : Str) : Except FsError Bytes := do
  let e ← lookupIn v w abs
  if e.isDir then .error .isADir else .ok (content v w e)

def namesAt (v : FatFs) (w : View) (abs : Str) : Except FsError (List Str) := do
  let e ← lookupIn v w abs
  if e.isDir then .ok ((entriesIn v w e.cluster).map DirEntry.name) else .error .notADir

def dirAt (v : FatFs) (w : View) (abs : Str) : Bool :=
  match lookupIn v w abs with
  | .ok e => e.isDir
  | .error _ => false

def Located (v : FatFs) (w : View) (e : DirEntry) : Prop :=
  e = rootEntry v ∨ ∃ dir i, Reach (graph v w) dir ∧ entryAt v w dir i = some e

section Lookup

variable {v : FatFs} {w : View} {e e' : DirEntry}

theorem Located.reach (h : Located v w e) (hd : e.isDir = true) : Reach (graph v w) e.cluster := by
  rcases h with rfl | ⟨dir, i, hr, he⟩
  · exact .root
  · exact .step hr he (DirEntry.child_eq_some.mpr ⟨hd, rfl⟩)

theorem Located.find (h : Located v w e) (hd : e.isDir = true) {name : Str}
    (hf : findIn v w e.cluster name = some e') : Located v w e' := by
  have hr := h.reach hd
  obtain ⟨i, hi⟩ := entryAt_of_mem (List.mem_of_find?_eq_some hf)
  exact Or.inr ⟨_, i, hr, hi⟩

theorem walk_located {segs : List Str} (h : Located v w e)
    (hw : walk v w e segs = .ok e') : Located v w e' := by
  induction segs generalizing e with
  | nil =>
    cases hw
    exact h
  | cons seg rest ih =>
    unfold walk at hw
    split_ifs at hw with hd
    split at hw
    · rename_i f hf
      exact ih (h.find hd hf) hw
    · cases hw

theorem walk_append (e : DirEntry) (ps qs : List Str) :
    walk v w e (ps ++ qs) = (walk v w e ps).bind fun d => walk v w d qs := by
  induction ps generalizing e with
  | nil => rfl
  | cons seg rest ih =>
    rw [List.cons_append, walk, walk]
    split_ifs
    · cases findIn v w e.cluster seg with
      | none => rfl
      | some e' => exact ih e'
    · rfl

theorem walk_slot {segs : List Str} (h : Located v w e) (hne : segs ≠ [])
    (hw : walk v w e segs = .ok e') :
    ∃ dir i, Reach (graph v w) dir ∧ entryAt v w dir i = some e' := by
  obtain ⟨ps, name, rfl⟩ := List.eq_nil_or_concat segs |>.resolve_left hne
  rw [List.concat_eq_append, walk_append] at hw
  cases hd : walk v w e ps with
  | error err =>
    rw [hd] at hw
    cases hw
  | ok d =>
    rw [hd] at hw
    change walk v w d [name] = .ok e' at hw
    unfold walk at hw
    split_ifs at hw with hdir
    split at hw
    · rename_i f hf
      cases hw
      obtain ⟨i, hi⟩ := entryAt_of_mem (List.mem_of_find?_eq_some hf)
      exact ⟨d.cluster, i, (walk_located h hd).reach hdir, hi⟩
    · cases hw

theorem lookupIn_located {abs : Str} (h : lookupIn v w abs = .ok e) :
    Located v w e := by
  unfold lookupIn at h
  split_ifs at h
  · cases h
    exact Or.inl rfl
  · exact walk_located (Or.inl rfl) h

theorem lookupLoop_runs (S : Sturdy v w) (h : Located v w e) (current : Nat) (segs : List Str) :
    Runs v (lookupLoop v current (some e) segs) w (outcome (walk v w e segs)) w := by
  induction segs generalizing e current with
  | nil => exact .pure e
  | cons seg rest ih =>
    by_cases hd : e.isDir = true
    · simp only [lookupLoop, walk, if_pos hd]
      refine (findInDir_runs S (h.reach hd) seg).bind ?_
      cases hf : findIn v w e.cluster seg with
      | none => exact .throw _
      | some e' => exact ih (h.find hd hf) _
    · simp only [lookupLoop, walk, if_neg hd]
      exact .throw _

theorem lookup_runs (S : Sturdy v w) (abs : Str) :
    Runs v (lookup v abs) w (outcome (lookupIn v w abs)) w := by
  unfold lookup lookupIn
  split_ifs with h1 h2
  · exact .pure _
  · rw [h2]
    exact .throw _
  · cases hsegs : segments abs with
    | nil => exact absurd hsegs h2
    | cons seg rest =>
      have hroot : (rootEntry v).isDir = true := rfl
      simp only [lookupLoop, walk, if_pos hroot]
      refine (findInDir_runs S .root seg).bind ?_
      cases hf : findIn v w (rootEntry v).cluster seg with
      | none =>
        rw [show findIn v w (graph v w).root seg = none from hf]
        exact .throw _
      | some e' =>
        rw [show findIn v w (graph v w).root seg = some e' from hf]
        exact lookupLoop_runs S (Located.find (Or.inl rfl) hroot hf) _ _

theorem content_eq_nil (h : e.size = 0 ∨ e.cluster < 2) : content v w e = [] := by
  unfold content
  rcases h with h | h
  · rw [h, List.take_zero]
  · rw [chainOf_small h, List.flatMap_nil, List.take_nil]

theorem readFile_runs (S : Sturdy v w) (abs : Str) :
    Runs v (readFile v abs) w (outcome (fileAt v w abs)) w := by
  have hl := lookup_runs S abs
  unfold readFile fileAt
  cases hlook : lookupIn v w abs with
  | error err =>
    rw [hlook] at hl
    exact hl.bind_error
  | ok e =>
    rw [hlook] at hl
    refine hl.bind ?_
    change Runs v _ w (outcome (if e.isDir then .error .isADir else .ok (content v w e))) w
    split_ifs with hd hz
    · exact .throw _
    · rw [content_eq_nil hz]
      exact .pure _
    · push Not at hz
      rcases lookupIn_located hlook with rfl | ⟨dir, i, hr, he⟩
      · exact absurd rfl hd
      · have hp := S.entries hr he (Or.inr hz.2)
        obtain ⟨r, hrun, htake, -⟩ := readChain_runs S.geometry hp.2 (S.fits_entry hr he) e.size
        refine hrun.bind ?_
        rw [htake]
        exact .pure _

theorem listDir_runs (S : Sturdy v w) (abs : Str) :
    Runs v (listDir v abs) w (outcome (namesAt v w abs)) w := by
  have hl := lookup_runs S abs
  unfold listDir namesAt
  cases hlook : lookupIn v w abs with
  | error err =>
    rw [hlook] at hl
    exact hl.bind_error
  | ok e =>
    rw [hlook] at hl
    have hcluster : (if abs = [slash] then v.rootCluster else e.cluster) = e.cluster := by
      split_ifs with h
      · rw [lookupIn, if_pos (Or.inl h)] at hlook
        cases hlook
        rfl
      · rfl
    refine hl.bind ?_
    change Runs v _ w (outcome (if e.isDir then .ok ((entriesIn v w e.cluster).map DirEntry.name)
      else .error .notADir)) w
    by_cases hd : e.isDir = true
    · simp only [if_pos hd, hcluster]
      exact (readDir_runs S ((lookupIn_located hlook).reach hd)).bind (.pure _)
    · rw [if_neg hd, if_neg hd]
      exact .throw _

theorem isDir_runs (S : Sturdy v w) (abs : Str) :
    Runs v (isDir v abs) w (.ok (dirAt v w abs)) w := by
  have hl := lookup_runs S abs
  unfold isDir dirAt
  cases hlook : lookupIn v w abs with
  | error err =>
    rw [hlook] at hl
    exact (Runs.attempt_error hl).bind (.pure _)
  | ok e =>
    rw [hlook] at hl
    exact (Runs.attempt_ok hl).bind (.pure _)

end Lookup

end Willo.Fat
