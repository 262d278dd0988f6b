import Willo.ClientRuns
import Willo.VfsListings
import Willo.VolumeTree

/-! Clients of one namespace. A call goes to the backend of one mount; the in-memory
backends keep all they have in the mount, the others share the drive, the console and
the serial port. So clients on different mounts do not notice each other, as long as at
most one of them is on a backend that shares. -/

namespace Willo.KernelFs
open Text Paths ByteCodec BlockDevice FaultState TreeStore MountTable ClientRuns

inductive Action where
  | mutate (op : Mutation UInt8)
  | readFile
  | listDir
  | isDir

structure Request where
  path : Str
  action : Action

inductive Reply where
  | done (r : Except Fault Unit)
  | bytes (r : Except Fault Bytes)
  | names (r : Except Fault (List Str))
  | flag (r : Except Fault Bool)

def serve (c : Request) (x : Vfs Backend × Kernel) : Reply × Vfs Backend × Kernel :=
  match c.action with
  | .mutate op => let r := apply x.1 c.path op x.2; (.done r.1, r.2)
  | .readFile => let r := exec (readFile x.1 c.path) x.2; (.bytes r.1, x.1, r.2)
  | .listDir => let r := exec (listDir x.1 c.path) x.2; (.names r.1, x.1, r.2)
  | .isDir => let r := exec (isDir x.1 c.path) x.2; (.flag r.1, x.1, r.2)

def Backend.serve (b : Backend) (rel : Str) (a : Action) (k : Kernel) : Reply × Backend × Kernel :=
  match a with
  | .mutate op => let r := b.apply rel op k; (.done r.1, r.2)
  | .readFile => let r := exec (b.readFile rel) k; (.bytes r.1, b, r.2)
  | .listDir => let r := exec (b.listDir rel) k; (.names r.1, b, r.2)
  | .isDir => let r := exec (b.isDir rel) k; (.flag r.1, b, r.2)

/-- All of the backend is in its mount. -/
def Backend.ownsAll : Backend → Bool
  | .tmp _ | .ram _ => true
  | .dev | .fat _ => false

/-! No call turns the timer. -/

def Untimed {α : Type} (x : KernelM α) : Prop := ∀ k, (exec x k).2.ticks = k.ticks

section Timer

variable {α β : Type}

theorem Untimed.pure (a : α) : Untimed (pure a) := fun _ => rfl

theorem Untimed.throw (f : Fault) : Untimed (throw f : KernelM α) := fun _ => rfl

theorem Untimed.bind {x : KernelM α} {f : α → KernelM β} (hx : Untimed x)
    (hf : ∀ a, Untimed (f a)) :
    Untimed (x >>= f) := by
  intro k
  have hk := hx k
  rw [exec_bind]
  rcases hrun : exec x k with ⟨e | a, k'⟩
  · rw [hrun] at hk
    exact hk
  · rw [hrun] at hk
    exact (hf a k').trans hk

theorem Untimed.ite {p : Prop} [Decidable p] {x y : KernelM α} (hx : Untimed x) (hy : Untimed y) :
    Untimed (if p then x else y) := by
  split_ifs
  · exact hx
  · exact hy

theorem ofResult_untimed (r : Except FsError α) : Untimed (ofResult r) := by
  cases r with
  | ok a => exact .pure a
  | error e => exact .throw _

theorem onDisk_untimed (x : FatM α) : Untimed (onDisk x) := fun _ => rfl

theorem DevNode.write_untimed (node : DevNode) (off : Nat) (buf : Bytes) :
    Untimed (node.write off buf) := by
  cases node with
  | console => exact Untimed.bind (fun _ => rfl) fun _ => .pure _
  | null => exact .pure _
  | zero => exact .pure _
  | serial0 =>
    intro k
    unfold DevNode.write
    rw [exec_get_bind]
    cases k.serial <;> rfl
  | disk0 => exact .ite (.pure _) (.ite (.throw _) ((onDisk_untimed _).bind fun _ => .pure _))

theorem devWriteFile_untimed (rel : Str) (data : Bytes) : Untimed (devWriteFile rel data) := by
  refine Untimed.bind ((ofResult_untimed _).bind fun name => ?_) fun n => .ite (.pure _) (.throw _)
  cases devNode name with
  | none => exact .throw _
  | some node => exact node.write_untimed 0 data

end Timer

section Backends

variable {b : Backend} {rel : Str} {a : Action} {k k' : Kernel}

theorem Backend.apply_shared (h : b.ownsAll = false) (op : Mutation UInt8) :
    (b.apply rel op k).2.1 = b ∧ (b.apply rel op k).2.2.ticks = k.ticks := by
  cases b with
  | tmp _ => cases h
  | ram _ => cases h
  | fat v => exact ⟨rfl, rfl⟩
  | dev =>
    cases op with
    | writeFile data => exact ⟨rfl, devWriteFile_untimed rel data k⟩
    | _ => exact ⟨rfl, rfl⟩

theorem Backend.serve_shared (h : b.ownsAll = false) :
    (b.serve rel a k).2.1 = b ∧ (b.serve rel a k).2.2.ticks = k.ticks := by
  cases a with
  | mutate op => exact b.apply_shared h op
  | _ =>
    cases b with
    | tmp _ => cases h
    | ram _ => cases h
    | fat v => exact ⟨rfl, rfl⟩
    | dev => first | exact ⟨rfl, ofResult_untimed _ k⟩ | exact ⟨rfl, rfl⟩

theorem exec_ofResult {α : Type} (r : Except FsError α) (k : Kernel) :
    exec (ofResult r) k = (Fat.outcome r, k) := by
  cases r <;> rfl

theorem exec_ramReadFile (root : RamNode) (rel : Str) (k : Kernel) :
    exec (Backend.readFile (.ram root) rel) k = (Fat.outcome (ramReadFile root k.ticks rel), k) :=
  exec_ofResult _ k

theorem Backend.serve_own (h : b.ownsAll = true) (rel : Str) (a : Action) (k k' : Kernel) :
    (b.serve rel a k).2.2 = k ∧ (k'.ticks = k.ticks → (b.serve rel a k').1 = (b.serve rel a k).1 ∧
      (b.serve rel a k').2.1 = (b.serve rel a k).2.1) := by
  cases b with
  | dev => cases h
  | fat v => cases h
  | tmp root =>
    cases a with
    | mutate op => exact ⟨rfl, fun _ => ⟨rfl, rfl⟩⟩
    | isDir => exact ⟨rfl, fun _ => ⟨rfl, rfl⟩⟩
    | _ => simp only [serve, Backend.readFile, Backend.listDir, exec_ofResult,
      and_self, implies_true]
  | ram root =>
    cases a with
    | mutate op => cases op <;> exact ⟨rfl, fun _ => ⟨rfl, rfl⟩⟩
    | isDir => exact ⟨rfl, fun _ => ⟨rfl, rfl⟩⟩
    | listDir => simp only [serve, Backend.listDir, exec_ofResult, and_self, implies_true]
    | readFile =>
      simp only [serve, exec_ramReadFile, and_true, true_and]
      exact fun hk => by rw [hk]

theorem Backend.serve_ownsAll (b : Backend) (rel : Str) (a : Action) (k : Kernel) :
    (b.serve rel a k).2.1.ownsAll = b.ownsAll := by
  cases b with
  | tmp root => cases a <;> rfl
  | ram root =>
    cases a with
    | mutate op => cases op <;> rfl
    | _ => rfl
  | dev => rw [(Backend.serve_shared rfl).1]
  | fat v => rw [(Backend.serve_shared rfl).1]

theorem Backend.serve_ticks (b : Backend) (rel : Str) (a : Action) (k : Kernel) :
    (b.serve rel a k).2.2.ticks = k.ticks := by
  cases h : b.ownsAll with
  | true => rw [(Backend.serve_own h rel a k k).1]
  | false => exact (Backend.serve_shared h).2

theorem Backend.serve_apart (h : b.ownsAll = true) (b' : Backend) (rel rel' : Str) (a a' : Action)
    (k : Kernel) :
    b'.serve rel' a' (b.serve rel a k).2.2 = b'.serve rel' a' k ∧
      b.serve rel a (b'.serve rel' a' k).2.2 =
        ((b.serve rel a k).1, (b.serve rel a k).2.1, (b'.serve rel' a' k).2.2) := by
  have hticks := b'.serve_ticks rel' a' k
  obtain ⟨hkeep, -⟩ := Backend.serve_own h rel a k k
  obtain ⟨-, hsame⟩ := Backend.serve_own h rel a k (b'.serve rel' a' k).2.2
  obtain ⟨hkeep', -⟩ := Backend.serve_own h rel a (b'.serve rel' a' k).2.2 k
  obtain ⟨hreply, hfs⟩ := hsame hticks
  exact ⟨by rw [hkeep], Prod.ext hreply (Prod.ext hfs hkeep')⟩

end Backends

/-! Tables that differ in their backends only. -/

section Tables

variable {F G : Type} {v : Vfs F} {m : Mount F} {p q : Str} {fs fs' : F}

def relabel (g : F → G) (v : Vfs F) : Vfs G := ⟨v.mounts.map fun m => ⟨m.pfx, g m.fs⟩⟩

theorem foldl_scan_map {h : Mount F → Mount G} (hp : ∀ m, (h m).pfx = m.pfx) (abs : Str)
    (ms : List (Mount F)) (best : Option (Mount F)) :
    (ms.map h).foldl (scan abs) (best.map h) = (ms.foldl (scan abs) best).map h := by
  induction ms generalizing best with
  | nil => rfl
  | cons m ms ih =>
    have hscan : scan abs (best.map h) (h m) = (scan abs best m).map h := by
      unfold scan
      rw [hp]
      cases best with
      | none => simp only [Option.map_none, Option.isNone_none, Option.all_none]; split_ifs <;> rfl
      | some b =>
        simp only [Option.map_some, Option.isNone_some, Option.all_some, hp]
        split_ifs <;> rfl
    rw [List.map_cons, List.foldl_cons, List.foldl_cons, hscan, ih]

theorem bestMount_map {h : Mount F → Mount G} (hp : ∀ m, (h m).pfx = m.pfx) (abs : Str) :
    bestMount ⟨v.mounts.map h⟩ abs = (bestMount v abs).map h :=
  foldl_scan_map hp abs v.mounts none

theorem bestMount_relabel (g : F → G) (abs : Str) :
    bestMount (relabel g v) abs = (bestMount v abs).map fun m => ⟨m.pfx, g m.fs⟩ :=
  bestMount_map (h := fun m => ⟨m.pfx, g m.fs⟩) (fun _ => rfl) abs

theorem pfx_replace (p : Str) (fs : F) (m : Mount F) :
    (if m.pfx = p then { m with fs := fs } else m).pfx = m.pfx := by
  split_ifs <;> rfl

theorem bestMount_replaceFs (hb : bestMount v q = some m) (hm : m.pfx ≠ p) (fs : F) :
    bestMount (replaceFs v p fs) q = some m := by
  rw [replaceFs, bestMount_map (pfx_replace p fs), hb, Option.map_some, if_neg hm]

theorem replaceFs_comm (h : p ≠ q) :
    replaceFs (replaceFs v p fs) q fs' = replaceFs (replaceFs v q fs') p fs := by
  unfold replaceFs
  rw [List.map_map, List.map_map]
  refine congrArg Vfs.mk (List.map_congr_left fun m _ => ?_)
  simp only [Function.comp]
  by_cases hp : m.pfx = p
  · rw [if_pos hp, if_neg fun hq => h (hp.symm.trans hq), if_neg fun hq =>
      h (hp.symm.trans hq), if_pos hp]
  · rw [if_neg hp]
    by_cases hq : m.pfx = q
    · rw [if_pos hq, if_neg hp]
    · rw [if_neg hq, if_neg hp]

theorem replaceFs_self (hv : TableOk v) (hm : m ∈ v.mounts) : replaceFs v m.pfx m.fs = v := by
  refine congrArg Vfs.mk ((List.map_congr_left fun n hn => ?_).trans (List.map_id _))
  split_ifs with h
  · rw [mount_unique hv hn hm h]
    rfl
  · rfl

theorem tableOk_replaceFs (hv : TableOk v) (p : Str) (fs : F) : TableOk (replaceFs v p fs) := by
  have hpfx : (replaceFs v p fs).mounts.map Mount.pfx = v.mounts.map Mount.pfx := by
    rw [replaceFs, List.map_map]
    exact List.map_congr_left fun m _ => pfx_replace p fs m
  refine ⟨?_, ?_, fun m hm => ?_⟩
  · rw [← List.length_map (f := Mount.pfx), hpfx, List.length_map]
    exact hv.bounded
  · rw [hpfx]
    exact hv.distinct
  · obtain ⟨n, hn, rfl⟩ := List.mem_map.mp hm
    rw [pfx_replace]
    exact hv.shaped n hn

theorem relabel_replaceFs {g : F → G} (hv : TableOk v) (hm : m ∈ v.mounts) (hg : g fs = g m.fs) :
    relabel g (replaceFs v m.pfx fs) = relabel g v := by
  unfold relabel replaceFs
  rw [List.map_map]
  refine congrArg Vfs.mk (List.map_congr_left fun n hn => ?_)
  simp only [Function.comp]
  split_ifs with h
  · rw [mount_unique hv hn hm h, hg]
  · rfl

theorem mem_of_bestMount (hb : bestMount v q = some m) : m ∈ v.mounts := by
  have hbest := bestMount_best v q
  rw [hb] at hbest
  exact hbest.1

end Tables

/-! A call of the namespace as a call of one backend. -/

def Action.refused (e : FsError) : Action → Reply
  | .mutate _ => .done (.error (.err e))
  | .readFile => .bytes (.error (.err e))
  | .listDir => .names (.error (.err e))
  | .isDir => .flag (.ok false)

def testsMount {F : Type} (v : Vfs F) (c : Request) : Bool :=
  match c.action with
  | .isDir => v.mounts.any (·.pfx == canonicalPrefix c.path)
  | _ => false

/-- The calls that the table answers by itself: such a test, and a path outside all mounts. -/
def tableReply {F : Type} (v : Vfs F) (c : Request) : Option Reply :=
  if testsMount v c then some (.flag (.ok true))
  else
    match resolveMount v c.path with
    | .error e => some (c.action.refused e)
    | .ok _ => none

def complete {F : Type} (v : Vfs F) (path : Str) : Reply → Reply
  | .names r => .names (r.map fun entries =>
    v.mounts.foldl (addChild (canonicalPrefix path)) entries)
  | r => r

section Dispatch

variable {F G : Type} {v : Vfs Backend} {k : Kernel} {c : Request} {r : Reply}

theorem resolveMount_relabel (g : F → G) (v : Vfs F) (abs : Str) :
    resolveMount (relabel g v) abs = (resolveMount v abs).map fun r =>
      (⟨r.1.pfx, g r.1.fs⟩, r.2) := by
  unfold resolveMount
  rw [bestMount_relabel]
  split_ifs
  · rfl
  · cases bestMount v abs <;> rfl

theorem any_pfx_relabel (g : F → G) (v : Vfs F) (p : Str) :
    (relabel g v).mounts.any (·.pfx == p) = v.mounts.any (·.pfx == p) := by
  rw [relabel, List.any_map]
  rfl

theorem tableReply_relabel (g : F → G) (v : Vfs F) (c : Request) :
    tableReply (relabel g v) c = tableReply v c := by
  have htest : testsMount (relabel g v) c = testsMount v c := by
    unfold testsMount
    rw [any_pfx_relabel]
  unfold tableReply
  rw [htest, resolveMount_relabel]
  cases resolveMount v c.path <;> rfl

theorem complete_relabel (g : F → G) (v : Vfs F) (path : Str) (r : Reply) :
    complete (relabel g v) path r = complete v path r := by
  have hfold (parent : Str) (entries : List Str) :
      (relabel g v).mounts.foldl (addChild parent) entries =
        v.mounts.foldl (addChild parent) entries := by
    rw [relabel, List.foldl_map]
    rfl
  cases r with
  | names r => simp only [complete, hfold]
  | _ => rfl

theorem resolveMount_some {abs rel : Str} {m : Mount F} {u : Vfs F}
    (h : resolveMount u abs = .ok (m, rel)) :
    bestMount u abs = some m ∧ rel = relative m abs := by
  unfold resolveMount at h
  split_ifs at h
  cases hb : bestMount u abs with
  | none =>
    rw [hb] at h
    cases h
  | some m' =>
    rw [hb] at h
    cases h
    exact ⟨rfl, rfl⟩

theorem serve_table (h : tableReply v c = some r) (k : Kernel) : serve c (v, k) = (r, v, k) := by
  unfold tableReply at h
  obtain ⟨path, action⟩ := c
  by_cases htest : testsMount v ⟨path, action⟩
  · rw [if_pos htest] at h
    obtain rfl := Option.some.inj h
    cases action with
    | isDir =>
      simp only [serve, isDir,
        if_pos (show v.mounts.any (·.pfx == canonicalPrefix path) from htest)]
      rfl
    | _ => cases htest
  · rw [if_neg htest] at h
    cases hm : resolveMount v path with
    | ok m =>
      simp only [hm] at h
      cases h
    | error e =>
      simp only [hm] at h
      obtain rfl := Option.some.inj h
      have hres : resolve v path = .error e := by
        rw [resolve, hm]
        rfl
      cases action with
      | mutate op => simp only [serve, apply, hm, Action.refused]
      | readFile =>
        simp only [serve, readFile, hres]
        rfl
      | listDir =>
        simp only [serve, listDir, hres]
        rfl
      | isDir =>
        simp only [serve, isDir,
          if_neg (show ¬ v.mounts.any (·.pfx == canonicalPrefix path) from htest), hres]
        rfl

theorem serve_backend (hv : TableOk v) (h : tableReply v c = none) (k : Kernel) :
    ∃ m, bestMount v c.path = some m ∧ serve c (v, k) =
      (complete v c.path (m.fs.serve (relative m c.path) c.action k).1,
        replaceFs v m.pfx (m.fs.serve (relative m c.path) c.action k).2.1,
        (m.fs.serve (relative m c.path) c.action k).2.2) := by
  unfold tableReply at h
  obtain ⟨path, action⟩ := c
  by_cases htest : testsMount v ⟨path, action⟩
  · rw [if_pos htest] at h
    cases h
  · rw [if_neg htest] at h
    rcases hm : resolveMount v path with e | ⟨m, rel⟩
    · simp only [hm] at h
      cases h
    · obtain ⟨hb, rfl⟩ := resolveMount_some hm
      refine ⟨m, hb, ?_⟩
      have hres : resolve v path = .ok (m.fs, relative m path) := by
        rw [resolve, hm]
        rfl
      have hself := replaceFs_self hv (mem_of_bestMount hb)
      cases action with
      | mutate op => simp only [serve, apply, hm, Backend.serve, complete]
      | readFile =>
        simp only [serve, readFile, hres, Backend.serve, complete, hself]
        rfl
      | isDir =>
        simp only [serve, isDir,
          if_neg (show ¬ v.mounts.any (·.pfx == canonicalPrefix path) from htest), hres,
          Backend.serve, complete, hself]
      | listDir =>
        simp only [serve, listDir, hres, Backend.serve, complete, hself]
        have hbind : exec (ofResult (.ok (m.fs, relative m path)) >>= fun r => do
            let entries ← r.1.listDir r.2
            pure (v.mounts.foldl (addChild (canonicalPrefix path)) entries)) k =
            exec (do
              let entries ← m.fs.listDir (relative m path)
              pure (v.mounts.foldl (addChild (canonicalPrefix path)) entries)) k := rfl
        rw [hbind, exec_bind]
        rcases exec (m.fs.listDir (relative m path)) k with ⟨e | entries, k'⟩ <;> rfl

end Dispatch

/-! Two calls on different mounts. -/

/-- What stays of a table whatever the calls: its prefixes, and which backends own all they have. -/
def skeleton (v : Vfs Backend) : Vfs Bool := relabel Backend.ownsAll v

/-- Paths of different mounts, of which at least one owns all it has. -/
def Separate (t : Vfs Bool) (p q : Str) : Prop :=
  ∀ m n, bestMount t p = some m → bestMount t q = some n → m.pfx ≠ n.pfx ∧
    (m.fs = true ∨ n.fs = true)

structure Over (t : Vfs Bool) (x : Vfs Backend × Kernel) : Prop where
  table : TableOk x.1
  skeleton : skeleton x.1 = t

section Separation

variable {t : Vfs Bool} {c c' : Request}

theorem serve_over (c : Request) (x : Vfs Backend × Kernel) (h : Over t x) :
    Over t (serve c x).2 := by
  obtain ⟨v, k⟩ := x
  cases ht : tableReply v c with
  | some r =>
    rw [serve_table ht]
    exact h
  | none =>
    obtain ⟨m, hb, hserve⟩ := serve_backend h.table ht k
    rw [hserve]
    exact ⟨tableOk_replaceFs h.table _ _,
      (relabel_replaceFs h.table (mem_of_bestMount hb) (Backend.serve_ownsAll _ _ _ _)).trans
        h.skeleton⟩

theorem Over.tableReply {x : Vfs Backend × Kernel} (h : Over t x) (c : Request) :
    tableReply x.1 c = KernelFs.tableReply t c := by
  rw [← h.skeleton, KernelFs.skeleton, tableReply_relabel]

theorem Over.complete {x : Vfs Backend × Kernel} (h : Over t x) (path : Str) (r : Reply) :
    complete x.1 path r = KernelFs.complete t path r := by
  rw [← h.skeleton, KernelFs.skeleton, complete_relabel]

theorem Over.bestMount {x : Vfs Backend × Kernel} (h : Over t x) {path : Str} {m : Mount Backend}
    (hb : bestMount x.1 path = some m) :
    MountTable.bestMount t path = some ⟨m.pfx, m.fs.ownsAll⟩ := by
  rw [← h.skeleton, KernelFs.skeleton, bestMount_relabel, hb, Option.map_some]

theorem serve_both {v : Vfs Backend} {k : Kernel} (hx : Over t (v, k)) {m n : Mount Backend}
    (hb : MountTable.bestMount v c.path = some m) (hb' : MountTable.bestMount v c'.path = some n)
    (ht : KernelFs.tableReply t c = none) (ht' : KernelFs.tableReply t c' = none)
    (hne : m.pfx ≠ n.pfx) :
    let A := m.fs.serve (relative m c.path) c.action k
    let B := n.fs.serve (relative n c'.path) c'.action A.2.2
    serve c' (serve c (v, k)).2 = (KernelFs.complete t c'.path B.1,
      replaceFs (replaceFs v m.pfx A.2.1) n.pfx B.2.1, B.2.2) := by
  have hstep := serve_over c (v, k) hx
  obtain ⟨m', hm', hserve⟩ := serve_backend hx.table ((hx.tableReply c).trans ht) k
  obtain rfl := Option.some.inj (hb.symm.trans hm')
  rw [hserve] at hstep ⊢
  obtain ⟨n', hn', hserve'⟩ := serve_backend hstep.table ((hstep.tableReply c').trans ht') _
  rw [bestMount_replaceFs hb' hne.symm] at hn'
  obtain rfl := Option.some.inj hn'
  rw [hserve', hstep.complete]

theorem serve_separate (h : Separate t c.path c'.path) : Swaps serve (Over t) c c' := by
  have hstep (x : Vfs Backend × Kernel) (hx : Over t x) :
      (serve c' (serve c x).2).2 = (serve c (serve c' x).2).2 ∧
        (serve c' (serve c x).2).1 = (serve c' x).1 := by
    obtain ⟨v, k⟩ := x
    have hx₁ := serve_over c (v, k) hx
    have hx₂ := serve_over c' (v, k) hx
    cases ht : KernelFs.tableReply t c with
    | some r =>
      rw [serve_table ((hx.tableReply c).trans ht), serve_table ((hx₂.tableReply c).trans ht)]
      exact ⟨rfl, rfl⟩
    | none =>
      cases ht' : KernelFs.tableReply t c' with
      | some r =>
        rw [serve_table ((hx.tableReply c').trans ht'), serve_table ((hx₁.tableReply c').trans ht')]
        exact ⟨rfl, rfl⟩
      | none =>
        obtain ⟨m, hm, -⟩ := serve_backend hx.table ((hx.tableReply c).trans ht) k
        obtain ⟨n, hn, hserve⟩ := serve_backend hx.table ((hx.tableReply c').trans ht') k
        obtain ⟨hne, hown⟩ := h _ _ (hx.bestMount hm) (hx.bestMount hn)
        rw [serve_both hx hm hn ht ht' hne, serve_both hx hn hm ht' ht hne.symm, hserve,
          hx.complete, replaceFs_comm hne]
        rcases hown with hown | hown
        · obtain ⟨hB, hA⟩ :=
            Backend.serve_apart hown n.fs (relative m c.path)
            (relative n c'.path) c.action c'.action k
          rw [hB, hA]
          exact ⟨rfl, rfl⟩
        · obtain ⟨hA, hB⟩ :=
            Backend.serve_apart hown m.fs (relative n c'.path)
            (relative m c.path) c'.action c.action k
          rw [hB, hA]
          exact ⟨rfl, rfl⟩
  exact ⟨fun x hx => (hstep x hx).1, fun x hx => (hstep x hx).2⟩

/-- Clients that keep to different mounts, at most one of them on a backend that shares the
drive and the ports, do not notice each other: each gets the replies it would get alone,
and every order of arrival leaves the same mounts and the same machine. -/
theorem mounts_isolated {ι : Type} [DecidableEq ι] {v : Vfs Backend} (hv : Reachable v) (k : Kernel)
    {calls calls' : List (ι × Request)}
    (h : ∀ a ∈ calls, ∀ b ∈ calls, a.1 ≠ b.1 → Separate (skeleton v) a.2.path b.2.path)
    (hmine : ∀ i, mine i calls' = mine i calls) :
    (∀ i, mine i (served serve calls (v, k)) = replies serve (mine i calls) (v, k)) ∧
      run serve (calls'.map Prod.snd) (v, k) = run serve (calls.map Prod.snd) (v, k) := by
  have hover : Over (skeleton v) (v, k) := ⟨reachable_tableOk hv, rfl⟩
  constructor
  · intro i
    refine mine_served serve_over hover i fun a ha hne c' hc' => ?_
    exact serve_separate (h a ha (i, c') (mem_mine.mp hc') hne)
  · exact run_eq_of_mine serve_over hover (fun a ha b hb hne =>
      serve_separate (h a ha b hb hne)) hmine

def treeAndDevices : Vfs Backend :=
  (mount (mount new (text "/") (.tmp TmpFs.new)).2 (text "/dev") .dev).2

def twoClients : List (Bool × Request) :=
  [(true, ⟨text "/a", .mutate (.writeFile [1])⟩),
    (false, ⟨text "/dev/console", .mutate (.writeFile [65])⟩),
    (true, ⟨text "/a", .readFile⟩)]

instance : DecidableEq (Mount Bool) := fun a b =>
  decidable_of_iff (a.pfx = b.pfx ∧ a.fs = b.fs) (by cases a; cases b; simp)

theorem separate_treeAndDevices :
    Separate (skeleton treeAndDevices) (text "/a") (text "/dev/console") := by
  intro m n hm hn
  have hroot : MountTable.bestMount (skeleton treeAndDevices) (text "/a") = some ⟨[], true⟩ := by
    decide +kernel
  have hdev : MountTable.bestMount (skeleton treeAndDevices) (text "/dev/console") =
    some ⟨text "/dev", false⟩ := by decide +kernel
  rw [← Option.some.inj (hroot.symm.trans hm), ← Option.some.inj (hdev.symm.trans hn)]
  exact ⟨by decide +kernel, Or.inl rfl⟩

def diskless : Kernel := ⟨⟨0, fun _ => zeroBlock⟩, 0, [], some []⟩

theorem mounts_isolated_twoClients :
    (∀ i, mine i (served serve twoClients (treeAndDevices, diskless)) =
      replies serve (mine i twoClients) (treeAndDevices, diskless)) ∧
      run serve ([(false, ⟨text "/dev/console", .mutate (.writeFile [65])⟩),
        (true, ⟨text "/a", .mutate (.writeFile [1])⟩), (true, ⟨text "/a", .readFile⟩)].map Prod.snd)
          (treeAndDevices, diskless) = run serve (twoClients.map Prod.snd) (treeAndDevices,
          diskless) := by
  have hreach : Reachable treeAndDevices := .mount (.mount .new _ _) _ _
  refine mounts_isolated hreach diskless (fun a ha b hb hne => ?_) fun i => by cases i <;> rfl
  simp only [twoClients, List.mem_cons, List.not_mem_nil, or_false] at ha hb
  have hsep := separate_treeAndDevices
  have hsep' : Separate (skeleton treeAndDevices) (text "/dev/console") (text "/a") :=
    fun m n hm hn => (hsep n m hn hm).imp Ne.symm Or.symm
  rcases ha with rfl | rfl | rfl <;> rcases hb with rfl | rfl | rfl <;>
    first | exact absurd rfl hne | exact hsep | exact hsep'

end Separation

end Willo.KernelFs
