import Willo.FatStore
import Willo.TmpFsStore

/-! The two backends side by side: the same requests to a FAT volume with an empty root
and to a fresh in-memory tree. Both are tree stores, the volume up to case, so
they stay matched and answer alike, as long as clusters suffice and no name is
created that begins with the end marker. -/

namespace Willo.Backends
open Text Paths ByteCodec BlockDevice FaultState TreeStore Fat

inductive Action where
  | mutate (op : Mutation UInt8)
  | readFile
  | listDir
  | isDir

structure Request where
  path : List Str
  action : Action

inductive Reply where
  | done
  | bytes (b : Bytes)
  | names (l : List Str)
  | flag (b : Bool)
  | failed
  deriving DecidableEq

def toReply {ε α : Type} (f : α → Reply) : Except ε α → Reply
  | .ok a => f a
  | .error _ => .failed

def fatStep (v : FatFs) (c : Request) (d : Disk) : Reply × Disk :=
  match c.action with
  | .mutate op => let r := perform v ⟨c.path, op⟩ d; (toReply (fun _ => .done) r.1, r.2)
  | .readFile => let r := exec (Fat.readFile v (render c.path)) d; (toReply .bytes r.1, r.2)
  | .listDir => let r := exec (Fat.listDir v (render c.path)) d; (toReply .names r.1, r.2)
  | .isDir => let r := exec (Fat.isDir v (render c.path)) d; (toReply .flag r.1, r.2)

def tmpStep (c : Request) (t : TmpFs.Node) : Reply × TmpFs.Node :=
  match c.action with
  | .mutate op => let r := TmpFs.apply t (render c.path) op; (toReply (fun _ => .done) r.1, r.2)
  | .readFile => (toReply .bytes (TmpFs.readFile t (render c.path)), t)
  | .listDir => (toReply .names (TmpFs.listDir t (render c.path)), t)
  | .isDir => (.flag (TmpFs.isDir t (render c.path)), t)

def fatReplies (v : FatFs) : List Request → Disk → List Reply
  | [], _ => []
  | c :: calls, d => (fatStep v c d).1 :: fatReplies v calls (fatStep v c d).2

def tmpReplies : List Request → TmpFs.Node → List Reply
  | [], _ => []
  | c :: calls, t => (tmpStep c t).1 :: tmpReplies calls (tmpStep c t).2

/-- Equal replies; listings are compared as sets, errors not told apart. -/
def Alike : Reply → Reply → Prop
  | .names l, .names l' => ∀ s, s ∈ l ↔ s ∈ l'
  | r, r' => r = r'

def Sufficient (v : FatFs) : List Request → Disk → Prop
  | [], _ => True
  | c :: calls, d =>
    (∀ op ps name, c.action = .mutate op → c.path = ps ++ [name] → Enough v (view v d) ps name op) ∧
      Sufficient v calls (fatStep v c d).2

def Request.length (c : Request) : Nat :=
  match c.action with
  | .mutate op => op.length
  | _ => 0

def total (calls : List Request) : Nat := (calls.map Request.length).sum

structure Literal (c : Request) : Prop where
  short : ∀ s ∈ c.path, ShortName s
  lowercase : ∀ s ∈ c.path, lower s = s

def Unmarked (c : Request) : Prop :=
  ∀ op, c.action = .mutate op → op ≠ .remove → ¬ beginsWithMark c.path

section Tmp

variable {t : TmpFs.Node} {p : List Str}

theorem tmp_readFile (hp : ∀ s ∈ p, Component s) (b : Bytes) :
    TmpFs.readFile t (render p) = .ok b ↔ TmpFs.store t p = some (.file b) := by
  rw [TmpFs.readFile, segments_render hp, TmpFs.store]
  rcases TmpFs.walk t p with e | ⟨b⟩ | ⟨d⟩ <;> simp

theorem tmp_isDir (hp : ∀ s ∈ p, Component s) :
    TmpFs.isDir t (render p) = true ↔ TmpFs.store t p = some .dir := by
  rw [TmpFs.isDir, segments_render hp, TmpFs.store]
  rcases TmpFs.walk t p with e | ⟨b⟩ | ⟨d⟩ <;> simp

theorem tmp_listDir (hp : ∀ s ∈ p, Component s) :
    (∃ names, TmpFs.listDir t (render p) = .ok names) ↔ TmpFs.store t p = some .dir := by
  rw [TmpFs.listDir, segments_render hp, TmpFs.store]
  rcases TmpFs.walk t p with e | ⟨b⟩ | ⟨d⟩ <;> simp

end Tmp

/-- The volume and the tree hold the same, no file of more than `n` bytes. -/
structure Matched (v : FatFs) (d : Disk) (t : TmpFs.Node) (n : Nat) : Prop where
  ordered : TmpFs.Ordered t
  sound : Sound v (view v d)
  names : UniqueNames v (view v d)
  same : Restricts lower (TmpFs.store t) (Fat.store v (view v d))
  bounded : Bounded (Fat.store v (view v d)) n

section Matching

variable {v : FatFs} {d : Disk} {t : TmpFs.Node} {n : Nat} {c : Request} {p : List Str}

theorem Matched.mono {m : Nat} (M : Matched v d t n) (h : n ≤ m) : Matched v d t m :=
  ⟨M.ordered, M.sound, M.names, M.same, fun p data hp => (M.bounded p data hp).trans h⟩

theorem Matched.congr {d' : Disk} (M : Matched v d t n) (h : view v d' = view v d) :
    Matched v d' t n := by
  refine ⟨M.ordered, ?_, ?_, ?_, ?_⟩ <;> rw [h]
  · exact M.sound
  · exact M.names
  · exact M.same
  · exact M.bounded

theorem map_lower (h : ∀ s ∈ p, lower s = s) : p.map lower = p := by
  simpa using List.map_congr_left (g := id) h

theorem alike_of_iff {ε ε' α : Type} {f : α → Reply} {x : Except ε α} {y : Except ε' α}
    (hf : ∀ a, Alike (f a) (f a)) (h : ∀ a, x = .ok a ↔ y = .ok a) :
    Alike (toReply f x) (toReply f y) := by
  cases x with
  | ok a =>
    rw [(h a).mp rfl]
    exact hf a
  | error e =>
    cases y with
    | error e' => exact rfl
    | ok a => cases (h a).mpr rfl

theorem Matched.mutate (M : Matched v d t n) (hshort : ∀ s ∈ p, ShortName s)
    (hlower : ∀ s ∈ p, lower s = s) {op : Mutation UInt8}
    (hmark : op ≠ .remove → ¬ beginsWithMark p)
    (henough : ∀ ps name, p = ps ++ [name] → Enough v (view v d) ps name op)
    (hsize : n + op.length < 2 ^ 32) :
    ((perform v ⟨p, op⟩ d).1 = .ok () ↔ (TmpFs.apply t (render p) op).1 = .ok ()) ∧
      Matched v (perform v ⟨p, op⟩ d).2 (TmpFs.apply t (render p) op).2 (n + op.length) := by
  have hcomps := ShortName.components hshort
  have hfix := map_lower hlower
  have htmp := TmpFs.apply_ok_iff M.ordered (render p) op
  rw [segments_render hcomps, M.same.allowed_iff hfix] at htmp
  have hkeep (h : ¬ Allowed (Fat.store v (view v d)) op p) :
    (TmpFs.apply t (render p) op).2 = t := by
    cases hr : (TmpFs.apply t (render p) op).1 with
    | ok _ => exact absurd (htmp.mp hr) h
    | error e => exact TmpFs.apply_error M.ordered (Prod.ext hr rfl)
  rcases perform_effect (c := ⟨p, op⟩) M.sound hcomps with ⟨hnil, ⟨err, herr⟩, hsame⟩ | ⟨ps,
    name, hpath, hn, E⟩
  · have hno : ¬ Allowed (Fat.store v (view v d)) op p := fun h => h.1 hnil
    refine ⟨by rw [herr, htmp]; simp [hno], ?_⟩
    rw [hkeep hno]
    exact (M.congr hsame).mono (Nat.le_add_right _ _)
  · change p = ps ++ [name] at hpath
    subst hpath
    have hok := E.ok_iff (henough ps name rfl)
    refine ⟨hok.trans htmp.symm, ?_⟩
    by_cases hallow : Allowed (Fat.store v (view v d)) op (ps ++ [name])
    · rw [hok.mpr hallow] at E
      have hkept (hop : op ≠ .remove) : Kept name := kept_of_last hshort (hmark hop)
      have hlen : ∀ data, target op (Fat.store v (view v d) (ps ++ [name])) = some (.file data) →
          data.length < 2 ^ 32 := fun data hdata => (M.bounded.target hdata).trans_lt hsize
      have hstore := E.store_eq M.sound M.names hn hkept hlen
      refine ⟨TmpFs.apply_ordered M.ordered _ _, E.sound M.sound fun hop => (hkept hop).first,
        E.uniqueNames M.names M.sound hn fun hop => (hkept hop).2, ?_, ?_⟩
      · rw [TmpFs.store_apply M.ordered (Prod.ext (htmp.mpr hallow) rfl), segments_render hcomps]
        refine M.same.after hfix fun q => ?_
        rw [hstore q, show fold (ps ++ [name]) = ps ++ [name] from hfix]
        rfl
      · intro q data hq
        rw [hstore q] at hq
        split_ifs at hq
        · exact M.bounded.target hq
        · exact (M.bounded q data hq).trans (Nat.le_add_right _ _)
    · rw [hkeep hallow]
      exact (M.congr (E.eq_of_disallowed (henough ps name rfl) hallow)).mono (Nat.le_add_right _ _)

theorem Matched.readFile (M : Matched v d t n) (hcomps : ∀ s ∈ p, Component s)
    (hlower : ∀ s ∈ p, lower s = s) :
    Alike (toReply .bytes (answer (Fat.readFile v (render p)) d))
      (toReply .bytes (TmpFs.readFile t (render p))) := by
  refine alike_of_iff (fun b => rfl) fun b => ?_
  rw [answer_readFile M.sound.toSturdy, outcome_eq_ok, fileAt_store hcomps, tmp_readFile hcomps,
    M.same.fixed p (map_lower hlower)]

theorem Matched.isDir (M : Matched v d t n) (hcomps : ∀ s ∈ p, Component s)
    (hlower : ∀ s ∈ p, lower s = s) :
    answer (Fat.isDir v (render p)) d = .ok (TmpFs.isDir t (render p)) := by
  rw [answer_isDir M.sound.toSturdy, Except.ok.injEq, Bool.eq_iff_iff, dirAt_store hcomps,
    tmp_isDir hcomps, M.same.fixed p (map_lower hlower)]

theorem Matched.listDir (M : Matched v d t n) (hcomps : ∀ s ∈ p, Component s)
    (hlower : ∀ s ∈ p, lower s = s) :
    Alike (toReply .names (answer (Fat.listDir v (render p)) d))
      (toReply .names (TmpFs.listDir t (render p))) := by
  have hfix := map_lower hlower
  have hfat := namesAt_store (v := v) (w := view v d) hcomps
  have htmp := tmp_listDir (t := t) hcomps
  rw [M.same.fixed p hfix, ← hfat] at htmp
  rw [answer_listDir M.sound.toSturdy]
  cases hx : namesAt v (view v d) (render p) with
  | error e =>
    cases hy : TmpFs.listDir t (render p) with
    | error e' => exact rfl
    | ok l =>
      obtain ⟨l', hl'⟩ := htmp.mp ⟨l, hy⟩
      rw [hx] at hl'
      cases hl'
  | ok l =>
    obtain ⟨l', hl'⟩ := htmp.mpr ⟨l, hx⟩
    rw [hl']
    intro s
    rw [mem_namesAt_store hcomps hx s, TmpFs.listDir_store hl' s, segments_render hcomps]
    -- the tree holds lower-case names only, and on those the two agree
    constructor
    · rintro ⟨hs, hstore⟩
      rwa [M.same.fixed (p ++ [s]) (by simp [hfix, hs])]
    · intro hstore
      have hmap := M.same.only _ hstore
      have hs : lower s = s := by
        rw [List.map_append, hfix] at hmap
        simpa using List.append_cancel_left hmap
      exact ⟨hs, by rwa [← M.same.fixed (p ++ [s]) hmap]⟩

/-- One request: like replies, and the backends stay matched. -/
theorem Matched.step (M : Matched v d t n) (L : Literal c) (hmark : Unmarked c)
    (henough : ∀ op ps name, c.action = .mutate op → c.path = ps ++ [name] →
      Enough v (view v d) ps name op)
    (hsize : n + c.length < 2 ^ 32) :
    Alike (fatStep v c d).1 (tmpStep c t).1 ∧
      Matched v (fatStep v c d).2 (tmpStep c t).2 (n + c.length) := by
  have hcomps := ShortName.components L.short
  have hlower := L.lowercase
  have S := M.sound.toSturdy
  obtain ⟨p, action⟩ := c
  cases action with
  | mutate op =>
    obtain ⟨hok, M'⟩ := M.mutate L.short hlower (hmark op rfl)
      (fun ps name hpath => henough op ps name rfl hpath) hsize
    exact ⟨alike_of_iff (fun _ => rfl) fun _ => hok, M'⟩
  | readFile => exact ⟨M.readFile hcomps hlower, M.congr ((readFile_runs S _).exec_eq rfl).2⟩
  | listDir => exact ⟨M.listDir hcomps hlower, M.congr ((listDir_runs S _).exec_eq rfl).2⟩
  | isDir =>
    refine ⟨?_, M.congr ((isDir_runs S _).exec_eq rfl).2⟩
    change Alike (toReply .flag (answer (Fat.isDir v (render p)) d)) _
    rw [M.isDir hcomps hlower]
    rfl

theorem Matched.run (M : Matched v d t n) {calls : List Request} (L : ∀ c ∈ calls, Literal c)
    (hmark : ∀ c ∈ calls, Unmarked c) (henough : Sufficient v calls d)
    (hsize : n + total calls < 2 ^ 32) :
    List.Forall₂ Alike (fatReplies v calls d) (tmpReplies calls t) := by
  induction calls generalizing d t n with
  | nil => exact .nil
  | cons c calls ih =>
    have htotal : total (c :: calls) = c.length + total calls := by simp [total]
    rw [htotal] at hsize
    obtain ⟨halike, M'⟩ := M.step (L c (by simp)) (hmark c (by simp)) henough.1 (by omega)
    exact .cons halike (ih M' (fun c' hc' => L c' (by simp [hc'])) (fun c' hc' =>
      hmark c' (by simp [hc']))
      henough.2 (by omega))

theorem matched_empty (W : WellFormed v d)
    (hempty : answer (Fat.listDir v (render [])) d = .ok []) :
    Matched v d TmpFs.new 0 := by
  have S := W.sound
  have hnone : ∀ s, findIn v (view v d) v.rootCluster s = none := by
    rw [answer_listDir S.toSturdy, outcome_eq_ok, namesAt_dir (by simp) parentDir_nil] at hempty
    exact entriesIn_eq_nil.mp (List.map_eq_nil_iff.mp (Except.ok.inj hempty))
  have hfat (q : List Str) : Fat.store v (view v d) q = if q = [] then some .dir else none := by
    split_ifs with hq
    · rw [hq]
      rfl
    · refine store_below (p := []) (fun n hn => ?_) (List.nil_prefix) (by simpa [fold] using hq)
      rw [← Option.some.inj hn]
      exact hnone
  have htmp (q : List Str) : TmpFs.store TmpFs.new q = if q = [] then some .dir else none := by
    cases q <;> rfl
  refine ⟨TmpFs.reachable_ordered .new, S, W.names,
    ⟨lower_idem, fun q _ => ?_, fun q hq => ?_, fun q => ?_⟩,
    fun q data hq => ?_⟩
  · rw [hfat, htmp]
  · rw [htmp] at hq
    obtain rfl : q = [] := by simpa using hq
    rfl
  · rw [hfat, hfat]
    simp
  · rw [hfat] at hq
    split_ifs at hq
    cases hq

end Matching

/-- Every run of requests on lower-case 8.3 paths is answered alike by both backends, as
long as the volume has the clusters, the data stay below 2^32 bytes in all, and nothing
is created under a name that begins with the end marker. -/
theorem backends_alike {v : FatFs} {d : Disk} (W : WellFormed v d)
    (hempty : answer (Fat.listDir v (render [])) d = .ok []) {calls : List Request}
    (L : ∀ c ∈ calls, Literal c) (hsize : total calls < 2 ^ 32) (henough : Sufficient v calls d)
    (hmark : ∀ c ∈ calls, Unmarked c) :
    List.Forall₂ Alike (fatReplies v calls d) (tmpReplies calls TmpFs.new) :=
  (matched_empty W hempty).run L hmark henough (by omega)

theorem literal_of_bytes {path : List Str} {action : Action}
    (h : ∀ s ∈ path, s ≠ [] ∧ s.length ≤ 8 ∧ (∀ b ∈ s, FieldByte b) ∧ lower s = s) :
    Literal ⟨path, action⟩ :=
  ⟨fun s hs => .plain (h s hs).1 (h s hs).2.1 (h s hs).2.2.1, fun s hs => (h s hs).2.2.2⟩

theorem sufficient_reads {v : FatFs} {d : Disk} {calls : List Request}
    (h : ∀ c ∈ calls, ∀ op, c.action ≠ .mutate op) : Sufficient v calls d := by
  induction calls generalizing d with
  | nil => trivial
  | cons c calls ih =>
    exact ⟨fun op _ _ hop => absurd hop (h c (by simp) op), ih fun c' hc' => h c' (by simp [hc'])⟩

theorem sufficient_blankDisk {name : Str} {op : Mutation UInt8} {calls : List Request}
    (hnone : findIn smallVolume (view smallVolume (blankDisk 20)) 2 name = none)
    (hroom : demand smallVolume (view smallVolume (blankDisk 20)) 2 none op ≤ 1)
    (hreads : ∀ c ∈ calls, ∀ op, c.action ≠ .mutate op) :
    Sufficient smallVolume (⟨[name], .mutate op⟩ :: calls) (blankDisk 20) := by
  refine ⟨fun op' ps' name' hop hpath => ?_, sufficient_reads hreads⟩
  cases hop
  obtain ⟨rfl, rfl⟩ := List.append_singleton_inj.mp (show [] ++ [name] = ps' ++ [name'] from hpath)
  intro dir hdir _ _
  obtain rfl : 2 = dir := Option.some.inj hdir
  rw [hnone]
  exact hroom.trans (usable_smallDisk (by decide) [])

/-- A file created under the end marker alone: the tree finds it, the volume does not. -/
def markedRequests : List Request := [⟨[[0x00]], .mutate .createFile⟩, ⟨[[0x00]], .readFile⟩]

theorem markedRequests_differ :
    WellFormed smallVolume (blankDisk 20) ∧
      answer (Fat.listDir smallVolume (render [])) (blankDisk 20) = .ok [] ∧
      (∀ c ∈ markedRequests, Literal c) ∧ total markedRequests < 2 ^ 32 ∧
      Sufficient smallVolume markedRequests (blankDisk 20) ∧
      ¬ List.Forall₂ Alike (fatReplies smallVolume markedRequests (blankDisk 20))
        (tmpReplies markedRequests TmpFs.new) := by
  refine ⟨blankDisk_wellFormed (by decide), by decide +kernel, ?_, by decide, ?_, ?_⟩
  · intro c hc
    simp only [markedRequests, List.mem_cons, List.not_mem_nil, or_false] at hc
    rcases hc with rfl | rfl <;> exact literal_of_bytes (by decide +kernel)
  · exact sufficient_blankDisk (by decide +kernel) (by decide +kernel) (by simp)
  · have hfat : fatReplies smallVolume markedRequests (blankDisk 20) = [.done, .failed] := by
      decide +kernel
    have htmp : tmpReplies markedRequests TmpFs.new = [.done, .bytes []] := by decide +kernel
    rw [hfat, htmp]
    intro h
    have hread : Alike .failed (.bytes []) := (List.forall₂_cons.mp (List.forall₂_cons.mp h).2).1
    cases hread

def plainRequests : List Request :=
  [⟨[[97]], .mutate (.writeFile [1])⟩, ⟨[[97]], .readFile⟩, ⟨[], .listDir⟩]

theorem backends_alike_plainRequests :
    List.Forall₂ Alike (fatReplies smallVolume plainRequests (blankDisk 20))
      (tmpReplies plainRequests TmpFs.new) := by
  refine backends_alike (blankDisk_wellFormed (by decide)) (by decide +kernel) ?_ (by decide) ?_ ?_
  · intro c hc
    simp only [plainRequests, List.mem_cons, List.not_mem_nil, or_false] at hc
    rcases hc with rfl | rfl | rfl <;> exact literal_of_bytes (by decide +kernel)
  · exact sufficient_blankDisk (by decide +kernel) (by decide +kernel) (by simp)
  · intro c hc op hop _
    simp only [plainRequests, List.mem_cons, List.not_mem_nil, or_false] at hc
    rcases hc with rfl | rfl | rfl <;> cases hop
    decide

end Willo.Backends
