import Willo.DriverFaults

/-! Whole calls on whatever disk. A call that changes the volume walks the chain of a
directory again after it has given back a chain or taken a new one, so each step
is followed with the walks it leaves in order. -/

namespace Willo.Fat
open Text Paths ByteCodec BlockDevice FaultState PartialWalks

/-! Taking clusters. -/

section Taking

variable {P : Fault → Prop} {bad : Fault} {v : FatFs} {d d' : Disk} {c n : Nat}

structure LeastFree (v : FatFs) (d : Disk) (c : Nat) : Prop where
  inFat : InFat v c
  free : fatValue v d c = 0
  least : ∀ x, InFat v x → fatValue v d x = 0 → c ≤ x

theorem Addressable.of_le {x : Nat} (hc : 2 ≤ c) (hle : c ≤ x) (h : Addressable v x) :
    Addressable v c := by
  have hmul : (c - 2) * v.sectorsPerCluster ≤ (x - 2) * v.sectorsPerCluster :=
    Nat.mul_le_mul_right _ (by omega)
  have hlba : v.dataStartLba + (x - 2) * v.sectorsPerCluster < 2 ^ 32 := h.2
  refine ⟨hc, ?_⟩
  unfold clusterLba
  omega

theorem LeastFree.addressable (hc : LeastFree v d c) (ht : Takeable v d)
    (hcopies : ∀ i < v.numFats, copySector v i (c * 4 / blockSize) < d.sectors) :
    Addressable v c := by
  rcases ht with ⟨x, hx, haddr, -, hzero⟩ | hall
  · exact haddr.of_le hc.inFat.1 (hc.least x hx hzero)
  · rcases hall c hc.inFat hc.free with haddr | ⟨i, hi, hoff⟩
    · exact haddr
    · exact absurd (hcopies i hi) (by omega)

structure Newest (v : FatFs) (d : Disk) (c : Nat) : Prop where
  inFat : c < clusterCount v
  readable : Readable v d.sectors c
  followed : c < eocThreshold
  last : fatValue v d c = endOfChain
  clear : (d.block (clusterLba v c)).1 = List.replicate blockSize 0

theorem not_followed_endOfChain : ¬ Followed endOfChain := by decide

theorem Newest.walkable (A : Accepted v) (h : Newest v d c) : Walkable bad v d c :=
  .of_last (h.readable.mem_territory A h.inFat h.followed)
    (hop_eq_none_of_link (h.last ▸ not_followed_endOfChain))

end Taking

/-! Directory slots. -/

section Slots

variable {bad : Fault} {v : FatFs} {d d' : Disk} {c n lba : Nat} {name : Str} {secs : List Nat}

end Slots

/-! Paths. -/

def Named (v : FatFs) (d : Disk) (e : DirEntry) : Prop := ∃ abs, (exec (lookup v abs) d).1 = .ok e

section Paths

variable {bad : Fault} {v : FatFs} {d : Disk} {c cur : Nat} {e : DirEntry} {name seg : Str}
    {p : List Str}

theorem Named.root (v : FatFs) (d : Disk) : Named v d (rootEntry v) := by
  refine ⟨[slash], ?_⟩
  rw [lookup, if_pos (Or.inl rfl), exec_pure]

theorem lookupLoop_snoc {found : Option DirEntry}
    (h : exec (lookupLoop v cur found p) d = (.ok e, d)) (seg : Str)
    (cur' : Nat) : exec (lookupLoop v cur found (p ++ [seg])) d =
      exec (lookupLoop v cur' (some e) [seg]) d := by
  induction p generalizing cur found with
  | nil =>
    cases found with
    | none => cases h
    | some f =>
      cases h
      rfl
  | cons s p ih =>
    have hfound : ∀ x, exec (lookupLoop v x none (s :: p)) d = (.ok e, d) →
        exec (lookupLoop v x none (s :: (p ++ [seg]))) d =
          exec (lookupLoop v cur' (some e) [seg]) d := by
      intro x h
      rw [lookupLoop, exec_bind] at h ⊢
      rcases hrun : exec (findInDir v x s) d with ⟨f | _ | f, d'⟩
      · rw [hrun] at h
        cases h
      · rw [hrun] at h
        cases h
      · obtain rfl := (findInDir_reads v x s).of_exec hrun
        rw [hrun] at h
        exact ih h
    cases found with
    | none => exact hfound cur h
    | some f =>
      by_cases hd : f.isDir = true
      · rw [lookupLoop, if_pos hd] at h
        rw [List.cons_append, lookupLoop, if_pos hd]
        exact hfound f.cluster h
      · rw [lookupLoop, if_neg hd] at h
        cases h

theorem Named.of_lookupLoop (hp : ∀ s ∈ p, Plain s)
    (h : exec (lookupLoop v v.rootCluster none p) d = (.ok e, d)) : Named v d e := by
  have hne : p ≠ [] := by
    rintro rfl
    cases h
  refine ⟨join p, ?_⟩
  have hpath : ¬ (join p = [slash] ∨ join p = []) := by
    intro hcase
    have hsegs := segments_join hp
    rcases hcase with heq | heq
    · rw [heq] at hsegs
      exact hne (hsegs ▸ by decide)
    · rw [heq] at hsegs
      exact hne (hsegs ▸ by decide)
  rw [lookup, if_neg hpath, segments_join hp, h]

theorem Named.child {f : DirEntry} (he : Named v d e) (hd : e.isDir = true) (hname : Plain name)
    (hf : exec (findInDir v e.cluster name) d = (.ok (some f), d)) : Named v d f := by
  obtain ⟨abs, h⟩ := he
  have hlast : ∀ x, exec (lookupLoop v x (some e) [name]) d = (.ok f, d) := by
    intro x
    rw [lookupLoop, if_pos hd, exec_bind_ok hf]
    rfl
  by_cases hroot : abs = [slash] ∨ abs = []
  · rw [lookup, if_pos hroot] at h
    cases h
    refine .of_lookupLoop (p := [name]) (by simpa using hname) ?_
    change exec (findInDir v (rootEntry v).cluster name >>= _) d = _
    rw [exec_bind_ok hf]
    rfl
  · rw [lookup, if_neg hroot] at h
    have hloop := (lookupLoop_reads v v.rootCluster none (segments abs)).exec_ok h
    refine .of_lookupLoop (p := segments abs ++ [name]) ?_ ?_
    · exact List.forall_mem_append.mpr ⟨fun s hs => plain_of_mem_segments hs, by simpa using hname⟩
    · rw [lookupLoop_snoc hloop name e.cluster, hlast]

end Paths

/-! Calls. -/

def Placed (v : FatFs) (d : Disk) (e : DirEntry) : Prop :=
  Followed e.cluster → ∀ k c, k * clusterBytes v < e.size → nth (hop v d) k e.cluster = some c →
    Addressable v c

section Calls

variable {bad : Fault} {v : FatFs} {d : Disk} {c : Nat} {e : DirEntry} {name : Str}

theorem scanDir_size {chunks : List Bytes} (h : e ∈ scanDir chunks) : e.size < 2 ^ 32 := by
  induction chunks with
  | nil => cases h
  | cons chunk rest ih =>
    rw [scanDir] at h
    split_ifs at h
    · cases h
    · exact ih h
    · exact ih h
    · rcases List.mem_cons.mp h with rfl | h
      · exact le32_lt _ _
      · exact ih h

theorem findInDir_size (c : Nat) (name : Str) :
    Leaves (fun _ _ => True) (findInDir v c name) d fun r _ => ∀ e, r = some e →
      e.size < 2 ^ 32 := by
  have hdir : Leaves (fun _ _ => True) (readDir v c) d fun es _ => ∀ e ∈ es, e.size < 2 ^ 32 :=
    Leaves.bind (Q := fun _ _ => True) (.of_exec (fun _ _ _ => trivial) fun _ _ _ =>
      trivial) fun _ _ _ =>
      .pure fun e he => scanDir_size he
  exact hdir.bind fun es _ hes => .pure fun e he => hes e (List.mem_of_find?_eq_some he)

theorem lookupLoop_size {segs : List Str} {found : Option DirEntry}
    (hfound : ∀ f, found = some f → f.size < 2 ^ 32) :
    Leaves (fun _ _ => True) (lookupLoop v c found segs) d fun e _ => e.size < 2 ^ 32 := by
  induction segs generalizing c found d with
  | nil =>
    cases found with
    | none => exact .throw trivial
    | some f => exact .pure (hfound f rfl)
  | cons seg segs ih =>
    have hnext : ∀ x, Leaves (fun _ _ => True) (lookupLoop v x none (seg :: segs)) d fun e _ =>
      e.size < 2 ^ 32 := by
      intro x
      refine (findInDir_size x seg).bind fun r _ hr => ?_
      cases r with
      | none => exact .throw trivial
      | some f => exact ih hr
    cases found with
    | none => exact hnext c
    | some f => exact .ite (fun _ => hnext f.cluster) fun _ => .throw trivial

theorem Named.size_lt (h : Named v d e) : e.size < 2 ^ 32 := by
  obtain ⟨abs, h⟩ := h
  have hsize : Leaves (fun _ _ => True) (lookup v abs) d fun e _ => e.size < 2 ^ 32 :=
    .ite (fun _ => .pure (show 0 < 2 ^ 32 by decide)) fun _ =>
      lookupLoop_size fun f hf => by cases hf
  exact hsize.of_ok ((lookup_reads v abs).exec_ok h)

end Calls

end Willo.Fat
