import Mathlib.Data.List.Infix
import Mathlib.Data.List.Nodup
import Willo.Paths

/-! The mount table (`Vfs` of `fs/mod.rs`). A backend is any type `F`; the table
never looks inside it. Prefixes are stored without a trailing `/`, the root as
the empty string, and `resolve` scans the table once with a running best. -/

namespace Willo.MountTable
open Text Paths

def maxMounts : Nat := 8

structure Mount (F : Type) where
  pfx : Str
  fs : F

structure Vfs (F : Type) where
  mounts : List (Mount F)

variable {F : Type}

def new : Vfs F := ⟨[]⟩

def canonicalPrefix (p : Str) : Str := if p = [slash] then [] else trimEnd p

def mount (v : Vfs F) (pfx : Str) (fs : F) : Except FsError Unit × Vfs F :=
  if maxMounts ≤ v.mounts.length then (.error .unsupported, v)
  else if pfx.head? ≠ some slash then (.error .io, v)
  else
    let canonical := canonicalPrefix pfx
    if v.mounts.any (·.pfx == canonical) then (.error .io, v)
    else (.ok (), ⟨v.mounts ++ [⟨canonical, fs⟩]⟩)

def unmount (v : Vfs F) (pfx : Str) : Except FsError Unit × Vfs F :=
  let canonical := canonicalPrefix pfx
  match v.mounts.findIdx? (·.pfx == canonical) with
  | none => (.error .notFound, v)
  | some pos => (.ok (), ⟨v.mounts.eraseIdx pos⟩)

def covers (pfx abs : Str) : Bool :=
  abs == pfx ||
    (decide (pfx.length < abs.length) && pfx.isPrefixOf abs && abs[pfx.length]? == some slash)

def scan (abs : Str) (best : Option (Mount F)) (m : Mount F) : Option (Mount F) :=
  if m.pfx = [] then
    if best.isNone then some m else best
  else if covers m.pfx abs then
    if best.all (fun b => decide (b.pfx.length < m.pfx.length)) then some m else best
  else best

def bestMount (v : Vfs F) (abs : Str) : Option (Mount F) := v.mounts.foldl (scan abs) none

def relative (m : Mount F) (abs : Str) : Str :=
  if m.pfx = [] then abs
  else
    let tail := abs.drop m.pfx.length
    if tail = [] then [slash] else tail

def resolveMount (v : Vfs F) (abs : Str) : Except FsError (Mount F × Str) :=
  if abs.head? ≠ some slash then .error .notFound
  else
    match bestMount v abs with
    | none => .error .notFound
    | some m => .ok (m, relative m abs)

def resolve (v : Vfs F) (abs : Str) : Except FsError (F × Str) :=
  (resolveMount v abs).map fun r => (r.1.fs, r.2)

inductive Reachable : Vfs F → Prop where
  | new : Reachable new
  | mount {v : Vfs F} (h : Reachable v) (pfx : Str) (fs : F) : Reachable (mount v pfx fs).2
  | unmount {v : Vfs F} (h : Reachable v) (pfx : Str) : Reachable (unmount v pfx).2

/-- A stored prefix covers a path exactly at a `/` boundary. -/
def Matches (pfx abs : Str) : Prop :=
  pfx = [] ∨ pfx = abs ∨ (pfx <+: abs ∧ pfx ≠ abs ∧ abs[pfx.length]? = some slash)

structure TableOk (v : Vfs F) : Prop where
  bounded : v.mounts.length ≤ maxMounts
  distinct : (v.mounts.map Mount.pfx).Nodup
  shaped : ∀ m ∈ v.mounts, m.pfx = [] ∨
    (m.pfx.head? = some slash ∧ m.pfx.getLast? ≠ some slash)

theorem canonicalPrefix_shaped {p : Str} (h : p.head? = some slash) :
    canonicalPrefix p = [] ∨
      ((canonicalPrefix p).head? = some slash ∧ (canonicalPrefix p).getLast? ≠ some slash) := by
  unfold canonicalPrefix
  split_ifs
  · exact Or.inl rfl
  · exact (trimEnd_head h).imp_right fun hh => ⟨hh, trimEnd_getLast p⟩

theorem mount_tableOk {v : Vfs F} (h : TableOk v) (pfx : Str) (fs : F) :
    TableOk (mount v pfx fs).2 := by
  unfold mount
  dsimp only
  split_ifs with full malformed taken
  · exact h
  · exact h
  · exact h
  · have fresh : canonicalPrefix pfx ∉ v.mounts.map Mount.pfx := by
      simpa using taken
    refine ⟨?_, ?_, ?_⟩
    · simp only [List.length_append, List.length_singleton]
      omega
    · rw [List.map_append, List.nodup_append]
      refine ⟨h.distinct, by simp, ?_⟩
      intro a ha b hb heq
      simp only [List.map_cons, List.map_nil, List.mem_singleton] at hb
      exact fresh (by rw [← hb, ← heq]; exact ha)
    · intro m hm
      rcases List.mem_append.mp hm with hm | hm
      · exact h.shaped m hm
      · rw [List.mem_singleton.mp hm]
        exact canonicalPrefix_shaped (by simpa using malformed)

theorem unmount_tableOk {v : Vfs F} (h : TableOk v) (pfx : Str) : TableOk (unmount v pfx).2 := by
  unfold unmount
  dsimp only
  split
  · exact h
  · next pos _ =>
    have sub : (v.mounts.eraseIdx pos).Sublist v.mounts := List.eraseIdx_sublist _ _
    exact ⟨sub.length_le.trans h.bounded, h.distinct.sublist (sub.map _),
      fun m hm => h.shaped m (sub.subset hm)⟩

theorem reachable_tableOk {v : Vfs F} (h : Reachable v) : TableOk v := by
  induction h with
  | new => exact ⟨by simp [new], by simp [new], by simp [new]⟩
  | mount _ pfx fs ih => exact mount_tableOk ih pfx fs
  | unmount _ pfx ih => exact unmount_tableOk ih pfx

theorem covers_iff {pfx abs : Str} (h : pfx ≠ []) : covers pfx abs = true ↔ Matches pfx abs := by
  simp only [covers, Matches, h, false_or, Bool.or_eq_true, beq_iff_eq, Bool.and_eq_true,
    decide_eq_true_eq, List.isPrefixOf_iff_prefix]
  constructor
  · rintro (rfl | ⟨⟨hl, hp⟩, hs⟩)
    · exact Or.inl rfl
    · exact Or.inr ⟨hp, by rintro rfl; omega, hs⟩
  · rintro (rfl | ⟨hp, _, hs⟩)
    · exact Or.inl rfl
    · exact Or.inr ⟨⟨(List.getElem?_eq_some_iff.mp hs).1, hp⟩, hs⟩

/-- What the running best of the scan stands for after the mounts `seen`. -/
def Best (abs : Str) (seen : List (Mount F)) : Option (Mount F) → Prop
  | none => ∀ m ∈ seen, ¬ Matches m.pfx abs
  | some b => b ∈ seen ∧ Matches b.pfx abs ∧
      ∀ m ∈ seen, Matches m.pfx abs → m.pfx.length ≤ b.pfx.length

theorem scan_best {abs : Str} {seen : List (Mount F)} {best : Option (Mount F)} (m : Mount F)
    (h : Best abs seen best) : Best abs (seen ++ [m]) (scan abs best m) := by
  have keep : ∀ {b : Mount F}, Best abs seen (some b) →
      (Matches m.pfx abs → m.pfx.length ≤ b.pfx.length) → Best abs (seen ++ [m]) (some b) := by
    rintro b ⟨hb, hm, hmax⟩ hle
    refine ⟨by simp [hb], hm, fun x hx hxm => ?_⟩
    rcases List.mem_append.mp hx with hx | hx
    · exact hmax x hx hxm
    · rw [List.mem_singleton.mp hx] at hxm ⊢
      exact hle hxm
  have first : best = none → Matches m.pfx abs → Best abs (seen ++ [m]) (some m) := by
    rintro rfl hm
    refine ⟨by simp, hm, fun x hx hxm => ?_⟩
    rcases List.mem_append.mp hx with hx | hx
    · exact absurd hxm (h x hx)
    · rw [List.mem_singleton.mp hx]
  unfold scan
  split_ifs with root none' cov longer
  · exact first (Option.isNone_iff_eq_none.mp none') (Or.inl root)
  · cases best with
    | none => simp at none'
    | some b => exact keep h (fun _ => by simp [root])
  · cases best with
    | none => exact first rfl ((covers_iff root).mp cov)
    | some b =>
      simp only [Option.all_some, decide_eq_true_eq] at longer
      refine ⟨by simp, (covers_iff root).mp cov, fun x hx hxm => ?_⟩
      rcases List.mem_append.mp hx with hx | hx
      · exact (h.2.2 x hx hxm).trans longer.le
      · rw [List.mem_singleton.mp hx]
  · cases best with
    | none => simp at longer
    | some b => exact keep h (fun _ => by simpa using longer)
  · cases best with
    | none =>
      intro x hx
      rcases List.mem_append.mp hx with hx | hx
      · exact h x hx
      · rw [List.mem_singleton.mp hx]
        exact fun hm => cov ((covers_iff root).mpr hm)
    | some b => exact keep h (fun hm => absurd ((covers_iff root).mpr hm) cov)

theorem bestMount_best (v : Vfs F) (abs : Str) : Best abs v.mounts (bestMount v abs) := by
  unfold bestMount
  induction v.mounts using List.reverseRecOn with
  | nil => simp [Best]
  | append_singleton ms m ih =>
    rw [List.foldl_append]
    exact scan_best m ih

theorem matches_initial {pfx abs : Str} (h : Matches pfx abs) : pfx <+: abs := by
  rcases h with rfl | rfl | h
  · exact List.nil_prefix
  · exact List.prefix_rfl
  · exact h.1

theorem matches_eq_of_length {p q abs : Str} (hp : Matches p abs) (hq : Matches q abs)
    (h : p.length = q.length) : p = q :=
  (List.prefix_of_prefix_length_le (matches_initial hp) (matches_initial hq) h.le).eq_of_length h

theorem mount_unique {v : Vfs F} (h : TableOk v) {a b : Mount F} (ha : a ∈ v.mounts)
    (hb : b ∈ v.mounts) (heq : a.pfx = b.pfx) : a = b :=
  List.inj_on_of_nodup_map h.distinct ha hb heq

theorem bestMount_congr {v w : Vfs F} (hv : TableOk v)
    (same : ∀ m, m ∈ w.mounts ↔ m ∈ v.mounts) (abs : Str) : bestMount w abs = bestMount v abs := by
  have bv := bestMount_best v abs
  have bw := bestMount_best w abs
  cases hbv : bestMount v abs with
  | none =>
    cases hbw : bestMount w abs with
    | none => rfl
    | some b =>
      rw [hbv] at bv
      rw [hbw] at bw
      exact absurd bw.2.1 (bv b ((same b).mp bw.1))
  | some a =>
    cases hbw : bestMount w abs with
    | none =>
      rw [hbv] at bv
      rw [hbw] at bw
      exact absurd bv.2.1 (bw a ((same a).mpr bv.1))
    | some b =>
      rw [hbv] at bv
      rw [hbw] at bw
      have hb := (same b).mp bw.1
      have hlen : a.pfx.length = b.pfx.length :=
        le_antisymm (bw.2.2 a ((same a).mpr bv.1) bv.2.1) (bv.2.2 b hb bw.2.1)
      rw [mount_unique hv hb bv.1 (matches_eq_of_length bw.2.1 bv.2.1 hlen.symm)]

theorem relative_of_eq {m : Mount F} {abs : Str} (hne : m.pfx ≠ []) (h : abs = m.pfx) :
    relative m abs = [slash] := by
  simp [relative, hne, h]

theorem prefix_relative {m : Mount F} {abs : Str} (hm : Matches m.pfx abs) (h : abs ≠ m.pfx) :
    m.pfx ++ relative m abs = abs := by
  unfold relative
  split_ifs with root
  · rw [root, List.nil_append]
  · obtain ⟨t, rfl⟩ := matches_initial hm
    have ht : t ≠ [] := by rintro rfl; simp at h
    simp [ht]

theorem relative_head {m : Mount F} {abs : Str} (habs : abs.head? = some slash)
    (hm : Matches m.pfx abs) : (relative m abs).head? = some slash := by
  unfold relative
  split_ifs with root
  · exact habs
  · dsimp only
    split_ifs with hd
    · rfl
    · rcases hm with h | h | ⟨_, _, hs⟩
      · exact absurd h root
      · simp [h] at hd
      · rw [List.head?_drop, hs]

theorem join_split {segs : List Str} {pfx rest : Str} (hsegs : ∀ s ∈ segs, Plain s)
    (h : join segs = pfx ++ slash :: rest) :
    ∃ left right, segs = left ++ right ∧ pfx = join left ∧ slash :: rest = join right := by
  induction segs generalizing pfx with
  | nil => simp at h
  | cons s segs ih =>
    cases pfx with
    | nil => exact ⟨[], s :: segs, rfl, rfl, h.symm⟩
    | cons b pfx =>
      simp only [join_cons, List.cons_append, List.cons.injEq] at h
      obtain ⟨rfl, h⟩ := h
      have hs := hsegs s (by simp)
      rcases List.append_eq_append_iff.mp h with ⟨u, hu, hr⟩ | ⟨u, hu, hr⟩
      · obtain ⟨left, right, rfl, rfl, hright⟩ := ih (fun t ht => hsegs t (by simp [ht])) hr
        exact ⟨s :: left, right, rfl, by rw [join_cons, hu], hright⟩
      · cases u with
        | nil =>
          rw [List.append_nil] at hu
          exact ⟨[s], segs, rfl, by simp [hu], by simpa using hr⟩
        | cons c u =>
          simp only [List.cons_append, List.cons.injEq] at hr
          exact absurd (by rw [hu, ← hr.1]; simp) hs.2

theorem relative_canonical {m : Mount F} {abs : Str} (hm : Matches m.pfx abs)
    (habs : Canonical abs) : Canonical (relative m abs) := by
  by_cases root : m.pfx = []
  · simpa [relative, root] using habs
  by_cases heq : abs = m.pfx
  · rw [relative_of_eq root heq]
    exact ⟨[], by simp, rfl⟩
  have hcat := prefix_relative hm heq
  obtain ⟨segs, hsegs, rfl⟩ := habs
  obtain ⟨r, hr⟩ : ∃ r, relative m (render segs) = slash :: r := by
    have := relative_head (render_head segs) hm
    cases hrel : relative m (render segs) with
    | nil => simp [hrel] at this
    | cons b r =>
      rw [hrel, List.head?_cons, Option.some.injEq] at this
      exact ⟨r, by rw [this]⟩
  have hne : segs ≠ [] := by
    rintro rfl
    rw [hr] at hcat
    cases hp : m.pfx with
    | nil => exact root hp
    | cons b p => simp [hp] at hcat
  rw [hr] at hcat ⊢
  rw [render_eq_join hne] at hcat
  obtain ⟨left, right, hsplit, _, hright⟩ := join_split (fun s hs => (hsegs s hs).1) hcat.symm
  refine ⟨right, fun s hs => hsegs s (by simp [hsplit, hs]), ?_⟩
  rw [hright, render_eq_join]
  rintro rfl
  simp at hright

theorem canonical_getLast {p : Str} (h : Canonical p) (hp : p ≠ [slash]) :
    p.getLast? ≠ some slash := by
  obtain ⟨segs, hsegs, rfl⟩ := h
  have hne : segs ≠ [] := by rintro rfl; exact hp rfl
  obtain ⟨init, s, rfl⟩ : ∃ init s, segs = init ++ [s] :=
    ⟨_, _, (List.dropLast_append_getLast hne).symm⟩
  have hs := (hsegs s (by simp)).1
  intro hlast
  rw [render_eq_join hne, join_append] at hlast
  have hmem : slash ∈ s := by
    cases hcs : s with
    | nil => exact absurd hcs hs.1
    | cons b t =>
      simp only [join_cons, join_nil, List.append_nil, hcs] at hlast
      rw [List.getLast?_append_of_ne_nil _ (by simp), List.getLast?_cons_cons] at hlast
      exact List.mem_of_getLast? hlast
  exact hs.2 hmem

/-- The part of a resolution that identifies the path: mount and inner path determine it. -/
theorem relative_injective {m : Mount F} {p q : Str} (hp : Matches m.pfx p) (hq : Matches m.pfx q)
    (cp : Canonical p) (cq : Canonical q) (h : relative m p = relative m q) : p = q := by
  have boundary : ∀ {p q : Str}, Matches m.pfx q → Canonical q → p = m.pfx → p ≠ [] →
      relative m p = relative m q → p = q := by
    intro p q hq cq hpm hne hrel
    by_contra hpq
    have root : m.pfx ≠ [] := hpm ▸ hne
    have hcat := prefix_relative hq (by rintro rfl; exact hpq hpm)
    rw [← hrel, relative_of_eq root hpm] at hcat
    refine canonical_getLast cq ?_ (by rw [← hcat]; simp)
    rintro rfl
    cases hpf : m.pfx with
    | nil => exact root hpf
    | cons b t => simp [hpf] at hcat
  have nonempty : ∀ {p : Str}, Canonical p → p ≠ [] := by
    rintro p ⟨segs, _, rfl⟩ h
    have := render_head segs
    simp [h] at this
  by_cases hpm : p = m.pfx
  · exact boundary hq cq hpm (nonempty cp) h
  by_cases hqm : q = m.pfx
  · exact (boundary hp cp hqm (nonempty cq) h.symm).symm
  rw [← prefix_relative hp hpm, ← prefix_relative hq hqm, h]

/-- `m` is the stored mount with the longest covering prefix and `rel` the path inside it. -/
structure LongestMatch (v : Vfs F) (abs : Str) (m : Mount F) (rel : Str) : Prop where
  stored : m ∈ v.mounts
  covering : Matches m.pfx abs
  longest : ∀ m' ∈ v.mounts, Matches m'.pfx abs → m' ≠ m → m'.pfx.length < m.pfx.length
  rooted : rel.head? = some slash
  glued : if abs = m.pfx then rel = [slash] else m.pfx ++ rel = abs
  canonical : Canonical abs → Canonical rel

theorem bestMount_longestMatch {v : Vfs F} (hv : TableOk v) {abs : Str} {m : Mount F}
    (habs : abs.head? = some slash) (h : bestMount v abs = some m) :
    LongestMatch v abs m (relative m abs) := by
  have best := bestMount_best v abs
  rw [h] at best
  obtain ⟨stored, covering, hmax⟩ := best
  refine ⟨stored, covering, fun m' hm' hc hne => ?_, relative_head habs covering, ?_,
    relative_canonical covering⟩
  · refine lt_of_le_of_ne (hmax m' hm' hc) fun hlen => hne ?_
    exact mount_unique hv hm' stored (matches_eq_of_length hc covering hlen)
  · split_ifs with heq
    · refine relative_of_eq (fun root => ?_) heq
      rw [heq, root] at habs
      simp at habs
    · exact prefix_relative covering heq

theorem resolveMount_ok {v : Vfs F} {abs : Str} {r : Mount F × Str}
    (h : resolveMount v abs = .ok r) :
    abs.head? = some slash ∧ bestMount v abs = some r.1 ∧ r.2 = relative r.1 abs := by
  unfold resolveMount at h
  split_ifs at h with habs
  cases hb : bestMount v abs with
  | none => simp [hb] at h
  | some m =>
    simp only [hb, Except.ok.injEq] at h
    subst h
    exact ⟨by simpa using habs, rfl, rfl⟩

theorem resolve_error_iff {v : Vfs F} {abs : Str} (habs : abs.head? = some slash) :
    (∃ e, resolve v abs = .error e) ↔ ∀ m ∈ v.mounts, ¬ Matches m.pfx abs := by
  have best := bestMount_best v abs
  cases hb : bestMount v abs with
  | none =>
    rw [hb] at best
    simpa [resolve, resolveMount, habs, hb, Except.map, Best] using best
  | some b =>
    rw [hb] at best
    simpa [resolve, resolveMount, habs, hb, Except.map] using ⟨b, best.1, best.2.1⟩

/-- Resolution over every reachable table: longest aligned prefix, independent of
the mounting order, and injective on canonical paths. -/
theorem resolve_longestMatch {v : Vfs F} (hv : Reachable v) :
    TableOk v ∧
    (∀ abs : Str, abs.head? = some slash →
      ((∃ e, resolve v abs = .error e) ↔ ∀ m ∈ v.mounts, ¬ Matches m.pfx abs) ∧
      ∀ fs rel, resolve v abs = .ok (fs, rel) →
        ∃ m, m.fs = fs ∧ resolveMount v abs = .ok (m, rel) ∧ LongestMatch v abs m rel) ∧
    (∀ w : Vfs F, Reachable w → (∀ m, m ∈ w.mounts ↔ m ∈ v.mounts) →
      ∀ abs, resolve w abs = resolve v abs) ∧
    (∀ p q r, Canonical p → Canonical q → resolveMount v p = .ok r →
      resolveMount v q = .ok r → p = q) := by
  have table := reachable_tableOk hv
  refine ⟨table, fun abs habs => ⟨resolve_error_iff habs, ?_⟩, ?_, ?_⟩
  · intro fs rel h
    cases hr : resolveMount v abs with
    | error e => simp [resolve, hr, Except.map] at h
    | ok r =>
      obtain ⟨m, rel'⟩ := r
      simp only [resolve, hr, Except.map, Except.ok.injEq, Prod.mk.injEq] at h
      obtain ⟨rfl, rfl⟩ := h
      obtain ⟨_, hb, hrel⟩ := resolveMount_ok hr
      dsimp only at hb hrel
      subst hrel
      exact ⟨m, rfl, rfl, bestMount_longestMatch table habs hb⟩
  · intro w _ same abs
    simp only [resolve, resolveMount, bestMount_congr table same abs]
  · intro p q r cp cq hp hq
    obtain ⟨_, bp, rp⟩ := resolveMount_ok hp
    obtain ⟨_, bq, rq⟩ := resolveMount_ok hq
    have mp := bestMount_best v p
    have mq := bestMount_best v q
    rw [bp] at mp
    rw [bq] at mq
    exact relative_injective mp.2.1 mq.2.1 cp cq (rp.symm.trans rq)

/-- The table `mount_root` starts to build, with numbers for backends. -/
def rootAndTmp : Vfs Nat := (mount (mount new (text "/") 0).2 (text "/tmp") 1).2

theorem rootAndTmp_reachable : Reachable rootAndTmp := .mount (.mount .new _ _) _ _

theorem resolve_longestMatch_rootAndTmp :
    resolve rootAndTmp (text "/tmp/log") = .ok (1, text "/log") ∧
    ∃ m, m.fs = 1 ∧ LongestMatch rootAndTmp (text "/tmp/log") m (text "/log") := by
  have h : resolve rootAndTmp (text "/tmp/log") = .ok (1, text "/log") := by decide +kernel
  obtain ⟨m, hfs, _, hm⟩ :=
    ((resolve_longestMatch rootAndTmp_reachable).2.1 (text "/tmp/log") (by decide +kernel)).2 _ _ h
  exact ⟨h, m, hfs, hm⟩

end Willo.MountTable
