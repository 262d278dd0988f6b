import Willo.MountTable

/-! Mounting and finding again. `mount` cuts trailing separators and nothing else,
while every path a caller hands to `resolve` is normalised, so a file system is
found under the path it was mounted at exactly when the prefix was canonical but
for trailing separators. -/

namespace Willo.MountTable
open Text Paths

variable {F : Type}

/-- The path a stored prefix stands for, as `mounts` shows it. -/
def shownPath (stored : Str) : Str := if stored = [] then [slash] else stored

def Shaped (pfx : Str) : Prop := Canonical (shownPath (canonicalPrefix pfx))

/-- After mounting: the mount is what its normalised path resolves to, no two mounts
share a normalised path, and unmounting gives the old table back. -/
structure Served (v : Vfs F) (pfx : Str) (fs : F) : Prop where
  found : resolveMount (mount v pfx fs).2 (normalize [slash] pfx) =
    .ok (⟨canonicalPrefix pfx, fs⟩, [slash])
  apart : ∀ m ∈ (mount v pfx fs).2.mounts, ∀ m' ∈ (mount v pfx fs).2.mounts,
    normalize [slash] m.pfx = normalize [slash] m'.pfx → m = m'
  undone : unmount (mount v pfx fs).2 pfx = (.ok (), v)

/-- Tables in whose making every mount that succeeded had a canonical prefix. -/
inductive ShapedReachable : Vfs F → Prop where
  | new : ShapedReachable new
  | mount {v : Vfs F} (h : ShapedReachable v) (pfx : Str) (fs : F)
      (shaped : (mount v pfx fs).1 = .ok () → Shaped pfx) : ShapedReachable (mount v pfx fs).2
  | unmount {v : Vfs F} (h : ShapedReachable v) (pfx : Str) : ShapedReachable (unmount v pfx).2

theorem mount_ok {v : Vfs F} {pfx : Str} {fs : F} (h : (mount v pfx fs).1 = .ok ()) :
    pfx.head? = some slash ∧ (∀ m ∈ v.mounts, m.pfx ≠ canonicalPrefix pfx) ∧
      (mount v pfx fs).2 = ⟨v.mounts ++ [⟨canonicalPrefix pfx, fs⟩]⟩ := by
  unfold mount at h ⊢
  dsimp only at h ⊢
  split_ifs at h ⊢ with full malformed taken
  refine ⟨by simpa using malformed, fun m hm => ?_, rfl⟩
  simp only [List.any_eq_true, beq_iff_eq, not_exists, not_and] at taken
  exact taken m hm

theorem shapedReachable_reachable {v : Vfs F} (h : ShapedReachable v) : Reachable v := by
  induction h with
  | new => exact .new
  | mount _ pfx fs _ ih => exact ih.mount pfx fs
  | unmount _ pfx ih => exact ih.unmount pfx

theorem shapedReachable_canonical {v : Vfs F} (h : ShapedReachable v) :
    ∀ m ∈ v.mounts, Canonical (shownPath m.pfx) := by
  induction h with
  | new => simp [new]
  | @mount v _ pfx fs shaped ih =>
    cases hr : (mount v pfx fs).1 with
    | error e =>
      have hsame : (mount v pfx fs).2 = v := by
        unfold mount at hr ⊢
        dsimp only at hr ⊢
        split_ifs at hr ⊢ <;> rfl
      rwa [hsame]
    | ok u =>
      rw [(mount_ok hr).2.2]
      intro m hm
      rcases List.mem_append.mp hm with hm | hm
      · exact ih m hm
      · rw [List.mem_singleton.mp hm]
        exact shaped hr
  | @unmount v _ pfx ih =>
    have hsub : ∀ m ∈ (unmount v pfx).2.mounts, m ∈ v.mounts := by
      unfold unmount
      dsimp only
      split
      · exact fun m hm => hm
      · exact fun m hm => List.mem_of_mem_eraseIdx hm
    exact fun m hm => ih m (hsub m hm)

theorem root_canonical : Canonical [slash] := ⟨[], by simp, rfl⟩

theorem shownPath_head {pfx : Str} (h : pfx = [] ∨ pfx.head? = some slash) :
    (shownPath pfx).head? = some slash := by
  unfold shownPath
  split_ifs with hnil
  · rfl
  · exact h.resolve_left hnil

theorem normalize_shownPath {pfx : Str} (h : pfx.head? = some slash) :
    normalize [slash] pfx = normalize [slash] (shownPath (canonicalPrefix pfx)) := by
  have hhead := shownPath_head ((canonicalPrefix_shaped h).imp_right And.left)
  have hsegs : segments (shownPath (canonicalPrefix pfx)) = segments pfx := by
    unfold shownPath canonicalPrefix
    split_ifs with hroot hnil hnil
    · rw [hroot]
    · exact absurd rfl hnil
    · rw [← segments_trimEnd pfx, hnil]
      rfl
    · exact segments_trimEnd pfx
  rw [Paths.normalize, Paths.normalize, if_pos h, if_pos hhead, hsegs]

theorem normalize_stored {pfx : Str} (h : Canonical (shownPath pfx)) :
    normalize [slash] pfx = shownPath pfx := by
  by_cases hnil : pfx = []
  · rw [hnil]
    rfl
  · rw [shownPath, if_neg hnil] at h ⊢
    exact normalize_eq_self h [slash]

theorem mount_undone {v : Vfs F} {pfx : Str} {fs : F} (hok : (mount v pfx fs).1 = .ok ()) :
    unmount (mount v pfx fs).2 pfx = (.ok (), v) := by
  obtain ⟨-, fresh, hmount⟩ := mount_ok hok
  have hnone : v.mounts.findIdx? (·.pfx == canonicalPrefix pfx) = none := by
    rw [List.findIdx?_eq_none_iff]
    intro m hm
    simpa using fresh m hm
  have hfind : (v.mounts ++ [(⟨canonicalPrefix pfx, fs⟩ : Mount F)]).findIdx?
      (·.pfx == canonicalPrefix pfx) = some v.mounts.length := by
    rw [List.findIdx?_append, hnone]
    simp
  rw [hmount, unmount]
  dsimp only
  rw [hfind]
  simp [List.eraseIdx_append_of_length_le]

theorem bestMount_new {v : Vfs F} (hv : TableOk v) {pfx : Str} {fs : F}
    (hok : (mount v pfx fs).1 = .ok ()) :
    bestMount (mount v pfx fs).2 (shownPath (canonicalPrefix pfx)) =
      some ⟨canonicalPrefix pfx, fs⟩ := by
  obtain ⟨hhead, -, hmount⟩ := mount_ok hok
  have table := mount_tableOk hv pfx fs
  have best := bestMount_best (mount v pfx fs).2 (shownPath (canonicalPrefix pfx))
  have stored : (⟨canonicalPrefix pfx, fs⟩ : Mount F) ∈ (mount v pfx fs).2.mounts := by
    rw [hmount]
    simp
  have covering : Matches (canonicalPrefix pfx) (shownPath (canonicalPrefix pfx)) := by
    unfold shownPath
    split_ifs with hnil
    · exact Or.inl hnil
    · exact Or.inr (Or.inl rfl)
  cases hb : bestMount (mount v pfx fs).2 (shownPath (canonicalPrefix pfx)) with
  | none =>
    rw [hb] at best
    exact absurd covering (best _ stored)
  | some b =>
    rw [hb] at best
    obtain ⟨hmem, hcover, hmax⟩ := best
    have hlong : (canonicalPrefix pfx).length ≤ b.pfx.length := hmax _ stored covering
    have hshort : b.pfx.length ≤ (canonicalPrefix pfx).length := by
      by_cases hnil : canonicalPrefix pfx = []
      · -- the root: the only other prefix of `/` would end in a separator
        rw [hnil, shownPath, if_pos rfl] at hcover
        rcases hcover with h | h | ⟨hpre, hne, -⟩
        · simp [h]
        · rcases table.shaped b hmem with h' | ⟨-, hlast⟩
          · simp [h']
          · rw [h] at hlast
            exact absurd rfl hlast
        · have hlt : b.pfx.length < 1 := lt_of_le_of_ne hpre.length_le fun hlen =>
            hne (hpre.eq_of_length hlen)
          omega
      · rw [shownPath, if_neg hnil] at hcover
        exact (matches_initial hcover).length_le
    exact congrArg some (mount_unique table hmem stored
      (matches_eq_of_length hcover covering (le_antisymm hshort hlong)))

theorem mount_found_iff {v : Vfs F} (hv : TableOk v) {pfx : Str} {fs : F}
    (hok : (mount v pfx fs).1 = .ok ()) :
    resolveMount (mount v pfx fs).2 (normalize [slash] pfx) =
      .ok (⟨canonicalPrefix pfx, fs⟩, [slash]) ↔
      Shaped pfx := by
  obtain ⟨hhead, -, -⟩ := mount_ok hok
  have hshown := shownPath_head ((canonicalPrefix_shaped hhead).imp_right And.left)
  constructor
  · intro hfound
    obtain ⟨-, hbest, hrel⟩ := resolveMount_ok hfound
    have hcanon : Canonical (normalize [slash] pfx) := normalize_canonical root_canonical pfx
    have best := bestMount_best (mount v pfx fs).2 (normalize [slash] pfx)
    rw [hbest] at best
    unfold Shaped shownPath
    split_ifs with hnil
    · exact root_canonical
    · by_cases heq : normalize [slash] pfx = canonicalPrefix pfx
      · rwa [← heq]
      · -- otherwise the path would go on behind the prefix with a bare separator
        have hglue := prefix_relative best.2.1 heq
        rw [← hrel] at hglue
        have hroot : normalize [slash] pfx ≠ [slash] := by
          intro h
          rw [h] at hglue
          exact hnil (by simpa using hglue)
        exact absurd (by rw [← hglue]; simp) (canonical_getLast hcanon hroot)
  · intro hshaped
    rw [normalize_shownPath hhead, normalize_eq_self hshaped, resolveMount,
      if_neg (by simp [hshown]), bestMount_new hv hok]
    dsimp only
    congr 2
    unfold relative shownPath
    split_ifs <;> simp_all

/-- In a table of canonical mounts, a mount that succeeds is served exactly when its own
prefix is canonical but for trailing separators. -/
theorem mount_served_iff {v : Vfs F} (hv : ShapedReachable v) {pfx : Str} {fs : F}
    (hok : (mount v pfx fs).1 = .ok ()) : Served v pfx fs ↔ Shaped pfx := by
  have table := reachable_tableOk (shapedReachable_reachable hv)
  constructor
  · intro h
    exact (mount_found_iff table hok).mp h.found
  · intro hshaped
    refine ⟨(mount_found_iff table hok).mpr hshaped, fun m hm m' hm' heq => ?_, mount_undone hok⟩
    have hall := shapedReachable_canonical (hv.mount pfx fs fun _ => hshaped)
    rw [normalize_stored (hall m hm), normalize_stored (hall m' hm')] at heq
    refine mount_unique (mount_tableOk table pfx fs) hm hm' ?_
    -- no stored prefix is the path `/` itself
    have hnoSlash : ∀ n ∈ (mount v pfx fs).2.mounts, n.pfx ≠ [slash] := by
      intro n hn h
      rcases (mount_tableOk table pfx fs).shaped n hn with h' | ⟨-, hlast⟩
      · rw [h] at h'
        cases h'
      · rw [h] at hlast
        exact hlast rfl
    unfold shownPath at heq
    split_ifs at heq with h1 h2 h2
    · rw [h1, h2]
    · exact absurd heq.symm (hnoSlash m' hm')
    · exact absurd heq (hnoSlash m hm)
    · exact heq

theorem mount_served_tmp : Served rootAndTmp (text "/mnt/") 2 := by
  have hroot : ShapedReachable (mount (new : Vfs Nat) (text "/") 0).2 :=
    .mount .new _ _ fun _ => ⟨[], by simp, by decide +kernel⟩
  have hv : ShapedReachable rootAndTmp :=
    .mount hroot _ _ fun _ => ⟨[text "tmp"], by decide +kernel, by decide +kernel⟩
  exact (mount_served_iff hv (by decide +kernel)).mpr
    ⟨[text "mnt"], by decide +kernel, by decide +kernel⟩

/-- A doubled separator is accepted, and what is mounted there is out of reach. -/
theorem mount_lost_doubled :
    Reachable rootAndTmp ∧ (mount rootAndTmp (text "/a//b") 2).1 = .ok () ∧
      resolve (mount rootAndTmp (text "/a//b") 2).2 (normalize (text "/") (text "/a//b")) =
        .ok (0, text "/a/b") :=
  ⟨rootAndTmp_reachable, by decide +kernel, by decide +kernel⟩

end Willo.MountTable
