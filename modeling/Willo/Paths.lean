import Willo.Text

/-! Errors and absolute paths of the file-system layer (`fs/mod.rs`).
A canonical path is `/` or a run of `/`-led components, none of them empty,
`.` or `..`; `normalize` produces exactly these. Backends receive canonical
paths relative to their mount point. -/

namespace Willo.Paths
open Text

inductive FsError where
  | notFound
  | notADir
  | isADir
  | io
  | unsupported
  deriving DecidableEq, Repr

/-- A directory component: usable between separators and not a dot name. -/
def Component (s : Str) : Prop := Plain s ∧ s ≠ [dot] ∧ s ≠ [dot, dot]

instance (s : Str) : Decidable (Component s) := inferInstanceAs (Decidable (_ ∧ _))

def render (segs : List Str) : Str := if segs = [] then [slash] else join segs

def Canonical (p : Str) : Prop := ∃ segs, (∀ s ∈ segs, Component s) ∧ p = render segs

@[simp] theorem render_nil : render [] = [slash] := rfl

theorem render_eq_join {segs : List Str} (h : segs ≠ []) : render segs = join segs := by
  simp [render, h]

theorem render_head (segs : List Str) : (render segs).head? = some slash := by
  cases segs <;> rfl

theorem segments_render {segs : List Str} (h : ∀ s ∈ segs, Component s) :
    segments (render segs) = segs := by
  by_cases hs : segs = []
  · subst hs
    rfl
  · rw [render_eq_join hs, segments_join (fun s m => (h s m).1)]

theorem render_injective {as bs : List Str} (ha : ∀ s ∈ as, Component s)
    (hb : ∀ s ∈ bs, Component s) (h : render as = render bs) : as = bs := by
  rw [← segments_render ha, h, segments_render hb]

/-- One step of the component stack: `.` is dropped, `..` pops. -/
def pushSegment (stack : List Str) (s : Str) : List Str :=
  if s = [dot] then stack else if s = [dot, dot] then stack.dropLast else stack ++ [s]

def normalize (cwd input : Str) : Str :=
  let base := if input.head? = some slash then [] else segments cwd
  render ((segments input).foldl pushSegment base)

theorem pushSegment_components {stack : List Str} {s : Str}
    (h : ∀ t ∈ stack, Component t) (hs : Plain s) :
    ∀ t ∈ pushSegment stack s, Component t := by
  intro t ht
  unfold pushSegment at ht
  split_ifs at ht with h1 h2
  · exact h t ht
  · exact h t (List.dropLast_subset _ ht)
  · rcases List.mem_append.mp ht with ht | ht
    · exact h t ht
    · rw [List.mem_singleton.mp ht]
      exact ⟨hs, h1, h2⟩

theorem foldl_pushSegment_components {segs stack : List Str}
    (h : ∀ t ∈ stack, Component t) (hs : ∀ s ∈ segs, Plain s) :
    ∀ t ∈ segs.foldl pushSegment stack, Component t := by
  induction segs generalizing stack with
  | nil => exact h
  | cons s segs ih =>
    exact ih (pushSegment_components h (hs s (by simp))) (fun t ht => hs t (by simp [ht]))

theorem foldl_pushSegment_eq_append {segs stack : List Str} (h : ∀ s ∈ segs, Component s) :
    segs.foldl pushSegment stack = stack ++ segs := by
  induction segs generalizing stack with
  | nil => simp
  | cons s segs ih =>
    have hs := h s (by simp)
    rw [List.foldl_cons, ih (fun t ht => h t (by simp [ht]))]
    simp [pushSegment, hs.2.1, hs.2.2]

theorem normalize_canonical {cwd : Str} (h : Canonical cwd) (input : Str) :
    Canonical (normalize cwd input) := by
  refine ⟨_, foldl_pushSegment_components ?_ (fun s => plain_of_mem_segments), rfl⟩
  intro t ht
  split_ifs at ht
  · simp at ht
  · obtain ⟨segs, hsegs, rfl⟩ := h
    exact hsegs t (by rwa [segments_render hsegs] at ht)

theorem normalize_eq_self {p : Str} (h : Canonical p) (cwd : Str) : normalize cwd p = p := by
  obtain ⟨segs, hsegs, rfl⟩ := h
  rw [normalize, if_pos (render_head segs), segments_render hsegs,
    foldl_pushSegment_eq_append hsegs, List.nil_append]

theorem normalize_append {cwd a b : Str} (hcwd : Canonical cwd) (ha : a ≠ [])
    (hb : b.head? ≠ some slash) :
    normalize cwd (a ++ slash :: b) = normalize (normalize cwd a) b := by
  have hhead : (a ++ slash :: b).head? = a.head? := List.head?_append_of_ne_nil a ha
  have hsegs : segments (normalize cwd a) =
      (segments a).foldl pushSegment (if a.head? = some slash then [] else segments cwd) := by
    refine segments_render (foldl_pushSegment_components (fun t ht => ?_) fun _ =>
      plain_of_mem_segments)
    split_ifs at ht
    · simp at ht
    · obtain ⟨segs, hcomps, rfl⟩ := hcwd
      rw [segments_render hcomps] at ht
      exact hcomps t ht
  simp only [normalize] at hsegs ⊢
  rw [hhead, segments_append_slash, List.foldl_append, if_neg hb, hsegs]

end Willo.Paths
