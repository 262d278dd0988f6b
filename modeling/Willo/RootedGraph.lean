import Mathlib.Tactic.Common

/-! Rooted graphs of directories that own resources. A node has indexed entries,
some of which lead to a further node; the root and every entry own a set of
resources, and a node is named by one of the resources its entry owns. When no
resource has two owners, every node has one place it is reached from. The
rules say what stays reachable and owned when one entry is taken out, when one
is put in, and when nothing in reach changes. -/

namespace Willo.RootedGraph

structure Graph (κ ι ε : Type) where
  root : κ
  entry : κ → ι → Option ε
  child : ε → Option κ
  base : κ → Prop
  part : ε → κ → Prop

variable {κ ι ε : Type} {G G' : Graph κ ι ε}

inductive Reach (G : Graph κ ι ε) : κ → Prop
  | root : Reach G G.root
  | step {n m : κ} {i : ι} {e : ε} : Reach G n → G.entry n i = some e → G.child e = some m →
      Reach G m

inductive Owner (κ ι : Type) where
  | root
  | slot (n : κ) (i : ι)

inductive Holds (G : Graph κ ι ε) : Owner κ ι → κ → Prop
  | root {r : κ} : G.base r → Holds G .root r
  | slot {n r : κ} {i : ι} {e : ε} : Reach G n → G.entry n i = some e → G.part e r →
      Holds G (.slot n i) r

def Held (G : Graph κ ι ε) (r : κ) : Prop := ∃ o, Holds G o r

/-- Every node in reach is owned by the place that leads to it, and nothing has two owners. -/
structure Forest (G : Graph κ ι ε) : Prop where
  anchor : G.base G.root
  anchors : ∀ {n m i e}, Reach G n → G.entry n i = some e → G.child e = some m → G.part e m
  separated : ∀ {o o' r}, Holds G o r → Holds G o' r → o = o'

theorem Forest.parent_unique (F : Forest G) {n n' m : κ} {i i' : ι} {e e' : ε}
    (hn : Reach G n) (he : G.entry n i = some e) (hm : G.child e = some m)
    (hn' : Reach G n') (he' : G.entry n' i' = some e') (hm' : G.child e' = some m) :
    n = n' ∧ i = i' := by
  have h := F.separated (.slot hn he (F.anchors hn he hm)) (.slot hn' he' (F.anchors hn' he' hm'))
  exact Owner.slot.inj h

theorem Forest.child_ne_root (F : Forest G) {n : κ} {i : ι} {e : ε} (hn : Reach G n)
    (he : G.entry n i = some e) : G.child e ≠ some G.root := by
  intro hm
  cases F.separated (.root F.anchor) (.slot hn he (F.anchors hn he hm))

/-! Nothing in reach changes. -/

structure Agrees (G G' : Graph κ ι ε) : Prop where
  root : G'.root = G.root
  child : G'.child = G.child
  base : ∀ r, G'.base r ↔ G.base r
  entry : ∀ n, Reach G n → ∀ i, G'.entry n i = G.entry n i
  part : ∀ n i e, Reach G n → G.entry n i = some e → ∀ r, G'.part e r ↔ G.part e r

theorem Agrees.reach (A : Agrees G G') (n : κ) : Reach G' n ↔ Reach G n := by
  constructor
  · intro h
    induction h with
    | root => rw [A.root]; exact .root
    | step _ he hm ih =>
      rw [A.entry _ ih] at he
      rw [A.child] at hm
      exact .step ih he hm
  · intro h
    induction h with
    | root => rw [← A.root]; exact .root
    | step hn he hm ih =>
      rw [← A.entry _ hn] at he
      rw [← A.child] at hm
      exact .step ih he hm

theorem Agrees.holds (A : Agrees G G') (o : Owner κ ι) (r : κ) : Holds G' o r ↔ Holds G o r := by
  constructor
  · intro h
    cases h with
    | root hb => exact .root ((A.base r).mp hb)
    | slot hn he hp =>
      have hn := (A.reach _).mp hn
      rw [A.entry _ hn] at he
      exact .slot hn he ((A.part _ _ _ hn he r).mp hp)
  · intro h
    cases h with
    | root hb => exact .root ((A.base r).mpr hb)
    | slot hn he hp =>
      refine .slot ((A.reach _).mpr hn) ?_ ((A.part _ _ _ hn he r).mpr hp)
      rwa [A.entry _ hn]

theorem Agrees.forest (A : Agrees G G') (F : Forest G) : Forest G' := by
  refine ⟨?_, fun hn he hm => ?_, fun h h' => ?_⟩
  · rw [A.base, A.root]
    exact F.anchor
  · have hn := (A.reach _).mp hn
    rw [A.entry _ hn] at he
    rw [A.child] at hm
    exact (A.part _ _ _ hn he _).mpr (F.anchors hn he hm)
  · exact F.separated ((A.holds _ _).mp h) ((A.holds _ _).mp h')

/-- No node leads to itself: its one parent would have to be reached first. -/
theorem Forest.child_ne_self (F : Forest G) {n : κ} (hn : Reach G n) {i : ι} {e : ε}
    (he : G.entry n i = some e) : G.child e ≠ some n := by
  induction hn generalizing i e with
  | root => exact F.child_ne_root .root he
  | step hn' he' hm' ih =>
    intro hm
    obtain ⟨rfl, rfl⟩ := F.parent_unique (.step hn' he' hm') he hm hn' he' hm'
    exact ih he hm

/-! One entry is taken out, and with it what was reached through it alone. -/

structure Severed (G G' : Graph κ ι ε) (n₀ : κ) (i₀ : ι) (e₀ : ε) : Prop where
  root : G'.root = G.root
  child : G'.child = G.child
  base : ∀ r, G'.base r ↔ G.base r
  reach : Reach G n₀
  was : G.entry n₀ i₀ = some e₀
  gone : G'.entry n₀ i₀ = none
  entry : ∀ n, Reach G n → G.child e₀ ≠ some n → ∀ i, n ≠ n₀ ∨ i ≠ i₀ →
    G'.entry n i = G.entry n i
  part : ∀ n i e, Reach G n → G.entry n i = some e → n ≠ n₀ ∨ i ≠ i₀ →
    ∀ r, G'.part e r ↔ G.part e r

section Sever

variable {n₀ : κ} {i₀ : ι} {e₀ : ε}

theorem Severed.entry_some (T : Severed G G' n₀ i₀ e₀) {n : κ} {i : ι} {e : ε} (hn : Reach G n)
    (hne : G.child e₀ ≠ some n) (he : G'.entry n i = some e) :
    G.entry n i = some e ∧ (n ≠ n₀ ∨ i ≠ i₀) := by
  have hplace : n ≠ n₀ ∨ i ≠ i₀ := by
    by_contra h
    push Not at h
    rw [h.1, h.2, T.gone] at he
    cases he
  exact ⟨by rwa [T.entry n hn hne i hplace] at he, hplace⟩

theorem Severed.reach_before (F : Forest G) (T : Severed G G' n₀ i₀ e₀) {n : κ} (h : Reach G' n) :
    Reach G n ∧ G.child e₀ ≠ some n := by
  induction h with
  | root =>
    rw [T.root]
    exact ⟨.root, F.child_ne_root T.reach T.was⟩
  | @step n m i e _ he hm ih =>
    obtain ⟨he, hplace⟩ := T.entry_some ih.1 ih.2 he
    rw [T.child] at hm
    refine ⟨.step ih.1 he hm, fun hm' => ?_⟩
    obtain ⟨h1, h2⟩ := F.parent_unique ih.1 he hm T.reach T.was hm'
    tauto

theorem Severed.holds_before (F : Forest G) (T : Severed G G' n₀ i₀ e₀) {o : Owner κ ι} {r : κ}
    (h : Holds G' o r) : Holds G o r ∧ o ≠ .slot n₀ i₀ := by
  cases h with
  | root hb => exact ⟨.root ((T.base r).mp hb), by simp⟩
  | slot hn he hp =>
    obtain ⟨hn, hne⟩ := T.reach_before F hn
    obtain ⟨he, hplace⟩ := T.entry_some hn hne he
    refine ⟨.slot hn he ((T.part _ _ _ hn he hplace r).mp hp), fun h => ?_⟩
    obtain ⟨h1, h2⟩ := Owner.slot.inj h
    tauto

theorem Severed.forest (F : Forest G) (T : Severed G G' n₀ i₀ e₀) : Forest G' := by
  refine ⟨?_, fun hn he hm => ?_, fun h h' => ?_⟩
  · rw [T.base, T.root]
    exact F.anchor
  · obtain ⟨hn, hne⟩ := T.reach_before F hn
    obtain ⟨he, hplace⟩ := T.entry_some hn hne he
    rw [T.child] at hm
    exact (T.part _ _ _ hn he hplace _).mpr (F.anchors hn he hm)
  · exact F.separated (T.holds_before F h).1 (T.holds_before F h').1

end Sever

/-! One entry is taken out; a node it led to had no entries. -/

structure Detached (G G' : Graph κ ι ε) (n₀ : κ) (i₀ : ι) (e₀ : ε) : Prop where
  root : G'.root = G.root
  child : G'.child = G.child
  base : ∀ r, G'.base r ↔ G.base r
  reach : Reach G n₀
  was : G.entry n₀ i₀ = some e₀
  gone : G'.entry n₀ i₀ = none
  empty : ∀ m, G.child e₀ = some m → ∀ i, G.entry m i = none
  entry : ∀ n, Reach G n → G.child e₀ ≠ some n → ∀ i, n ≠ n₀ ∨ i ≠ i₀ →
    G'.entry n i = G.entry n i
  part : ∀ n i e, Reach G n → G.entry n i = some e → n ≠ n₀ ∨ i ≠ i₀ →
    ∀ r, G'.part e r ↔ G.part e r

section Detach

variable {n₀ : κ} {i₀ : ι} {e₀ : ε}

theorem Detached.severed (T : Detached G G' n₀ i₀ e₀) : Severed G G' n₀ i₀ e₀ :=
  ⟨T.root, T.child, T.base, T.reach, T.was, T.gone, T.entry, T.part⟩

theorem Detached.entry_some (T : Detached G G' n₀ i₀ e₀) {n : κ} {i : ι} {e : ε} (hn : Reach G n)
    (hne : G.child e₀ ≠ some n) (he : G'.entry n i = some e) :
    G.entry n i = some e ∧ (n ≠ n₀ ∨ i ≠ i₀) :=
  T.severed.entry_some hn hne he

theorem Detached.reach_iff (F : Forest G) (T : Detached G G' n₀ i₀ e₀) (n : κ) :
    Reach G' n ↔ Reach G n ∧ G.child e₀ ≠ some n := by
  refine ⟨T.severed.reach_before F, ?_⟩
  rintro ⟨h, hne⟩
  induction h with
  | root => rw [← T.root]; exact .root
  | @step n m i e hn he hm ih =>
    have hn₀ : G.child e₀ ≠ some n := by
      intro h
      rw [T.empty n h i] at he
      cases he
    have hplace : n ≠ n₀ ∨ i ≠ i₀ := by
      by_contra h
      push Not at h
      rw [h.1, h.2, T.was] at he
      exact hne (Option.some.inj he ▸ hm)
    have he' : G'.entry n i = some e := by rwa [T.entry n hn hn₀ i hplace]
    exact .step (ih hn₀) he' (by rw [T.child]; exact hm)

theorem Detached.holds_iff (F : Forest G) (T : Detached G G' n₀ i₀ e₀) (o : Owner κ ι) (r : κ) :
    Holds G' o r ↔ Holds G o r ∧ o ≠ .slot n₀ i₀ := by
  refine ⟨T.severed.holds_before F, ?_⟩
  rintro ⟨h, ho⟩
  cases h with
  | root hb => exact .root ((T.base r).mpr hb)
  | @slot n r i e hn he hp =>
    have hn₀ : G.child e₀ ≠ some n := by
      intro h
      rw [T.empty n h i] at he
      cases he
    have hplace : n ≠ n₀ ∨ i ≠ i₀ := by
      by_contra h
      push Not at h
      exact ho (by rw [h.1, h.2])
    refine .slot ((T.reach_iff F n).mpr ⟨hn, hn₀⟩) ?_ ((T.part _ _ _ hn he hplace r).mpr hp)
    rwa [T.entry n hn hn₀ i hplace]

end Detach

/-! A free place of `n₀` gets an entry, or stays free, and `n₀` may get the resources `extra`. -/

structure Attached (G G' : Graph κ ι ε) (n₀ : κ) (i₀ : ι) (e₀ : Option ε) (extra : κ → Prop) :
    Prop where
  root : G'.root = G.root
  child : G'.child = G.child
  reach : Reach G n₀
  was : G.entry n₀ i₀ = none
  now : G'.entry n₀ i₀ = e₀
  empty : ∀ e m, e₀ = some e → G.child e = some m → ∀ i, G'.entry m i = none
  entry : ∀ n, Reach G n → ∀ i, n ≠ n₀ ∨ i ≠ i₀ → G'.entry n i = G.entry n i
  base : ∀ r, G'.base r ↔ G.base r ∨ G.root = n₀ ∧ extra r
  part : ∀ n i e, Reach G n → G.entry n i = some e →
    ∀ r, G'.part e r ↔ G.part e r ∨ G.child e = some n₀ ∧ extra r
  anchors : ∀ e m, e₀ = some e → G.child e = some m → G'.part e m
  fresh : ∀ e r, e₀ = some e → G'.part e r → ¬ Held G r
  freshExtra : ∀ r, extra r → ¬ Held G r
  apart : ∀ e r, e₀ = some e → G'.part e r → ¬ extra r

section Attach

variable {n₀ : κ} {i₀ : ι} {e₀ : Option ε} {extra : κ → Prop}

theorem Attached.entry_some (T : Attached G G' n₀ i₀ e₀ extra) {n : κ} {i : ι} {e : ε}
    (hn : Reach G n) (he : G'.entry n i = some e) :
    G.entry n i = some e ∨ n = n₀ ∧ i = i₀ ∧ e₀ = some e := by
  by_cases h : n = n₀ ∧ i = i₀
  · rw [h.1, h.2, T.now] at he
    exact Or.inr ⟨h.1, h.2, he⟩
  · rw [T.entry n hn i (by tauto)] at he
    exact Or.inl he

theorem Attached.entry_of_some (T : Attached G G' n₀ i₀ e₀ extra) {n : κ} {i : ι} {e : ε}
    (hn : Reach G n) (he : G.entry n i = some e) : G'.entry n i = some e := by
  rw [T.entry n hn i]
  · exact he
  · by_contra h
    push Not at h
    rw [h.1, h.2, T.was] at he
    cases he

theorem Attached.reach_iff (T : Attached G G' n₀ i₀ e₀ extra) (n : κ) :
    Reach G' n ↔ Reach G n ∨ ∃ e, e₀ = some e ∧ G.child e = some n := by
  have hold : ∀ {n}, Reach G n → Reach G' n := by
    intro n h
    induction h with
    | root => rw [← T.root]; exact .root
    | step hn he hm ih =>
      rw [← T.child] at hm
      exact .step ih (T.entry_of_some hn he) hm
  constructor
  · intro h
    induction h with
    | root => rw [T.root]; exact Or.inl .root
    | step _ he hm ih =>
      rw [T.child] at hm
      rcases ih with hn | ⟨e', he', hn⟩
      · rcases T.entry_some hn he with he | ⟨-, -, he⟩
        · exact Or.inl (.step hn he hm)
        · exact Or.inr ⟨_, he, hm⟩
      · rw [T.empty _ _ he' hn] at he
        cases he
  · rintro (h | ⟨e, he, h⟩)
    · exact hold h
    · exact .step (hold T.reach) (T.now.trans he) (by rw [T.child]; exact h)

theorem Attached.holds_cases (T : Attached G G' n₀ i₀ e₀ extra) {o : Owner κ ι} {r : κ}
    (h : Holds G' o r) :
    Holds G o r ∨ (∃ e, o = .slot n₀ i₀ ∧ e₀ = some e ∧ G'.part e r) ∨ extra r ∧
      (o = .root ∧ G.root = n₀ ∨
        ∃ n i e, o = .slot n i ∧ Reach G n ∧ G.entry n i = some e ∧ G.child e = some n₀) := by
  cases h with
  | root hb =>
    rcases (T.base r).mp hb with hb | ⟨hr, hx⟩
    · exact Or.inl (.root hb)
    · exact Or.inr (Or.inr ⟨hx, Or.inl ⟨rfl, hr⟩⟩)
  | @slot n r i e hn he hp =>
    rcases (T.reach_iff n).mp hn with hn | ⟨e', he', hn⟩
    · rcases T.entry_some hn he with he | ⟨rfl, rfl, he⟩
      · rcases (T.part _ _ _ hn he r).mp hp with hp | ⟨hm, hx⟩
        · exact Or.inl (.slot hn he hp)
        · exact Or.inr (Or.inr ⟨hx, Or.inr ⟨n, i, e, rfl, hn, he, hm⟩⟩)
      · exact Or.inr (Or.inl ⟨e, rfl, he, hp⟩)
    · rw [T.empty _ _ he' hn] at he
      cases he

theorem Attached.holds (T : Attached G G' n₀ i₀ e₀ extra) {o : Owner κ ι} {r : κ}
    (h : Holds G o r) : Holds G' o r := by
  cases h with
  | root hb => exact .root ((T.base r).mpr (Or.inl hb))
  | slot hn he hp =>
    exact .slot ((T.reach_iff _).mpr (Or.inl hn)) (T.entry_of_some hn he)
      ((T.part _ _ _ hn he r).mpr (Or.inl hp))

theorem Attached.held_extra (T : Attached G G' n₀ i₀ e₀ extra) {r : κ} (h : extra r) :
    Held G' r := by
  have hn := T.reach
  generalize hk : n₀ = k at hn
  cases hn with
  | root => exact ⟨.root, .root ((T.base r).mpr (Or.inr ⟨hk.symm, h⟩))⟩
  | step hn he hm =>
    subst hk
    exact ⟨_, .slot ((T.reach_iff _).mpr (Or.inl hn)) (T.entry_of_some hn he)
      ((T.part _ _ _ hn he r).mpr (Or.inr ⟨hm, h⟩))⟩

theorem Attached.held_part (T : Attached G G' n₀ i₀ e₀ extra) {e : ε} {r : κ} (he : e₀ = some e)
    (h : G'.part e r) : Held G' r :=
  ⟨_, .slot ((T.reach_iff _).mpr (Or.inl T.reach)) (T.now.trans he) h⟩

theorem Attached.forest (F : Forest G) (T : Attached G G' n₀ i₀ e₀ extra) : Forest G' := by
  refine ⟨?_, fun hn he hm => ?_, fun {o o' r} h h' => ?_⟩
  · rw [T.base, T.root]
    exact Or.inl F.anchor
  · rw [T.child] at hm
    rcases (T.reach_iff _).mp hn with hn | ⟨e', he', hn⟩
    · rcases T.entry_some hn he with he | ⟨-, -, he⟩
      · exact (T.part _ _ _ hn he _).mpr (Or.inl (F.anchors hn he hm))
      · exact T.anchors _ _ he hm
    · rw [T.empty _ _ he' hn] at he
      cases he
  · rcases T.holds_cases h with h | ⟨e, rfl, he, hp⟩ | ⟨hx, h⟩
    · rcases T.holds_cases h' with h' | ⟨e, -, he, hp⟩ | ⟨hx, -⟩
      · exact F.separated h h'
      · exact absurd ⟨o, h⟩ (T.fresh e r he hp)
      · exact absurd ⟨o, h⟩ (T.freshExtra r hx)
    · rcases T.holds_cases h' with h' | ⟨e', rfl, -⟩ | ⟨hx, -⟩
      · exact absurd ⟨o', h'⟩ (T.fresh e r he hp)
      · rfl
      · exact absurd hx (T.apart e r he hp)
    · rcases T.holds_cases h' with h' | ⟨e, -, he, hp⟩ | ⟨-, h'⟩
      · exact absurd ⟨o', h'⟩ (T.freshExtra r hx)
      · exact absurd hx (T.apart e r he hp)
      · -- both owners lead to the node that got the extra
        rcases h with ⟨rfl, hr⟩ | ⟨n, i, e, rfl, hn, he, hm⟩
        · rcases h' with ⟨rfl, -⟩ | ⟨n', i', e', rfl, hn', he', hm'⟩
          · rfl
          · exact absurd (hr ▸ hm') (F.child_ne_root hn' he')
        · rcases h' with ⟨rfl, hr⟩ | ⟨n', i', e', rfl, hn', he', hm'⟩
          · exact absurd (hr ▸ hm) (F.child_ne_root hn he)
          · obtain ⟨rfl, rfl⟩ := F.parent_unique hn he hm hn' he' hm'
            rfl

end Attach

end Willo.RootedGraph
