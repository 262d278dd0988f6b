import Mathlib.Data.List.Nodup
import Mathlib.Tactic.Common

/-! Chains through a successor table. A chain starts at a node and follows `next`
through nodes that are `inside` up to the first value that satisfies `stop`,
which is not part of it. Since the table is a function, a chain is determined
by its start and visits no node twice. -/

namespace Willo.LinkedChain

variable {α : Type}

inductive Linked (next : α → α) (inside stop : α → Prop) : α → List α → Prop
  | stop {a : α} : stop a → Linked next inside stop a []
  | link {a : α} {cs : List α} : inside a → Linked next inside stop (next a) cs →
      Linked next inside stop a (a :: cs)

/-- The nodes met from a start, as long as `go` holds and fuel lasts. -/
def follow (next : α → α) (go : α → Bool) : Nat → α → List α
  | 0, _ => []
  | fuel + 1, a => if go a then a :: follow next go fuel (next a) else []

section Laws

variable {next next' : α → α} {inside stop : α → Prop} {a : α} {cs : List α}

theorem Linked.mem_inside (h : Linked next inside stop a cs) : ∀ b ∈ cs, inside b := by
  induction h with
  | stop _ => simp
  | link hin _ ih => simpa using ⟨hin, ih⟩

theorem Linked.inside_or_stop (h : Linked next inside stop a cs) : inside a ∨ stop a := by
  cases h with
  | stop hs => exact Or.inr hs
  | link hin _ => exact Or.inl hin

theorem Linked.next_inside_or_stop (h : Linked next inside stop a cs) :
    ∀ b ∈ cs, inside (next b) ∨ stop (next b) := by
  induction h with
  | stop _ => simp
  | link _ htail ih => simpa using ⟨htail.inside_or_stop, ih⟩

theorem Linked.congr (h : Linked next inside stop a cs) (heq : ∀ b ∈ cs, next' b = next b) :
    Linked next' inside stop a cs := by
  induction h with
  | stop hs => exact .stop hs
  | link hin _ ih =>
    refine .link hin ?_
    rw [heq _ (by simp)]
    exact ih fun b hb => heq b (by simp [hb])

theorem Linked.imp {inside' stop' : α → Prop} (h : Linked next inside stop a cs)
    (hin : ∀ b, inside b → inside' b)
    (hstop : ∀ b, stop b → stop' b) : Linked next inside' stop' a cs := by
  induction h with
  | stop hs => exact .stop (hstop _ hs)
  | link ha _ ih => exact .link (hin _ ha) ih

theorem Linked.from_mem (h : Linked next inside stop a cs) {b : α} (hb : b ∈ cs) :
    ∃ ds, Linked next inside stop b ds ∧ ds.length ≤ cs.length := by
  induction h with
  | stop _ => simp at hb
  | @link a cs hin htail ih =>
    rcases List.mem_cons.mp hb with rfl | hb
    · exact ⟨_, .link hin htail, Nat.le_refl _⟩
    · obtain ⟨ds, hds, hle⟩ := ih hb
      exact ⟨ds, hds, by rw [List.length_cons]; omega⟩

theorem Linked.last_stop {z : α} (h : Linked next inside stop a (cs ++ [z])) : stop (next z) := by
  induction cs generalizing a with
  | nil =>
    cases h with
    | link _ htail => cases htail with | stop hs => exact hs
  | cons b cs ih =>
    cases h with
    | link _ htail => exact ih htail

theorem Linked.extend {z n : α} (h : Linked next inside stop a (cs ++ [z]))
    (hframe : ∀ b ∈ cs, next' b = next b) (hz : next' z = n) (hn : inside n)
    (hstop : stop (next' n)) : Linked next' inside stop a (cs ++ [z, n]) := by
  induction cs generalizing a with
  | nil =>
    cases h with
    | link hin _ =>
      refine .link hin ?_
      rw [hz]
      exact .link hn (.stop hstop)
  | cons b cs ih =>
    cases h with
    | link hin htail =>
      refine .link hin ?_
      rw [hframe _ (by simp)]
      exact ih htail fun x hx => hframe x (by simp [hx])

section Exclusive

variable (hx : ∀ a, inside a → ¬ stop a)
include hx

theorem Linked.head (h : Linked next inside stop a cs) (ha : inside a) :
    ∃ rest, cs = a :: rest := by
  cases h with
  | stop hs => exact absurd hs (hx a ha)
  | link _ _ => exact ⟨_, rfl⟩

theorem Linked.unique {ds : List α} (h : Linked next inside stop a cs)
    (h' : Linked next inside stop a ds) : cs = ds := by
  induction h generalizing ds with
  | stop hs =>
    cases h' with
    | stop _ => rfl
    | link hin _ => exact absurd hs (hx _ hin)
  | link hin _ ih =>
    cases h' with
    | stop hs => exact absurd hs (hx _ hin)
    | link _ htail' => rw [ih htail']

theorem Linked.nodup (h : Linked next inside stop a cs) : cs.Nodup := by
  induction h with
  | stop _ => simp
  | @link a cs hin htail ih =>
    refine List.nodup_cons.mpr ⟨fun hmem => ?_, ih⟩
    obtain ⟨ds, hds, hle⟩ := htail.from_mem hmem
    have heq := (Linked.link hin htail).unique hx hds
    rw [← heq, List.length_cons] at hle
    omega

end Exclusive

theorem Linked.follow_eq {go : α → Bool} (h : Linked next inside stop a cs)
    (hin : ∀ b, inside b → go b = true) (hstop : ∀ b, stop b → go b = false) {fuel : Nat}
    (hfuel : cs.length ≤ fuel) : follow next go fuel a = cs := by
  induction h generalizing fuel with
  | stop hs => cases fuel <;> simp [follow, hstop _ hs]
  | link ha _ ih =>
    rw [List.length_cons] at hfuel
    obtain ⟨n, rfl⟩ : ∃ n, fuel = n + 1 := ⟨fuel - 1, by omega⟩
    rw [follow, if_pos (hin _ ha), ih (by omega)]

end Laws

end Willo.LinkedChain
