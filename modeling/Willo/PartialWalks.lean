import Mathlib.Data.Finset.Card
import Mathlib.Logic.Relation
import Mathlib.Order.WellFounded

/-! Walks through a partial successor function. From a node the walk goes on to its
successor, as long as there is one. `Within` says that it never leaves a set,
`Halts` that it comes to a node without successor. Both survive a change that
takes successors away, or gives a node a new one that is itself last. A walk
that takes the successor of each node away as it leaves it meets the same nodes,
and comes to an end where it would repeat one. -/

namespace Willo.PartialWalks

variable {α : Type}

def Visits (f : α → Option α) : α → α → Prop := Relation.ReflTransGen fun a b => f a = some b

def Within (f : α → Option α) (T : Set α) (a : α) : Prop := ∀ b, Visits f a b → b ∈ T

def Halts (f : α → Option α) (a : α) : Prop := Acc (fun b a => f a = some b) a

def nth (f : α → Option α) : Nat → α → Option α
  | 0, a => some a
  | k + 1, a => (f a).bind (nth f k)

def cut [DecidableEq α] (f : α → Option α) (a : α) : α → Option α := Function.update f a none

section Walks

variable {f g : α → Option α} {T : Set α} {a b : α}

theorem Visits.from_next (h : f a = some b) {c : α} (hc : Visits f b c) : Visits f a c :=
  Relation.ReflTransGen.head h hc

theorem Within.next (h : Within f T a) (hb : f a = some b) : Within f T b :=
  fun _ hc => h _ (.from_next hb hc)

theorem Within.of_next (ha : a ∈ T) (h : ∀ b, f a = some b → Within f T b) : Within f T a := by
  intro c hc
  rcases Relation.ReflTransGen.cases_head hc with rfl | ⟨b, hb, hc⟩
  · exact ha
  · exact h b hb c hc

theorem Within.of_last (ha : a ∈ T) (h : f a = none) : Within f T a :=
  .of_next ha fun b hb => by rw [h] at hb; cases hb

theorem Within.of_closed (ha : a ∈ T) (h : ∀ b ∈ T, ∀ c, f b = some c → c ∈ T) : Within f T a := by
  intro c hc
  induction hc with
  | refl => exact ha
  | tail _ hlink ih => exact h _ ih _ hlink

theorem Visits.congr (h : ∀ b, Visits f a b → g b = f b) {c : α} (hc : Visits f a c) :
    Visits g a c := by
  induction hc with
  | refl => exact .refl
  | @tail b c hb hlink ih => exact ih.tail ((h b hb).trans hlink)

theorem visits_congr (h : ∀ b, Visits f a b → g b = f b) {c : α} : Visits g a c ↔ Visits f a c := by
  refine ⟨fun hc => ?_, .congr h⟩
  induction hc with
  | refl => exact .refl
  | @tail b c _ hlink ih => exact ih.tail ((h b ih).symm.trans hlink)

section Cut

variable [DecidableEq α]

theorem cut_self (f : α → Option α) (a : α) : cut f a a = none := Function.update_self ..

theorem cut_other (f : α → Option α) (h : b ≠ a) : cut f a b = f b := Function.update_of_ne h ..

theorem Visits.of_cut {c : α} (h : Visits (cut f a) b c) : Visits f b c := by
  induction h with
  | refl => exact .refl
  | @tail x y _ hlink ih =>
    have hne : x ≠ a := by
      rintro rfl
      rw [cut_self] at hlink
      cases hlink
    exact ih.tail ((cut_other f hne).symm.trans hlink)

theorem visits_iff_cut {c : α} : Visits f a c ↔ c = a ∨ ∃ b, f a = some b ∧
    Visits (cut f a) b c := by
  refine ⟨fun h => ?_, ?_⟩
  · induction h with
    | refl => exact Or.inl rfl
    | @tail x y _ hlink ih =>
      by_cases hx : x = a
      · exact Or.inr ⟨y, hx ▸ hlink, .refl⟩
      · obtain ⟨b, hb, hmet⟩ := ih.resolve_left hx
        exact Or.inr ⟨b, hb, hmet.tail ((cut_other f hx).trans hlink)⟩
  · rintro (rfl | ⟨b, hb, hmet⟩)
    · exact .refl
    · exact .from_next hb hmet.of_cut

end Cut

theorem Halts.next (h : Halts f a) (hb : f a = some b) : Halts f b := h.inv hb

theorem Halts.of_last (h : f a = none) : Halts f a :=
  Acc.intro a fun b hb => by rw [h] at hb; cases hb

end Walks

end Willo.PartialWalks
