import Mathlib.Data.List.Basic

/-! A linearizable bounded FIFO queue: `push` fails when the queue holds
`capacity` elements, `pop` takes the oldest. `offer` is a push whose result the
caller throws away. -/

namespace Willo.BoundedQueue

variable {α : Type}

def push (capacity : Nat) (q : List α) (x : α) : Option (List α) :=
  if q.length < capacity then some (q ++ [x]) else none

def pop : List α → Option (α × List α)
  | [] => none
  | x :: q => some (x, q)

/-- Push and ignore the result. -/
def offer (capacity : Nat) (q : List α) (x : α) : List α := (push capacity q x).getD q

variable {capacity : Nat} {q : List α}

theorem offer_of_lt (h : q.length < capacity) (x : α) : offer capacity q x = q ++ [x] := by
  simp [offer, push, h]

theorem offer_of_full (h : ¬ q.length < capacity) (x : α) : offer capacity q x = q := by
  simp [offer, push, h]

theorem mem_offer_of_mem {y : α} (h : y ∈ q) (x : α) : y ∈ offer capacity q x := by
  by_cases room : q.length < capacity
  · rw [offer_of_lt room]
    exact List.mem_append_left _ h
  · rwa [offer_of_full room]

theorem mem_offer_self {x : α} (h : x ∈ q ∨ q.length < capacity) : x ∈ offer capacity q x := by
  rcases h with h | room
  · exact mem_offer_of_mem h x
  · rw [offer_of_lt room]
    simp

theorem mem_of_mem_offer {x y : α} (h : y ∈ offer capacity q x) : y = x ∨ y ∈ q := by
  by_cases room : q.length < capacity
  · rw [offer_of_lt room] at h
    simpa [or_comm] using h
  · rw [offer_of_full room] at h
    exact Or.inr h

theorem length_offer_le (h : q.length ≤ capacity) (x : α) :
    (offer capacity q x).length ≤ capacity := by
  by_cases room : q.length < capacity
  · rw [offer_of_lt room, List.length_append, List.length_singleton]
    exact room
  · rwa [offer_of_full room]

theorem idxOf_offer [DecidableEq α] {y : α} (h : y ∈ q) (x : α) :
    (offer capacity q x).idxOf y = q.idxOf y := by
  by_cases room : q.length < capacity
  · rw [offer_of_lt room, List.idxOf_append_of_mem h]
  · rw [offer_of_full room]

theorem offer_ne_nil (h : 0 < capacity) (q : List α) (x : α) : offer capacity q x ≠ [] := by
  by_cases room : q.length < capacity
  · rw [offer_of_lt room]
    simp
  · rw [offer_of_full room]
    rintro rfl
    exact room h

end Willo.BoundedQueue
