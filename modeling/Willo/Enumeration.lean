import Mathlib.Data.List.Nodup

/-! A supply that gives out the elements of a list, one for each request. It keeps only
the number of the next element and looks the list up again at every request. What has
been given out is a prefix of the list, so nothing is given out twice if the list
repeats nothing, and a request that gets nothing finds the whole list given out. -/

namespace Willo.Enumeration

variable {α β : Type}

/-- What `n` requests get from element number `k` on. -/
def issued (l : List α) (k n : Nat) : List (Option α) := (List.range' k n).map fun i => l[i]?

section Issued

variable {l : List α} {k n : Nat} {before after : List (Option α)}

theorem issued_succ (l : List α) (k n : Nat) :
    issued l k (n + 1) = l[k]? :: issued l (k + 1) n := by
  rw [issued, List.range'_succ, List.map_cons]
  rfl

theorem getElem?_issued {i : Nat} (hi : i < n) : (issued l 0 n)[i]? = some l[i]? := by
  rw [issued, List.getElem?_map, List.getElem?_range' hi, Option.map_some, Nat.zero_add,
    Nat.one_mul]

theorem length_issued (l : List α) (k n : Nat) : (issued l k n).length = n := by
  rw [issued, List.length_map, List.length_range']

theorem mem_of_issued {a : α} (h : some a ∈ issued l k n) : a ∈ l := by
  obtain ⟨i, -, hi⟩ := List.mem_map.mp h
  exact List.mem_of_getElem? hi

theorem filterMap_issued (l : List α) (n : Nat) : (issued l 0 n).filterMap id = l.take n := by
  have hrange : ∀ k, (issued l k n).filterMap id = (l.drop k).take n := by
    induction n with
    | zero => exact fun k => rfl
    | succ n ih =>
      intro k
      rw [issued_succ]
      rcases hk : l[k]? with _ | a
      · have hlen := List.getElem?_eq_none_iff.mp hk
        rw [List.filterMap_cons_none rfl, ih, List.drop_eq_nil_of_le hlen,
          List.drop_eq_nil_of_le (by omega), List.take_nil, List.take_nil]
      · obtain ⟨hlt, heq⟩ := List.getElem?_eq_some_iff.mp hk
        rw [List.filterMap_cons_some (f := id) (b := a) rfl, ih, List.drop_eq_getElem_cons hlt, heq,
          List.take_succ_cons]
  exact hrange 0

theorem nodup_issued (h : l.Nodup) (n : Nat) : ((issued l 0 n).filterMap id).Nodup := by
  rw [filterMap_issued]
  exact h.sublist (List.take_sublist n l)

theorem length_le_of_issued_none (h : issued l 0 n = before ++ none :: after) :
    l.length ≤ before.length := by
  have hn : before.length < n := by
    rw [← length_issued l 0 n, h, List.length_append, List.length_cons]
    omega
  have hnone := getElem?_issued (l := l) hn
  rw [h, List.getElem?_append_right (Nat.le_refl _), Nat.sub_self, List.getElem?_cons_zero] at hnone
  exact List.getElem?_eq_none_iff.mp (Option.some.inj hnone).symm

theorem mem_of_issued_none (h : issued l 0 n = before ++ none :: after) {a : α} (ha : a ∈ l) :
    some a ∈ before := by
  have hle := length_le_of_issued_none h
  obtain ⟨i, hi, rfl⟩ := List.mem_iff_getElem.mp ha
  have hn : before.length < n := by
    rw [← length_issued l 0 n, h, List.length_append, List.length_cons]
    omega
  have hsome := getElem?_issued (l := l) (show i < n by omega)
  rw [h, List.getElem?_append_left (by omega), List.getElem?_eq_getElem hi] at hsome
  exact List.mem_of_getElem? hsome

theorem none_of_issued_none (h : issued l 0 n = before ++ none :: after) {x : Option α}
    (hx : x ∈ after) : x = none := by
  have hle := length_le_of_issued_none h
  obtain ⟨i, hi, rfl⟩ := List.mem_iff_getElem.mp hx
  have hlen := length_issued l 0 n
  rw [h, List.length_append, List.length_cons] at hlen
  have hlater := getElem?_issued (l := l) (show before.length + 1 + i < n by omega)
  rw [h, List.getElem?_append_right (by omega),
    show before.length + 1 + i - before.length = i + 1 by omega, List.getElem?_cons_succ,
    List.getElem?_eq_getElem hi, List.getElem?_eq_none (by omega)] at hlater
  exact Option.some.inj hlater

end Issued

end Willo.Enumeration
