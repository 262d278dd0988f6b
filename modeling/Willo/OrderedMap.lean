import Mathlib.Data.List.Basic

/-! Finite maps as key-sorted association lists, the observable behaviour of a
B-tree map: lookup, replacing insertion at the sorted place, overwriting the
value of a present key in place, removal, and the ascending key sequence.
The lookup laws need no sortedness; only identity of an overwrite does. -/

namespace Willo.OrderedMap

variable {κ ν : Type} [DecidableEq κ]

def keys (m : List (κ × ν)) : List κ := m.map Prod.fst

def lookup (k : κ) : List (κ × ν) → Option ν
  | [] => none
  | e :: m => if k = e.1 then some e.2 else lookup k m

def insert [LT κ] [DecidableLT κ] (k : κ) (v : ν) : List (κ × ν) → List (κ × ν)
  | [] => [(k, v)]
  | e :: m =>
    if k = e.1 then (k, v) :: m
    else if k < e.1 then (k, v) :: e :: m
    else e :: insert k v m

def put (k : κ) (v : ν) (m : List (κ × ν)) : List (κ × ν) :=
  m.map fun e => if e.1 = k then (e.1, v) else e

def remove (k : κ) (m : List (κ × ν)) : List (κ × ν) := m.filter fun e => e.1 ≠ k

def Sorted [LT κ] (m : List (κ × ν)) : Prop := (keys m).Pairwise (· < ·)

@[simp] theorem lookup_nil (k : κ) : lookup k ([] : List (κ × ν)) = none := rfl

theorem lookup_cons (k : κ) (e : κ × ν) (m : List (κ × ν)) :
    lookup k (e :: m) = if k = e.1 then some e.2 else lookup k m := rfl

theorem lookup_insert [LT κ] [DecidableLT κ] (k k' : κ) (v : ν) (m : List (κ × ν)) :
    lookup k' (insert k v m) = if k' = k then some v else lookup k' m := by
  induction m with
  | nil => simp [insert, lookup_cons]
  | cons e m ih =>
    by_cases hk : k' = k
    · subst hk
      rw [if_pos rfl] at ih ⊢
      unfold insert
      split_ifs with he hlt
      · rw [lookup_cons, if_pos rfl]
      · rw [lookup_cons, if_pos rfl]
      · rw [lookup_cons, if_neg he, ih]
    · rw [if_neg hk] at ih ⊢
      unfold insert
      split_ifs with he hlt
      · rw [lookup_cons, lookup_cons, if_neg hk, if_neg (he ▸ hk)]
      · rw [lookup_cons, if_neg hk]
      · rw [lookup_cons, lookup_cons, ih]

theorem lookup_put (k k' : κ) (v : ν) (m : List (κ × ν)) :
    lookup k' (put k v m) = if k' = k then (lookup k m).map (fun _ => v) else lookup k' m := by
  induction m with
  | nil => simp [put]
  | cons e m ih =>
    simp only [put, List.map_cons] at ih ⊢
    by_cases he : e.1 = k
    · rw [if_pos he, lookup_cons, lookup_cons, lookup_cons, ih]
      by_cases hk : k' = k <;> simp [hk, he]
    · rw [if_neg he, lookup_cons, lookup_cons, lookup_cons, ih]
      by_cases hk : k' = k
      · simp [hk, Ne.symm he]
      · simp [hk]

theorem lookup_remove (k k' : κ) (m : List (κ × ν)) :
    lookup k' (remove k m) = if k' = k then none else lookup k' m := by
  induction m with
  | nil => simp [remove]
  | cons e m ih =>
    simp only [remove, List.filter_cons] at ih ⊢
    by_cases he : e.1 = k
    · rw [if_neg (by simp [he]), ih, lookup_cons]
      by_cases hk : k' = k <;> simp [hk, he]
    · rw [if_pos (by simp [he]), lookup_cons, lookup_cons, ih]
      by_cases hk : k' = k
      · simp [hk, Ne.symm he]
      · simp [hk]

theorem mem_keys_iff (k : κ) (m : List (κ × ν)) : k ∈ keys m ↔ (lookup k m).isSome := by
  induction m with
  | nil => simp [keys]
  | cons e m ih =>
    rw [lookup_cons]
    by_cases h : k = e.1
    · simp [keys, h]
    · rw [if_neg h, ← ih]
      simp [keys, h]

theorem lookup_mem {k : κ} {v : ν} {m : List (κ × ν)} (h : lookup k m = some v) :
    (k, v) ∈ m := by
  induction m with
  | nil => simp at h
  | cons e m ih =>
    rw [lookup_cons] at h
    split_ifs at h with hk
    · rw [Option.some.injEq] at h
      exact List.mem_cons.mpr (Or.inl (by rw [hk, ← h]))
    · exact List.mem_cons_of_mem _ (ih h)

@[simp] theorem keys_put (k : κ) (v : ν) (m : List (κ × ν)) : keys (put k v m) = keys m := by
  simp only [keys, put, List.map_map]
  refine List.map_congr_left fun e _ => ?_
  by_cases h : e.1 = k <;> simp [h]

section Order

variable [LT κ]

theorem put_sorted (k : κ) (v : ν) {m : List (κ × ν)} (h : Sorted m) : Sorted (put k v m) := by
  unfold Sorted
  rw [keys_put]
  exact h

theorem remove_sorted (k : κ) {m : List (κ × ν)} (h : Sorted m) : Sorted (remove k m) :=
  List.Pairwise.sublist (List.filter_sublist.map _) h

theorem mem_keys_insert [DecidableLT κ] (k k' : κ) (v : ν) (m : List (κ × ν)) :
    k' ∈ keys (insert k v m) ↔ k' = k ∨ k' ∈ keys m := by
  rw [mem_keys_iff, mem_keys_iff, lookup_insert]
  by_cases h : k' = k <;> simp [h]

variable [LE κ] [Std.IsLinearOrder κ] [Std.LawfulOrderLT κ]

omit [DecidableEq κ] [Std.IsLinearOrder κ] in
theorem Sorted.nodup {m : List (κ × ν)} (h : Sorted m) : (keys m).Nodup :=
  List.Pairwise.imp (fun hlt => Std.ne_of_lt hlt) h

theorem insert_sorted [DecidableLT κ] (k : κ) (v : ν) {m : List (κ × ν)} (h : Sorted m) :
    Sorted (insert k v m) := by
  induction m with
  | nil => simp [insert, Sorted, keys]
  | cons e m ih =>
    have htail := (List.pairwise_cons.mp h).2
    have hhead := (List.pairwise_cons.mp h).1
    unfold insert
    split_ifs with he hlt
    · refine List.pairwise_cons.mpr ⟨?_, htail⟩
      exact he ▸ hhead
    · refine List.pairwise_cons.mpr ⟨fun x hx => ?_, h⟩
      rcases List.mem_cons.mp hx with rfl | hx
      · exact hlt
      · exact Std.lt_trans hlt (hhead x hx)
    · refine List.pairwise_cons.mpr ⟨fun x hx => ?_, ih htail⟩
      rcases (mem_keys_insert k x v m).mp hx with rfl | hx
      · rcases Std.lt_trichotomy e.1 x with h | h | h
        · exact h
        · exact absurd h.symm he
        · exact absurd h hlt
      · exact hhead x hx

omit [Std.IsLinearOrder κ] in
theorem put_eq_self {k : κ} {v : ν} {m : List (κ × ν)} (h : Sorted m)
    (hv : lookup k m = some v) : put k v m = m := by
  induction m with
  | nil => rfl
  | cons e m ih =>
    rw [lookup_cons] at hv
    have hhead := (List.pairwise_cons.mp h).1
    simp only [put, List.map_cons, List.cons.injEq] at ih ⊢
    split_ifs at hv with hk
    · rw [Option.some.injEq] at hv
      subst hv hk
      refine ⟨by simp, ?_⟩
      conv_rhs => rw [← List.map_id m]
      refine List.map_congr_left fun x hx => ?_
      have hne : x.1 ≠ e.1 := by
        intro heq
        exact Std.lt_irrefl (heq ▸ hhead x.1 (List.mem_map_of_mem hx))
      simp [hne]
    · exact ⟨by simp [Ne.symm hk], ih (List.pairwise_cons.mp h).2 hv⟩

omit [Std.IsLinearOrder κ] in
theorem lookup_eq_none_of_lt {k : κ} {m : List (κ × ν)} (h : ∀ k' ∈ keys m, k < k') :
    lookup k m = none := by
  rw [Option.eq_none_iff_forall_ne_some]
  intro v hv
  exact Std.lt_irrefl (h k (List.mem_map_of_mem (lookup_mem hv)))

theorem Sorted.ext {m m' : List (κ × ν)} (h : Sorted m) (h' : Sorted m')
    (heq : ∀ k, lookup k m = lookup k m') :
    m = m' := by
  induction m generalizing m' with
  | nil =>
    cases m' with
    | nil => rfl
    | cons e m' =>
      have := heq e.1
      simp [lookup_cons] at this
  | cons e m ih =>
    cases m' with
    | nil =>
      have := heq e.1
      simp [lookup_cons] at this
    | cons e' m' =>
      obtain ⟨hhead, htail⟩ := List.pairwise_cons.mp h
      obtain ⟨hhead', htail'⟩ := List.pairwise_cons.mp h'
      -- the least keys agree: each is found in the other map, at its head or behind it
      have hkey : e.1 = e'.1 := by
        by_contra hne
        have hin : e.1 ∈ keys m' := by
          have := heq e.1
          rw [lookup_cons, if_pos rfl, lookup_cons, if_neg hne] at this
          exact List.mem_map_of_mem (lookup_mem this.symm)
        have hin' : e'.1 ∈ keys m := by
          have := heq e'.1
          rw [lookup_cons, if_neg (Ne.symm hne), lookup_cons, if_pos rfl] at this
          exact List.mem_map_of_mem (lookup_mem this)
        exact Std.lt_irrefl (Std.lt_trans (hhead' _ hin) (hhead _ hin'))
      have hval : e.2 = e'.2 := by
        have := heq e.1
        rw [lookup_cons, if_pos rfl, lookup_cons, if_pos hkey] at this
        exact Option.some.inj this
      have hrest : m = m' := by
        refine ih htail htail' fun k => ?_
        by_cases hk : k = e.1
        · rw [hk, lookup_eq_none_of_lt hhead, hkey, lookup_eq_none_of_lt hhead']
        · have := heq k
          rwa [lookup_cons, if_neg hk, lookup_cons, if_neg (hkey ▸ hk)] at this
      rw [hrest, show e = e' from Prod.ext hkey hval]

end Order

end Willo.OrderedMap
