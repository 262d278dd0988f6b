import Mathlib.Data.List.Infix
import Mathlib.Logic.Function.Basic

/-! The abstract tree store: what a writable file system is for. A store says
for every path (a list of names) whether it is a file, with its content, or a
directory, or absent. Five mutations are allowed under conditions on the store
and then change one path. Names and content symbols are arbitrary types; the
conditions are propositions, since emptiness of a directory quantifies over
all names. -/

namespace Willo.TreeStore

inductive Entry (β : Type) where
  | file (data : List β)
  | dir

inductive Mutation (β : Type) where
  | createFile
  | writeFile (data : List β)
  | appendFile (data : List β)
  | createDir
  | remove

variable {ν β : Type}

abbrev Store (ν β : Type) := List ν → Option (Entry β)

def target : Mutation β → Option (Entry β) → Option (Entry β)
  | .createFile, _ => some (.file [])
  | .writeFile data, _ => some (.file data)
  | .appendFile data, some (.file old) => some (.file (old ++ data))
  | .appendFile data, _ => some (.file data)
  | .createDir, _ => some .dir
  | .remove, _ => none

/-- The condition at the path itself, beyond its parent being a directory. -/
def Fits (s : Store ν β) (p : List ν) : Mutation β → Prop
  | .createFile | .writeFile _ | .appendFile _ => s p ≠ some .dir
  | .createDir => s p = none
  | .remove => s p ≠ none ∧ (s p = some .dir → ∀ n, s (p ++ [n]) = none)

def Allowed (s : Store ν β) (op : Mutation β) (p : List ν) : Prop :=
  p ≠ [] ∧ s p.dropLast = some .dir ∧ Fits s p op

def put [DecidableEq ν] (s : Store ν β) (p : List ν) (e : Option (Entry β)) : Store ν β :=
  Function.update s p e

def after [DecidableEq ν] (s : Store ν β) (op : Mutation β) (p : List ν) : Store ν β :=
  put s p (target op (s p))

section Laws

variable [DecidableEq ν] {s : Store ν β} {op : Mutation β} {p q : List ν}

@[simp] theorem put_self (s : Store ν β) (p : List ν) (e : Option (Entry β)) :
    put s p e p = e := by
  simp [put]

theorem put_of_ne (s : Store ν β) (e : Option (Entry β)) (h : q ≠ p) : put s p e q = s q := by
  simp [put, h]

theorem after_of_ne (s : Store ν β) (op : Mutation β) (h : q ≠ p) : after s op p q = s q :=
  put_of_ne s _ h

end Laws

/-! Stores that take names up to a folding. -/

/-- `s` is what remains of `t` when only names that `f` fixes are admitted, and `t` takes
names up to `f`. -/
structure Restricts (f : ν → ν) (s t : Store ν β) : Prop where
  idem : ∀ n, f (f n) = f n
  fixed : ∀ p, p.map f = p → s p = t p
  only : ∀ p, s p ≠ none → p.map f = p
  folds : ∀ p, t (p.map f) = t p

section Folding

variable {f : ν → ν} {s t : Store ν β} {op : Mutation β} {p q : List ν}

theorem Restricts.fits_iff (R : Restricts f s t) (hp : p.map f = p) :
    Fits s p op ↔ Fits t p op := by
  have hkids : (∀ n, s (p ++ [n]) = none) ↔ ∀ n, t (p ++ [n]) = none := by
    constructor
    · intro h n
      have hfix : (p ++ [f n]).map f = p ++ [f n] := by simp [hp, R.idem]
      rw [← R.folds, List.map_append, hp, List.map_singleton, ← R.fixed _ hfix]
      exact h (f n)
    · intro h n
      by_contra hne
      have hfix := R.only _ hne
      rw [R.fixed _ hfix] at hne
      exact hne (h n)
  cases op with
  | remove => simp only [Fits, R.fixed p hp, hkids]
  | _ => simp only [Fits, R.fixed p hp]

theorem Restricts.allowed_iff (R : Restricts f s t) (hp : p.map f = p) :
    Allowed s op p ↔ Allowed t op p := by
  have hparent : p.dropLast.map f = p.dropLast := by rw [List.map_dropLast, hp]
  rw [Allowed, Allowed, R.fixed _ hparent, R.fits_iff hp]

theorem Restricts.after [DecidableEq ν] (R : Restricts f s t) (hp : p.map f = p) {t' : Store ν β}
    (ht : ∀ q, t' q = if q.map f = p then target op (t p) else t q) :
    Restricts f (after s op p) t' where
  idem := R.idem
  fixed q hq := by
    rw [ht, hq]
    by_cases heq : q = p
    · rw [if_pos heq, heq, TreeStore.after, put_self, R.fixed p hp]
    · rw [if_neg heq, after_of_ne s op heq, R.fixed q hq]
  only q hq := by
    by_cases heq : q = p
    · rw [heq, hp]
    · rw [after_of_ne s op heq] at hq
      exact R.only q hq
  folds q := by
    have hmap : (q.map f).map f = q.map f := by
      rw [List.map_map]
      exact List.map_congr_left fun n _ => R.idem n
    rw [ht, ht, hmap, R.folds]

end Folding

/-! The size of files over a run. -/

def Mutation.length : Mutation β → Nat
  | .writeFile data | .appendFile data => data.length
  | .createFile | .createDir | .remove => 0

def Mutation.added : Mutation β → List β
  | .appendFile data => data
  | .createFile | .writeFile _ | .createDir | .remove => []

def Bounded (s : Store ν β) (n : Nat) : Prop := ∀ p data, s p = some (.file data) → data.length ≤ n

theorem Bounded.target {s : Store ν β} {n : Nat} (h : Bounded s n) {op : Mutation β} {p : List ν}
    {data : List β} (ht : target op (s p) = some (.file data)) : data.length ≤ n + op.length := by
  cases op with
  | createFile =>
    cases ht
    simp
  | writeFile new =>
    cases ht
    simp [Mutation.length]
  | appendFile new =>
    cases hp : s p with
    | none =>
      rw [hp] at ht
      cases ht
      simp [Mutation.length]
    | some e =>
      rw [hp] at ht
      cases e with
      | dir =>
        cases ht
        simp [Mutation.length]
      | file old =>
        cases ht
        have := h p old hp
        simp only [List.length_append, Mutation.length]
        omega
  | createDir => cases ht
  | remove => cases ht

end Willo.TreeStore
