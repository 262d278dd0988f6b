import Willo.TreeStore

/-! The tree store as a machine. A call names a path and a mutation; it is carried out,
refused, or starved, and then the path is cleared. Names count up to a folding `f`: a
call reaches its path in every spelling. A system refines the machine when each of its
steps does, and what holds of all runs of the machine then holds of the system's. -/

namespace Willo.TreeStore

variable {ν β σ : Type} [DecidableEq ν]

def overwrite (f : ν → ν) (s : Store ν β) (p : List ν) (e : Option (Entry β)) : Store ν β :=
  fun q => if q.map f = p.map f then e else s q

/-- How a call on a store can end, and whether it reports success. -/
inductive Outcome (f : ν → ν) (s : Store ν β) (p : List ν) (op : Mutation β) :
    Bool → Store ν β → Prop
  | done : Allowed s op p → Outcome f s p op true (overwrite f s p (target op (s p)))
  | refused : ¬ Allowed s op p → Outcome f s p op false s
  | starved : Allowed s op p → op ≠ .remove → Outcome f s p op false (overwrite f s p none)

inductive History (f : ν → ν) : Store ν β → List (List ν × Mutation β) → List Bool →
  Store ν β → Prop
  | nil {s : Store ν β} : History f s [] [] s
  | cons {s s₁ s' : Store ν β} {p : List ν} {op : Mutation β} {ok : Bool}
      {calls : List (List ν × Mutation β)} {oks : List Bool} :
      Outcome f s p op ok s₁ → History f s₁ calls oks s' →
        History f s ((p, op) :: calls) (ok :: oks) s'

section Overwriting

variable {f : ν → ν} {s : Store ν β} {p q : List ν} {e : Option (Entry β)}

theorem overwrite_of_ne (h : q.map f ≠ p.map f) : overwrite f s p e q = s q := if_neg h

@[simp] theorem overwrite_self : overwrite f s p e p = e := if_pos rfl

end Overwriting

section Frames

variable {f : ν → ν} {s s' : Store ν β} {p q : List ν} {op : Mutation β} {ok : Bool}
  {calls : List (List ν × Mutation β)} {oks : List Bool}

theorem Outcome.frame (h : Outcome f s p op ok s') (hq : q.map f ≠ p.map f) : s' q = s q := by
  cases h with
  | done _ => exact overwrite_of_ne hq
  | refused _ => rfl
  | starved _ _ => exact overwrite_of_ne hq

theorem Outcome.of_ok (h : Outcome f s p op true s') : s' p = target op (s p) := by
  cases h with
  | done _ => exact overwrite_self

/-- A path that no call of the run names keeps what it holds. -/
theorem History.frame (h : History f s calls oks s') (hq : ∀ c ∈ calls, q.map f ≠ c.1.map f) :
    s' q = s q := by
  induction h with
  | nil => rfl
  | cons hstep _ ih =>
    rw [ih fun c hc => hq c (List.mem_cons_of_mem _ hc), hstep.frame (hq _ List.mem_cons_self)]

end Frames

/-! Files that only grow. -/

def Folds (f : ν → ν) (s : Store ν β) : Prop := ∀ p q, p.map f = q.map f → s p = s q

def appended (f : ν → ν) (p : List ν) (calls : List (List ν × Mutation β)) : List β :=
  (calls.map fun c => if c.1.map f = p.map f then c.2.added else []).flatten

/-- A call that, if it reaches the path, appends to it and succeeds. -/
def Appends (f : ν → ν) (p : List ν) (c : (List ν × Mutation β) × Bool) : Prop :=
  c.1.1.map f = p.map f → (∃ data, c.1.2 = .appendFile data) ∧ c.2 = true

section Growing

variable {f : ν → ν} {s s' : Store ν β} {p q : List ν} {e : Option (Entry β)}
    {op : Mutation β} {ok : Bool}
  {calls : List (List ν × Mutation β)} {oks : List Bool} {old : List β}

theorem Folds.overwrite (h : Folds f s) : Folds f (overwrite f s p e) := by
  intro q r hqr
  unfold TreeStore.overwrite
  rw [hqr, h q r hqr]

theorem Outcome.folds (h : Outcome f s p op ok s') (hs : Folds f s) : Folds f s' := by
  cases h with
  | done _ => exact hs.overwrite
  | refused _ => exact hs
  | starved _ _ => exact hs.overwrite

theorem Outcome.appended (h : Outcome f s q op ok s') (hs : Folds f s)
    (hold : s p = some (.file old)) (hc : Appends f p ((q, op), ok)) :
    s' p = some (.file (old ++ if q.map f = p.map f then op.added else [])) := by
  by_cases hq : q.map f = p.map f
  · obtain ⟨⟨data, hop⟩, hok⟩ := hc hq
    dsimp only at hop hok
    subst hop hok
    rw [h.folds hs p q hq.symm, h.of_ok, hs q p hq, hold, if_pos hq]
    rfl
  · rw [h.frame (Ne.symm hq), hold, if_neg hq, List.append_nil]

/-- When all calls that reach a file append to it and succeed, the file grows by their data in
order, whatever the other calls do and report. -/
theorem History.appended (h : History f s calls oks s') (hs : Folds f s)
    (hold : s p = some (.file old)) (hcalls : ∀ c ∈ calls.zip oks, Appends f p c) :
    s' p = some (.file (old ++ appended f p calls)) := by
  induction h generalizing old with
  | nil => rw [hold, TreeStore.appended, List.map_nil, List.flatten_nil, List.append_nil]
  | cons hstep _ ih =>
    rw [List.zip_cons_cons, List.forall_mem_cons] at hcalls
    rw [ih (hstep.folds hs) (hstep.appended hs hold hcalls.1) hcalls.2, TreeStore.appended,
      TreeStore.appended, List.map_cons, List.flatten_cons, List.append_assoc]

end Growing

end Willo.TreeStore
