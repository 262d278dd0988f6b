import Mathlib.Tactic.Common

/-! Computations that change a state and may stop with a fault, where the changes
made before the fault stay: `ExceptT ε (StateM σ)`. `exec` runs one from a
state; the rules below run a sequence one command at a time. -/

namespace Willo.FaultState

variable {ε σ α β : Type}

def exec (x : ExceptT ε (StateM σ) α) (s : σ) : Except ε α × σ := (ExceptT.run x).run s

@[simp] theorem exec_pure (a : α) (s : σ) :
    exec (pure a : ExceptT ε (StateM σ) α) s = (.ok a, s) := rfl

@[simp] theorem exec_throw (e : ε) (s : σ) :
    exec (throw e : ExceptT ε (StateM σ) α) s = (.error e, s) := rfl

theorem exec_bind (x : ExceptT ε (StateM σ) α) (f : α → ExceptT ε (StateM σ) β) (s : σ) :
    exec (x >>= f) s =
      match exec x s with
      | (.ok a, s') => exec (f a) s'
      | (.error e, s') => (.error e, s') := by
  change (ExceptT.bindCont f (exec x s).1 : StateM σ _) (exec x s).2 = _
  rcases exec x s with ⟨_ | _, _⟩ <;> rfl

theorem exec_bind_ok {x : ExceptT ε (StateM σ) α} {f : α → ExceptT ε (StateM σ) β} {s s' : σ}
    {a : α} (h : exec x s = (.ok a, s')) : exec (x >>= f) s = exec (f a) s' := by
  rw [exec_bind, h]

theorem exec_bind_error {x : ExceptT ε (StateM σ) α} {f : α → ExceptT ε (StateM σ) β} {s s' : σ}
    {e : ε} (h : exec x s = (.error e, s')) : exec (x >>= f) s = (.error e, s') := by
  rw [exec_bind, h]

theorem exec_get_bind (f : σ → ExceptT ε (StateM σ) α) (s : σ) :
    exec (get >>= f) s = exec (f s) s := rfl

/-! Postconditions. -/

/-- A run from `s` that returns a value leaves it with `Q` and the state with `I`; when `T`
holds, every run returns. -/
def Meets (T : Prop) (I : σ → Prop) (x : ExceptT ε (StateM σ) α) (s : σ) (Q : α → Prop) : Prop :=
  match exec x s with
  | (.ok a, s') => I s' ∧ Q a
  | (.error _, _) => ¬T

section Meets

variable {T : Prop} {I : σ → Prop} {s : σ} {Q : α → Prop} {x y : ExceptT ε (StateM σ) α}

theorem Meets.pure {a : α} (hI : I s) (hQ : Q a) :
    Meets T I (pure a : ExceptT ε (StateM σ) α) s Q :=
  ⟨hI, hQ⟩

theorem Meets.throw (e : ε) (h : ¬T) : Meets T I (throw e : ExceptT ε (StateM σ) α) s Q := h

theorem Meets.bind {f : α → ExceptT ε (StateM σ) β} {R : β → Prop} (hx : Meets T I x s Q)
    (hf : ∀ a s', I s' → Q a → Meets T I (f a) s' R) : Meets T I (x >>= f) s R := by
  unfold Meets at hx ⊢
  rw [exec_bind]
  rcases hrun : exec x s with ⟨e | a, s'⟩
  · rw [hrun] at hx
    exact hx
  · rw [hrun] at hx
    exact hf a s' hx.1 hx.2

theorem Meets.weaken {R : α → Prop} (hx : Meets T I x s Q) (h : ∀ a, Q a → R a) :
    Meets T I x s R := by
  unfold Meets at hx ⊢
  rcases hrun : exec x s with ⟨e | a, s'⟩
  · rw [hrun] at hx
    exact hx
  · rw [hrun] at hx
    exact ⟨hx.1, h a hx.2⟩

theorem Meets.ite {c : Prop} [Decidable c] (hx : c → Meets T I x s Q) (hy : ¬c → Meets T I y s Q) :
    Meets T I (if c then x else y) s Q := by
  split_ifs with h
  · exact hx h
  · exact hy h

theorem Meets.get_bind {f : σ → ExceptT ε (StateM σ) α} (h : Meets T I (f s) s Q) :
    Meets T I (get >>= f) s Q :=
  h

theorem Meets.modify_bind {g : σ → σ} (h : Meets T I x (g s) Q) :
    Meets T I (do modify g; x) s Q :=
  h

theorem Meets.returns (hx : Meets T I x s Q) (h : T) :
    ∃ a s', exec x s = (.ok a, s') ∧ I s' ∧ Q a := by
  unfold Meets at hx
  rcases hrun : exec x s with ⟨e | a, s'⟩
  · rw [hrun] at hx
    exact absurd h hx
  · rw [hrun] at hx
    exact ⟨a, s', rfl, hx⟩

theorem Meets.of_eq (hx : Meets T I x s Q) {a : α} {s' : σ} (h : exec x s = (.ok a, s')) :
    I s' ∧ Q a := by
  unfold Meets at hx
  rwa [h] at hx

end Meets

/-- A run from `s` that returns a value leaves it and the state with `Q`; one that stops
leaves its fault and the state with `E`. -/
def Leaves (E : ε → σ → Prop) (x : ExceptT ε (StateM σ) α) (s : σ) (Q : α → σ → Prop) : Prop :=
  match exec x s with
  | (.ok a, s') => Q a s'
  | (.error e, s') => E e s'

section Leaves

variable {E : ε → σ → Prop} {s : σ} {Q : α → σ → Prop} {x y : ExceptT ε (StateM σ) α}

theorem Leaves.pure {a : α} (h : Q a s) : Leaves E (pure a : ExceptT ε (StateM σ) α) s Q := h

theorem Leaves.throw {e : ε} (h : E e s) : Leaves E (throw e : ExceptT ε (StateM σ) α) s Q := h

theorem Leaves.bind {f : α → ExceptT ε (StateM σ) β} {R : β → σ → Prop} (hx : Leaves E x s Q)
    (hf : ∀ a s', Q a s' → Leaves E (f a) s' R) : Leaves E (x >>= f) s R := by
  unfold Leaves at hx ⊢
  rw [exec_bind]
  rcases hrun : exec x s with ⟨e | a, s'⟩
  · rw [hrun] at hx
    exact hx
  · rw [hrun] at hx
    exact hf a s' hx

theorem Leaves.ok_bind {f : α → ExceptT ε (StateM σ) β} {R : β → σ → Prop} {a : α} {s' : σ}
    (hx : exec x s = (.ok a, s')) (hf : Leaves E (f a) s' R) : Leaves E (x >>= f) s R := by
  unfold Leaves at hf ⊢
  rwa [exec_bind_ok hx]

theorem Leaves.weaken {F : ε → σ → Prop} {R : α → σ → Prop} (hx : Leaves E x s Q)
    (he : ∀ e s', E e s' → F e s') (h : ∀ a s', Q a s' → R a s') : Leaves F x s R := by
  unfold Leaves at hx ⊢
  rcases hrun : exec x s with ⟨e | a, s'⟩
  · rw [hrun] at hx
    exact he e s' hx
  · rw [hrun] at hx
    exact h a s' hx

theorem Leaves.ite {c : Prop} [Decidable c] (hx : c → Leaves E x s Q) (hy : ¬c → Leaves E y s Q) :
    Leaves E (if c then x else y) s Q := by
  split_ifs with h
  · exact hx h
  · exact hy h

theorem Leaves.of_exec (hok : ∀ a s', exec x s = (.ok a, s') → Q a s')
    (herr : ∀ e s', exec x s = (.error e, s') → E e s') : Leaves E x s Q := by
  unfold Leaves
  rcases hrun : exec x s with ⟨e | a, s'⟩
  · exact herr e s' hrun
  · exact hok a s' hrun

theorem Leaves.of_run {a : α} {s' : σ} (h : exec x s = (.ok a, s')) (hQ : Q a s') :
    Leaves E x s Q := by
  unfold Leaves
  rwa [h]

theorem Leaves.of_ok (hx : Leaves E x s Q) {a : α} {s' : σ}
    (h : exec x s = (.ok a, s')) : Q a s' := by
  unfold Leaves at hx
  rwa [h] at hx

theorem Leaves.state {P : σ → Prop} (hx : Leaves (fun _ => P) x s fun _ => P) : P (exec x s).2 := by
  unfold Leaves at hx
  rcases hrun : exec x s with ⟨e | a, s'⟩ <;> rw [hrun] at hx <;> exact hx

theorem Leaves.of_error (hx : Leaves E x s Q) {e : ε} {s' : σ}
    (h : exec x s = (.error e, s')) : E e s' := by
  unfold Leaves at hx
  rwa [h] at hx

end Leaves

/-! Computations that leave the state as it is. -/

def Reads (x : ExceptT ε (StateM σ) α) : Prop := ∀ s, (exec x s).2 = s

section Reads

theorem Reads.pure (a : α) : Reads (pure a : ExceptT ε (StateM σ) α) := fun _ => rfl

theorem Reads.throw (e : ε) : Reads (throw e : ExceptT ε (StateM σ) α) := fun _ => rfl

theorem Reads.bind {x : ExceptT ε (StateM σ) α} {f : α → ExceptT ε (StateM σ) β} (hx : Reads x)
    (hf : ∀ a, Reads (f a)) : Reads (x >>= f) := by
  intro s
  have hs := hx s
  rw [exec_bind]
  rcases hrun : exec x s with ⟨e | a, s'⟩
  · rw [hrun] at hs
    exact hs
  · rw [hrun] at hs
    exact (hf a s').trans hs

theorem Reads.ite {c : Prop} [Decidable c] {x y : ExceptT ε (StateM σ) α} (hx : Reads x)
    (hy : Reads y) :
    Reads (if c then x else y) := by
  split_ifs
  · exact hx
  · exact hy

theorem Reads.of_exec {x : ExceptT ε (StateM σ) α} (hx : Reads x) {s s' : σ} {r : Except ε α}
    (h : exec x s = (r, s')) : s' = s := by
  have hs := hx s
  rwa [h] at hs

theorem Reads.exec_ok {x : ExceptT ε (StateM σ) α} (hx : Reads x) {s : σ} {a : α}
    (h : (exec x s).1 = .ok a) :
    exec x s = (.ok a, s) :=
  Prod.ext h (hx s)

theorem Leaves.reads_bind {E : ε → σ → Prop} {x : ExceptT ε (StateM σ) α}
    {f : α → ExceptT ε (StateM σ) β} {s : σ}
    {R : β → σ → Prop} (hx : Reads x) (he : ∀ e, exec x s = (.error e, s) → E e s)
    (hf : ∀ a, exec x s = (.ok a, s) → Leaves E (f a) s R) : Leaves E (x >>= f) s R := by
  have hs := hx s
  unfold Leaves
  rw [exec_bind]
  rcases hrun : exec x s with ⟨e | a, s'⟩
  · obtain rfl : s' = s := hx.of_exec hrun
    exact he e hrun
  · obtain rfl : s' = s := hx.of_exec hrun
    exact hf a hrun

end Reads

/-! Changes of the state that a computation does not notice. -/

/-- After the change `g` of the start the result is the same, and `g` is what the final states
differ by. -/
def Commutes (g : σ → σ) (x : ExceptT ε (StateM σ) α) : Prop :=
  ∀ s, exec x (g s) = ((exec x s).1, g (exec x s).2)

section Commutes

variable {g : σ → σ}

theorem Commutes.pure (a : α) : Commutes g (pure a : ExceptT ε (StateM σ) α) := fun _ => rfl

theorem Commutes.throw (e : ε) : Commutes g (throw e : ExceptT ε (StateM σ) α) := fun _ => rfl

theorem Commutes.bind {x : ExceptT ε (StateM σ) α} {f : α → ExceptT ε (StateM σ) β}
    (hx : Commutes g x) (hf : ∀ a, Commutes g (f a)) : Commutes g (x >>= f) := by
  intro s
  rw [exec_bind, exec_bind, hx s]
  rcases exec x s with ⟨e | a, s'⟩
  · rfl
  · exact hf a s'

theorem Commutes.ite {c : Prop} [Decidable c] {x y : ExceptT ε (StateM σ) α} (hx : Commutes g x)
    (hy : Commutes g y) :
    Commutes g (if c then x else y) := by
  split_ifs
  · exact hx
  · exact hy

theorem Commutes.get_bind {f : σ → ExceptT ε (StateM σ) α} (hf : ∀ s, f (g s) = f s)
    (h : ∀ s, Commutes g (f s)) :
    Commutes g (get >>= f) := by
  intro s
  rw [exec_get_bind, exec_get_bind, hf s]
  exact h s s

theorem Commutes.modify {f : σ → σ} (h : ∀ s, f (g s) = g (f s)) :
    Commutes g (modify f : ExceptT ε (StateM σ) Unit) := by
  intro s
  change (Except.ok (), f (g s)) = (Except.ok (), g (f s))
  rw [h]

end Commutes

end Willo.FaultState
