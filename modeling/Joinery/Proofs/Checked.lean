import Joinery.Assembly.InputError
/-!
# Checked computations

What it takes for a computation that can fail to have a value: its parts have
theirs. A run and a solve are taken apart by the first lemmas. The last ones put a
computation together whose parts never fail: going through a list by steps that
answer is going through it.
-/

namespace Joinery

/-- The value of a checked computation that did not fail. -/
theorem bind_eq_ok {ε β γ : Type} {x : Except ε β} {f : β → Except ε γ} {z : γ}
    (h : x >>= f = .ok z) : ∃ y, x = .ok y ∧ f y = .ok z := by
  cases x with
  | error e => cases h
  | ok y => exact ⟨y, rfl, h⟩

/-- A checked computation whose value can be tested did not fail. -/
theorem exists_eq_ok {ε β : Type} {x : Except ε β} {p : β → Bool}
    (h : x.toOption.any p = true) : ∃ y, x = .ok y ∧ p y = true := by
  cases x with
  | error e => cases h
  | ok y => exact ⟨y, rfl, h⟩

theorem unless_eq_ok {β : Type} {rule : Prop} [Decidable rule] {breach : Breach} {x y : β}
    (h : Breach.unless rule breach x = .ok y) : rule ∧ x = y := by
  unfold Breach.unless at h
  split at h
  case isTrue hrule => cases h; exact ⟨hrule, rfl⟩
  case isFalse => cases h

theorem mapError_eq_ok {ε ε' β : Type} {f : ε → ε'} {x : Except ε β} {y : β}
    (h : x.mapError f = .ok y) : x = .ok y := by
  cases x with
  | error e => cases h
  | ok z => cases h; rfl

/-- Going through a list stops at the first entry that is refused. -/
theorem mapM_eq_find? {ε β γ : Type} {f : β → Except ε γ} {p : β → Bool} {g : β → γ} {e : β → ε}
    {l : List β} (h : ∀ x ∈ l, f x = if p x then .ok (g x) else .error (e x)) :
    l.mapM f = match l.find? (fun x => !p x) with
      | some x => .error (e x)
      | none => .ok (l.map g) := by
  induction l with
  | nil => rfl
  | cons x rest ih =>
    obtain ⟨hx, hrest⟩ := List.forall_mem_cons.1 h
    rw [List.mapM_cons, hx, List.find?_cons]
    cases p x with
    | false => rfl
    | true =>
      rw [ih hrest]
      cases rest.find? fun x => !p x <;> rfl

/-! ## Steps that answer -/

section Steps

variable {ε β γ : Type}

@[simp]
theorem ok_bind (x : β) (f : β → Except ε γ) : (Except.ok x >>= f) = f x := rfl

@[simp]
theorem return_eq_ok (x : β) : (pure x : Except ε β) = .ok x := rfl

@[simp]
theorem Failure.ofBreach_ok {α β : Type} (x : β) :
    (ofBreach (.ok x) : Except (Failure α) β) = .ok x := rfl

theorem mapM_eq_ok {f : β → Except ε γ} {g : β → γ} {l : List β}
    (h : ∀ x ∈ l, f x = .ok (g x)) : l.mapM f = .ok (l.map g) := by
  induction l with
  | nil => rfl
  | cons x rest ih =>
    rw [List.forall_mem_cons] at h
    rw [List.mapM_cons, h.1, ok_bind, ih h.2]
    rfl

theorem foldlM_eq_ok {f : γ → β → Except ε γ} {g : γ → β → γ} {l : List β} {y : γ}
    (h : ∀ z, ∀ x ∈ l, f z x = .ok (g z x)) : l.foldlM f y = .ok (l.foldl g y) := by
  induction l generalizing y with
  | nil => rfl
  | cons x rest ih =>
    rw [List.foldlM_cons, h y x List.mem_cons_self, ok_bind, List.foldl_cons]
    exact ih fun z w hw => h z w (List.mem_cons_of_mem _ hw)

/-- Counting up with an invariant that says how far the count is. -/
theorem foldlM_range_eq_ok {f : γ → Nat → Except ε γ} {g : γ → Nat → γ} (P : Nat → γ → Prop)
    {n : Nat} {y : γ} (hy : P 0 y)
    (h : ∀ i < n, ∀ z, P i z → f z i = .ok (g z i) ∧ P (i + 1) (g z i)) :
    (List.range n).foldlM f y = .ok ((List.range n).foldl g y) ∧
      P n ((List.range n).foldl g y) := by
  induction n with
  | zero => exact ⟨rfl, hy⟩
  | succ n ih =>
    obtain ⟨hfold, hP⟩ := ih fun i hi => h i (Nat.lt_succ_of_lt hi)
    obtain ⟨hlast, hP'⟩ := h n (Nat.lt_succ_self n) _ hP
    rw [List.range_succ, List.foldlM_append, hfold, ok_bind, List.foldl_append]
    refine ⟨?_, hP'⟩
    rw [List.foldlM_cons, hlast]
    rfl

/-- Counting down from the end of a stretch, likewise. -/
theorem foldrM_range'_eq_ok {f : Nat → γ → Except ε γ} {g : Nat → γ → γ} (P : Nat → γ → Prop)
    {s n : Nat} {y : γ} (hy : P (s + n) y)
    (h : ∀ i, s ≤ i → i < s + n → ∀ z, P (i + 1) z → f i z = .ok (g i z) ∧ P i (g i z)) :
    (List.range' s n).foldrM f y = .ok ((List.range' s n).foldr g y) ∧
      P s ((List.range' s n).foldr g y) := by
  induction n generalizing s with
  | zero => exact ⟨rfl, hy⟩
  | succ n ih =>
    have hrest := ih (s := s + 1) (by rwa [Nat.add_right_comm]) fun i hi hlt =>
      h i (by omega) (by omega)
    obtain ⟨hfirst, hP⟩ := h s (Nat.le_refl s) (by omega) _ hrest.2
    rw [List.range'_succ, List.foldrM_cons, hrest.1, ok_bind, List.foldr_cons]
    exact ⟨hfirst, hP⟩

end Steps

end Joinery
