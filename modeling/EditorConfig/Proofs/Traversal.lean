import EditorConfig.Text.Basic

/-! Steps that are taken in turn until one of them fails. -/
namespace EditorConfig
variable {α β ε : Type} {f : α → Except ε β}

instance decidableExistsOk (x : Except ε α) : Decidable (∃ a, x = .ok a) :=
  match x with
  | .ok a => .isTrue ⟨a, rfl⟩
  | .error _ => .isFalse nofun

theorem mapM_cons_ok {x : α} {xs : List α} {ys : List β} (h : (x :: xs).mapM f = .ok ys) :
    ∃ z zs, f x = .ok z ∧ xs.mapM f = .ok zs ∧ ys = z :: zs := by
  rw [List.mapM_cons] at h
  cases hx : f x with
  | error e =>
    rw [hx] at h
    cases h
  | ok z =>
    cases hr : xs.mapM f with
    | error e =>
      rw [hx, hr] at h
      cases h
    | ok zs =>
      rw [hx, hr] at h
      cases h
      exact ⟨z, zs, rfl, rfl, rfl⟩

theorem mapM_cons_error {x : α} {xs : List α} {e : ε} :
    (x :: xs).mapM f = .error e ↔
      f x = .error e ∨ (∃ z, f x = .ok z) ∧ xs.mapM f = .error e := by
  rw [List.mapM_cons]
  cases f x with
  | error e' =>
    cases xs.mapM f <;> simp [bind, Except.bind]
  | ok z =>
    cases xs.mapM f <;> simp [bind, Except.bind, pure, Except.pure]

theorem mem_of_mapM {xs : List α} {ys : List β} (h : xs.mapM f = .ok ys) {y : β} (hy : y ∈ ys) :
    ∃ x ∈ xs, f x = .ok y := by
  induction xs generalizing ys with
  | nil =>
    cases h
    cases hy
  | cons x xs ih =>
    obtain ⟨z, zs, hz, hr, rfl⟩ := mapM_cons_ok h
    cases hy with
    | head => exact ⟨x, List.mem_cons_self, hz⟩
    | tail _ hy =>
      obtain ⟨x', hm, hf⟩ := ih hr hy
      exact ⟨x', List.mem_cons_of_mem x hm, hf⟩

theorem ok_of_mapM {xs : List α} {ys : List β} (h : xs.mapM f = .ok ys) {x : α} (hx : x ∈ xs) :
    ∃ y, f x = .ok y := by
  induction xs generalizing ys with
  | nil => cases hx
  | cons x' xs ih =>
    obtain ⟨z, zs, hz, hr, -⟩ := mapM_cons_ok h
    cases hx with
    | head => exact ⟨z, hz⟩
    | tail _ hx => exact ih hr hx

/-- The steps fail as the first of them that fails. -/
theorem mapM_eq_error_iff {xs : List α} {e : ε} :
    xs.mapM f = .error e ↔ ∃ before x after, xs = before ++ x :: after ∧
      (∀ y ∈ before, ∃ z, f y = .ok z) ∧ f x = .error e := by
  induction xs with
  | nil =>
    refine iff_of_false nofun ?_
    intro h
    obtain ⟨before, x, after, he, -⟩ := h
    simp at he
  | cons x xs ih =>
    rw [mapM_cons_error, ih]
    constructor
    · intro h
      cases h with
      | inl hx => exact ⟨[], x, xs, rfl, nofun, hx⟩
      | inr h =>
        obtain ⟨hx, before, y, after, rfl, hb, hy⟩ := h
        exact ⟨x :: before, y, after, rfl, List.forall_mem_cons.2 ⟨hx, hb⟩, hy⟩
    · intro h
      obtain ⟨before, y, after, he, hb, hy⟩ := h
      cases before with
      | nil =>
        cases he
        exact .inl hy
      | cons z before =>
        cases he
        have hb' := List.forall_mem_cons.1 hb
        exact .inr ⟨hb'.1, before, y, after, rfl, hb'.2, hy⟩

end EditorConfig
