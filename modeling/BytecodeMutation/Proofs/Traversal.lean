/-!
Computations that stop at the first error, and searches for the first element with a property.
-/
namespace BytecodeMutation

section
variable {ε α β : Type}

/-- Where at most one element has a property, the first one with it is the only one. -/
theorem find?_eq_some_iff_of_unique {p : α → Bool} {xs : List α} {x : α}
    (unique : x ∈ xs → p x → ∀ y ∈ xs, p y → y = x) : xs.find? p = some x ↔ x ∈ xs ∧ p x := by
  constructor
  · intro found
    exact ⟨List.mem_of_find?_eq_some found, List.find?_some found⟩
  · rintro ⟨member, holds⟩
    cases found : xs.find? p with
    | none => exact absurd holds (List.find?_eq_none.mp found x member)
    | some y =>
      rw [unique member holds y (List.mem_of_find?_eq_some found) (List.find?_some found)]

theorem bind_eq_ok_iff {x : Except ε α} {f : α → Except ε β} {b : β} :
    (x >>= f) = .ok b ↔ ∃ a, x = .ok a ∧ f a = .ok b := by
  cases x <;> simp [bind, Except.bind]

theorem bind_eq_error_iff {x : Except ε α} {f : α → Except ε β} {e : ε} :
    (x >>= f) = .error e ↔ x = .error e ∨ ∃ a, x = .ok a ∧ f a = .error e := by
  cases x <;> simp [bind, Except.bind]

theorem pure_ne_error {a : α} {e : ε} : (pure a : Except ε α) ≠ .error e := nofun

theorem pure_eq_ok_iff {a b : α} : (pure a : Except ε α) = .ok b ↔ b = a := by
  simp only [pure, Except.pure, Except.ok.injEq]
  exact eq_comm

theorem mapM_cons_of_ok {f : α → Except ε β} {x : α} {y : β} (xs : List α) (first : f x = .ok y) :
    (x :: xs).mapM f = (xs.mapM f).map (y :: ·) := by
  rw [List.mapM_cons, first]
  change (xs.mapM f >>= fun ys => pure (y :: ys)) = _
  cases xs.mapM f <;> rfl

theorem mapM_cons_eq_ok_iff {f : α → Except ε β} {x : α} {xs : List α} {zs : List β} :
    (x :: xs).mapM f = .ok zs ↔ ∃ y ys, f x = .ok y ∧ xs.mapM f = .ok ys ∧ zs = y :: ys := by
  simp only [List.mapM_cons, bind_eq_ok_iff, pure_eq_ok_iff]
  constructor
  · rintro ⟨y, hy, ys, hys, rfl⟩; exact ⟨y, ys, hy, hys, rfl⟩
  · rintro ⟨y, ys, hy, hys, rfl⟩; exact ⟨y, hy, ys, hys, rfl⟩

/-- Each result of a traversal is the result of one of its steps. -/
theorem exists_eq_ok_of_mapM {f : α → Except ε β} {xs : List α} {ys : List β}
    (h : xs.mapM f = .ok ys) : ∀ y ∈ ys, ∃ x ∈ xs, f x = .ok y := by
  induction xs generalizing ys with
  | nil =>
    cases h
    exact nofun
  | cons x xs ih =>
    obtain ⟨z, zs, first, others, rfl⟩ := mapM_cons_eq_ok_iff.mp h
    intro y hy
    rcases List.mem_cons.mp hy with rfl | later
    · exact ⟨x, List.mem_cons_self, first⟩
    · obtain ⟨w, member, result⟩ := ih others y later
      exact ⟨w, List.mem_cons_of_mem x member, result⟩

theorem exists_mapM_iff {f : α → Except ε β} {xs : List α} :
    (∃ ys, xs.mapM f = .ok ys) ↔ ∀ x ∈ xs, ∃ y, f x = .ok y := by
  induction xs with
  | nil => simp [List.mapM_nil, pure_eq_ok_iff]
  | cons x xs ih =>
    rw [List.forall_mem_cons, ← ih]
    simp only [mapM_cons_eq_ok_iff]
    constructor
    · rintro ⟨_, y, ys, first, others, rfl⟩
      exact ⟨⟨y, first⟩, ys, others⟩
    · rintro ⟨⟨y, first⟩, ys, others⟩
      exact ⟨_, y, ys, first, others, rfl⟩

/-- A traversal with a step that succeeds on `p` and then gives `g`. -/
theorem mapM_eq_ok_iff {f : α → Except ε β} {p : α → Prop} {g : α → β}
    (step : ∀ x y, f x = .ok y ↔ p x ∧ y = g x) {xs : List α} {ys : List β} :
    xs.mapM f = .ok ys ↔ (∀ x ∈ xs, p x) ∧ ys = xs.map g := by
  induction xs generalizing ys with
  | nil => simp [List.mapM_nil, pure_eq_ok_iff]
  | cons x xs ih =>
    simp only [mapM_cons_eq_ok_iff, step, ih, List.forall_mem_cons, List.map_cons]
    constructor
    · rintro ⟨_, _, ⟨hx, rfl⟩, ⟨hxs, rfl⟩, rfl⟩; exact ⟨⟨hx, hxs⟩, rfl⟩
    · rintro ⟨⟨hx, hxs⟩, rfl⟩; exact ⟨_, _, ⟨hx, rfl⟩, ⟨hxs, rfl⟩, rfl⟩

theorem mapM_cons_eq_error_iff {f : α → Except ε β} {x : α} {xs : List α} {e : ε} :
    (x :: xs).mapM f = .error e ↔ f x = .error e ∨ ∃ y, f x = .ok y ∧ xs.mapM f = .error e := by
  rw [List.mapM_cons]
  cases f x with
  | error e' => simp [bind, Except.bind]
  | ok y => cases xs.mapM f <;> simp [bind, Except.bind, pure, Except.pure]

/-- The error of a traversal is the error of one of its steps. -/
theorem exists_eq_error_of_mapM {f : α → Except ε β} {xs : List α} {e : ε}
    (h : xs.mapM f = .error e) : ∃ x ∈ xs, f x = .error e := by
  induction xs with
  | nil => simp [List.mapM_nil, pure, Except.pure] at h
  | cons x xs ih =>
    rcases mapM_cons_eq_error_iff.mp h with fails | ⟨y, -, rest⟩
    · exact ⟨x, List.mem_cons_self, fails⟩
    · obtain ⟨z, member, fails⟩ := ih rest
      exact ⟨z, List.mem_cons_of_mem x member, fails⟩

theorem mapM_append_eq_error_iff {f : α → Except ε β} {xs ys : List α} {e : ε} :
    (xs ++ ys).mapM f = .error e ↔
      xs.mapM f = .error e ∨ ∃ zs, xs.mapM f = .ok zs ∧ ys.mapM f = .error e := by
  rw [List.mapM_append]
  cases xs.mapM f with
  | error e' => simp [bind, Except.bind]
  | ok zs => cases ys.mapM f <;> simp [bind, Except.bind, pure, Except.pure]

/-- A traversal fails where its first failing step does. -/
theorem mapM_eq_error_iff_append {f : α → Except ε β} {xs : List α} {e : ε} :
    xs.mapM f = .error e ↔ ∃ before x after, xs = before ++ x :: after ∧
      (∀ y ∈ before, ∃ z, f y = .ok z) ∧ f x = .error e := by
  constructor
  · intro fails
    induction xs with
    | nil => exact absurd fails pure_ne_error
    | cons x xs ih =>
      rcases mapM_cons_eq_error_iff.mp fails with here | ⟨y, ok, later⟩
      · exact ⟨[], x, xs, rfl, nofun, here⟩
      · obtain ⟨before, x', after, rfl, good, bad⟩ := ih later
        exact ⟨x :: before, x', after, rfl, List.forall_mem_cons.mpr ⟨⟨y, ok⟩, good⟩, bad⟩
  · rintro ⟨before, x, after, rfl, good, bad⟩
    obtain ⟨ys, ok⟩ := exists_mapM_iff.mpr good
    exact mapM_append_eq_error_iff.mpr (.inr ⟨ys, ok, mapM_cons_eq_error_iff.mpr (.inl bad)⟩)

/-- A traversal whose steps fail on `p` only: the first such element is reported. -/
theorem mapM_eq_error_iff_find? {f : α → Except ε β} {p : α → Bool} {report : α → ε}
    (succeeds : ∀ x, p x = false → ∃ y, f x = .ok y) (fails : ∀ x, p x → f x = .error (report x))
    {xs : List α} {e : ε} :
    xs.mapM f = .error e ↔ ∃ x, xs.find? p = some x ∧ e = report x := by
  induction xs with
  | nil => simp [List.mapM_nil, pure_ne_error]
  | cons x xs ih =>
    rw [mapM_cons_eq_error_iff, List.find?_cons]
    cases bad : p x with
    | true => simp [fails x bad, eq_comm]
    | false =>
      obtain ⟨y, ok⟩ := succeeds x bad
      simp [ok, ih]

/-- A traversal of lists that are traversed in turn is a traversal of all their elements. -/
theorem mapM_eq_error_iff_flatMap {γ δ : Type} {f : α → Except ε β} {g : α → List γ}
    {h : γ → Except ε δ} (step : ∀ x e, f x = .error e ↔ (g x).mapM h = .error e) {xs : List α}
    {e : ε} : xs.mapM f = .error e ↔ (xs.flatMap g).mapM h = .error e := by
  induction xs with
  | nil => simp [List.mapM_nil, pure_ne_error]
  | cons x xs ih =>
    have finishes : (∃ y, f x = .ok y) ↔ ∃ zs, (g x).mapM h = .ok zs := by
      cases first : f x with
      | error e' => simp [(step x e').mp first]
      | ok y =>
        cases others : (g x).mapM h with
        | error e' => simp [(step x e').mpr others] at first
        | ok zs => simp
    rw [mapM_cons_eq_error_iff, List.flatMap_cons, mapM_append_eq_error_iff, step, ih,
      exists_and_right, exists_and_right, finishes]

end

section
variable {ε α β γ δ : Type}

/-- Two computations that fail with the same error, or both succeed with related results. -/
inductive Agree (R : α → β → Prop) : Except ε α → Except ε β → Prop
  | error (e : ε) : Agree R (.error e) (.error e)
  | ok {a : α} {b : β} (related : R a b) : Agree R (.ok a) (.ok b)

theorem Agree.bind {R : α → β → Prop} {S : γ → δ → Prop} {x : Except ε α} {y : Except ε β}
    {f : α → Except ε γ} {g : β → Except ε δ} (h : Agree R x y)
    (next : ∀ a b, R a b → Agree S (f a) (g b)) : Agree S (x >>= f) (y >>= g) := by
  cases h with
  | error e => exact .error e
  | ok related => exact next _ _ related

theorem Agree.map {R : α → β → Prop} {S : γ → δ → Prop} {x : Except ε α} {y : Except ε β}
    {f : α → γ} {g : β → δ} (h : Agree R x y) (next : ∀ a b, R a b → S (f a) (g b)) :
    Agree S (x.map f) (y.map g) := by
  cases h with
  | error e => exact .error e
  | ok related => exact .ok (next _ _ related)

theorem Agree.refl {R : α → α → Prop} (x : Except ε α) (related : ∀ a, x = .ok a → R a a) :
    Agree R x x := by
  cases x with
  | error e => exact .error e
  | ok a => exact .ok (related a rfl)

end

end BytecodeMutation
