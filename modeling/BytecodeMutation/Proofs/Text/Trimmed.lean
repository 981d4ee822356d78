import BytecodeMutation.Text.Blank

/-!
Trimming takes the blanks at both ends of a text away, and nothing else.
-/
namespace BytecodeMutation.Text

/-- What stands between the outer blanks of a text. -/
structure Trimmed (cs inner : List Char) : Prop where
  parts : ∃ before after, cs = before ++ inner ++ after ∧ (∀ c ∈ before, isBlank c) ∧
    ∀ c ∈ after, isBlank c
  first : ∀ c ∈ inner.head?, isBlank c = false
  last : ∀ c ∈ inner.getLast?, isBlank c = false

variable {cs inner : List Char}

theorem dropWhile_append_eq {before : List Char} (blank : ∀ c ∈ before, isBlank c)
    (first : ∀ c ∈ inner.head?, isBlank c = false) :
    (before ++ inner).dropWhile isBlank = inner := by
  rw [List.dropWhile_append_of_pos blank]
  cases inner with
  | nil => rfl
  | cons c inner => rw [List.dropWhile_cons_of_neg (by simp [first c rfl])]

theorem isBlank_of_mem_head?_dropWhile {c : Char} (h : c ∈ (cs.dropWhile isBlank).head?) :
    isBlank c = false := by
  have stop := List.head?_dropWhile_not isBlank cs
  rw [Option.mem_def.mp h] at stop
  exact stop

theorem Trimmed.trim_eq (h : Trimmed cs inner) : trim cs = inner := by
  obtain ⟨⟨before, after, rfl, blank, blank'⟩, first, last⟩ := h
  have stop : trimEnd (inner ++ after) = inner := by
    rw [trimEnd, List.reverse_append, dropWhile_append_eq (by simpa using blank')
      (by rwa [List.head?_reverse]), List.reverse_reverse]
  rw [trim, trimStart, List.append_assoc]
  cases inner with
  | nil =>
    -- nothing but blanks, all of which the start takes already
    have all : (before ++ after).dropWhile isBlank = [] := by
      have blanks : ∀ c ∈ before ++ after, isBlank c := List.forall_mem_append.mpr ⟨blank, blank'⟩
      rw [← List.append_nil (before ++ after), List.dropWhile_append_of_pos blanks,
        List.dropWhile_nil]
    rw [List.nil_append, all]
    rfl
  | cons c inner =>
    have start : ∀ d ∈ (c :: inner ++ after).head?, isBlank d = false := first
    rw [dropWhile_append_eq blank start, stop]

theorem trimmed_trim (cs : List Char) : Trimmed cs (trim cs) := by
  have start := List.takeWhile_append_dropWhile (p := isBlank) (l := cs)
  have stop := List.takeWhile_append_dropWhile (p := isBlank) (l := (trimStart cs).reverse)
  have ends : trimStart cs =
      trim cs ++ ((trimStart cs).reverse.takeWhile isBlank).reverse := by
    conv => lhs; rw [← List.reverse_reverse (trimStart cs), ← stop, List.reverse_append]
    rfl
  constructor
  · refine ⟨cs.takeWhile isBlank, ((trimStart cs).reverse.takeWhile isBlank).reverse, ?_, ?_, ?_⟩
    · rw [List.append_assoc, ← ends]
      exact start.symm
    · exact List.all_eq_true.mp List.all_takeWhile
    · intro c hc
      exact List.all_eq_true.mp List.all_takeWhile c (List.mem_reverse.mp hc)
  · intro c hc
    have head : c ∈ (trimStart cs).head? := by
      rw [ends, List.head?_append, Option.mem_def.mp hc]
      rfl
    exact isBlank_of_mem_head?_dropWhile head
  · intro c hc
    rw [trim, trimEnd, List.getLast?_reverse] at hc
    exact isBlank_of_mem_head?_dropWhile hc

/-- What stands between the outer blanks is what trimming leaves. -/
theorem trimmed_iff : Trimmed cs inner ↔ inner = trim cs := by
  constructor
  · intro h
    exact h.trim_eq.symm
  · rintro rfl
    exact trimmed_trim cs

end BytecodeMutation.Text
