import BytecodeMutation.Text.Blank

/-!
A text that is put together from words and lines falls into just these.
-/
namespace BytecodeMutation.Text

/-- The characters from the minus sign to the last small letter. No blank is among them. -/
def isPlain (c : Char) : Bool := 0x2d ≤ c.toNat && c.toNat ≤ 0x7a

/-- A word as it is written: it does not end like the line of a label. -/
def isWord (w : List Char) : Bool := w.all isPlain && w.getLast?.any (· != ':')

/-- A word and more words, each behind a blank. -/
def phrase (w : List Char) (ws : List (List Char)) : List Char := w ++ ws.flatMap (' ' :: ·)

/-- Text that a line holds between its blanks. -/
structure Clean (cs : List Char) : Prop where
  nonempty : cs ≠ []
  characters : ∀ c ∈ cs, c = ' ' ∨ isPlain c
  first : ∀ c ∈ cs.head?, isPlain c
  last : ∀ c ∈ cs.getLast?, isPlain c

section
variable {c : Char} {cs w : List Char} {ws : List (List Char)}

theorem isBlank_of_isPlain (h : isPlain c) : isBlank c = false := by
  simp only [isPlain, Bool.and_eq_true, decide_eq_true_eq] at h
  simp only [isBlank, Bool.or_eq_false_iff, Bool.and_eq_false_iff, decide_eq_false_iff_not,
    beq_eq_false_iff_ne]
  omega

theorem isWord_iff : isWord w ↔ (∀ c ∈ w, isPlain c) ∧ ∃ c, w.getLast? = some c ∧ c ≠ ':' := by
  simp only [isWord, Bool.and_eq_true, List.all_eq_true, Option.any_eq_true, bne_iff_ne]

theorem isWord_append (plain : cs.all isPlain) (word : isWord w) : isWord (cs ++ w) := by
  obtain ⟨others, c, last, ending⟩ := isWord_iff.mp word
  refine isWord_iff.mpr ⟨?_, c, by rw [List.getLast?_append, last, Option.some_or], ending⟩
  intro x hx
  rcases List.mem_append.mp hx with first | second
  · exact List.all_eq_true.mp plain x first
  · exact others x second

theorem ne_nil_of_isWord (h : isWord w) : w ≠ [] := by
  rintro rfl
  cases h

theorem words_append_blank (blank : isBlank c) (xs ys : List Char) :
    words (xs ++ c :: ys) = words xs ++ words ys := by
  rw [words, List.splitOnP_append_cons xs ys blank, List.filter_append]
  rfl

theorem words_of_isWord (h : isWord w) : words w = [w] := by
  obtain ⟨plain, -⟩ := isWord_iff.mp h
  rw [words, List.splitOnP_eq_singleton fun c hc => isBlank_of_isPlain (plain c hc)]
  simp [ne_nil_of_isWord h]

theorem phrase_cons (w v : List Char) (vs : List (List Char)) :
    phrase w (v :: vs) = w ++ ' ' :: phrase v vs := by
  simp only [phrase, List.flatMap_cons, List.cons_append]

/-- The words of a phrase. -/
theorem words_phrase (h : ∀ v ∈ w :: ws, isWord v) : words (phrase w ws) = w :: ws := by
  induction ws generalizing w with
  | nil =>
    rw [phrase, List.flatMap_nil, List.append_nil]
    exact words_of_isWord (h w List.mem_cons_self)
  | cons v vs ih =>
    obtain ⟨first, others⟩ := List.forall_mem_cons.mp h
    rw [phrase_cons, words_append_blank rfl, words_of_isWord first, ih others,
      List.singleton_append]

/-- A phrase ends with the end of its last word. -/
theorem getLast?_phrase (h : ∀ v ∈ w :: ws, isWord v) :
    ∃ c, (phrase w ws).getLast? = some c ∧ c ≠ ':' ∧ isPlain c := by
  induction ws generalizing w with
  | nil =>
    obtain ⟨plain, c, last, ending⟩ := isWord_iff.mp (h w List.mem_cons_self)
    rw [phrase, List.flatMap_nil, List.append_nil]
    exact ⟨c, last, ending, plain c (List.mem_of_getLast? last)⟩
  | cons v vs ih =>
    obtain ⟨c, last, ending⟩ := ih (List.forall_mem_cons.mp h).2
    refine ⟨c, ?_, ending⟩
    rw [phrase_cons, List.getLast?_append, List.getLast?_cons, last]
    rfl

theorem getLast?_phrase_ne (h : ∀ v ∈ w :: ws, isWord v) : (phrase w ws).getLast? ≠ some ':' := by
  obtain ⟨c, last, ending, -⟩ := getLast?_phrase h
  rw [last]
  rintro ⟨⟩
  exact ending rfl

theorem clean_phrase (h : ∀ v ∈ w :: ws, isWord v) : Clean (phrase w ws) := by
  obtain ⟨first, others⟩ := List.forall_mem_cons.mp h
  have nonempty := ne_nil_of_isWord first
  obtain ⟨c, last, -, plain⟩ := getLast?_phrase h
  refine ⟨?_, ?_, ?_, ?_⟩
  · simp [phrase, nonempty]
  · intro x hx
    simp only [phrase, List.mem_append, List.mem_flatMap, List.mem_cons] at hx
    rcases hx with inside | ⟨v, hv, blank | inside⟩
    · exact .inr ((isWord_iff.mp first).1 x inside)
    · exact .inl blank
    · exact .inr ((isWord_iff.mp (others v hv)).1 x inside)
  · intro x hx
    obtain ⟨c, tail, rfl⟩ := List.exists_cons_of_ne_nil nonempty
    cases hx
    exact (isWord_iff.mp first).1 _ List.mem_cons_self
  · intro x hx
    rw [last] at hx
    cases hx
    exact plain

theorem clean_of_plain (nonempty : cs ≠ []) (plain : ∀ c ∈ cs, isPlain c) : Clean cs where
  nonempty := nonempty
  characters c hc := .inr (plain c hc)
  first c hc := plain c (List.mem_of_head? hc)
  last c hc := plain c (List.mem_of_getLast? hc)

theorem dropWhile_isBlank (first : ∀ c ∈ cs.head?, isPlain c) : cs.dropWhile isBlank = cs := by
  cases cs with
  | nil => rfl
  | cons c cs => rw [List.dropWhile_cons_of_neg (by simp [isBlank_of_isPlain (first c rfl)])]

theorem mem_dropWhile {p : Char → Bool} (member : c ∈ cs) (kept : p c = false) :
    c ∈ cs.dropWhile p := by
  rw [← List.takeWhile_append_dropWhile (p := p) (l := cs)] at member
  rcases List.mem_append.mp member with taken | left
  · rw [List.all_eq_true.mp List.all_takeWhile c taken] at kept
    cases kept
  · exact left

/-- Trimming takes blanks only. -/
theorem mem_trim (member : c ∈ cs) (kept : isBlank c = false) : c ∈ trim cs := by
  have start : c ∈ trimStart cs := mem_dropWhile member kept
  exact List.mem_reverse.mpr (mem_dropWhile (List.mem_reverse.mpr start) kept)

/-- Trimming takes the indent off, and nothing else. -/
theorem trim_indented (h : Clean cs) {indent : List Char} (blank : ∀ c ∈ indent, isBlank c) :
    trim (indent ++ cs) = cs := by
  have start : trimStart (indent ++ cs) = cs := by
    rw [trimStart, List.dropWhile_append_of_pos blank, dropWhile_isBlank h.first]
  have stop : trimEnd cs = cs := by
    rw [trimEnd, dropWhile_isBlank (by rw [List.head?_reverse]; exact h.last), List.reverse_reverse]
  rw [trim, start, stop]

end

theorem after?_append (start rest : List Char) : after? start (start ++ rest) = some rest := by
  induction start with
  | nil => rfl
  | cons c start ih => rw [List.cons_append, after?, if_pos rfl, ih]

theorem after?_eq_some_iff {start cs rest : List Char} :
    after? start cs = some rest ↔ cs = start ++ rest := by
  constructor
  · intro h
    induction start generalizing cs with
    | nil => exact Option.some.inj h
    | cons s start ih =>
      cases cs with
      | nil => cases h
      | cons c cs =>
        simp only [after?, Option.ite_none_right_eq_some] at h
        obtain ⟨rfl, others⟩ := h
        rw [ih others, List.cons_append]
  · rintro rfl
    exact after?_append start rest

theorem cut?_append {c : Char} {side : List Char} (absent : c ∉ side) (rest : List Char) :
    cut? c (side ++ c :: rest) = some (side, rest) := by
  have before : ∀ x ∈ side, (x != c) = true := by
    intro x hx
    rw [bne_iff_ne]
    rintro rfl
    exact absent hx
  rw [cut?, List.dropWhile_append_of_pos before, List.takeWhile_append_of_pos before,
    List.dropWhile_cons_of_neg (by simp), List.takeWhile_cons_of_neg (by simp), List.append_nil]

/-- The lines of a text whose lines all end with a line feed. -/
theorem lines_terminated {ls : List (List Char)}
    (whole : ∀ l ∈ ls, '\n' ∉ l ∧ l.getLast? ≠ some '\r') :
    lines (ls.flatMap (· ++ ['\n'])) = ls := by
  have pieces : (ls.flatMap (· ++ ['\n'])).splitOn '\n' = ls ++ [[]] := by
    induction ls with
    | nil => rfl
    | cons l ls ih =>
      obtain ⟨first, others⟩ := List.forall_mem_cons.mp whole
      rw [List.flatMap_cons, List.append_assoc, List.singleton_append,
        List.splitOn_append_cons_self_of_not_mem first.1, ih others, List.cons_append]
  have kept : ls.map dropReturn = ls := by
    refine (List.map_congr_left fun l hl => ?_).trans (List.map_id ls)
    rw [dropReturn, if_neg (whole l hl).2, id]
  simp only [lines, pieces, List.getLast?_concat, List.dropLast_concat, kept, Option.getD_some,
    List.isEmpty_nil, if_true, List.append_nil]

end BytecodeMutation.Text
