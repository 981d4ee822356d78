import BytecodeMutation.Proofs.Body.Extent
import BytecodeMutation.Proofs.Body.Splice
import BytecodeMutation.Proofs.Body.Twin
import BytecodeMutation.Proofs.Code.Displacement

/-!
How a layout moves when the code before it grows. Everything moves by the same number of bytes up to
the first switch. The operands of a switch begin at a multiple of four, so what stands behind it
moves by a whole number of words, and no later switch changes that.
-/
namespace BytecodeMutation
open Instruction (endOf)

namespace Element

def isSwitch : Element → Bool
  | code i => i.isSwitch
  | _ => false

theorem size_eq_of_not_switch {e : Element} (h : e.isSwitch = false) (pc pc' : Nat) :
    e.size pc = e.size pc' := by
  cases e with
  | code i => exact Instruction.size_eq_of_not_switch h pc pc'
  | _ => rfl

theorem size_of_switch {e : Element} (h : e.isSwitch) (pc pc' : Nat) :
    e.size pc + switchPadding pc' = e.size pc' + switchPadding pc := by
  cases e with
  | code i => exact Instruction.size_of_switch h pc pc'
  | _ => cases h

/-- The end of a switch moves by no word or by one. -/
theorem end_of_switch {e : Element} (h : e.isSwitch) (pc : Nat) {near : Nat} (short : near ≤ 4) :
    ∃ far, (far = 0 ∨ far = 4) ∧ pc + near + e.size (pc + near) = pc + e.size pc + far := by
  have same := size_of_switch h pc (pc + near)
  simp only [switchPadding] at same
  by_cases enough : pc + near + e.size (pc + near) = pc + e.size pc
  · exact ⟨0, .inl rfl, enough⟩
  · exact ⟨4, .inr rfl, by omega⟩

/-- Moving an element by whole words keeps its padding. -/
theorem size_add_words (e : Element) (pc : Nat) {far : Nat} (words : far = 0 ∨ far = 4) :
    e.size (pc + far) = e.size pc := by
  cases switch : e.isSwitch with
  | false => exact size_eq_of_not_switch switch _ _
  | true =>
    have same := size_of_switch switch pc (pc + far)
    simp only [switchPadding] at same
    omega

end Element

namespace Body

/-- Whether a switch is among the elements. -/
def hasSwitch (body : Body) : Bool := body.any Element.isSwitch

theorem endOf_cons (pc : Nat) (e : Element) (body : Body) :
    endOf pc (instructions (e :: body)) = endOf (pc + e.size pc) body.instructions := by
  cases e <;> rfl

theorem endOf_add_words (pc : Nat) {far : Nat} (words : far = 0 ∨ far = 4) (body : Body) :
    endOf (pc + far) body.instructions = endOf pc body.instructions + far := by
  induction body generalizing pc with
  | nil => rfl
  | cons e body ih =>
    have next : pc + far + e.size (pc + far) = pc + e.size pc + far := by
      rw [e.size_add_words pc words]
      omega
    rw [endOf_cons, endOf_cons, next, ih]

/-- Elements that begin `near` bytes later move by that much up to the first switch, and all those
behind it by no word or by one. -/
theorem exists_shift (pc : Nat) {near : Nat} (short : near ≤ 4) (body : Body) :
    ∃ far, (far = 0 ∨ far = 4) ∧ ∀ j, endOf (pc + near) (instructions (body.take j)) =
      endOf pc (instructions (body.take j)) +
        if hasSwitch (body.take j) then far else near := by
  induction body generalizing pc with
  | nil => exact ⟨0, .inl rfl, fun j => by rw [List.take_nil]; rfl⟩
  | cons e body ih =>
    cases switch : e.isSwitch with
    | true =>
      obtain ⟨far, words, next⟩ := Element.end_of_switch switch pc short
      refine ⟨far, words, fun j => ?_⟩
      cases j with
      | zero => rfl
      | succ j =>
        have passed : hasSwitch (e :: body.take j) = true := by
          rw [hasSwitch, List.any_cons, switch, Bool.true_or]
        rw [List.take_succ_cons, endOf_cons, endOf_cons, next, endOf_add_words _ words,
          if_pos passed]
    | false =>
      obtain ⟨far, words, later⟩ := ih (pc + e.size pc)
      refine ⟨far, words, fun j => ?_⟩
      cases j with
      | zero => rfl
      | succ j =>
        have next : pc + near + e.size (pc + near) = pc + e.size pc + near := by
          rw [Element.size_eq_of_not_switch switch (pc + near) pc]
          omega
        have passed : hasSwitch (e :: body.take j) = hasSwitch (body.take j) := by
          rw [hasSwitch, List.any_cons, switch, Bool.false_or, hasSwitch]
        rw [List.take_succ_cons, endOf_cons, endOf_cons, next, later, passed]

theorem length_located (pc : Nat) (body : Body) : (located pc body).length = body.length := by
  induction body generalizing pc with
  | nil => rfl
  | cons e body ih => rw [located, List.length_cons, List.length_cons, ih]

theorem located_append (pc : Nat) (xs ys : Body) :
    located pc (xs ++ ys) = located pc xs ++ located (endOf pc xs.instructions) ys := by
  induction xs generalizing pc with
  | nil => rfl
  | cons e xs ih => rw [List.cons_append, located, ih, endOf_cons, located, List.cons_append]

theorem getElem?_located_iff {pc pc' n : Nat} {e : Element} {body : Body} :
    (located pc body)[n]? = some (pc', e) ↔
      body[n]? = some e ∧ pc' = endOf pc (instructions (body.take n)) := by
  constructor
  · intro here
    have within := (List.getElem?_eq_some_iff.mp here).1
    rw [length_located] at within
    cases here.symm.trans (getElem?_located (List.getElem?_eq_getElem within))
    exact ⟨List.getElem?_eq_getElem within, rfl⟩
  · rintro ⟨site, rfl⟩
    exact getElem?_located site

section
variable {is : Body} {e : Element} {near k : Nat}

/-- A block that is `near` bytes larger than the element in whose place it stands. -/
theorem exists_spliced_shift (before after : Body) (short : near ≤ 4)
    (longer : is.length = 1 + k)
    (larger : ∀ pc, endOf pc is.instructions = pc + e.size pc + near) :
    ∃ far, (far = 0 ∨ far = 4) ∧
      (∀ n pc e', (located 0 (before ++ e :: after))[before.length + 1 + n]? = some (pc, e') →
        (located 0 (before ++ is ++ after))[before.length + 1 + n + k]? =
          some (pc + if hasSwitch (after.take n) then far else near, e')) ∧
      size (before ++ is ++ after) =
        size (before ++ e :: after) + if hasSwitch after then far else near := by
  let pc := endOf 0 before.instructions
  obtain ⟨far, words, shift⟩ := exists_shift (pc + e.size pc) short after
  refine ⟨far, words, ?_, ?_⟩
  · intro n pc' e' here
    rw [located_append, ← length_located 0 before, Nat.add_assoc, Nat.add_comm 1 n,
      getElem?_length_add, located, List.getElem?_cons_succ] at here
    obtain ⟨site, rfl⟩ := getElem?_located_iff.mp here
    have place : before.length + 1 + n + k =
        (located 0 before).length + ((located pc is).length + n) := by
      rw [length_located, length_located, longer]
      omega
    rw [List.append_assoc, located_append, located_append, place, getElem?_length_add,
      getElem?_length_add, larger, ← shift]
    exact getElem?_located site
  · have total := shift after.length
    rw [List.take_length] at total
    rw [size_eq, size_eq, List.append_assoc, instructions_append, instructions_append,
      instructions_append, Instruction.endOf_append, Instruction.endOf_append,
      Instruction.endOf_append, endOf_cons, larger]
    exact total

end

end Body

end BytecodeMutation
