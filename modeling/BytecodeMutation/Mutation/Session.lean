import BytecodeMutation.Method

/-!
Candidates for mutation, and the session that collects them while methods are walked.
-/
namespace BytecodeMutation

/-- One possible mutation: where it is, which mutator makes it and what it changes. Candidates are
plain values, so one that an earlier walk found names the same site in a later walk. -/
structure Candidate where
  location : Location
  /-- The place in the unchanged body, markers included. -/
  index : Nat
  /-- The identifier of the mutator. -/
  mutator : String
  description : String
  deriving DecidableEq, Repr, Ord

def Candidate.text (c : Candidate) : String :=
  c.location.text ++ s!" @{c.index} [" ++ c.mutator ++ "] " ++ c.description

/-- What a mutator offers to do at some place. -/
structure Change where
  mutator : String
  description : String
  deriving DecidableEq, Repr

/-- The method at hand and the candidate that is to be carried out. Without a target every
candidate is. -/
structure Scope where
  location : Location
  target : Option Candidate
  deriving DecidableEq, Repr

namespace Scope

def candidate (s : Scope) (index : Nat) (c : Change) : Candidate :=
  ⟨s.location, index, c.mutator, c.description⟩

def selects (s : Scope) (c : Candidate) : Bool :=
  match s.target with
  | none => true
  | some t => t == c

end Scope

/-- A scope and the candidates registered so far, the first one first. The same candidate may be
there more than once. -/
structure Session where
  scope : Scope
  found : List Candidate
  deriving DecidableEq, Repr

namespace Session

def start (scope : Scope) : Session := ⟨scope, []⟩

/-- Goes on with another method. -/
def enter (s : Session) (location : Location) : Session :=
  { s with scope := { s.scope with location } }

def register (s : Session) (index : Nat) (c : Change) : Candidate × Session :=
  let candidate := s.scope.candidate index c
  (candidate, { s with found := s.found ++ [candidate] })

/-- Registers what is offered at one index, one change after the other. -/
def registerAll (s : Session) (index : Nat) (cs : List Change) : Session :=
  cs.foldl (fun s c => (s.register index c).2) s

theorem registerAll_eq (s : Session) (index : Nat) (cs : List Change) :
    s.registerAll index cs = { s with found := s.found ++ cs.map (s.scope.candidate index) } := by
  induction cs generalizing s with
  | nil => simp only [registerAll, List.foldl_nil, List.map_nil, List.append_nil]
  | cons c cs ih =>
    have after : s.registerAll index (c :: cs) = (s.register index c).2.registerAll index cs := rfl
    rw [after, ih]
    simp only [register, List.append_assoc, List.singleton_append, List.map_cons]

end Session

end BytecodeMutation
