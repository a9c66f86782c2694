import Mutability.Types.Hierarchy

/-!
# Outcomes of bounded searches

Some searches follow declarations that lead on without end. They are given a depth and end in one
of three ways: with an answer, with a declaration that is missing, or unfinished at that depth.
`deepen` searches as deep as it takes.
-/

namespace Mutability

inductive Outcome (α : Type) where
  | answer (a : α)
  | unresolved (fault : Unresolved)
  | unfinished
  deriving DecidableEq, Repr

namespace Outcome

variable {α β : Type}

def bind : Outcome α → (α → Outcome β) → Outcome β
  | answer a, next => next a
  | unresolved fault, _ => unresolved fault
  | unfinished, _ => unfinished

instance : Monad Outcome where
  pure := answer
  bind := bind

def ofExcept : Except Unresolved α → Outcome α
  | .ok a => answer a
  | .error fault => unresolved fault

instance : MonadLift (Except Unresolved) Outcome := ⟨ofExcept⟩

/-- The first of ever greater depths that is enough for a search, if there is one. -/
def enoughDepth (search : Nat → Outcome α) : Nat → Nat :=
  repeatM (m := Id) fun depth =>
    match search depth with
    | unfinished => .inl (2 * depth + 1)
    | _ => .inr depth

/-- The outcome of a search that starts at a depth and goes as deep as it takes, unfinished only if
no depth is enough. -/
def deepen (search : Nat → Outcome α) (depth : Nat) : Outcome α :=
  match search depth with
  | unfinished => search (enoughDepth search depth)
  | outcome => outcome

theorem bind_eq_answer {x : Outcome α} {next : α → Outcome β} {b : β} :
    (x >>= next) = answer b ↔ ∃ a, x = answer a ∧ next a = answer b := by
  cases x <;> simp [Bind.bind, bind]

end Outcome

end Mutability
