/-!
# Levels

A level is the value of a single-axis fact: not known yet, refuted or established. Levels are
ordered by `code`; a fact that may only be improved moves up this order.
-/

namespace Mutability

inductive Level where
  | delayed
  | no
  | yes
  deriving DecidableEq, Repr

namespace Level

def code : Level → Int
  | delayed => -1
  | no => 0
  | yes => 1

def ofCode? (code : Int) : Option Level :=
  if code = -1 then some delayed
  else if code = 0 then some no
  else if code = 1 then some yes
  else none

theorem ofCode?_code (l : Level) : ofCode? l.code = some l := by
  cases l <;> rfl

instance : LE Level := ⟨fun a b => a.code ≤ b.code⟩

instance : DecidableLE Level := fun a b => inferInstanceAs (Decidable (a.code ≤ b.code))

instance : Ord Level := ⟨fun a b => compare a.code b.code⟩

def ofBool (b : Bool) : Level := if b then yes else no

/-- Conjunction; a delayed side delays the result. -/
def and : Level → Level → Level
  | delayed, _ => delayed
  | _, delayed => delayed
  | yes, yes => yes
  | _, _ => no

/-- Disjunction; a delayed side delays the result, also when the other side is established. -/
def or : Level → Level → Level
  | delayed, _ => delayed
  | _, delayed => delayed
  | no, no => no
  | _, _ => yes

def text : Level → String
  | delayed => "delay"
  | no => "false"
  | yes => "true"

end Level

end Mutability
