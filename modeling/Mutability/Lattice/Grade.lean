/-!
# Grades

A grade is the value of one depth of a graded fact. Between refuted and effective stand the three
eventual grades: eventual, and eventual with a known side of the mark.
-/

namespace Mutability

inductive Grade where
  | delayed
  | no
  | eventual
  | before
  | after
  | effective
  deriving DecidableEq, Repr

namespace Grade

def code : Grade → Nat
  | delayed => 0
  | no => 1
  | eventual => 2
  | before => 3
  | after => 4
  | effective => 5

def all : List Grade := [delayed, no, eventual, before, after, effective]

def ofCode? (code : Int) : Option Grade :=
  if code < 0 then none else all[code.toNat]?

theorem ofCode?_code (g : Grade) : ofCode? g.code = some g := by
  cases g <;> rfl

instance : LE Grade := ⟨fun a b => a.code ≤ b.code⟩

instance : DecidableLE Grade := fun a b => inferInstanceAs (Decidable (a.code ≤ b.code))

instance : Ord Grade := ⟨fun a b => compare a.code b.code⟩

/-- Eventual on either side of the mark, or effective. -/
def holds : Grade → Bool
  | delayed => false
  | no => false
  | _ => true

def isEventual : Grade → Bool
  | eventual => true
  | before => true
  | after => true
  | _ => false

/-- The grade's share of a packed value: three bits for each depth. -/
def codeAt (g : Grade) (depth : Nat) : Nat := g.code * Nat.pow 8 depth

def text : Grade → String
  | delayed => "delay"
  | no => "false"
  | eventual => "eventual"
  | before => "eventual-before"
  | after => "eventual-after"
  | effective => "effective"

end Grade

end Mutability
