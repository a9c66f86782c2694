import Mutability.Lattice.Grade

/-!
# Graded facts at three depths

A `MultiLevel` holds one grade for the value itself, one for its content and one for the content
of that content. What is said of the content presupposes the value, so `readAt` hides a depth
whose lower depths do not hold. The order is that of the packed code: the deepest grade decides.
-/

namespace Mutability

structure MultiLevel where
  base : Grade
  content : Grade
  deepContent : Grade
  deriving DecidableEq, Repr

namespace MultiLevel

def delayed : MultiLevel := ⟨.delayed, .delayed, .delayed⟩

/-- A grade for the value itself, with nothing holding of its content. -/
def ofBase (g : Grade) : MultiLevel := ⟨g, .no, .no⟩

def components (m : MultiLevel) : List Grade := [m.base, m.content, m.deepContent]

/-- A depth beyond the third changes nothing. -/
def setAt (m : MultiLevel) (depth : Nat) (g : Grade) : MultiLevel :=
  match depth with
  | 0 => { m with base := g }
  | 1 => { m with content := g }
  | 2 => { m with deepContent := g }
  | _ => m

/-- One grade at one depth, the rest delayed. -/
def single (g : Grade) (depth : Nat) : MultiLevel := delayed.setAt depth g

/-- The grade stored at a depth, whatever the lower depths say. -/
def rawAt (m : MultiLevel) : Nat → Grade
  | 0 => m.base
  | 1 => m.content
  | 2 => m.deepContent
  | _ => .no

/-- The grade at a depth, `no` unless every lower depth holds. -/
def readAt (m : MultiLevel) : Nat → Grade
  | 0 => m.base
  | 1 => if m.base.holds then m.content else .no
  | 2 => if m.base.holds && m.content.holds then m.deepContent else .no
  | _ => .no

/-- The deepest depth that reads as holding, with its grade. -/
def best (m : MultiLevel) : Option (Nat × Grade) :=
  [2, 1, 0].findSome? fun depth =>
    if (m.readAt depth).holds then some (depth, m.readAt depth) else none

def isDelayed (m : MultiLevel) : Bool := m.base = .delayed

/-- The packed value, three bits for each depth. -/
def code (m : MultiLevel) : Nat :=
  m.base.codeAt 0 + m.content.codeAt 1 + m.deepContent.codeAt 2

instance : LE MultiLevel := ⟨fun a b => a.code ≤ b.code⟩

instance : DecidableLE MultiLevel := fun a b => inferInstanceAs (Decidable (a.code ≤ b.code))

instance : Ord MultiLevel := ⟨fun a b => compare a.code b.code⟩

/-- Why a packed value cannot be read or a mark cannot be passed. -/
inductive Fault where
  /-- The integer is not the code of three grades. -/
  | invalidCode (value : Int)
  /-- The side of the mark is already known at this depth. -/
  | alreadyPromoted (depth : Nat) (state : Grade)
  deriving DecidableEq, Repr

def Fault.message : Fault → String
  | invalidCode value => s!"invalid packed lattice value {value}"
  | alreadyPromoted depth state =>
    s!"component at depth {depth} was already promoted to " ++ state.text

def ofCode (value : Int) : Except Fault MultiLevel :=
  if value < 0 ∨ 512 ≤ value then .error (.invalidCode value)
  else
    match Grade.ofCode? (value % 8), Grade.ofCode? (value / 8 % 8), Grade.ofCode? (value / 64) with
    | some base, some content, some deepContent => .ok ⟨base, content, deepContent⟩
    | _, _, _ => .error (.invalidCode value)

/-- One grade once the mark is known to be passed or not. -/
def promoteGrade (passed : Bool) (depth : Nat) : Grade → Except Fault Grade
  | .eventual => .ok (if passed then .after else .before)
  | .before => .error (.alreadyPromoted depth .before)
  | .after => .error (.alreadyPromoted depth .after)
  | g => .ok g

/-- Resolves every eventual grade; fails at the first depth whose side is known already. -/
def promote (m : MultiLevel) (passed : Bool) : Except Fault MultiLevel := do
  let base ← promoteGrade passed 0 m.base
  let content ← promoteGrade passed 1 m.content
  let deepContent ← promoteGrade passed 2 m.deepContent
  return ⟨base, content, deepContent⟩

def text (m : MultiLevel) : String :=
  m.base.text ++ "/" ++ m.content.text ++ "/" ++ m.deepContent.text

/-! ## Named values -/

def nullable : MultiLevel := ofBase .no
def notNull : MultiLevel := ofBase .effective
def contentNotNull : MultiLevel := ⟨.effective, .effective, .no⟩
def deepContentNotNull : MultiLevel := ⟨.effective, .effective, .effective⟩

def mutable : MultiLevel := ofBase .no
def shallowImmutable : MultiLevel := ofBase .effective
def deepImmutable : MultiLevel := ⟨.effective, .effective, .no⟩

def dependent : MultiLevel := ofBase .no
def independent : MultiLevel := ofBase .effective

theorem ofCode_code (m : MultiLevel) : ofCode m.code = .ok m := by
  obtain ⟨base, content, deepContent⟩ := m
  cases base <;> cases content <;> cases deepContent <;> rfl

end MultiLevel

end Mutability
