import Mutability.Lattice.Level
import Mutability.Lattice.MultiLevel
import Mutability.Lattice.Size

/-!
# Facts

A fact is a value of one of four families, or delayed, which is below every family. Facts of two
families are not comparable.
-/

namespace Mutability

inductive Family where
  | level
  | multiLevel
  | size
  | sizeCopy
  deriving DecidableEq, Repr

def Family.text : Family → String
  | level => "level"
  | multiLevel => "multi-level"
  | size => "size"
  | sizeCopy => "size-copy"

inductive Fact where
  | delayed
  | flag (b : Bool)
  | multi (m : MultiLevel)
  | size (s : Size)
  | sizeCopy (c : SizeCopy)
  deriving DecidableEq, Repr

namespace Fact

def family? : Fact → Option Family
  | delayed => none
  | flag _ => some .level
  | multi _ => some .multiLevel
  | size _ => some .size
  | sizeCopy _ => some .sizeCopy

/-- Nothing is known yet; of a graded fact its base grade decides. -/
def isDelayed : Fact → Bool
  | delayed => true
  | multi m => m.isDelayed
  | _ => false

/-- The level of a single-axis fact; every other fact reads as delayed. -/
def level : Fact → Level
  | flag b => Level.ofBool b
  | _ => .delayed

/-- The grades of a graded fact; every other fact reads as delayed. -/
def grades : Fact → MultiLevel
  | multi m => m
  | _ => .delayed

def size? : Fact → Option Size
  | size s => some s
  | _ => none

def sizeCopy? : Fact → Option SizeCopy
  | sizeCopy c => some c
  | _ => none

/-- The fact as one integer, `-1` when delayed. -/
def code : Fact → Int
  | delayed => -1
  | flag b => if b then 1 else 0
  | multi m => m.code
  | size s => s.code
  | sizeCopy c => c.code

/-- The order of two facts, if they have one. -/
def compare? : Fact → Fact → Option Ordering
  | delayed, delayed => some .eq
  | delayed, _ => some .lt
  | _, delayed => some .gt
  | flag a, flag b => some (compare a b)
  | multi a, multi b => some (compare a b)
  | size a, size b => some (compare a b)
  | sizeCopy a, sizeCopy b => some (compare a b)
  | _, _ => none

instance : LE Fact := ⟨fun a b => compare? a b = some .lt ∨ compare? a b = some .eq⟩

instance : LT Fact := ⟨fun a b => compare? a b = some .lt⟩

instance : DecidableLE Fact := fun a b =>
  inferInstanceAs (Decidable (compare? a b = some .lt ∨ compare? a b = some .eq))

instance : DecidableLT Fact := fun a b =>
  inferInstanceAs (Decidable (compare? a b = some .lt))

def text : Fact → String
  | delayed => "delayed"
  | flag b => if b then "true" else "false"
  | multi m => m.text
  | size s => s.text
  | sizeCopy c => c.text

end Fact

end Mutability
