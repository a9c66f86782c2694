/-!
# Sizes of collections

A size is unknown to apply, a lower bound or an exact count. Its code interleaves the two:
a lower bound of `n` is `2n + 1`, an exact `n` is `2n + 2`, and the order is that of the codes.
-/

namespace Mutability

inductive Size where
  | notASize
  | atLeast (n : UInt32)
  | exactly (n : UInt32)
  deriving DecidableEq, Repr

namespace Size

def code : Size → Nat
  | notASize => 0
  | atLeast n => 2 * n.toNat + 1
  | exactly n => 2 * n.toNat + 2

/-- The count as a 32-bit word, if it fits. -/
def word? (n : Nat) : Option UInt32 :=
  if n < UInt32.size then some (UInt32.ofNat n) else none

def ofCode? (code : Int) : Option Size :=
  if code < 0 then none
  else if code = 0 then some notASize
  else if code % 2 = 1 then (word? ((code.toNat - 1) / 2)).map atLeast
  else (word? ((code.toNat - 2) / 2)).map exactly

instance : LE Size := ⟨fun a b => a.code ≤ b.code⟩

instance : DecidableLE Size := fun a b => inferInstanceAs (Decidable (a.code ≤ b.code))

instance : Ord Size := ⟨fun a b => compare a.code b.code⟩

/-- The least value that says something of a collection. -/
def least : Size := atLeast 0

def text : Size → String
  | notASize => "not a size"
  | atLeast n => s!"min {n.toNat}"
  | exactly n => s!"equals {n.toNat}"

end Size

/-- Whether a value takes its size from the value it is made of. -/
inductive SizeCopy where
  | noCopy
  | copyMin
  | copy
  deriving DecidableEq, Repr

namespace SizeCopy

def code : SizeCopy → Nat
  | noCopy => 0
  | copyMin => 1
  | copy => 2

instance : LE SizeCopy := ⟨fun a b => a.code ≤ b.code⟩

instance : DecidableLE SizeCopy := fun a b => inferInstanceAs (Decidable (a.code ≤ b.code))

instance : Ord SizeCopy := ⟨fun a b => compare a.code b.code⟩

def text : SizeCopy → String
  | noCopy => "no copy"
  | copyMin => "copy min"
  | copy => "copy"

end SizeCopy

end Mutability
