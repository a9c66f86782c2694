import Mutability.Types.Outcome
import Mutability.Types.Supertype

/-!
# Matching a declared type against a use

`matchTypes` finds what the parameters in a declared type stand for in a concrete one. A named
type is matched against the supertype of its name; two different functional interfaces are
matched through their methods, which may lead on without end. `matchBindings` goes as deep as it
takes.
-/

namespace Mutability.Hierarchy

/-- Matches two lists pairwise as long as both last. -/
def matchPairs (visit : TypeExpr → TypeExpr → Bindings → Outcome Bindings) :
    List TypeExpr → List TypeExpr → Bindings → Outcome Bindings
  | declared :: ds, concrete :: cs, known => do
    matchPairs visit ds cs (← visit declared concrete known)
  | _, _, known => .answer known

/-- Matches two functional interfaces: the parameters of their methods, then the results. -/
def matchSignatures (visit : TypeExpr → TypeExpr → Bindings → Outcome Bindings) (h : Hierarchy)
    (declared concrete : TypeExpr) (known : Bindings) : Outcome Bindings := do
  let left ← h.signature? declared
  let right ← h.signature? concrete
  match left, right with
  | some left, some right =>
    if left.parameters.length = right.parameters.length then do
      visit left.result right.result
        (← matchPairs visit left.parameters right.parameters known)
    else return known
  | _, _ => return known

/-- The concrete type seen as one of the declared name. -/
def align (h : Hierarchy) (name own : String) (concrete : TypeExpr) :
    Except Unresolved (Option TypeExpr) :=
  if name = own then .ok (some concrete) else h.supertype? concrete name

/-- The difference of two numbers of array dimensions, cut off at zero. -/
def dimensionsBeyond (arrays less : UInt64) : UInt64 :=
  if less ≤ arrays then arrays - less else 0

/-- Matches within a depth. A parameter is bound by its first occurrence, with the array dimensions
of the occurrence taken off. -/
def matchTypes (h : Hierarchy) :
    Nat → TypeExpr → TypeExpr → Bindings → Outcome Bindings
  | 0, _, _, _ => .unfinished
  | depth + 1, declared, concrete, known =>
    match declared.base, concrete.base with
    | .parameter p, _ =>
      .answer (known.bindNew p { concrete with
        arrays := dimensionsBeyond concrete.arrays declared.arrays })
    | .nominal name, .nominal own =>
      if name ≠ own ∧ h.isFunctional name ∧ h.isFunctional own then
        matchSignatures (h.matchTypes depth) h declared concrete known
      else do
        match ← h.align name own concrete with
        | some aligned =>
          if aligned.arguments.length = declared.arguments.length then
            matchPairs (h.matchTypes depth) declared.arguments aligned.arguments known
          else return known
        | none => return known
    | _, _ => .answer known

/-- How deep a match goes at first; no type and no chain of methods in a program comes near it. -/
def matchDepth : Nat := 10000

/-- What the parameters in a declared type stand for in a concrete one. -/
def matchBindings (h : Hierarchy) (declared concrete : TypeExpr) : Outcome Bindings :=
  .deepen (fun depth => h.matchTypes depth declared concrete .empty) matchDepth

end Mutability.Hierarchy
