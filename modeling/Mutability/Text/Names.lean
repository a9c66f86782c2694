/-!
# Sets of names

A set of names is a list in increasing order of code points, without repetition. `nameSet` builds
it from any list; `insertName` adds one name.
-/

namespace Mutability.Text

def insertName (name : String) : List String → List String
  | [] => [name]
  | other :: rest =>
    if name < other then name :: other :: rest
    else if name = other then other :: rest
    else other :: insertName name rest

def nameSet (names : List String) : List String := names.foldr insertName []

theorem mem_insertName (name x : String) (names : List String) :
    x ∈ insertName name names ↔ x = name ∨ x ∈ names := by
  induction names with
  | nil => simp [insertName]
  | cons other rest ih =>
    unfold insertName
    split
    · simp
    · split
      · rename_i h
        simp [h]
      · simp [ih, or_left_comm]

theorem mem_nameSet (x : String) (names : List String) : x ∈ nameSet names ↔ x ∈ names := by
  induction names with
  | nil => simp [nameSet]
  | cons name rest ih =>
    simp only [nameSet, List.foldr_cons, mem_insertName, List.mem_cons]
    rw [show List.foldr insertName [] rest = nameSet rest from rfl, ih]

theorem pairwise_insertName (name : String) {names : List String} (h : names.Pairwise (· < ·)) :
    (insertName name names).Pairwise (· < ·) := by
  induction names with
  | nil => simp [insertName]
  | cons other rest ih =>
    obtain ⟨hother, hrest⟩ := List.pairwise_cons.mp h
    unfold insertName
    split
    · rename_i hlt
      refine List.pairwise_cons.mpr ⟨fun x hx => ?_, h⟩
      rcases List.mem_cons.mp hx with rfl | hx
      · exact hlt
      · exact String.lt_trans hlt (hother x hx)
    · rename_i hle
      split
      · exact h
      · rename_i hne
        refine List.pairwise_cons.mpr ⟨fun x hx => ?_, ih hrest⟩
        rcases (mem_insertName name x rest).mp hx with rfl | hx
        · exact String.not_le.mp fun hxo => hne (String.le_antisymm hxo (String.not_lt.mp hle))
        · exact hother x hx

theorem pairwise_nameSet (names : List String) : (nameSet names).Pairwise (· < ·) := by
  induction names with
  | nil => exact .nil
  | cons name rest ih => exact pairwise_insertName name ih

end Mutability.Text
