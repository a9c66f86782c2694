import Mutability.Marker.Basic

/-!
# Marker sets

What is said of an entity in markers: each one is present or explicitly absent. A set holds a
marker once, its latest verdict counts, and its entries stand in the order of markers.
-/

namespace Mutability

/-- A marker with `true` if it is present and `false` if it is explicitly absent. -/
abbrev Verdict := Marker × Bool

namespace Verdict

def present (marker : Marker) : Verdict := (marker, true)

def absent (marker : Marker) : Verdict := (marker, false)

end Verdict

structure MarkerSet where
  entries : List Verdict
  deriving DecidableEq, Repr

namespace MarkerSet

def empty : MarkerSet := ⟨[]⟩

/-- Inserts before the first entry whose marker is greater. -/
def insertOrdered (verdict : Verdict) : List Verdict → List Verdict
  | [] => [verdict]
  | entry :: rest =>
    match compare verdict.1 entry.1 with
    | .lt => verdict :: entry :: rest
    | _ => entry :: insertOrdered verdict rest

/-- Records a verdict in place of an earlier one on the same marker. -/
def put (set : MarkerSet) (verdict : Verdict) : MarkerSet :=
  ⟨insertOrdered verdict (set.entries.filter (·.1 ≠ verdict.1))⟩

/-- Records verdicts one after the other. -/
def putAll (set : MarkerSet) (verdicts : List Verdict) : MarkerSet := verdicts.foldl put set

def ofList (verdicts : List Verdict) : MarkerSet := empty.putAll verdicts

def present (set : MarkerSet) : List Marker := (set.entries.filter (·.2)).map (·.1)

def absent (set : MarkerSet) : List Marker := (set.entries.filter (!·.2)).map (·.1)

/-- The first present marker of a name. -/
def find? (set : MarkerSet) (name : MarkerName) : Option Marker :=
  set.present.find? (·.name = name)

def contains (set : MarkerSet) (name : MarkerName) : Bool := (set.find? name).isSome

/-- A marker of the name is explicitly absent. -/
def isAbsent (set : MarkerSet) (name : MarkerName) : Bool := set.absent.any (·.name = name)

theorem mem_insertOrdered (x verdict : Verdict) (entries : List Verdict) :
    x ∈ insertOrdered verdict entries ↔ x = verdict ∨ x ∈ entries := by
  induction entries with
  | nil => simp [insertOrdered]
  | cons entry rest ih =>
    unfold insertOrdered
    split
    · simp
    · simp [ih, or_left_comm]

/-- A set after `put` holds the new verdict and the old ones on other markers. -/
theorem mem_put (set : MarkerSet) (x verdict : Verdict) :
    x ∈ (set.put verdict).entries ↔ x = verdict ∨ (x ∈ set.entries ∧ x.1 ≠ verdict.1) := by
  simp [put, mem_insertOrdered]

end MarkerSet

end Mutability
