import Mathlib.Algebra.GroupWithZero.Nat
import Mathlib.Algebra.Order.BigOperators.Group.List
import Mathlib.Algebra.Order.Group.Nat
import Mutability.Proofs.ArgumentInvariance
import Mutability.Proofs.Substitution

/-!
# How deep a translation goes

A translation goes on in two ways. A round of following puts a binding in place of a parameter,
which is blocked from then on (`round?`), and where no round is left the arguments are translated.
Types grow as bindings are put in, but each binding is put in once at most on the way down. So what
counts is how deep the type is nested together with all bindings that are not blocked (`reach`):
both ways to go on make it less, whatever the bindings (`translation_terminates`).
-/

namespace Mutability

namespace TypeExpr

theorem nesting_pos (t : TypeExpr) : 0 < t.nesting := by
  cases t
  rw [nesting]
  omega

theorem nesting_lt_of_mem_arguments {a t : TypeExpr} (ha : a ∈ t.arguments) :
    a.nesting < t.nesting := by
  obtain ⟨base, arguments, arrays, wildcard⟩ := t
  have hle : a.nesting ≤ nestingList arguments := nestingList_le ha
  rw [nesting]
  omega

end TypeExpr

namespace Bindings

open TypeExpr

/-! ## Rounds -/

/-- One round of following, from a type and the parameters that are blocked in it. -/
def round? (b : Bindings) : TypeExpr × List TypeParameter → Option (TypeExpr × List TypeParameter)
  | (t, blocked) =>
    match t.base with
    | .parameter p =>
      if p ∈ blocked then none
      else
        match b.find? p with
        | none => none
        | some bound => if bound.base = t.base then none else some (replace t bound, p :: blocked)
    | _ => none

section Rounds

variable {b : Bindings} {t : TypeExpr} {blocked : List TypeParameter}
  {s s' : TypeExpr × List TypeParameter}

theorem round?_eq_some (hround : b.round? s = some s') :
    ∃ p bound, s.1.base = .parameter p ∧ p ∉ s.2 ∧ b.find? p = some bound ∧
      bound.base ≠ s.1.base ∧ s' = (replace s.1 bound, p :: s.2) := by
  obtain ⟨t, blocked⟩ := s
  simp only [round?] at hround
  split at hround
  · rename_i p hp
    split at hround
    · cases hround
    · rename_i hblocked
      split at hround
      · cases hround
      · rename_i bound hbound
        split at hround
        · cases hround
        · rename_i hne
          cases hround
          exact ⟨p, bound, hp, hblocked, hbound, hne, rfl⟩
  · cases hround

theorem follow_of_round? (hround : b.round? s = some s') :
    b.follow s.2 s.1 = b.follow s'.2 s'.1 := by
  obtain ⟨p, bound, hbase, hblocked, hbound, hne, rfl⟩ := round?_eq_some hround
  exact follow_of_find? hbase hblocked hbound hne

/-- Following stops where there is no round left. -/
theorem follow_of_round?_eq_none (hround : b.round? s = none) : b.follow s.2 s.1 = s := by
  obtain ⟨t, blocked⟩ := s
  refine follow_of_stops ?_
  cases hbase : t.base with
  | nominal | primitive | null | wildcard => trivial
  | parameter p =>
    by_cases hblocked : p ∈ blocked
    · exact Or.inl hblocked
    · refine Or.inr fun bound hbound => ?_
      rw [Option.mem_def] at hbound
      simpa [round?, hbase, hblocked, hbound] using hround

/-! ## Reach -/

/-- How deep all bindings that are not blocked are nested, taken together. -/
def room (b : Bindings) (blocked : List TypeParameter) : Nat :=
  ((b.entries.filter (·.1 ∉ blocked)).map (·.2.nesting)).sum

/-- How deep a type can get with the bindings that are not blocked. -/
def reach (b : Bindings) (s : TypeExpr × List TypeParameter) : Nat := s.1.nesting + b.room s.2

/-- A binding that is blocked takes its own nesting away. -/
theorem room_cons_add_le {p : TypeParameter} {bound : TypeExpr} (hp : p ∉ blocked)
    (hbound : b.find? p = some bound) : bound.nesting + b.room (p :: blocked) ≤ b.room blocked := by
  have hle : ∀ es : List (TypeParameter × TypeExpr),
      ((es.filter (·.1 ∉ p :: blocked)).map (·.2.nesting)).sum ≤
        ((es.filter (·.1 ∉ blocked)).map (·.2.nesting)).sum := by
    intro es
    refine List.Sublist.sum_le_sum (.map _ (List.monotone_filter_right es ?_)) (by simp)
    simp +contextual
  obtain ⟨before, after, happ, -⟩ := List.lookup_eq_some_iff.mp hbound
  have hbefore := hle before
  have hafter := hle after
  have hout : p ∉ p :: blocked ↔ False := by simp
  simp only [room, happ, List.filter_append, List.filter_cons, List.map_append, List.sum_append, hp,
    hout, not_false_eq_true, decide_true, decide_false, Bool.false_eq_true, ↓reduceIte,
    List.map_cons, List.sum_cons]
  omega

theorem reach_round? (hround : b.round? s = some s') : b.reach s' < b.reach s := by
  obtain ⟨p, bound, -, hblocked, hbound, -, rfl⟩ := round?_eq_some hround
  have hroom := room_cons_add_le hblocked hbound
  have hsame : (replace s.1 bound).nesting = bound.nesting := by
    cases bound
    rfl
  have hpos := nesting_pos s.1
  simp only [reach, hsame]
  omega

theorem reach_argument {a : TypeExpr} (ha : a ∈ s.1.arguments) : b.reach (a, s.2) < b.reach s := by
  have hlt := nesting_lt_of_mem_arguments ha
  simp only [reach]
  omega

theorem reach_follow_le (b : Bindings) (s : TypeExpr × List TypeParameter) :
    b.reach (b.follow s.2 s.1) ≤ b.reach s := by
  induction hn : b.reach s using Nat.strongRecOn generalizing s with
  | ind n ih =>
    subst hn
    cases hround : b.round? s with
    | none => rw [follow_of_round?_eq_none hround]
    | some s' =>
      have hlt := reach_round? hround
      have hle := ih (b.reach s') hlt s' rfl
      rw [follow_of_round? hround]
      omega

end Rounds

/-! ## Termination -/

/-- A round of following leads from the second to the first. -/
def Follows (b : Bindings) (s' s : TypeExpr × List TypeParameter) : Prop := b.round? s = some s'

/-- The translation of the second asks for that of the first: an argument of what it is followed to.
-/
def Enters (b : Bindings) (s' s : TypeExpr × List TypeParameter) : Prop :=
  ∃ a ∈ (b.follow s.2 s.1).1.arguments, s' = (a, (b.follow s.2 s.1).2)

/-- The translation within a depth, where each round and each step into the arguments goes down by
one. -/
def translateWithin (b : Bindings) : Nat → TypeExpr × List TypeParameter → Option TypeExpr
  | 0, _ => none
  | depth + 1, s =>
    match b.round? s with
    | some s' => b.translateWithin depth s'
    | none => do
      let arguments ← s.1.arguments.mapM fun a => b.translateWithin depth (a, s.2)
      return { s.1 with arguments := arguments.map boxArgument }

def applyWithin (b : Bindings) (depth : Nat) (t : TypeExpr) : Option TypeExpr :=
  if b.entries.isEmpty then some t else b.translateWithin depth (t, [])

theorem mapM_eq_some_map {α β : Type} {f : α → Option β} {g : α → β} {xs : List α}
    (hxs : ∀ x ∈ xs, f x = some (g x)) : xs.mapM f = some (xs.map g) := by
  induction xs with
  | nil => rfl
  | cons x xs ih =>
    have htail := ih fun y hy => hxs y (List.mem_cons_of_mem x hy)
    simp [List.mapM_cons, hxs x List.mem_cons_self, htail]

/-- A depth that a type cannot go beyond is enough. -/
theorem translateWithin_of_reach_le {b : Bindings} {depth : Nat}
    {s : TypeExpr × List TypeParameter} (hdepth : b.reach s ≤ depth) :
    b.translateWithin depth s = some (b.translate s.2 s.1) := by
  induction depth generalizing s with
  | zero =>
    have hpos := nesting_pos s.1
    simp only [reach] at hdepth
    omega
  | succ depth ih =>
    rw [translateWithin]
    cases hround : b.round? s with
    | some s' =>
      have hlt := reach_round? hround
      have hfound := ih (s := s') (by omega)
      simp only [hfound]
      rw [translate_eq, translate_eq b s.2, follow_of_round? hround]
    | none =>
      have harguments : ∀ a ∈ s.1.arguments,
          b.translateWithin depth (a, s.2) = some (b.translate s.2 a) := by
        intro a ha
        have hlt := reach_argument (b := b) (s := s) ha
        exact ih (s := (a, s.2)) (by omega)
      rw [translate_eq, follow_of_round?_eq_none hround]
      simp [mapM_eq_some_map harguments, Function.comp_def]

/-- Every translation comes to an end, with cyclic bindings too: following and the descent into the
arguments are both well-founded, and going down as deep as the type and all bindings are nested
together is enough for the result. -/
theorem translation_terminates (b : Bindings) :
    WellFounded b.Follows ∧ WellFounded b.Enters ∧
      ∀ t more, b.applyWithin (t.nesting + b.room [] + more) t = some (b.apply t) := by
  refine ⟨?_, ?_, fun t more => ?_⟩
  · exact Subrelation.wf (fun hround => reach_round? hround) (InvImage.wf b.reach Nat.lt_wfRel.wf)
  · refine Subrelation.wf ?_ (InvImage.wf b.reach Nat.lt_wfRel.wf)
    rintro s' s ⟨a, ha, rfl⟩
    exact Nat.lt_of_lt_of_le (reach_argument ha) (b.reach_follow_le s)
  · unfold applyWithin apply
    split
    · rfl
    · exact translateWithin_of_reach_le (s := (t, [])) (Nat.le_add_right _ _)

end Bindings

end Mutability
