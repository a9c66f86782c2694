import Mutability.Types.Bindings

/-!
# Supertypes of concrete types

A declared supertype mentions the parameters of its declaration. Seen from a concrete type they
are replaced by its arguments, one hop at a time.
-/

namespace Mutability.Hierarchy

/-- A declared supertype as seen from `sub`. A raw use of a generic type has raw supertypes. -/
def directSupertype (h : Hierarchy) (sub declared : TypeExpr) : Except Unresolved TypeExpr :=
  match sub.base with
  | .nominal name => do
    let d ← h.require name
    if sub.arguments.isEmpty && !d.formals.isEmpty then return declared.erased
    else return (← h.argumentBindings sub).apply declared
  | _ => .ok declared

/-- What a search for a supertype found, and the names it has been to. -/
abbrev Found := Option TypeExpr × List String

/-- Searches several declared supertypes in turn, up to the first that leads to the name. -/
def firstSupertype (visit : TypeExpr → List String → Except Unresolved Found)
    (concrete : TypeExpr → Except Unresolved TypeExpr) :
    List TypeExpr → List String → Except Unresolved Found
  | [], visited => .ok (none, visited)
  | declared :: rest, visited => do
    match ← visit (← concrete declared) visited with
    | (some found, visited) => return (some found, visited)
    | (none, visited) => firstSupertype visit concrete rest visited

/-- A search of several supertypes that succeeds has searched the first, and ends there or goes on
with the rest. -/
theorem firstSupertype_cons_eq_ok {visit : TypeExpr → List String → Except Unresolved Found}
    {concrete : TypeExpr → Except Unresolved TypeExpr} {declared : TypeExpr} {rest : List TypeExpr}
    {visited : List String} {result : Found}
    (h : firstSupertype visit concrete (declared :: rest) visited = .ok result) :
    ∃ t, concrete declared = .ok t ∧
      ((∃ found visited', visit t visited = .ok (some found, visited') ∧
          result = (some found, visited')) ∨
        ∃ visited', visit t visited = .ok (none, visited') ∧
          firstSupertype visit concrete rest visited' = .ok result) := by
  cases ht : concrete declared with
  | error fault => simp [firstSupertype, ht, bind, Except.bind] at h
  | ok t =>
    refine ⟨t, rfl, ?_⟩
    cases hv : visit t visited with
    | error fault => simp [firstSupertype, ht, hv, bind, Except.bind] at h
    | ok first =>
      simp only [firstSupertype, ht, hv, bind, Except.bind] at h
      obtain ⟨_ | found, visited'⟩ := first
      · exact Or.inr ⟨visited', rfl, h⟩
      · cases h
        exact Or.inl ⟨found, visited', rfl, rfl⟩

/-- Searches the supertype of a name, depth first, going to each name once. Every hop leads from a
declared name that was not visited before, so `size + 1` hops are always enough. -/
def searchSupertype (h : Hierarchy) (name : String) :
    Nat → TypeExpr → List String → Except Unresolved Found
  | 0, _, visited => .ok (none, visited)
  | hops + 1, t, visited =>
    match t.base with
    | .nominal own =>
      if own = name then .ok (some t, visited)
      else if visited.contains own then .ok (none, visited)
      else do
        let d ← h.require own
        firstSupertype (h.searchSupertype name hops) (h.directSupertype t) d.supertypes
          (own :: visited)
    | _ => .ok (none, visited)

/-- A search that succeeds ends at once, without a result or with the type itself, or goes on to the
declared supertypes of a name where it has not been. -/
theorem searchSupertype_succ_eq_ok {h : Hierarchy} {name : String} {hops : Nat} {t : TypeExpr}
    {visited : List String} {result : Found}
    (hr : h.searchSupertype name (hops + 1) t visited = .ok result) :
    ((∀ own, t.base = .nominal own → own ≠ name ∧ own ∈ visited) ∧ result = (none, visited)) ∨
    (t.base = .nominal name ∧ result = (some t, visited)) ∨
    ∃ own d, t.base = .nominal own ∧ own ≠ name ∧ own ∉ visited ∧ h.find? own = some d ∧
      firstSupertype (h.searchSupertype name hops) (h.directSupertype t) d.supertypes
        (own :: visited) = .ok result := by
  rw [searchSupertype] at hr
  split at hr
  · rename_i own hbase
    split at hr
    · rename_i hname
      cases hr
      exact Or.inr (Or.inl ⟨hname ▸ hbase, rfl⟩)
    · rename_i hname
      split at hr
      · rename_i hmem
        cases hr
        refine Or.inl ⟨fun own' hbase' => ?_, rfl⟩
        cases hbase.symm.trans hbase'
        exact ⟨hname, by simpa using hmem⟩
      · rename_i hmem
        cases hd : h.find? own with
        | none => simp [require, hd, bind, Except.bind] at hr
        | some d =>
          simp only [require, hd, bind, Except.bind] at hr
          exact Or.inr (Or.inr ⟨own, d, hbase, hname, by simpa using hmem, hd, hr⟩)
  · rename_i hbase
    cases hr
    exact Or.inl ⟨fun own hown => absurd hown (hbase own), rfl⟩

/-- The supertype of a name as seen from a concrete type, `none` if there is none. Array dimensions
are left aside. -/
def supertype? (h : Hierarchy) (sub : TypeExpr) (name : String) :
    Except Unresolved (Option TypeExpr) :=
  (h.searchSupertype name (h.size + 1) sub.withoutArrays []).map (·.1)

/-- What the parameters of a supertype stand for in a concrete type, nothing if the name is not
that of a supertype. -/
def supertypeBindings (h : Hierarchy) (sub : TypeExpr) (name : String) :
    Except Unresolved Bindings := do
  match ← h.supertype? sub name with
  | some found => h.argumentBindings found
  | none => return .empty

/-! ## Members -/

/-- The method of a functional interface with the arguments of a concrete type put in. -/
def signature? (h : Hierarchy) (t : TypeExpr) : Except Unresolved (Option Signature) :=
  match t.base with
  | .nominal name => do
    match (← h.require name).functional with
    | none => return none
    | some signature =>
      let bindings ← h.argumentBindings t
      return some ⟨signature.parameters.map bindings.apply, bindings.apply signature.result⟩
  | _ => .ok none

/-- The types whose parameters occur at the base of a type. -/
def baseOwner : Base → List String
  | .parameter ⟨some (.type owner), _, _⟩ => [owner]
  | _ => []

mutual

/-- The types whose parameters occur in a type, with repetition. -/
def owners : TypeExpr → List String
  | ⟨base, arguments, _, _⟩ => baseOwner base ++ ownersList arguments

def ownersList : List TypeExpr → List String
  | [] => []
  | t :: ts => owners t ++ ownersList ts

end

/-- Bindings of several supertypes, where the first binding of a parameter counts. -/
def mergeSupertypeBindings (h : Hierarchy) (sub : TypeExpr) :
    List String → Bindings → Except Unresolved Bindings
  | [], known => .ok known
  | name :: names, known => do
    mergeSupertypeBindings h sub names (known.merge (← h.supertypeBindings sub name))

/-- The type of a member, as declared, when it is reached through a concrete owner. -/
def memberType (h : Hierarchy) (declared owner : TypeExpr) : Except Unresolved TypeExpr := do
  let bindings ← h.mergeSupertypeBindings owner (Text.nameSet (owners declared)) .empty
  return bindings.apply declared

end Mutability.Hierarchy
