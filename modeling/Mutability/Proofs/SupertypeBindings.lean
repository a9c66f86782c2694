import Mutability.Proofs.MatchRecovery
import Mutability.Proofs.Resolution

/-!
# What the parameters of a supertype stand for

The bindings of a supertype are collected from the type that a search finds. The types nested in its
arguments bind their own parameters on the way, but its name has been visited by then, so that its
formal parameters stand for its own arguments and for nothing else (`find?_supertypeBindings`).
Matching the declared type against the same use goes through the arguments once, without looking
into them, and comes to the same (`match_eq_supertypeBindings`).
-/

namespace Mutability

/-- What a formal parameter stands for in a use of its declaration. A use with a wrong number of
arguments, such as a raw one, says nothing. -/
def Declaration.bound? (d : Declaration) (use : TypeExpr) (p : TypeParameter) : Option TypeExpr :=
  if use.arguments.length = d.formals.length then d.actuals use.arguments p else none

namespace Hierarchy

variable {h : Hierarchy} {name own : String} {d : Declaration} {sub : TypeExpr}

theorem formals_ne_nil {p : TypeParameter} (hp : p ∈ d.parameters) : d.formals ≠ [] := by
  intro hnil
  simp [Declaration.parameters, hnil] at hp

/-! ## The use that is found -/

theorem argumentBindings_of_arity_ne (hd : h.find? name = some d) (hbase : sub.base = .nominal name)
    (harity : sub.arguments.length ≠ d.formals.length) : h.argumentBindings sub = .ok .empty := by
  obtain ⟨base, arguments, arrays, wildcard⟩ := sub
  cases hbase
  have hrequire : h.require name = .ok d := by simp [require, hd]
  rw [argumentBindings, collect, hrequire]
  simp only [if_neg (Ne.symm harity)]
  split <;> rfl

/-- A formal parameter is bound by the use itself, whatever the types in its arguments bind. -/
theorem find?_argumentBindings_eq (hd : h.find? name = some d) (hbase : sub.base = .nominal name)
    {b : Bindings} (hb : h.argumentBindings sub = .ok b) {p : TypeParameter}
    (hp : p ∈ d.parameters) : b.find? p = d.bound? sub p := by
  unfold Declaration.bound?
  split
  · rename_i harity
    exact find?_argumentBindings hd hbase (formals_ne_nil hp) harity hb hp
  · rename_i harity
    cases hb.symm.trans (argumentBindings_of_arity_ne hd hbase harity)
    rfl

theorem supertype?_eq_ok {seen : Option TypeExpr} (hseen : h.supertype? sub name = .ok seen) :
    ∃ visited, h.searchSupertype name (h.size + 1) sub.withoutArrays [] = .ok (seen, visited) := by
  unfold supertype? at hseen
  cases hresult : h.searchSupertype name (h.size + 1) sub.withoutArrays [] with
  | error fault => simp [hresult, Except.map] at hseen
  | ok result =>
    simp only [hresult, Except.map, Except.ok.injEq] at hseen
    exact ⟨result.2, by rw [← hseen]⟩

theorem base_of_searchSupertype {n : Nat} {t seen : TypeExpr} {visited visited' : List String}
    (hseen : h.searchSupertype name n t visited = .ok (some seen, visited')) :
    seen.base = .nominal name := by
  induction n generalizing t visited with
  | zero => cases hseen
  | succ n ih =>
    rcases searchSupertype_succ_eq_ok hseen with
      ⟨-, hnone⟩ | ⟨hbase, hself⟩ | ⟨own, d, -, -, -, -, hrest⟩
    · cases hnone
    · cases hself
      exact hbase
    · obtain ⟨declared, -, u, before, -, -, hvisit⟩ :=
        firstSupertype_eq_some (fun _ _ _ => subset_searchSupertype) hrest
      exact ih hvisit

theorem base_of_supertype? {seen : TypeExpr} (hseen : h.supertype? sub name = .ok (some seen)) :
    seen.base = .nominal name := by
  obtain ⟨visited, hresult⟩ := supertype?_eq_ok hseen
  exact base_of_searchSupertype hresult

theorem supertypeBindings_eq_ok {b : Bindings} (hb : h.supertypeBindings sub name = .ok b) :
    (h.supertype? sub name = .ok none ∧ b = .empty) ∨
      ∃ seen, h.supertype? sub name = .ok (some seen) ∧ h.argumentBindings seen = .ok b := by
  unfold supertypeBindings at hb
  cases hseen : h.supertype? sub name with
  | error fault => simp [hseen, bind, Except.bind] at hb
  | ok seen =>
    simp only [hseen, bind, Except.bind] at hb
    cases seen with
    | none =>
      cases hb
      exact Or.inl ⟨rfl, rfl⟩
    | some seen => exact Or.inr ⟨seen, rfl, hb⟩

/-- The formal parameters of a name stand for the arguments of the supertype of that name. -/
theorem find?_supertypeBindings (hd : h.find? name = some d) {b : Bindings}
    (hb : h.supertypeBindings sub name = .ok b) {p : TypeParameter} (hp : p ∈ d.parameters) :
    ∃ seen, h.supertype? sub name = .ok seen ∧ b.find? p = seen.bind (d.bound? · p) := by
  rcases supertypeBindings_eq_ok hb with ⟨hnone, rfl⟩ | ⟨seen, hseen, hb⟩
  · exact ⟨none, hnone, rfl⟩
  · exact ⟨some seen, hseen, find?_argumentBindings_eq hd (base_of_supertype? hseen) hb hp⟩

/-! ## Matching the declared type -/

/-- A list of bare parameters is matched by position, the first occurrence first. -/
theorem exists_matchPairs_parameters (depth : Nat) (ps : List TypeParameter)
    (arguments : List TypeExpr) (known : Bindings) :
    ∃ found, matchPairs (h.matchTypes (depth + 1)) (ps.map .parameter) arguments known =
        .answer found ∧
      ∀ p, found.find? p = (known.find? p).or ((ps.zip arguments).lookup p) := by
  induction ps generalizing arguments known with
  | nil => exact ⟨known, rfl, fun p => by simp⟩
  | cons q ps ih =>
    cases arguments with
    | nil => exact ⟨known, rfl, fun p => by simp⟩
    | cons a arguments =>
      obtain ⟨found, hfound, hfind⟩ := ih arguments (known.bindNew q a)
      have hfirst : h.matchTypes (depth + 1) (.parameter q) a known =
          .answer (known.bindNew q a) := by
        obtain ⟨base, inner, arrays, wildcard⟩ := a
        show Outcome.answer (known.bindNew q ⟨base, inner, dimensionsBeyond arrays 0, wildcard⟩) = _
        rw [dimensionsBeyond_zero]
      refine ⟨found, ?_, fun p => ?_⟩
      · rw [List.map_cons, matchPairs, hfirst]
        exact hfound
      · rw [hfind p, Bindings.find?_bindNew, List.zip_cons_cons, List.lookup_cons, Option.or_assoc]
        by_cases hpq : p = q
        · simp [hpq]
        · have hne : (p == q) = false := by simp [hpq]
          simp [hpq, hne]

/-- The type that a use is aligned to differs from the supertype in array dimensions at most. -/
theorem exists_align (hbase : sub.base = .nominal own) {seen : Option TypeExpr}
    (hseen : h.supertype? sub name = .ok seen) :
    ∃ aligned, h.align name own sub = .ok aligned ∧
      aligned.map (·.arguments) = seen.map (·.arguments) := by
  unfold align
  split
  · rename_i hname
    have hself : h.supertype? sub name = .ok (some sub.withoutArrays) := by
      have hbase' : sub.withoutArrays.base = .nominal own := hbase
      rw [supertype?, searchSupertype]
      simp [hbase', hname, Except.map]
    cases hseen.symm.trans hself
    exact ⟨some sub, rfl, rfl⟩
  · exact ⟨seen, hseen, rfl⟩

/-- The first declared supertype is found if it has the name. -/
theorem supertype?_of_first (hbase : sub.base = .nominal own) (hne : own ≠ name)
    (hd : h.find? own = some d) {declared u : TypeExpr} {rest : List TypeExpr}
    (hfirst : d.supertypes = declared :: rest)
    (hu : h.directSupertype sub.withoutArrays declared = .ok u) (hname : u.base = .nominal name) :
    h.supertype? sub name = .ok (some u) := by
  obtain ⟨n, hn⟩ : ∃ n, h.size = n + 1 :=
    Nat.exists_eq_add_one.mpr (List.length_pos_of_mem (List.mem_of_find?_eq_some hd))
  have hbase' : sub.withoutArrays.base = .nominal own := hbase
  rw [supertype?, hn, searchSupertype]
  simp [hbase', hne, require, hd, hfirst, firstSupertype, hu, searchSupertype, hname, bind,
    Except.bind, pure, Except.pure, Except.map]

/-- Matching the type of a declaration against a use binds its formal parameters to the arguments of
the supertype, if these are as many. -/
theorem exists_match_formalType (hd : h.find? name = some d) (hplain : d.functional = none)
    (hbase : sub.base = .nominal own) {seen : Option TypeExpr}
    (hseen : h.supertype? sub name = .ok seen) :
    ∃ found, h.matchBindings d.formalType sub = .answer found ∧
      ∀ p, found.find? p = seen.bind (d.bound? · p) := by
  obtain ⟨aligned, haligned, harguments⟩ := exists_align hbase hseen
  have hformal : d.formalType.base = .nominal name := by rw [← name_of_find? hd]; rfl
  have hfunctional : h.isFunctional name = false := by simp [isFunctional, hd, hplain]
  have hlength : d.formalType.arguments.length = d.formals.length := by
    rw [← d.length_parameters]
    exact List.length_map _
  suffices hfound : ∃ found, h.matchTypes 2 d.formalType sub .empty = .answer found ∧
      ∀ p, found.find? p = seen.bind (d.bound? · p) by
    obtain ⟨found, hfound, hfind⟩ := hfound
    exact ⟨found, matchBindings_eq_answer hfound, hfind⟩
  rw [matchTypes_of_align hformal hbase (Or.inr hfunctional) haligned]
  cases seen with
  | none =>
    cases aligned with
    | none => exact ⟨.empty, rfl, fun _ => rfl⟩
    | some aligned => cases harguments
  | some seen =>
    cases aligned with
    | none => cases harguments
    | some aligned =>
      obtain hsame : aligned.arguments = seen.arguments := Option.some.inj harguments
      simp only [Option.elim_some, hsame, hlength, Option.bind_some, Declaration.bound?]
      split
      · exact exists_matchPairs_parameters 0 d.parameters seen.arguments .empty
      · exact ⟨.empty, rfl, fun _ => rfl⟩

/-- Matching the type of a declaration against a use and collecting the bindings of the supertype of
its name come to the same for every formal parameter: the argument of the supertype, or nothing if
there is no such supertype or it does not have as many arguments as there are formal parameters. -/
theorem match_eq_supertypeBindings (hd : h.find? name = some d) (hplain : d.functional = none)
    (hbase : sub.base = .nominal own) {found b : Bindings}
    (hfound : h.matchBindings d.formalType sub = .answer found)
    (hb : h.supertypeBindings sub name = .ok b) {p : TypeParameter} (hp : p ∈ d.parameters) :
    found.find? p = b.find? p ∧
      ∃ seen, h.supertype? sub name = .ok seen ∧
        b.find? p = seen.bind fun use =>
          if use.arguments.length = d.formals.length then d.actuals use.arguments p else none := by
  obtain ⟨seen, hseen, hbound⟩ := find?_supertypeBindings hd hb hp
  obtain ⟨found', hfound', hfind⟩ := exists_match_formalType hd hplain hbase hseen
  cases hfound.symm.trans hfound'
  exact ⟨(hfind p).trans hbound.symm, seen, hseen, hbound⟩

/-- Arrays of lists of lists of lists, where the element type is bound three times over. -/
theorem nested_lists_match :
    let element : TypeParameter := ⟨some (.type "java.util.List"), 0, "E"⟩
    let lists := fun t => TypeExpr.applied "java.util.List" [t]
    let texts := lists { lists (.nominal "java.lang.String") with wildcard := .upper }
    let sub : TypeExpr := { TypeExpr.applied "java.util.ArrayList" [texts] with arrays := 1 }
    let d := Platform.collection Platform.interfaceOf "java.util.List" "java.util.Collection"
    ∃ found b, Platform.hierarchy.matchBindings d.formalType sub = .answer found ∧
      Platform.hierarchy.supertypeBindings sub "java.util.List" = .ok b ∧
      found.find? element = b.find? element ∧ b.find? element = some texts := by
  intro element lists texts sub d
  let item : TypeParameter := ⟨some (.type "java.util.ArrayList"), 0, "E"⟩
  have hfixed : Fixed texts := fixed_iff.mpr (by decide)
  have hup : Platform.hierarchy.directSupertype sub.withoutArrays (lists (.parameter item)) =
      .ok (lists texts) := by
    obtain ⟨b, hb, hfind⟩ : ∃ b, Platform.hierarchy.argumentBindings sub.withoutArrays = .ok b ∧
      b.find? item = some texts := ⟨_, rfl, rfl⟩
    have hput : (lists (.parameter item)).substitute b.resolved = lists texts := by
      rw [TypeExpr.substitute_of_none rfl]
      simp [lists, TypeExpr.applied, TypeExpr.substitute_parameter,
        resolved_of_fixed hfind hfixed rfl]
    rw [directSupertype_of_arguments
      (d := Platform.collection Platform.classOf "java.util.ArrayList" "java.util.List")
      rfl rfl (by decide) rfl, hb, Except.map, hput]
    rfl
  have hseen : Platform.hierarchy.supertype? sub "java.util.List" = .ok (some (lists texts)) :=
    supertype?_of_first (Eq.refl sub.base) (by decide) rfl rfl hup rfl
  obtain ⟨b, hb⟩ : ∃ b, Platform.hierarchy.supertypeBindings sub "java.util.List" = .ok b :=
    ⟨_, by rw [supertypeBindings, hseen]; rfl⟩
  obtain ⟨found, hfound, -⟩ := exists_match_formalType (d := d) rfl rfl (Eq.refl sub.base) hseen
  obtain ⟨hagree, seen, hseen', hbound⟩ := match_eq_supertypeBindings (d := d) rfl rfl
    (Eq.refl sub.base) hfound hb (p := element) (by decide)
  cases hseen.symm.trans hseen'
  exact ⟨found, b, hfound, hb, hagree, hbound.trans rfl⟩

end Hierarchy

end Mutability
