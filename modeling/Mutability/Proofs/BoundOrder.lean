import Mathlib.Data.List.Forall2
import Mathlib.Data.List.Perm.Basic
import Mutability.Proofs.Extension
import Mutability.Proofs.Search

/-!
# The order of bounds

A search goes through the bounds of a parameter in the order in which they are listed and takes the
best of them. No other lookup depends on that order, so that in two hierarchies which differ only in
it a query makes the same move, up to the order of the further queries (`move_reordered`), and the
same visits are under way.

The best of several answers does not depend on their order. But where one of them is missing, the
first that is missing counts: it may be another fault in the other order, or a search without an
end. Hence outcomes agree as far as both are finished, and up to the fault (`Outcome.Agrees`).
-/

namespace Mutability

/-! ## Hierarchies that differ in the order of bounds -/

/-- The same formal parameter, with its bounds in any order. -/
structure Formal.Reordered (f f' : Formal) : Prop where
  name : f'.name = f.name
  bounds : f.bounds.Perm f'.bounds

instance : Std.Refl Formal.Reordered := ⟨fun _ => ⟨rfl, .refl _⟩⟩

theorem Formal.forall₂_reordered_symm {fs fs' : List Formal}
    (hfs : List.Forall₂ Formal.Reordered fs fs') : List.Forall₂ Formal.Reordered fs' fs :=
  (hfs.imp fun _ _ hf => (⟨hf.name.symm, hf.bounds.symm⟩ : flip Formal.Reordered _ _)).flip

/-- The same declaration, with the bounds of each formal parameter in any order. -/
inductive Declaration.Reordered : Declaration → Declaration → Prop where
  | formals {d : Declaration} {formals : List Formal} :
      List.Forall₂ Formal.Reordered d.formals formals →
      Declaration.Reordered d { d with formals := formals }

instance : Std.Refl Declaration.Reordered := ⟨fun _ => .formals (List.forall₂_refl _)⟩

theorem Declaration.Reordered.symm {d d' : Declaration} (hd : d.Reordered d') : d'.Reordered d := by
  obtain ⟨hformals⟩ := hd
  exact .formals (Formal.forall₂_reordered_symm hformals)

/-- The same declarations and methods, with the bounds of formal parameters in any order. -/
structure Hierarchy.BoundsReordered (h h' : Hierarchy) : Prop where
  types : ∀ name, Option.Rel Declaration.Reordered (h.find? name) (h'.find? name)
  methods : ∀ name,
    Option.Rel (List.Forall₂ Formal.Reordered) (h.methods.lookup name) (h'.methods.lookup name)

theorem Hierarchy.find?_reordered {h h' : Hierarchy}
    (hall : List.Forall₂ Declaration.Reordered h.declarations h'.declarations) (name : String) :
    Option.Rel Declaration.Reordered (h.find? name) (h'.find? name) := by
  unfold find?
  generalize h.declarations = ds, h'.declarations = ds' at hall
  induction hall with
  | nil => exact .none
  | @cons d d' ds ds' hd hrest ih =>
    have hname : d'.name = d.name := by
      cases hd
      rfl
    rw [List.find?_cons, List.find?_cons, hname]
    split
    · exact .some hd
    · exact ih

theorem Hierarchy.lookup_reordered {ms ms' : List (String × List Formal)}
    (hall : List.Forall₂
      (fun m m' => m'.1 = m.1 ∧ List.Forall₂ Formal.Reordered m.2 m'.2) ms ms') (name : String) :
    Option.Rel (List.Forall₂ Formal.Reordered) (ms.lookup name) (ms'.lookup name) := by
  induction hall with
  | nil => exact .none
  | @cons m m' ms ms' hm hrest ih =>
    obtain ⟨method, formals⟩ := m
    obtain ⟨method', formals'⟩ := m'
    obtain ⟨rfl, hformals⟩ := hm
    simp only [List.lookup_cons]
    cases name == method' with
    | true => exact .some hformals
    | false => exact ih

theorem optionRel_cases {α : Type} {R : α → α → Prop} {o o' : Option α} (ho : Option.Rel R o o') :
    (o = none ∧ o' = none) ∨ ∃ a b, o = some a ∧ o' = some b ∧ R a b := by
  cases ho with
  | none => exact Or.inl ⟨rfl, rfl⟩
  | some hab => exact Or.inr ⟨_, _, rfl, rfl, hab⟩

theorem optionRel_symm {α : Type} {R S : α → α → Prop} (hRS : ∀ a b, R a b → S b a)
    {o o' : Option α} (ho : Option.Rel R o o') : Option.Rel S o' o := by
  cases ho with
  | none => exact .none
  | some hab => exact .some (hRS _ _ hab)

theorem Formal.getElem?_reordered {fs fs' : List Formal}
    (hfs : List.Forall₂ Formal.Reordered fs fs') (index : Nat) :
    Option.Rel Formal.Reordered fs[index]? fs'[index]? := by
  induction hfs generalizing index with
  | nil => exact .none
  | cons hf hrest ih =>
    cases index with
    | zero => exact .some hf
    | succ index => exact ih index

theorem Declaration.Reordered.sameButBounds {d d' : Declaration} (hd : d.Reordered d') :
    d.SameButBounds d' := by
  obtain ⟨hformals⟩ := hd
  refine ⟨List.ext_getElem? fun index => ?_, rfl, rfl, rfl⟩
  rw [parameters, parameters, List.getElem?_mapIdx, List.getElem?_mapIdx]
  rcases optionRel_cases (Formal.getElem?_reordered hformals index) with
    ⟨hnone, hnone'⟩ | ⟨f, f', hsome, hsome', hf⟩
  · rw [hnone, hnone']
  · rw [hsome, hsome', Option.map_some, Option.map_some, hf.name]

/-! ## Lookups -/

/-- Two lookups both fail, or find things that are related. -/
def FoundAlike {α : Type} (R : α → α → Prop) (x y : Except Unresolved α) : Prop :=
  (∃ fault fault', x = .error fault ∧ y = .error fault') ∨ ∃ a b, x = .ok a ∧ y = .ok b ∧ R a b

theorem foundAlike_of_keptBy {α : Type} {x y : Except Unresolved α} (hxy : KeptBy x y)
    (hyx : KeptBy y x) : FoundAlike Eq x y := by
  cases x with
  | ok a => exact Or.inr ⟨a, a, rfl, hxy a rfl, rfl⟩
  | error fault =>
    cases y with
    | ok b => cases hyx b rfl
    | error fault' => exact Or.inl ⟨fault, fault', rfl, rfl⟩

namespace Hierarchy.BoundsReordered

variable {h h' : Hierarchy} (hbounds : h.BoundsReordered h')

include hbounds

theorem symm : h'.BoundsReordered h :=
  ⟨fun name => optionRel_symm (fun _ _ => Declaration.Reordered.symm) (hbounds.types name),
    fun name => optionRel_symm (fun _ _ => Formal.forall₂_reordered_symm) (hbounds.methods name)⟩

theorem declaredIn : h.DeclaredIn h' where
  find {name d} hd := by
    rcases optionRel_cases (hbounds.types name) with ⟨hnone, -⟩ | ⟨e, d', hsome, hd', hsame⟩
    · cases hd.symm.trans hnone
    · cases hd.symm.trans hsome
      exact ⟨d', hd', hsame.sameButBounds⟩
  isFunctional_eq name := by
    unfold isFunctional
    rcases optionRel_cases (hbounds.types name) with ⟨hnone, hnone'⟩ | ⟨d, d', hsome, hsome', hd⟩
    · rw [hnone, hnone']
    · simp only [hsome, hsome', hd.sameButBounds.functional]

theorem directSupertype_alike (sub declared : TypeExpr) :
    FoundAlike Eq (h.directSupertype sub declared) (h'.directSupertype sub declared) :=
  foundAlike_of_keptBy (hbounds.declaredIn.directSupertype_keptBy sub declared)
    (hbounds.symm.declaredIn.directSupertype_keptBy sub declared)

theorem ownerFormals_alike (p : TypeParameter) :
    FoundAlike (List.Forall₂ Formal.Reordered) (h.ownerFormals p) (h'.ownerFormals p) := by
  unfold ownerFormals
  split
  · exact Or.inl ⟨_, _, rfl, rfl⟩
  · rename_i owner _
    unfold require
    rcases optionRel_cases (hbounds.types owner) with ⟨hx, hy⟩ | ⟨d, d', hx, hy, hd⟩
    · rw [hx, hy]
      exact Or.inl ⟨_, _, rfl, rfl⟩
    · obtain ⟨hformals⟩ := hd
      rw [hx, hy]
      exact Or.inr ⟨_, _, rfl, rfl, hformals⟩
  · rename_i owner _
    rcases optionRel_cases (hbounds.methods owner) with ⟨hx, hy⟩ | ⟨fs, fs', hx, hy, hformals⟩
    · rw [hx, hy]
      exact Or.inl ⟨_, _, rfl, rfl⟩
    · rw [hx, hy]
      exact Or.inr ⟨fs, fs', rfl, rfl, hformals⟩

theorem bounds_alike (p : TypeParameter) :
    FoundAlike List.Perm (h.bounds p) (h'.bounds p) := by
  unfold bounds
  rcases hbounds.ownerFormals_alike p with ⟨fault, fault', hx, hy⟩ | ⟨fs, fs', hx, hy, hformals⟩
  · rw [hx, hy]
    exact Or.inl ⟨fault, fault', rfl, rfl⟩
  · rw [hx, hy]
    simp only [bind, Except.bind]
    rcases optionRel_cases (Formal.getElem?_reordered hformals p.index) with
      ⟨hnone, hnone'⟩ | ⟨f, f', hsome, hsome', hf⟩
    · rw [hnone, hnone']
      exact Or.inl ⟨_, _, rfl, rfl⟩
    · rw [hsome, hsome']
      exact Or.inr ⟨_, _, rfl, rfl, hf.bounds⟩

end Hierarchy.BoundsReordered

/-! ## Outcomes that agree -/

namespace Outcome

variable {α : Type}

/-- Of two finished outcomes both are the same answer, or both are faults. -/
inductive Agrees : Outcome α → Outcome α → Prop where
  | answers (a : α) : Agrees (.answer a) (.answer a)
  | faults (fault fault' : Unresolved) : Agrees (.unresolved fault) (.unresolved fault')
  | unfinishedLeft (y : Outcome α) : Agrees .unfinished y
  | unfinishedRight (x : Outcome α) : Agrees x .unfinished

theorem Agrees.bind {x y : Outcome α} {f g : α → Outcome α} (hxy : x.Agrees y)
    (hfg : ∀ a, (f a).Agrees (g a)) : (x >>= f).Agrees (y >>= g) := by
  cases hxy with
  | answers a => exact hfg a
  | faults fault fault' => exact .faults fault fault'
  | unfinishedLeft => exact .unfinishedLeft _
  | unfinishedRight => exact .unfinishedRight _

theorem Agrees.symm {x y : Outcome α} (hxy : x.Agrees y) : y.Agrees x := by
  cases hxy with
  | answers a => exact .answers a
  | faults fault fault' => exact .faults fault' fault
  | unfinishedLeft => exact .unfinishedRight _
  | unfinishedRight => exact .unfinishedLeft _

theorem Agrees.eq_of_answers {a b : α} (hab : (answer a).Agrees (.answer b)) : a = b := by
  cases hab
  rfl

theorem Agrees.cases_of_finished {x y : Outcome α} (hxy : x.Agrees y) (hx : x ≠ .unfinished)
    (hy : y ≠ .unfinished) :
    (∃ a, x = .answer a ∧ y = .answer a) ∨
      ∃ fault fault', x = .unresolved fault ∧ y = .unresolved fault' := by
  cases hxy with
  | answers a => exact Or.inl ⟨a, rfl, rfl⟩
  | faults fault fault' => exact Or.inr ⟨fault, fault', rfl, rfl⟩
  | unfinishedLeft => exact absurd rfl hx
  | unfinishedRight => exact absurd rfl hy

theorem sequential_agrees : Sequential (Agrees (α := α)) := ⟨.answers, Agrees.bind⟩

theorem agrees_of_no_answers {x y : Outcome α} (hx : ∀ a, x ≠ .answer a)
    (hy : ∀ a, y ≠ .answer a) : x.Agrees y := by
  cases x with
  | answer a => exact absurd rfl (hx a)
  | unfinished => exact .unfinishedLeft y
  | unresolved fault =>
    cases y with
    | answer a => exact absurd rfl (hy a)
    | unfinished => exact .unfinishedRight _
    | unresolved fault' => exact .faults fault fault'

end Outcome

namespace Assignability

/-! ## The best of several queries -/

instance : RightCommutative Distance.better where
  right_comm a b c := by rw [Distance.better_assoc, Distance.better_comm b c, Distance.better_assoc]

theorem bestOf_eq_foldl {answer : Query → Outcome Distance} {f : Query → Distance}
    {qs : List Query} (hqs : ∀ q ∈ qs, answer q = .answer (f q)) (best : Distance) :
    bestOf answer qs best = .answer ((qs.map f).foldl .better best) := by
  induction qs generalizing best with
  | nil => rfl
  | cons q qs ih =>
    rw [bestOf, hqs q List.mem_cons_self]
    exact ih (fun x hx => hqs x (List.mem_cons_of_mem q hx)) _

/-- Where an answer is missing, one that is missing takes the place of the best. -/
theorem bestOf_of_missing {answer : Query → Outcome Distance} {qs : List Query}
    (hmissing : ∃ q ∈ qs, ∀ d, answer q ≠ .answer d) (best : Distance) :
    ∃ q ∈ qs, (∀ d, answer q ≠ .answer d) ∧ bestOf answer qs best = answer q := by
  induction qs generalizing best with
  | nil => simp at hmissing
  | cons q qs ih =>
    cases hq : answer q with
    | answer d =>
      have hrest : ∃ x ∈ qs, ∀ d, answer x ≠ .answer d := by
        obtain ⟨x, hx, hno⟩ := hmissing
        rcases List.mem_cons.mp hx with rfl | hx
        · exact absurd hq (hno d)
        · exact ⟨x, hx, hno⟩
      obtain ⟨x, hx, hno, hbest⟩ := ih hrest (best.better d)
      refine ⟨x, List.mem_cons_of_mem q hx, hno, ?_⟩
      rw [bestOf, hq]
      exact hbest
    | unresolved fault =>
      refine ⟨q, List.mem_cons_self, by simp [hq], ?_⟩
      rw [bestOf, hq]
      rfl
    | unfinished =>
      refine ⟨q, List.mem_cons_self, by simp [hq], ?_⟩
      rw [bestOf, hq]
      rfl

section Best

variable {answer answer' : Query → Outcome Distance} {qs qs' : List Query}

theorem bestOf_agrees_of_missing (hperm : qs.Perm qs')
    (hqs : ∀ q ∈ qs, (answer q).Agrees (answer' q))
    (hmissing : ∃ q ∈ qs, ∀ d, answer q ≠ .answer d) (best : Distance) :
    (bestOf answer qs best).Agrees (bestOf answer' qs' best) := by
  obtain ⟨q, hq, hno, hbest⟩ := bestOf_of_missing hmissing best
  rw [hbest]
  have hagree := hqs q hq
  cases hout : answer q with
  | answer d => exact absurd hout (hno d)
  | unfinished => exact .unfinishedLeft _
  | unresolved fault =>
    -- The same query has no answer on the other side, though another may come first there.
    have hno' : ∀ d, answer' q ≠ .answer d := by
      intro d hd
      rw [hout, hd] at hagree
      cases hagree
    obtain ⟨q', -, hother, hbest'⟩ :=
      bestOf_of_missing ⟨q, hperm.mem_iff.mp hq, hno'⟩ best
    rw [hbest']
    exact Outcome.agrees_of_no_answers nofun hother

/-- The best of several queries does not depend on their order. -/
theorem bestOf_agrees (hperm : qs.Perm qs') (hqs : ∀ q ∈ qs, (answer q).Agrees (answer' q))
    (best : Distance) : (bestOf answer qs best).Agrees (bestOf answer' qs' best) := by
  have : Nonempty Distance := ⟨.equal⟩
  by_cases hall : ∀ q ∈ qs, ∃ d, answer q = .answer d
  · by_cases hall' : ∀ q ∈ qs', ∃ d, answer' q = .answer d
    · choose! f hf using hall
      choose! f' hf' using hall'
      have hmap : qs.map f = qs.map f' := by
        refine List.map_congr_left fun q hq => Outcome.Agrees.eq_of_answers ?_
        rw [← hf q hq, ← hf' q (hperm.mem_iff.mp hq)]
        exact hqs q hq
      rw [bestOf_eq_foldl hf, bestOf_eq_foldl hf', hmap, (hperm.map f').foldl_eq]
      exact .answers _
    · push Not at hall'
      exact (bestOf_agrees_of_missing hperm.symm
        (fun q hq => (hqs q (hperm.mem_iff.mpr hq)).symm) hall' best).symm
  · push Not at hall
    exact bestOf_agrees_of_missing hperm hqs hall best

end Best

/-! ## Moves -/

/-- The same move, with the queries for bounds in any order, or two lookups that failed. -/
inductive Move.Reordered : Move → Move → Prop where
  | same (m : Move) : Move.Reordered m m
  | failed (fault fault' : Unresolved) :
      Move.Reordered (.done (.error fault)) (.done (.error fault'))
  | bounds (visit : Visit) {qs qs' : List Query} :
      qs.Perm qs' → Move.Reordered (.bounds visit qs) (.bounds visit qs')

theorem Move.Reordered.after {α : Type} {R : α → α → Prop} {x y : Except Unresolved α}
    {next next' : α → Move} (hxy : FoundAlike R x y)
    (hnext : ∀ a b, R a b → (next a).Reordered (next' b)) :
    (Move.after x next).Reordered (Move.after y next') := by
  rcases hxy with ⟨fault, fault', rfl, rfl⟩ | ⟨a, b, rfl, rfl, hab⟩
  · exact .failed fault fault'
  · exact hnext a b hab

theorem Move.Reordered.of_keptBy {m m' : Move} (hm : m.KeptBy m') (hm' : m'.KeptBy m) :
    m.Reordered m' := by
  cases hm with
  | same => exact .same m
  | failed fault =>
    cases hm' with
    | same => exact .same _
    | failed fault' => exact .failed fault fault'

theorem againstBoundsMove_reordered (q : Query) (p : TypeParameter)
    {bounds bounds' sources sources' : List TypeExpr} (hbounds : bounds.Perm bounds')
    (hsources : sources.Perm sources') :
    (againstBoundsMove q p bounds sources).Reordered (againstBoundsMove q p bounds' sources') :=
  .bounds _ (hbounds.flatMap fun _ _ => hsources.map _)

section Moves

variable {h h' : Hierarchy} (hbounds : h.BoundsReordered h')

include hbounds

theorem concreteMove_reordered (q : Query) :
    (concreteMove h q).Reordered (concreteMove h' q) :=
  .of_keptBy (concreteMove_keptBy hbounds.declaredIn q)
    (concreteMove_keptBy hbounds.symm.declaredIn q)

theorem parameterTargetMove_reordered (q : Query) (p : TypeParameter) :
    (parameterTargetMove h q p).Reordered (parameterTargetMove h' q p) := by
  refine .after (hbounds.bounds_alike p) fun bounds bounds' hperm => ?_
  rw [hperm.isEmpty_eq]
  split_ifs
  · exact .same _
  · split
    · exact againstBoundsMove_reordered q p hperm (.refl _)
    · exact againstBoundsMove_reordered q p hperm (.refl _)
    · refine .after (hbounds.bounds_alike _) fun sources sources' hsources => ?_
      rw [hsources.isEmpty_eq]
      split_ifs
      · exact .same _
      · exact againstBoundsMove_reordered q p hperm hsources
    · exact .same _

theorem parameterSourceMove_reordered (reversed : List TypeParameter) (q : Query)
    (p : TypeParameter) :
    (parameterSourceMove h reversed q p).Reordered (parameterSourceMove h' reversed q p) := by
  unfold parameterSourceMove
  split_ifs
  · exact .same _
  · exact .after (hbounds.bounds_alike p) fun bounds bounds' hperm => .bounds _ (hperm.map _)

theorem directedMove_reordered (reversed : List TypeParameter) (q : Query) :
    (directedMove h reversed q).Reordered (directedMove h' reversed q) := by
  unfold directedMove
  split_ifs
  · exact .same _
  · exact .same _
  · cases q.target.base with
    | parameter p => exact parameterTargetMove_reordered hbounds q p
    | null | wildcard => exact .same _
    | nominal | primitive =>
      cases q.source.base with
      | parameter p => exact parameterSourceMove_reordered hbounds reversed q p
      | null | wildcard => exact .same _
      | nominal | primitive => exact concreteMove_reordered hbounds q

theorem move_reordered (reversed : List TypeParameter) (q : Query) :
    (move h reversed q).Reordered (move h' reversed q) := by
  unfold move
  split_ifs
  · exact .same _
  · exact .same _
  · exact .same _
  · cases q.mode with
    | contravariant | any => exact .same _
    | invariant | covariant | erasure => exact directedMove_reordered hbounds reversed q

/-! ## Searches -/

theorem Move.run_agrees {reversed : List TypeParameter} {g : Bool} {recur recur' : Answerer}
    {path : List Visit} {m m' : Move} (hm : m.Reordered m')
    (hrecur : ∀ path q, (recur path q).Agrees (recur' path q)) :
    (m.run ⟨h, reversed, g⟩ recur path).Agrees (m'.run ⟨h', reversed, g⟩ recur' path) := by
  have hsame : ∀ result : Except Unresolved Distance,
      (Outcome.ofExcept result).Agrees (.ofExcept result) := by
    rintro (fault | d)
    · exact .faults fault fault
    · exact .answers d
  cases hm with
  | same m =>
    refine run_relates Outcome.sequential_agrees (fun _ _ => rfl) (fun result _ => hsame result) ?_
      fun q _ => hrecur _ q
    rintro v declared - t -
    rcases hbounds.directSupertype_alike v.source t with
      ⟨fault, fault', hx, hy⟩ | ⟨u, u', hx, hy, rfl⟩
    · rw [hx, hy]
      exact .faults fault fault'
    · rw [hx, hy]
      exact hrecur _ _
  | failed fault fault' => exact .faults fault fault'
  | bounds visit hperm =>
    -- A visit has the parameter and not its bounds, so the guard stops both or none.
    rw [run, run]
    exact guarded_relates Outcome.sequential_agrees rfl
      (bestOf_agrees hperm (fun q _ => hrecur _ q) _)

theorem search_agrees (reversed : List TypeParameter) (g : Bool) (depth : Nat)
    (path : List Visit) (q : Query) :
    (search ⟨h, reversed, g⟩ depth path q).Agrees (search ⟨h', reversed, g⟩ depth path q) := by
  induction depth generalizing path q with
  | zero => exact .unfinishedLeft _
  | succ depth ih =>
    rw [search_succ, search_succ]
    exact Move.run_agrees hbounds (move_reordered hbounds reversed q) ih

end Moves

end Assignability

namespace Hierarchy

open Assignability

theorem BoundsReordered.distance_agrees {h h' : Hierarchy} (hbounds : h.BoundsReordered h')
    (reversed : List TypeParameter) (target source : TypeExpr) (mode : Mode) :
    (h.distance reversed target source mode).Agrees (h'.distance reversed target source mode) := by
  obtain ⟨depth, hdepth⟩ := exists_depth_solve ⟨h, reversed, true⟩ ⟨target, source, false, mode⟩
  obtain ⟨depth', hdepth'⟩ := exists_depth_solve ⟨h', reversed, true⟩ ⟨target, source, false, mode⟩
  rw [distance, distance, ← hdepth (max depth depth') (Nat.le_max_left _ _),
    ← hdepth' (max depth depth') (Nat.le_max_right _ _)]
  exact search_agrees hbounds reversed true _ [] _

/-- The order in which the bounds of type and method parameters are listed does not change the
distance of two types. -/
theorem distance_of_boundsReordered {h h' : Hierarchy} (hbounds : h.BoundsReordered h')
    (reversed : List TypeParameter) (target source : TypeExpr) (mode : Mode)
    (hhalts : h.distance reversed target source mode ≠ .unfinished)
    (hhalts' : h'.distance reversed target source mode ≠ .unfinished) :
    (∃ d, h.distance reversed target source mode = .answer d ∧
      h'.distance reversed target source mode = .answer d) ∨
    ∃ fault fault', h.distance reversed target source mode = .unresolved fault ∧
      h'.distance reversed target source mode = .unresolved fault' :=
  (hbounds.distance_agrees reversed target source mode).cases_of_finished hhalts hhalts'

/-- A class parameter with a bound that fits and one that does not, and a method parameter with two
bounds that are not declared. -/
theorem ranked_items_reordered :
    let item : TypeParameter := ⟨some (.type "com.example.Ranked"), 0, "T"⟩
    let picked : TypeParameter := ⟨some (.method "com.example.Ranked.pick"), 0, "U"⟩
    let sequence := TypeExpr.nominal "java.lang.CharSequence"
    let text := TypeExpr.nominal "java.lang.String"
    let comparable := TypeExpr.applied "java.lang.Comparable" [.parameter item]
    let absent := TypeExpr.nominal "com.example.Absent"
    let missing := TypeExpr.nominal "com.example.Missing"
    let withBounds (bounds bounds' : List TypeExpr) : Hierarchy :=
      (Platform.hierarchy.extend
        [⟨"com.example.Ranked", .ofClass, [⟨"T", bounds⟩], none, [], none⟩]).addMethod
        "com.example.Ranked.pick" [⟨"U", bounds'⟩]
    let h := withBounds [comparable, text] [absent, missing]
    let h' := withBounds [text, comparable] [missing, absent]
    h.BoundsReordered h' ∧
      (∃ d, h.distance [] sequence (.parameter item) .covariant = .answer d ∧
        h'.distance [] sequence (.parameter item) .covariant = .answer d) ∧
      ∃ fault fault',
        h.distance [] sequence (.parameter picked) .covariant = .unresolved fault ∧
          h'.distance [] sequence (.parameter picked) .covariant = .unresolved fault' := by
  intro item picked sequence text comparable absent missing withBounds h h'
  have hreordered : h.BoundsReordered h' := by
    refine ⟨find?_reordered (.cons (.formals ?_) (List.forall₂_refl _)),
      lookup_reordered (.cons ⟨rfl, ?_⟩ .nil)⟩
    · exact .cons ⟨rfl, .swap _ _ _⟩ .nil
    · exact .cons ⟨rfl, .swap _ _ _⟩ .nil
  have hitem : h.distance [] sequence (.parameter item) .covariant = .answer .hop :=
    solve_eq_answer (n := 5) (by decide +kernel)
  have hitem' : h'.distance [] sequence (.parameter item) .covariant = .answer .hop :=
    solve_eq_answer (n := 5) (by decide +kernel)
  have hpicked : h.distance [] sequence (.parameter picked) .covariant =
      .unresolved (.type "com.example.Absent") :=
    (solve_eq_of_search (n := 5) (by decide +kernel)).trans (by decide +kernel)
  have hpicked' : h'.distance [] sequence (.parameter picked) .covariant =
      .unresolved (.type "com.example.Missing") :=
    (solve_eq_of_search (n := 5) (by decide +kernel)).trans (by decide +kernel)
  refine ⟨hreordered, ?_, ?_⟩
  · exact (distance_of_boundsReordered hreordered [] sequence (.parameter item) .covariant
      (by simp [hitem]) (by simp [hitem'])).resolve_right (by simp [hitem])
  · exact (distance_of_boundsReordered hreordered [] sequence (.parameter picked) .covariant
      (by simp [hpicked]) (by simp [hpicked'])).resolve_left (by simp [hpicked])

end Hierarchy

end Mutability
