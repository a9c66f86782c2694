import Mathlib.Data.Nat.Find
import Mutability.Proofs.Depth
import Mutability.Proofs.Search

/-!
# The guard against visits under way

A visit that is under way already is stopped, with the answer that it is not assignable. This never
changes an outcome: where the search without the guard comes to an end, the guarded search has the
same outcome (`distance_eq_unguarded`).

A query that is entered again while it is under way would not be at its end either. But a visit
says less than its query: the wildcard of a source that is compared with bounds is left out. Two
queries of one visit are therefore either answered by the same move, or by comparing the same bounds
with sources that agree (`Makes.eq_or_sameBounds`), and then one of them comes to an end at most one
step after the other (`unguarded_endsLike`). At the least depth that is enough, no visit under way
can be entered again (`Pending.visit_ne`).
-/

namespace Mutability

namespace Outcome

variable {α β : Type}

theorem ExtendsTo.antisymm {x y : Outcome α} (hxy : x.ExtendsTo y) (hyx : y.ExtendsTo x) :
    x = y := by
  by_cases hx : x = .unfinished
  · by_cases hy : y = .unfinished
    · rw [hx, hy]
    · exact hyx hy
  · exact (hxy hx).symm

/-- If the first outcome is finished, the second is too, and they are answers or the same fault. -/
inductive EndsLike : Outcome α → Outcome α → Prop where
  | answers (a b : α) : EndsLike (.answer a) (.answer b)
  | faults (fault : Unresolved) : EndsLike (.unresolved fault) (.unresolved fault)
  | unfinished (y : Outcome α) : EndsLike .unfinished y

theorem EndsLike.ne_unfinished {x y : Outcome α} (hxy : x.EndsLike y) (hx : x ≠ .unfinished) :
    y ≠ .unfinished := by
  cases hxy with
  | answers a b => exact nofun
  | faults fault => exact nofun
  | unfinished y => exact absurd rfl hx

theorem ExtendsTo.endsLike {x y : Outcome α} (hxy : x.ExtendsTo y) : x.EndsLike y := by
  cases x with
  | answer a => rw [hxy nofun]; exact .answers a a
  | unresolved fault => rw [hxy nofun]; exact .faults fault
  | unfinished => exact .unfinished y

theorem ExtendsTo.endsLike_answer {x : Outcome α} {a : α} (hx : x.ExtendsTo (.answer a)) (b : α) :
    x.EndsLike (.answer b) := by
  cases hx.endsLike with
  | answers => exact .answers _ b
  | unfinished => exact .unfinished _

theorem EndsLike.bind {x y : Outcome α} {f g : α → Outcome β} (hxy : x.EndsLike y)
    (hfg : ∀ a b, (f a).EndsLike (g b)) : (x >>= f).EndsLike (y >>= g) := by
  cases hxy with
  | answers a b => exact hfg a b
  | faults fault => exact .faults fault
  | unfinished y => exact .unfinished _

end Outcome

/-- The two types have the same base and arguments; array dimensions and wildcards of their own may
differ. -/
def TypeExpr.Agrees (a b : TypeExpr) : Prop := a.base = b.base ∧ a.arguments = b.arguments

theorem TypeExpr.Agrees.refl (t : TypeExpr) : t.Agrees t := ⟨rfl, rfl⟩

theorem TypeExpr.Agrees.symm {a b : TypeExpr} (hab : a.Agrees b) : b.Agrees a :=
  ⟨hab.1.symm, hab.2.symm⟩

theorem TypeExpr.Agrees.trans {a b c : TypeExpr} (hab : a.Agrees b) (hbc : b.Agrees c) :
    a.Agrees c :=
  ⟨hab.1.trans hbc.1, hab.2.trans hbc.2⟩

namespace Hierarchy

variable {h : Hierarchy} {a b : TypeExpr}

theorem argumentBindings_of_agrees (hab : a.Agrees b) :
    h.argumentBindings a = h.argumentBindings b := by
  obtain ⟨base, arguments, arrays, wildcard⟩ := a
  obtain ⟨base', arguments', arrays', wildcard'⟩ := b
  obtain ⟨rfl, rfl⟩ : base = base' ∧ arguments = arguments' := hab
  simp only [argumentBindings, collect]

theorem signature?_of_agrees (hab : a.Agrees b) : h.signature? a = h.signature? b := by
  simp only [signature?, hab.1, argumentBindings_of_agrees hab]

theorem directSupertype_of_agrees (hab : a.Agrees b) (declared : TypeExpr) :
    h.directSupertype a declared = h.directSupertype b declared := by
  simp only [directSupertype, hab.1, hab.2, argumentBindings_of_agrees hab]

end Hierarchy

namespace Assignability

variable {h : Hierarchy} {reversed : List TypeParameter}

/-! ## Searches without a guard -/

/-- Without a guard the visits under way do not matter. -/
theorem search_unguarded_path (depth : Nat) (path path' : List Visit) (q : Query) :
    search ⟨h, reversed, false⟩ depth path q = search ⟨h, reversed, false⟩ depth path' q := by
  induction depth generalizing path path' q with
  | zero => rfl
  | succ depth ih =>
    rw [search_succ, search_succ]
    apply Outcome.ExtendsTo.antisymm
    · exact Move.run_extendsTo (fun _ _ => rfl) fun q' _ _ => ih _ _ q'
    · exact Move.run_extendsTo (fun _ _ => rfl) fun q' _ _ => ih _ _ q'

/-- The outcome of a query without a guard. -/
abbrev unguarded (h : Hierarchy) (reversed : List TypeParameter) (depth : Nat) (q : Query) :
    Outcome Distance :=
  search ⟨h, reversed, false⟩ depth [] q

theorem trivial_eq_false_of_not_agrees {q : Query} (hagrees : ¬ q.target.Agrees q.source) :
    q.trivial = false := by
  have hne : q.target ≠ q.source := fun heq => hagrees (by rw [heq]; exact ⟨rfl, rfl⟩)
  have hignoring : q.target.equalsIgnoringArrays q.source = false := by
    by_contra hequal
    simp only [TypeExpr.equalsIgnoringArrays, Bool.not_eq_false, Bool.and_eq_true,
      decide_eq_true_eq] at hequal
    exact hagrees ⟨hequal.1.1, hequal.2⟩
  simp [Query.trivial, hne, hignoring]

/-! ## A source that agrees with the target -/

/-- In this mode nothing of the source but its own base and wildcard is compared: it has no
arguments that could be, and no supertypes are looked at. -/
def Rigid (source : TypeExpr) (mode : Mode) : Prop :=
  (∃ p, source.base = .primitive p) ∨ (mode = .invariant ∧ source.arguments = [])

/-- Types that agree are compared at once, and fit unless wildcards matter, or are compared by their
equal arguments. -/
theorem directedMove_of_agrees {q : Query} (hagrees : q.target.Agrees q.source)
    (hsource : IsConcrete q.source.base) (hignore : q.ignoreArrays = true) :
    (∃ d, directedMove h reversed q = .done (.ok d) ∧
      (¬ Rigid q.source q.mode → d.isAssignable = true)) ∨
      directedMove h reversed q =
        .sum (List.zipWith (argumentQuery q.mode) q.target.arguments q.target.arguments) := by
  unfold directedMove
  split_ifs
  · exact Or.inl ⟨_, rfl, fun _ => rfl⟩
  · exact Or.inl ⟨_, rfl, fun _ => rfl⟩
  · rw [hagrees.1]
    cases hq : q.source.base with
    | nominal name =>
      have hsame : concreteMove h q = sameNameMove q.target q.source q.mode := by
        simp [concreteMove, hignore, hagrees.1, hq]
      simp only [hsame, sameNameMove, ← hagrees.2]
      split_ifs with herasure hempty hlength
      · exact Or.inl ⟨_, rfl, fun _ => rfl⟩
      · refine Or.inl ⟨_, rfl, fun hrigid => ?_⟩
        have harguments : q.source.arguments = [] := by simpa [← hagrees.2] using hempty
        have hmode : q.mode ≠ .invariant := fun hmode => hrigid (Or.inr ⟨hmode, harguments⟩)
        rw [compareWildcards, if_pos (Or.inr (Or.inl hmode))]
        rfl
      · exact absurd rfl hlength
      · exact Or.inr rfl
    | primitive p =>
      have hwidening : concreteMove h q = .done (.ok (p.widening p q.mode)) := by
        simp [concreteMove, hignore, hagrees.1, hq]
      exact Or.inl ⟨_, hwidening, fun hrigid => absurd (Or.inl ⟨p, hq⟩) hrigid⟩
    | parameter | null | wildcard => simp [hq, IsConcrete] at hsource

/-- Equal arguments are compared by queries that are decided at once. -/
theorem trivial_of_mem_zipWith {mode : Mode} {ts : List TypeExpr} {q : Query}
    (hq : q ∈ List.zipWith (argumentQuery mode) ts ts) : q.trivial = true := by
  rw [List.zipWith_self] at hq
  obtain ⟨t, -, rfl⟩ := List.mem_map.mp hq
  simp [Query.trivial, argumentQuery]

theorem exists_unguarded_of_agrees (h : Hierarchy) (reversed : List TypeParameter) {q : Query}
    (hagrees : q.target.Agrees q.source) (hsource : IsConcrete q.source.base)
    (hignore : q.ignoreArrays = true) (hmode : Directed q.mode) (depth : Nat) :
    ∃ d, unguarded h reversed (depth + 2) q = .answer d := by
  rw [unguarded, search_succ]
  cases htrivial : q.trivial with
  | true =>
    rw [move_of_trivial htrivial]
    exact ⟨_, rfl⟩
  | false =>
    rw [move_of_directed hmode hsource htrivial]
    rcases directedMove_of_agrees hagrees hsource hignore with ⟨d, hd, -⟩ | hsum
    · rw [hd]
      exact ⟨d, rfl⟩
    · rw [hsum]
      have hanswers : ∀ q' ∈ List.zipWith (argumentQuery q.mode) q.target.arguments
          q.target.arguments, ∃ d, unguarded h reversed (depth + 1) q' = .answer d := by
        intro q' hq'
        refine ⟨.equal, ?_⟩
        rw [unguarded, search_succ, move_of_trivial (trivial_of_mem_zipWith hq')]
        rfl
      obtain ⟨total, htotal, _⟩ := exists_sumOf hanswers .equal
      exact ⟨total, htotal⟩

/-! ## Two sources that agree -/

/-- The same move, or a climb to the same supertypes from sources that agree. -/
inductive Alike : Move → Move → Prop where
  | same (m : Move) : Alike m m
  | climb (target : TypeExpr) {source source' : TypeExpr} (hsources : source.Agrees source')
      (mode : Mode) (declared : List TypeExpr) :
      Alike (.climb ⟨target, source, mode⟩ declared) (.climb ⟨target, source', mode⟩ declared)

theorem Alike.run_eq {m m' : Move} (halike : Alike m m') (depth : Nat) :
    m.run ⟨h, reversed, false⟩ (search ⟨h, reversed, false⟩ depth) [] =
      m'.run ⟨h, reversed, false⟩ (search ⟨h, reversed, false⟩ depth) [] := by
  cases halike with
  | same => rfl
  | climb target hsources mode declared =>
    simp only [Move.run, guarded, Bool.false_and, Bool.false_eq_true, ↓reduceIte,
      Hierarchy.directSupertype_of_agrees hsources]
    congr 1
    funext declared
    congr 1
    funext concrete
    exact search_unguarded_path depth _ _ _

section Sources

variable {bound source source' : TypeExpr} (hsources : source.Agrees source')

include hsources

/-- Types of one name are compared by their wildcards only if neither has arguments. -/
theorem sameNameMove_of_agrees (hargs : bound.arguments ≠ source.arguments) (mode : Mode) :
    sameNameMove bound source mode = sameNameMove bound source' mode := by
  have hempty : (bound.arguments.isEmpty && source.arguments.isEmpty) = false := by
    cases hb : bound.arguments with
    | cons => simp
    | nil =>
      cases hs : source.arguments with
      | cons => simp
      | nil => exact absurd (hb.trans hs.symm) hargs
  simp only [sameNameMove, ← hsources.2, hempty, Bool.false_eq_true, ↓reduceIte]

theorem differentNamesMove_alike (boundName sourceName : String) (mode : Mode) :
    Alike (differentNamesMove h bound source boundName sourceName mode)
      (differentNamesMove h bound source' boundName sourceName mode) := by
  unfold differentNamesMove
  split_ifs
  · simp only [compareFunctional, Hierarchy.signature?_of_agrees hsources]
    exact .same _
  · cases h.require sourceName with
    | error fault => exact .same _
    | ok d => exact .climb bound hsources mode _
  · exact .same _

/-- A bound that is no parameter is compared with both in the same way, unless it agrees with
them. -/
theorem directedMove_alike (hbound : bound.parameter? = none) (hsource : IsConcrete source.base)
    (hagrees : ¬ bound.Agrees source) (mode : Mode) :
    Alike (directedMove h reversed ⟨bound, source, true, mode⟩)
      (directedMove h reversed ⟨bound, source', true, mode⟩) := by
  unfold directedMove
  simp only [Query.topTakes, Bool.true_or]
  split_ifs
  · exact .same _
  · exact .same _
  · cases hb : bound.base with
    | parameter p => simp [TypeExpr.parameter?, hb] at hbound
    | null | wildcard => exact .same _
    | nominal boundName =>
      cases hs : source.base with
      | parameter | null | wildcard => simp [hs, IsConcrete] at hsource
      | primitive p =>
        simp only [concreteMove, hb, hs, ← hsources.1, Bool.not_true, Bool.false_and,
          Bool.false_eq_true, ↓reduceIte]
        exact .same _
      | nominal sourceName =>
        simp only [concreteMove, hb, hs, ← hsources.1, Bool.not_true, Bool.false_and,
          Bool.false_eq_true, ↓reduceIte]
        split_ifs with hname
        · rw [sameNameMove_of_agrees hsources]
          · exact .same _
          · exact fun hargs => hagrees ⟨by rw [hb, hs, hname], hargs⟩
        · exact differentNamesMove_alike hsources boundName sourceName mode
    | primitive p =>
      cases hs : source.base with
      | parameter | null | wildcard => simp [hs, IsConcrete] at hsource
      | primitive | nominal =>
        simp only [concreteMove, hb, hs, ← hsources.1, Bool.not_true, Bool.false_and,
          Bool.false_eq_true, ↓reduceIte]
        exact .same _

end Sources

/-! ## Bounds of a target -/

theorem boundQueries_one (bounds : List TypeExpr) (source : TypeExpr) (mode : Mode) :
    boundQueries bounds [source] mode = bounds.map fun bound => ⟨bound, source, true, mode⟩ := by
  simp [boundQueries, List.map_eq_flatMap]

theorem run_againstBoundsMove (q : Query) (p : TypeParameter) (bounds : List TypeExpr)
    (depth : Nat) (path : List Visit) :
    (againstBoundsMove q p bounds [q.source]).run ⟨h, reversed, false⟩
        (search ⟨h, reversed, false⟩ depth) path =
      bestOf (unguarded h reversed depth)
        (bounds.map fun bound => ⟨bound, q.source, true, q.mode⟩) .notAssignable := by
  simp only [againstBoundsMove, Move.run, guarded, Bool.false_and, Bool.false_eq_true, ↓reduceIte,
    boundQueries_one]
  congr 1
  funext q'
  exact search_unguarded_path depth _ _ q'

theorem bestOf_endsLike {answer answer' : Query → Outcome Distance} {α : Type} {f f' : α → Query}
    {xs : List α} (hxs : ∀ x ∈ xs, (answer (f x)).EndsLike (answer' (f' x)))
    (best best' : Distance) :
    (bestOf answer (xs.map f) best).EndsLike (bestOf answer' (xs.map f') best') := by
  induction xs generalizing best best' with
  | nil => exact .answers _ _
  | cons x xs ih =>
    exact (hxs x List.mem_cons_self).bind fun a b =>
      ih (fun y hy => hxs y (List.mem_cons_of_mem x hy)) _ _

section Bounds

variable {bound source source' : TypeExpr} (hsources : source.Agrees source')
  (hsource : IsConcrete source.base) {mode : Mode} (hmode : Directed mode)

include hsource hmode in
theorem move_of_parameter {p : TypeParameter} (hbound : bound.base = .parameter p) :
    move h reversed ⟨bound, source, true, mode⟩ = .after (h.bounds p) fun bounds =>
      if bounds.isEmpty then .done (.ok .hop)
      else againstBoundsMove ⟨bound, source, true, mode⟩ p bounds [source] := by
  have hagrees : ¬ bound.Agrees source :=
    fun hagrees => hsource.ne_parameter p (hagrees.1.symm.trans hbound)
  rw [move_of_directed hmode hsource (trivial_eq_false_of_not_agrees hagrees),
    directedMove_of_parameter hbound, parameterTargetMove_of_concrete hsource]

include hsources hsource hmode

theorem endsLike_of_parameter {p : TypeParameter} (hbound : bound.base = .parameter p) {n : Nat}
    (ih : ∀ b, (unguarded h reversed n ⟨b, source, true, mode⟩).EndsLike
      (unguarded h reversed (n + 1) ⟨b, source', true, mode⟩)) :
    (unguarded h reversed (n + 1) ⟨bound, source, true, mode⟩).EndsLike
      (unguarded h reversed (n + 2) ⟨bound, source', true, mode⟩) := by
  have hsource' : IsConcrete source'.base := hsources.1 ▸ hsource
  rw [unguarded, unguarded, search_succ, search_succ, move_of_parameter hsource hmode hbound,
    move_of_parameter hsource' hmode hbound, run_after, run_after]
  cases h.bounds p with
  | error fault => exact .faults fault
  | ok bounds =>
    show Outcome.EndsLike (Move.run _ _ _ (if _ then _ else _))
      (Move.run _ _ _ (if _ then _ else _))
    split_ifs
    · exact .answers _ _
    · rw [run_againstBoundsMove, run_againstBoundsMove]
      exact bestOf_endsLike (fun b _ => ih b) _ _

theorem endsLike_of_agrees (hagrees : bound.Agrees source) (n : Nat) :
    (unguarded h reversed (n + 1) ⟨bound, source, true, mode⟩).EndsLike
      (unguarded h reversed (n + 2) ⟨bound, source', true, mode⟩) := by
  have hsource' : IsConcrete source'.base := hsources.1 ▸ hsource
  obtain ⟨d, hd⟩ := exists_unguarded_of_agrees h reversed (q := ⟨bound, source, true, mode⟩)
    hagrees hsource rfl hmode n
  obtain ⟨d', hd'⟩ := exists_unguarded_of_agrees h reversed (q := ⟨bound, source', true, mode⟩)
    (hagrees.trans hsources) hsource' rfl hmode n
  rw [hd']
  refine Outcome.ExtendsTo.endsLike_answer (a := d) ?_ d'
  rw [← hd]
  exact search_extendsTo _ (Nat.le_succ (n + 1)) [] _

theorem unguarded_eq_of_not_agrees (hbound : bound.parameter? = none)
    (hagrees : ¬ bound.Agrees source) (n : Nat) :
    unguarded h reversed (n + 1) ⟨bound, source, true, mode⟩ =
      unguarded h reversed (n + 1) ⟨bound, source', true, mode⟩ := by
  have hsource' : IsConcrete source'.base := hsources.1 ▸ hsource
  have hagrees' : ¬ bound.Agrees source' := fun hbound => hagrees (hbound.trans hsources.symm)
  rw [unguarded, unguarded, search_succ, search_succ,
    move_of_directed hmode hsource (trivial_eq_false_of_not_agrees hagrees),
    move_of_directed hmode hsource' (trivial_eq_false_of_not_agrees hagrees')]
  exact (directedMove_alike hsources hbound hsource hagrees mode).run_eq n

/-- A search against bounds that ends for one source ends for every other that agrees with it, at
most one step later. -/
theorem unguarded_endsLike (n : Nat) (bound : TypeExpr) :
    (unguarded h reversed n ⟨bound, source, true, mode⟩).EndsLike
      (unguarded h reversed (n + 1) ⟨bound, source', true, mode⟩) := by
  induction n generalizing bound with
  | zero => exact .unfinished _
  | succ n ih =>
    cases hbound : bound.parameter? with
    | some p =>
      have hbase : bound.base = .parameter p := TypeExpr.parameter?_eq_some_iff.mp hbound
      exact endsLike_of_parameter hsources hsource hmode hbase ih
    | none =>
      by_cases hagrees : bound.Agrees source
      · exact endsLike_of_agrees hsources hsource hmode hagrees n
      · rw [unguarded_eq_of_not_agrees hsources hsource hmode hbound hagrees]
        exact (search_extendsTo _ (Nat.le_succ (n + 1)) [] _).endsLike

end Bounds

/-! ## Visits -/

/-- Both queries have the bounds of one parameter compared with their sources, which agree. -/
structure SameBounds (q q' : Query) (m m' : Move) : Prop where
  directed : Directed q.mode
  mode_eq : q.mode = q'.mode
  concrete : IsConcrete q.source.base
  sources : q.source.Agrees q'.source
  moves : ∃ p bounds, m = againstBoundsMove q p bounds [q.source] ∧
    m' = againstBoundsMove q' p bounds [q'.source]

/-- One visit stands for one move, up to the wildcard of a source that is compared with bounds. -/
theorem Makes.eq_or_sameBounds {q q' : Query} {v : Visit} {m m' : Move}
    (hm : Makes h reversed q m) (hm' : Makes h reversed q' m') (hv : m.visit? = some v)
    (hv' : m'.visit? = some v) : m = m' ∨ SameBounds q q' m m' := by
  obtain ⟨htarget, hsource, hmode⟩ := hm.visit_bases hv
  obtain ⟨htarget', hsource', hmode'⟩ := hm'.visit_bases hv'
  have htargets : q.target.base = q'.target.base := htarget.symm.trans htarget'
  have hsources : q.source.base = q'.source.base := hsource.symm.trans hsource'
  have hmodes : q.mode = q'.mode := hmode.symm.trans hmode'
  clear htarget hsource hmode htarget' hsource' hmode'
  have hvisits : m.visit? = m'.visit? := hv.trans hv'.symm
  cases hm with
  | done | flip | both | elements | arguments | swap => cases hv
  | climb htarget hsource hd =>
    cases hm' with
    | done | flip | both | elements | arguments | swap => cases hv'
    | climb htarget' hsource' hd' =>
      simp only [Move.visit?, Option.some.injEq] at hvisits
      cases hsource.symm.trans (hsources.trans hsource')
      cases hd.symm.trans hd'
      exact Or.inl (by rw [hvisits])
    | sourceBounds _ hsource' => exact nomatch hsource.symm.trans (hsources.trans hsource')
    | targetBounds _ htarget' => exact absurd (htargets.trans htarget') (htarget.ne_parameter _)
    | bothBounds htarget' => exact absurd (htargets.trans htarget') (htarget.ne_parameter _)
  | sourceBounds htarget hsource hbounds =>
    cases hm' with
    | done | flip | both | elements | arguments | swap => cases hv'
    | sourceBounds htarget' hsource' hbounds' =>
      simp only [Move.visit?, Option.some.injEq, Visit.mk.injEq] at hvisits
      cases hsource.symm.trans (hsources.trans hsource')
      cases hbounds.symm.trans hbounds'
      exact Or.inl (by rw [hvisits.1, hmodes])
    | climb _ hsource' => exact nomatch hsource.symm.trans (hsources.trans hsource')
    | targetBounds _ htarget' => exact absurd (htargets.trans htarget') (htarget.ne_parameter _)
    | bothBounds htarget' => exact absurd (htargets.trans htarget') (htarget.ne_parameter _)
  | targetBounds hmode htarget hbounds hsource =>
    cases hm' with
    | done | flip | both | elements | arguments | swap => cases hv'
    | targetBounds hmode' htarget' hbounds' hsource' =>
      simp only [againstBoundsMove, Move.visit?, Option.some.injEq, Visit.mk.injEq,
        TypeExpr.mk.injEq] at hvisits
      cases htarget.symm.trans (htargets.trans htarget')
      cases hbounds.symm.trans hbounds'
      exact Or.inr ⟨hmode, hmodes, hsource, ⟨hsources, hvisits.2.1.2.1⟩, _, _, rfl, rfl⟩
    | climb htarget' => exact absurd (htargets.symm.trans htarget) (htarget'.ne_parameter _)
    | sourceBounds htarget' => exact absurd (htargets.symm.trans htarget) (htarget'.ne_parameter _)
    | bothBounds _ _ hsource' => exact absurd (hsources.trans hsource') (hsource.ne_parameter _)
  | bothBounds htarget hbounds hsource hbounds₁ =>
    cases hm' with
    | done | flip | both | elements | arguments | swap => cases hv'
    | bothBounds htarget' hbounds' hsource' hbounds₁' =>
      cases htarget.symm.trans (htargets.trans htarget')
      cases hbounds.symm.trans hbounds'
      cases hsource.symm.trans (hsources.trans hsource')
      cases hbounds₁.symm.trans hbounds₁'
      simp only [againstBoundsMove, Move.visit?, Option.some.injEq] at hvisits
      exact Or.inl (by rw [againstBoundsMove, againstBoundsMove, hvisits, hmodes])
    | climb htarget' => exact absurd (htargets.symm.trans htarget) (htarget'.ne_parameter _)
    | sourceBounds htarget' => exact absurd (htargets.symm.trans htarget) (htarget'.ne_parameter _)
    | targetBounds _ _ _ hsource' =>
      exact absurd (hsources.symm.trans hsource) (hsource'.ne_parameter _)

/-- One of two such queries comes to an end at most one step after the other. -/
theorem SameBounds.ne_unfinished {q q' : Query}
    (hsame : SameBounds q q' (move h reversed q) (move h reversed q')) {n : Nat}
    (hq : unguarded h reversed n q ≠ .unfinished) :
    unguarded h reversed (n + 1) q' ≠ .unfinished := by
  obtain ⟨hmode, hmodes, hconcrete, hsources, p, bounds, hmove, hmove'⟩ := hsame
  cases n with
  | zero => exact absurd rfl hq
  | succ n =>
    rw [unguarded, search_succ, hmove, run_againstBoundsMove] at hq
    rw [unguarded, search_succ, hmove', run_againstBoundsMove, ← hmodes]
    refine Outcome.EndsLike.ne_unfinished (bestOf_endsLike (fun b _ => ?_) _ _) hq
    exact unguarded_endsLike hsources hconcrete hmode n b

/-! ## The guard -/

/-- The visit is that of a query which is not at its end at this depth. Nor is it one step deeper,
unless the visit could only be entered again with the same move. -/
def Pending (h : Hierarchy) (reversed : List TypeParameter) (n : Nat) (q : Query) (v : Visit) :
    Prop :=
  ∃ q₀, (move h reversed q₀).visit? = some v ∧ unguarded h reversed n q₀ = .unfinished ∧
    (unguarded h reversed (n + 1) q₀ = .unfinished ∨
      ((move h reversed q).visit? = some v → move h reversed q = move h reversed q₀))

theorem unguarded_congr {q q' : Query} (hmove : move h reversed q = move h reversed q') (n : Nat) :
    unguarded h reversed n q = unguarded h reversed n q' := by
  cases n with
  | zero => rfl
  | succ n => rw [unguarded, unguarded, search_succ, search_succ, hmove]

/-- A query that is at its end does not enter a pending visit again. -/
theorem Pending.visit_ne {n : Nat} {q : Query} {v : Visit} (hpending : Pending h reversed n q v)
    (hq : unguarded h reversed n q ≠ .unfinished) : (move h reversed q).visit? ≠ some v := by
  obtain ⟨q₀, hv₀, hn, hnext⟩ := hpending
  intro hv
  rcases (makes_move h reversed q).eq_or_sameBounds (makes_move h reversed q₀) hv hv₀ with
    hmove | hsame
  · exact hq (by rw [unguarded_congr hmove, hn])
  · rcases hnext with hnext | hmove
    · exact hsame.ne_unfinished hq hnext
    · exact hq (by rw [unguarded_congr (hmove hv), hn])

/-- Visits stay pending for the queries asked next. -/
theorem Pending.of_lt {n k : Nat} {q q' : Query} {v : Visit} (hpending : Pending h reversed n q v)
    (hk : k < n) : Pending h reversed k q' v := by
  obtain ⟨q₀, hv₀, hn, -⟩ := hpending
  exact ⟨q₀, hv₀, search_eq_unfinished_of_le (by omega) hn,
    Or.inl (search_eq_unfinished_of_le (by omega) hn)⟩

/-- The bounds asked for on a visit are compared with the same source, so that the visit is entered
again only with the same move. -/
theorem Makes.eq_of_asked {q q' : Query} {v : Visit} {m m' : Move} (hm : Makes h reversed q m)
    (hm' : Makes h reversed q' m') (hv : m.visit? = some v) (hv' : m'.visit? = some v)
    (hasked : q' ∈ m.asked h) : m' = m := by
  rcases hm.eq_or_sameBounds hm' hv hv' with heq | ⟨-, hmodes, -, -, p, bounds, rfl, rfl⟩
  · exact heq.symm
  · obtain ⟨b, -, rfl⟩ : ∃ b ∈ bounds, q' = ⟨b, q.source, true, q.mode⟩ := by
      simpa [againstBoundsMove, Move.asked, boundQueries] using hasked
    rfl

theorem exists_least_of {P : Nat → Prop} {n : Nat} (hn : P n) :
    ∃ k ≤ n, P k ∧ ∀ j < k, ¬ P j := by
  classical
  have hex : ∃ k, P k := ⟨n, hn⟩
  exact ⟨Nat.find hex, Nat.find_min' hex hn, Nat.find_spec hex, fun j hj => Nat.find_min hex hj⟩

theorem exists_least {n : Nat} {q : Query} (hn : unguarded h reversed n q ≠ .unfinished) :
    ∃ k ≤ n, unguarded h reversed k q ≠ .unfinished ∧
      ∀ j < k, unguarded h reversed j q = .unfinished := by
  simpa only [ne_eq, not_not] using
    exists_least_of (P := fun k => unguarded h reversed k q ≠ .unfinished) hn

/-- At the least depth that is enough without the guard, the guard stops nothing. -/
theorem search_guarded_eq {n : Nat} {path : List Visit} {q : Query}
    (hq : unguarded h reversed n q ≠ .unfinished)
    (hleast : ∀ j < n, unguarded h reversed j q = .unfinished)
    (hpath : ∀ v ∈ path, Pending h reversed n q v) :
    search ⟨h, reversed, true⟩ n path q = unguarded h reversed n q := by
  induction n using Nat.strongRecOn generalizing path q with
  | ind n ih =>
  cases n with
  | zero => exact absurd rfl hq
  | succ k =>
    have hguard : ∀ v, (move h reversed q).visit? = some v → path.contains v = false := by
      intro v hv
      simpa using fun hmem => (hpath v hmem).visit_ne hq hv
    rw [unguarded, search_succ] at hq ⊢
    rw [search_succ]
    refine Move.run_extendsTo (fun v hv => by rw [hguard v hv]; rfl) (fun q' hasked hq' => ?_) hq
    rw [search_unguarded_path k _ []] at hq' ⊢
    obtain ⟨j, hjk, hj, hleast'⟩ := exists_least hq'
    have hpath' : ∀ v ∈ (move h reversed q).enter path, Pending h reversed j q' v := by
      intro v hv
      rcases List.mem_append.mp hv with hv | hv
      · have hvisit : (move h reversed q).visit? = some v := by simpa using hv
        refine ⟨q, hvisit, hleast j (by omega), Or.inr fun hv' => ?_⟩
        exact (makes_move h reversed q).eq_of_asked (makes_move h reversed q') hvisit hv' hasked
      · exact (hpath v hv).of_lt (by omega)
    have hsearch := ih j (by omega) hj hleast' hpath'
    calc search ⟨h, reversed, true⟩ k ((move h reversed q).enter path) q'
        = search ⟨h, reversed, true⟩ j ((move h reversed q).enter path) q' :=
          search_extendsTo _ hjk _ q' (hsearch ▸ hj)
      _ = unguarded h reversed j q' := hsearch
      _ = unguarded h reversed k q' := (search_extendsTo _ hjk [] q' hj).symm

end Assignability

namespace Hierarchy

open Assignability

/-- A search that comes to an end without the guard has the same outcome with it. -/
theorem distance_eq_unguarded (h : Hierarchy) (reversed : List TypeParameter)
    (target source : TypeExpr) (mode : Mode) (depth : Nat)
    (hhalts : search ⟨h, reversed, false⟩ depth [] ⟨target, source, false, mode⟩ ≠ .unfinished) :
    h.distance reversed target source mode =
      search ⟨h, reversed, false⟩ depth [] ⟨target, source, false, mode⟩ := by
  obtain ⟨k, hk, hfinished, hleast⟩ := exists_least hhalts
  have hsearch := search_guarded_eq hfinished hleast (List.forall_mem_nil _)
  rw [distance, solve_eq_of_search (hsearch ▸ hfinished), hsearch]
  exact (search_extendsTo _ hk [] _ hfinished).symm

/-- The two classes extend each other, but the bound is met on the way. -/
theorem bound_met_in_cycle :
    let even := TypeExpr.nominal "com.example.Even"
    let odd := TypeExpr.nominal "com.example.Odd"
    let evens := TypeExpr.applied "java.lang.Comparable" [even]
    let bounded := TypeExpr.parameter ⟨some (.type "com.example.Box"), 0, "T"⟩
    let h := Hierarchy.empty.override
      [⟨"java.lang.Comparable", .ofInterface, [⟨"T", []⟩], none, [], none⟩,
       ⟨"com.example.Box", .ofClass, [⟨"T", [evens]⟩], none, [], none⟩,
       ⟨"com.example.Even", .ofClass, [], some odd, [evens], none⟩,
       ⟨"com.example.Odd", .ofClass, [], some even, [], none⟩]
    search ⟨h, [], false⟩ 4 [] ⟨bounded, odd, false, .covariant⟩ = .answer (.cost 200) ∧
      h.distance [] bounded odd .covariant = .answer (.cost 200) := by
  intro even odd evens bounded h
  have hsearch : search ⟨h, [], false⟩ 4 [] ⟨bounded, odd, false, .covariant⟩ =
      .answer (.cost 200) := by decide +kernel
  refine ⟨hsearch, ?_⟩
  rw [distance_eq_unguarded h [] bounded odd .covariant 4 (by rw [hsearch]; exact nofun)]
  exact hsearch

end Hierarchy

end Mutability
