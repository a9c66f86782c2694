import Mutability.Proofs.LowerArguments

/-!
# Containment of wildcards

If a source can be stored in a target, then a generic type of the source can be stored in the one of
all that extends the target, and a generic type of the target in the one of all that the source
extends. The two types are compared there as arguments: with a wildcard they did not have, and
without regard to array dimensions. Every move of the comparison has one beside it that does the
same for the changed types or is decided at once (`Tracks`), so what fits goes on to fit.

But a visit tells types apart by their wildcards. What is stopped as a visit under way in the one
search is entered once more in the other, and may lead to lookups that were never made before. So
the types are never found not to fit, but there may be no answer (`containment_unresolved`). There
is one if the search comes to an end without the guard (`wildcards_contain`).
-/

namespace Mutability

namespace Assignability

variable {h : Hierarchy}

/-! ## Types that agree -/

def Query.towards (q : Query) (target : TypeExpr) : Query := { q with target := target }

/-- The second move does for the second target what the first does for the first, compares nothing
but equal types or is decided in favour. -/
inductive Tracks (target target' : TypeExpr) : Move → Move → Prop where
  | done (result : Except Unresolved Distance) : Tracks target target' (.done result) (.done result)
  | taken (m : Move) {d : Distance} : d.isAssignable = true →
      Tracks target target' m (.done (.ok d))
  | equals (m : Move) {qs : List Query} : (∀ q ∈ qs, q.trivial = true) →
      Tracks target target' m (.sum qs)
  | sum (qs : List Query) : Tracks target target' (.sum qs) (.sum qs)
  | bounds (v v' : Visit) {qs : List Query} : (∀ q ∈ qs, ∃ u, q = ⟨target, u, true, .covariant⟩) →
      Tracks target target' (.bounds v qs) (.bounds v' (qs.map (·.towards target')))
  | climb {source source' : TypeExpr} (declared : List TypeExpr) : source.Agrees source' →
      Tracks target target' (.climb ⟨target, source, .covariant⟩ declared)
        (.climb ⟨target', source', .covariant⟩ declared)

section Moves

variable {target target' source source' : TypeExpr}

theorem Tracks.after {α : Type} {x : Except Unresolved α} {next next' : α → Move}
    (hnext : ∀ a, Tracks target target' (next a) (next' a)) :
    Tracks target target' (.after x next) (.after x next') := by
  cases x with
  | ok a => exact hnext a
  | error fault => exact .done _

theorem tracks_parameterSourceMove (p : TypeParameter) :
    Tracks target target' (parameterSourceMove h [] ⟨target, source, true, .covariant⟩ p)
      (parameterSourceMove h [] ⟨target', source', true, .covariant⟩ p) := by
  simp only [parameterSourceMove, List.contains_nil, Bool.false_eq_true, ↓reduceIte]
  refine .after fun bounds => ?_
  have hmap : (bounds.map fun bound => Query.mk target' bound true .covariant) =
      (bounds.map fun bound => Query.mk target bound true .covariant).map (·.towards target') := by
    rw [List.map_map]
    rfl
  rw [hmap]
  exact .bounds _ _ (by simp)

/-- Types that agree fit whatever the other move is. -/
theorem tracks_of_agrees {name : String} (hsource : source.base = .nominal name)
    (hagrees : target'.Agrees source) (m : Move) :
    Tracks target target' m (move h [] ⟨target', source, true, .covariant⟩) := by
  have hconcrete : IsConcrete source.base := by simp [hsource, IsConcrete]
  cases htrivial : Query.trivial ⟨target', source, true, .covariant⟩ with
  | true =>
    rw [move_of_trivial htrivial]
    exact .taken m rfl
  | false =>
    rw [move_of_directed (by simp [Directed]) hconcrete htrivial]
    rcases directedMove_of_agrees (q := ⟨target', source, true, .covariant⟩) hagrees hconcrete rfl
      with ⟨d, hd, hassignable⟩ | hsum
    · rw [hd]
      exact .taken m (hassignable (by simp [Rigid, hsource]))
    · rw [hsum]
      exact .equals m fun q hq => trivial_of_mem_zipWith hq

section Agrees

variable (htargets : target.Agrees target') (hsources : source.Agrees source')

include htargets hsources

/-- Covariance does not look at the wildcards of the two types themselves. -/
theorem tracks_sameNameMove :
    Tracks target target' (sameNameMove target source .covariant)
      (sameNameMove target' source' .covariant) := by
  simp only [sameNameMove, compareWildcards, ← htargets.2, ← hsources.2, reduceCtorEq, ↓reduceIte,
    ne_eq, not_false_eq_true, true_or, or_true]
  split_ifs
  · exact .done _
  · exact .sum _
  · exact .done _

theorem tracks_differentNamesMove (targetName sourceName : String) :
    Tracks target target' (differentNamesMove h target source targetName sourceName .covariant)
      (differentNamesMove h target' source' targetName sourceName .covariant) := by
  simp only [differentNamesMove, true_or, ↓reduceIte]
  split_ifs
  · simp only [compareFunctional, Hierarchy.signature?_of_agrees htargets,
      Hierarchy.signature?_of_agrees hsources]
    exact .done _
  · exact .after fun d => .climb _ hsources

variable {name : String} (htarget : target.base = .nominal name)

include htarget

theorem tracks_directedMove :
    Tracks target target' (directedMove h [] ⟨target, source, true, .covariant⟩)
      (directedMove h [] ⟨target', source', true, .covariant⟩) := by
  have htarget' : target'.base = .nominal name := htargets.1 ▸ htarget
  have hunbound : ∀ t : TypeExpr, t.base = .nominal name → t.isUnboundWildcard = false := by
    simp +contextual [TypeExpr.isUnboundWildcard]
  simp only [directedMove, Query.topTakes, TypeExpr.isObject, TypeExpr.name?, hunbound _ htarget,
    hunbound _ htarget', htarget, htarget', ← hsources.1, Bool.true_or, Bool.false_eq_true,
    ↓reduceIte]
  split_ifs
  · exact .done _
  · cases hsource : source.base with
    | null | wildcard => exact .done _
    | parameter p => exact tracks_parameterSourceMove p
    | primitive p =>
      simp only [concreteMove, htarget, htarget', hsource, ← hsources.1, Bool.not_true,
        Bool.false_and, Bool.false_eq_true, ↓reduceIte]
      exact .done _
    | nominal sourceName =>
      simp only [concreteMove, htarget, htarget', hsource, ← hsources.1, Bool.not_true,
        Bool.false_and, Bool.false_eq_true, ↓reduceIte]
      split_ifs
      · exact tracks_sameNameMove htargets hsources
      · exact tracks_differentNamesMove htargets hsources name sourceName

/-- Named targets that agree are compared alike with sources that do. -/
theorem tracks_move :
    Tracks target target' (move h [] ⟨target, source, true, .covariant⟩)
      (move h [] ⟨target', source', true, .covariant⟩) := by
  by_cases hagrees : target.Agrees source
  -- The types may be equal on one side only, so the two moves can differ here.
  · have hsource' : source'.base = .nominal name :=
      hsources.1.symm.trans (hagrees.1.symm.trans htarget)
    exact tracks_of_agrees hsource' (htargets.symm.trans (hagrees.trans hsources)) _
  · have hagrees' : ¬ target'.Agrees source' :=
      fun hboth => hagrees (htargets.trans (hboth.trans hsources.symm))
    have htrivial :=
      trivial_eq_false_of_not_agrees (q := ⟨target, source, true, .covariant⟩) hagrees
    have htrivial' :=
      trivial_eq_false_of_not_agrees (q := ⟨target', source', true, .covariant⟩) hagrees'
    have hprimitive : target.isPrimitive = target'.isPrimitive := by
      simp [TypeExpr.isPrimitive, TypeExpr.primitive?, ← htargets.1, htarget]
    unfold move
    simp only [htrivial, htrivial', hprimitive, TypeExpr.isNull, ← hsources.1, Bool.false_eq_true,
      ↓reduceIte]
    split_ifs
    · exact .done _
    · exact .done _
    · exact tracks_directedMove htargets hsources htarget

end Agrees

end Moves

section Towards

variable {target target' : TypeExpr}

theorem Tracks.granted {m m' : Move} (hm : Tracks target target' m m') {fits fits' : Query → Prop}
    (hgranted : m.Granted h fits) (htrivial : ∀ q : Query, q.trivial = true → fits' q)
    (hsum : ∀ q, fits q → fits' q)
    (htowards : ∀ u, fits ⟨target, u, true, .covariant⟩ → fits' ⟨target', u, true, .covariant⟩) :
    m'.Granted h fits' := by
  cases hm with
  | done => exact hgranted
  | taken _ htaken => exact ⟨_, rfl, htaken⟩
  | equals _ hqs => exact fun q hq => htrivial q (hqs q hq)
  | sum => exact fun q hq => hsum q (hgranted q hq)
  | bounds _ _ hqs =>
    obtain ⟨q, hq, hfits⟩ := hgranted
    obtain ⟨u, rfl⟩ := hqs q hq
    exact ⟨_, List.mem_map_of_mem hq, htowards u hfits⟩
  | climb declared hsources =>
    obtain ⟨q, hq, hfits⟩ := hgranted
    obtain ⟨t, ht, u, hu, rfl⟩ := Move.exists_of_mem_asked_climb hq
    rw [Hierarchy.directSupertype_of_agrees hsources] at hu
    exact ⟨_, Move.mem_asked_climb ht hu, htowards u hfits⟩

/-- Without a guard the second move is at most one step longer. -/
theorem Tracks.run {m m' : Move} (hm : Tracks target target' m m') {n : Nat}
    (htowards : ∀ u path path',
      (search ⟨h, [], false⟩ n path ⟨target, u, true, .covariant⟩).EasesTo
        (search ⟨h, [], false⟩ (n + 1) path' ⟨target', u, true, .covariant⟩))
    (path path' : List Visit) :
    (m.run ⟨h, [], false⟩ (search ⟨h, [], false⟩ n) path).EasesTo
      (m'.run ⟨h, [], false⟩ (search ⟨h, [], false⟩ (n + 1)) path') := by
  cases hm with
  | done result => exact .refl _
  | taken _ htaken => exact fun d _ => ⟨_, rfl, fun _ => htaken⟩
  | @equals _ qs hqs =>
    have hequal : ∀ q ∈ qs, search ⟨h, [], false⟩ (n + 1) path' q = .answer .equal := by
      intro q hq
      rw [search_succ, move_of_trivial (hqs q hq)]
      rfl
    obtain ⟨total, htotal, hassignable⟩ :=
      exists_sumOf (fun q hq => ⟨_, hequal q hq⟩) .equal
    refine fun d _ => ⟨total, htotal, fun _ => hassignable.mpr ⟨rfl, fun q hq e he => ?_⟩⟩
    cases (hequal q hq).symm.trans he
    rfl
  | sum qs =>
    refine Outcome.ExtendsTo.easesTo (Move.run_extendsTo (fun _ hv => nomatch hv) fun q _ => ?_)
    rw [search_unguarded_path n _ path']
    exact search_extendsTo _ (Nat.le_succ n) path' q
  | bounds v v' hqs =>
    simp only [Move.run, guarded, Bool.false_and, Bool.false_eq_true, ↓reduceIte]
    refine bestOf_easesTo (fun q hq => ?_) id
    obtain ⟨u, rfl⟩ := hqs q hq
    exact htowards u _ _
  | climb declared hsources =>
    simp only [Move.run, guarded, Bool.false_and, Bool.false_eq_true, ↓reduceIte,
      Hierarchy.directSupertype_of_agrees hsources]
    exact firstHop_easesTo fun t _ => .bind (fun u => htowards u _ _) _

variable (htargets : target.Agrees target') {name : String} (htarget : target.base = .nominal name)

include htargets htarget

theorem FitsWithin.towards {n : Nat} {source source' : TypeExpr} (hsources : source.Agrees source')
    (hn : FitsWithin h [] n ⟨target, source, true, .covariant⟩) :
    Fits h [] ⟨target', source', true, .covariant⟩ := by
  induction n generalizing source source' with
  | zero => exact hn.elim
  | succ n ih =>
    rw [fits_iff]
    exact (tracks_move htargets hsources htarget).granted hn (fun _ => fits_of_trivial)
      (fun _ hq => ⟨n, hq⟩) fun u hu => ih (.refl u) hu

theorem search_towards (n : Nat) {source source' : TypeExpr} (hsources : source.Agrees source')
    (path path' : List Visit) :
    (search ⟨h, [], false⟩ n path ⟨target, source, true, .covariant⟩).EasesTo
      (search ⟨h, [], false⟩ (n + 1) path' ⟨target', source', true, .covariant⟩) := by
  induction n generalizing source source' path path' with
  | zero => exact fun d hd => nomatch hd
  | succ n ih =>
    rw [search_succ, search_succ]
    exact (tracks_move htargets hsources htarget).run (fun u => ih (.refl u)) path path'

theorem accepted_towards {source source' : TypeExpr} (hsources : source.Agrees source')
    (haccepted : Accepted (solve ⟨h, [], false⟩ ⟨target, source, true, .covariant⟩)) :
    Accepted (solve ⟨h, [], false⟩ ⟨target', source', true, .covariant⟩) := by
  obtain ⟨d, hd, hassignable⟩ := haccepted
  obtain ⟨n, hn⟩ := exists_depth_solve ⟨h, [], false⟩ ⟨target, source, true, .covariant⟩
  have hsearch := (hn n (Nat.le_refl n)).trans hd
  obtain ⟨d', hd', heased⟩ := search_towards htargets htarget n hsources [] [] d hsearch
  exact ⟨d', solve_eq_answer hd', heased hassignable⟩

end Towards

/-! ## Array dimensions -/

theorem concreteMove_counting (target source : TypeExpr) (mode : Mode) :
    concreteMove h ⟨target, source, false, mode⟩ =
      if target.arrays ≠ source.arrays then .done (.ok .notAssignable)
      else if 0 < target.arrays then
        .pass ⟨target.withoutArrays, source.withoutArrays, false, mode⟩
      else concreteMove h ⟨target, source, true, mode⟩ := by
  simp [concreteMove]

section Arrays

variable {target : TypeExpr} {name : String} (htarget : target.base = .nominal name)

include htarget

/-- A comparison that counts array dimensions is refused for them, goes on to the elements, or is
the one that does not count them, unless that one is decided in favour. -/
theorem move_counting (source : TypeExpr) :
    move h [] ⟨target, source, false, .covariant⟩ = .done (.ok .notAssignable) ∨
      (0 < target.arrays ∧ move h [] ⟨target, source, false, .covariant⟩ =
        .pass ⟨target.withoutArrays, source.withoutArrays, false, .covariant⟩) ∨
      (∃ d, move h [] ⟨target, source, true, .covariant⟩ = .done (.ok d) ∧
        d.isAssignable = true) ∨
      move h [] ⟨target, source, false, .covariant⟩ =
        move h [] ⟨target, source, true, .covariant⟩ := by
  have hunbound : target.isUnboundWildcard = false := by
    simp [TypeExpr.isUnboundWildcard, htarget]
  cases htrivial : Query.trivial ⟨target, source, true, .covariant⟩ with
  | true => exact Or.inr (Or.inr (Or.inl ⟨_, move_of_trivial htrivial, rfl⟩))
  | false =>
    have htrivial' : Query.trivial ⟨target, source, false, .covariant⟩ = false := by
      simp_all [Query.trivial]
    simp only [move, htrivial, htrivial', Bool.false_eq_true, ↓reduceIte]
    split_ifs
    · exact Or.inr (Or.inr (Or.inr rfl))
    · exact Or.inr (Or.inr (Or.inr rfl))
    · cases htop : target.isObject with
      | true =>
        have htaken : directedMove h [] ⟨target, source, true, .covariant⟩ = .done (.ok .hop) := by
          simp [directedMove, Query.topTakes, htop]
        exact Or.inr (Or.inr (Or.inl ⟨_, htaken, rfl⟩))
      | false =>
        simp only [directedMove, Query.topTakes, htop, hunbound, htarget, Bool.false_and,
          Bool.false_eq_true, and_false, ↓reduceIte]
        cases source.base with
        | parameter | null | wildcard => exact Or.inr (Or.inr (Or.inr rfl))
        | nominal | primitive =>
          simp only [concreteMove_counting]
          split_ifs with hdiffer hpos
          · exact Or.inl rfl
          · exact Or.inr (Or.inl ⟨hpos, rfl⟩)
          · exact Or.inr (Or.inr (Or.inr rfl))

/-- What fits with its array dimensions fits by two types that agree, without them. -/
theorem accepted_ignoring {g : Bool} {source : TypeExpr}
    (haccepted : Accepted (solve ⟨h, [], g⟩ ⟨target, source, false, .covariant⟩)) :
    ∃ target' source', target'.Agrees target ∧ source'.Agrees source ∧
      Accepted (solve ⟨h, [], g⟩ ⟨target', source', true, .covariant⟩) := by
  -- On the dimensions of the target: after one step to the elements there are none left.
  induction hk : target.arrays.toNat using Nat.strongRecOn generalizing target source with
  | ind k ih =>
    rcases move_counting (h := h) htarget source with
      hrefused | ⟨hpos, hpass⟩ | ⟨d, hd, htaken⟩ | hsame
    · obtain ⟨d, hd, hassignable⟩ := haccepted
      rw [solve_of_done (s := ⟨h, [], g⟩) hrefused] at hd
      cases hd
      cases hassignable
    · rw [solve_of_pass (s := ⟨h, [], g⟩) hpass] at haccepted
      have hbase : target.withoutArrays.base = .nominal name := htarget
      obtain ⟨target', source', htargets, hsources, haccepted'⟩ :=
        ih 0 (hk ▸ UInt64.lt_iff_toNat_lt.mp hpos) hbase haccepted rfl
      exact ⟨target', source', htargets, hsources, haccepted'⟩
    · have hdone := solve_of_done (s := ⟨h, [], g⟩) hd
      exact ⟨target, source, .refl target, .refl source, d, hdone, htaken⟩
    · rw [solve_congr (s := ⟨h, [], g⟩) hsame] at haccepted
      exact ⟨target, source, .refl target, .refl source, haccepted⟩

end Arrays

/-! ## Arguments -/

/-- The move is decided in favour or comes down to one query. -/
inductive ComesTo (q : Query) : Move → Prop where
  | taken {d : Distance} : d.isAssignable = true → ComesTo q (.done (.ok d))
  | pass : ComesTo q (.pass q)
  | sum : ComesTo q (.sum [q])

theorem ComesTo.granted {q : Query} {m : Move} (hm : ComesTo q m) {fits : Query → Prop}
    (hq : fits q) : m.Granted h fits := by
  cases hm with
  | taken htaken => exact ⟨_, rfl, htaken⟩
  | pass => exact hq
  | sum => exact List.forall_mem_singleton.mpr hq

theorem ComesTo.accepted {s : Setting} {q q' : Query}
    (hm : ComesTo q' (move s.hierarchy s.reversed q)) (hq' : Accepted (solve s q')) :
    Accepted (solve s q) := by
  generalize hmove : move s.hierarchy s.reversed q = m at hm
  cases hm with
  | taken htaken => exact ⟨_, solve_of_done hmove, htaken⟩
  | pass => rwa [solve_of_pass hmove]
  | sum =>
    obtain ⟨d, hd, hassignable⟩ := hq'
    obtain ⟨n, hn⟩ := exists_depth_solve s q'
    have hsearch := (hn n (Nat.le_refl n)).trans hd
    have hsum : (Distance.equal.plus d).isAssignable = true := by
      rw [Distance.isAssignable_plus, hassignable]
      rfl
    refine ⟨Distance.equal.plus d, solve_eq_answer (n := n + 1) ?_, hsum⟩
    rw [search_succ, hmove, Move.run, sumOf, hsearch]
    exact if_pos hsum

theorem comesTo_applied (generic : String) (target source : TypeExpr) :
    ComesTo (argumentQuery .covariant target source)
      (move h [] ⟨.applied generic [target], .applied generic [source], false, .covariant⟩) := by
  by_cases hsame : target = source
  · rw [move_of_trivial (by simp [Query.trivial, hsame])]
    exact .taken rfl
  · by_cases hname : generic = TypeExpr.objectName
    · have htop : move h [] ⟨.applied generic [target], .applied generic [source], false,
          .covariant⟩ = .done (.ok .hop) := by
        simp [move, Query.trivial, directedMove, Query.topTakes, TypeExpr.applied, TypeExpr.isNull,
          TypeExpr.isObject, TypeExpr.name?, hsame, hname]
      rw [htop]
      exact .taken rfl
    · rw [move_applied hname hsame (Or.inr rfl)]
      exact .sum

theorem comesTo_flipped {target : TypeExpr} (htarget : target.isNull = false) (source : TypeExpr) :
    ComesTo ⟨target, source, true, .covariant⟩
      (move h [] ⟨source, target, true, .contravariant⟩) := by
  unfold move
  simp only [htarget, Bool.false_eq_true, ↓reduceIte]
  split_ifs
  · exact .taken rfl
  · exact .pass

/-- Both types with an argument fit if the arguments do, whatever wildcards they have. -/
theorem contained_of {P : Query → Prop} {target source : TypeExpr}
    (hP : ∀ q q', ComesTo q' (move h [] q) → P q' → P q) (htarget : target.isNull = false)
    (hagrees : ∀ target' source', target.Agrees target' → source.Agrees source' →
      P ⟨target', source', true, .covariant⟩) (generic : String) :
    P ⟨.applied generic [{ target with wildcard := .upper }], .applied generic [source], false,
        .covariant⟩ ∧
      P ⟨.applied generic [{ source with wildcard := .lower }], .applied generic [target], false,
        .covariant⟩ := by
  constructor
  · refine hP _ _ (comesTo_applied generic { target with wildcard := .upper } source) ?_
    exact hagrees _ _ ⟨rfl, rfl⟩ (.refl source)
  · refine hP _ _ (comesTo_applied generic { source with wildcard := .lower } target) ?_
    refine hP _ _ (comesTo_flipped htarget _) ?_
    exact hagrees _ _ (.refl target) ⟨rfl, rfl⟩

/-- A query that comes to an end without the guard has the same outcome with it. -/
theorem solve_eq_of_unguarded {q : Query} (hq : solve ⟨h, [], false⟩ q ≠ .unfinished) :
    solve ⟨h, [], true⟩ q = solve ⟨h, [], false⟩ q := by
  obtain ⟨n, hn⟩ := exists_depth_solve ⟨h, [], false⟩ q
  obtain ⟨k, -, hfinished, hleast⟩ := exists_least (n := n) (hn n (Nat.le_refl n) ▸ hq)
  have hsearch := search_guarded_eq hfinished hleast (List.forall_mem_nil _)
  rw [solve_eq_of_search (hsearch ▸ hfinished), hsearch, solve_eq_of_search hfinished]

theorem accepted_of_unguarded {q : Query} (hq : Accepted (solve ⟨h, [], false⟩ q)) :
    Accepted (solve ⟨h, [], true⟩ q) := by
  have hends : solve ⟨h, [], false⟩ q ≠ .unfinished := by
    obtain ⟨d, hd, -⟩ := hq
    simp [hd]
  rwa [solve_eq_of_unguarded hends]

end Assignability

namespace Hierarchy

open Assignability

/-- Where a source can be stored in a target, a generic type takes them with the wildcards that say
so. They are never found not to fit, and found to fit if the search of the two types comes to an end
without the guard. -/
theorem wildcards_contain (h : Hierarchy) (generic : String) {target source : TypeExpr}
    {name : String} {d : Distance} (htarget : target.base = .nominal name)
    (hd : h.distance [] target source .covariant = .answer d)
    (hassignable : d.isAssignable = true) :
    let below := h.distance [] (.applied generic [{ target with wildcard := .upper }])
      (.applied generic [source]) .covariant
    let above := h.distance [] (.applied generic [{ source with wildcard := .lower }])
      (.applied generic [target]) .covariant
    (∀ d', below = .answer d' ∨ above = .answer d' → d'.isAssignable = true) ∧
      (solve ⟨h, [], false⟩ ⟨target, source, false, .covariant⟩ ≠ .unfinished →
        Accepted below ∧ Accepted above) := by
  intro below above
  have hnull : target.isNull = false := by simp [TypeExpr.isNull, htarget]
  have haccepted : Accepted (solve ⟨h, [], true⟩ ⟨target, source, false, .covariant⟩) :=
    ⟨d, hd, hassignable⟩
  constructor
  · obtain ⟨target₀, source₀, htargets, hsources, e, he, hfits⟩ :=
      accepted_ignoring htarget haccepted
    obtain ⟨n, hn⟩ := (solve_isAssignable_iff he).mp hfits
    obtain ⟨hbelow, habove⟩ := contained_of (P := Fits h [])
      (fun q q' hm hq' => fits_iff.mpr (hm.granted hq')) hnull
      (fun t s ht hs => hn.towards (htargets.trans ht) (htargets.1.trans htarget)
        (hsources.trans hs)) generic
    rintro d' (hd' | hd')
    · exact (solve_isAssignable_iff hd').mpr hbelow
    · exact (solve_isAssignable_iff hd').mpr habove
  · intro hends
    rw [solve_eq_of_unguarded hends] at haccepted
    obtain ⟨target₀, source₀, htargets, hsources, haccepted₀⟩ := accepted_ignoring htarget haccepted
    obtain ⟨hbelow, habove⟩ := contained_of (P := fun q => Accepted (solve ⟨h, [], false⟩ q))
      (fun q q' hm hq' => hm.accepted hq') hnull
      (fun t s ht hs => accepted_towards (htargets.trans ht) (htargets.1.trans htarget)
        (hsources.trans hs) haccepted₀) generic
    exact ⟨accepted_of_unguarded hbelow, accepted_of_unguarded habove⟩

/-- Arrays of texts are arrays of what is comparable to sequences of characters. -/
theorem text_arrays_contained :
    let characters := TypeExpr.nominal "java.lang.CharSequence"
    let comparables := { TypeExpr.applied "java.lang.Comparable"
      [{ characters with wildcard := .upper }] with arrays := 1 }
    let texts := { TypeExpr.nominal "java.lang.String" with arrays := 1 }
    Platform.hierarchy.distance [] comparables texts .covariant = .answer (.cost 201) ∧
      Accepted (Platform.hierarchy.distance []
        (.applied "java.util.List" [{ comparables with wildcard := .upper }])
        (.applied "java.util.List" [texts]) .covariant) ∧
      Accepted (Platform.hierarchy.distance []
        (.applied "java.util.List" [{ texts with wildcard := .lower }])
        (.applied "java.util.List" [comparables]) .covariant) := by
  intro characters comparables texts
  have hdistance : Platform.hierarchy.distance [] comparables texts .covariant =
      .answer (.cost 201) := solve_eq_answer (n := 7) (by decide +kernel)
  have hends : solve ⟨Platform.hierarchy, [], false⟩ ⟨comparables, texts, false, .covariant⟩ =
      .answer (.cost 201) := solve_eq_answer (n := 7) (by decide +kernel)
  obtain ⟨-, hcontained⟩ :=
    wildcards_contain Platform.hierarchy "java.util.List" rfl hdistance rfl
  exact ⟨hdistance, hcontained (by simp [hends])⟩

/-- The first link of a ring is to a knot, which is a ring itself. It is given up where the search
comes back to the ring, and the second link fits. With a wildcard on the link or on the ring, the
search enters the ring once more and finds the second link from there. So the knot fits, and the
type beside it is looked up, which is not declared. -/
theorem containment_unresolved :
    let bounded := TypeExpr.parameter ⟨some (.type "com.example.Chain"), 0, "X"⟩
    let tag := TypeExpr.nominal "com.example.Tag"
    let mark := TypeExpr.nominal "com.example.Mark"
    let ring := TypeExpr.nominal "com.example.Ring"
    let knot := TypeExpr.nominal "com.example.Knot"
    let link := TypeExpr.applied "com.example.Link"
      [{ bounded with wildcard := .upper }, { tag with wildcard := .upper }]
    let h := Hierarchy.empty.override
      [⟨"com.example.Link", .ofInterface, [⟨"A", []⟩, ⟨"B", []⟩], none, [], none⟩,
       ⟨"com.example.Mark", .ofInterface, [], none, [], none⟩,
       ⟨"com.example.Tag", .ofInterface, [], none, [], none⟩,
       ⟨"com.example.Chain", .ofClass, [⟨"X", [link, mark]⟩], none, [], none⟩,
       ⟨"com.example.Ring", .ofClass, [], none,
         [.applied "com.example.Link" [knot, .nominal "com.example.Missing"],
          .applied "com.example.Link" [mark, tag]], none⟩,
       ⟨"com.example.Knot", .ofClass, [], some ring, [], none⟩]
    h.distance [] link ring .covariant = .answer (.cost 101) ∧
      h.distance [] (.applied "java.util.List" [{ link with wildcard := .upper }])
        (.applied "java.util.List" [ring]) .covariant =
          .unresolved (.type "com.example.Missing") ∧
      h.distance [] (.applied "java.util.List" [{ ring with wildcard := .lower }])
        (.applied "java.util.List" [link]) .covariant =
          .unresolved (.type "com.example.Missing") := by
  intro bounded tag mark ring knot link h
  have hbelow : search ⟨h, [], true⟩ 20 [] ⟨.applied "java.util.List"
      [{ link with wildcard := .upper }], .applied "java.util.List" [ring], false, .covariant⟩ =
        .unresolved (.type "com.example.Missing") := by decide +kernel
  have habove : search ⟨h, [], true⟩ 20 [] ⟨.applied "java.util.List"
      [{ ring with wildcard := .lower }], .applied "java.util.List" [link], false, .covariant⟩ =
        .unresolved (.type "com.example.Missing") := by decide +kernel
  refine ⟨solve_eq_answer (n := 20) (by decide +kernel), ?_, ?_⟩
  · exact (solve_eq_of_search (by simp [hbelow])).trans hbelow
  · exact (solve_eq_of_search (by simp [habove])).trans habove

end Hierarchy

end Mutability
