import Mutability.Proofs.Depth
import Mutability.Proofs.Search

/-!
# How the modes relate

A contravariant comparison is the covariant one of the swapped types. It is asked for only after the
rules for equal types and for null, and the rule for null does not swap: so the two differ exactly
where null stands in the place to store in (`distance_contravariant_eq_iff`).

Covariance asks for less than invariance, and erasure for less than covariance. Every move in the
stricter mode has one in the easier mode beside it that is decided at once or asks for the same
queries in that mode (`Eases`). So the erased search follows the covariant one, visit by visit,
makes no lookup that was not made there, and is assignable where that is
(`distance_erasure_of_covariant`).
-/

namespace Mutability

namespace Assignability

/-! ## Queries that are decided or passed on -/

section Solve

variable {s : Setting} {q : Query}

theorem solve_of_done {result : Except Unresolved Distance}
    (hmove : move s.hierarchy s.reversed q = .done result) : solve s q = .ofExcept result := by
  have hsearch : search s 1 [] q = .ofExcept result := by
    rw [search_succ, hmove]
    rfl
  rw [solve_eq_of_search (n := 1), hsearch]
  rw [hsearch]
  cases result <;> simp [Outcome.ofExcept]

theorem solve_of_pass {q' : Query} (hmove : move s.hierarchy s.reversed q = .pass q') :
    solve s q = solve s q' := by
  obtain ⟨n, hn⟩ := exists_depth_solve s q
  obtain ⟨m, hm⟩ := exists_depth_solve s q'
  rw [← hn (max n m + 1) (by omega), ← hm (max n m) (by omega), search_succ, hmove]
  rfl

theorem solve_congr {q' : Query}
    (hmove : move s.hierarchy s.reversed q = move s.hierarchy s.reversed q') :
    solve s q = solve s q' := by
  obtain ⟨n, hn⟩ := exists_depth_solve s q
  obtain ⟨m, hm⟩ := exists_depth_solve s q'
  rw [← hn (max n m + 1) (by omega), ← hm (max n m + 1) (by omega), search_succ, search_succ,
    hmove]

end Solve

section Null

variable {h : Hierarchy} {reversed : List TypeParameter} {q : Query}

theorem move_of_null (htrivial : q.trivial = false) (hnull : q.source.isNull = true) :
    move h reversed q =
      .done (.ok (if q.target.isPrimitive then .notAssignable else .nullLiteral)) := by
  simp [move, htrivial, hnull]

theorem isPrimitive_of_isNull {t : TypeExpr} (hnull : t.isNull = true) : t.isPrimitive = false := by
  have hbase : t.base = .null := by simpa [TypeExpr.isNull] using hnull
  simp [TypeExpr.isPrimitive, TypeExpr.primitive?, hbase]

/-- Nothing but null can be stored in null. -/
theorem move_of_null_target (htrivial : q.trivial = false) (hnull : q.target.isNull = true)
    (hsource : q.source.isNull = false) (hmode : q.mode = .covariant) :
    move h reversed q = .done (.ok .notAssignable) := by
  have hbase : q.target.base = .null := by simpa [TypeExpr.isNull] using hnull
  have htop : q.topTakes = false := by
    simp [Query.topTakes, TypeExpr.isObject, TypeExpr.name?, hbase]
  have hunbound : q.target.isUnboundWildcard = false := by
    simp [TypeExpr.isUnboundWildcard, hbase]
  simp [move, htrivial, hsource, hmode, directedMove, htop, hunbound, hbase]

end Null

end Assignability

namespace Hierarchy

open Assignability

/-- Contravariance is covariance with the types swapped, except that null as the type to store in
takes every type that is not primitive. -/
theorem distance_contravariant_eq_iff (h : Hierarchy) (reversed : List TypeParameter)
    (target source : TypeExpr) :
    h.distance reversed source target .contravariant =
        h.distance reversed target source .covariant ↔
      ¬ (target.isNull = true ∧ source.isNull = false ∧ source.isPrimitive = false) := by
  by_cases hsame : target = source
  · subst hsame
    have htrivial : ∀ mode, Query.trivial ⟨target, target, false, mode⟩ = true := by
      simp [Query.trivial]
    rw [distance, distance, solve_of_done (move_of_trivial (htrivial _)),
      solve_of_done (move_of_trivial (htrivial _))]
    refine iff_of_true rfl ?_
    rintro ⟨hnull, hsource, -⟩
    cases hnull.symm.trans hsource
  · have hforward : Query.trivial ⟨target, source, false, .covariant⟩ = false := by
      simp [Query.trivial, hsame]
    have hswapped : Query.trivial ⟨source, target, false, .contravariant⟩ = false := by
      simp [Query.trivial, Ne.symm hsame]
    cases hnull : target.isNull with
    | false =>
      have hpass : move h reversed ⟨source, target, false, .contravariant⟩ =
          .pass ⟨target, source, false, .covariant⟩ := by
        simp [move, hswapped, hnull]
      rw [distance, distance, solve_of_pass hpass]
      simp
    | true =>
      rw [distance, distance, solve_of_done (move_of_null hswapped hnull)]
      cases hsource : source.isNull with
      | true =>
        rw [solve_of_done (move_of_null hforward hsource), isPrimitive_of_isNull hnull,
          isPrimitive_of_isNull hsource]
        simp
      | false =>
        rw [solve_of_done (move_of_null_target hforward hnull hsource rfl)]
        cases source.isPrimitive <;> simp [Outcome.ofExcept, Distance.nullLiteral]

/-- A text can be stored in null if one asks from the other side, not if one asks directly. -/
theorem text_stored_in_null :
    let text := TypeExpr.nominal "java.lang.String"
    Platform.hierarchy.distance [] text .null .contravariant = .answer (.cost 0) ∧
      Platform.hierarchy.distance [] .null text .covariant = .answer .notAssignable := by
  intro text
  exact ⟨solve_eq_answer (n := 1) (by decide +kernel), solve_eq_answer (n := 1) (by decide +kernel)⟩

end Hierarchy

/-! ## Easier modes -/

namespace Assignability

/-- The second mode asks for less than the first. -/
inductive Easier : Mode → Mode → Prop where
  | covariance : Easier .invariant .covariant
  | erasure : Easier .covariant .erasure

def Query.inMode (q : Query) (mode : Mode) : Query := { q with mode := mode }

def Visit.inMode (v : Visit) (mode : Mode) : Visit := { v with mode := mode }

/-- The second move is decided in favour, or does in the second mode what the first does in its own.
It is left open where a lookup of the first fails, and where the first gives up on two types for no
other reason than that they are not the same. -/
inductive Eases (mode mode' : Mode) : Move → Move → Prop where
  | fault (fault : Unresolved) (m : Move) : Eases mode mode' (.done (.error fault)) m
  | unlike (m : Move) : mode = .invariant → Eases mode mode' (.done (.ok .notAssignable)) m
  | done {d d' : Distance} : (d.isAssignable = true → d'.isAssignable = true) →
      Eases mode mode' (.done (.ok d)) (.done (.ok d'))
  | taken (m : Move) {d : Distance} : d.isAssignable = true → Eases mode mode' m (.done (.ok d))
  | pass {q : Query} : q.mode = mode → Eases mode mode' (.pass q) (.pass (q.inMode mode'))
  | arguments (ts us : List TypeExpr) : mode = .invariant →
      Eases mode mode' (.sum (List.zipWith (argumentQuery mode) ts us))
        (.sum (List.zipWith (argumentQuery mode') ts us))
  | bounds {v : Visit} {qs : List Query} : v.mode = mode → (∀ q ∈ qs, q.mode = mode) →
      Eases mode mode' (.bounds v qs) (.bounds (v.inMode mode') (qs.map (·.inMode mode')))
  | climb {v : Visit} (declared : List TypeExpr) : v.mode = .covariant → mode = .covariant →
      Eases mode mode' (.climb v declared) (.climb (v.inMode mode') declared)

section Moves

variable {h : Hierarchy} {reversed : List TypeParameter} {mode mode' : Mode}

theorem Eases.same (result : Except Unresolved Distance) :
    Eases mode mode' (.done result) (.done result) := by
  cases result with
  | ok d => exact .done id
  | error fault => exact .fault fault _

theorem Eases.after {α : Type} {x : Except Unresolved α} {next next' : α → Move}
    (hnext : ∀ a, Eases mode mode' (next a) (next' a)) :
    Eases mode mode' (.after x next) (.after x next') := by
  cases x with
  | ok a => exact hnext a
  | error fault => exact .fault fault _

theorem eases_againstBoundsMove (target source : TypeExpr) (ignoreArrays : Bool)
    (p : TypeParameter) (bounds sources : List TypeExpr) :
    Eases mode mode' (againstBoundsMove ⟨target, source, ignoreArrays, mode⟩ p bounds sources)
      (againstBoundsMove ⟨target, source, ignoreArrays, mode'⟩ p bounds sources) := by
  have hmap : boundQueries bounds sources mode' =
      (boundQueries bounds sources mode).map (·.inMode mode') := by
    simp [boundQueries, List.map_flatMap, Query.inMode, Function.comp_def]
  unfold againstBoundsMove
  rw [hmap]
  refine .bounds rfl fun q hq => ?_
  obtain ⟨bound, -, hq⟩ := List.mem_flatMap.mp hq
  obtain ⟨other, -, rfl⟩ := List.mem_map.mp hq
  rfl

theorem eases_parameterSourceMove (target source : TypeExpr) (ignoreArrays : Bool)
    (p : TypeParameter) :
    Eases mode mode' (parameterSourceMove h reversed ⟨target, source, ignoreArrays, mode⟩ p)
      (parameterSourceMove h reversed ⟨target, source, ignoreArrays, mode'⟩ p) := by
  unfold parameterSourceMove
  split_ifs
  · exact .pass rfl
  · refine .after fun bounds => ?_
    have hmap : (bounds.map fun bound => Query.mk target bound true mode') =
        (bounds.map fun bound => Query.mk target bound true mode).map (·.inMode mode') := by
      rw [List.map_map]
      rfl
    rw [hmap]
    exact .bounds rfl (by simp)

theorem eases_parameterTargetMove (target source : TypeExpr) (ignoreArrays : Bool)
    (p : TypeParameter) :
    Eases mode mode' (parameterTargetMove h ⟨target, source, ignoreArrays, mode⟩ p)
      (parameterTargetMove h ⟨target, source, ignoreArrays, mode'⟩ p) := by
  unfold parameterTargetMove
  refine .after fun bounds => ?_
  split_ifs
  · exact .same _
  · cases source.base with
    | nominal | primitive => exact eases_againstBoundsMove target source ignoreArrays p bounds _
    | null | wildcard => exact .same _
    | parameter p' =>
      refine .after fun bounds' => ?_
      split_ifs
      · exact .same _
      · exact eases_againstBoundsMove target source ignoreArrays p bounds bounds'

section Easier

variable (heasier : Easier mode mode')

include heasier

theorem eases_sameNameMove (target source : TypeExpr) :
    Eases mode mode' (sameNameMove target source mode) (sameNameMove target source mode') := by
  have hsame : Distance.sameType.isAssignable = true := rfl
  unfold sameNameMove
  cases heasier with
  | erasure => exact .taken _ hsame
  | covariance =>
    simp only [reduceCtorEq, ↓reduceIte]
    split_ifs
    · exact .taken _ (by simp [compareWildcards, hsame])
    · exact .taken _ hsame
    · exact .arguments _ _ rfl

theorem compareSignatures_eases {left right : Signature}
    (hstrict : (compareSignatures left right mode).isAssignable = true) :
    (compareSignatures left right mode').isAssignable = true := by
  cases heasier with
  | covariance => exact hstrict
  | erasure =>
    unfold compareSignatures at hstrict ⊢
    split_ifs at hstrict ⊢ <;> simp_all [Distance.isAssignable, Distance.sameType]

theorem eases_compareFunctional (target source : TypeExpr) :
    Eases mode mode' (.done (compareFunctional h target source mode))
      (.done (compareFunctional h target source mode')) := by
  unfold compareFunctional
  cases h.signature? target with
  | error fault => exact .fault fault _
  | ok left =>
    cases h.signature? source with
    | error fault => exact .fault fault _
    | ok right =>
      cases left with
      | none => exact .same _
      | some left =>
        cases right with
        | none => exact .same _
        | some right => exact .done (compareSignatures_eases heasier)

theorem eases_differentNamesMove (target source : TypeExpr) (targetName sourceName : String) :
    Eases mode mode' (differentNamesMove h target source targetName sourceName mode)
      (differentNamesMove h target source targetName sourceName mode') := by
  by_cases hboth : (h.isFunctional targetName && h.isFunctional sourceName) = true
  · simp only [differentNamesMove, hboth, ↓reduceIte]
    exact eases_compareFunctional heasier target source
  · simp only [differentNamesMove, hboth]
    cases heasier with
    | covariance => exact .unlike _ rfl
    | erasure =>
      simp only [true_or, or_true, ↓reduceIte]
      exact .after fun d => .climb _ rfl rfl

theorem widening_eases (target source : Primitive)
    (hstrict : (target.widening source mode).isAssignable = true) :
    (target.widening source mode').isAssignable = true := by
  cases heasier with
  | erasure => exact hstrict
  | covariance => simp [Primitive.widening, Distance.isAssignable] at hstrict

theorem eases_concreteMove (target source : TypeExpr) (ignoreArrays : Bool) :
    Eases mode mode' (concreteMove h ⟨target, source, ignoreArrays, mode⟩)
      (concreteMove h ⟨target, source, ignoreArrays, mode'⟩) := by
  unfold concreteMove
  simp only
  split_ifs
  · exact .same _
  · exact .pass rfl
  · cases target.base with
    | parameter | null | wildcard => exact .same _
    | primitive p =>
      cases source.base with
      | primitive p' => exact .done (widening_eases heasier p p')
      | nominal | parameter | null | wildcard => exact .same _
    | nominal targetName =>
      cases source.base with
      | primitive | parameter | null | wildcard => exact .same _
      | nominal sourceName =>
        simp only
        split_ifs
        · exact eases_sameNameMove heasier target source
        · exact eases_differentNamesMove heasier target source targetName sourceName

theorem eases_directedMove (target source : TypeExpr) (ignoreArrays : Bool) :
    Eases mode mode' (directedMove h reversed ⟨target, source, ignoreArrays, mode⟩)
      (directedMove h reversed ⟨target, source, ignoreArrays, mode'⟩) := by
  have hvariant : mode' ≠ .invariant := by cases heasier <;> simp
  by_cases htop : Query.topTakes ⟨target, source, ignoreArrays, mode'⟩ = true
  · have htaken : directedMove h reversed ⟨target, source, ignoreArrays, mode'⟩ =
        .done (.ok .hop) := by
      simp [directedMove, htop, hvariant]
    rw [htaken]
    exact .taken _ rfl
  · have hopen : ∀ m : Mode,
        ¬ (m ≠ .invariant ∧ Query.topTakes ⟨target, source, ignoreArrays, m⟩ = true) :=
      fun m hboth => htop hboth.2
    unfold directedMove
    rw [if_neg (hopen mode), if_neg (hopen mode')]
    simp only
    split_ifs
    · exact .same _
    · cases target.base with
      | parameter p => exact eases_parameterTargetMove target source ignoreArrays p
      | null | wildcard => exact .same _
      | nominal | primitive =>
        cases source.base with
        | parameter p => exact eases_parameterSourceMove target source ignoreArrays p
        | null | wildcard => exact .same _
        | nominal | primitive => exact eases_concreteMove heasier target source ignoreArrays

/-- Every move is eased by asking in the easier mode. -/
theorem eases_move {q : Query} (hmode : q.mode = mode) :
    Eases mode mode' (move h reversed q) (move h reversed (q.inMode mode')) := by
  obtain ⟨target, source, ignoreArrays, mode⟩ := q
  obtain rfl := hmode
  have hdirected : Eases mode mode' (directedMove h reversed ⟨target, source, ignoreArrays, mode⟩)
      (directedMove h reversed ⟨target, source, ignoreArrays, mode'⟩) :=
    eases_directedMove heasier target source ignoreArrays
  unfold move Query.inMode
  simp only [Query.trivial]
  split_ifs
  · exact .same _
  · exact .same _
  · exact .same _
  · cases heasier with
    | covariance | erasure => exact hdirected

end Easier

end Moves

end Assignability

/-! ## The erased search -/

namespace Outcome

/-- An answer of the first outcome is one of the second too, and stays assignable. -/
def EasesTo (x y : Outcome Distance) : Prop :=
  ∀ d, x = .answer d →
    ∃ d', y = .answer d' ∧ (d.isAssignable = true → d'.isAssignable = true)

theorem EasesTo.refl (x : Outcome Distance) : x.EasesTo x := fun d hd => ⟨d, hd, id⟩

theorem ExtendsTo.easesTo {x y : Outcome Distance} (hxy : x.ExtendsTo y) : x.EasesTo y := by
  rintro d rfl
  exact ⟨d, hxy (by simp), id⟩

theorem EasesTo.bind {α : Type} {f g : α → Outcome Distance} (hfg : ∀ a, (f a).EasesTo (g a))
    (x : Outcome α) : (x >>= f).EasesTo (x >>= g) := by
  intro d hd
  obtain ⟨a, ha, hfound⟩ := bind_eq_answer.mp hd
  obtain ⟨d', hd', hassignable⟩ := hfg a d hfound
  exact ⟨d', bind_eq_answer.mpr ⟨a, ha, hd'⟩, hassignable⟩

end Outcome

namespace Assignability

theorem bestOf_easesTo {answer answer' : Query → Outcome Distance} {f : Query → Query}
    {qs : List Query} (hqs : ∀ q ∈ qs, (answer q).EasesTo (answer' (f q))) {best best' : Distance}
    (hbest : best.isAssignable = true → best'.isAssignable = true) :
    (bestOf answer qs best).EasesTo (bestOf answer' (qs.map f) best') := by
  induction qs generalizing best best' with
  | nil =>
    intro d hd
    cases hd
    exact ⟨best', rfl, hbest⟩
  | cons q qs ih =>
    intro d hd
    obtain ⟨e, he, hrest⟩ := Outcome.bind_eq_answer.mp hd
    obtain ⟨e', he', heased⟩ := hqs q List.mem_cons_self e he
    have hbetter : (best.better e).isAssignable = true →
        (best'.better e').isAssignable = true := by
      simp only [Distance.isAssignable_better, Bool.or_eq_true]
      exact Or.imp hbest heased
    obtain ⟨d', hd', hassignable⟩ :=
      ih (fun x hx => hqs x (List.mem_cons_of_mem q hx)) hbetter d hrest
    exact ⟨d', Outcome.bind_eq_answer.mpr ⟨e', he', hd'⟩, hassignable⟩

/-- The eased search takes the same candidate or an earlier one. -/
theorem firstHop_easesTo {answer answer' : TypeExpr → Outcome Distance} {ts : List TypeExpr}
    (hts : ∀ t ∈ ts, (answer t).EasesTo (answer' t)) :
    (firstHop answer ts).EasesTo (firstHop answer' ts) := by
  have hhop : ∀ {x y : Distance}, (x.isAssignable = true → y.isAssignable = true) →
      (Distance.hop.plus x).isAssignable = true → (Distance.hop.plus y).isAssignable = true := by
    intro x y hxy
    simp only [Distance.isAssignable_plus, Bool.and_eq_true]
    exact fun hx => ⟨hx.1, hxy hx.2⟩
  induction ts with
  | nil => exact .refl _
  | cons t ts ih =>
    intro d hd
    obtain ⟨e, he, -⟩ := Outcome.bind_eq_answer.mp hd
    obtain ⟨e', he', heased⟩ := hts t List.mem_cons_self e he
    rw [firstHop_cons he] at hd
    rw [firstHop_cons he']
    cases hassignable : e'.isAssignable with
    | true =>
      refine ⟨_, rfl, fun _ => ?_⟩
      rw [Distance.isAssignable_plus, hassignable]
      rfl
    | false =>
      have hfalse : e.isAssignable = false := by
        cases heq : e.isAssignable with
        | false => rfl
        | true => exact absurd (heased heq) (by simp [hassignable])
      rw [hfalse] at hd
      exact ih (fun x hx => hts x (List.mem_cons_of_mem t hx)) d hd

section Search

variable {s : Setting} {path : List Visit} (hpath : ∀ v ∈ path, v.mode = .covariant)

include hpath

theorem contains_erased {v : Visit} (hv : v.mode = .covariant) :
    (path.map (·.inMode .erasure)).contains (v.inMode .erasure) = path.contains v := by
  have hiff : v.inMode .erasure ∈ path.map (·.inMode .erasure) ↔ v ∈ path := by
    constructor
    · intro hmem
      obtain ⟨w, hw, heq⟩ := List.mem_map.mp hmem
      have hmode := hpath w hw
      obtain ⟨target, source, mode⟩ := v
      obtain ⟨target', source', mode'⟩ := w
      simp only [Visit.inMode, Visit.mk.injEq, and_true] at heq hv hmode
      obtain ⟨rfl, rfl⟩ := heq
      rwa [hv, ← hmode]
    · exact List.mem_map_of_mem
  rw [Bool.eq_iff_iff, List.contains_iff_mem, List.contains_iff_mem]
  exact hiff

theorem guarded_easesTo {v : Visit} (hv : v.mode = .covariant)
    {expand expand' : List Visit → Outcome Distance}
    (hexpand : (expand (v :: path)).EasesTo (expand' ((v :: path).map (·.inMode .erasure)))) :
    (guarded s path v expand).EasesTo
      (guarded s (path.map (·.inMode .erasure)) (v.inMode .erasure) expand') := by
  unfold guarded
  rw [contains_erased hpath hv]
  split_ifs
  · exact .refl _
  · exact hexpand

/-- A move that eases another comes to an easier outcome if its queries do. -/
theorem Eases.run {m m' : Move} (hm : Eases .covariant .erasure m m') {recur : Answerer}
    (hrecur : ∀ (q : Query) (path : List Visit), q.mode = .covariant →
      (∀ v ∈ path, v.mode = .covariant) →
      (recur path q).EasesTo (recur (path.map (·.inMode .erasure)) (q.inMode .erasure))) :
    (m.run s recur path).EasesTo (m'.run s recur (path.map (·.inMode .erasure))) := by
  have hcons : ∀ {v : Visit}, v.mode = .covariant → ∀ w ∈ v :: path, w.mode = .covariant :=
    fun hv => List.forall_mem_cons.mpr ⟨hv, hpath⟩
  cases hm with
  | fault => exact fun d hd => nomatch hd
  | @done d d' hassignable =>
    intro e he
    cases he
    exact ⟨d', rfl, hassignable⟩
  | unlike _ hmode => cases hmode
  | arguments _ _ hmode => cases hmode
  | taken _ htaken => exact fun d _ => ⟨_, rfl, fun _ => htaken⟩
  | pass hq => exact hrecur _ path hq hpath
  | bounds hv hqs =>
    rw [Move.run, Move.run]
    apply guarded_easesTo hpath hv
    exact bestOf_easesTo (fun q hq => hrecur q _ (hqs q hq) (hcons hv)) id
  | climb declared hv =>
    rw [Move.run, Move.run]
    apply guarded_easesTo hpath hv
    exact firstHop_easesTo fun t _ => .bind (fun u => hrecur _ _ hv (hcons hv)) _

end Search

theorem search_easesTo (s : Setting) (n : Nat) (q : Query) (path : List Visit)
    (hmode : q.mode = .covariant) (hpath : ∀ v ∈ path, v.mode = .covariant) :
    (search s n path q).EasesTo
      (search s n (path.map (·.inMode .erasure)) (q.inMode .erasure)) := by
  induction n generalizing q path with
  | zero => exact fun d hd => nomatch hd
  | succ n ih =>
    rw [search_succ, search_succ]
    exact (eases_move .erasure hmode).run hpath ih

end Assignability

namespace Hierarchy

open Assignability

/-- What is assignable is assignable by erasure, and without a lookup that fails. -/
theorem distance_erasure_of_covariant {h : Hierarchy} {reversed : List TypeParameter}
    {target source : TypeExpr} {d : Distance}
    (hcovariant : h.distance reversed target source .covariant = .answer d)
    (hassignable : d.isAssignable = true) :
    ∃ d', h.distance reversed target source .erasure = .answer d' ∧ d'.isAssignable = true := by
  obtain ⟨n, hn⟩ := exists_depth_solve ⟨h, reversed, true⟩ ⟨target, source, false, .covariant⟩
  have hsearch := (hn n (Nat.le_refl n)).trans hcovariant
  obtain ⟨d', hd', heased⟩ := search_easesTo _ n _ [] rfl (by simp) d hsearch
  exact ⟨d', solve_eq_answer hd', heased hassignable⟩

/-- A text is comparable to what is at most a sequence of characters, by the argument of the
interface that it comes to; erased, the interface alone decides. -/
theorem text_comparable_erased :
    let text := TypeExpr.nominal "java.lang.String"
    let characters := TypeExpr.nominal "java.lang.CharSequence"
    let comparable :=
      TypeExpr.applied "java.lang.Comparable" [{ characters with wildcard := .upper }]
    Platform.hierarchy.distance [] comparable text .covariant = .answer (.cost 201) ∧
      ∃ d, Platform.hierarchy.distance [] comparable text .erasure = .answer d ∧
        d.isAssignable = true := by
  intro text characters comparable
  have hcovariant : Platform.hierarchy.distance [] comparable text .covariant =
      .answer (.cost 201) := solve_eq_answer (n := 6) (by decide +kernel)
  exact ⟨hcovariant, distance_erasure_of_covariant hcovariant rfl⟩

end Hierarchy

end Mutability
