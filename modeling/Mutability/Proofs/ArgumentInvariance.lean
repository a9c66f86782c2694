import Mutability.Proofs.Search
import Mutability.Types.Platform

/-!
# Type arguments without wildcards

Two uses of one generic type are compared argument by argument, and an argument without a wildcard
has to be the same. The comparison of arguments ignores array dimensions, so what is decided is
equality up to the dimensions of the arguments and of everything inside them.
-/

namespace Mutability

/-! ## Equality up to array dimensions -/

namespace TypeExpr

mutual

/-- The type without array dimensions, its own and those inside its arguments. -/
def dimensionless : TypeExpr → TypeExpr
  | ⟨base, arguments, _, wildcard⟩ => ⟨base, dimensionlessList arguments, 0, wildcard⟩

def dimensionlessList : List TypeExpr → List TypeExpr
  | [] => []
  | t :: ts => dimensionless t :: dimensionlessList ts

end

theorem dimensionlessList_eq_iff {as bs : List TypeExpr} (hlength : as.length = bs.length) :
    dimensionlessList as = dimensionlessList bs ↔
      ∀ p ∈ as.zip bs, p.1.dimensionless = p.2.dimensionless := by
  induction as generalizing bs with
  | nil =>
    cases bs with
    | nil => simp
    | cons b bs => simp at hlength
  | cons a as ih =>
    cases bs with
    | nil => simp at hlength
    | cons b bs =>
      have htail := @ih bs (by simpa using hlength)
      simp [dimensionlessList, htail]

theorem nestingList_le {ts : List TypeExpr} {t : TypeExpr} (ht : t ∈ ts) :
    t.nesting ≤ nestingList ts := by
  induction ts with
  | nil => cases ht
  | cons u ts ih =>
    rw [nestingList]
    rcases List.mem_cons.mp ht with rfl | ht
    · exact Nat.le_max_left _ _
    · exact Nat.le_trans (ih ht) (Nat.le_max_right _ _)

end TypeExpr

/-! ## Ordinary types -/

namespace Hierarchy

/-- The number of arguments a name takes; one that is not declared takes none. -/
def arity (h : Hierarchy) (name : String) : Nat := ((h.find? name).elim [] (·.formals)).length

/-- Types of names that are no functional interfaces, each with the number of arguments it takes.
There are arrays at any depth, but no wildcards, parameters or primitives. -/
inductive Ordinary (h : Hierarchy) : TypeExpr → Prop where
  | intro {name : String} {arguments : List TypeExpr} {arrays : UInt64} :
      h.isFunctional name = false → arguments.length = h.arity name →
      (∀ a ∈ arguments, Ordinary h a) → Ordinary h ⟨.nominal name, arguments, arrays, .plain⟩

theorem Ordinary.wildcard_eq {h : Hierarchy} {t : TypeExpr} (ht : h.Ordinary t) :
    t.wildcard = .plain := by
  cases ht
  rfl

end Hierarchy

namespace Assignability

/-- Two types of one name that both take arguments are compared argument by argument. -/
theorem sameName_arguments (recur : Answerer) (path : List Visit) {target source : TypeExpr}
    {mode : Mode} (hmode : mode ≠ .erasure) (hne : target.arguments ≠ [])
    (hlength : target.arguments.length = source.arguments.length) :
    sameName recur path target source mode =
      sumOf (recur path) (List.zipWith (argumentQuery mode) target.arguments source.arguments)
        .equal := by
  have hempty : (target.arguments.isEmpty && source.arguments.isEmpty) = false := by simp [hne]
  simp [sameName, hmode, hempty, hlength]

theorem differentNames_invariant (s : Setting) (recur : Answerer) (path : List Visit)
    (target source : TypeExpr) {targetName : String} (sourceName : String)
    (hfunctional : s.hierarchy.isFunctional targetName = false) :
    differentNames s recur path target source targetName sourceName .invariant =
      .answer .notAssignable := by
  simp [differentNames, hfunctional]

/-- What `trivial` takes for the same is the same up to array dimensions. -/
theorem dimensionless_of_trivial {q : Query} (h : q.trivial = true) :
    q.target.dimensionless = q.source.dimensionless := by
  obtain ⟨⟨base, arguments, arrays, wildcard⟩, ⟨base', arguments', arrays', wildcard'⟩,
    ignoreArrays, mode⟩ := q
  simp only [Query.trivial, TypeExpr.equalsIgnoringArrays, Bool.or_eq_true, Bool.and_eq_true,
    decide_eq_true_eq, TypeExpr.mk.injEq] at h
  rcases h with ⟨rfl, rfl, -, rfl⟩ | ⟨-, ⟨rfl, rfl⟩, rfl⟩
  · simp only [TypeExpr.dimensionless]
  · simp only [TypeExpr.dimensionless]

/-- Arguments that are compared up to array dimensions one by one are so as a whole. -/
theorem sumOf_arguments_iff {answer : Query → Outcome Distance} {mode : Mode}
    {as bs : List TypeExpr} (hlength : as.length = bs.length)
    (h : ∀ p ∈ as.zip bs, ∃ d, answer (argumentQuery mode p.1 p.2) = .answer d ∧
      (d.isAssignable = true ↔ p.1.dimensionless = p.2.dimensionless)) :
    ∃ total, sumOf answer (List.zipWith (argumentQuery mode) as bs) .equal = .answer total ∧
      (total.isAssignable = true ↔
        TypeExpr.dimensionlessList as = TypeExpr.dimensionlessList bs) := by
  rw [← List.map_uncurry_zip_eq_zipWith]
  have hanswers : ∀ q ∈ (as.zip bs).map (Function.uncurry (argumentQuery mode)),
      ∃ d, answer q = .answer d := by
    intro q hq
    obtain ⟨p, hp, rfl⟩ := List.mem_map.mp hq
    obtain ⟨d, hd, _⟩ := h p hp
    exact ⟨d, hd⟩
  obtain ⟨total, htotal, hiff⟩ := exists_sumOf hanswers .equal
  refine ⟨total, htotal, ?_⟩
  rw [hiff, TypeExpr.dimensionlessList_eq_iff hlength]
  constructor
  · rintro ⟨_, hall⟩ p hp
    obtain ⟨d, hd, hdiff⟩ := h p hp
    exact hdiff.mp (hall _ (List.mem_map.mpr ⟨p, hp, rfl⟩) d hd)
  · intro hall
    refine ⟨rfl, fun q hq d hd => ?_⟩
    obtain ⟨p, hp, rfl⟩ := List.mem_map.mp hq
    obtain ⟨d', hd', hdiff⟩ := h p hp
    have hsame : d = d' := by
      have := hd.symm.trans hd'
      simpa using this
    exact hsame ▸ hdiff.mpr (hall p hp)

/-- Ordinary types that have to be the same are so exactly up to array dimensions. -/
theorem search_invariant_iff (s : Setting) {X Y : TypeExpr} (hX : s.hierarchy.Ordinary X)
    (hY : s.hierarchy.Ordinary Y) {depth : Nat} (hdepth : X.nesting ≤ depth) (path : List Visit) :
    ∃ d, search s depth path ⟨X, Y, true, .invariant⟩ = .answer d ∧
      (d.isAssignable = true ↔ X.dimensionless = Y.dimensionless) := by
  induction hX generalizing Y depth with
  | @intro name arguments arrays hfunctional harity hordinary ih =>
    obtain @⟨name', arguments', arrays', _, harity', hordinary'⟩ := hY
    rw [TypeExpr.nesting] at hdepth
    obtain ⟨n, rfl⟩ : ∃ n, depth = n + 1 := ⟨depth - 1, by omega⟩
    rw [search, step_named rfl rfl (by simp) (by simp), concrete_named rfl rfl (Or.inl rfl)]
    by_cases htrivial : Query.trivial ⟨⟨.nominal name, arguments, arrays, .plain⟩,
        ⟨.nominal name', arguments', arrays', .plain⟩, true, .invariant⟩ = true
    · rw [if_pos htrivial]
      exact ⟨_, rfl, iff_of_true rfl (dimensionless_of_trivial htrivial)⟩
    rw [if_neg htrivial, if_neg (by simp)]
    by_cases hname : name = name'
    · subst hname
      have hlength : arguments.length = arguments'.length := harity.trans harity'.symm
      -- without arguments the two would be trivially the same
      have hne : arguments ≠ [] := by
        rintro rfl
        have hnil : arguments' = [] := List.eq_nil_of_length_eq_zero hlength.symm
        subst hnil
        exact htrivial (by simp [Query.trivial, TypeExpr.equalsIgnoringArrays])
      rw [if_pos rfl, sameName_arguments _ _ (by simp) hne hlength]
      have hpairs : ∀ p ∈ arguments.zip arguments',
          ∃ d, search s n path (argumentQuery .invariant p.1 p.2) = .answer d ∧
            (d.isAssignable = true ↔ p.1.dimensionless = p.2.dimensionless) := by
        intro p hp
        obtain ⟨hleft, hright⟩ := List.of_mem_zip hp
        have hle := TypeExpr.nestingList_le hleft
        exact ih p.1 hleft (hordinary' p.2 hright) (by omega)
      simpa [TypeExpr.dimensionless] using sumOf_arguments_iff hlength hpairs
    · rw [if_neg hname, differentNames_invariant _ _ _ _ _ _ hfunctional]
      exact ⟨_, rfl, by simp [Distance.isAssignable, TypeExpr.dimensionless, hname]⟩

end Assignability

namespace Hierarchy

/-- A generic type can be assigned to itself with other ordinary arguments exactly if the arguments
are the same up to array dimensions. No declaration is looked up, so there always is an answer. -/
theorem distance_argument_iff (h : Hierarchy) (reversed : List TypeParameter) {G : String}
    (hG : G ≠ TypeExpr.objectName) {X Y : TypeExpr} (hX : h.Ordinary X) (hY : h.Ordinary Y) :
    ∃ d, h.distance reversed (.applied G [X]) (.applied G [Y]) .covariant = .answer d ∧
      (d.isAssignable = true ↔ X.dimensionless = Y.dimensionless) := by
  obtain ⟨n, hn⟩ : ∃ n, Assignability.searchDepth h (.applied G [X]) (.applied G [Y]) = n + 1 :=
    ⟨_, rfl⟩
  have hdepth : X.nesting ≤ n := by
    simp only [Assignability.searchDepth, TypeExpr.applied, TypeExpr.nesting,
      TypeExpr.nestingList] at hn
    omega
  suffices hsearch : ∃ d, Assignability.search ⟨h, reversed, true⟩
      (Assignability.searchDepth h (.applied G [X]) (.applied G [Y])) []
      ⟨.applied G [X], .applied G [Y], false, .covariant⟩ = .answer d ∧
      (d.isAssignable = true ↔ X.dimensionless = Y.dimensionless) by
    obtain ⟨d, hd, hiff⟩ := hsearch
    exact ⟨d, distance_of_search hd, hiff⟩
  rw [hn, Assignability.search, Assignability.step_named rfl rfl (by simp) (by simp),
    Assignability.concrete_named rfl rfl (Or.inr ⟨rfl, rfl⟩)]
  by_cases htrivial : Assignability.Query.trivial
      ⟨.applied G [X], .applied G [Y], false, .covariant⟩ = true
  · rw [if_pos htrivial]
    refine ⟨_, rfl, iff_of_true rfl ?_⟩
    have hsame := Assignability.dimensionless_of_trivial htrivial
    simpa [TypeExpr.applied, TypeExpr.dimensionless, TypeExpr.dimensionlessList] using hsame
  have htop : Assignability.Query.topTakes
      ⟨.applied G [X], .applied G [Y], false, .covariant⟩ = false := by
    simp [Assignability.Query.topTakes, TypeExpr.isObject, TypeExpr.name?, TypeExpr.applied, hG]
  rw [if_neg htrivial, if_neg (by simp [htop]), if_pos rfl,
    Assignability.sameName_arguments _ _ (by simp) (by simp [TypeExpr.applied])
      (by simp [TypeExpr.applied])]
  have hpair : ∀ p ∈ [X].zip [Y],
      ∃ d, Assignability.search ⟨h, reversed, true⟩ n []
          (Assignability.argumentQuery .covariant p.1 p.2) = .answer d ∧
        (d.isAssignable = true ↔ p.1.dimensionless = p.2.dimensionless) := by
    intro p hp
    obtain rfl : p = (X, Y) := by simpa using hp
    have hmode : Mode.covariant.forArgument X.wildcard = .invariant := by
      rw [hX.wildcard_eq]
      rfl
    rw [Assignability.argumentQuery, hmode]
    exact Assignability.search_invariant_iff ⟨h, reversed, true⟩ hX hY hdepth []
  simpa [TypeExpr.applied, TypeExpr.dimensionlessList] using
    Assignability.sumOf_arguments_iff (by simp) hpair

/-- A list of lists of texts takes a list of lists of arrays of texts, and no list of lists of
numbers. -/
theorem list_of_text_arrays_fits :
    let nested := fun t => TypeExpr.applied "java.util.List" [t]
    let text := TypeExpr.nominal "java.lang.String"
    let texts : TypeExpr := { text with arrays := 1 }
    let number := TypeExpr.nominal "java.lang.Number"
    (∃ d, Platform.hierarchy.distance [] (nested (nested text)) (nested (nested texts)) .covariant =
        .answer d ∧ d.isAssignable = true) ∧
      ∃ d, Platform.hierarchy.distance [] (nested (nested text)) (nested (nested number))
        .covariant = .answer d ∧ d.isAssignable = false := by
  intro nested text texts number
  have hplain : ∀ name arrays, Platform.hierarchy.isFunctional name = false →
      0 = Platform.hierarchy.arity name →
      Platform.hierarchy.Ordinary ⟨.nominal name, [], arrays, .plain⟩ :=
    fun name arrays hf ha => .intro hf ha (by simp)
  have hnested : ∀ t, Platform.hierarchy.Ordinary t → Platform.hierarchy.Ordinary (nested t) :=
    fun t ht => .intro rfl rfl (by simpa using ht)
  have htext : Platform.hierarchy.Ordinary text := hplain _ 0 rfl rfl
  have htexts : Platform.hierarchy.Ordinary texts := hplain _ 1 rfl rfl
  have hnumber : Platform.hierarchy.Ordinary number := hplain _ 0 rfl rfl
  have hlist : "java.util.List" ≠ TypeExpr.objectName := by decide
  obtain ⟨d, hd, hiff⟩ := distance_argument_iff Platform.hierarchy [] hlist
    (hnested text htext) (hnested texts htexts)
  obtain ⟨d', hd', hiff'⟩ := distance_argument_iff Platform.hierarchy [] hlist
    (hnested text htext) (hnested number hnumber)
  refine ⟨⟨d, hd, hiff.mpr rfl⟩, d', hd', ?_⟩
  have hne : ¬ (nested text).dimensionless = (nested number).dimensionless := by decide +kernel
  simpa using fun h => hne (hiff'.mp h)

/-- Arguments that differ only in array dimensions count as the same, at no cost. -/
theorem argument_dimensions_ignored :
    let text := TypeExpr.nominal "java.lang.String"
    let texts : TypeExpr := { text with arrays := 1 }
    text ≠ texts ∧
      Platform.hierarchy.distance [] (.applied "java.util.List" [text])
        (.applied "java.util.List" [texts]) .covariant = .answer .equal := by
  exact ⟨by decide, rfl⟩

end Hierarchy

end Mutability
