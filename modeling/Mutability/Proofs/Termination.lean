import Mathlib.Data.Finset.Card
import Mathlib.Data.Finset.Prod
import Mutability.Proofs.Depth
import Mutability.Proofs.Search
import Mutability.Proofs.SupertypePath

/-!
# Searches over finitely many types come to an end

Supertypes may be cyclic and bounds may come back to their parameter, so the hierarchy is no measure
of a search. But if the types it can come to are finitely many, then so are its visits, and none is
made while it is under way. Between two visits the types get smaller, up to a change of sides.
-/

namespace Mutability

/-! ## Finitely many types -/

namespace Hierarchy

/-- The declared bounds of a type that is a type parameter. -/
def boundsOf (h : Hierarchy) (t : TypeExpr) : List TypeExpr :=
  match t.parameter? with
  | some p => (h.bounds p).toOption.getD []
  | none => []

/-- A set of types that no part, bound or supertype leads out of. -/
structure ClosedTypes (h : Hierarchy) (types : Finset TypeExpr) : Prop where
  arguments : ∀ t ∈ types, ∀ a ∈ t.arguments, a ∈ types
  elements : ∀ t ∈ types, t.withoutArrays ∈ types
  bounds : ∀ t ∈ types, ∀ b ∈ h.boundsOf t, b ∈ types
  supertypes : ∀ t ∈ types, ∀ u ∈ h.hops t, u ∈ types

/-- A property of types that no part, bound or supertype leads out of. -/
structure ClosedUnder (h : Hierarchy) (P : TypeExpr → Prop) : Prop where
  arguments : ∀ t, P t → ∀ a ∈ t.arguments, P a
  elements : ∀ t, P t → P t.withoutArrays
  bounds : ∀ t, P t → ∀ b ∈ h.boundsOf t, P b
  supertypes : ∀ t, P t → ∀ u ∈ h.hops t, P u

variable {h : Hierarchy}

theorem ClosedTypes.closedUnder {types : Finset TypeExpr} (hclosed : h.ClosedTypes types) :
    h.ClosedUnder (· ∈ types) :=
  ⟨hclosed.arguments, hclosed.elements, hclosed.bounds, hclosed.supertypes⟩

theorem mem_boundsOf {t : TypeExpr} {p : TypeParameter} {bounds : List TypeExpr}
    (hbase : t.base = .parameter p) (hbounds : h.bounds p = .ok bounds) {b : TypeExpr}
    (hb : b ∈ bounds) : b ∈ h.boundsOf t := by
  simpa [boundsOf, TypeExpr.parameter?, hbase, hbounds, Except.toOption] using hb

end Hierarchy

namespace Assignability

/-! ## Visits over finitely many types -/

/-- The types that visits are made of: a parameter loses what it carries, and a source its
wildcard. -/
def visitTypes (types : Finset TypeExpr) : Finset TypeExpr :=
  types ∪ types.image (fun t => .ofBase t.base) ∪ types.image fun t => { t with wildcard := .plain }

def visits (types : Finset TypeExpr) : Finset Visit :=
  (visitTypes types ×ˢ visitTypes types ×ˢ
    {Mode.invariant, .covariant, .contravariant, .any, .erasure}).image fun v =>
      ⟨v.1, v.2.1, v.2.2⟩

/-- The number of visits that are not under way. -/
def unused (types : Finset TypeExpr) (path : List Visit) : Nat :=
  (visits types \ path.toFinset).card

section Visits

variable {types : Finset TypeExpr}

theorem mem_visitTypes {t : TypeExpr} (ht : t ∈ types) :
    t ∈ visitTypes types ∧ TypeExpr.ofBase t.base ∈ visitTypes types ∧
      { t with wildcard := .plain } ∈ visitTypes types := by
  refine ⟨?_, ?_, ?_⟩
  · exact Finset.mem_union_left _ (Finset.mem_union_left _ ht)
  · exact Finset.mem_union_left _ (Finset.mem_union_right _ (Finset.mem_image_of_mem _ ht))
  · exact Finset.mem_union_right _
      (Finset.mem_image_of_mem (fun t : TypeExpr => { t with wildcard := .plain }) ht)

theorem mem_visits {target source : TypeExpr} (ht : target ∈ visitTypes types)
    (hs : source ∈ visitTypes types) (mode : Mode) : ⟨target, source, mode⟩ ∈ visits types := by
  refine Finset.mem_image.mpr ⟨(target, source, mode), ?_, rfl⟩
  refine Finset.mem_product.mpr ⟨ht, Finset.mem_product.mpr ⟨hs, ?_⟩⟩
  cases mode <;> simp

theorem unused_cons_lt {path : List Visit} {v : Visit} (hv : v ∈ visits types)
    (hnew : v ∉ path) : unused types (v :: path) < unused types path := by
  refine Finset.card_lt_card (Finset.ssubset_iff_of_subset ?_ |>.mpr ⟨v, ?_, ?_⟩)
  · intro x hx
    simp only [Finset.mem_sdiff, List.mem_toFinset, List.mem_cons] at hx ⊢
    exact ⟨hx.1, fun hmem => hx.2 (Or.inr hmem)⟩
  · simpa using ⟨hv, hnew⟩
  · simp

end Visits

/-! ## What gets less -/

/-- What every comparison that is no visit lowers: the size of the two types, then the mode, then
the side that a parameter stands on. -/
noncomputable def weight (q : Query) : Nat :=
  3 * (sizeOf q.target + sizeOf q.source) +
    (if q.mode = .contravariant ∨ q.mode = .any then 2
     else if q.target.parameter?.isSome then 0 else 1)

section Makes

variable {h : Hierarchy} {reversed : List TypeParameter} {q q' : Query} {m : Move}
  {types : Finset TypeExpr}

theorem weight_lt_of_size_lt
    (hsize : sizeOf q'.target + sizeOf q'.source < sizeOf q.target + sizeOf q.source) :
    weight q' < weight q := by
  unfold weight
  split_ifs <;> omega

theorem weight_lt_of_size_eq
    (hsize : sizeOf q'.target + sizeOf q'.source = sizeOf q.target + sizeOf q.source)
    (hmode : q.mode = .contravariant ∨ q.mode = .any) (hmode' : q'.mode = .covariant) :
    weight q' < weight q := by
  unfold weight
  rw [hmode', if_pos hmode, if_neg (by simp)]
  split_ifs <;> omega

theorem sizeOf_withoutArrays (t : TypeExpr) :
    sizeOf t.withoutArrays + t.arrays.toNat = sizeOf t := by
  cases t
  simp [TypeExpr.withoutArrays, UInt64.sizeOf]
  omega

theorem mem_arguments_of_mem_zipWith {mode : Mode} {as bs : List TypeExpr}
    (hq : q ∈ List.zipWith (argumentQuery mode) as bs) :
    q.target ∈ as ∧ q.source ∈ bs ∧ q.mode = mode.forArgument q.target.wildcard := by
  rw [← List.map_uncurry_zip_eq_zipWith] at hq
  obtain ⟨p, hp, rfl⟩ := List.mem_map.mp hq
  obtain ⟨hleft, hright⟩ := List.of_mem_zip hp
  exact ⟨hleft, hright, rfl⟩

theorem Makes.weight_lt (hmakes : Makes h reversed q m) (hplain : m.visit? = none)
    (hq' : q' ∈ m.asked h) : weight q' < weight q := by
  cases hmakes with
  | done => simp [Move.asked] at hq'
  | flip hmode =>
    obtain rfl := List.mem_singleton.mp hq'
    exact weight_lt_of_size_eq (Nat.add_comm _ _) (Or.inl hmode) rfl
  | both hmode =>
    simp only [Move.asked, List.mem_cons, List.not_mem_nil, or_false] at hq'
    rcases hq' with rfl | rfl
    · exact weight_lt_of_size_eq rfl (Or.inr hmode) rfl
    · exact weight_lt_of_size_eq (Nat.add_comm _ _) (Or.inr hmode) rfl
  | elements harrays =>
    obtain rfl := List.mem_singleton.mp hq'
    have htarget := sizeOf_withoutArrays q.target
    have hsource := sizeOf_withoutArrays q.source
    have harrays := UInt64.lt_iff_toNat_lt.mp harrays
    exact weight_lt_of_size_lt (by simp only; omega)
  | arguments =>
    obtain ⟨ht, hs, -⟩ := mem_arguments_of_mem_zipWith hq'
    have htarget := TypeExpr.sizeOf_lt_of_mem_arguments ht
    have hsource := TypeExpr.sizeOf_lt_of_mem_arguments hs
    exact weight_lt_of_size_lt (by omega)
  | swap hmode htarget hsource =>
    obtain rfl := List.mem_singleton.mp hq'
    have htarget : q.target.parameter?.isSome = false := by
      unfold TypeExpr.parameter?
      cases hbase : q.target.base <;> simp_all [IsConcrete]
    have hsource : q.source.parameter?.isSome = true := by simp [TypeExpr.parameter?, hsource]
    have hdirected : ¬ (q.mode = .contravariant ∨ q.mode = .any) := not_or.mpr hmode
    simp only [weight, hdirected, htarget, hsource, ↓reduceIte, Bool.false_eq_true]
    omega
  | climb => cases hplain
  | sourceBounds => cases hplain
  | targetBounds => cases hplain
  | bothBounds => cases hplain

theorem Makes.closedUnder {P : TypeExpr → Prop} (hmakes : Makes h reversed q m)
    (hclosed : h.ClosedUnder P) (ht : P q.target) (hs : P q.source) (hq' : q' ∈ m.asked h) :
    P q'.target ∧ P q'.source := by
  cases hmakes with
  | done => simp [Move.asked] at hq'
  | flip =>
    obtain rfl := List.mem_singleton.mp hq'
    exact ⟨hs, ht⟩
  | both =>
    simp only [Move.asked, List.mem_cons, List.not_mem_nil, or_false] at hq'
    rcases hq' with rfl | rfl
    · exact ⟨ht, hs⟩
    · exact ⟨hs, ht⟩
  | elements =>
    obtain rfl := List.mem_singleton.mp hq'
    exact ⟨hclosed.elements _ ht, hclosed.elements _ hs⟩
  | arguments =>
    obtain ⟨htarget, hsource, -⟩ := mem_arguments_of_mem_zipWith hq'
    exact ⟨hclosed.arguments _ ht _ htarget, hclosed.arguments _ hs _ hsource⟩
  | swap =>
    obtain rfl := List.mem_singleton.mp hq'
    exact ⟨hs, ht⟩
  | climb _ hsource hd =>
    obtain ⟨declared, hdeclared, u, hok, rfl⟩ := Move.exists_of_mem_asked_climb hq'
    exact ⟨ht, hclosed.supertypes _ hs _
      (Hierarchy.hop_of_declared hsource hd (mem_supertypes_of_climbable hdeclared) hok)⟩
  | sourceBounds _ hsource hbounds =>
    obtain ⟨bound, hbound, rfl⟩ := List.mem_map.mp hq'
    exact ⟨ht, hclosed.bounds _ hs _ (Hierarchy.mem_boundsOf hsource hbounds hbound)⟩
  | targetBounds _ htarget hbounds =>
    obtain ⟨bound, hbound, hq'⟩ := List.mem_flatMap.mp hq'
    obtain ⟨source, hsource, rfl⟩ := List.mem_map.mp hq'
    rw [List.mem_singleton.mp hsource]
    exact ⟨hclosed.bounds _ ht _ (Hierarchy.mem_boundsOf htarget hbounds hbound), hs⟩
  | bothBounds htarget hbounds hsource hbounds' =>
    obtain ⟨bound, hbound, hq'⟩ := List.mem_flatMap.mp hq'
    obtain ⟨bound', hbound', rfl⟩ := List.mem_map.mp hq'
    exact ⟨hclosed.bounds _ ht _ (Hierarchy.mem_boundsOf htarget hbounds hbound),
      hclosed.bounds _ hs _ (Hierarchy.mem_boundsOf hsource hbounds' hbound')⟩

theorem Makes.visit_mem (hmakes : Makes h reversed q m) (ht : q.target ∈ types)
    (hs : q.source ∈ types) {v : Visit} (hv : m.visit? = some v) : v ∈ visits types := by
  obtain ⟨htarget, htargetBase, _⟩ := mem_visitTypes ht
  obtain ⟨hsource, hsourceBase, hsourcePlain⟩ := mem_visitTypes hs
  cases hmakes with
  | done | flip | both | elements | arguments | swap => cases hv
  | climb =>
    cases hv
    exact mem_visits htarget hsource _
  | sourceBounds _ hbase =>
    cases hv
    rw [hbase] at hsourceBase
    exact mem_visits htarget hsourceBase _
  | targetBounds _ hbase =>
    cases hv
    rw [hbase] at htargetBase
    exact mem_visits htargetBase hsourcePlain _
  | bothBounds hbase =>
    cases hv
    rw [hbase] at htargetBase
    exact mem_visits htargetBase hsourcePlain _

end Makes

/-! ## Termination -/

theorem Move.run_of_mem_path {h : Hierarchy} {reversed : List TypeParameter} {recur : Answerer}
    {path : List Visit} {m : Move} {v : Visit} (hvisit : m.visit? = some v) (hv : v ∈ path) :
    m.run ⟨h, reversed, true⟩ recur path = .answer .notAssignable := by
  cases m with
  | done | pass | either | sum => cases hvisit
  | bounds | climb =>
    cases hvisit
    simp [run, guarded, hv]

/-- A guarded search over closed types is finished at some depth. The induction is on the visits
that are not under way, and between two visits on the weight of the query. -/
theorem exists_search_of_closedTypes {h : Hierarchy} {types : Finset TypeExpr}
    (hclosed : h.ClosedTypes types) (reversed : List TypeParameter) (path : List Visit) (q : Query)
    (ht : q.target ∈ types) (hs : q.source ∈ types) :
    ∃ n, search ⟨h, reversed, true⟩ n path q ≠ .unfinished := by
  have hmakes := makes_move h reversed q
  cases hvisit : (move h reversed q).visit? with
  | none =>
    have henter : (move h reversed q).enter path = path := by simp [Move.enter, hvisit]
    refine exists_search_of_asked fun q' hq' => ?_
    have hweight : weight q' < weight q := hmakes.weight_lt hvisit hq'
    obtain ⟨ht', hs'⟩ := hmakes.closedUnder hclosed.closedUnder ht hs hq'
    simp only [henter]
    exact exists_search_of_closedTypes hclosed reversed path q' ht' hs'
  | some v =>
    have henter : (move h reversed q).enter path = v :: path := by simp [Move.enter, hvisit]
    by_cases hv : v ∈ path
    · exact ⟨1, by rw [search_succ, Move.run_of_mem_path hvisit hv]; exact nofun⟩
    · have hunused := unused_cons_lt (hmakes.visit_mem ht hs hvisit) hv
      refine exists_search_of_asked fun q' hq' => ?_
      obtain ⟨ht', hs'⟩ := hmakes.closedUnder hclosed.closedUnder ht hs hq'
      simp only [henter]
      exact exists_search_of_closedTypes hclosed reversed (v :: path) q' ht' hs'
termination_by (unused types path, weight q)
decreasing_by
  · exact Prod.Lex.right _ hweight
  · exact Prod.Lex.left _ _ hunused

end Assignability

namespace Hierarchy

/-- Every distance between two types of a finite closed set is found, whatever supertypes and bounds
come back to. -/
theorem distance_ne_unfinished {h : Hierarchy} {types : Finset TypeExpr}
    (hclosed : h.ClosedTypes types) (reversed : List TypeParameter) {target source : TypeExpr}
    (ht : target ∈ types) (hs : source ∈ types) (mode : Mode) :
    h.distance reversed target source mode ≠ .unfinished := by
  obtain ⟨n, hn⟩ := Assignability.exists_search_of_closedTypes hclosed reversed []
    ⟨target, source, false, mode⟩ ht hs
  rw [distance, Assignability.solve_eq_of_search hn]
  exact hn

/-- Two classes that extend each other, and a parameter that is compared to itself. -/
theorem distance_through_cycles :
    let ranked : TypeParameter := ⟨some (.type "com.example.Ranked"), 0, "T"⟩
    let rank := TypeExpr.parameter ranked
    let below : TypeExpr := { rank with wildcard := .upper }
    let bound := TypeExpr.applied "java.lang.Comparable" [below]
    let even := TypeExpr.nominal "com.example.Even"
    let odd := TypeExpr.nominal "com.example.Odd"
    let evens := TypeExpr.applied "java.lang.Comparable" [even]
    let h := Hierarchy.empty.override
      [⟨"java.lang.Comparable", .ofInterface, [⟨"T", []⟩], none, [], none⟩,
       ⟨"com.example.Ranked", .ofClass, [⟨"T", [bound]⟩], none, [], none⟩,
       ⟨"com.example.Even", .ofClass, [], some odd, [evens], none⟩,
       ⟨"com.example.Odd", .ofClass, [], some even, [], none⟩]
    h.ClosedTypes {rank, below, bound, even, odd, evens} ∧
      h.distance [ranked] rank odd .any ≠ .unfinished := by
  intro ranked rank below bound even odd evens h
  have hclosed : h.ClosedTypes {rank, below, bound, even, odd, evens} := by
    constructor
    · decide +kernel
    · decide +kernel
    · decide +kernel
    · decide +kernel
  exact ⟨hclosed, distance_ne_unfinished hclosed [ranked] (by simp) (by simp) .any⟩

end Hierarchy

end Mutability
