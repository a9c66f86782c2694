import Mutability.Proofs.EndlessSearch
import Mutability.Proofs.SupertypeBindings
import Mutability.Proofs.WaysUp

/-!
# Subtypes are assignable to their supertypes

The search for the distance climbs the same hierarchy as the search for a supertype. It can stop
short of the supertype where two functional interfaces meet, as these are compared by their methods,
and it goes through bounds and through types more than once where the other does not. So a subtype
fits its supertype if one of its ways up leads to a type that fits, which is always so unless the
supertype is a functional interface; and the distance is found exactly if the search is never left
without an answer on the ways before.
-/

namespace Mutability

namespace Assignability

open Relation

variable {h : Hierarchy} {reversed : List TypeParameter} {found : TypeExpr} {name : String}

/-- Whether array dimensions count makes no difference where there are none. -/
theorem search_eq_ask (s : Setting) (n : Nat) (path : List Visit) {sub : TypeExpr} {own : String}
    (hfound : found.base = .nominal name) (hbase : sub.base = .nominal own)
    (hzero : found.arrays = 0) (harrays : sub.arrays = 0) :
    search s n path ⟨found, sub, false, .covariant⟩ = search s n path (ask found sub) := by
  cases n with
  | zero => rfl
  | succ n =>
    have hboth : found.arrays = 0 ∧ sub.arrays = 0 := ⟨hzero, harrays⟩
    rw [search, ask, step_named hfound hbase (by simp) (by simp),
      step_named hfound hbase (by simp) (by simp), trivial_eq_equalsIgnoringArrays (Or.inr hboth),
      trivial_eq_equalsIgnoringArrays (Or.inl rfl), concrete_named hfound hbase (Or.inr hboth),
      concrete_named hfound hbase (Or.inl rfl)]
    simp [Query.topTakes, hzero]

theorem compares_self (reversed : List TypeParameter) (under : List TypeExpr) (t : TypeExpr) :
    Compares h reversed t under t .equal := by
  refine ⟨1, ?_⟩
  rw [search, step, if_pos (by simp [Query.trivial, ask])]

/-! ## The way of the search for a supertype -/

/-- There is no way on from the top type. -/
theorem searchSupertype_of_isObject (hbuilt : h.FromPlatform) (hobject : name ≠ TypeExpr.objectName)
    {n : Nat} {u : TypeExpr} {visited visited' : List String} (hu : u.isObject = true) :
    h.searchSupertype name n u visited ≠ .ok (some found, visited') := by
  intro hresult
  have hbase : u.base = .nominal TypeExpr.objectName := by
    rwa [TypeExpr.isObject, decide_eq_true_eq, TypeExpr.name?_eq_some_iff] at hu
  cases n with
  | zero => cases hresult
  | succ n =>
    rcases Hierarchy.searchSupertype_succ_eq_ok hresult with
      ⟨-, hnone⟩ | ⟨hname, -⟩ | ⟨own, d, hown, -, -, hd, hrest⟩
    · cases hnone
    · exact hobject (by simpa [hbase] using hname.symm)
    · cases hbase.symm.trans hown
      rw [hbuilt.find?_of_platform Platform.find?_object] at hd
      cases hd
      cases hrest

/-- The search for a supertype goes to each name once, so its way to one that is no functional
interface is a way up. -/
theorem leadsUp_of_searchSupertype (hbuilt : h.FromPlatform) (hobject : name ≠ TypeExpr.objectName)
    (hfunctional : h.isFunctional name = false) {n : Nat} {t : TypeExpr}
    {visited visited' : List String} {under : List TypeExpr}
    (hunder : ∀ u ∈ under, ∃ m ∈ visited, u.base = .nominal m)
    (hresult : h.searchSupertype name n t visited = .ok (some found, visited')) :
    LeadsUp h reversed found name under t := by
  induction n generalizing t visited under with
  | zero => cases hresult
  | succ n ih =>
    rcases Hierarchy.searchSupertype_succ_eq_ok hresult with
      ⟨-, hnone⟩ | ⟨hname, hself⟩ | ⟨own, d, hbase, hne, hnew, hd, hrest⟩
    · cases hnone
    · cases hself
      exact .here (.direct (Or.inl hname) (compares_self reversed under _) rfl)
    · obtain ⟨declared, hmem, u, before, hu, hsubset, hvisit⟩ :=
        Hierarchy.firstSupertype_eq_some (fun _ _ _ => Hierarchy.subset_searchSupertype) hrest
      have hprint : footprint t = t := by simp [footprint, hbase]
      have hopen : footprint t ∉ under := by
        rw [hprint]
        intro htmem
        obtain ⟨m, hm, htm⟩ := hunder t htmem
        cases hbase.symm.trans htm
        exact hnew hm
      have habove : u ∈ above h reversed name t := by
        rcases mem_climbable_or_isObject hmem with hclimb | htop
        · rw [above_eq_filterMap hbase hne (by simp [hfunctional]) hd]
          exact List.mem_filterMap.mpr ⟨declared, hclimb, by rw [hu]; rfl⟩
        · refine absurd hvisit (searchSupertype_of_isObject hbuilt hobject ?_)
          have hplain : declared.parameter? = none := by
            rw [TypeExpr.isObject, decide_eq_true_eq, TypeExpr.name?_eq_some_iff] at htop
            simp [TypeExpr.parameter?, htop]
          rwa [TypeExpr.isObject, TypeExpr.name?, Hierarchy.base_directSupertype hplain hu]
      refine .up hopen habove (ih (fun v hv => ?_) hvisit)
      rw [hprint] at hv
      rcases List.mem_cons.mp hv with rfl | hv
      · exact ⟨own, hsubset List.mem_cons_self, hbase⟩
      · obtain ⟨m, hm, hvm⟩ := hunder v hv
        exact ⟨m, hsubset (List.mem_cons_of_mem own hm), hvm⟩

/-- Without type parameters among the supertypes the height of a name is a measure of the search,
and a supertype that is the only one of its name compares to itself. -/
theorem answered_of_fixedAbove (hbuilt : h.FromPlatform) (hclosed : h.Closed) {n : Nat}
    {t : TypeExpr} (ht : t.Every h.Knows) (hfixed : h.FixedAbove t) (hplain : t.parameter? = none)
    (hheight : ∀ own, t.base = .nominal own → h.height own < n)
    (hsame : ∀ u, ReflTransGen h.Hop t u → u.base = .nominal name → u = found)
    (under : List TypeExpr) : Answered h reversed found name under t := by
  induction n using Nat.strong_induction_on generalizing t under with
  | _ n ih =>
    by_cases hdirect : Direct reversed name t
    · rcases hdirect with hname | ⟨p, -, hp⟩
      · obtain rfl := hsame t .refl hname
        exact .direct (Or.inl hname) (compares_self reversed under t)
      · simp [TypeExpr.parameter?, hp] at hplain
    · refine .up hdirect (by simp [hplain]) fun _ before u after hsplit _ => ?_
      have hu : u ∈ above h reversed name t := by simp [hsplit]
      cases hbase : t.base with
      | nominal own =>
        obtain ⟨d, declared, hd, hdeclared, hok⟩ := declared_of_mem_above hbase hu
        have hmem := mem_supertypes_of_climbable hdeclared
        have hup := hfixed.oneUp hbuilt hclosed ht hbase hd hmem hok
        have hhop : h.Hop t u := Hierarchy.hop_of_declared hbase hd hmem hok
        exact ih (h.height own) (hheight own hbase) hup.known hup.fixed hup.plain hup.lower
          (fun v huv hv => hsame v (.head hhop huv) hv) _
      | parameter p => simp [TypeExpr.parameter?, hbase] at hplain
      | primitive | null | wildcard => simp [above, hbase] at hu

end Assignability

namespace Hierarchy

open Relation Assignability

variable {h : Hierarchy}

/-- A distance is an answer of the search at some depth. -/
theorem distance_eq_answer_iff {reversed : List TypeParameter} {target source : TypeExpr}
    {mode : Mode} {d : Distance} : h.distance reversed target source mode = .answer d ↔
      ∃ n, search ⟨h, reversed, true⟩ n [] ⟨target, source, false, mode⟩ = .answer d := by
  constructor
  · intro hd
    obtain ⟨n, hn⟩ := exists_depth_solve ⟨h, reversed, true⟩ ⟨target, source, false, mode⟩
    exact ⟨n, (hn n (Nat.le_refl n)).trans hd⟩
  · rintro ⟨n, hn⟩
    exact solve_eq_answer hn

/-- The top type takes whatever is no array type. -/
theorem exists_distance_object (reversed : List TypeParameter) {target source : TypeExpr}
    {own : String} (htarget : target.base = .nominal TypeExpr.objectName)
    (hzero : target.arrays = 0) (hsource : source.base = .nominal own) :
    ∃ d, h.distance reversed target source .covariant = .answer d ∧ d.isAssignable = true := by
  have htop : Query.topTakes ⟨target, source, false, .covariant⟩ = true := by
    simp [Query.topTakes, TypeExpr.isObject, TypeExpr.name?, htarget, hzero]
  refine ⟨if Query.trivial ⟨target, source, false, .covariant⟩ then .equal else .hop,
    distance_eq_answer_iff.mpr ⟨1, ?_⟩, by split <;> rfl⟩
  rw [search, step_named htarget hsource (by simp) (by simp), htop]
  split <;> simp_all

section Supertype

variable (hbuilt : h.FromPlatform) (hclosed : h.Closed)
  (hmethods : ∀ b ∈ h.methodBounds, ∀ n ∈ b.names, h.Declares n)
  (reversed : List TypeParameter) {sub found : TypeExpr} {own name : String}
  (hbase : sub.base = .nominal own) (harrays : sub.arrays = 0)
  (hnames : ∀ n ∈ sub.names, h.Declares n)
  (hfound : h.supertype? sub name = .ok (some found))

include hbase harrays hfound

/-- An array type and the top type are compared at once; for any other supertype the search goes
up. -/
theorem distance_supertype_cases :
    (found.arrays ≠ 0 ∧ h.distance reversed found sub .covariant = .answer .notAssignable) ∨
    (found.arrays = 0 ∧ name = TypeExpr.objectName ∧
      ∃ d, h.distance reversed found sub .covariant = .answer d ∧ d.isAssignable = true) ∨
    (found.arrays = 0 ∧ name ≠ TypeExpr.objectName ∧
      ∀ d, h.distance reversed found sub .covariant = .answer d ↔
        Compares h reversed found [] sub d) := by
  have hname : found.base = .nominal name := base_of_supertype? hfound
  by_cases hzero : found.arrays = 0
  · by_cases hobject : name = TypeExpr.objectName
    · exact Or.inr (Or.inl ⟨hzero, hobject,
        exists_distance_object reversed (hobject ▸ hname) hzero hbase⟩)
    · refine Or.inr (Or.inr ⟨hzero, hobject, fun d => ?_⟩)
      rw [distance_eq_answer_iff]
      simp only [search_eq_ask _ _ _ hname hbase hzero harrays]
      rfl
  · refine Or.inl ⟨hzero, distance_eq_answer_iff.mpr ⟨1, ?_⟩⟩
    rw [search]
    exact step_arrays_ne hname hbase rfl rfl harrays hzero

omit hbase in
theorem searchSupertype_of_supertype? :
    ∃ visited, h.searchSupertype name (h.size + 1) sub [] = .ok (some found, visited) := by
  have hsame : sub.withoutArrays = sub := by
    cases sub
    simpa [TypeExpr.withoutArrays] using harrays.symm
  simpa [hsame] using supertype?_eq_ok hfound

include hbuilt hclosed hmethods hnames

omit hbase in
theorem sought_of_supertype? (hobject : name ≠ TypeExpr.objectName) : Sought h found name where
  built := hbuilt
  closed := hclosed
  methods := hmethods
  base_eq := base_of_supertype? hfound
  ne_object := hobject
  known := by
    obtain ⟨visited, hresult⟩ := searchSupertype_of_supertype? harrays hfound
    exact (hbuilt.upClosed hclosed).of_hops (every_knows hnames) (hops_of_searchSupertype hresult)

theorem exists_distance_supertype_iff :
    (∃ d, h.distance reversed found sub .covariant = .answer d) ↔
      (found.arrays = 0 → name ≠ TypeExpr.objectName →
        Answered h reversed found name [] sub) := by
  rcases distance_supertype_cases reversed hbase harrays hfound with
    ⟨hzero, hd⟩ | ⟨hzero, hobject, d, hd, -⟩ | ⟨hzero, hobject, hcompares⟩
  · exact iff_of_true ⟨_, hd⟩ fun hno => absurd hno hzero
  · exact iff_of_true ⟨d, hd⟩ fun _ hno => absurd hobject hno
  · simp only [hcompares, hzero, hobject, ne_eq, not_false_eq_true, true_imp_iff]
    exact exists_compares_iff
      (sought_of_supertype? hbuilt hclosed hmethods harrays hnames hfound hobject)
      (every_knows hnames)

theorem isAssignable_supertype_iff {d : Distance}
    (hd : h.distance reversed found sub .covariant = .answer d) :
    d.isAssignable = true ↔ found.arrays = 0 ∧
      (h.isFunctional name = true → LeadsUp h reversed found name [] sub) := by
  rcases distance_supertype_cases reversed hbase harrays hfound with
    ⟨hzero, he⟩ | ⟨hzero, hobject, e, he, hassignable⟩ | ⟨hzero, hobject, hcompares⟩
  · cases he.symm.trans hd
    exact iff_of_false nofun fun hboth => hzero hboth.1
  · cases he.symm.trans hd
    refine iff_of_true hassignable ⟨hzero, fun hfunctional => ?_⟩
    simp [hobject, hbuilt.isFunctional_object] at hfunctional
  · have hsought := sought_of_supertype? hbuilt hclosed hmethods harrays hnames hfound hobject
    rw [((hcompares d).mp hd).isAssignable_iff hsought (every_knows hnames)]
    cases hfunctional : h.isFunctional name with
    | true => simp [hzero]
    | false =>
      obtain ⟨visited, hresult⟩ := searchSupertype_of_supertype? harrays hfound
      have hleads : LeadsUp h reversed found name [] sub :=
        leadsUp_of_searchSupertype hbuilt hobject hfunctional (by simp) hresult
      simp [hzero, hleads]

end Supertype

/-- The distance from a type to its supertype of some name is found exactly if the search is
answered. That is so where no type parameter stands among the supertypes and there is one supertype
of the name only. The distance is assignable exactly if the supertype is no array type and, should
it be a functional interface, some way up leads to a type that fits it. -/
theorem distance_supertype_iff (hbuilt : h.FromPlatform) (hclosed : h.Closed)
    (hmethods : ∀ b ∈ h.methodBounds, ∀ n ∈ b.names, h.Declares n)
    (reversed : List TypeParameter) {sub found : TypeExpr} {own name : String}
    (hbase : sub.base = .nominal own) (harrays : sub.arrays = 0)
    (hnames : ∀ n ∈ sub.names, h.Declares n)
    (hfound : h.supertype? sub name = .ok (some found)) :
    ((∃ d, h.distance reversed found sub .covariant = .answer d) ↔
      (found.arrays = 0 → name ≠ TypeExpr.objectName →
        Answered h reversed found name [] sub)) ∧
    (h.FixedAbove sub →
      (∀ t, ReflTransGen h.Hop sub t → t.base = .nominal name → t = found) →
      ∃ d, h.distance reversed found sub .covariant = .answer d) ∧
    ∀ d, h.distance reversed found sub .covariant = .answer d →
      (d.isAssignable = true ↔ found.arrays = 0 ∧
        (h.isFunctional name = true → LeadsUp h reversed found name [] sub)) := by
  have hiff := exists_distance_supertype_iff hbuilt hclosed hmethods reversed hbase harrays hnames
    hfound
  refine ⟨hiff, fun hfixed hsame => hiff.mpr fun _ _ => ?_, fun d hd => ?_⟩
  · exact answered_of_fixedAbove hbuilt hclosed (every_knows hnames) hfixed
      (by simp [TypeExpr.parameter?, hbase]) (fun m _ => Nat.lt_succ_of_le (h.height_le_size m))
      hsame []
  · exact isAssignable_supertype_iff hbuilt hclosed hmethods reversed hbase harrays hnames hfound hd

/-- Both classes fit on a way that is not the one on which the supertype is found. A `Both` is a
`TextSource` first, whose method differs, and a `Source` second. A `Holder` is some `T` that is a
`Part`, and what stands behind is not looked at. -/
theorem later_ways_fit :
    let source := TypeExpr.nominal "com.example.Source"
    let textSource := TypeExpr.nominal "com.example.TextSource"
    let both := TypeExpr.nominal "com.example.Both"
    let sources : List Declaration :=
      [⟨"com.example.Source", .ofInterface, [], none, [], some ⟨[], .nominal "java.lang.Object"⟩⟩,
       ⟨"com.example.TextSource", .ofInterface, [], none, [source],
        some ⟨[], .nominal "java.lang.String"⟩⟩,
       ⟨"com.example.Both", .ofClass, [], none, [textSource, source], none⟩]
    let part := TypeExpr.nominal "com.example.Part"
    let holder := TypeExpr.nominal "com.example.Holder"
    let held : TypeParameter := ⟨some (.type "com.example.Holder"), 0, "T"⟩
    let parts : List Declaration :=
      [⟨"com.example.Part", .ofInterface, [], none, [], none⟩,
       ⟨"com.example.Holder", .ofClass, [⟨"T", [part]⟩], none,
        [.parameter held, part, .parameter ⟨none, 0, "U"⟩], none⟩]
    (∃ h, Platform.hierarchy.register sources = .ok h ∧ h.Closed ∧
      h.supertype? both "com.example.Source" = .ok (some source) ∧
      ¬ h.MethodsAgree source textSource ∧
      ∃ d, h.distance [] source both .covariant = .answer d ∧ d.isAssignable = true) ∧
    ∃ h, Platform.hierarchy.register parts = .ok h ∧ h.Closed ∧
      h.supertype? holder "com.example.Part" = .ok (some part) ∧
      ∃ d, h.distance [] part holder .covariant = .answer d ∧ d.isAssignable = true := by
  intro source textSource both sources part holder held parts
  constructor
  · let h := Platform.hierarchy.extend sources
    have hregister : Platform.hierarchy.register sources = .ok h :=
      Platform.register_of_order (by decide +kernel) (by decide +kernel)
    have hclosed : h.Closed := by decide +kernel
    have hfixed : ∀ d ∈ h.declarations, ∀ t ∈ d.supertypes, t.parameter? = none := by
      decide +kernel
    have hfound : h.supertype? both "com.example.Source" = .ok (some source) := rfl
    have hdiffer : ¬ h.MethodsAgree source textSource := by
      intro hagree
      have hresults := (hagree _ _ rfl rfl).2
      revert hresults
      decide +kernel
    let types := [both, textSource, source]
    have hhops : ∀ t ∈ types, ∀ u ∈ h.hops t, u ∈ types := by decide +kernel
    obtain ⟨-, hexists, hiff⟩ := distance_supertype_iff (.register .platform hregister) hclosed
      (by decide +kernel) [] rfl rfl (by decide +kernel) hfound
    obtain ⟨d, hd⟩ := hexists (fun _ _ _ d _ hd => hfixed d (List.mem_of_find?_eq_some hd)) <| by
      intro t ht hname
      have hmem := mem_of_closed hhops (List.mem_cons_self ..) ht
      simp only [types, List.mem_cons, List.not_mem_nil, or_false] at hmem
      rcases hmem with rfl | rfl | rfl
      · exact absurd hname (by decide)
      · exact absurd hname (by decide)
      · rfl
    refine ⟨h, hregister, hclosed, hfound, hdiffer, d, hd, (hiff d hd).mpr ⟨rfl, fun _ => ?_⟩⟩
    have habove : source ∈ above h [] "com.example.Source" both := by decide +kernel
    exact .up (by simp) habove (.here (.direct (Or.inl rfl) (compares_self _ _ _) rfl))
  · let h := Platform.hierarchy.extend parts
    have hregister : Platform.hierarchy.register parts = .ok h :=
      Platform.register_of_order (by decide +kernel) (by decide +kernel)
    have hclosed : h.Closed := by decide +kernel
    have hfound : h.supertype? holder "com.example.Part" = .ok (some part) := rfl
    obtain ⟨hexists, -, hiff⟩ := distance_supertype_iff (.register .platform hregister) hclosed
      (by decide +kernel) [] rfl rfl (by decide +kernel) hfound
    have habove : above h [] "com.example.Part" holder =
        [.parameter held, part, .parameter ⟨none, 0, "U"⟩] := rfl
    have hbounds : above h [] "com.example.Part" (.parameter held) = [part] := rfl
    have hother : ∀ t : TypeExpr, t.base ≠ .nominal "com.example.Part" →
        ¬ Direct [] "com.example.Part" t := by simp [Direct]
    have hleads : LeadsUp h [] part "com.example.Part" [holder] (.parameter held) :=
      .up (by decide) (hbounds ▸ List.mem_cons_self)
        (.here (.direct (Or.inl rfl) (compares_self _ _ _) rfl))
    have hheld : Answered h [] part "com.example.Part" [holder] (.parameter held) := by
      refine .up (hother _ (by decide)) (fun p hp => ?_) fun _ before u after hsplit _ => ?_
      · cases hp
        exact ⟨[part], rfl⟩
      · have hu : u ∈ [part] := by simp [← hbounds, hsplit]
        obtain rfl := List.mem_singleton.mp hu
        exact .direct (Or.inl rfl) (compares_self _ _ _)
    obtain ⟨d, hd⟩ := hexists.mpr fun _ _ => by
      refine .up (hother _ (by decide)) nofun fun _ before u after hsplit hbefore => ?_
      rw [habove] at hsplit
      cases before with
      | nil =>
        cases hsplit
        exact hheld
      | cons x before =>
        obtain rfl := (List.cons.inj hsplit).1
        exact absurd hleads (hbefore rfl _ List.mem_cons_self)
    refine ⟨h, hregister, hclosed, hfound, d, hd, (hiff d hd).mpr ⟨rfl, fun hfunctional => ?_⟩⟩
    exact absurd hfunctional (by decide +kernel)

/-! ## A climb through ever larger types -/

namespace Growing

open TypeExpr

/-- The supertype `A<B<B<X>>>` of `B<X>`, where `A<T>` has its argument as a supertype. -/
def wrapped : TypeExpr :=
  .applied "com.example.A"
    [.applied "com.example.B" [.applied "com.example.B" [Platform.own "com.example.B" 0 "X"]]]

def wrapper : Declaration :=
  Platform.classOf "com.example.A" ["T"] [Platform.own "com.example.A" 0 "T"]

def growing : Declaration :=
  Platform.classOf "com.example.B" ["X"] [wrapped, .nominal "com.example.N"]

def declarations : List Declaration := [wrapper, .plainInterface "com.example.N", growing]

def hierarchy : Hierarchy := Platform.hierarchy.extend declarations

/-- The type that a climb comes to after as many rounds. -/
abbrev round (k : Nat) : TypeExpr := tower "com.example.B" (k + 1)

abbrev between (k : Nat) : TypeExpr := .applied "com.example.A" [round k]

theorem find?_wrapper : hierarchy.find? "com.example.A" = some wrapper := rfl

theorem find?_growing : hierarchy.find? "com.example.B" = some growing := rfl

theorem proper_round (k : Nat) : hierarchy.Proper (round k) :=
  proper_tower find?_growing rfl k .plain

theorem proper_between (k : Nat) : hierarchy.Proper (between k) :=
  proper_tower find?_wrapper rfl (k + 1) .plain

theorem knows_round (k : Nat) : (round k).Every hierarchy.Knows :=
  knows_tower (by decide +kernel) (by decide +kernel) (by decide +kernel) k .plain

theorem directSupertype_round (k : Nat) :
    hierarchy.directSupertype (round k) wrapped = .ok (between (k + 1)) := by
  have hseen : growing.seenFrom (round k) wrapped = between (k + 1) := by cases k <;> rfl
  obtain ⟨u, hu⟩ := exists_directSupertype (knows_round k) wrapped
  rw [hu, (proper_round k).eq_seenFrom rfl find?_growing (by decide) (by decide) hu, hseen,
    (proper_between (k + 1)).boxed]

theorem directSupertype_between (k : Nat) :
    hierarchy.directSupertype (between k) (Platform.own "com.example.A" 0 "T") =
      .ok (round k) := by
  have hknown : (between k).Every hierarchy.Knows :=
    knows_tower (by decide +kernel) (by decide +kernel) (by decide +kernel) (k + 1) .plain
  have hseen : wrapper.seenFrom (between k) (Platform.own "com.example.A" 0 "T") = round k := by
    cases k <;> rfl
  obtain ⟨u, hu⟩ := exists_directSupertype hknown (Platform.own "com.example.A" 0 "T")
  rw [hu, (proper_between k).eq_seenFrom rfl find?_wrapper (by decide) (by decide) hu, hseen,
    (proper_round k).boxed]

theorem directSupertype_named (k : Nat) :
    hierarchy.directSupertype (round k) (.nominal "com.example.N") =
      .ok (.nominal "com.example.N") := by
  obtain ⟨u, hu⟩ := exists_directSupertype (knows_round k) (.nominal "com.example.N")
  rw [hu, (proper_round k).eq_seenFrom rfl find?_growing (by decide) (by decide) hu]
  rfl

/-- The name of the growing type is gone to once only. -/
theorem supertype?_round (k : Nat) :
    hierarchy.supertype? (round k) "com.example.N" = .ok (some (.nominal "com.example.N")) := by
  obtain ⟨n, hn⟩ : ∃ n, hierarchy.size = n + 2 := ⟨_, rfl⟩
  have hbase : (round k).base = .nominal "com.example.B" := rfl
  have hbetween : (between (k + 1)).base = .nominal "com.example.A" := rfl
  have hnext : (round (k + 1)).base = .nominal "com.example.B" := rfl
  have hnamed : (nominal "com.example.N").base = .nominal "com.example.N" := rfl
  have hgrowing : growing.supertypes = [wrapped, .nominal "com.example.N"] := rfl
  have hwrapper : wrapper.supertypes = [Platform.own "com.example.A" 0 "T"] := rfl
  rw [supertype?, show (round k).withoutArrays = round k from rfl, hn]
  simp [searchSupertype, firstSupertype, require, hbase, hbetween, hnext, hnamed, hgrowing,
    hwrapper, find?_growing, find?_wrapper, directSupertype_round, directSupertype_between,
    directSupertype_named, bind, Except.bind, pure, Except.pure, Except.map]

theorem exists_above_round (k : Nat) :
    ∃ rest, above hierarchy [] "com.example.N" (round k) = between (k + 1) :: rest := by
  rw [above_eq_filterMap rfl (by decide) (by decide +kernel) find?_growing]
  show ∃ rest, List.filterMap _ [wrapped, .nominal "com.example.N"] = _
  rw [List.filterMap_cons, directSupertype_round]
  exact ⟨_, rfl⟩

theorem above_between (k : Nat) :
    above hierarchy [] "com.example.N" (between k) = [round k] := by
  rw [above_eq_filterMap rfl (by decide) (by decide +kernel) find?_wrapper]
  show List.filterMap _ [Platform.own "com.example.A" 0 "T"] = _
  rw [List.filterMap_cons, directSupertype_between]
  rfl

/-- How far a climb has come when it is at a type. -/
def progress (t : TypeExpr) : Nat :=
  if t.base = .nominal "com.example.A" then 2 * t.nesting - 3 else 2 * t.nesting

theorem progress_round (k : Nat) : progress (round k) = 2 * k + 4 := by
  have hbase : (round k).base = .nominal "com.example.B" := rfl
  rw [progress, hbase, if_neg (by simp), nesting_tower]
  omega

theorem progress_between (k : Nat) : progress (between k) = 2 * k + 3 := by
  have hbase : (between k).base = .nominal "com.example.A" := rfl
  have hnesting : (between k).nesting = k + 3 := by
    simp [between, applied, nesting, nestingList, nesting_tower]
  rw [progress, hbase, if_pos rfl, hnesting]
  omega

/-- The climb never comes back to a type, and never to an end. -/
theorem not_answered {under : List TypeExpr} {t : TypeExpr} {k : Nat}
    (ht : t = round k ∨ t = between k) (hunder : ∀ x ∈ under, progress x < progress t) :
    ¬ Answered hierarchy [] (.nominal "com.example.N") "com.example.N" under t := by
  intro hanswered
  have hnext : ∀ {under : List TypeExpr} {t u : TypeExpr},
      (∀ x ∈ under, progress x < progress t) → progress t < progress u →
      ∀ x ∈ t :: under, progress x < progress u := by
    intro under t u hunder hlt x hx
    rcases List.mem_cons.mp hx with rfl | hx
    · exact hlt
    · exact Nat.lt_trans (hunder x hx) hlt
  induction hanswered generalizing k with
  | direct hdirect _ =>
    rcases hdirect with hname | ⟨p, hp, -⟩
    · rcases ht with rfl | rfl <;> exact absurd (Base.nominal.inj hname) (by decide)
    · cases hp
  | @up under t _ _ _ ih =>
    have hopen : t ∉ under := fun hmem => Nat.lt_irrefl _ (hunder t hmem)
    rcases ht with rfl | rfl
    · obtain ⟨rest, habove⟩ := exists_above_round k
      have hlt : progress (round k) < progress (between (k + 1)) := by
        rw [progress_round, progress_between]
        omega
      exact ih hopen [] _ rest habove (by simp) (Or.inr rfl) (hnext hunder hlt)
    · have hlt : progress (between k) < progress (round k) := by
        rw [progress_round, progress_between]
        omega
      exact ih hopen [] _ [] (above_between k) (by simp) (Or.inl rfl) (hnext hunder hlt)

end Growing

/-- Four declared subtypes that do not fit: a functional interface that narrows the result of
another, a class with an array type as its superclass, a class with a type parameter that has no
owner among its interfaces, and a class whose supertypes grow. -/
theorem declared_subtypes_unfit :
    let source := TypeExpr.nominal "com.example.Source"
    let textSource := TypeExpr.nominal "com.example.TextSource"
    let texts : TypeExpr := { TypeExpr.nominal "java.lang.String" with arrays := 1 }
    let rows := TypeExpr.nominal "com.example.Rows"
    let part := TypeExpr.nominal "com.example.Part"
    let whole := TypeExpr.nominal "com.example.Whole"
    let batch : List Declaration :=
      [⟨"com.example.Source", .ofInterface, [], none, [], some ⟨[], .nominal "java.lang.Object"⟩⟩,
       ⟨"com.example.TextSource", .ofInterface, [], none, [source],
        some ⟨[], .nominal "java.lang.String"⟩⟩,
       ⟨"com.example.Rows", .ofClass, [], some texts, [], none⟩,
       ⟨"com.example.Part", .ofInterface, [], none, [], none⟩,
       ⟨"com.example.Whole", .ofClass, [], none, [.parameter ⟨none, 0, "T"⟩, part], none⟩]
    (∃ h, Platform.hierarchy.register batch = .ok h ∧ h.Closed ∧
      h.supertype? textSource "com.example.Source" = .ok (some source) ∧
      h.distance [] source textSource .covariant = .answer .notAssignable ∧
      h.supertype? rows "java.lang.String" = .ok (some texts) ∧
      h.distance [] texts rows .covariant = .answer .notAssignable ∧
      h.supertype? whole "com.example.Part" = .ok (some part) ∧
      h.distance [] part whole .covariant = .unresolved (.ownerless "T")) ∧
    ∃ h, Platform.hierarchy.register Growing.declarations = .ok h ∧ h.Closed ∧
      h.supertype? (.tower "com.example.B" 1) "com.example.N" =
        .ok (some (.nominal "com.example.N")) ∧
      ∀ d, h.distance [] (.nominal "com.example.N") (.tower "com.example.B" 1) .covariant ≠
        .answer d := by
  intro source textSource texts rows part whole batch
  constructor
  · have hregister : Platform.hierarchy.register batch = .ok (Platform.hierarchy.extend batch) :=
      Platform.register_of_order (by decide +kernel) (by decide +kernel)
    exact ⟨_, hregister, by decide +kernel, rfl, rfl, rfl, rfl, rfl, rfl⟩
  · have hregister : Platform.hierarchy.register Growing.declarations = .ok Growing.hierarchy :=
      Platform.register_of_order (by decide +kernel) (by decide +kernel)
    have hclosed : Growing.hierarchy.Closed := by decide +kernel
    have hfound := Growing.supertype?_round 0
    have hiff := exists_distance_supertype_iff (.register .platform hregister) hclosed
      (by decide +kernel) [] rfl rfl (by decide +kernel) hfound
    refine ⟨_, hregister, hclosed, hfound, fun d hd => ?_⟩
    exact Growing.not_answered (k := 0) (Or.inl rfl) (by simp) (hiff.mp ⟨d, hd⟩ rfl (by decide))

end Hierarchy

end Mutability
