import Mutability.Proofs.Vocabulary

/-!
# The path of a supertype search

The search for a supertype goes to each name once. In an acyclic hierarchy the names it leaves out
do not lead to the one it looks for, so what it finds lies at the end of the first path in the order
of declaration (`searchSupertype_result`).
-/

namespace Mutability.Hierarchy

open Relation

variable {h : Hierarchy} {name : String}

/-- The declared supertypes of a type as seen from it. -/
def hops (h : Hierarchy) (t : TypeExpr) : List TypeExpr :=
  match t.name?.bind h.find? with
  | some d => d.supertypes.filterMap fun declared => (h.directSupertype t declared).toOption
  | none => []

def Hop (h : Hierarchy) (t u : TypeExpr) : Prop := u ∈ h.hops t

theorem hop_of_declared {t u declared : TypeExpr} {own : String} {d : Declaration}
    (hbase : t.base = .nominal own) (hd : h.find? own = some d) (hmem : declared ∈ d.supertypes)
    (hu : h.directSupertype t declared = .ok u) : h.Hop t u := by
  have hfind : t.name?.bind h.find? = some d := by simp [TypeExpr.name?_eq_some_iff.mpr hbase, hd]
  simp only [Hop, hops, hfind, List.mem_filterMap]
  exact ⟨declared, hmem, by rw [hu]; rfl⟩

/-- A hop leads from a declared name to one of its supertypes as seen from the type. -/
theorem declared_of_hop {t u : TypeExpr} (hhop : h.Hop t u) :
    ∃ own d declared, t.base = .nominal own ∧ h.find? own = some d ∧ declared ∈ d.supertypes ∧
      h.directSupertype t declared = .ok u := by
  unfold Hop hops at hhop
  cases hd : t.name?.bind h.find? with
  | none => simp [hd] at hhop
  | some d =>
    rw [hd] at hhop
    obtain ⟨own, hname, hfind⟩ := Option.bind_eq_some_iff.mp hd
    obtain ⟨declared, hmem, hsome⟩ := List.mem_filterMap.mp hhop
    refine ⟨own, d, declared, TypeExpr.name?_eq_some_iff.mp hname, hfind, hmem, ?_⟩
    cases hu : h.directSupertype t declared with
    | error fault => simp [hu, Except.toOption] at hsome
    | ok v =>
      rw [hu] at hsome
      cases hsome
      rfl

/-- Types that lead to each other only lead nowhere else. -/
theorem mem_of_closed {f : TypeExpr → List TypeExpr} {ts : List TypeExpr}
    (hts : ∀ t ∈ ts, ∀ u ∈ f t, u ∈ ts) {t u : TypeExpr} (ht : t ∈ ts)
    (htu : ReflTransGen (fun t u => u ∈ f t) t u) : u ∈ ts := by
  induction htu with
  | refl => exact ht
  | tail _ hhop ih => exact hts _ ih _ hhop

/-- Neither the type nor any above it has a type parameter among its declared supertypes. -/
def FixedAbove (h : Hierarchy) (t : TypeExpr) : Prop :=
  ∀ own, t.base = .nominal own → ∀ m d, ReflTransGen h.Super own m → h.find? m = some d →
    ∀ u ∈ d.supertypes, u.parameter? = none

/-- No way up from the type leads to the name. -/
def Misses (h : Hierarchy) (name : String) (t : TypeExpr) : Prop :=
  ∀ own, t.base = .nominal own → ¬ ReflTransGen h.Super own name

/-- The first path from a type up to a name, in the order of declaration. -/
inductive FirstPath (h : Hierarchy) (name : String) : TypeExpr → TypeExpr → Prop where
  | here {t : TypeExpr} : t.base = .nominal name → FirstPath h name t t
  | up {t u found declared : TypeExpr} {own : String} {d : Declaration}
      {before after : List TypeExpr} : t.base = .nominal own → own ≠ name →
      h.find? own = some d → d.supertypes = before ++ declared :: after →
      (∀ b ∈ before, h.Misses name b) → h.directSupertype t declared = .ok u →
      FirstPath h name u found → FirstPath h name t found

theorem FirstPath.base_eq {t found : TypeExpr} (hpath : h.FirstPath name t found) :
    found.base = .nominal name := by
  induction hpath with
  | here hbase => exact hbase
  | up _ _ _ _ _ _ _ ih => exact ih

theorem FirstPath.hops {t found : TypeExpr} (hpath : h.FirstPath name t found) :
    ReflTransGen h.Hop t found := by
  induction hpath with
  | here => exact .refl
  | up hbase _ hd hsplit _ hu _ ih =>
    exact .head (hop_of_declared hbase hd (by rw [hsplit]; simp) hu) ih

/-! ## Hops between names -/

theorem super_of_declared {own m : String} {d : Declaration} {declared : TypeExpr}
    (hd : h.find? own = some d) (hmem : declared ∈ d.supertypes)
    (hm : declared.base = .nominal m) : h.Super own m :=
  super_iff.mpr ⟨d, hd, declared, hmem, TypeExpr.name?_eq_some_iff.mpr hm⟩

theorem Closed.declares_super (hclosed : h.Closed) {own m : String} (hm : h.Super own m) :
    h.Declares m := by
  obtain ⟨d, hd, t, ht, hname⟩ := super_iff.mp hm
  exact declares_of_every (hclosed.supertype hd ht) (TypeExpr.name?_eq_some_iff.mp hname)

theorem FixedAbove.parameter?_eq_none {t : TypeExpr} (hfixed : h.FixedAbove t) {own : String}
    {d : Declaration} (hbase : t.base = .nominal own) (hd : h.find? own = some d) {u : TypeExpr}
    (hu : u ∈ d.supertypes) : u.parameter? = none :=
  hfixed own hbase own d .refl hd u hu

theorem FixedAbove.hop {t u : TypeExpr} (hfixed : h.FixedAbove t) {own : String}
    (hbase : t.base = .nominal own) (hsuper : ∀ m, u.base = .nominal m → h.Super own m) :
    h.FixedAbove u :=
  fun m hm x d hx => hfixed own hbase x d (.head (hsuper m hm) hx)

/-- If no declared supertype leads to a name, only the name itself does. -/
theorem eq_of_misses {own : String} {d : Declaration} (hd : h.find? own = some d)
    (hmisses : ∀ t ∈ d.supertypes, h.Misses name t) (hto : ReflTransGen h.Super own name) :
    own = name := by
  rcases ReflTransGen.cases_head hto with heq | ⟨m, hm, hrest⟩
  · exact heq
  · obtain ⟨d', hd', t, ht, hname⟩ := super_iff.mp hm
    rw [hd] at hd'
    cases hd'
    exact absurd hrest (hmisses t ht m (TypeExpr.name?_eq_some_iff.mp hname))

/-! ## One hop up -/

/-- A type one hop above another: it keeps to declared names and to the declared base, and its
height is lower. -/
structure OneUp (h : Hierarchy) (own : String) (declared u : TypeExpr) : Prop where
  known : u.Every h.Knows
  base_eq : u.base = declared.base
  plain : u.parameter? = none
  fixed : h.FixedAbove u
  super : ∀ m, u.base = .nominal m → h.Super own m
  lower : ∀ m, u.base = .nominal m → h.height m < h.height own

theorem FixedAbove.oneUp {t u declared : TypeExpr} {own : String} {d : Declaration}
    (hfixed : h.FixedAbove t) (hbuilt : h.FromPlatform) (hclosed : h.Closed)
    (ht : t.Every h.Knows) (hbase : t.base = .nominal own) (hd : h.find? own = some d)
    (hmem : declared ∈ d.supertypes) (hu : h.directSupertype t declared = .ok u) :
    h.OneUp own declared u := by
  have hparameter := hfixed.parameter?_eq_none hbase hd hmem
  have hubase : u.base = declared.base := base_directSupertype hparameter hu
  have hsuper : ∀ m, u.base = .nominal m → h.Super own m :=
    fun m hm => super_of_declared hd hmem (hubase ▸ hm)
  constructor
  · exact directSupertype_every hbuilt.boxClosed ht (hclosed.supertype hd hmem) hu
  · exact hubase
  · rwa [TypeExpr.parameter?, hubase]
  · exact hfixed.hop hbase hsuper
  · exact hsuper
  · intro m hm
    exact height_lt hbuilt.acyclic (hsuper m hm) (hclosed.declares_super (hsuper m hm))

/-- The given types are all below another one. -/
def Below (h : Hierarchy) (ts : List TypeExpr) (t : TypeExpr) : Prop :=
  ∀ v ∈ ts, ∃ below, v.base = .nominal below ∧
    ∀ own, t.base = .nominal own → TransGen h.Super below own

theorem Below.not_mem {ts : List TypeExpr} {t : TypeExpr} {own : String} (hbelow : h.Below ts t)
    (hacyclic : h.Acyclic) (hbase : t.base = .nominal own) : t ∉ ts := by
  intro hmem
  obtain ⟨below, hv, hto⟩ := hbelow t hmem
  rw [hbase] at hv
  cases hv
  exact hacyclic own (hto own hbase)

theorem Below.cons {ts : List TypeExpr} {t u : TypeExpr} {own : String} (hbelow : h.Below ts t)
    (hbase : t.base = .nominal own) (hsuper : ∀ m, u.base = .nominal m → h.Super own m) :
    h.Below (t :: ts) u := by
  intro v hv
  rcases List.mem_cons.mp hv with rfl | hv
  · exact ⟨own, hbase, fun m hm => .single (hsuper m hm)⟩
  · obtain ⟨below, hsource, hto⟩ := hbelow v hv
    exact ⟨below, hsource, fun m hm => .tail (hto own hbase) (hsuper m hm)⟩

/-! ## The search -/

theorem subset_firstSupertype {visit : TypeExpr → List String → Except Unresolved Found}
    {concrete : TypeExpr → Except Unresolved TypeExpr}
    (hvisit : ∀ t visited result, visit t visited = .ok result → visited ⊆ result.2)
    {ts : List TypeExpr} {visited : List String} {result : Found}
    (hresult : firstSupertype visit concrete ts visited = .ok result) : visited ⊆ result.2 := by
  induction ts generalizing visited with
  | nil =>
    cases hresult
    exact List.Subset.refl _
  | cons t ts ih =>
    obtain ⟨u, -, ⟨found, visited', hfound, rfl⟩ | ⟨visited', hnone, hrest⟩⟩ :=
      firstSupertype_cons_eq_ok hresult
    · exact hvisit u visited _ hfound
    · exact List.Subset.trans (hvisit u visited _ hnone) (ih hrest)

/-- A search does not forget where it has been. -/
theorem subset_searchSupertype {name : String} {hops : Nat} {t : TypeExpr} {visited : List String}
    {result : Found} (hresult : h.searchSupertype name hops t visited = .ok result) :
    visited ⊆ result.2 := by
  induction hops generalizing t visited result with
  | zero =>
    cases hresult
    exact List.Subset.refl _
  | succ hops ih =>
    rcases searchSupertype_succ_eq_ok hresult with
      ⟨-, rfl⟩ | ⟨-, rfl⟩ | ⟨own, d, -, -, -, -, hrest⟩
    · exact List.Subset.refl _
    · exact List.Subset.refl _
    · have hsub := subset_firstSupertype (fun _ _ _ => ih) hrest
      exact fun v hv => hsub (List.mem_cons_of_mem own hv)

/-- What a search of several supertypes finds it finds from one of them, with the names in mind
that it has been to before. -/
theorem firstSupertype_eq_some {visit : TypeExpr → List String → Except Unresolved Found}
    {concrete : TypeExpr → Except Unresolved TypeExpr}
    (hsubset : ∀ t visited result, visit t visited = .ok result → visited ⊆ result.2)
    {ts : List TypeExpr} {visited visited' : List String} {found : TypeExpr}
    (hfound : firstSupertype visit concrete ts visited = .ok (some found, visited')) :
    ∃ t ∈ ts, ∃ u before, concrete t = .ok u ∧ visited ⊆ before ∧
      visit u before = .ok (some found, visited') := by
  induction ts generalizing visited with
  | nil => cases hfound
  | cons t ts ih =>
    obtain ⟨u, hu, ⟨first, between, hvisit, hresult⟩ | ⟨between, hvisit, hrest⟩⟩ :=
      firstSupertype_cons_eq_ok hfound
    · cases hresult
      exact ⟨t, List.mem_cons_self, u, visited, hu, List.Subset.refl _, hvisit⟩
    · obtain ⟨t', ht', v, before, hv, hbefore, hlast⟩ := ih hrest
      exact ⟨t', List.mem_cons_of_mem t ht', v, before, hv,
        List.Subset.trans (hsubset u visited _ hvisit) hbefore, hlast⟩

/-- What the search may have been to before it comes to a type: names that do not lead to the one
looked for, and names on the way to the type. -/
def Explored (h : Hierarchy) (name : String) (visited : List String) (t : TypeExpr) : Prop :=
  ∀ v ∈ visited, ¬ ReflTransGen h.Super v name ∨
    ∀ own, t.base = .nominal own → TransGen h.Super v own

/-- The result of a search from a type: the end of the first path, or there is none. -/
structure SearchResult (h : Hierarchy) (name : String) (t : TypeExpr) (visited : List String)
    (found : Option TypeExpr) (visited' : List String) : Prop where
  path : ∀ u, found = some u → h.FirstPath name t u
  misses : found = none → h.Misses name t
  visited : found = none → ∀ v ∈ visited', v ∈ visited ∨ ¬ ReflTransGen h.Super v name

theorem firstSupertype_result (hclosed : h.Closed) (hacyclic : h.Acyclic) {hops : Nat}
    {t : TypeExpr} (hfixed : h.FixedAbove t) {own : String} {d : Declaration}
    (hbase : t.base = .nominal own) (hd : h.find? own = some d)
    (hheight : h.height own < hops + 1)
    (ih : ∀ u visited found visited', h.FixedAbove u →
      (∀ m, u.base = .nominal m → h.height m < hops) → h.Explored name visited u →
      h.searchSupertype name hops u visited = .ok (found, visited') →
      h.SearchResult name u visited found visited')
    {rest : List TypeExpr} (hrest : ∀ x ∈ rest, x ∈ d.supertypes) {visited visited' : List String}
    (hvisited : ∀ v ∈ visited, ¬ ReflTransGen h.Super v name ∨ ReflTransGen h.Super v own)
    {found : Option TypeExpr}
    (hresult : firstSupertype (h.searchSupertype name hops) (h.directSupertype t) rest visited =
      .ok (found, visited')) :
    (∀ u, found = some u → ∃ before declared after v, rest = before ++ declared :: after ∧
      (∀ b ∈ before, h.Misses name b) ∧ h.directSupertype t declared = .ok v ∧
      h.FirstPath name v u) ∧
    (found = none → (∀ x ∈ rest, h.Misses name x) ∧
      ∀ v ∈ visited', v ∈ visited ∨ ¬ ReflTransGen h.Super v name) := by
  induction rest generalizing visited with
  | nil =>
    cases hresult
    exact ⟨nofun, fun _ => ⟨by simp, fun v hv => Or.inl hv⟩⟩
  | cons declared rest ihRest =>
    have hmem := hrest declared List.mem_cons_self
    obtain ⟨u, hu, hcases⟩ := firstSupertype_cons_eq_ok hresult
    have hubase : u.base = declared.base :=
      base_directSupertype (hfixed.parameter?_eq_none hbase hd hmem) hu
    have hsuper : ∀ m, u.base = .nominal m → h.Super own m :=
      fun m hm => super_of_declared hd hmem (hubase ▸ hm)
    have hlower : ∀ m, u.base = .nominal m → h.height m < hops := by
      intro m hm
      have := height_lt hacyclic (hsuper m hm) (hclosed.declares_super (hsuper m hm))
      omega
    have hexplored : h.Explored name visited u := by
      intro v hv
      rcases hvisited v hv with hdead | hbelow
      · exact Or.inl hdead
      · exact Or.inr fun m hm => TransGen.tail' hbelow (hsuper m hm)
    have hspec := fun found' between =>
      ih u visited found' between (hfixed.hop hbase hsuper) hlower hexplored
    rcases hcases with ⟨w, between, hvisit, hlast⟩ | ⟨between, hvisit, hnext⟩
    · cases hlast
      refine ⟨fun x hx => ?_, nofun⟩
      cases hx
      exact ⟨[], declared, rest, u, rfl, by simp, hu, (hspec _ _ hvisit).path w rfl⟩
    · have hspec := hspec _ _ hvisit
      have hmissed : h.Misses name declared := fun m hm => hspec.misses rfl m (hubase.trans hm)
      have hbetween : ∀ v ∈ between, ¬ ReflTransGen h.Super v name ∨
          ReflTransGen h.Super v own := by
        intro v hv
        rcases hspec.visited rfl v hv with hold | hdead
        · exact hvisited v hold
        · exact Or.inl hdead
      obtain ⟨hfound, hnone⟩ :=
        ihRest (fun x hx => hrest x (List.mem_cons_of_mem declared hx)) hbetween hnext
      constructor
      · intro x hx
        obtain ⟨before, declared', after, v, hsplit, hbefore, hv, hpath⟩ := hfound x hx
        refine ⟨declared :: before, declared', after, v, by rw [hsplit]; rfl, ?_, hv, hpath⟩
        intro b hb
        rcases List.mem_cons.mp hb with rfl | hb
        · exact hmissed
        · exact hbefore b hb
      · intro hx
        obtain ⟨hmisses, hlast⟩ := hnone hx
        constructor
        · intro x hx
          rcases List.mem_cons.mp hx with rfl | hx
          · exact hmissed
          · exact hmisses x hx
        · intro v hv
          rcases hlast v hv with hv | hdead
          · exact hspec.visited rfl v hv
          · exact Or.inr hdead

theorem searchSupertype_result (hclosed : h.Closed) (hacyclic : h.Acyclic) {hops : Nat}
    {t : TypeExpr} {visited visited' : List String} {found : Option TypeExpr}
    (hfixed : h.FixedAbove t) (hheight : ∀ m, t.base = .nominal m → h.height m < hops)
    (hexplored : h.Explored name visited t)
    (hresult : h.searchSupertype name hops t visited = .ok (found, visited')) :
    h.SearchResult name t visited found visited' := by
  induction hops generalizing t visited visited' found with
  | zero =>
    cases hresult
    exact ⟨nofun, fun _ m hm => absurd (hheight m hm) (by omega),
      fun _ v hv => Or.inl hv⟩
  | succ hops ih =>
    rcases searchSupertype_succ_eq_ok hresult with
      ⟨hvisited, hlast⟩ | ⟨hbase, hlast⟩ | ⟨own, d, hbase, hne, -, hd, hrest⟩
    · cases hlast
      refine ⟨nofun, fun _ m hm => ?_, fun _ v hv => Or.inl hv⟩
      -- a visited name is not on the way to itself
      rcases hexplored m (hvisited m hm).2 with hdead | hbelow
      · exact hdead
      · exact absurd (hbelow m hm) (hacyclic m)
    · cases hlast
      refine ⟨fun u hu => ?_, nofun, nofun⟩
      cases hu
      exact .here hbase
    · have hvisited : ∀ v ∈ own :: visited, ¬ ReflTransGen h.Super v name ∨
          ReflTransGen h.Super v own := by
        intro v hv
        rcases List.mem_cons.mp hv with rfl | hv
        · exact Or.inr .refl
        · rcases hexplored v hv with hdead | hbelow
          · exact Or.inl hdead
          · exact Or.inr (hbelow own hbase).to_reflTransGen
      obtain ⟨hfound, hnone⟩ := firstSupertype_result hclosed hacyclic hfixed hbase hd
        (hheight own hbase) (fun u visited found visited' => ih) (fun x hx => hx) hvisited hrest
      have hdead : found = none → ¬ ReflTransGen h.Super own name :=
        fun hn hto => hne (eq_of_misses hd (hnone hn).1 hto)
      constructor
      · intro u hu
        obtain ⟨before, declared, after, v, hsplit, hbefore, hv, hpath⟩ := hfound u hu
        exact .up hbase hne hd hsplit hbefore hv hpath
      · intro hn m hm
        rw [hbase] at hm
        cases hm
        exact hdead hn
      · intro hn v hv
        rcases (hnone hn).2 v hv with hmem | hv
        · rcases List.mem_cons.mp hmem with rfl | hmem
          · exact Or.inr (hdead hn)
          · exact Or.inl hmem
        · exact Or.inr hv

end Mutability.Hierarchy
