import Mutability.Proofs.Depth
import Mutability.Proofs.Search
import Mutability.Proofs.SupertypePath

/-!
# Erased comparisons and reachable names

Where all declared supertypes are named, a type fits the erasure of another exactly if it leads up
to the name of that type, and each hop on the way counts (`distance_erasure_iff`). A search climbs
with a guard against visits under way, the search for a supertype goes to each name once; neither
misses a name that can be reached, as an acyclic hierarchy gives no reason to come back.
-/

namespace Mutability

/-! ## The cost of a climb -/

namespace Distance

/-- The distance of so many hops with some cost at their end, up to the largest word. -/
def climbed (hops rest : Nat) : Distance :=
  cost (UInt32.ofNat (min (100 * hops + rest) (UInt32.size - 1)))

theorem hop_plus_climbed (hops rest : Nat) :
    hop.plus (climbed hops rest) = climbed (hops + 1) rest := by
  have hlt : min (100 * hops + rest) (UInt32.size - 1) < UInt32.size :=
    Nat.lt_of_le_of_lt (Nat.min_le_right _ _) (by decide)
  have hwords : min (100 + min (100 * hops + rest) (UInt32.size - 1)) (UInt32.size - 1) =
      min (100 * (hops + 1) + rest) (UInt32.size - 1) := by omega
  simp only [hop, climbed, plus, saturatingAdd, UInt32.toNat_ofNat_of_lt' hlt]
  rw [← hwords]
  rfl

end Distance

/-! ## Ways up -/

namespace Hierarchy

open Relation

variable {h : Hierarchy}

/-- All declared supertypes are named. -/
def NamedSupertypes (h : Hierarchy) : Prop :=
  ∀ d ∈ h.declarations, ∀ t ∈ d.supertypes, t.name?.isSome = true

instance (h : Hierarchy) : Decidable h.NamedSupertypes :=
  inferInstanceAs (Decidable (∀ d ∈ h.declarations, ∀ t ∈ d.supertypes, t.name?.isSome = true))

/-- A way up of so many hops. -/
inductive HopPath (h : Hierarchy) : Nat → TypeExpr → TypeExpr → Prop where
  | here (t : TypeExpr) : HopPath h 0 t t
  | up {hops : Nat} {t u found : TypeExpr} :
      h.Hop t u → HopPath h hops u found → HopPath h (hops + 1) t found

theorem HopPath.hops {k : Nat} {t u : TypeExpr} (hpath : h.HopPath k t u) :
    ReflTransGen h.Hop t u := by
  induction hpath with
  | here => exact .refl
  | up hhop _ ih => exact .head hhop ih

namespace NamedSupertypes

variable (hnamed : h.NamedSupertypes)

include hnamed

theorem exists_name {own : String} {d : Declaration} (hd : h.find? own = some d) {t : TypeExpr}
    (ht : t ∈ d.supertypes) : ∃ m, t.base = .nominal m := by
  obtain ⟨m, hm⟩ := Option.isSome_iff_exists.mp (hnamed d (List.mem_of_find?_eq_some hd) t ht)
  exact ⟨m, TypeExpr.name?_eq_some_iff.mp hm⟩

theorem fixedAbove (t : TypeExpr) : h.FixedAbove t := by
  intro own _ m d _ hd u hu
  obtain ⟨n, hn⟩ := hnamed.exists_name hd hu
  simp [TypeExpr.parameter?, hn]

/-- A hop between types is a hop between their names. -/
theorem super_of_hop {t u : TypeExpr} {own : String} (hbase : t.base = .nominal own)
    (hhop : h.Hop t u) : ∃ m, u.base = .nominal m ∧ h.Super own m := by
  obtain ⟨own', d, declared, hbase', hd, hmem, hu⟩ := declared_of_hop hhop
  cases hbase.symm.trans hbase'
  obtain ⟨m, hm⟩ := hnamed.exists_name hd hmem
  have hubase := base_directSupertype (by simp [TypeExpr.parameter?, hm]) hu
  exact ⟨m, hubase.trans hm, super_of_declared hd hmem hm⟩

theorem reached_of_hops {t u : TypeExpr} {own name : String} (hbase : t.base = .nominal own)
    (hhops : ReflTransGen h.Hop t u) (hu : u.base = .nominal name) :
    ReflTransGen h.Super own name := by
  induction hhops using ReflTransGen.head_induction_on generalizing own with
  | refl =>
    rw [hbase] at hu
    cases hu
    exact .refl
  | head hhop _ ih =>
    obtain ⟨m, hm, hsuper⟩ := hnamed.super_of_hop hbase hhop
    exact .head hsuper (ih hm)

end NamedSupertypes

/-! ## The search for a supertype -/

theorem exists_firstSupertype {visit : TypeExpr → List String → Except Unresolved Found}
    {concrete : TypeExpr → Except Unresolved TypeExpr} {ts : List TypeExpr}
    (hts : ∀ t ∈ ts, ∃ u, concrete t = .ok u ∧ ∀ visited, ∃ result, visit u visited = .ok result)
    (visited : List String) : ∃ result, firstSupertype visit concrete ts visited = .ok result := by
  induction ts generalizing visited with
  | nil => exact ⟨_, rfl⟩
  | cons t ts ih =>
    obtain ⟨u, hu, hvisit⟩ := hts t List.mem_cons_self
    obtain ⟨⟨found, visited'⟩, hfound⟩ := hvisit visited
    simp only [firstSupertype, hu, hfound, bind, Except.bind]
    cases found with
    | some found => exact ⟨_, rfl⟩
    | none => exact ih (fun x hx => hts x (List.mem_cons_of_mem t hx)) visited'

/-- A property of types that goes up: the names it meets are declared, and each hop succeeds and
keeps it. -/
structure UpClosed (h : Hierarchy) (P : TypeExpr → Prop) : Prop where
  declares : ∀ {t own}, P t → t.base = .nominal own → h.Declares own
  hop : ∀ {t own d declared}, P t → t.base = .nominal own → h.find? own = some d →
    declared ∈ d.supertypes → ∃ u, h.directSupertype t declared = .ok u ∧ P u

namespace UpClosed

variable {P : TypeExpr → Prop} (hup : h.UpClosed P)

include hup

theorem of_hops {t u : TypeExpr} (ht : P t) (htu : ReflTransGen h.Hop t u) : P u := by
  induction htu with
  | refl => exact ht
  | tail _ hhop ih =>
    obtain ⟨own, d, declared, hbase, hd, hmem, hu⟩ := declared_of_hop hhop
    obtain ⟨v, hv, hpv⟩ := hup.hop ih hbase hd hmem
    cases hu.symm.trans hv
    exact hpv

/-- From a type with such a property the search for a supertype does not fail. -/
theorem exists_searchSupertype (name : String) (hops : Nat) {t : TypeExpr} (ht : P t)
    (visited : List String) : ∃ result, h.searchSupertype name hops t visited = .ok result := by
  induction hops generalizing t visited with
  | zero => exact ⟨_, rfl⟩
  | succ hops ih =>
    rw [searchSupertype]
    split
    · rename_i own hbase
      obtain ⟨d, hd, hrequire⟩ := exists_require (hup.declares ht hbase)
      split
      · exact ⟨_, rfl⟩
      · split
        · exact ⟨_, rfl⟩
        · simp only [hrequire, bind, Except.bind]
          refine exists_firstSupertype (fun declared hmem => ?_) _
          obtain ⟨u, hu, hkept⟩ := hup.hop ht hbase hd hmem
          exact ⟨u, hu, ih hkept⟩
    · exact ⟨_, rfl⟩

/-- A supertype of a name is found exactly if the name can be reached, at the end of the first path
to it. -/
theorem exists_supertype? (hclosed : h.Closed) (hacyclic : h.Acyclic) (hnamed : h.NamedSupertypes)
    {sub : TypeExpr} {own : String} (hbase : sub.base = .nominal own) (hsub : P sub.withoutArrays)
    (name : String) :
    ∃ found, h.supertype? sub name = .ok found ∧
      (found.isSome = true ↔ ReflTransGen h.Super own name) ∧
      ∀ u, found = some u → h.FirstPath name sub.withoutArrays u := by
  obtain ⟨⟨found, visited⟩, hresult⟩ := hup.exists_searchSupertype name (h.size + 1) hsub []
  have hexplored : h.Explored name [] sub.withoutArrays := by simp [Explored]
  have hspec := searchSupertype_result hclosed hacyclic (hnamed.fixedAbove _)
    (fun m _ => Nat.lt_succ_of_le (h.height_le_size m)) hexplored hresult
  refine ⟨found, by rw [supertype?, hresult]; rfl, ?_, hspec.path⟩
  cases found with
  | some u =>
    have hpath := hspec.path u rfl
    have hstart : sub.withoutArrays.base = .nominal own := hbase
    simpa using hnamed.reached_of_hops hstart hpath.hops hpath.base_eq
  | none => simpa using hspec.misses rfl own hbase

end UpClosed

/-- With all names declared, types over declared names lead up to such types. -/
theorem FromPlatform.upClosed (hbuilt : h.FromPlatform) (hclosed : h.Closed) :
    h.UpClosed (·.Every h.Knows) where
  declares ht hbase := declares_of_every ht hbase
  hop ht _ hd hmem := by
    obtain ⟨u, hu⟩ := exists_directSupertype ht _
    exact ⟨u, hu, directSupertype_every hbuilt.boxClosed ht (hclosed.supertype hd hmem) hu⟩

/-- A supertype of a name is found exactly if the name can be reached. -/
theorem exists_supertype? (hbuilt : h.FromPlatform) (hclosed : h.Closed)
    (hnamed : h.NamedSupertypes) {sub : TypeExpr} {own : String} (hbase : sub.base = .nominal own)
    (hsub : sub.Every h.Knows) (name : String) :
    ∃ found, h.supertype? sub name = .ok found ∧
      (found.isSome = true ↔ ReflTransGen h.Super own name) := by
  obtain ⟨found, hfound, hreached, -⟩ := (hbuilt.upClosed hclosed).exists_supertype? hclosed
    hbuilt.acyclic hnamed hbase (.intro hsub.base hsub.arguments) name
  exact ⟨found, hfound, hreached⟩

end Hierarchy

/-! ## The search for a distance -/

namespace Assignability

open Relation

/-- What an erased comparison with a named target comes to: the cost of a way up to the name, with
one more unless its end is the target, or there is no way. -/
inductive ErasedDistance (h : Hierarchy) (target : TypeExpr) (name : String) (t : TypeExpr) :
    Distance → Prop where
  | reached {hops : Nat} {found : TypeExpr} : h.HopPath hops t found → found.base = .nominal name →
      ErasedDistance h target name t
        (.climbed hops (if target.equalsIgnoringArrays found then 0 else 1))
  | missed : h.Misses name t → ErasedDistance h target name t .notAssignable

namespace ErasedDistance

variable {h : Hierarchy} {target t : TypeExpr} {name : String} {d : Distance}

theorem here (target : TypeExpr) (hbase : t.base = .nominal name) :
    ErasedDistance h target name t
      (if target.equalsIgnoringArrays t then .equal else .sameType) := by
  have hreached : ErasedDistance h target name t
      (.climbed 0 (if target.equalsIgnoringArrays t then 0 else 1)) := .reached (.here t) hbase
  split at hreached
  · rename_i hequal
    rwa [if_pos hequal]
  · rename_i hdiffer
    rwa [if_neg hdiffer]

theorem exists_path (hd : ErasedDistance h target name t d) (hassignable : d.isAssignable = true) :
    ∃ hops found, h.HopPath hops t found ∧ found.base = .nominal name ∧
      d = .climbed hops (if target.equalsIgnoringArrays found then 0 else 1) := by
  cases hd with
  | reached hpath hfound => exact ⟨_, _, hpath, hfound, rfl⟩
  | missed => cases hassignable

theorem misses (hd : ErasedDistance h target name t d) (hassignable : d.isAssignable = false) :
    h.Misses name t := by
  cases hd with
  | reached => cases hassignable
  | missed hmisses => exact hmisses

/-- One more hop below. -/
theorem hop {u : TypeExpr} (hd : ErasedDistance h target name u d) (hhop : h.Hop t u)
    (hassignable : d.isAssignable = true) :
    ErasedDistance h target name t (Distance.hop.plus d) := by
  obtain ⟨hops, found, hpath, hfound, rfl⟩ := hd.exists_path hassignable
  rw [Distance.hop_plus_climbed]
  exact .reached (.up hhop hpath) hfound

end ErasedDistance

section Climbing

variable {h : Hierarchy} (hbuilt : h.FromPlatform) (hclosed : h.Closed)
  (hnamed : h.NamedSupertypes)

include hbuilt

/-- The top type does not lead to any other name. -/
theorem misses_of_isObject {name : String} (hobject : name ≠ TypeExpr.objectName) {t : TypeExpr}
    (ht : t.isObject = true) : h.Misses name t := by
  intro own hbase hto
  obtain rfl : own = TypeExpr.objectName := by
    simpa [TypeExpr.isObject, TypeExpr.name?, hbase] using ht
  have htop := hbuilt.find?_of_platform Platform.find?_object
  refine hobject (Hierarchy.eq_of_misses htop ?_ hto).symm
  simp [Declaration.supertypes, Declaration.plainClass]

/-- A climb by one hop: the first supertype that leads to the name, or none does. -/
theorem exists_firstHop_erased {target t : TypeExpr} {name own : String}
    (hobject : name ≠ TypeExpr.objectName) (hname : name ≠ own) (hbase : t.base = .nominal own)
    {d : Declaration} (hd : h.find? own = some d) {answer : TypeExpr → Outcome Distance}
    (hanswers : ∀ declared ∈ climbable d, ∃ x u, answer declared = .answer x ∧ h.Hop t u ∧
      u.base = declared.base ∧ ErasedDistance h target name u x) :
    ∃ x, firstHop answer (climbable d) = .answer x ∧ ErasedDistance h target name t x := by
  rcases firstHop_cases fun declared hdeclared =>
      (hanswers declared hdeclared).imp fun x ⟨u, hx, _⟩ => hx with
    ⟨declared, hdeclared, x, hx, hassignable, hfirst⟩ | ⟨hall, hnone⟩
  · obtain ⟨x', u, hx', hhop, -, hspec⟩ := hanswers declared hdeclared
    cases hx.symm.trans hx'
    exact ⟨_, hfirst, hspec.hop hhop hassignable⟩
  · refine ⟨_, hnone, .missed fun m hm hto => hname ?_⟩
    cases hbase.symm.trans hm
    refine (Hierarchy.eq_of_misses hd (fun declared hmem => ?_) hto).symm
    rcases mem_climbable_or_isObject hmem with hdeclared | htop
    · obtain ⟨x, u, hx, -, hubase, hspec⟩ := hanswers declared hdeclared
      cases (hall declared hdeclared).symm.trans hx
      exact fun n hn => hspec.misses rfl n (hubase.trans hn)
    · exact misses_of_isObject hbuilt hobject htop

include hclosed hnamed

/-- An erased comparison finds a way up to the name of the target, if there is one. The induction
is on the depth, which is more than the height of the source. -/
theorem exists_search_erasure {target : TypeExpr} {name : String}
    (htarget : target.base = .nominal name) (hobject : name ≠ TypeExpr.objectName)
    (hfunctional : h.isFunctional name = false) (reversed : List TypeParameter) {depth : Nat}
    {t : TypeExpr} {own : String} (ht : t.Every h.Knows) (hbase : t.base = .nominal own)
    (hheight : h.height own < depth) {path : List Visit}
    (hbelow : h.Below (path.map (·.source)) t) {ignoreArrays : Bool}
    (harrays : ignoreArrays = true ∨ target.arrays = 0 ∧ t.arrays = 0) :
    ∃ d, search ⟨h, reversed, true⟩ depth path ⟨target, t, ignoreArrays, .erasure⟩ = .answer d ∧
      ErasedDistance h target name t d := by
  induction depth generalizing t own path ignoreArrays with
  | zero => omega
  | succ depth ih =>
    rw [search]
    by_cases hname : name = own
    · rw [step_erasure_same htarget hobject hbase rfl harrays hname]
      exact ⟨_, rfl, .here target (hname ▸ hbase)⟩
    · obtain ⟨d, hd, hrequire⟩ := Hierarchy.exists_require (Hierarchy.declares_of_every ht hbase)
      have hopen : path.contains ⟨target, t, .erasure⟩ = false := by
        rw [List.contains_eq_mem, decide_eq_false_iff_not]
        exact fun hmem => hbelow.not_mem hbuilt.acyclic hbase (List.mem_map_of_mem hmem)
      rw [step_erasure_climb htarget hobject hbase rfl harrays hname hfunctional hrequire, guarded,
        hopen, Bool.and_false, if_neg Bool.false_ne_true]
      refine exists_firstHop_erased hbuilt hobject hname hbase hd fun declared hdeclared => ?_
      have hmem := mem_supertypes_of_climbable hdeclared
      obtain ⟨u, hu⟩ := Hierarchy.exists_directSupertype ht declared
      obtain ⟨m, hm⟩ := hnamed.exists_name hd hmem
      have hup : h.OneUp own declared u :=
        (hnamed.fixedAbove t).oneUp hbuilt hclosed ht hbase hd hmem hu
      have hum : u.base = .nominal m := hup.base_eq.trans hm
      have hlower := hup.lower m hum
      have hbelowNext : h.Below ((⟨target, t, .erasure⟩ :: path).map (·.source)) u :=
        hbelow.cons hbase hup.super
      obtain ⟨x, hx, hspec⟩ := ih hup.known hum (by omega) hbelowNext (Or.inl rfl)
      refine ⟨x, u, ?_, Hierarchy.hop_of_declared hbase hd hmem hu, hup.base_eq, hspec⟩
      rw [hu]
      exact hx

end Climbing

end Assignability

namespace Hierarchy

open Relation

/-- An erased comparison always has an answer. The source fits exactly if it has the name of the
target or leads up to it, which is where a supertype of that name is found; the cost is that of the
hops on a way up, and one more unless its end is the target itself. -/
theorem distance_erasure_iff {h : Hierarchy} (hbuilt : h.FromPlatform) (hclosed : h.Closed)
    (hnamed : h.NamedSupertypes) (reversed : List TypeParameter) {target source : TypeExpr}
    {name own : String} (htarget : target.base = .nominal name) (htargetArrays : target.arrays = 0)
    (hobject : name ≠ TypeExpr.objectName) (hfunctional : h.isFunctional name = false)
    (hsource : source.base = .nominal own) (hsourceArrays : source.arrays = 0)
    (hnames : ∀ n ∈ source.names, h.Declares n) :
    ∃ d found, h.distance reversed target source .erasure = .answer d ∧
      h.supertype? source name = .ok found ∧
      (d.isAssignable = true ↔ name = own ∨ TransGen h.Super own name) ∧
      (d.isAssignable = true ↔ found.isSome = true) ∧
      (d.isAssignable = true → ∃ hops reached, h.HopPath hops source reached ∧
        reached.base = .nominal name ∧
        d = .climbed hops (if target.equalsIgnoringArrays reached then 0 else 1)) := by
  have hsub : source.Every h.Knows := every_knows hnames
  obtain ⟨found, hfound, hreached⟩ := exists_supertype? hbuilt hclosed hnamed hsource hsub name
  have hbelow : h.Below (([] : List Assignability.Visit).map (·.source)) source := by simp [Below]
  have harrays : false = true ∨ target.arrays = 0 ∧ source.arrays = 0 :=
    Or.inr ⟨htargetArrays, hsourceArrays⟩
  obtain ⟨d, hsearch, hspec⟩ := Assignability.exists_search_erasure hbuilt hclosed hnamed htarget
    hobject hfunctional reversed hsub hsource (Nat.lt_succ_self _) hbelow harrays
  have hdistance : h.distance reversed target source .erasure = .answer d :=
    Assignability.solve_eq_answer hsearch
  have hiff : d.isAssignable = true ↔ ReflTransGen h.Super own name := by
    constructor
    · intro hassignable
      obtain ⟨hops, reached, hpath, hbase, -⟩ := hspec.exists_path hassignable
      exact hnamed.reached_of_hops hsource hpath.hops hbase
    · intro hto
      cases hassignable : d.isAssignable with
      | true => rfl
      | false => exact absurd hto (hspec.misses hassignable own hsource)
  refine ⟨d, found, hdistance, hfound, ?_, hiff.trans hreached.symm, hspec.exists_path⟩
  rw [hiff, reflTransGen_iff_eq_or_transGen]

/-- A class that leads up to an interface two ways, and by its first interface nowhere. -/
theorem box_fits_holder :
    let shape := TypeExpr.nominal "com.example.Shape"
    let text := TypeExpr.nominal "java.lang.String"
    let holder := TypeExpr.applied "com.example.Holder" [text]
    let box := TypeExpr.nominal "com.example.Box"
    let batch : List Declaration :=
      [⟨"com.example.Holder", .ofInterface, [⟨"T", []⟩], none, [], none⟩,
       .plainInterface "com.example.Shape",
       ⟨"com.example.Crate", .ofClass, [], none, [.applied "com.example.Holder" [shape]], none⟩,
       ⟨"com.example.Label", .ofInterface, [], none, [holder], none⟩,
       ⟨"com.example.Box", .ofClass, [], some (.nominal "com.example.Crate"),
        [shape, .nominal "com.example.Label"], none⟩]
    ∃ h, Platform.hierarchy.register batch = .ok h ∧ h.Closed ∧ h.NamedSupertypes ∧
      ∃ d, h.distance [] holder box .erasure = .answer d ∧ d.isAssignable = true ∧
        ∃ hops reached, h.HopPath hops box reached ∧ reached.base = holder.base ∧
          d = .climbed hops (if holder.equalsIgnoringArrays reached then 0 else 1) := by
  intro shape text holder box batch
  let h := Platform.hierarchy.extend batch
  have hregister : Platform.hierarchy.register batch = .ok h :=
    Platform.register_of_order (by decide +kernel) (by decide +kernel)
  have hclosed : h.Closed := by decide +kernel
  have hnamed : h.NamedSupertypes := by decide +kernel
  obtain ⟨d, found, hdistance, -, hiff, -, hpath⟩ :=
    distance_erasure_iff (.register .platform hregister) hclosed hnamed [] (Eq.refl holder.base) rfl
      (by decide) (by decide +kernel) (Eq.refl box.base) rfl (by decide +kernel)
  have hlabel : h.Super "com.example.Box" "com.example.Label" := by decide +kernel
  have hholder : h.Super "com.example.Label" "com.example.Holder" := by decide +kernel
  have hassignable : d.isAssignable = true := hiff.mpr (Or.inr (.tail (.single hlabel) hholder))
  exact ⟨h, hregister, hclosed, hnamed, d, hdistance, hassignable, hpath hassignable⟩

end Hierarchy

end Mutability
