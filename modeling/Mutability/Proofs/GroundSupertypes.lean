import Mutability.Proofs.ErasedReachability
import Mutability.Proofs.Registration
import Mutability.Proofs.Substitution

/-!
# Supertypes of ground types

A type without parameters binds the formal parameters of its declaration to such types, so there is
nothing to resolve: each hop up substitutes the arguments for the formal parameters all at once, and
leads to a type without parameters again (`Proper.seenFrom`). A primitive value can come of it only
where array dimensions wrap around, and is then boxed. Where they do not, the supertype that a
search finds is the substitution hop by hop along a path (`supertype?_ground`).
-/

namespace Mutability

open Relation

/-- A declared supertype where the declaration is used as `sub`: the arguments are put in for the
formal parameters, and a generic type without arguments has raw supertypes. -/
def Declaration.seenFrom (d : Declaration) (sub declared : TypeExpr) : TypeExpr :=
  if sub.arguments = [] ∧ d.formals ≠ [] then declared.erased
  else declared.substitute (d.actuals sub.arguments)

namespace Hierarchy

variable {h : Hierarchy}

/-- A named type has no arguments, or as many as its declaration has formal parameters. -/
def Fitting (h : Hierarchy) (t : TypeExpr) : Prop :=
  t.arguments = [] ∨ ∀ d ∈ t.name?.bind h.find?, t.arguments.length = d.formals.length

instance (h : Hierarchy) (t : TypeExpr) : Decidable (h.Fitting t) :=
  inferInstanceAs (Decidable (_ ∨ _))

/-- All declared supertypes are named, fit their declaration, mention the formal parameters of the
type that declares them only, and have no primitive values as arguments. -/
def OwnSupertypes (h : Hierarchy) : Prop :=
  ∀ d ∈ h.declarations, ∀ t ∈ d.supertypes, t.name?.isSome = true ∧ h.Fitting t ∧
    (∀ o ∈ t.occurrences, ∀ p ∈ o.parameter?, p ∈ d.parameters) ∧
    ∀ o ∈ t.inner, o.isPrimitive = false

instance (h : Hierarchy) : Decidable h.OwnSupertypes :=
  inferInstanceAs (Decidable (∀ d ∈ h.declarations, ∀ t ∈ d.supertypes, _ ∧ _ ∧ _ ∧ _))

/-- The declared supertypes of a type with its arguments put in. -/
def seenAbove (h : Hierarchy) (t : TypeExpr) : List TypeExpr :=
  match t.name?.bind h.find? with
  | some d => d.supertypes.map (d.seenFrom t)
  | none => []

/-- One hop up, with the arguments of the type put in. -/
def SubstitutedHop (h : Hierarchy) (t u : TypeExpr) : Prop := u ∈ h.seenAbove t

/-- Where the arguments of a type are put into its declared supertypes, no sum of array dimensions
wraps around. -/
def SumsFit (h : Hierarchy) (t : TypeExpr) : Prop :=
  ∀ d ∈ t.name?.bind h.find?, ∀ declared ∈ d.supertypes,
    declared.DimensionsFit (d.actuals t.arguments)

instance (h : Hierarchy) (t : TypeExpr) : Decidable (h.SumsFit t) :=
  inferInstanceAs (Decidable (∀ d ∈ t.name?.bind h.find?, ∀ declared ∈ d.supertypes, _))

/-- A type without parameters. -/
def Fixed (t : TypeExpr) : Prop := t.Every fun base => ∀ p, base ≠ .parameter p

theorem fixed_iff {t : TypeExpr} : Fixed t ↔ ∀ o ∈ t.occurrences, o.parameter? = none := by
  refine TypeExpr.every_iff_occurrences.trans (forall₂_congr fun o _ => ?_)
  cases hbase : o.base <;> simp [TypeExpr.parameter?, hbase]

/-- A named type that fits its declaration, without parameters and without primitive values as
arguments. -/
structure Proper (h : Hierarchy) (t : TypeExpr) : Prop where
  named : ∃ own, t.base = .nominal own
  fitting : h.Fitting t
  fixed : Fixed t
  boxed : t.boxed = t

/-- A proper type over declared names. -/
structure Ground (h : Hierarchy) (t : TypeExpr) : Prop extends h.Proper t where
  known : t.Every h.Knows

theorem Proper.withoutArrays {t : TypeExpr} (ht : h.Proper t) : h.Proper t.withoutArrays where
  named := ht.named
  fitting := ht.fitting
  fixed := .intro ht.fixed.base ht.fixed.arguments
  boxed := by
    have harguments := congrArg TypeExpr.arguments ((Bindings.boxed_eq t).symm.trans ht.boxed)
    rw [Bindings.boxed_eq]
    simpa [TypeExpr.withoutArrays] using harguments

theorem Ground.withoutArrays {t : TypeExpr} (ht : h.Ground t) : h.Ground t.withoutArrays :=
  ⟨ht.toProper.withoutArrays, .intro ht.known.base ht.known.arguments⟩

/-- Boxes are named types. -/
theorem Fixed.boxed {t : TypeExpr} (ht : Fixed t) : Fixed t.boxed := by
  induction t using TypeExpr.induct with
  | step t ih =>
    rw [Bindings.boxed_eq]
    refine .intro ht.base fun u hu => ?_
    obtain ⟨a, ha, rfl⟩ := List.mem_map.mp hu
    exact Bindings.every_boxArgument (fun _ _ => nofun) (ih a ha (ht.arguments a ha))

/-- Bindings have nothing to replace in a type without parameters. -/
theorem translate_of_fixed {t : TypeExpr} (b : Bindings) (blocked : List TypeParameter)
    (hfixed : Fixed t) (hboxed : t.boxed = t) : b.translate blocked t = t := by
  refine (Bindings.translate_of_stops fun o ho => ?_).trans hboxed
  have hbase := TypeExpr.every_iff_occurrences.mp hfixed o ho
  cases hcase : o.base with
  | parameter p => exact absurd hcase (hbase p)
  | nominal | primitive | null | wildcard => trivial

theorem resolved_of_fixed {b : Bindings} {p : TypeParameter} {t : TypeExpr}
    (hfind : b.find? p = some t) (hfixed : Fixed t) (hboxed : t.boxed = t) :
    b.resolved p = some t := by
  rw [Bindings.resolved_of_find? hfind (hfixed.base p), translate_of_fixed b [p] hfixed hboxed]

theorem argumentBindings_of_raw {t : TypeExpr} (ht : t.arguments = []) :
    h.argumentBindings t = .ok .empty := by
  obtain ⟨base, arguments, arrays, wildcard⟩ := t
  obtain rfl : arguments = [] := ht
  cases base <;> simp [argumentBindings, collect, Except.map]

section Hop

variable {t u declared : TypeExpr} {own : String} {d : Declaration} (hown : h.OwnSupertypes)
  (ht : h.Proper t) (hbase : t.base = .nominal own) (hd : h.find? own = some d)
  (hmem : declared ∈ d.supertypes)

/-- A type that is not a raw use has as many arguments as its declaration has formal parameters. -/
theorem Fitting.length_eq (hfitting : h.Fitting t) (hbase : t.base = .nominal own)
    (hd : h.find? own = some d) (hraw : ¬ (t.arguments = [] ∧ d.formals ≠ [])) :
    t.arguments.length = d.formals.length := by
  rcases hfitting with harguments | hlength
  · have hformals : d.formals = [] := by simpa [harguments] using hraw
    rw [harguments, hformals]
    rfl
  · exact hlength d (by simp [TypeExpr.name?_eq_some_iff.mpr hbase, hd])

include ht hbase hd

/-- Seen from a proper type, a supertype that mentions the formal parameters of its declaration only
has the arguments put in for them. -/
theorem Proper.eq_seenFrom
    (hparameters : ∀ o ∈ declared.occurrences, ∀ p ∈ o.parameter?, p ∈ d.parameters)
    (hprimitive : ∀ o ∈ declared.inner, o.isPrimitive = false)
    (hu : h.directSupertype t declared = .ok u) : u = (d.seenFrom t declared).boxed := by
  unfold Declaration.seenFrom
  by_cases hraw : t.arguments = [] ∧ d.formals ≠ []
  · rw [directSupertype_eq hd hbase, if_pos hraw] at hu
    rw [if_pos hraw]
    exact (Except.ok.inj hu).symm
  · have harity := ht.fitting.length_eq hbase hd hraw
    rw [if_neg hraw]
    by_cases hformals : d.formals = []
    · -- nothing is bound, and the declared supertype has no parameter
      have harguments : t.arguments = [] := by
        rw [hformals] at harity
        exact List.eq_nil_of_length_eq_zero harity
      have hself : declared.substitute (d.actuals t.arguments) = declared := by
        refine TypeExpr.substitute_eq_self fun o ho => TypeExpr.boundIn_eq_none _ ?_
        refine Option.eq_none_iff_forall_ne_some.mpr fun p hp => ?_
        simpa [Declaration.parameters, hformals] using hparameters o ho p hp
      rw [directSupertype_eq hd hbase, if_neg hraw, argumentBindings_of_raw harguments] at hu
      rw [hself, Bindings.boxed_of_inner hprimitive]
      exact (Except.ok.inj hu).symm
    · rw [directSupertype_of_arguments hd hbase hformals harity] at hu
      cases hb : h.argumentBindings t with
      | error fault => simp [hb, Except.map] at hu
      | ok b =>
      have hresolved :
          declared.substitute b.resolved = declared.substitute (d.actuals t.arguments) := by
        refine TypeExpr.substitute_congr fun o ho => ?_
        cases hcase : o.base with
        | parameter p =>
          have hp := hparameters o ho p (TypeExpr.parameter?_eq_some_iff.mpr hcase)
          obtain ⟨a, ha⟩ := Declaration.exists_actuals harity hp
          have hargument := (Declaration.mem_of_actuals ha).2
          have hfind := (find?_argumentBindings hd hbase hformals harity hb hp).trans ha
          simp only [TypeExpr.boundIn, ha]
          exact resolved_of_fixed hfind (ht.fixed.arguments a hargument)
            (Bindings.argument_of_boxed ht.boxed hargument).1
        | nominal | primitive | null | wildcard => rfl
      simp only [hb, Except.map, hresolved, Except.ok.injEq] at hu
      exact hu.symm

include hown hmem

theorem Proper.fixed_seenFrom : Fixed (d.seenFrom t declared) := by
  obtain ⟨hnamed, -, hparameters, -⟩ := hown d (List.mem_of_find?_eq_some hd) declared hmem
  obtain ⟨m, hm⟩ := Option.isSome_iff_exists.mp hnamed
  unfold Declaration.seenFrom
  split
  · exact .intro (by simp [TypeExpr.erased, TypeExpr.name?_eq_some_iff.mp hm]) nofun
  · rename_i hraw
    have harity := ht.fitting.length_eq hbase hd hraw
    refine TypeExpr.every_substitute
      (fun p a ha => ht.fixed.arguments a (Declaration.mem_of_actuals ha).2) ?_
    intro o ho hnone p hp
    obtain ⟨a, ha⟩ := Declaration.exists_actuals harity
      (hparameters o ho p (TypeExpr.parameter?_eq_some_iff.mpr hp))
    rw [hp, TypeExpr.boundIn, ha] at hnone
    cases hnone

/-- A hop up from a proper type leads to a proper type. -/
theorem Proper.seenFrom : h.Proper (d.seenFrom t declared).boxed := by
  obtain ⟨hnamed, hfitting, -, -⟩ := hown d (List.mem_of_find?_eq_some hd) declared hmem
  obtain ⟨m, hm⟩ := Option.isSome_iff_exists.mp hnamed
  replace hm := TypeExpr.name?_eq_some_iff.mp hm
  have hseen : (d.seenFrom t declared).base = declared.base ∧
      ((d.seenFrom t declared).arguments = [] ∨
        (d.seenFrom t declared).arguments.length = declared.arguments.length) := by
    unfold Declaration.seenFrom
    split
    · exact ⟨rfl, Or.inl rfl⟩
    · rw [TypeExpr.substitute_of_none (by rw [hm]; rfl)]
      exact ⟨rfl, Or.inr (List.length_map _)⟩
  have hbase' : (d.seenFrom t declared).boxed.base = .nominal m := by
    rw [Bindings.boxed_eq, ← hm]
    exact hseen.1
  have hlength' : (d.seenFrom t declared).boxed.arguments.length =
      (d.seenFrom t declared).arguments.length := by
    rw [Bindings.boxed_eq]
    exact List.length_map _
  refine ⟨⟨m, hbase'⟩, ?_, (ht.fixed_seenFrom hown hbase hd hmem).boxed, Bindings.boxed_boxed _⟩
  unfold Fitting at hfitting ⊢
  rw [TypeExpr.name?_eq_some_iff.mpr hm] at hfitting
  rw [TypeExpr.name?_eq_some_iff.mpr hbase', ← List.length_eq_zero_iff, hlength']
  rcases hseen.2 with hnil | hlength
  · exact Or.inl (by rw [hnil]; rfl)
  · rwa [hlength, List.length_eq_zero_iff]

omit ht

/-- Where no sum of array dimensions wraps around there is nothing to box. -/
theorem Ground.boxed_seenFrom (ht : h.Ground t) (hfit : h.SumsFit t) :
    (d.seenFrom t declared).boxed = d.seenFrom t declared := by
  obtain ⟨-, -, -, hprimitive⟩ := hown d (List.mem_of_find?_eq_some hd) declared hmem
  have hfind : d ∈ t.name?.bind h.find? := by simp [TypeExpr.name?_eq_some_iff.mpr hbase, hd]
  unfold Declaration.seenFrom
  split
  · rfl
  · exact Bindings.boxed_substitute (hfit d hfind declared hmem) (fun p a ha =>
      Bindings.argument_of_boxed ht.boxed (Declaration.mem_of_actuals ha).2) hprimitive

theorem directSupertype_of_ground (ht : h.Ground t) (hfit : h.SumsFit t) :
    h.directSupertype t declared = .ok (d.seenFrom t declared) := by
  obtain ⟨-, -, hparameters, hprimitive⟩ := hown d (List.mem_of_find?_eq_some hd) declared hmem
  obtain ⟨u, hu⟩ := exists_directSupertype ht.known declared
  rw [hu, ht.eq_seenFrom hbase hd hparameters hprimitive hu,
    ht.boxed_seenFrom hown hbase hd hmem hfit]

/-- A hop up from a ground type leads to a ground type. -/
theorem Ground.seenFrom (ht : h.Ground t) (hfit : h.SumsFit t) (hclosed : h.Closed) :
    h.Ground (d.seenFrom t declared) := by
  have hproper := ht.toProper.seenFrom hown hbase hd hmem
  rw [ht.boxed_seenFrom hown hbase hd hmem hfit] at hproper
  refine ⟨hproper, ?_⟩
  have hknown := hclosed.supertype hd hmem
  unfold Declaration.seenFrom
  split
  · exact hknown.erased
  · exact TypeExpr.every_substitute
      (fun p a ha => ht.known.arguments a (Declaration.mem_of_actuals ha).2)
      fun o ho _ => TypeExpr.every_iff_occurrences.mp hknown o ho

omit hown in
theorem substitutedHop_of_declared : h.SubstitutedHop t (d.seenFrom t declared) := by
  have hfind : t.name?.bind h.find? = some d := by simp [TypeExpr.name?_eq_some_iff.mpr hbase, hd]
  simp only [SubstitutedHop, seenAbove, hfind]
  exact List.mem_map_of_mem hmem

end Hop

/-- A ground type from which no hop up wraps array dimensions around. -/
structure Bounded (h : Hierarchy) (t : TypeExpr) : Prop extends h.Ground t where
  sums : ∀ u, ReflTransGen h.SubstitutedHop t u → h.SumsFit u

theorem Bounded.seenFrom (hown : h.OwnSupertypes) (hclosed : h.Closed) {t declared : TypeExpr}
    {own : String} {d : Declaration} (ht : h.Bounded t) (hbase : t.base = .nominal own)
    (hd : h.find? own = some d) (hmem : declared ∈ d.supertypes) :
    h.directSupertype t declared = .ok (d.seenFrom t declared) ∧
      h.Bounded (d.seenFrom t declared) := by
  have hfit := ht.sums t .refl
  refine ⟨directSupertype_of_ground hown hbase hd hmem ht.toGround hfit,
    ht.toGround.seenFrom hown hbase hd hmem hfit hclosed, fun u hu => ?_⟩
  exact ht.sums u (.head (substitutedHop_of_declared hbase hd hmem) hu)

theorem OwnSupertypes.upClosed (hown : h.OwnSupertypes) (hclosed : h.Closed) :
    h.UpClosed h.Bounded where
  declares ht hbase := declares_of_every ht.known hbase
  hop ht hbase hd hmem := ⟨_, ht.seenFrom hown hclosed hbase hd hmem⟩

theorem OwnSupertypes.namedSupertypes (hown : h.OwnSupertypes) : h.NamedSupertypes :=
  fun d hd t ht => (hown d hd t ht).1

/-- The first path up from such a type is one of substitutions, to a ground type. -/
theorem Bounded.path (hown : h.OwnSupertypes) (hclosed : h.Closed) {name : String}
    {t u : TypeExpr} (ht : h.Bounded t) (hpath : h.FirstPath name t u) :
    ReflTransGen h.SubstitutedHop t u ∧ h.Ground u := by
  induction hpath with
  | here => exact ⟨.refl, ht.toGround⟩
  | @up t u found declared own d before after hbase _ hd hsplit _ hu _ ih =>
    have hmem : declared ∈ d.supertypes := by
      rw [hsplit]
      simp
    obtain ⟨hseen, hnext⟩ := ht.seenFrom hown hclosed hbase hd hmem
    cases hu.symm.trans hseen
    obtain ⟨hrest, hground⟩ := ih hnext
    exact ⟨.head (substitutedHop_of_declared hbase hd hmem) hrest, hground⟩

/-- The search for a supertype of a ground type always has an answer, if no array dimensions wrap
around on the way up. It finds a type exactly if the name can be reached, and this is a type of that
name without parameters, which comes of the type (its own array dimensions aside) by substituting
arguments for formal parameters at each hop of a path. -/
theorem supertype?_ground {start : Hierarchy}
    (hstart : start = .empty ∨ start = Platform.hierarchy) {batches : List (List Declaration)}
    (hbuilt : h = start.offerAll batches) (hclosed : h.Closed) (hown : h.OwnSupertypes)
    {sub : TypeExpr} {own : String} (hbase : sub.base = .nominal own)
    (hnames : ∀ n ∈ sub.names, h.Declares n) (hfitting : h.Fitting sub)
    (hfixed : ∀ o ∈ sub.occurrences, o.parameter? = none)
    (hprimitive : ∀ o ∈ sub.inner, o.isPrimitive = false)
    (hsums : ∀ t, ReflTransGen h.SubstitutedHop sub.withoutArrays t → h.SumsFit t)
    (name : String) :
    ∃ found, h.supertype? sub name = .ok found ∧
      (found.isSome = true ↔ ReflTransGen h.Super own name) ∧
      ∀ u, found = some u → u.base = .nominal name ∧ (∀ o ∈ u.occurrences, o.parameter? = none) ∧
        ReflTransGen h.SubstitutedHop sub.withoutArrays u := by
  have hacyclic : h.Acyclic := by
    rw [hbuilt]
    refine acyclic_offerAll ?_ batches
    rcases hstart with rfl | rfl
    · exact acyclic_empty
    · exact Platform.acyclic_hierarchy
  have hground : h.Ground sub :=
    ⟨⟨⟨own, hbase⟩, hfitting, fixed_iff.mpr hfixed, Bindings.boxed_of_inner hprimitive⟩,
      every_knows hnames⟩
  have hbounded : h.Bounded sub.withoutArrays := ⟨hground.withoutArrays, hsums⟩
  obtain ⟨found, hfound, hreached, hpath⟩ := (hown.upClosed hclosed).exists_supertype? hclosed
    hacyclic hown.namedSupertypes hbase hbounded name
  refine ⟨found, hfound, hreached, fun u hu => ?_⟩
  obtain ⟨hhops, hend⟩ := hbounded.path hown hclosed (hpath u hu)
  exact ⟨(hpath u hu).base_eq, fixed_iff.mp hend.fixed, hhops⟩

/-- A class two hops below the map, whose superclass swaps the arguments. An argument with array
dimensions and a wildcard gets one more dimension, and one with a wildcard gets another. -/
theorem index_is_map :
    let first := Platform.own "com.example.Index" 0 "A"
    let second := Platform.own "com.example.Index" 1 "B"
    let text := TypeExpr.nominal "java.lang.String"
    let number := TypeExpr.nominal "java.lang.Integer"
    let index := TypeExpr.applied "com.example.Index"
      [{ text with wildcard := .upper }, { number with arrays := 1, wildcard := .upper }]
    let batch : List Declaration :=
      [⟨"com.example.Index", .ofClass, [⟨"A", []⟩, ⟨"B", []⟩],
        some (.applied "java.util.HashMap" [{ second with arrays := 1 },
          .applied "java.util.List" [{ first with wildcard := .lower }]]), [], none⟩]
    ∃ h, h = Platform.hierarchy.offerAll [batch] ∧ h.Closed ∧ h.OwnSupertypes ∧
      h.supertype? index "java.util.Map" = .ok (some (.applied "java.util.Map"
        [{ number with arrays := 2, wildcard := .upper },
          .applied "java.util.List" [{ text with wildcard := .lower }]])) := by
  intro first second text number index batch
  let h := Platform.hierarchy.extend batch
  have hregister : Platform.hierarchy.register batch = .ok h :=
    Platform.register_of_order (by decide +kernel) (by decide +kernel)
  have hbuilt : h = Platform.hierarchy.offerAll [batch] := (offer_of_ok hregister).symm
  have hclosed : h.Closed := by decide +kernel
  have hown : h.OwnSupertypes := by decide +kernel
  let arguments : List TypeExpr := [{ number with arrays := 2, wildcard := .upper },
    .applied "java.util.List" [{ text with wildcard := .lower }]]
  let above : List TypeExpr :=
    [index, .applied "java.util.HashMap" arguments, .applied "java.util.Map" arguments]
  have habove {t : TypeExpr} (ht : ReflTransGen h.SubstitutedHop index t) : t ∈ above :=
    mem_of_closed (f := h.seenAbove) (by decide +kernel) List.mem_cons_self ht
  obtain ⟨found, hfound, hreached, hspec⟩ := supertype?_ground (Or.inr rfl) hbuilt hclosed hown
    (Eq.refl index.base) (by decide +kernel) (by decide +kernel) (by decide) (by decide)
    (fun t ht => (by decide +kernel : ∀ t ∈ above, h.SumsFit t) t (habove ht)) "java.util.Map"
  have hclass : h.Super "com.example.Index" "java.util.HashMap" := by decide +kernel
  have hmap : h.Super "java.util.HashMap" "java.util.Map" := by decide +kernel
  obtain ⟨u, rfl⟩ := Option.isSome_iff_exists.mp (hreached.mpr (.head hclass (.single hmap)))
  obtain ⟨hname, -, hhops⟩ := hspec u rfl
  refine ⟨h, hbuilt, hclosed, hown, ?_⟩
  have hmem := habove hhops
  simp only [above, List.mem_cons, List.not_mem_nil, or_false] at hmem
  rcases hmem with rfl | rfl | rfl
  · exact absurd hname (by decide)
  · exact absurd hname (by decide)
  · exact hfound

/-- An array is its own supertype without its dimensions. An array of numbers in place of a
parameter with as many dimensions as a word can count wraps around to a number, which is boxed. -/
theorem dimensions_lost :
    let text := TypeExpr.nominal "java.lang.String"
    let boxes := TypeExpr.applied "com.example.Box" [{ TypeExpr.primitive .int with arrays := 1 }]
    let declared := TypeExpr.applied "com.example.Holder"
      [{ Platform.own "com.example.Box" 0 "T" with arrays := 18446744073709551615 }]
    let batch := [Platform.interfaceOf "com.example.Holder" ["T"] [],
      Platform.classOf "com.example.Box" ["T"] [declared]]
    ∃ h, h = Platform.hierarchy.offerAll [batch] ∧ h.Closed ∧ h.OwnSupertypes ∧
      h.supertype? { text with arrays := 1 } "java.lang.String" = .ok (some text) ∧
      (∀ n ∈ boxes.names, h.Declares n) ∧ h.Fitting boxes ∧
      (∀ o ∈ boxes.occurrences, o.parameter? = none) ∧
      (∀ o ∈ boxes.inner, o.isPrimitive = false) ∧ ¬ h.SumsFit boxes ∧
      h.supertype? boxes "com.example.Holder" =
        .ok (some (.applied "com.example.Holder" [.nominal "java.lang.Integer"])) := by
  intro text boxes declared batch
  let h := Platform.hierarchy.extend batch
  let holder := TypeExpr.applied "com.example.Holder" [.nominal "java.lang.Integer"]
  have hregister : Platform.hierarchy.register batch = .ok h :=
    Platform.register_of_order (by decide +kernel) (by decide +kernel)
  have hbuilt : h = Platform.hierarchy.offerAll [batch] := (offer_of_ok hregister).symm
  have hown : h.OwnSupertypes := by decide +kernel
  have hnames : ∀ n ∈ boxes.names, h.Declares n := by decide +kernel
  have hproper : h.Proper boxes := ⟨⟨_, rfl⟩, by decide +kernel, fixed_iff.mpr (by decide), rfl⟩
  have hseen : h.directSupertype boxes declared = .ok holder := by
    obtain ⟨u, hu⟩ := exists_directSupertype (every_knows hnames) declared
    rw [hu, hproper.eq_seenFrom (d := Platform.classOf "com.example.Box" ["T"] [declared]) rfl rfl
      (by decide) (by decide) hu]
    decide
  have hfirst : firstSupertype (h.searchSupertype "com.example.Holder" h.size)
      (h.directSupertype boxes) [declared] ["com.example.Box"] =
        .ok (some holder, ["com.example.Box"]) := by
    rw [firstSupertype, hseen]
    rfl
  refine ⟨h, hbuilt, by decide +kernel, hown, rfl, hnames, by decide +kernel, by decide, by decide,
    by decide +kernel, ?_⟩
  exact congrArg (Except.map Prod.fst) hfirst

end Hierarchy

end Mutability
