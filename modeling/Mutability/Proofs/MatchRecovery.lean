import Mutability.Proofs.Depth
import Mutability.Proofs.GroundSupertypes
import Mutability.Proofs.TranslationDepth
import Mutability.Types.Matching

/-!
# Matching a type against what bindings make of it

A declared type in which bindings put ground types in place of bare parameters is a substitution
instance of it (`apply_eq_substitute`). Matching the declared type against the instance walks both
side by side: array dimensions that were added are taken off again, and every occurrence of a
parameter gives the same binding, so that it does not matter that the first one counts. What is
found are the bindings of the parameters that occur, and nothing else (`exists_matchTypes`). Applied
to the declared type they lead to the instance again (`match_recovers`).
-/

namespace Mutability

/-! ## Depths of a match -/

namespace Hierarchy

section Depth

variable {h : Hierarchy} {visit visit' : TypeExpr → TypeExpr → Bindings → Outcome Bindings}
  (hvisit : ∀ declared concrete known,
    (visit declared concrete known).ExtendsTo (visit' declared concrete known))

include hvisit

theorem matchPairs_extendsTo (ds cs : List TypeExpr) (known : Bindings) :
    (matchPairs visit ds cs known).ExtendsTo (matchPairs visit' ds cs known) := by
  induction ds generalizing cs known with
  | nil => exact fun _ => rfl
  | cons d ds ih =>
    cases cs with
    | nil => exact fun _ => rfl
    | cons c cs => exact (hvisit d c known).bind fun found => ih cs found

theorem matchSignatures_extendsTo (declared concrete : TypeExpr) (known : Bindings) :
    (matchSignatures visit h declared concrete known).ExtendsTo
      (matchSignatures visit' h declared concrete known) := by
  refine Outcome.ExtendsTo.bind (fun _ => rfl) fun left => ?_
  refine Outcome.ExtendsTo.bind (fun _ => rfl) fun right => ?_
  cases left with
  | none => exact fun _ => rfl
  | some left =>
    cases right with
    | none => exact fun _ => rfl
    | some right =>
      show Outcome.ExtendsTo (if _ then _ else _) (if _ then _ else _)
      split_ifs
      · exact (matchPairs_extendsTo hvisit _ _ known).bind fun found => hvisit _ _ found
      · exact fun _ => rfl

end Depth

/-- A greater depth does not change what a match comes to. -/
theorem matchTypes_extendsTo (h : Hierarchy) {n m : Nat} (hle : n ≤ m)
    (declared concrete : TypeExpr) (known : Bindings) :
    (h.matchTypes n declared concrete known).ExtendsTo
      (h.matchTypes m declared concrete known) := by
  induction n generalizing m declared concrete known with
  | zero => exact fun hfinished => absurd rfl hfinished
  | succ n ih =>
    obtain ⟨m, rfl⟩ := Nat.exists_eq_add_of_le' (Nat.lt_of_lt_of_le (Nat.succ_pos n) hle)
    have hvisit := fun declared concrete known => ih (by omega : n ≤ m) declared concrete known
    unfold matchTypes
    cases declared.base with
    | parameter | primitive | null | wildcard => exact fun _ => rfl
    | nominal name =>
      cases concrete.base with
      | parameter | primitive | null | wildcard => exact fun _ => rfl
      | nominal own =>
        simp only
        split_ifs
        · exact matchSignatures_extendsTo hvisit declared concrete known
        · refine Outcome.ExtendsTo.bind (fun _ => rfl) fun aligned => ?_
          cases aligned with
          | none => exact fun _ => rfl
          | some aligned =>
            show Outcome.ExtendsTo (if _ then _ else _) (if _ then _ else _)
            split_ifs
            · exact matchPairs_extendsTo hvisit _ _ known
            · exact fun _ => rfl

section Named

variable {h : Hierarchy} {declared concrete : TypeExpr} {name own : String}
  (hdeclared : declared.base = .nominal name)

include hdeclared

/-- A named type is matched by its arguments against what the use is aligned to, unless both are
functional interfaces. -/
theorem matchTypes_of_align (hconcrete : concrete.base = .nominal own)
    (hplain : name = own ∨ h.isFunctional name = false) {aligned : Option TypeExpr}
    (haligned : h.align name own concrete = .ok aligned) (depth : Nat) (known : Bindings) :
    h.matchTypes (depth + 1) declared concrete known =
      aligned.elim (.answer known) fun use =>
        if use.arguments.length = declared.arguments.length then
          matchPairs (h.matchTypes depth) declared.arguments use.arguments known
        else .answer known := by
  have hnames : ¬(name ≠ own ∧ h.isFunctional name = true ∧ h.isFunctional own = true) := by
    rcases hplain with hname | hname <;> simp [hname]
  rw [matchTypes]
  simp only [hdeclared, hconcrete, if_neg hnames, haligned]
  cases aligned <;> rfl

/-- Two types of one name are matched by their arguments. -/
theorem matchTypes_of_name (hconcrete : concrete.base = .nominal name)
    (hlength : concrete.arguments.length = declared.arguments.length) (depth : Nat)
    (known : Bindings) :
    h.matchTypes (depth + 1) declared concrete known =
      matchPairs (h.matchTypes depth) declared.arguments concrete.arguments known := by
  have haligned : h.align name name concrete = .ok (some concrete) := by simp [align]
  rw [matchTypes_of_align hdeclared hconcrete (Or.inl rfl) haligned, Option.elim_some,
    if_pos hlength]

end Named

theorem matchBindings_eq_answer {h : Hierarchy} {n : Nat} {declared concrete : TypeExpr}
    {found : Bindings} (hn : h.matchTypes n declared concrete .empty = .answer found) :
    h.matchBindings declared concrete = .answer found := by
  have hdeepens : Outcome.Deepens fun depth => h.matchTypes depth declared concrete .empty :=
    fun _ _ hle => h.matchTypes_extendsTo hle declared concrete .empty
  exact (hdeepens.deepen_eq (n := n) (by simp [hn]) matchDepth).trans hn

end Hierarchy

/-! ## Declared types -/

/-- A base that is no parameter and no primitive. -/
def Base.IsGround : Base → Prop
  | .parameter _ => False
  | .primitive _ => False
  | _ => True

instance : DecidablePred Base.IsGround
  | .parameter _ => inferInstanceAs (Decidable False)
  | .primitive _ => inferInstanceAs (Decidable False)
  | .nominal _ | .null | .wildcard => inferInstanceAs (Decidable True)

namespace TypeExpr

/-- The parameters that occur in a type. -/
def parameters (t : TypeExpr) : List TypeParameter := t.occurrences.filterMap (·.parameter?)

/-- Only a named type has arguments, and a parameter has no wildcard. -/
def Matchable (t : TypeExpr) : Prop :=
  (t.name? = none → t.arguments = []) ∧ (t.parameter? ≠ none → t.wildcard = .plain)

instance (t : TypeExpr) : Decidable t.Matchable := inferInstanceAs (Decidable (_ ∧ _))

theorem occurrencesList_eq (ts : List TypeExpr) : occurrencesList ts = ts.flatMap occurrences := by
  induction ts with
  | nil => rfl
  | cons t ts ih => rw [occurrencesList, ih, List.flatMap_cons]

theorem parameters_eq (t : TypeExpr) :
    t.parameters = t.parameter?.toList ++ t.arguments.flatMap parameters := by
  have hinner : t.inner.filterMap (·.parameter?) = t.arguments.flatMap parameters := by
    rw [inner, occurrencesList_eq, List.filterMap_flatMap]
    rfl
  rw [parameters, occurrences_eq, List.filterMap_cons, hinner]
  cases t.parameter? <;> rfl

theorem mem_parameters_of_base {t : TypeExpr} {p : TypeParameter} (hbase : t.base = .parameter p) :
    p ∈ t.parameters := by
  rw [parameters_eq, parameter?_eq_some_iff.mpr hbase]
  simp

theorem mem_parameters_of_argument {t a : TypeExpr} {p : TypeParameter} (ha : a ∈ t.arguments)
    (hp : p ∈ a.parameters) : p ∈ t.parameters := by
  rw [parameters_eq]
  exact List.mem_append_right _ (List.mem_flatMap.mpr ⟨a, ha, hp⟩)

theorem fixed_of_ground {t : TypeExpr} (ht : t.Every Base.IsGround) : Hierarchy.Fixed t := by
  refine ht.mono fun base hbase p hp => ?_
  rw [hp] at hbase
  exact hbase

theorem not_isPrimitive_of_ground {t : TypeExpr} (ht : t.base.IsGround) :
    t.isPrimitive = false := by
  cases hbase : t.base with
  | primitive p =>
    rw [hbase] at ht
    exact ht.elim
  | nominal | parameter | null | wildcard => simp [isPrimitive, primitive?, hbase]

theorem boxed_of_ground {t : TypeExpr} (ht : t.Every Base.IsGround) : t.boxed = t := by
  refine Bindings.boxed_of_inner fun o ho => not_isPrimitive_of_ground ?_
  refine every_iff_occurrences.mp ht o ?_
  rw [occurrences_eq]
  exact List.mem_cons_of_mem t ho

end TypeExpr

namespace Bindings

open TypeExpr

/-- The bindings put a ground type in place of every parameter in the type. Besides named types with
arguments there is nothing in it that matching would not go into, and no primitive value that would
be boxed. -/
structure Instantiates (σ : Bindings) (t : TypeExpr) : Prop where
  matchable : ∀ o ∈ t.occurrences, o.Matchable
  boxed : ∀ o ∈ t.inner, o.isPrimitive = false
  bound : ∀ p ∈ t.parameters, ∃ bound, σ.find? p = some bound ∧ bound.Every Base.IsGround

section Instantiates

variable {σ : Bindings} {t a : TypeExpr} (hσ : σ.Instantiates t)

include hσ

theorem Instantiates.argument (ha : a ∈ t.arguments) : σ.Instantiates a where
  matchable o ho := hσ.matchable o (occurrence_of_argument ha ho)
  boxed o ho := hσ.boxed o (inner_of_argument ha ho)
  bound p hp := hσ.bound p (mem_parameters_of_argument ha hp)

/-- A parameter is bare and has a ground binding. -/
theorem Instantiates.parameter {p : TypeParameter} (hbase : t.base = .parameter p) :
    t.arguments = [] ∧ t.wildcard = .plain ∧
      ∃ bound, σ.find? p = some bound ∧ bound.Every Base.IsGround := by
  obtain ⟨harguments, hwildcard⟩ := hσ.matchable t t.self_mem_occurrences
  refine ⟨harguments ?_, hwildcard ?_, hσ.bound p (mem_parameters_of_base hbase)⟩
  · simp [name?, hbase]
  · simp [parameter?, hbase]

/-- An argument with the bindings put in is no primitive value. -/
theorem Instantiates.isPrimitive_substitute (ht : t.isPrimitive = false) :
    (t.substitute σ.find?).isPrimitive = false := by
  cases hbound : boundIn σ.find? t.base with
  | none =>
    rw [substitute_of_none hbound]
    exact ht
  | some bound =>
    obtain ⟨p, hbase, hp⟩ := exists_of_boundIn hbound
    obtain ⟨-, -, bound', hbound', hground⟩ := hσ.parameter hbase
    cases hp.symm.trans hbound'
    rw [substitute_of_some hbound]
    exact not_isPrimitive_of_ground hground.base

theorem Instantiates.translate_eq_substitute : σ.translate [] t = t.substitute σ.find? := by
  induction t using induct with
  | step t ih =>
    cases hparameter : t.parameter? with
    | some p =>
      have hbase := parameter?_eq_some_iff.mp hparameter
      obtain ⟨-, -, bound, hbound, hground⟩ := hσ.parameter hbase
      have hfixed := fixed_of_ground hground
      have hfound : boundIn σ.find? t.base = some bound := by
        rw [hbase]
        exact hbound
      rw [substitute_of_some hfound,
        translate_of_find? hbase List.not_mem_nil hbound (hfixed.base p),
        Hierarchy.translate_of_fixed σ [p] hfixed (boxed_of_ground hground)]
    | none =>
      rw [translate_eq, follow_of_parameter?_eq_none hparameter,
        substitute_of_none (boundIn_eq_none _ hparameter)]
      dsimp only
      congr 1
      refine List.map_congr_left fun a ha => ?_
      have hargument := hσ.argument ha
      rw [ih a ha hargument]
      exact boxArgument_of_not_isPrimitive
        (hargument.isPrimitive_substitute (hσ.boxed a (argument_mem_inner ha)))

/-- Applying the bindings puts them in all at once. -/
theorem Instantiates.apply_eq_substitute : σ.apply t = t.substitute σ.find? := by
  unfold apply
  split
  · rename_i hempty
    refine (substitute_eq_self fun o ho => ?_).symm
    have hnone : σ.find? = fun _ => none := by
      funext p
      simp [find?, List.isEmpty_iff.mp hempty]
    cases hbase : o.base <;> simp [boundIn, hnone]
  · exact hσ.translate_eq_substitute

end Instantiates

/-- Bindings that agree on the parameters in a type lead to the same. -/
theorem Instantiates.apply_congr {σ τ : Bindings} {t : TypeExpr} (hσ : σ.Instantiates t)
    (hτ : ∀ p ∈ t.parameters, τ.find? p = σ.find? p) : τ.apply t = σ.apply t := by
  have hτ' : τ.Instantiates t := ⟨hσ.matchable, hσ.boxed, fun p hp => by
    rw [hτ p hp]
    exact hσ.bound p hp⟩
  rw [hτ'.apply_eq_substitute, hσ.apply_eq_substitute]
  refine substitute_congr fun o ho => ?_
  cases hbase : o.base with
  | parameter p =>
    exact hτ p (List.mem_filterMap.mpr ⟨o, ho, parameter?_eq_some_iff.mpr hbase⟩)
  | nominal | primitive | null | wildcard => rfl

end Bindings

/-! ## What a match finds -/

namespace Hierarchy

open TypeExpr

variable {h : Hierarchy} {σ known found : Bindings} {t : TypeExpr}

/-- What is found is what was known, with the bindings of `σ` for the given parameters added. -/
def Adds (σ known found : Bindings) (ps : List TypeParameter) : Prop :=
  ∀ p, found.find? p = (known.find? p).or (if p ∈ ps then σ.find? p else none)

theorem Adds.nil (σ known : Bindings) : Adds σ known known [] := fun p => by simp

theorem Adds.append {more : Bindings} {ps qs : List TypeParameter} (hps : Adds σ known found ps)
    (hqs : Adds σ found more qs) : Adds σ known more (ps ++ qs) := by
  intro p
  rw [hqs p, hps p, Option.or_assoc]
  by_cases hp : p ∈ ps <;> by_cases hq : p ∈ qs <;> simp [hp, hq]

theorem exists_matchPairs {visit : TypeExpr → TypeExpr → Bindings → Outcome Bindings}
    {instantiate : TypeExpr → TypeExpr} {ts : List TypeExpr}
    (hts : ∀ t ∈ ts, ∀ known, ∃ found, visit t (instantiate t) known = .answer found ∧
      Adds σ known found t.parameters) (known : Bindings) :
    ∃ found, matchPairs visit ts (ts.map instantiate) known = .answer found ∧
      Adds σ known found (ts.flatMap parameters) := by
  induction ts generalizing known with
  | nil => exact ⟨known, rfl, .nil σ known⟩
  | cons t ts ih =>
    obtain ⟨first, hfirst, hadds⟩ := hts t List.mem_cons_self known
    obtain ⟨found, hfound, hrest⟩ := ih (fun u hu => hts u (List.mem_cons_of_mem t hu)) first
    refine ⟨found, Outcome.bind_eq_answer.mpr ⟨first, hfirst, hfound⟩, ?_⟩
    rw [List.flatMap_cons]
    exact hadds.append hrest

/-- Dimensions that were added are taken off again, if the sum did not wrap around. -/
theorem dimensionsBeyond_add {arrays less : UInt64}
    (hfit : less.toNat + arrays.toNat < UInt64.size) :
    dimensionsBeyond (arrays + less) less = arrays := by
  have hsum : (arrays + less).toNat = less.toNat + arrays.toNat := by
    rw [UInt64.add_comm, UInt64.toNat_add]
    exact Nat.mod_eq_of_lt hfit
  have hle : less ≤ arrays + less := UInt64.le_iff_toNat_le.mpr (by omega)
  rw [dimensionsBeyond, if_pos hle, UInt64.add_sub_cancel]

theorem dimensionsBeyond_zero (arrays : UInt64) : dimensionsBeyond arrays 0 = arrays := by
  rw [dimensionsBeyond, if_pos UInt64.zero_le, UInt64.sub_zero]

/-- A parameter is bound to what was put in for it: the array dimensions of the occurrence, which
were added, are taken off. -/
theorem exists_match_parameter (hσ : σ.Instantiates t) (hfit : t.DimensionsFit σ.find?)
    {p : TypeParameter} (hbase : t.base = .parameter p) (depth : Nat) (known : Bindings) :
    ∃ found, h.matchTypes (depth + 1) t (t.substitute σ.find?) known = .answer found ∧
      Adds σ known found t.parameters := by
  obtain ⟨harguments, hplain, bound, hbound, -⟩ := hσ.parameter hbase
  have hfound : boundIn σ.find? t.base = some bound := by
    rw [hbase]
    exact hbound
  have htaken : { t.substitute σ.find? with
      arrays := dimensionsBeyond (t.substitute σ.find?).arrays t.arrays } = bound := by
    have hdimensions := dimensionsBeyond_add (hfit t t.self_mem_occurrences bound hfound)
    rw [substitute_of_some hfound]
    cases bound
    simp only [Bindings.replace, hplain, ↓reduceIte, hdimensions]
  have hps : t.parameters = [p] := by
    rw [parameters_eq, parameter?_eq_some_iff.mpr hbase, harguments]
    rfl
  refine ⟨known.bindNew p bound, ?_, fun q => ?_⟩
  · rw [matchTypes]
    simp only [hbase, htaken]
  · rw [Bindings.find?_bindNew, hps]
    by_cases hq : q = p
    · simp [hq, hbound]
    · simp [hq]

/-- Matching a declared type against what bindings make of it finds these bindings, for the
parameters that occur in it and were not bound before. -/
theorem exists_matchTypes (hσ : σ.Instantiates t) (hfit : t.DimensionsFit σ.find?) {depth : Nat}
    (hdepth : t.nesting ≤ depth) (known : Bindings) :
    ∃ found, h.matchTypes depth t (t.substitute σ.find?) known = .answer found ∧
      Adds σ known found t.parameters := by
  -- For all that is known: what one argument binds is known to the next.
  induction t using induct generalizing depth known with
  | step t ih =>
    obtain ⟨depth, rfl⟩ := Nat.exists_eq_add_of_le' (Nat.lt_of_lt_of_le (nesting_pos t) hdepth)
    cases hbase : t.base with
    | parameter p => exact exists_match_parameter hσ hfit hbase depth known
    | primitive | null | wildcard =>
      have harguments : t.arguments = [] :=
        (hσ.matchable t t.self_mem_occurrences).1 (by simp [name?, hbase])
      refine ⟨known, ?_, ?_⟩
      · rw [matchTypes]
        simp only [hbase]
      · rw [parameters_eq, harguments, parameter?, hbase]
        exact .nil σ known
    | nominal name =>
      have hparameter : t.parameter? = none := by simp [parameter?, hbase]
      have hvisit : ∀ a ∈ t.arguments, ∀ known, ∃ found,
          h.matchTypes depth a (a.substitute σ.find?) known = .answer found ∧
            Adds σ known found a.parameters := by
        intro a ha known
        have hlt := nesting_lt_of_mem_arguments ha
        exact ih a ha (hσ.argument ha) (fun o ho => hfit o (occurrence_of_argument ha ho))
          (by omega) known
      obtain ⟨found, hfound, hadds⟩ := exists_matchPairs hvisit known
      refine ⟨found, ?_, ?_⟩
      · rw [substitute_of_none (boundIn_eq_none _ hparameter)]
        refine (matchTypes_of_name hbase ?_ ?_ depth known).trans hfound
        · exact hbase
        · exact List.length_map _
      · rw [parameters_eq, hparameter]
        exact hadds

/-- Matching a declared type against what bindings make of it recovers the bindings of its
parameters, which lead to the same type again, unless array dimensions wrap around. -/
theorem match_recovers (h : Hierarchy) {σ : Bindings} {declared : TypeExpr}
    (hσ : σ.Instantiates declared) (hfit : declared.DimensionsFit σ.find?) :
    ∃ found, h.matchBindings declared (σ.apply declared) = .answer found ∧
      found.apply declared = σ.apply declared ∧
      ∀ p, found.find? p = if p ∈ declared.parameters then σ.find? p else none := by
  obtain ⟨found, hfound, hadds⟩ :=
    exists_matchTypes (h := h) hσ hfit (Nat.le_refl declared.nesting) .empty
  have hfind : ∀ p, found.find? p = if p ∈ declared.parameters then σ.find? p else none := by
    intro p
    rw [hadds p]
    rfl
  refine ⟨found, ?_, hσ.apply_congr fun p hp => ?_, hfind⟩
  · rw [hσ.apply_eq_substitute]
    exact matchBindings_eq_answer hfound
  · rw [hfind p, if_pos hp]

/-- A parameter that occurs twice, with and without array dimensions, and one that stands for an
argument with a lower bound. -/
theorem nested_match_recovered :
    let key : TypeParameter := ⟨some (.type "com.example.Index"), 0, "K"⟩
    let value : TypeParameter := ⟨some (.type "com.example.Index"), 1, "V"⟩
    let keys := TypeExpr.applied "java.util.List" [{ TypeExpr.parameter key with arrays := 1 }]
    let declared := TypeExpr.applied "java.util.Map" [{ keys with wildcard := .upper },
      .applied "java.util.Map" [.parameter key, { TypeExpr.parameter value with arrays := 2 }]]
    let text : TypeExpr := { TypeExpr.nominal "java.lang.String" with arrays := 1 }
    let number : TypeExpr := { TypeExpr.nominal "java.lang.Integer" with wildcard := .lower }
    let σ : Bindings := ⟨[(value, number), (key, text)]⟩
    σ.Instantiates declared ∧ declared.DimensionsFit σ.find? ∧
      ∃ found, Platform.hierarchy.matchBindings declared (σ.apply declared) = .answer found ∧
        found.apply declared = σ.apply declared ∧
        ∀ p, found.find? p = if p ∈ declared.parameters then σ.find? p else none := by
  intro key value keys declared text number σ
  have hσ : σ.Instantiates declared := by
    refine ⟨by decide, by decide, ?_⟩
    show ∀ p ∈ [key, key, value], _
    simp only [List.forall_mem_cons, List.not_mem_nil, false_implies, implies_true, and_true]
    exact ⟨⟨text, rfl, by decide⟩, ⟨text, rfl, by decide⟩, ⟨number, rfl, by decide⟩⟩
  have hfit : declared.DimensionsFit σ.find? := by decide
  exact ⟨hσ, hfit, match_recovers Platform.hierarchy hσ hfit⟩

/-- A parameter with as many array dimensions as a word can count, bound to an array. The sum wraps
around, so the match finds another type, which does not lead to the same. -/
theorem wrapped_match_lost :
    let p : TypeParameter := ⟨some (.type "com.example.Box"), 0, "T"⟩
    let text := TypeExpr.nominal "java.lang.String"
    let declared := { TypeExpr.parameter p with arrays := 18446744073709551615 }
    let σ : Bindings := ⟨[(p, { text with arrays := 1 })]⟩
    σ.Instantiates declared ∧ σ.apply declared = text ∧
      Platform.hierarchy.matchBindings declared (σ.apply declared) = .answer ⟨[(p, text)]⟩ ∧
      Bindings.apply ⟨[(p, text)]⟩ declared = { text with arrays := 18446744073709551615 } := by
  intro p text declared σ
  have hbound (t : TypeExpr) (ht : t.Every Base.IsGround) :
      Bindings.Instantiates ⟨[(p, t)]⟩ declared := by
    refine ⟨by decide, by decide, ?_⟩
    show ∀ q ∈ [p], _
    simp only [List.forall_mem_cons, List.not_mem_nil, false_implies, implies_true, and_true]
    exact ⟨t, rfl, ht⟩
  have hσ := hbound { text with arrays := 1 } (by decide)
  have happly : σ.apply declared = text := hσ.apply_eq_substitute.trans (by decide)
  refine ⟨hσ, happly, ?_, (hbound text (by decide)).apply_eq_substitute.trans (by decide)⟩
  rw [happly]
  exact matchBindings_eq_answer (n := 1) rfl

end Hierarchy

end Mutability
