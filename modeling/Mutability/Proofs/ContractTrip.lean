import Mutability.Proofs.ContractFacts

/-!
# From markers to contracts and back

The markers derived for a parameter can be read back as contracts. Each question goes its own way:
the present markers on it leave facts in an empty store (`Store.Carries`), a question without a
present marker is left to the convention, and both read as the same markers again
(`parameter_markers_survive`).
-/

namespace Mutability

open Contract (factsOf)

/-- Verdicts with the same present markers. -/
def SamePresent (vs ws : List Verdict) : Prop := ∀ m, (m, true) ∈ vs ↔ (m, true) ∈ ws

namespace SamePresent

variable {vs vs' ws ws' : List Verdict}

theorem refl (vs : List Verdict) : SamePresent vs vs := fun _ => Iff.rfl

theorem append (hvs : SamePresent vs vs') (hws : SamePresent ws ws') :
    SamePresent (vs ++ ws) (vs' ++ ws') := by
  intro m
  rw [List.mem_append, List.mem_append, hvs m, hws m]

end SamePresent

namespace Store

/-- The store holds, on one question, what the present markers among the verdicts say. -/
def Carries (t : Store) (topic : MarkerName) (vs : List Verdict) : Prop :=
  ∀ p fact, p.topic = topic →
    (t.facts p = some fact ↔ ∃ m, (m, true) ∈ vs ∧ (p, fact) ∈ factsOf [⟨m, false⟩])

namespace Carries

variable {t : Store} {topic : MarkerName} {topics : List MarkerName} {vs ws : List Verdict}

/-- Verdicts on other questions leave nothing on this one. -/
theorem of_iff (h : t.Carries topic vs)
    (hiff : ∀ m : Marker, m.name.topic = topic → ((m, true) ∈ vs ↔ (m, true) ∈ ws)) :
    t.Carries topic ws := by
  intro p fact hp
  rw [h p fact hp]
  refine exists_congr fun m => and_congr_left fun hfact => hiff m ?_
  exact (Contract.facts_of_contract hfact).1.symm.trans hp

theorem left (h : t.Carries topic (vs ++ ws)) (hws : Coherent topics ws) (htopic : topic ∉ topics) :
    t.Carries topic vs := by
  refine h.of_iff fun m hm => ?_
  rw [List.mem_append]
  exact ⟨fun hmem => hmem.resolve_right fun hmem => htopic (hm ▸ hws.within _ hmem), Or.inl⟩

theorem right (h : t.Carries topic (vs ++ ws)) (hvs : Coherent topics vs)
    (htopic : topic ∉ topics) : t.Carries topic ws := by
  refine h.of_iff fun m hm => ?_
  rw [List.mem_append]
  exact ⟨fun hmem => hmem.resolve_left fun hmem => htopic (hm ▸ hvs.within _ hmem), Or.inr⟩

/-- Each part of the verdicts is carried on its own questions. -/
theorem split {others : List MarkerName}
    (h : ∀ topic ∈ topics ++ others, t.Carries topic (vs ++ ws))
    (hvs : Coherent topics vs) (hws : Coherent others ws)
    (hdisjoint : ∀ topic ∈ topics, topic ∉ others) :
    (∀ topic ∈ topics, t.Carries topic vs) ∧ ∀ topic ∈ others, t.Carries topic ws := by
  constructor
  · intro topic htopic
    exact (h topic (List.mem_append_left _ htopic)).left hws (hdisjoint topic htopic)
  · intro topic htopic
    exact (h topic (List.mem_append_right _ htopic)).right hvs fun hother =>
      hdisjoint topic hother htopic

theorem read_eq (h : t.Carries topic vs) {p : Property} {fact : Fact} {m : Marker}
    (hp : p.topic = topic) (hm : (m, true) ∈ vs) (hfact : (p, fact) ∈ factsOf [⟨m, false⟩]) :
    t.read p = fact := by
  simp [read, (h p fact hp).mpr ⟨m, hm, hfact⟩]

/-- A property of which no present marker says anything is left to the convention. -/
theorem read_absent (h : t.Carries topic vs) (hdefined : t.defined = false)
    (hconvention : t.convention = .defensive) {p : Property} (hp : p.topic = topic)
    (hnone : ∀ m fact, (m, true) ∈ vs → (p, fact) ∉ factsOf [⟨m, false⟩]) :
    t.read p = p.absentFact .defensive := by
  cases hfact : t.facts p with
  | none => simp [read, hfact, hdefined, hconvention]
  | some fact =>
    obtain ⟨m, hm, hsaid⟩ := (h p fact hp).mp hfact
    exact absurd hsaid (hnone m fact hm)

end Carries

end Store

namespace Derivation

open Store

section Questions

variable {t : Store} (hdefined : t.defined = false) (hconvention : t.convention = .defensive)

/-! ## Modification -/

theorem modified_of_carries {fact : Fact} (hfact : fact.level ≠ .delayed)
    (h : t.Carries .modified (modificationVerdicts fact)) : t.read .modified = fact := by
  cases fact with
  | flag b =>
    cases b with
    | true => exact h.read_eq (m := .plain .modified) rfl (by decide) (by decide)
    | false => exact h.read_eq (m := .plain .notModified) rfl (by decide) (by decide)
  | delayed | multi | size | sizeCopy => exact absurd rfl hfact

theorem mem_flagVerdicts {fact : Fact} {name : MarkerName} {m : Marker} :
    (m, true) ∈ flagVerdicts fact name ↔ fact = .flag true ∧ m = .plain name := by
  cases fact with
  | flag b => cases b <;> simp [flagVerdicts]
  | delayed | multi | size | sizeCopy => simp [flagVerdicts]

include hdefined hconvention in
theorem notModified1_of_carries {fact : Fact}
    (h : t.Carries .notModified1 (flagVerdicts fact .notModified1)) :
    SamePresent (flagVerdicts (t.read .notModified1) .notModified1)
      (flagVerdicts fact .notModified1) := by
  by_cases hfact : fact = .flag true
  · have hread : t.read .notModified1 = .flag true :=
      h.read_eq (m := .plain .notModified1) rfl (mem_flagVerdicts.mpr ⟨hfact, rfl⟩) (by decide)
    rw [hread, hfact]
    exact .refl _
  · have hnone : ∀ m, (m, true) ∉ flagVerdicts fact .notModified1 :=
      fun m hm => hfact (mem_flagVerdicts.mp hm).1
    have hread : t.read .notModified1 = .flag false :=
      h.read_absent hdefined hconvention rfl fun m _ hm => absurd hm (hnone m)
    intro m
    simp [hread, mem_flagVerdicts, hfact]

/-! ## Nullness -/

/-- The one marker on nullness that is present. -/
def nullnessName (grades : MultiLevel) : MarkerName :=
  if (grades.readAt 2).holds then .notNull2
  else if (grades.readAt 1).holds then .notNull1
  else if (grades.readAt 0).holds then .notNull
  else .nullable

theorem mem_nullnessVerdicts {fact : Fact} {m : Marker} :
    (m, true) ∈ nullnessVerdicts fact ↔ m = .plain (nullnessName fact.grades) := by
  have hrefuted (name : MarkerName) : (m, true) ∉ refuted fact name := by
    unfold refuted
    split <;> simp [Verdict.absent]
  unfold nullnessVerdicts nullnessName
  simp only
  split_ifs <;> simp [hrefuted, Verdict.present, Verdict.absent]

/-- Every marker on nullness states grades that are shown by it. -/
theorem exists_grades_of_nullness (grades : MultiLevel) :
    ∃ stated, (Property.notNull, Fact.multi stated) ∈
        factsOf [⟨.plain (nullnessName grades), false⟩] ∧
      nullnessName stated = nullnessName grades := by
  unfold nullnessName
  split_ifs
  · exact ⟨.deepContentNotNull, by decide, by decide⟩
  · exact ⟨.contentNotNull, by decide, by decide⟩
  · exact ⟨.notNull, by decide, by decide⟩
  · exact ⟨.nullable, by decide, by decide⟩

theorem nullness_of_carries {fact : Fact} (h : t.Carries .notNull (nullnessVerdicts fact)) :
    SamePresent (nullnessVerdicts (t.read .notNull)) (nullnessVerdicts fact) := by
  obtain ⟨stated, hstated, hname⟩ := exists_grades_of_nullness fact.grades
  have hread := h.read_eq rfl (mem_nullnessVerdicts.mpr rfl) hstated
  intro m
  rw [mem_nullnessVerdicts, mem_nullnessVerdicts, hread]
  show m = .plain (nullnessName stated) ↔ _
  rw [hname]

/-! ## Size -/

theorem countArgument?_of_word {m : Marker} {key : String} {n : UInt32}
    (h : m.argument? key = some (.int (Int64.ofNat n.toNat))) :
    Contract.countArgument? m key = some n := by
  have hlt := n.toNat_lt
  have hint : (Int64.ofNat n.toNat).toInt = n.toNat := Int64.toInt_ofNat_of_lt (by omega)
  simp [Contract.countArgument?, h, hint, Size.word?, hlt]

theorem lookup_sizeArguments (size : Option Size) {least exact key : String} (hleast : key ≠ least)
    (hexact : key ≠ exact) : (sizeArguments size least exact).lookup key = none := by
  have hleast' : (key == least) = false := by simpa using hleast
  have hexact' : (key == exact) = false := by simpa using hexact
  unfold sizeArguments
  split <;> simp [List.lookup_cons, hleast', hexact']

theorem lookup_copyArguments (copy : Option SizeCopy) {key : String} (hmin : key ≠ "copyMin")
    (hcopy : key ≠ "copy") : (copyArguments copy).lookup key = none := by
  have hmin' : (key == "copyMin") = false := by simpa using hmin
  have hcopy' : (key == "copy") = false := by simpa using hcopy
  unfold copyArguments
  split <;> simp [List.lookup_cons, hmin', hcopy']

/-- A size that is written with two keys is read with them. -/
theorem sizeArgument?_eq {m : Marker} {size : Option Size} {least exact : String}
    (hkeys : exact ≠ least)
    (hleast : m.argument? least = (sizeArguments size least exact).lookup least)
    (hexact : m.argument? exact = (sizeArguments size least exact).lookup exact) :
    Contract.sizeArgument? m exact least = size.filter (· ≠ .notASize) := by
  have hkeys' : (exact == least) = false := by simpa using hkeys
  have hcount {key : String} (h : m.argument? key = none) :
      Contract.countArgument? m key = none := by
    simp [Contract.countArgument?, h]
  rcases size with _ | _ | n | n
  · simp [Contract.sizeArgument?, hcount hleast, hcount hexact]
  · simp [Contract.sizeArgument?, hcount hleast, hcount hexact, Option.filter]
  · have hword : Contract.countArgument? m least = some n :=
      countArgument?_of_word (by simpa [sizeArguments] using hleast)
    have hnone : Contract.countArgument? m exact = none :=
      hcount (by simpa [sizeArguments, List.lookup_cons, hkeys'] using hexact)
    simp [Contract.sizeArgument?, hword, hnone, Option.filter]
  · have hword : Contract.countArgument? m exact = some n :=
      countArgument?_of_word (by simpa [sizeArguments] using hexact)
    simp [Contract.sizeArgument?, hword, Option.filter]

/-- The marker that states a copied, a given and a resulting size. -/
def sizeMarker (copy : Option SizeCopy) (size sizeOut : Option Size) : Marker :=
  ⟨.size, copyArguments copy ++ sizeArguments size "min" "equals"
    ++ sizeArguments sizeOut "minOut" "equalsOut"⟩

section SizeMarker

variable (copy : Option SizeCopy) (size sizeOut : Option Size)

theorem sizeArgument?_sizeMarker :
    Contract.sizeArgument? (sizeMarker copy size sizeOut) "equals" "min" =
      size.filter (· ≠ .notASize) := by
  refine sizeArgument?_eq (by decide) ?_ ?_
  all_goals
    simp only [Marker.argument?, sizeMarker, List.lookup_append]
    rw [lookup_copyArguments copy (by decide) (by decide),
      lookup_sizeArguments sizeOut (by decide) (by decide), Option.none_or, Option.or_none]

theorem sizeOutArgument?_sizeMarker :
    Contract.sizeArgument? (sizeMarker copy size sizeOut) "equalsOut" "minOut" =
      sizeOut.filter (· ≠ .notASize) := by
  refine sizeArgument?_eq (by decide) ?_ ?_
  all_goals
    simp only [Marker.argument?, sizeMarker, List.lookup_append]
    rw [lookup_copyArguments copy (by decide) (by decide),
      lookup_sizeArguments size (by decide) (by decide), Option.none_or, Option.none_or]

theorem copyArgument?_sizeMarker :
    Contract.copyArgument? (sizeMarker copy size sizeOut) = copy.filter (· ≠ .noCopy) := by
  unfold Contract.copyArgument?
  simp only [Marker.argument?, sizeMarker, List.lookup_append]
  rw [lookup_sizeArguments size (by decide) (by decide),
    lookup_sizeArguments sizeOut (by decide) (by decide),
    lookup_sizeArguments size (by decide) (by decide),
    lookup_sizeArguments sizeOut (by decide) (by decide)]
  rcases copy with _ | _ | _ | _ <;> decide

end SizeMarker

theorem mem_sizeVerdicts {copy size sizeOut : Fact} {m : Marker} :
    (m, true) ∈ sizeVerdicts copy size sizeOut ↔
      (sizeMarker copy.sizeCopy? size.size? sizeOut.size?).arguments ≠ [] ∧
        m = sizeMarker copy.sizeCopy? size.size? sizeOut.size? := by
  unfold sizeVerdicts sizeMarker
  simp only [List.isEmpty_iff]
  split_ifs with hempty
  · simp [hempty]
  · simp only [List.mem_singleton, Verdict.present, Prod.mk.injEq, and_true, ne_eq, hempty,
      not_false_eq_true, true_and]

section Sizes

variable {copy size sizeOut : Fact} (h : t.Carries .size (sizeVerdicts copy size sizeOut))

include hdefined hconvention h

/-- A size reads as it is stated, and as none where it is not. -/
theorem read_of_stated {p : Property} (hp : p.topic = .size) {stated : Option Fact}
    (hstated : ∀ fact, (p, fact) ∈ Contract.sizeFacts
      (sizeMarker copy.sizeCopy? size.size? sizeOut.size?) ↔ stated = some fact) :
    t.read p = stated.getD (p.absentFact .defensive) := by
  have hfacts : factsOf [⟨sizeMarker copy.sizeCopy? size.size? sizeOut.size?, false⟩] =
      Contract.sizeFacts (sizeMarker copy.sizeCopy? size.size? sizeOut.size?) :=
    Contract.factsOf_size rfl
  cases stated with
  | some fact =>
    have hsaid := (hstated fact).mpr rfl
    have harguments : (sizeMarker copy.sizeCopy? size.size? sizeOut.size?).arguments ≠ [] := by
      intro hnil
      have hempty : sizeMarker copy.sizeCopy? size.size? sizeOut.size? = ⟨.size, []⟩ := by
        rw [← hnil]
        rfl
      rw [hempty] at hsaid
      cases hsaid
    exact h.read_eq hp (mem_sizeVerdicts.mpr ⟨harguments, rfl⟩) (hfacts ▸ hsaid)
  | none =>
    refine h.read_absent hdefined hconvention hp fun m fact hm hsaid => ?_
    rw [(mem_sizeVerdicts.mp hm).2, hfacts] at hsaid
    cases (hstated fact).mp hsaid

omit hdefined hconvention h in
theorem sizeArguments_stated (size : Option Size) (least exact : String) :
    sizeArguments (((size.filter (· ≠ .notASize)).map Fact.size).getD (.size .notASize)).size?
      least exact = sizeArguments size least exact := by
  rcases size with _ | _ | _ | _ <;> rfl

/-- The sizes are stated in one marker and read back from it. -/
theorem sizes_of_carries : sizesOf t = sizeVerdicts copy size sizeOut := by
  have hcopy : t.read .sizeCopy =
      ((copy.sizeCopy?.filter (· ≠ .noCopy)).map Fact.sizeCopy).getD (.sizeCopy .noCopy) := by
    refine read_of_stated hdefined hconvention h rfl fun fact => ?_
    rw [Contract.mem_sizeFacts, copyArgument?_sizeMarker, Option.map_eq_some_iff]
    simp [@eq_comm _ fact]
  have hsize : t.read .size =
      ((size.size?.filter (· ≠ .notASize)).map Fact.size).getD (.size .notASize) := by
    refine read_of_stated hdefined hconvention h rfl fun fact => ?_
    rw [Contract.mem_sizeFacts, sizeArgument?_sizeMarker, Option.map_eq_some_iff]
    simp [@eq_comm _ fact]
  have hsizeOut : t.read .sizeOut =
      ((sizeOut.size?.filter (· ≠ .notASize)).map Fact.size).getD (.size .notASize) := by
    refine read_of_stated hdefined hconvention h rfl fun fact => ?_
    rw [Contract.mem_sizeFacts, sizeOutArgument?_sizeMarker, Option.map_eq_some_iff]
    simp [@eq_comm _ fact]
  have hcopied : copyArguments (t.read .sizeCopy).sizeCopy? = copyArguments copy.sizeCopy? := by
    rw [hcopy]
    rcases copy.sizeCopy? with _ | _ | _ | _ <;> rfl
  simp only [sizesOf, sizeVerdicts, hcopied, hsize, hsizeOut, sizeArguments_stated]

end Sizes

/-! ## Independence -/

/-- A parameter is dependent or independent once it is known to be one of them. -/
theorem independence_of_carries {entity : String} {fact : Fact} {isInterface : Bool}
    {vs : List Verdict} (hfact : fact.grades.isDelayed = false)
    (hvs : independenceVerdicts entity .parameter fact isInterface .none = .ok vs)
    (h : t.Carries .independent vs) :
    independenceVerdicts t.entity .parameter (t.read .independent) isInterface .none = .ok vs := by
  unfold independenceVerdicts at hvs
  split at hvs
  · rename_i hbase
    simp [MultiLevel.isDelayed, ← hbase, MultiLevel.readAt] at hfact
  · cases hvs
    have hread : t.read .independent = .multi .dependent :=
      h.read_eq (m := .plain .dependent) rfl (by decide) (by decide)
    rw [hread]
    rfl
  · cases hvs
    have hread : t.read .independent = .multi .independent :=
      h.read_eq (m := .plain .independent) rfl (by decide) (by decide)
    rw [hread]
    rfl
  · simp at hvs

/-! ## Immutability -/

/-- The markers on immutability that a parameter can have. -/
def parameterImmutability : List MarkerName :=
  [.container, .e1Immutable, .e1Container, .e2Immutable, .e2Container]

/-- A parameter shows no marker on immutability or one, unless it is known to be before the mark. -/
theorem immutabilityVerdicts_cases {q : Immutability} (hkind : q.kind = .parameter)
    (hbefore : ∀ depth, q.immutable.best ≠ some (depth, .before)) {vs : List Verdict}
    (hvs : immutabilityVerdicts q = .ok vs) :
    vs = [] ∨ ∃ name ∈ parameterImmutability, vs = [.present (.plain name)] := by
  have hmutable : mutableVerdicts q = [] ∨ mutableVerdicts q = [.present (.plain .container)] := by
    unfold mutableVerdicts
    split_ifs with _ _ htype
    · exact Or.inr rfl
    · rw [hkind] at htype
      cases htype.1
    · exact Or.inl rfl
    · exact Or.inl rfl
  have hname (depth : Nat) : immutableName depth q.container ∈ parameterImmutability := by
    unfold immutableName
    split <;> cases q.container <;> decide
  unfold immutabilityVerdicts at hvs
  split at hvs
  · cases hvs
    exact hmutable.imp_right fun heq => ⟨.container, by decide, heq⟩
  · rename_i depth grade hbest
    cases grade with
    | delayed | no =>
      cases hvs
      exact hmutable.imp_right fun heq => ⟨.container, by decide, heq⟩
    | effective =>
      cases hvs
      exact Or.inr ⟨_, hname depth, rfl⟩
    | eventual => simp [hkind] at hvs
    | before => exact absurd hbest (hbefore depth)
    | after =>
      simp only [hkind, reduceCtorEq, ↓reduceIte] at hvs
      cases hvs
      exact Or.inr ⟨_, hname depth, rfl⟩

include hdefined hconvention

/-- What one present marker says is read, and the rest is left to the convention. -/
theorem read_of_present {topic : MarkerName} {m : Marker} (h : t.Carries topic [.present m])
    {p : Property} (hp : p.topic = topic) :
    t.read p = ((factsOf [⟨m, false⟩]).lookup p).getD (p.absentFact .defensive) := by
  cases hsaid : (factsOf [⟨m, false⟩]).lookup p with
  | some fact =>
    obtain ⟨before, after, hsplit, -⟩ := List.lookup_eq_some_iff.mp hsaid
    exact h.read_eq hp List.mem_cons_self (by simp [hsplit])
  | none =>
    refine h.read_absent hdefined hconvention hp fun m' fact hm' hfact => ?_
    cases List.mem_singleton.mp hm'
    simpa using List.lookup_eq_none_iff.mp hsaid _ hfact

theorem immutability_of_present {name : MarkerName} (hname : name ∈ parameterImmutability)
    (h : t.Carries .e1Immutable [.present (.plain name)]) :
    immutabilityVerdicts (immutabilityOf t .parameter false .none) =
      .ok [.present (.plain name)] := by
  have himmutable := read_of_present hdefined hconvention h (p := .immutable) rfl
  have hcontainer := read_of_present hdefined hconvention h (p := .container) rfl
  unfold immutabilityOf
  rw [himmutable, hcontainer]
  simp only [parameterImmutability, List.mem_cons, List.not_mem_nil, or_false] at hname
  rcases hname with rfl | rfl | rfl | rfl | rfl <;> rfl

/-- A parameter without a marker on immutability reads as mutable and no container. -/
theorem immutability_of_absent (h : t.Carries .e1Immutable []) :
    immutabilityVerdicts (immutabilityOf t .parameter false .none) = .ok [] := by
  have himmutable : t.read .immutable = .multi .mutable :=
    h.read_absent hdefined hconvention rfl (by simp)
  have hcontainer : t.read .container = .flag false :=
    h.read_absent hdefined hconvention rfl (by simp)
  unfold immutabilityOf
  rw [himmutable, hcontainer]
  rfl

theorem immutability_of_carries {s : Store} {better : Bool}
    (hbefore : ∀ depth, (s.read .immutable).grades.best ≠ some (depth, .before))
    {vs : List Verdict} (hvs : betterImmutability s .parameter better .none = .ok vs)
    (h : t.Carries .e1Immutable vs) : betterImmutability t .parameter better .none = .ok vs := by
  unfold betterImmutability at hvs ⊢
  split at hvs
  · rename_i hbetter
    rw [if_pos hbetter]
    rcases immutabilityVerdicts_cases rfl hbefore hvs with rfl | ⟨name, hname, rfl⟩
    · exact immutability_of_absent hdefined hconvention h
    · exact immutability_of_present hdefined hconvention hname h
  · rename_i hbetter
    rw [if_neg hbetter]
    exact hvs

end Questions

/-! ## All questions on a parameter -/

theorem parameterVerdicts_eq_ok {s : Store} {facts : ParameterFacts}
    (hprimitive : facts.isPrimitive = false) {vs : List Verdict} :
    parameterVerdicts s facts = .ok vs ↔ ∃ independence immutability,
      independenceVerdicts s.entity .parameter (s.read .independent) facts.ownerIsInterface .none =
        .ok independence ∧
      betterImmutability s .parameter facts.betterThanFormal .none = .ok immutability ∧
      modificationVerdicts (s.read .modified) ++ flagVerdicts (s.read .notModified1) .notModified1
        ++ nullnessVerdicts (s.read .notNull) ++ sizesOf s ++ independence ++ immutability =
          vs := by
  simp only [parameterVerdicts, hprimitive, Bool.false_eq_true, ↓reduceIte]
  constructor
  · intro h
    obtain ⟨independence, hindependence, h⟩ := bind_eq_ok h
    obtain ⟨immutability, himmutability, h⟩ := bind_eq_ok h
    cases h
    exact ⟨independence, immutability, hindependence, himmutability, rfl⟩
  · rintro ⟨independence, immutability, hindependence, himmutability, rfl⟩
    rw [hindependence, himmutability]
    rfl

/-- A store that carries the verdicts on a parameter gives the same present markers. -/
theorem parameterVerdicts_of_carries {s t : Store} (hdefined : t.defined = false)
    (hconvention : t.convention = .defensive) {facts : ParameterFacts}
    (hprimitive : facts.isPrimitive = false) (hmodified : (s.read .modified).level ≠ .delayed)
    (hindependent : (s.read .independent).grades.isDelayed = false)
    (hbefore : ∀ depth, (s.read .immutable).grades.best ≠ some (depth, .before))
    {vs : List Verdict} (hvs : parameterVerdicts s facts = .ok vs)
    (h : ∀ topic ∈ parameterTopics, t.Carries topic vs) :
    ∃ ws, parameterVerdicts t facts = .ok ws ∧ SamePresent ws vs := by
  obtain ⟨independence, immutability, hindependence, himmutability, rfl⟩ :=
    (parameterVerdicts_eq_ok hprimitive).mp hvs
  have hvalue := (modificationVerdicts_coherent (s.read .modified)).append
    (flagVerdicts_coherent (s.read .notModified1) .notModified1) (by decide)
  have hnulls := hvalue.append (nullnessVerdicts_coherent (s.read .notNull)) (by decide)
  have hsized := hnulls.append
    (sizeVerdicts_coherent (s.read .sizeCopy) (s.read .size) (s.read .sizeOut)) (by decide)
  have hstate := hsized.append (independenceVerdicts_coherent hindependence) (by decide)
  -- The questions are split off one after the other, from the last one.
  obtain ⟨h, himmutable⟩ :=
    Carries.split h hstate (betterImmutability_coherent himmutability) (by decide)
  obtain ⟨h, hindependent'⟩ :=
    Carries.split h hsized (independenceVerdicts_coherent hindependence) (by decide)
  obtain ⟨h, hsizes⟩ := Carries.split h hnulls (sizeVerdicts_coherent _ _ _) (by decide)
  obtain ⟨h, hnotNull⟩ := Carries.split h hvalue (nullnessVerdicts_coherent _) (by decide)
  obtain ⟨hmodified', hnotModified1⟩ := Carries.split h (modificationVerdicts_coherent _)
    (flagVerdicts_coherent _ .notModified1) (by decide)
  refine ⟨_, (parameterVerdicts_eq_ok hprimitive).mpr ⟨independence, immutability, ?_, ?_, rfl⟩, ?_⟩
  · exact independence_of_carries hindependent hindependence (hindependent' _ List.mem_cons_self)
  · exact immutability_of_carries hdefined hconvention hbefore himmutability
      (himmutable _ List.mem_cons_self)
  · rw [modified_of_carries hmodified (hmodified' _ List.mem_cons_self),
      sizes_of_carries hdefined hconvention (hsizes _ List.mem_cons_self)]
    have hflags := (SamePresent.refl (modificationVerdicts (s.read .modified))).append
      (notModified1_of_carries hdefined hconvention (hnotModified1 _ List.mem_cons_self))
    have hvalues := hflags.append (nullness_of_carries (hnotNull _ List.mem_cons_self))
    exact ((hvalues.append (.refl _)).append (.refl _)).append (.refl _)

/-- Contracts without a mark give no descriptor. -/
theorem eventualOf_of_unmarked {contracts : List Contract}
    (h : ∀ c ∈ contracts, c.marker.name ∉ [MarkerName.mark, .only, .testMark]) :
    Contract.eventualOf contracts = .ok .none := by
  have hlatest (name : MarkerName) (hname : name ∈ [MarkerName.mark, .only, .testMark]) :
      Contract.latest? contracts name = none := by
    rw [Contract.latest?, Option.map_eq_none_iff, List.find?_eq_none]
    intro c hc heq
    exact h c (List.mem_reverse.mp hc) (of_decide_eq_true heq ▸ hname)
  simp only [Contract.eventualOf, hlatest .mark (by decide), hlatest .only (by decide),
    hlatest .testMark (by decide)]

/-- The markers of a parameter survive a trip through contracts: the present ones are taken by an
empty store, and that store shows the same present markers. -/
theorem parameter_markers_survive {s : Store} {facts : ParameterFacts} {set : MarkerSet}
    (hset : derive s (.parameter facts) = .ok set) (hprimitive : facts.isPrimitive = false)
    (hmodified : (s.read .modified).level ≠ .delayed)
    (hindependent : (s.read .independent).grades.isDelayed = false)
    (hbefore : ∀ depth, (s.read .immutable).grades.best ≠ some (depth, .before))
    {contracts : List Contract}
    (hcontracts : ∀ c, c ∈ contracts ↔ c.absent = false ∧ c.marker ∈ set.present)
    (entity : String) :
    ∃ t set', Contract.importAll (.empty entity .parameter false .defensive) contracts =
        (t, .ok .none) ∧
      derive t.freeze (.parameter facts) = .ok set' ∧ ∀ m, m ∈ set'.present ↔ m ∈ set.present := by
  obtain ⟨-, vs, hvs, rfl⟩ := derive_eq_ok hset
  have hagree := verdicts_agree hvs
  have hpresent (m : Marker) : m ∈ (MarkerSet.ofList vs).present ↔ (m, true) ∈ vs :=
    MarkerSet.mem_present.trans (MarkerSet.mem_ofList hagree _)
  simp only [hpresent] at hcontracts ⊢
  have hsingle : Contract.Single contracts :=
    Contract.single_of_agree hagree fun c => (hcontracts c).mp
  have hunmarked : ∀ c ∈ contracts, c.marker.name ∉ [MarkerName.mark, .only, .testMark] := by
    intro c hc hmarked
    have htopics : ∀ name ∈ [MarkerName.mark, .only, .testMark], name.topic ∉ parameterTopics := by
      decide
    exact htopics _ hmarked
      ((parameterVerdicts_coherent hvs).within _ ((hcontracts c).mp hc).2)
  obtain ⟨kept, himport, hkept⟩ :=
    Contract.importAll_of_single hsingle entity .parameter false .defensive
  rw [eventualOf_of_unmarked hunmarked] at himport
  have hcarries (topic : MarkerName) :
      Store.Carries ⟨entity, .parameter, false, .defensive, kept, true⟩ topic vs := by
    intro p fact _
    rw [hkept]
    constructor
    · rintro ⟨⟨m, a⟩, hc, hfact⟩
      obtain ⟨rfl, hm⟩ := (hcontracts _).mp hc
      exact ⟨m, hm, hfact⟩
    · rintro ⟨m, hm, hfact⟩
      exact ⟨⟨m, false⟩, (hcontracts _).mpr ⟨rfl, hm⟩, hfact⟩
  obtain ⟨ws, hws, hsame⟩ := parameterVerdicts_of_carries rfl rfl hprimitive hmodified hindependent
    hbefore hvs fun topic _ => hcarries topic
  refine ⟨_, _, himport, derive_of_verdicts rfl hws, fun m => ?_⟩
  rw [MarkerSet.mem_present, MarkerSet.mem_ofList (parameterVerdicts_coherent hws).agree]
  exact hsame m

/-- A deeply immutable container of at least three elements, from which two are left. -/
theorem sized_parameter_survives :
    let facts : Property → Option Fact
      | .modified => some (.flag true)
      | .notModified1 => some (.flag true)
      | .notNull => some (.multi .contentNotNull)
      | .size => some (.size (.atLeast 3))
      | .sizeOut => some (.size (.exactly 2))
      | .independent => some (.multi .independent)
      | .immutable => some (.multi ⟨.effective, .after, .no⟩)
      | .container => some (.flag true)
      | _ => none
    ∃ set, derive ⟨"items", .parameter, true, .defensive, facts, true⟩
        (.parameter ⟨false, false, true⟩) = .ok set ∧
      set.present = [.plain .notNull1, ⟨.size, [("min", .int 3), ("equalsOut", .int 2)]⟩,
        .plain .e2Container, .plain .independent, .plain .modified, .plain .notModified1] ∧
      ∃ t set', Contract.importAll (.empty "copy" .parameter false .defensive)
          (set.present.map (⟨·, false⟩)) = (t, .ok .none) ∧
        derive t.freeze (.parameter ⟨false, false, true⟩) = .ok set' ∧
        ∀ m, m ∈ set'.present ↔ m ∈ set.present := by
  intro facts
  refine ⟨_, rfl, by decide, ?_⟩
  have hbest : MultiLevel.best ⟨.effective, .after, .no⟩ = some (1, .after) := by decide
  refine parameter_markers_survive (s := ⟨"items", .parameter, true, .defensive, facts, true⟩) rfl
    rfl (by decide) rfl (fun depth hbefore => by cases hbest.symm.trans hbefore) (fun c => ?_)
    "copy"
  obtain ⟨m, a⟩ := c
  simp only [List.mem_map, Contract.mk.injEq]
  exact ⟨fun ⟨_, hm, heq, ha⟩ => ⟨ha.symm, heq ▸ hm⟩, fun ⟨ha, hm⟩ => ⟨m, hm, rfl, ha.symm⟩⟩

end Derivation

end Mutability
