import Mutability.Derivation.Entities
import Mathlib.Data.List.Pairwise
import Mathlib.Tactic.SplitIfs

/-!
# Marker sets without contradiction

Some markers exclude each other, as they answer one question in different ways. Each part of a
derivation answers its own questions, each of them once (`Coherent`), and no two parts of an entity
answer the same one, so a derived set does not contradict itself (`derive_consistent`).
-/

namespace Mutability

/-- The markers that exclude each other. -/
def exclusiveGroups : List (List MarkerName) :=
  [[.notNull, .notNull1, .notNull2, .nullable],
   [.e1Immutable, .e1Container, .e2Immutable, .e2Container, .container, .mutableModifiesArguments,
    .beforeMark],
   [.modified, .notModified],
   [.independent, .dependent],
   [.final, .nonFinal]]

/-- The question that a marker answers: the first marker of its group, or the marker itself. -/
def MarkerName.topic (name : MarkerName) : MarkerName :=
  match exclusiveGroups.find? (name ∈ ·) with
  | some (first :: _) => first
  | _ => name

/-- Two verdicts that can stand together: they are on different markers, and not both present on one
question. -/
def Verdict.Agree (v w : Verdict) : Prop :=
  v.1.name ≠ w.1.name ∧ (v.2 = true → w.2 = true → v.1.name.topic ≠ w.1.name.topic)

instance (v w : Verdict) : Decidable (v.Agree w) := inferInstanceAs (Decidable (_ ∧ _))

instance : Std.Symm Verdict.Agree :=
  ⟨fun _ _ h => ⟨h.1.symm, fun hw hv => (h.2 hv hw).symm⟩⟩

theorem Verdict.agree_of_topic {v w : Verdict} (h : v.1.name.topic ≠ w.1.name.topic) : v.Agree w :=
  ⟨fun hname => h (by rw [hname]), fun _ _ => h⟩

/-- Verdicts on some questions that can all stand together. -/
structure Coherent (topics : List MarkerName) (vs : List Verdict) : Prop where
  within : ∀ v ∈ vs, v.1.name.topic ∈ topics
  agree : vs.Pairwise Verdict.Agree

instance (topics : List MarkerName) (vs : List Verdict) : Decidable (Coherent topics vs) :=
  decidable_of_iff ((∀ v ∈ vs, v.1.name.topic ∈ topics) ∧ vs.Pairwise Verdict.Agree)
    ⟨fun h => ⟨h.1, h.2⟩, fun h => ⟨h.within, h.agree⟩⟩

namespace Coherent

variable {topics others : List MarkerName} {vs ws : List Verdict}

theorem nil (topics : List MarkerName) : Coherent topics [] := ⟨by simp, .nil⟩

theorem single {v : Verdict} (h : v.1.name.topic ∈ topics) : Coherent topics [v] :=
  ⟨by simpa using h, List.pairwise_singleton _ v⟩

theorem pair {v w : Verdict} (hv : v.1.name.topic ∈ topics) (hw : w.1.name.topic ∈ topics)
    (h : v.Agree w) : Coherent topics [v, w] :=
  ⟨by simpa using ⟨hv, hw⟩, List.pairwise_pair.mpr h⟩

theorem mono (h : Coherent topics vs) (hsub : topics ⊆ others) : Coherent others vs :=
  ⟨fun v hv => hsub (h.within v hv), h.agree⟩

/-- Verdicts on different questions stand together. -/
theorem append (hvs : Coherent topics vs) (hws : Coherent others ws)
    (hdisjoint : ∀ topic ∈ topics, topic ∉ others) : Coherent (topics ++ others) (vs ++ ws) where
  within v hv := by
    rcases List.mem_append.mp hv with hv | hv
    · exact List.mem_append_left _ (hvs.within v hv)
    · exact List.mem_append_right _ (hws.within v hv)
  agree := by
    refine List.pairwise_append.mpr ⟨hvs.agree, hws.agree, fun v hv w hw => ?_⟩
    refine Verdict.agree_of_topic fun htopic => ?_
    exact hdisjoint _ (hvs.within v hv) (htopic ▸ hws.within w hw)

end Coherent

/-! ## Parts of a derivation -/

namespace Derivation

/-- A sequence that succeeds has succeeded at its first step. -/
theorem bind_eq_ok {α β : Type} {x : Except Fault α} {f : α → Except Fault β} {b : β}
    (h : x >>= f = .ok b) : ∃ a, x = .ok a ∧ f a = .ok b := by
  cases x with
  | error fault => cases h
  | ok a => exact ⟨a, rfl, h⟩

theorem flagVerdicts_coherent (fact : Fact) (name : MarkerName) :
    Coherent [name.topic] (flagVerdicts fact name) := by
  cases fact with
  | flag b => exact .single List.mem_cons_self
  | delayed | multi | size | sizeCopy => exact .nil _

theorem modificationVerdicts_coherent (fact : Fact) :
    Coherent [.modified] (modificationVerdicts fact) := by
  cases fact with
  | flag b => cases b <;> decide
  | delayed | multi | size | sizeCopy => exact .nil _

theorem topic_immutableName (depth : Nat) (container : Bool) :
    (immutableName depth container).topic = .e1Immutable := by
  unfold immutableName
  split <;> cases container <;> rfl

theorem mutableVerdicts_coherent (q : Immutability) :
    Coherent [.e1Immutable] (mutableVerdicts q) := by
  unfold mutableVerdicts
  split_ifs <;> decide

theorem immutabilityVerdicts_coherent {q : Immutability} {vs : List Verdict}
    (h : immutabilityVerdicts q = .ok vs) : Coherent [.e1Immutable] vs := by
  unfold immutabilityVerdicts at h
  split at h
  · cases h
    exact mutableVerdicts_coherent q
  · rename_i depth grade _
    have hname := List.mem_singleton.mpr (topic_immutableName depth q.container)
    cases grade with
    | delayed | no =>
      cases h
      exact mutableVerdicts_coherent q
    | effective =>
      cases h
      exact .single hname
    | eventual =>
      simp only at h
      split_ifs at h
      cases h
      exact .single hname
    | before =>
      simp only at h
      split_ifs at h
      cases h
      decide
    | after =>
      simp only at h
      split_ifs at h
      cases h
      exact .single hname

theorem independenceVerdicts_coherent {entity : String} {kind : EntityKind} {fact : Fact}
    {isInterface : Bool} {eventual : Eventual} {vs : List Verdict}
    (h : independenceVerdicts entity kind fact isInterface eventual = .ok vs) :
    Coherent [.independent] vs := by
  unfold independenceVerdicts at h
  split at h
  · split_ifs at h <;> cases h
    · exact .nil _
    · decide
  · cases h
    decide
  · cases h
    decide
  · split_ifs at h
    cases h
    exact .pair List.mem_cons_self List.mem_cons_self ⟨nofun, nofun⟩

theorem nullnessVerdicts_coherent (fact : Fact) : Coherent [.notNull] (nullnessVerdicts fact) := by
  unfold nullnessVerdicts
  simp only
  split_ifs
  · decide
  all_goals
    unfold refuted
    split_ifs <;> decide

theorem sizeVerdicts_coherent (copy size sizeOut : Fact) :
    Coherent [.size] (sizeVerdicts copy size sizeOut) := by
  unfold sizeVerdicts
  simp only
  split
  · exact .nil _
  · exact .single List.mem_cons_self

theorem markVerdicts_coherent (eventual : Eventual) :
    Coherent [.mark, .only, .testMark] (markVerdicts eventual) := by
  unfold markVerdicts
  split
  · show Coherent ([.mark] ++ [.only] ++ [.testMark]) _
    refine .append (.append ?mark ?only (by decide)) ?test (by decide)
    case mark =>
      split
      · exact .single List.mem_cons_self
      · exact .nil _
    all_goals
      split
      · exact .single List.mem_cons_self
      · exact .single List.mem_cons_self
      · exact .nil _
  · exact .nil _

theorem betterImmutability_coherent {s : Store} {kind : EntityKind} {better : Bool}
    {eventual : Eventual} {vs : List Verdict}
    (h : betterImmutability s kind better eventual = .ok vs) : Coherent [.e1Immutable] vs := by
  unfold betterImmutability at h
  split at h
  · exact immutabilityVerdicts_coherent h
  · cases h
    exact .nil _

theorem methodIndependence_coherent {s : Store} {facts : MethodFacts} {vs : List Verdict}
    (h : methodIndependence s facts = .ok vs) : Coherent [.independent] vs := by
  unfold methodIndependence at h
  split at h
  · exact independenceVerdicts_coherent h
  · cases h
    exact .nil _

theorem commonMethodVerdicts_coherent (s : Store) (facts : MethodFacts) :
    Coherent [.modified, .finalizer, .mark, .only, .testMark] (commonMethodVerdicts s facts) := by
  have hfinalizer : Coherent [.finalizer] (if s.read .finalizer = .flag true then
      [.present (.plain .finalizer)] else []) := by
    split
    · decide
    · exact .nil _
  exact .append (.append (modificationVerdicts_coherent _) hfinalizer (by decide))
    (markVerdicts_coherent _) (by decide)

theorem resultVerdicts_coherent (s : Store) :
    Coherent [.fluent, .notNull, .size, .notModified1] (resultVerdicts s) :=
  .append (.append (.append (flagVerdicts_coherent (s.read .fluent) .fluent)
    (nullnessVerdicts_coherent _) (by decide)) (sizeVerdicts_coherent _ _ _) (by decide))
    (flagVerdicts_coherent (s.read .notModified1) .notModified1) (by decide)

theorem finalityVerdicts_coherent {s : Store} {facts : FieldFacts} {vs : List Verdict}
    (h : finalityVerdicts s facts = .ok vs) : Coherent [.final] vs := by
  unfold finalityVerdicts at h
  split_ifs at h
  · obtain ⟨label, -, h⟩ := bind_eq_ok h
    cases h
    exact .single List.mem_cons_self
  · cases h
    decide
  · cases h
    decide
  · cases h
    exact .nil _

theorem fieldModification_coherent {s : Store} {facts : FieldFacts} {vs : List Verdict}
    (h : fieldModification s facts = .ok vs) : Coherent [.modified] vs := by
  unfold fieldModification at h
  split_ifs at h
  · obtain ⟨label, -, h⟩ := bind_eq_ok h
    cases h
    exact .single List.mem_cons_self
  · cases h
    exact modificationVerdicts_coherent _
  · cases h
    exact .nil _

/-! ## Entities -/

theorem typeVerdicts_coherent {s : Store} {facts : TypeFacts} {vs : List Verdict}
    (h : typeVerdicts s facts = .ok vs) : ∃ topics, Coherent topics vs := by
  unfold typeVerdicts at h
  obtain ⟨immutability, himmutability, h⟩ := bind_eq_ok h
  obtain ⟨independence, hindependence, h⟩ := bind_eq_ok h
  cases h
  have hstate := (immutabilityVerdicts_coherent himmutability).append
    (independenceVerdicts_coherent hindependence) (by decide)
  have hclasses := (hstate.append (flagVerdicts_coherent (s.read .singleton) .singleton)
    (by decide)).append (flagVerdicts_coherent (s.read .utilityClass) .utilityClass) (by decide)
  exact ⟨_, hclasses.append (flagVerdicts_coherent (s.read .extensionClass) .extensionClass)
    (by decide)⟩

theorem methodVerdicts_coherent {s : Store} {facts : MethodFacts} {vs : List Verdict}
    (h : methodVerdicts s facts = .ok vs) : ∃ topics, Coherent topics vs := by
  unfold methodVerdicts at h
  obtain ⟨independence, hindependence, h⟩ := bind_eq_ok h
  replace hindependence := methodIndependence_coherent hindependence
  have hcommon := hindependence.append (commonMethodVerdicts_coherent s facts) (by decide)
  have hvalued := hcommon.append (flagVerdicts_coherent (s.read .identity) .identity) (by decide)
  split_ifs at h
  · cases h
    exact ⟨_, hindependence⟩
  · cases h
    exact ⟨_, hcommon⟩
  · cases h
    exact ⟨_, hvalued⟩
  · obtain ⟨immutability, himmutability, h⟩ := bind_eq_ok h
    cases h
    exact ⟨_, .append (hvalued.append (resultVerdicts_coherent s) (by decide))
      (betterImmutability_coherent himmutability) (by decide)⟩

theorem fieldVerdicts_coherent {s : Store} {facts : FieldFacts} {vs : List Verdict}
    (h : fieldVerdicts s facts = .ok vs) : ∃ topics, Coherent topics vs := by
  unfold fieldVerdicts at h
  obtain ⟨finality, hfinality, h⟩ := bind_eq_ok h
  replace hfinality := finalityVerdicts_coherent hfinality
  split_ifs at h
  · cases h
    exact ⟨_, hfinality⟩
  · obtain ⟨modification, hmodification, h⟩ := bind_eq_ok h
    obtain ⟨immutability, himmutability, h⟩ := bind_eq_ok h
    cases h
    have hvalue := (hfinality.append (fieldModification_coherent hmodification) (by decide)).append
      (flagVerdicts_coherent (s.read .notModified1) .notModified1) (by decide)
    exact ⟨_, .append (.append (hvalue.append (nullnessVerdicts_coherent _) (by decide))
      (sizeVerdicts_coherent _ _ _) (by decide)) (betterImmutability_coherent himmutability)
      (by decide)⟩

/-- The questions that are asked of a parameter. -/
def parameterTopics : List MarkerName :=
  [.modified, .notModified1, .notNull, .size, .independent, .e1Immutable]

theorem parameterVerdicts_coherent {s : Store} {facts : ParameterFacts} {vs : List Verdict}
    (h : parameterVerdicts s facts = .ok vs) : Coherent parameterTopics vs := by
  unfold parameterVerdicts at h
  have hmodification := modificationVerdicts_coherent (s.read .modified)
  simp only at h
  split_ifs at h
  · cases h
    exact hmodification.mono (by decide)
  · obtain ⟨independence, hindependence, h⟩ := bind_eq_ok h
    obtain ⟨immutability, himmutability, h⟩ := bind_eq_ok h
    cases h
    have hvalue := hmodification.append
      (flagVerdicts_coherent (s.read .notModified1) .notModified1) (by decide)
    have hsized := (hvalue.append (nullnessVerdicts_coherent (s.read .notNull)) (by decide)).append
      (sizeVerdicts_coherent (s.read .sizeCopy) (s.read .size) (s.read .sizeOut)) (by decide)
    exact .append (hsized.append (independenceVerdicts_coherent hindependence) (by decide))
      (betterImmutability_coherent himmutability) (by decide)

/-- The verdicts on an entity can all stand together. -/
theorem verdicts_agree {s : Store} {facts : EntityFacts} {vs : List Verdict}
    (h : verdicts s facts = .ok vs) : vs.Pairwise Verdict.Agree := by
  obtain ⟨topics, hcoherent⟩ : ∃ topics, Coherent topics vs := by
    cases facts with
    | type facts => exact typeVerdicts_coherent h
    | method facts => exact methodVerdicts_coherent h
    | field facts => exact fieldVerdicts_coherent h
    | parameter facts => exact ⟨_, parameterVerdicts_coherent h⟩
  exact hcoherent.agree

end Derivation

/-! ## Sets -/

namespace MarkerSet

variable {vs : List Verdict}

/-- Verdicts on different markers are all recorded, beside the old ones on other markers. -/
theorem mem_putAll (hvs : vs.Pairwise (·.1 ≠ ·.1)) (set : MarkerSet) (x : Verdict) :
    x ∈ (set.putAll vs).entries ↔ x ∈ vs ∨ (x ∈ set.entries ∧ ∀ v ∈ vs, x.1 ≠ v.1) := by
  induction vs generalizing set with
  | nil => simp [putAll]
  | cons v vs ih =>
    obtain ⟨hv, hvs⟩ := List.pairwise_cons.mp hvs
    have hrest : (set.putAll (v :: vs)) = (set.put v).putAll vs := rfl
    rw [hrest, ih hvs, mem_put]
    constructor
    · rintro (hx | ⟨rfl | ⟨hx, hne⟩, hothers⟩)
      · exact Or.inl (List.mem_cons_of_mem v hx)
      · exact Or.inl List.mem_cons_self
      · exact Or.inr ⟨hx, List.forall_mem_cons.mpr ⟨hne, hothers⟩⟩
    · rintro (hx | ⟨hx, hothers⟩)
      · rcases List.mem_cons.mp hx with rfl | hx
        · exact Or.inr ⟨Or.inl rfl, hv⟩
        · exact Or.inl hx
      · obtain ⟨hne, hothers⟩ := List.forall_mem_cons.mp hothers
        exact Or.inr ⟨Or.inr ⟨hx, hne⟩, hothers⟩

theorem mem_ofList (hvs : vs.Pairwise Verdict.Agree) (x : Verdict) :
    x ∈ (ofList vs).entries ↔ x ∈ vs := by
  have hdistinct : vs.Pairwise (·.1 ≠ ·.1) :=
    hvs.imp fun hagree hmarker => hagree.1 (by rw [hmarker])
  simp [ofList, mem_putAll hdistinct, empty]

theorem mem_present {set : MarkerSet} {m : Marker} : m ∈ set.present ↔ (m, true) ∈ set.entries := by
  simp [present]

theorem mem_absent {set : MarkerSet} {m : Marker} : m ∈ set.absent ↔ (m, false) ∈ set.entries := by
  simp [absent]

theorem contains_iff {set : MarkerSet} {name : MarkerName} :
    set.contains name = true ↔ ∃ m ∈ set.present, m.name = name := by
  simp [contains, find?]

theorem isAbsent_iff {set : MarkerSet} {name : MarkerName} :
    set.isAbsent name = true ↔ ∃ m ∈ set.absent, m.name = name := by
  simp [isAbsent]

/-- A set that does not contradict itself: no marker is both present and absent, none is present
twice with different arguments, and of markers that exclude each other at most one is present. -/
structure Consistent (set : MarkerSet) : Prop where
  decided : ∀ name, set.contains name = true → set.isAbsent name = false
  single : ∀ m ∈ set.present, ∀ m' ∈ set.present, m.name = m'.name → m = m'
  exclusive : ∀ group ∈ exclusiveGroups, ∀ m ∈ set.present, ∀ m' ∈ set.present,
    m.name ∈ group → m'.name ∈ group → m = m'

theorem topic_eq_of_group {group : List MarkerName} (hgroup : group ∈ exclusiveGroups)
    {a b : MarkerName} (ha : a ∈ group) (hb : b ∈ group) : a.topic = b.topic := by
  have htopics : ∀ group ∈ exclusiveGroups, ∀ a ∈ group, ∀ b ∈ group, a.topic = b.topic := by
    decide
  exact htopics group hgroup a ha b hb

theorem consistent_ofList (hvs : vs.Pairwise Verdict.Agree) : (ofList vs).Consistent := by
  have hagree : ∀ v ∈ (ofList vs).entries, ∀ w ∈ (ofList vs).entries, v ≠ w → v.Agree w :=
    fun v hv w hw => hvs.forall ((mem_ofList hvs v).mp hv) ((mem_ofList hvs w).mp hw)
  constructor
  · intro name hpresent
    refine Bool.eq_false_iff.mpr fun habsent => ?_
    obtain ⟨m, hm, hname⟩ := contains_iff.mp hpresent
    obtain ⟨m', hm', hname'⟩ := isAbsent_iff.mp habsent
    have hdiffer := hagree _ (mem_present.mp hm) _ (mem_absent.mp hm') (by simp)
    exact hdiffer.1 (hname.trans hname'.symm)
  · intro m hm m' hm' hname
    by_contra hne
    have hdiffer := hagree _ (mem_present.mp hm) _ (mem_present.mp hm') (by simpa using hne)
    exact hdiffer.1 hname
  · intro group hgroup m hm m' hm' hmem hmem'
    by_contra hne
    have hdiffer := hagree _ (mem_present.mp hm) _ (mem_present.mp hm') (by simpa using hne)
    exact hdiffer.2 rfl rfl (topic_eq_of_group hgroup hmem hmem')

end MarkerSet

namespace Derivation

theorem derive_eq_ok {s : Store} {facts : EntityFacts} {set : MarkerSet}
    (h : derive s facts = .ok set) :
    checkStore s facts.kind = .ok () ∧ ∃ vs, verdicts s facts = .ok vs ∧ set = .ofList vs := by
  unfold derive at h
  obtain ⟨_, hcheck, h⟩ := bind_eq_ok h
  obtain ⟨vs, hvs, h⟩ := bind_eq_ok h
  cases h
  exact ⟨hcheck, vs, hvs, rfl⟩

theorem derive_of_verdicts {s : Store} {facts : EntityFacts} {vs : List Verdict}
    (hcheck : checkStore s facts.kind = .ok ()) (hvs : verdicts s facts = .ok vs) :
    derive s facts = .ok (.ofList vs) := by
  unfold derive
  rw [hcheck, hvs]
  rfl

/-- Whatever a store holds, the markers derived from it do not contradict each other. -/
theorem derive_consistent {s : Store} {facts : EntityFacts} {set : MarkerSet}
    (h : derive s facts = .ok set) : set.Consistent := by
  obtain ⟨-, vs, hvs, rfl⟩ := derive_eq_ok h
  exact MarkerSet.consistent_ofList (verdicts_agree hvs)

/-- A field that is final and not modified only after the mark of its owner. -/
theorem eventual_field_consistent :
    let facts : Property → Option Fact
      | .final => some (.flag false)
      | .modified => some (.flag true)
      | .notNull => some (.multi .contentNotNull)
      | .immutable => some (.multi ⟨.after, .after, .no⟩)
      | .container => some (.flag true)
      | .size => some (.size (.exactly 3))
      | _ => none
    let owner : Eventual := ⟨["ready"], false, none, none⟩
    let label : List (String × Argument) := [("after", .text "ready")]
    ∃ set, derive ⟨"com.example.Bag:items", .field, true, .defensive, facts, true⟩
        (.field ⟨false, false, ⟨.eventual, .eventual, .no⟩, owner, true⟩) = .ok set ∧
      set.present = [.plain .notNull1, ⟨.size, [("equals", .int 3)]⟩, .plain .e2Container,
        ⟨.notModified, label⟩, ⟨.final, label⟩] ∧
      set.absent = [.plain .notNull2, .plain .nullable] ∧ set.Consistent := by
  intro facts owner label
  have hset : derive ⟨"com.example.Bag:items", .field, true, .defensive, facts, true⟩
    (.field ⟨false, false, ⟨.eventual, .eventual, .no⟩, owner, true⟩) = .ok _ := rfl
  exact ⟨_, hset, by decide, by decide, derive_consistent hset⟩

end Derivation

end Mutability
