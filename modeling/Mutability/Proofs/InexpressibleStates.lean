import Mutability.Derivation.Entities
import Mathlib.Tactic.SplitIfs

/-!
# States that no marker expresses

A derivation fails where a store is of the wrong kind or not frozen, and otherwise where one of its
parts comes upon a state that no marker of that kind of entity expresses. Which parts are asked
depends on the side facts, but none depends on what another one found (`fails_bind_iff`). So an
entity fails exactly if one of the parts that are asked does, and each part says by itself when it
fails; `Inexpressible` puts this together for each kind of entity.
-/

namespace Mutability

/-- The grade at the deepest depth that reads as holding. -/
def MultiLevel.bestGrade? (m : MultiLevel) : Option Grade := m.best.map (·.2)

theorem Eventual.isEventual_eq_false_iff {e : Eventual} : e.isEventual = false ↔ e.fields = [] := by
  simp [isEventual]

namespace Derivation

/-! ## Failing in sequence -/

def Fails {α : Type} (x : Except Fault α) : Prop := ∃ fault, x = .error fault

section Fails

variable {α β : Type}

@[simp]
theorem not_fails_ok (a : α) : ¬ Fails (.ok a) := nofun

@[simp]
theorem not_fails_pure (a : α) : ¬ Fails (pure a) := nofun

@[simp]
theorem fails_error (fault : Fault) : Fails (.error fault : Except Fault α) := ⟨fault, rfl⟩

@[simp]
theorem fails_map_iff {f : α → β} {x : Except Fault α} : Fails (f <$> x) ↔ Fails x := by
  cases x with
  | error fault => exact iff_of_true ⟨fault, rfl⟩ ⟨fault, rfl⟩
  | ok a => exact iff_of_false nofun nofun

/-- If what comes next fails or not whatever was found first, it is enough to ask both. -/
theorem fails_bind_iff {x : Except Fault α} {next : α → Except Fault β} {P : Prop}
    (hnext : ∀ a, Fails (next a) ↔ P) : Fails (x >>= next) ↔ Fails x ∨ P := by
  cases x with
  | error fault => exact iff_of_true ⟨fault, rfl⟩ (Or.inl ⟨fault, rfl⟩)
  | ok a =>
    rw [or_iff_right (not_fails_ok a)]
    exact hnext a

theorem fails_ite_iff {c : Prop} [Decidable c] {x y : Except Fault α} :
    Fails (if c then x else y) ↔ c ∧ Fails x ∨ ¬ c ∧ Fails y := by
  split_ifs with hc <;> simp [hc]

end Fails

/-! ## Parts -/

section Immutability

variable {q : Immutability}

theorem fails_immutability_of_type (hq : q.kind = .type) :
    Fails (immutabilityVerdicts q) ↔
      q.immutable.bestGrade? = some .before ∨ q.immutable.bestGrade? = some .after ∨
        q.immutable.bestGrade? = some .eventual ∧ q.eventual.fields = [] := by
  unfold immutabilityVerdicts MultiLevel.bestGrade?
  cases q.immutable.best with
  | none => simp
  | some found =>
    obtain ⟨depth, grade⟩ := found
    cases grade with
    | delayed | no | effective | before | after => simp [hq]
    | eventual => simp [hq, fails_ite_iff, Eventual.isEventual_eq_false_iff]

theorem fails_immutability_of_ne_type (hq : q.kind ≠ .type) :
    Fails (immutabilityVerdicts q) ↔ q.immutable.bestGrade? = some .eventual := by
  unfold immutabilityVerdicts MultiLevel.bestGrade?
  cases q.immutable.best with
  | none => simp
  | some found =>
    obtain ⟨depth, grade⟩ := found
    cases grade <;> simp [hq]

end Immutability

theorem fails_independence_iff {entity : String} {kind : EntityKind} {fact : Fact}
    {isInterface : Bool} {eventual : Eventual} :
    Fails (independenceVerdicts entity kind fact isInterface eventual) ↔
      (fact.grades.readAt 0).isEventual = true ∧ (kind = .type → eventual.fields = []) := by
  unfold independenceVerdicts
  cases fact.grades.readAt 0 with
  | delayed => simp [fails_ite_iff, Grade.isEventual]
  | no | effective => simp [Grade.isEventual]
  | eventual | before | after =>
    simp [fails_ite_iff, Grade.isEventual, Eventual.isEventual_eq_false_iff]

/-- Independence of the value itself is eventual, on whichever side of the mark. -/
def IndependentEventually (s : Store) : Prop :=
  ((s.read .independent).grades.readAt 0).isEventual = true

/-- Immutability holds eventually at the deepest depth where it holds, with the side of the mark not
known. -/
def ImmutableEventually (s : Store) : Prop :=
  (s.read .immutable).grades.bestGrade? = some .eventual

instance (s : Store) : Decidable (IndependentEventually s) :=
  inferInstanceAs (Decidable (_ = true))

instance (s : Store) : Decidable (ImmutableEventually s) :=
  inferInstanceAs (Decidable (_ = some Grade.eventual))

section Parts

variable {s : Store}

theorem fails_checkStore_iff {expected : EntityKind} :
    Fails (checkStore s expected) ↔ s.kind ≠ expected ∨ s.frozen = false := by
  unfold checkStore
  by_cases hkind : s.kind = expected
  · cases s.frozen <;> simp [hkind]
  · simp [hkind]

theorem fails_betterImmutability_iff {kind : EntityKind} (hkind : kind ≠ .type) {better : Bool}
    {eventual : Eventual} :
    Fails (betterImmutability s kind better eventual) ↔ better = true ∧ ImmutableEventually s := by
  have hverdicts : Fails (immutabilityVerdicts (immutabilityOf s kind false eventual)) ↔
      ImmutableEventually s := fails_immutability_of_ne_type hkind
  simp [betterImmutability, fails_ite_iff, hverdicts]

theorem fails_methodIndependence_iff {facts : MethodFacts} :
    Fails (methodIndependence s facts) ↔
      independenceApplies s facts = true ∧ IndependentEventually s := by
  simp [methodIndependence, fails_ite_iff, fails_independence_iff, IndependentEventually]

variable {facts : FieldFacts}

theorem fails_ownerLabel_iff : Fails (ownerLabel s facts) ↔ facts.ownerEventual.fields = [] := by
  simp [ownerLabel, fails_ite_iff, Eventual.isEventual_eq_false_iff]

theorem fails_finality_iff :
    Fails (finalityVerdicts s facts) ↔
      s.read .final = .flag false ∧ (facts.ownerImmutable.readAt 0).isEventual = true ∧
        facts.ownerEventual.fields = [] := by
  simp [finalityVerdicts, fails_ite_iff, fails_ownerLabel_iff]

theorem fails_fieldModification_iff :
    Fails (fieldModification s facts) ↔
      s.read .modified = .flag true ∧ (facts.ownerImmutable.readAt 1).isEventual = true ∧
        facts.ownerEventual.fields = [] := by
  simp [fieldModification, fails_ite_iff, fails_ownerLabel_iff, and_assoc]

end Parts

/-! ## Entities -/

/-- The store holds a state that no marker expresses on an entity with these side facts. -/
def Inexpressible (s : Store) : EntityFacts → Prop
  | .type facts =>
    -- A type has no side of its own mark, and needs fields to stand for the mark.
    (s.read .immutable).grades.bestGrade? = some .before ∨
      (s.read .immutable).grades.bestGrade? = some .after ∨
      ImmutableEventually s ∧ facts.eventual.fields = [] ∨
      IndependentEventually s ∧ facts.eventual.fields = []
  | .method facts =>
    -- Only results that could hand out a field are asked for independence, besides constructors.
    (facts.isConstructor = true ∨ s.read .modified = .flag false ∧ facts.returnsVoid = false ∧
        facts.returnTypeEventuallyDeep = false) ∧ IndependentEventually s ∨
      (facts.isConstructor = false ∧ facts.returnsVoid = false ∧ facts.returnsPrimitive = false ∧
        facts.betterThanFormal = true) ∧ ImmutableEventually s
  | .field facts =>
    -- What holds after the mark of the owner needs fields that stand for that mark.
    (s.read .final = .flag false ∧ (facts.ownerImmutable.readAt 0).isEventual = true ∧
        facts.ownerEventual.fields = []) ∨
      (facts.isPrimitive = false ∧ s.read .modified = .flag true ∧
        (facts.ownerImmutable.readAt 1).isEventual = true ∧ facts.ownerEventual.fields = []) ∨
      (facts.isPrimitive = false ∧ facts.betterThanFormal = true) ∧ ImmutableEventually s
  | .parameter facts =>
    facts.isPrimitive = false ∧ IndependentEventually s ∨
      (facts.isPrimitive = false ∧ facts.betterThanFormal = true) ∧ ImmutableEventually s

instance (s : Store) : DecidablePred (Inexpressible s)
  | .type _ => inferInstanceAs (Decidable (_ ∨ _ ∨ _ ∧ _ ∨ _ ∧ _))
  | .method _ => inferInstanceAs (Decidable (_ ∧ _ ∨ _ ∧ _))
  | .field _ => inferInstanceAs (Decidable (_ ∨ _ ∨ _ ∧ _))
  | .parameter _ => inferInstanceAs (Decidable (_ ∧ _ ∨ _ ∧ _))

section Entities

variable {s : Store}

theorem fails_typeVerdicts_iff {facts : TypeFacts} :
    Fails (typeVerdicts s facts) ↔ Inexpressible s (.type facts) := by
  have himmutability := fails_immutability_of_type
    (q := immutabilityOf s .type facts.isInterface facts.eventual) rfl
  unfold typeVerdicts
  rw [fails_bind_iff (fun _ => fails_bind_iff (P := False) (by simp)), himmutability,
    fails_independence_iff]
  simp [Inexpressible, ImmutableEventually, IndependentEventually, immutabilityOf, or_assoc]

theorem fails_methodVerdicts_iff {facts : MethodFacts} :
    Fails (methodVerdicts s facts) ↔ Inexpressible s (.method facts) := by
  unfold methodVerdicts
  rw [fails_bind_iff (P := (facts.isConstructor = false ∧ facts.returnsVoid = false ∧
    facts.returnsPrimitive = false ∧ facts.betterThanFormal = true) ∧ ImmutableEventually s)]
  · simp [fails_methodIndependence_iff, independenceApplies, Inexpressible, and_assoc]
  · intro independence
    simp [fails_ite_iff, fails_betterImmutability_iff, and_assoc]

theorem fails_fieldVerdicts_iff {facts : FieldFacts} :
    Fails (fieldVerdicts s facts) ↔ Inexpressible s (.field facts) := by
  unfold fieldVerdicts
  rw [fails_bind_iff (P := facts.isPrimitive = false ∧
    (Fails (fieldModification s facts) ∨ facts.betterThanFormal = true ∧ ImmutableEventually s))]
  · simp [fails_finality_iff, fails_fieldModification_iff, Inexpressible, and_or_left, and_assoc]
  · intro finality
    rw [fails_ite_iff, fails_bind_iff (P := facts.betterThanFormal = true ∧ ImmutableEventually s)]
    · simp
    · simp [fails_betterImmutability_iff]

theorem fails_parameterVerdicts_iff {facts : ParameterFacts} :
    Fails (parameterVerdicts s facts) ↔ Inexpressible s (.parameter facts) := by
  unfold parameterVerdicts
  rw [fails_ite_iff, fails_bind_iff (P := facts.betterThanFormal = true ∧ ImmutableEventually s)]
  · simp [fails_independence_iff, Inexpressible, IndependentEventually, and_or_left, and_assoc]
  · simp [fails_betterImmutability_iff]

theorem fails_verdicts_iff (facts : EntityFacts) :
    Fails (verdicts s facts) ↔ Inexpressible s facts := by
  cases facts with
  | type facts => exact fails_typeVerdicts_iff
  | method facts => exact fails_methodVerdicts_iff
  | field facts => exact fails_fieldVerdicts_iff
  | parameter facts => exact fails_parameterVerdicts_iff

end Entities

/-- Whatever a store holds, no markers are derived from it exactly if it is the store of another
kind of entity, is not frozen, or holds a state that no marker expresses there. -/
theorem derive_fails_iff (s : Store) (facts : EntityFacts) :
    (∃ fault, derive s facts = .error fault) ↔
      s.kind ≠ facts.kind ∨ s.frozen = false ∨ Inexpressible s facts := by
  show Fails (derive s facts) ↔ _
  unfold derive
  rw [fails_bind_iff (P := Fails (verdicts s facts)) (by simp), fails_checkStore_iff,
    fails_verdicts_iff, or_assoc]

/-- A value whose content is past the mark can be shown on a field, and not on a type. -/
theorem passed_content_on_type :
    let facts : Property → Option Fact
      | .immutable => some (.multi ⟨.effective, .after, .no⟩)
      | _ => none
    let store := fun kind => Store.mk "com.example.Bag" kind true .defensive facts true
    let owner : Eventual := ⟨["ready"], false, none, none⟩
    (∃ fault, derive (store .type) (.type ⟨false, owner⟩) = .error fault) ∧
      ¬ ∃ fault, derive (store .field)
        (.field ⟨false, false, .delayed, owner, true⟩) = .error fault := by
  intro facts store owner
  refine ⟨(derive_fails_iff _ _).mpr (Or.inr (Or.inr (by decide))), fun hfails => ?_⟩
  exact absurd ((derive_fails_iff _ _).mp hfails) (by decide)

end Derivation

end Mutability
