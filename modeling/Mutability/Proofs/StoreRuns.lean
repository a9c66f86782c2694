import Mutability.Entity.Store
import Mutability.Proofs.FactOrder

/-!
# Runs of a fact store

A run is a list of calls on one store. A call that is refused leaves the store as it is, and the
run goes on. `perform_cases` says all that one call can do; what holds along runs is derived from
it.
-/

namespace Mutability

namespace Property

/-- A fact that fits and is not delayed has the property's family. -/
theorem family?_of_fits {p : Property} {f : Fact} (h : p.fits f = true) (hf : f ≠ .delayed) :
    f.family? = some p.family := by
  cases f <;> simp_all [fits, Fact.family?]

end Property

namespace Store

/-! ## Calls -/

inductive Call where
  | set (p : Property) (new : Fact)
  | improve (p : Property) (new : Fact)
  | freeze
  deriving DecidableEq, Repr

/-- The property a call is about; freezing is about none. -/
def Call.property? : Call → Option Property
  | set p _ => some p
  | improve p _ => some p
  | freeze => none

/-- The fact a call offers for a property. -/
def Call.offers (p : Property) (new : Fact) (c : Call) : Prop := c = set p new ∨ c = improve p new

/-- The store after a call and why the call was refused, if it was. -/
def settle (s : Store) : Except Fault Store → Store × Option Fault
  | .ok s' => (s', none)
  | .error fault => (s, some fault)

def perform (s : Store) : Call → Store × Option Fault
  | .set p new => s.settle (s.set p new)
  | .improve p new => s.settle (s.improve p new)
  | .freeze => (s.freeze, none)

def run (s : Store) : List Call → Store
  | [] => s
  | c :: calls => (s.perform c).1.run calls

theorem run_append (s : Store) (before after : List Call) :
    s.run (before ++ after) = (s.run before).run after := by
  induction before generalizing s with
  | nil => rfl
  | cons c before ih => exact ih _

/-! ## One call -/

theorem perform_set (s : Store) (p : Property) (new : Fact) :
    s.perform (.set p new) =
      if s.frozen then (s, some (.frozen s.entity p))
      else if p.fits new = false then (s, some (.familyMismatch s.entity p p.family new))
      else if p.policy = .overwrite ∨ s.stored p ≤ new then (s.keep p new, none)
      else (s, some (.downgrade s.entity p (s.stored p) new)) := by
  cases hfrozen : s.frozen <;> cases hfits : p.fits new <;> cases hpolicy : p.policy <;>
    simp [perform, set, writeWith, Property.join, settle, refuse, hfrozen, hfits, hpolicy]
  by_cases hle : s.stored p ≤ new <;> simp [hle]

theorem perform_improve (s : Store) (p : Property) (new : Fact) :
    s.perform (.improve p new) =
      if s.frozen then (s, some (.frozen s.entity p))
      else if p.fits new = false then (s, some (.familyMismatch s.entity p p.family new))
      else (s.keep p (if s.stored p < new then new else s.stored p), none) := by
  cases hfrozen : s.frozen <;> cases hfits : p.fits new <;>
    simp [perform, improve, writeWith, Property.improve, settle, refuse, hfrozen, hfits]

/-- A call is refused and changes nothing, freezes the store, or keeps a fact: the stored one or
the fitting one it offers, and no lower one than before unless the property may be overwritten. -/
theorem perform_cases (s : Store) (c : Call) :
    (∃ fault, s.perform c = (s, some fault)) ∨
    (c = .freeze ∧ s.perform c = (s.freeze, none)) ∨
    ∃ p new fact, c.offers p new ∧ p.fits new = true ∧ s.perform c = (s.keep p fact, none) ∧
      (fact = new ∨ fact = s.stored p) ∧ (p.policy = .upgrade → s.stored p ≤ fact) := by
  cases c with
  | freeze => exact Or.inr (Or.inl ⟨rfl, rfl⟩)
  | set p new =>
    rw [perform_set]
    split
    · exact Or.inl ⟨_, rfl⟩
    · split
      · exact Or.inl ⟨_, rfl⟩
      · rename_i hfits
        split
        · rename_i hle
          refine Or.inr (Or.inr
            ⟨p, new, new, Or.inl rfl, by simpa using hfits, rfl, Or.inl rfl, ?_⟩)
          intro hp
          rcases hle with hover | hle
          · rw [hp] at hover
            cases hover
          · exact hle
        · exact Or.inl ⟨_, rfl⟩
  | improve p new =>
    rw [perform_improve]
    split
    · exact Or.inl ⟨_, rfl⟩
    · split
      · exact Or.inl ⟨_, rfl⟩
      · rename_i hfits
        refine Or.inr (Or.inr ⟨p, new, _, Or.inr rfl, by simpa using hfits, rfl, ?_, ?_⟩)
        · split
          · exact Or.inl rfl
          · exact Or.inr rfl
        · intro _
          split
          · exact Fact.le_of_lt (by assumption)
          · exact Fact.le_refl _

/-- A refused call changes nothing. -/
theorem perform_refused {s : Store} {c : Call} {fault : Fault}
    (h : (s.perform c).2 = some fault) : (s.perform c).1 = s := by
  rcases s.perform_cases c with ⟨fault', hc⟩ | ⟨_, hc⟩ | ⟨_, _, _, _, _, hc, _⟩
  · rw [hc]
  · rw [hc] at h
    cases h
  · rw [hc] at h
    cases h

/-- A call does not touch the facts of properties it is not about. -/
theorem perform_facts_ne {s : Store} {c : Call} {q : Property} (h : c.property? ≠ some q) :
    (s.perform c).1.facts q = s.facts q := by
  rcases s.perform_cases c with ⟨fault, hc⟩ | ⟨_, hc⟩ | ⟨p, new, fact, hoffers, _, hc, _⟩
  · rw [hc]
  · rw [hc]
    rfl
  · have hne : q ≠ p := by
      rintro rfl
      rcases hoffers with rfl | rfl <;> exact h rfl
    rw [hc]
    exact facts_keep_ne fact hne

theorem perform_frozen {s : Store} (h : s.frozen = true) (c : Call) : (s.perform c).1 = s := by
  cases c with
  | freeze =>
    obtain ⟨entity, kind, defined, convention, facts, frozen⟩ := s
    cases h
    rfl
  | set p new => simp [perform_set, h]
  | improve p new => simp [perform_improve, h]

theorem run_frozen {s : Store} (h : s.frozen = true) (calls : List Call) : s.run calls = s := by
  induction calls with
  | nil => rfl
  | cons c calls ih => rw [run, perform_frozen h c, ih]

/-! ## Upgrades -/

theorem stored_keep_ne {s : Store} {p q : Property} (fact : Fact) (h : q ≠ p) :
    (s.keep p fact).stored q = s.stored q := by
  simp only [stored, facts_keep_ne fact h]

theorem stored_le_perform (s : Store) (c : Call) {q : Property} (hq : q.policy = .upgrade) :
    s.stored q ≤ (s.perform c).1.stored q := by
  rcases s.perform_cases c with ⟨fault, hc⟩ | ⟨_, hc⟩ | ⟨p, new, fact, _, _, hc, _, hle⟩
  · rw [hc]
    exact Fact.le_refl _
  · rw [hc]
    exact Fact.le_refl _
  · rw [hc]
    by_cases h : q = p
    · subst h
      rw [stored_keep_self]
      exact hle hq
    · rw [stored_keep_ne fact h]
      exact Fact.le_refl _

theorem stored_le_run (s : Store) (calls : List Call) {q : Property} (hq : q.policy = .upgrade) :
    s.stored q ≤ (s.run calls).stored q := by
  induction calls generalizing s with
  | nil => exact Fact.le_refl _
  | cons c calls ih => exact Fact.le_trans (s.stored_le_perform c hq) (ih _)

/-! ## What is stored -/

theorem stored_perform_offered (s : Store) (c : Call) (q : Property) :
    (s.perform c).1.stored q = s.stored q ∨ c.offers q ((s.perform c).1.stored q) := by
  rcases s.perform_cases c with ⟨fault, hc⟩ | ⟨_, hc⟩ | ⟨p, new, fact, hoffers, _, hc, hfact, _⟩
  · rw [hc]
    exact Or.inl rfl
  · rw [hc]
    exact Or.inl rfl
  · rw [hc]
    by_cases h : q = p
    · subst h
      rw [stored_keep_self]
      rcases hfact with rfl | rfl
      · exact Or.inr hoffers
      · exact Or.inl rfl
    · exact Or.inl (stored_keep_ne fact h)

/-- Every fact that a run stores was offered by one of its calls. -/
theorem stored_run_offered (s : Store) (calls : List Call) (q : Property) :
    (s.run calls).stored q = s.stored q ∨ ∃ c ∈ calls, c.offers q ((s.run calls).stored q) := by
  induction calls generalizing s with
  | nil => exact Or.inl rfl
  | cons c calls ih =>
    rcases ih (s.perform c).1 with h | ⟨c', hmem, h⟩
    · rcases s.stored_perform_offered c q with h' | h'
      · exact Or.inl (h.trans h')
      · exact Or.inr ⟨c, List.mem_cons_self, by rw [run, h]; exact h'⟩
    · exact Or.inr ⟨c', List.mem_cons_of_mem c hmem, h⟩

/-- Stored facts are of the property's family; only facts about a use may be stored as delayed. -/
structure WellTyped (s : Store) : Prop where
  upgrade : ∀ p fact, p.policy = .upgrade → s.facts p = some fact →
    fact ≠ .delayed ∧ fact.family? = some p.family
  context : ∀ p fact, p.role = .context → s.facts p = some fact →
    fact = .delayed ∨ fact.family? = some p.family

theorem wellTyped_empty (entity : String) (kind : EntityKind) (defined : Bool)
    (convention : Convention) : (empty entity kind defined convention).WellTyped where
  upgrade := fun _ _ _ h => by cases h
  context := fun _ _ _ h => by cases h

/-- The fact found after `keep` is the one kept, and a new one, or was there before. -/
theorem facts_keep_cases {s : Store} {p q : Property} {fact found : Fact}
    (h : (s.keep p fact).facts q = some found) :
    (q = p ∧ found = fact ∧ s.stored p ≠ fact) ∨ s.facts q = some found := by
  unfold keep at h
  split at h
  · exact Or.inr h
  · rename_i hne
    by_cases hq : q = p
    · simp only [hq, ↓reduceIte, Option.some.injEq] at h
      exact Or.inl ⟨hq, h.symm, hne⟩
    · simp only [hq, ↓reduceIte] at h
      exact Or.inr h

theorem WellTyped.perform {s : Store} (hs : s.WellTyped) (c : Call) :
    (s.perform c).1.WellTyped := by
  rcases s.perform_cases c with ⟨fault, hc⟩ | ⟨_, hc⟩ | ⟨p, new, fact, _, hfits, hc, hfact, hle⟩
  · rw [hc]
    exact hs
  · rw [hc]
    exact ⟨hs.upgrade, hs.context⟩
  · rw [hc]
    -- a fact that was not stored before is the one offered
    have hnew : s.stored p ≠ fact → fact = new := fun hne => hfact.resolve_right fun h => hne h.symm
    constructor
    · intro q found hq hfound
      rcases facts_keep_cases hfound with ⟨rfl, rfl, hne⟩ | hold
      · have hdelayed : found ≠ .delayed := by
          rintro rfl
          exact hne (Fact.eq_delayed_of_le_delayed (hle hq))
        exact ⟨hdelayed, Property.family?_of_fits (hnew hne ▸ hfits) hdelayed⟩
      · exact hs.upgrade q found hq hold
    · intro q found hq hfound
      rcases facts_keep_cases hfound with ⟨rfl, rfl, hne⟩ | hold
      · by_cases hdelayed : found = .delayed
        · exact Or.inl hdelayed
        · exact Or.inr (Property.family?_of_fits (hnew hne ▸ hfits) hdelayed)
      · exact hs.context q found hq hold

theorem WellTyped.run {s : Store} (hs : s.WellTyped) (calls : List Call) :
    (s.run calls).WellTyped := by
  induction calls generalizing s with
  | nil => exact hs
  | cons c calls ih => exact ih (hs.perform c)

/-! ## Accepted writes -/

theorem perform_set_accepted_iff (s : Store) (p : Property) (new : Fact) :
    (s.perform (.set p new)).2 = none ↔
      s.frozen = false ∧ p.fits new = true ∧ (p.policy = .overwrite ∨ s.stored p ≤ new) := by
  rw [perform_set]
  cases s.frozen <;> cases p.fits new <;> simp
  by_cases h : p.policy = .overwrite ∨ s.stored p ≤ new <;> simp [h]

theorem perform_improve_accepted_iff (s : Store) (p : Property) (new : Fact) :
    (s.perform (.improve p new)).2 = none ↔ s.frozen = false ∧ p.fits new = true := by
  rw [perform_improve]
  cases s.frozen <;> cases p.fits new <;> simp

theorem stored_set_accepted {s : Store} {p : Property} {new : Fact}
    (h : (s.perform (.set p new)).2 = none) : (s.perform (.set p new)).1.stored p = new := by
  obtain ⟨hfrozen, hfits, hle⟩ := (s.perform_set_accepted_iff p new).mp h
  simp [perform_set, hfrozen, hfits, hle, stored_keep_self]

theorem stored_improve_accepted {s : Store} {p : Property} {new : Fact}
    (h : (s.perform (.improve p new)).2 = none) :
    (s.perform (.improve p new)).1.stored p = if s.stored p < new then new else s.stored p := by
  obtain ⟨hfrozen, hfits⟩ := (s.perform_improve_accepted_iff p new).mp h
  simp [perform_improve, hfrozen, hfits, stored_keep_self]

/-- In every state of every run: stored facts are of their family, facts that may only be upgraded
never go down, a refused call and a frozen store change nothing, and an accepted call changes the
one fact it is about, to what was offered or the better of the two. -/
theorem run_keeps_facts (entity : String) (kind : EntityKind) (defined : Bool)
    (convention : Convention) (calls : List Call) :
    let s := (empty entity kind defined convention).run calls
    s.WellTyped ∧
    (∀ c p, p.policy = .upgrade → s.stored p ≤ (s.perform c).1.stored p) ∧
    (∀ later p, p.policy = .upgrade → s.stored p ≤ (s.run later).stored p) ∧
    (∀ c fault, (s.perform c).2 = some fault → (s.perform c).1 = s) ∧
    (∀ c q, c.property? ≠ some q → (s.perform c).1.facts q = s.facts q) ∧
    (s.perform .freeze).1.frozen = true ∧
    (s.frozen = true →
      (∀ c p new, c.offers p new → (s.perform c).2 = some (.frozen s.entity p)) ∧
      ∀ later, s.run later = s) ∧
    (∀ p new,
      ((s.perform (.set p new)).2 = none ↔
        s.frozen = false ∧ p.fits new = true ∧ (p.policy = .overwrite ∨ s.stored p ≤ new)) ∧
      ((s.perform (.set p new)).2 = none → (s.perform (.set p new)).1.stored p = new)) ∧
    (∀ p new,
      ((s.perform (.improve p new)).2 = none ↔ s.frozen = false ∧ p.fits new = true) ∧
      ((s.perform (.improve p new)).2 = none →
        (s.perform (.improve p new)).1.stored p =
          if s.stored p < new then new else s.stored p)) := by
  intro s
  refine ⟨(wellTyped_empty entity kind defined convention).run calls,
    fun c p hp => s.stored_le_perform c hp, fun later p hp => s.stored_le_run later hp,
    fun c fault h => perform_refused h, fun c q h => perform_facts_ne h, rfl, ?_, ?_, ?_⟩
  · intro hfrozen
    refine ⟨?_, run_frozen hfrozen⟩
    rintro c p new (rfl | rfl)
    · simp [perform_set, hfrozen]
    · simp [perform_improve, hfrozen]
  · exact fun p new => ⟨s.perform_set_accepted_iff p new, stored_set_accepted⟩
  · exact fun p new => ⟨s.perform_improve_accepted_iff p new, stored_improve_accepted⟩

end Store

end Mutability
