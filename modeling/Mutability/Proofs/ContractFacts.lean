import Mutability.Marker.Contract
import Mutability.Proofs.MarkerConsistency
import Mutability.Proofs.Proposals

/-!
# What contracts write

The facts of a list of contracts are in part taken together. If the contracts say one thing on each
question (`Contract.Single`), these are the facts of the single contracts (`factsOf_iff`), each
property gets at most one fact, and so an empty store takes all of them (`importAll_of_single`).
-/

namespace Mutability

/-- The question that a property is about. -/
def Property.topic : Property → MarkerName
  | .notNull => .notNull
  | .contextNotNull => .notNull
  | .immutable => .e1Immutable
  | .contextImmutable => .e1Immutable
  | .container => .e1Immutable
  | .beforeMark => .e1Immutable
  | .independent => .independent
  | .modified => .modified
  | .contextModified => .modified
  | .final => .final
  | .finalizer => .finalizer
  | .constant => .constant
  | .fluent => .fluent
  | .identity => .identity
  | .singleton => .singleton
  | .utilityClass => .utilityClass
  | .extensionClass => .extensionClass
  | .ignoreModifications => .ignoreModifications
  | .notModified1 => .notModified1
  | .size => .size
  | .sizeOut => .size
  | .sizeCopy => .size

namespace Contract

def topic (c : Contract) : MarkerName := c.marker.name.topic

/-- The contracts say one thing on each question. -/
def Single (contracts : List Contract) : Prop :=
  ∀ c ∈ contracts, ∀ c' ∈ contracts, c.topic = c'.topic → c = c'

/-- Present markers that can stand together say one thing on each question. -/
theorem single_of_agree {contracts : List Contract} {vs : List Verdict}
    (hagree : vs.Pairwise Verdict.Agree)
    (hpresent : ∀ c ∈ contracts, c.absent = false ∧ (c.marker, true) ∈ vs) : Single contracts := by
  rintro ⟨m, a⟩ hc ⟨m', a'⟩ hc' htopic
  obtain ⟨rfl, hm⟩ := hpresent _ hc
  obtain ⟨rfl, hm'⟩ := hpresent _ hc'
  by_contra hne
  have hdiffer := hagree.forall hm hm' (by simpa using hne)
  exact hdiffer.2 rfl rfl htopic

/-! ## Facts taken together -/

section Fold

variable {β : Type} {f : β → Contract → β} {init : β} {contracts : List Contract}

theorem foldl_of_idle (h : ∀ c ∈ contracts, ∀ known, f known c = known) :
    contracts.foldl f init = init := by
  induction contracts with
  | nil => rfl
  | cons c contracts ih =>
    rw [List.foldl_cons, h c List.mem_cons_self]
    exact ih fun x hx => h x (List.mem_cons_of_mem c hx)

/-- A contract that is repeated among others without effect has its effect once. -/
theorem foldl_of_repeated {c : Contract} (hrepeat : f (f init c) c = f init c)
    (h : ∀ x ∈ contracts, x = c ∨ ∀ known, f known x = known) :
    contracts.foldl f (f init c) = f init c ∧
      (c ∈ contracts → contracts.foldl f init = f init c) := by
  induction contracts with
  | nil => simp
  | cons x contracts ih =>
    obtain ⟨hafter, hfirst⟩ := ih fun y hy => h y (List.mem_cons_of_mem x hy)
    simp only [List.foldl_cons]
    rcases h x List.mem_cons_self with rfl | hidle
    · rw [hrepeat]
      exact ⟨hafter, fun _ => hafter⟩
    · rw [hidle, hidle]
      refine ⟨hafter, fun hc => ?_⟩
      rcases List.mem_cons.mp hc with rfl | hc
      · rwa [hidle] at hafter ⊢
      · exact hfirst hc

/-- What is taken together on one question is what the one contract on it says. -/
theorem foldl_eq_iff (topic : MarkerName) (hother : ∀ known c, c.topic ≠ topic → f known c = known)
    (hrepeat : ∀ c, f (f init c) c = f init c) (hsingle : Single contracts) {b : β}
    (hb : b ≠ init) :
    contracts.foldl f init = b ↔ ∃ c ∈ contracts, f init c = b := by
  by_cases hasked : ∃ c ∈ contracts, c.topic = topic
  · obtain ⟨c, hc, htopic⟩ := hasked
    have hfold := (foldl_of_repeated (hrepeat c) fun x hx => by
      by_cases hx' : x.topic = topic
      · exact Or.inl (hsingle x hx c hc (hx'.trans htopic.symm))
      · exact Or.inr fun known => hother known x hx').2 hc
    rw [hfold]
    refine ⟨fun heq => ⟨c, hc, heq⟩, ?_⟩
    rintro ⟨x, hx, heq⟩
    by_cases hx' : x.topic = topic
    · rw [hsingle c hc x hx (htopic.trans hx'.symm)]
      exact heq
    · exact absurd (heq.symm.trans (hother init x hx')) hb
  · have hidle : ∀ c ∈ contracts, ∀ known, f known c = known :=
      fun c hc known => hother known c fun htopic => hasked ⟨c, hc, htopic⟩
    rw [foldl_of_idle hidle]
    refine ⟨fun heq => absurd heq.symm hb, ?_⟩
    rintro ⟨c, hc, heq⟩
    exact (hidle c hc init).symm.trans heq

end Fold

section Joint

variable {contracts : List Contract} (hsingle : Single contracts)

include hsingle

theorem foldContainer_iff :
    contracts.foldl foldContainer false = true ↔ ∃ c ∈ contracts, foldContainer false c = true := by
  refine foldl_eq_iff .e1Immutable (fun known c hc => ?_) (fun c => ?_) hsingle (by simp)
  · unfold topic at hc
    cases hname : c.marker.name <;>
      simp [foldContainer, hname, MarkerName.topic, exclusiveGroups] at hc ⊢
  · cases hname : c.marker.name <;> simp [foldContainer, hname]

theorem foldImmutable_iff {m : MultiLevel} :
    contracts.foldl foldImmutable none = some m ↔
      ∃ c ∈ contracts, foldImmutable none c = some m := by
  refine foldl_eq_iff .e1Immutable (fun known c hc => ?_) (fun c => ?_) hsingle (by simp)
  · unfold topic at hc
    cases hname : c.marker.name <;>
      simp [foldImmutable, hname, MarkerName.topic, exclusiveGroups] at hc ⊢
  · cases hname : c.marker.name <;> simp [foldImmutable, hname]

theorem foldNotNull_iff {m : MultiLevel} :
    contracts.foldl foldNotNull none = some m ↔ ∃ c ∈ contracts, foldNotNull none c = some m := by
  refine foldl_eq_iff .notNull (fun known c hc => ?_) (fun c => ?_) hsingle (by simp)
  · unfold topic at hc
    cases hname : c.marker.name <;>
      simp [foldNotNull, hname, MarkerName.topic, exclusiveGroups] at hc ⊢
  · cases hname : c.marker.name <;> simp [foldNotNull, hname]

end Joint

theorem mem_jointFacts {contracts : List Contract} {p : Property} {fact : Fact} :
    (p, fact) ∈ jointFacts contracts ↔
      (contracts.foldl foldContainer false = true ∧ p = .container ∧ fact = .flag true) ∨
      (∃ m, contracts.foldl foldImmutable none = some m ∧ p = .immutable ∧ fact = .multi m) ∨
      ∃ m, contracts.foldl foldNotNull none = some m ∧ p = .notNull ∧ fact = .multi m := by
  simp only [jointFacts, List.mem_append, Option.mem_toList, Option.map_eq_some_iff, or_assoc]
  refine or_congr ?_ (or_congr ?_ ?_)
  · split <;> simp_all
  · simp [eq_comm]
  · simp [eq_comm]

theorem jointFacts_iff {contracts : List Contract} (hsingle : Single contracts) {p : Property}
    {fact : Fact} :
    (p, fact) ∈ jointFacts contracts ↔ ∃ c ∈ contracts, (p, fact) ∈ jointFacts [c] := by
  simp only [mem_jointFacts, List.foldl_cons, List.foldl_nil, foldContainer_iff hsingle,
    foldImmutable_iff hsingle, foldNotNull_iff hsingle]
  constructor
  · rintro (⟨⟨c, hc, hfold⟩, hfact⟩ | ⟨m, ⟨c, hc, hfold⟩, hfact⟩ | ⟨m, ⟨c, hc, hfold⟩, hfact⟩)
    · exact ⟨c, hc, Or.inl ⟨hfold, hfact⟩⟩
    · exact ⟨c, hc, Or.inr (Or.inl ⟨m, hfold, hfact⟩)⟩
    · exact ⟨c, hc, Or.inr (Or.inr ⟨m, hfold, hfact⟩)⟩
  · rintro ⟨c, hc, ⟨hfold, hfact⟩ | ⟨m, hfold, hfact⟩ | ⟨m, hfold, hfact⟩⟩
    · exact Or.inl ⟨⟨c, hc, hfold⟩, hfact⟩
    · exact Or.inr (Or.inl ⟨m, ⟨c, hc, hfold⟩, hfact⟩)
    · exact Or.inr (Or.inr ⟨m, ⟨c, hc, hfold⟩, hfact⟩)

/-- The facts of contracts that say one thing on each question are those of the single contracts. -/
theorem factsOf_iff {contracts : List Contract} (hsingle : Single contracts) {p : Property}
    {fact : Fact} :
    (p, fact) ∈ factsOf contracts ↔ ∃ c ∈ contracts, (p, fact) ∈ factsOf [c] := by
  simp only [factsOf, List.mem_append, List.mem_flatMap, jointFacts_iff hsingle,
    List.flatMap_singleton, and_or_left, exists_or]

/-! ## Facts of one contract -/

theorem mem_sizeFacts {m : Marker} {p : Property} {fact : Fact} :
    (p, fact) ∈ sizeFacts m ↔
      (∃ s, sizeArgument? m "equals" "min" = some s ∧ p = .size ∧ fact = .size s) ∨
      (∃ s, sizeArgument? m "equalsOut" "minOut" = some s ∧ p = .sizeOut ∧ fact = .size s) ∨
      ∃ c, copyArgument? m = some c ∧ p = .sizeCopy ∧ fact = .sizeCopy c := by
  simp only [sizeFacts, List.mem_append, Option.mem_toList, Option.map_eq_some_iff, or_assoc]
  simp [eq_comm]

theorem factsOf_size {c : Contract} (h : c.marker.name = .size) :
    factsOf [c] = sizeFacts c.marker := by
  simp [factsOf, ownFacts, jointFacts, h, foldContainer, foldImmutable, foldNotNull]

/-- Only the arguments of `@Size` are looked at. -/
theorem factsOf_plain {c : Contract} (h : c.marker.name ≠ .size) :
    factsOf [c] = factsOf [⟨.plain c.marker.name, c.absent⟩] := by
  obtain ⟨⟨name, arguments⟩, absent⟩ := c
  cases name with
  | size => exact absurd rfl h
  | _ => rfl

/-- A contract writes facts that fit, on its own question, and no two on one property. -/
theorem facts_of_contract {c : Contract} {p : Property} {fact : Fact}
    (h : (p, fact) ∈ factsOf [c]) :
    p.topic = c.topic ∧ p.fits fact = true ∧ fact ≠ .delayed ∧
      ∀ fact', (p, fact') ∈ factsOf [c] → fact' = fact := by
  by_cases hname : c.marker.name = .size
  · have htopic : c.topic = .size := by rw [topic, hname]; rfl
    rw [factsOf_size hname] at h ⊢
    simp only [mem_sizeFacts] at h ⊢
    rcases h with ⟨s, hs, rfl, rfl⟩ | ⟨s, hs, rfl, rfl⟩ | ⟨s, hs, rfl, rfl⟩
    all_goals
      refine ⟨htopic.symm, rfl, nofun, fun fact' hfact' => ?_⟩
      simp_all
  · have htable : ∀ name ∈ MarkerName.all, ∀ absent : Bool,
        ∀ x ∈ factsOf [⟨.plain name, absent⟩], x.1.topic = name.topic ∧ x.1.fits x.2 = true ∧
          x.2 ≠ .delayed ∧ ∀ y ∈ factsOf [⟨.plain name, absent⟩], y.1 = x.1 → y.2 = x.2 := by
      decide
    rw [factsOf_plain hname] at h ⊢
    obtain ⟨htopic, hfits, hdelayed, hone⟩ :=
      htable _ (MarkerName.mem_all c.marker.name) c.absent _ h
    exact ⟨htopic, hfits, hdelayed, fun fact' hfact' => hone _ hfact' rfl⟩

end Contract

/-! ## Writing -/

namespace Store

/-- A fact for a property that has none, or has this one, is written. -/
theorem set_of_new {s : Store} (hopen : s.frozen = false) {p : Property} {fact : Fact}
    (hfits : p.fits fact = true) (hnew : ∀ old, s.facts p = some old → fact = old) :
    s.set p fact = .ok (s.keep p fact) := by
  have hle : s.stored p ≤ fact := by
    cases hold : s.facts p with
    | none =>
      rw [stored, hold]
      exact (Fact.le_iff _ _).mpr (Or.inl rfl)
    | some old =>
      rw [stored, hold, ← hnew old hold]
      exact Fact.le_refl fact
  cases hpolicy : p.policy <;>
    simp [set, writeWith, hopen, Property.join, hfits, hpolicy, hle]

theorem facts_keep_iff {s : Store} {p : Property} {fact : Fact} (hdelayed : fact ≠ .delayed)
    (hnew : ∀ old, s.facts p = some old → fact = old) (q : Property) (found : Fact) :
    (s.keep p fact).facts q = some found ↔ s.facts q = some found ∨ (q, found) = (p, fact) := by
  by_cases hq : q = p
  · subst hq
    cases hold : s.facts q with
    | none =>
      have hstored : s.stored q ≠ fact := by
        rw [stored, hold]
        exact hdelayed.symm
      simp [keep, hstored, eq_comm]
    | some old =>
      obtain rfl := hnew old hold
      have hstored : s.stored q = fact := by
        rw [stored, hold]
        rfl
      simp [keep, hstored, hold, eq_comm]
  · rw [facts_keep_ne fact hq]
    simp [hq]

/-- Facts that fit, one for each property, are all written. -/
theorem setAll_of_functional {s : Store} (hopen : s.frozen = false)
    {facts : List (Property × Fact)}
    (hfits : ∀ p fact, (p, fact) ∈ facts → p.fits fact = true ∧ fact ≠ .delayed)
    (hone : ∀ p fact fact', (p, fact) ∈ facts → (p, fact') ∈ facts → fact' = fact)
    (hnew : ∀ p fact old, (p, fact) ∈ facts → s.facts p = some old → fact = old) :
    ∃ t, s.setAll facts = ({ s with facts := t }, none) ∧
      ∀ p fact, t p = some fact ↔ s.facts p = some fact ∨ (p, fact) ∈ facts := by
  induction facts generalizing s with
  | nil => exact ⟨s.facts, rfl, fun p fact => by simp⟩
  | cons entry facts ih =>
    obtain ⟨p, fact⟩ := entry
    have hfirst : (p, fact) ∈ (p, fact) :: facts := List.mem_cons_self
    obtain ⟨hfit, hdelayed⟩ := hfits p fact hfirst
    have hset := set_of_new hopen hfit (hnew p fact · hfirst)
    have hkeep := facts_keep_iff hdelayed (hnew p fact · hfirst)
    have hframe := s.keep_frame p fact
    have hopen' : (s.keep p fact).frozen = false := by
      rw [hframe]
      exact hopen
    obtain ⟨t, hrest, hiff⟩ := ih hopen'
      (fun q f hq => hfits q f (List.mem_cons_of_mem _ hq))
      (fun q f f' hf hf' => hone q f f' (List.mem_cons_of_mem _ hf) (List.mem_cons_of_mem _ hf'))
      (by
        intro q f old hf hold
        rcases (hkeep q old).mp hold with hold | heq
        · exact hnew q f old (List.mem_cons_of_mem _ hf) hold
        · cases heq
          exact hone p fact f hfirst (List.mem_cons_of_mem _ hf))
    refine ⟨t, ?_, fun q f => ?_⟩
    · have hstep : s.setAll ((p, fact) :: facts) = (s.keep p fact).setAll facts := by
        simp only [setAll, writeAll, hset]
      rw [hstep, hrest, hframe]
    · rw [hiff, hkeep, List.mem_cons, or_assoc]

end Store

namespace Contract

theorem importAll_eq_ok {s t : Store} {contracts : List Contract} {e : Eventual} :
    importAll s contracts = (t, .ok e) ↔
      s.setAll (factsOf contracts) = (t, none) ∧ eventualOf contracts = .ok e := by
  unfold importAll
  cases hset : s.setAll (factsOf contracts) with
  | mk s' fault => cases fault <;> simp

/-- An empty store takes contracts that say one thing on each question: it holds what each of them
says. -/
theorem importAll_of_single {contracts : List Contract} (hsingle : Single contracts)
    (entity : String) (kind : EntityKind) (defined : Bool) (convention : Convention) :
    ∃ facts, importAll (.empty entity kind defined convention) contracts =
        (⟨entity, kind, defined, convention, facts, false⟩, eventualOf contracts) ∧
      ∀ p fact, facts p = some fact ↔ ∃ c ∈ contracts, (p, fact) ∈ factsOf [c] := by
  have hfits : ∀ p fact, (p, fact) ∈ factsOf contracts → p.fits fact = true ∧ fact ≠ .delayed := by
    intro p fact hfact
    obtain ⟨c, -, hc⟩ := (factsOf_iff hsingle).mp hfact
    exact ⟨(facts_of_contract hc).2.1, (facts_of_contract hc).2.2.1⟩
  have hone : ∀ p fact fact', (p, fact) ∈ factsOf contracts → (p, fact') ∈ factsOf contracts →
      fact' = fact := by
    intro p fact fact' hfact hfact'
    obtain ⟨c, hmem, hc⟩ := (factsOf_iff hsingle).mp hfact
    obtain ⟨c', hmem', hc'⟩ := (factsOf_iff hsingle).mp hfact'
    obtain ⟨htopic, -, -, hfunctional⟩ := facts_of_contract hc
    obtain rfl : c' = c := hsingle c' hmem' c hmem ((facts_of_contract hc').1.symm.trans htopic)
    exact hfunctional fact' hc'
  obtain ⟨facts, hset, hiff⟩ := Store.setAll_of_functional
    (s := .empty entity kind defined convention) rfl hfits hone fun p fact old _ hold => by
      cases hold
  refine ⟨facts, ?_, fun p fact => ?_⟩
  · rw [importAll, hset]
    rfl
  · rw [hiff, ← factsOf_iff hsingle]
    simp [Store.empty]

end Contract

end Mutability
