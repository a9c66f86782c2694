import Mutability.Proofs.ContractTrip

/-!
# Contracts that deny a marker

A contract may be flagged as absent, so that it asserts the opposite of its marker. The flag turns
round what is written on modification, on finality and by the markers that stand for one flag each.
The markers on immutability, containers, nullness and independence are read without a look at it
(`unheeded`): they leave in the store what they would leave without the flag
(`absent_flag_exact`).
-/

namespace Mutability

namespace Store

/-! ## Writing one fact after the other -/

theorem set_eq_ok_iff {s t : Store} {p : Property} {fact : Fact} :
    s.set p fact = .ok t ↔ s.frozen = false ∧ p.fits fact = true ∧
      (p.policy = .overwrite ∨ s.stored p ≤ fact) ∧ s.keep p fact = t := by
  unfold set writeWith Property.join
  cases s.frozen <;> cases p.fits fact <;> cases p.policy <;> simp
  by_cases hle : s.stored p ≤ fact <;> simp [hle]

theorem setAll_cons_eq_ok {s t : Store} {p : Property} {fact : Fact}
    {facts : List (Property × Fact)} :
    s.setAll ((p, fact) :: facts) = (t, none) ↔
      s.set p fact = .ok (s.keep p fact) ∧ (s.keep p fact).setAll facts = (t, none) := by
  cases hset : s.set p fact with
  | error fault => simp [setAll, writeAll, hset]
  | ok s' =>
    obtain ⟨-, -, -, rfl⟩ := set_eq_ok_iff.mp hset
    simp [setAll, writeAll, hset]

/-- Writes that are all taken are a run of calls. -/
theorem run_of_setAll {s t : Store} {facts : List (Property × Fact)}
    (h : s.setAll facts = (t, none)) : s.run (facts.map fun entry => .set entry.1 entry.2) = t := by
  induction facts generalizing s with
  | nil => exact (Prod.mk.inj h).1
  | cons entry facts ih =>
    obtain ⟨p, fact⟩ := entry
    obtain ⟨hset, hrest⟩ := setAll_cons_eq_ok.mp h
    have hstep : (s.perform (.set p fact)).1 = s.keep p fact := by simp [perform, settle, hset]
    rw [List.map_cons, run, hstep]
    exact ih hrest

/-- What is written for a property that only moves up stays below what is stored in the end. -/
theorem le_stored_of_setAll {s t : Store} {facts : List (Property × Fact)}
    (h : s.setAll facts = (t, none)) {p : Property} (hp : p.policy = .upgrade) {fact : Fact}
    (hfact : (p, fact) ∈ facts) : fact ≤ t.stored p := by
  induction facts generalizing s with
  | nil => cases hfact
  | cons entry facts ih =>
    obtain ⟨q, other⟩ := entry
    have hrest := (setAll_cons_eq_ok.mp h).2
    rcases List.mem_cons.mp hfact with heq | hfact
    · cases heq
      have hle := (s.keep p fact).stored_le_run (facts.map fun entry => .set entry.1 entry.2) hp
      rwa [run_of_setAll hrest, stored_keep_self] at hle
    · exact ih hrest hfact

theorem facts_eq_some_iff {s : Store} {p : Property} {fact : Fact} (hdelayed : fact ≠ .delayed) :
    s.facts p = some fact ↔ s.stored p = fact := by
  unfold stored
  cases s.facts p with
  | none => simp [hdelayed.symm]
  | some found => simp

section Writes

variable {entity : String} {kind : EntityKind} {defined : Bool} {convention : Convention}
  {t : Store} {facts : List (Property × Fact)}

/-- A store that was empty holds the greatest fact that was written. -/
theorem facts_of_setAll_empty (h : (empty entity kind defined convention).setAll facts = (t, none))
    {p : Property} (hp : p.policy = .upgrade) {fact : Fact} (hdelayed : fact ≠ .delayed) :
    t.facts p = some fact ↔
      (p, fact) ∈ facts ∧ ∀ other, (p, other) ∈ facts → other ≤ fact := by
  have hstored : t.stored p = .delayed ∨ (p, t.stored p) ∈ facts := by
    have hoffered := (empty entity kind defined convention).stored_run_offered
      (facts.map fun entry => .set entry.1 entry.2) p
    rw [run_of_setAll h] at hoffered
    refine hoffered.imp_right ?_
    rintro ⟨c, hc, hoffer⟩
    obtain ⟨⟨q, other⟩, hentry, rfl⟩ := List.mem_map.mp hc
    rcases hoffer with heq | heq
    · obtain ⟨rfl, hother⟩ := Call.set.inj heq
      rw [← hother]
      exact hentry
    · cases heq
  rw [facts_eq_some_iff hdelayed]
  constructor
  · rintro rfl
    exact ⟨hstored.resolve_left hdelayed, fun other hother => le_stored_of_setAll h hp hother⟩
  · rintro ⟨hfact, hgreatest⟩
    have hle := le_stored_of_setAll h hp hfact
    rcases hstored with hnone | hsome
    · exact absurd (Fact.eq_delayed_of_le_delayed (hnone ▸ hle)) hdelayed
    · exact Fact.le_antisymm (hgreatest _ hsome) hle

end Writes

/-- Writes on other properties may be left out: those that remain are taken and leave the same. -/
theorem setAll_filter {s s' t : Store} {facts : List (Property × Fact)} {ps : List Property}
    (hopen : s'.frozen = false) (hsame : ∀ p ∈ ps, s'.facts p = s.facts p)
    (h : s.setAll facts = (t, none)) :
    ∃ t', s'.setAll (facts.filter (·.1 ∈ ps)) = (t', none) ∧ ∀ p ∈ ps, t'.facts p = t.facts p := by
  induction facts generalizing s s' with
  | nil =>
    cases h
    exact ⟨s', rfl, hsame⟩
  | cons entry facts ih =>
    obtain ⟨q, fact⟩ := entry
    obtain ⟨hset, hrest⟩ := setAll_cons_eq_ok.mp h
    by_cases hq : q ∈ ps
    · have hstored : s'.stored q = s.stored q := by simp only [stored, hsame q hq]
      obtain ⟨-, hfits, hpolicy, -⟩ := set_eq_ok_iff.mp hset
      have hset' : s'.set q fact = .ok (s'.keep q fact) :=
        set_eq_ok_iff.mpr ⟨hopen, hfits, by rwa [hstored], rfl⟩
      have hopen' : (s'.keep q fact).frozen = false := by rwa [s'.keep_frame]
      obtain ⟨t', hwritten, hfacts⟩ := ih hopen'
        (fun p hp => by
          by_cases hpq : p = q
          · subst hpq
            rw [facts_keep, facts_keep, stored_keep_self, stored_keep_self, hstored, hsame p hp]
          · rw [facts_keep_ne fact hpq, facts_keep_ne fact hpq, hsame p hp])
        hrest
      refine ⟨t', ?_, hfacts⟩
      rw [List.filter_cons_of_pos (by simpa using hq)]
      exact setAll_cons_eq_ok.mpr ⟨hset', hwritten⟩
    · obtain ⟨t', hwritten, hfacts⟩ := ih hopen
        (fun p hp => by
          have hpq : p ≠ q := fun heq => hq (heq ▸ hp)
          rw [facts_keep_ne fact hpq, hsame p hp])
        hrest
      refine ⟨t', ?_, hfacts⟩
      rw [List.filter_cons_of_neg (by simpa using hq)]
      exact hwritten

end Store

namespace Contract

/-! ## The markers whose flag is not looked at -/

/-- The markers on immutability, containers, nullness and independence. -/
def unheeded : List MarkerName :=
  [.e1Immutable, .e1Container, .e2Immutable, .e2Container, .mutableModifiesArguments, .container,
   .nullable, .notNull, .notNull1, .notNull2, .independent, .dependent]

/-- The properties that these markers are about. -/
def unheededProperties : List Property := [.immutable, .container, .notNull, .independent]

/-- The contract without its flag. -/
def asPresent (c : Contract) : Contract := { c with absent := false }

/-- The contracts whose flag is not looked at, without it. -/
def unheededOf (contracts : List Contract) : List Contract :=
  (contracts.filter (·.marker.name ∈ unheeded)).map asPresent

theorem foldl_unheededOf {β : Type} {f : β → Contract → β}
    (hflag : ∀ known c, f known c.asPresent = f known c)
    (hidle : ∀ known c, c.marker.name ∉ unheeded → f known c = known) (init : β)
    (contracts : List Contract) :
    (unheededOf contracts).foldl f init = contracts.foldl f init := by
  induction contracts generalizing init with
  | nil => rfl
  | cons c contracts ih =>
    by_cases hc : c.marker.name ∈ unheeded
    · have hfirst : unheededOf (c :: contracts) = c.asPresent :: unheededOf contracts := by
        simp [unheededOf, hc]
      rw [hfirst, List.foldl_cons, List.foldl_cons, hflag, ih]
    · have hfirst : unheededOf (c :: contracts) = unheededOf contracts := by
        simp [unheededOf, hc]
      rw [hfirst, List.foldl_cons, hidle init c hc, ih]

theorem jointFacts_unheededOf (contracts : List Contract) :
    jointFacts (unheededOf contracts) = jointFacts contracts := by
  unfold jointFacts
  rw [foldl_unheededOf (f := foldContainer) (fun _ _ => rfl) ?container,
    foldl_unheededOf (f := foldImmutable) (fun _ _ => rfl) ?immutable,
    foldl_unheededOf (f := foldNotNull) (fun _ _ => rfl) ?notNull]
  all_goals
    intro known c hc
    cases hname : c.marker.name <;> simp_all [unheeded, foldContainer, foldImmutable, foldNotNull]

/-- Sizes are none of these properties. -/
theorem sizeFacts_unheeded (m : Marker) :
    (sizeFacts m).filter (·.1 ∈ unheededProperties) = [] := by
  rw [List.filter_eq_nil_iff]
  rintro ⟨p, fact⟩ hfact
  rcases mem_sizeFacts.mp hfact with ⟨_, _, rfl, _⟩ | ⟨_, _, rfl, _⟩ | ⟨_, _, rfl, _⟩ <;>
    simp [unheededProperties]

theorem ownFacts_unheeded (c : Contract) :
    (ownFacts c).filter (·.1 ∈ unheededProperties) =
      if c.marker.name ∈ unheeded then ownFacts c.asPresent else [] := by
  obtain ⟨⟨name, arguments⟩, absent⟩ := c
  cases name with
  | size => exact sizeFacts_unheeded _
  | _ => rfl

/-- The facts on these properties are those of these contracts, whatever their flag. -/
theorem factsOf_unheededOf (contracts : List Contract) :
    (factsOf contracts).filter (·.1 ∈ unheededProperties) = factsOf (unheededOf contracts) := by
  have hown : (contracts.flatMap ownFacts).filter (·.1 ∈ unheededProperties) =
      (unheededOf contracts).flatMap ownFacts := by
    induction contracts with
    | nil => rfl
    | cons c contracts ih =>
      rw [List.flatMap_cons, List.filter_append, ih, ownFacts_unheeded]
      by_cases hc : c.marker.name ∈ unheeded <;> simp [unheededOf, hc]
  have hjoint :
      (jointFacts contracts).filter (·.1 ∈ unheededProperties) = jointFacts contracts := by
    rw [List.filter_eq_self]
    rintro ⟨p, fact⟩ hfact
    rcases mem_jointFacts.mp hfact with ⟨_, rfl, _⟩ | ⟨_, _, rfl, _⟩ | ⟨_, _, rfl, _⟩ <;>
      simp [unheededProperties]
  unfold factsOf
  rw [List.filter_append, hown, hjoint, jointFacts_unheededOf]

/-- On other properties each contract speaks for itself. -/
theorem mem_factsOf_iff {contracts : List Contract} {p : Property} (hp : p ∉ unheededProperties)
    {fact : Fact} : (p, fact) ∈ factsOf contracts ↔ ∃ c ∈ contracts, (p, fact) ∈ factsOf [c] := by
  have hjoint (contracts : List Contract) : (p, fact) ∉ jointFacts contracts := by
    intro hfact
    rcases mem_jointFacts.mp hfact with ⟨_, rfl, _⟩ | ⟨_, _, rfl, _⟩ | ⟨_, _, rfl, _⟩
    all_goals exact hp (by decide)
  simp [factsOf, hjoint]

/-! ## The markers whose flag turns them round -/

/-- What a marker writes whose flag is looked at: one flag, and what its denial writes. -/
theorem heeded_facts {name : MarkerName} (hname : name ∉ unheeded) (hsize : name ≠ .size)
    {p : Property} {fact : Fact} (hfact : (p, fact) ∈ factsOf [⟨.plain name, false⟩]) :
    p ∉ unheededProperties ∧ p.policy = .upgrade ∧
      ∃ b, fact = .flag b ∧ (p, .flag (!b)) ∈ factsOf [⟨.plain name, true⟩] := by
  have htable : ∀ name ∈ MarkerName.all, name ∉ unheeded → name ≠ .size →
      ∀ x ∈ factsOf [⟨.plain name, false⟩], x.1 ∉ unheededProperties ∧ x.1.policy = .upgrade ∧
        ((x.2 = .flag true ∧ (x.1, .flag false) ∈ factsOf [⟨.plain name, true⟩]) ∨
          (x.2 = .flag false ∧ (x.1, .flag true) ∈ factsOf [⟨.plain name, true⟩])) := by
    decide
  obtain ⟨hp, hpolicy, ⟨rfl, hdenied⟩ | ⟨rfl, hdenied⟩⟩ :=
    htable name (MarkerName.mem_all name) hname hsize _ hfact
  · exact ⟨hp, hpolicy, true, rfl, hdenied⟩
  · exact ⟨hp, hpolicy, false, rfl, hdenied⟩

/-- The denials that assert a flag: that of `@NotModified` and that of `@Variable`. -/
theorem denial_asserts {c : Contract} (habsent : c.absent = true) {p : Property}
    (hp : p ∉ unheededProperties) :
    (p, .flag true) ∈ factsOf [c] ↔
      (c.marker.name = .notModified ∧ p = .modified) ∨
        (c.marker.name = .nonFinal ∧ p = .final) := by
  by_cases hsize : c.marker.name = .size
  · rw [factsOf_size hsize, mem_sizeFacts]
    simp [hsize]
  · have htable : ∀ name ∈ MarkerName.all, ∀ p ∈ Property.all, p ∉ unheededProperties →
        ((p, .flag true) ∈ factsOf [⟨.plain name, true⟩] ↔
          (name = .notModified ∧ p = .modified) ∨ (name = .nonFinal ∧ p = .final)) := by
      decide +kernel
    rw [factsOf_plain hsize, habsent]
    exact htable _ (MarkerName.mem_all _) p (Property.mem_all p) hp

section Import

variable {entity : String} {kind : EntityKind} {defined : Bool} {convention : Convention}
  {contracts : List Contract} {t : Store} {e : Eventual}
  (himport : importAll (.empty entity kind defined convention) contracts = (t, .ok e))

include himport

/-- An established flag is held exactly if a contract asserts it. -/
theorem holds_flag_iff {p : Property} (hp : p ∉ unheededProperties)
    (hpolicy : p.policy = .upgrade) :
    t.facts p = some (.flag true) ↔ ∃ c ∈ contracts, (p, .flag true) ∈ factsOf [c] := by
  rw [Store.facts_of_setAll_empty (importAll_eq_ok.mp himport).1 hpolicy (by simp),
    mem_factsOf_iff hp]
  refine and_iff_left_of_imp ?_
  rintro ⟨c, _, hflag⟩ other hother
  obtain ⟨c', _, hother⟩ := (mem_factsOf_iff hp).mp hother
  have hlevel : p.family = .level := by
    simpa [Property.fits, Fact.family?, eq_comm] using (facts_of_contract hflag).2.1
  obtain ⟨-, hfits, hdelayed, -⟩ := facts_of_contract hother
  have hfamily := Property.family?_of_fits hfits hdelayed
  rw [hlevel] at hfamily
  cases other with
  | flag b => cases b <;> decide
  | delayed | multi | size | sizeCopy => cases hfamily

/-- The contracts whose flag is not looked at leave what they would leave without it. -/
theorem exists_import_unheededOf :
    ∃ u, importAll (.empty entity kind defined convention) (unheededOf contracts) =
        (u, .ok .none) ∧ ∀ p ∈ unheededProperties, t.facts p = u.facts p := by
  have hopen : (Store.empty entity kind defined convention).frozen = false := rfl
  have hsame : ∀ p ∈ unheededProperties, (Store.empty entity kind defined convention).facts p =
      (Store.empty entity kind defined convention).facts p := fun _ _ => rfl
  obtain ⟨u, hset, hfacts⟩ := Store.setAll_filter hopen hsame (importAll_eq_ok.mp himport).1
  rw [factsOf_unheededOf] at hset
  refine ⟨u, importAll_eq_ok.mpr ⟨hset, ?_⟩, fun p hp => (hfacts p hp).symm⟩
  refine Derivation.eventualOf_of_unmarked fun c hc hmarked => ?_
  obtain ⟨c', hc', rfl⟩ := List.mem_map.mp hc
  have hname : c'.marker.name ∈ unheeded := by simpa using (List.mem_filter.mp hc').2
  have hother : ∀ name ∈ unheeded, name ∉ [MarkerName.mark, .only, .testMark] := by decide
  exact hother _ hname hmarked

end Import

/-- What the flag does in an import that succeeds, seen from a marker that only stands in the list
with the flag, while no contract without it asserts the same. If the flag of the marker is looked
at, the store holds what the marker would write only where the denial of its opposite asserts it.
If it is not, the store holds what these contracts would leave without their flags. -/
theorem absent_flag_exact {entity : String} {kind : EntityKind} {defined : Bool}
    {convention : Convention} {contracts : List Contract} {t : Store} {e : Eventual}
    (himport : importAll (.empty entity kind defined convention) contracts = (t, .ok e))
    (name : MarkerName) (hsize : name ≠ .size) (hmem : ∃ c ∈ contracts, c.marker.name = name)
    (habsent : ∀ c ∈ contracts, c.marker.name = name → c.absent = true)
    (p : Property) (fact : Fact) (hfact : (p, fact) ∈ factsOf [⟨.plain name, false⟩])
    (hpresent : ∀ c ∈ contracts, c.absent = false → (p, fact) ∉ factsOf [c]) :
    (name ∉ unheeded → (t.facts p = some fact ↔ ∃ c ∈ contracts, c.absent = true ∧
      ((c.marker.name = .notModified ∧ name = .modified) ∨
        (c.marker.name = .nonFinal ∧ name = .final)))) ∧
    (name ∈ unheeded → ∃ u, importAll (.empty entity kind defined convention)
        (unheededOf contracts) = (u, .ok .none) ∧ t.facts p = u.facts p) := by
  have hnames : ∀ name ∈ MarkerName.all, name ≠ .size → ∀ x ∈ factsOf [⟨.plain name, false⟩],
      (x.2 = .flag true → (x.1 = .modified ↔ name = .modified) ∧ (x.1 = .final ↔ name = .final)) ∧
      (x.2 = .flag false → name ≠ .modified ∧ name ≠ .final) ∧
      (name ∈ unheeded → x.1 ∈ unheededProperties) := by decide
  obtain ⟨htrue, hfalse, hunheeded⟩ := hnames name (MarkerName.mem_all name) hsize _ hfact
  constructor
  · intro hheeded
    obtain ⟨hp, hpolicy, b, rfl, hdenied⟩ := heeded_facts hheeded hsize hfact
    cases b with
    | true =>
      obtain ⟨hmodified, hfinal⟩ := htrue rfl
      rw [holds_flag_iff himport hp hpolicy]
      refine exists_congr fun c => and_congr_right fun hc => ?_
      rw [← hmodified, ← hfinal]
      constructor
      · intro hsaid
        have hflagged : c.absent = true := by
          by_contra hflag
          exact hpresent c hc (by simpa using hflag) hsaid
        exact ⟨hflagged, (denial_asserts hflagged hp).mp hsaid⟩
      · rintro ⟨hflagged, hopposite⟩
        exact (denial_asserts hflagged hp).mpr hopposite
    | false =>
      -- the denial itself has established the flag
      obtain ⟨hmodified, hfinal⟩ := hfalse rfl
      obtain ⟨c, hc, rfl⟩ := hmem
      have hsaid : (p, .flag true) ∈ factsOf [c] := by
        rw [factsOf_plain hsize, habsent c hc rfl]
        exact hdenied
      have hheld := (holds_flag_iff himport hp hpolicy).mpr ⟨c, hc, hsaid⟩
      simp [hheld, hmodified, hfinal]
  · intro hname
    obtain ⟨u, hu, hfacts⟩ := exists_import_unheededOf himport
    exact ⟨u, hu, hfacts p (hunheeded hname)⟩

/-- `@Fluent` and `@Final` are denied, but the denial of `@Variable` asserts that the field is
final, and the denied `@Independent` counts as if it stood there without the flag. -/
theorem denials_on_field :
    let contracts : List Contract := [⟨.plain .fluent, true⟩, ⟨.plain .dependent, false⟩,
      ⟨.plain .independent, true⟩, ⟨.plain .final, true⟩, ⟨.plain .nonFinal, true⟩]
    ∃ t, importAll (.empty "com.example.Bag:items" .field true .defensive) contracts =
        (t, .ok .none) ∧
      t.facts .fluent ≠ some (.flag true) ∧ t.facts .final = some (.flag true) ∧
      ∃ u, importAll (.empty "com.example.Bag:items" .field true .defensive)
          [⟨.plain .dependent, false⟩, ⟨.plain .independent, false⟩] = (u, .ok .none) ∧
        t.facts .independent = u.facts .independent := by
  intro contracts
  have himport : importAll (.empty "com.example.Bag:items" .field true .defensive) contracts =
    (_, .ok .none) := rfl
  refine ⟨_, himport, ?_, ?_, ?_⟩
  · have hfluent := (absent_flag_exact himport .fluent (by decide) (by decide) (by decide) .fluent
      (.flag true) (by decide) (by decide)).1 (by decide)
    rw [Ne, hfluent]
    decide
  · exact ((absent_flag_exact himport .final (by decide) (by decide) (by decide) .final (.flag true)
      (by decide) (by decide)).1 (by decide)).mpr (by decide)
  · exact (absent_flag_exact himport .independent (by decide) (by decide) (by decide) .independent
      (.multi .independent) (by decide) (by decide)).2 (by decide)

/-- A container that is denied, and asserted by nobody, is written as a container. -/
theorem denied_container_written :
    let contracts : List Contract := [⟨.plain .container, true⟩]
    (∀ c ∈ contracts, c.absent = true) ∧
      (Property.container, Fact.flag true) ∈ factsOf [⟨.plain .container, false⟩] ∧
      ∃ t, importAll (.empty "com.example.Bag" .type true .defensive) contracts = (t, .ok .none) ∧
        t.facts .container = some (.flag true) :=
  ⟨by decide, by decide, _, rfl, rfl⟩

end Contract

end Mutability
