import Mutability.Proofs.StoreRuns

/-!
# Established grades

A store compares graded facts by their packed code, in which the deepest grade decides, while a
reader looks at one depth. So a depth that was read as holding may be lost again. What stays true of
every run is that it is lost only in exchange for a deeper grade that rises (`lost_iff_traded`), and
not at all where every offered fact is layered (`Layered.readAt_holds_of_le`).
-/

namespace Mutability

namespace MultiLevel

/-- No grade is open, and a grade holds only above a grade that holds. -/
def Layered (m : MultiLevel) : Prop :=
  .delayed ∉ m.components ∧ (m.content.holds = true → m.base.holds = true) ∧
    (m.deepContent.holds = true → m.content.holds = true)

instance : DecidablePred Layered := fun m =>
  inferInstanceAs (Decidable (.delayed ∉ m.components ∧
    (m.content.holds = true → m.base.holds = true) ∧
    (m.deepContent.holds = true → m.content.holds = true)))

theorem Layered.one_le_code {m : MultiLevel} (hm : m.Layered) (k : Nat) :
    1 ≤ (m.rawAt k).code := by
  have hopen : ∀ g ∈ m.components, 1 ≤ g.code := by
    intro g hg
    have hne : g ≠ .delayed := fun h => hm.1 (h ▸ hg)
    cases g <;> simp_all [Grade.code]
  match k with
  | 0 => exact hopen _ (by simp [components, rawAt])
  | 1 => exact hopen _ (by simp [components, rawAt])
  | 2 => exact hopen _ (by simp [components, rawAt])
  | k + 3 => exact Nat.le_refl 1

theorem Layered.holds_below {m : MultiLevel} (hm : m.Layered) {j k : Nat} (hjk : j < k)
    (hk : (m.rawAt k).holds = true) : (m.rawAt j).holds = true := by
  obtain ⟨-, hcontent, hdeep⟩ := hm
  match k, j with
  | 1, 0 => exact hcontent hk
  | 2, 0 => exact hcontent (hdeep hk)
  | 2, 1 => exact hdeep hk
  | k + 3, _ => cases hk

theorem lost_to_deeper {a b : MultiLevel} (h : a ≤ b) {d : Nat} (ha : (a.readAt d).holds = true)
    (hb : (b.readAt d).holds = false) :
    ∃ j k, j ≤ d ∧ j < k ∧ k < 3 ∧ (b.rawAt j).holds = false ∧
      (a.rawAt k).code < (b.rawAt k).code := by
  obtain ⟨hd, hall⟩ := (a.readAt_holds_iff d).mp ha
  have hlost : ∃ j, j ≤ d ∧ (b.rawAt j).holds = false := by
    refine Classical.byContradiction fun hno => ?_
    have hread := (b.readAt_holds_iff d).mpr
      ⟨hd, fun j hj => by simpa using fun hf => hno ⟨j, hj, hf⟩⟩
    rw [hb] at hread
    cases hread
  obtain ⟨j, hj, hfalse⟩ := hlost
  have hbelow : (b.rawAt j).code < (a.rawAt j).code := by
    have hold := (Grade.holds_iff _).mp (hall j hj)
    have hnew : ¬ 2 ≤ (b.rawAt j).code := by rw [← Grade.holds_iff, hfalse]; decide
    omega
  obtain ⟨k, hjk, hrise⟩ := exists_deeper_rise h hbelow
  refine ⟨j, k, hj, hjk, ?_, hfalse, hrise⟩
  match k with
  | 0 | 1 | 2 => omega
  | k + 3 => simp [rawAt] at hrise

/-- A depth no longer reads as holding exactly if a grade it needs is lost, and then a grade still
deeper than that one has risen. -/
theorem lost_iff_traded {a b : MultiLevel} (h : a ≤ b) {d : Nat}
    (ha : (a.readAt d).holds = true) :
    (b.readAt d).holds = false ↔
      ∃ j k, j ≤ d ∧ j < k ∧ k < 3 ∧ (b.rawAt j).holds = false ∧
        (a.rawAt k).code < (b.rawAt k).code := by
  constructor
  · exact fun hb => lost_to_deeper h ha hb
  · rintro ⟨j, k, hj, -, -, hfalse, -⟩
    cases hread : (b.readAt d).holds with
    | false => rfl
    | true =>
      have hholds := ((b.readAt_holds_iff d).mp hread).2 j hj
      rw [hfalse] at hholds
      cases hholds

/-- Between layered facts no depth is lost. -/
theorem Layered.readAt_holds_of_le {a b : MultiLevel} (ha : a.Layered) (hb : b.Layered)
    (h : a ≤ b) {d : Nat} (hd : (a.readAt d).holds = true) : (b.readAt d).holds = true := by
  cases hread : (b.readAt d).holds with
  | true => rfl
  | false =>
    obtain ⟨j, k, -, hjk, -, hfalse, hrise⟩ := lost_to_deeper h hd hread
    have hk : (b.rawAt k).holds = true := by
      have := ha.one_le_code k
      rw [Grade.holds_iff]
      omega
    rw [hb.holds_below hjk hk] at hfalse
    cases hfalse

end MultiLevel

namespace Store

/-- Only a graded fact has a depth that reads as holding. -/
theorem eq_multi_of_readAt_holds {f : Fact} {d : Nat} (h : (f.grades.readAt d).holds = true) :
    f = .multi f.grades := by
  have hdelayed : (MultiLevel.delayed.readAt d).holds = false := by
    match d with
    | 0 | 1 | 2 | d + 3 => rfl
  cases f with
  | multi m => rfl
  | delayed | flag | size | sizeCopy => simp [Fact.grades, hdelayed] at h

/-- The graded fact that a run from an empty store holds was offered by one of its calls. -/
theorem layered_of_offered {entity : String} {kind : EntityKind} {defined : Bool}
    {convention : Convention} {calls : List Call} {p : Property} {m : MultiLevel}
    (hoffers : ∀ c ∈ calls, ∀ m, c.offers p (.multi m) → m.Layered)
    (hm : ((empty entity kind defined convention).run calls).stored p = .multi m) :
    m.Layered := by
  rcases stored_run_offered (empty entity kind defined convention) calls p with h | ⟨c, hc, h⟩
  · rw [hm] at h
    cases h
  · rw [hm] at h
    exact hoffers c hc m h

/-- A depth of an upgrade-only fact that reads as holding in one state of a run is lost in a later
state exactly if a grade it needs was given up for a deeper one that has risen. Where all facts that
the run offers for the property are layered it is never lost. -/
theorem established_grade_lost_iff_traded (entity : String) (kind : EntityKind) (defined : Bool)
    (convention : Convention) (calls later : List Call) (p : Property)
    (hp : p.policy = .upgrade) (d : Nat) :
    let s := (empty entity kind defined convention).run calls
    let old := (s.stored p).grades
    let new := ((s.run later).stored p).grades
    (old.readAt d).holds = true →
      ((new.readAt d).holds = false ↔
        ∃ j k, j ≤ d ∧ j < k ∧ k < 3 ∧ (new.rawAt j).holds = false ∧
          (old.rawAt k).code < (new.rawAt k).code) ∧
      ((∀ c ∈ calls ++ later, ∀ m, c.offers p (.multi m) → m.Layered) →
        (new.readAt d).holds = true) := by
  intro s old new hold
  have holdFact : s.stored p = .multi old := eq_multi_of_readAt_holds hold
  obtain ⟨b, hnewFact, hle⟩ := Fact.exists_multi_of_le (holdFact ▸ s.stored_le_run later hp)
  have hb : b = new := by simp only [new, hnewFact, Fact.grades]
  subst hb
  refine ⟨MultiLevel.lost_iff_traded hle hold, ?_⟩
  intro hoffers
  have holdLayered : old.Layered :=
    layered_of_offered (fun c hc => hoffers c (List.mem_append_left later hc)) holdFact
  have hnewLayered : new.Layered :=
    layered_of_offered hoffers (by rw [run_append]; exact hnewFact)
  exact holdLayered.readAt_holds_of_le hnewLayered hle hold

/-- Deep immutability is established on top of shallow immutability, and nothing is lost. -/
theorem shallow_stays_under_deep :
    let calls := [Call.set .immutable (.multi .shallowImmutable)]
    let later := [Call.improve .immutable (.multi .deepImmutable), .set .immutable .delayed]
    let s := (empty "com.example.Bag" .type true .defensive).run calls
    Property.immutable.policy = .upgrade ∧
      ((s.stored .immutable).grades.readAt 0).holds = true ∧
      (∀ c ∈ calls ++ later, ∀ m, c.offers .immutable (.multi m) → m.Layered) ∧
      (((s.run later).stored .immutable).grades.readAt 0).holds = true := by
  have hoffers : ∀ c ∈ [Call.set .immutable (.multi .shallowImmutable)] ++
      [Call.improve .immutable (.multi .deepImmutable), .set .immutable .delayed],
      ∀ m, c.offers .immutable (.multi m) → m.Layered := by
    intro c hc m hm
    simp only [List.cons_append, List.nil_append, List.mem_cons, List.not_mem_nil, or_false] at hc
    rcases hc with rfl | rfl | rfl <;> simp [Call.offers] at hm <;> subst hm <;> decide
  exact ⟨rfl, by decide, hoffers,
    (established_grade_lost_iff_traded "com.example.Bag" .type true .defensive _ _ .immutable rfl 0
      (by decide)).2 hoffers⟩

/-- Shallow immutability that was read as holding no longer does once an eventual grade of the
content is written, although the write goes up in the order of facts. -/
theorem grade_lost_to_content :
    let s := (empty "com.example.Bag" .type true .defensive).run
      [.set .immutable (.multi .shallowImmutable)]
    let s' := s.run [.set .immutable (.multi ⟨.no, .eventual, .no⟩)]
    ((s.stored .immutable).grades.readAt 0).holds = true ∧
      ((s'.stored .immutable).grades.readAt 0).holds = false := by
  decide

end Store

end Mutability
