import Mutability.Proofs.PlatformTypes
import Mutability.Proofs.Vocabulary
import Mutability.Types.Assignability

/-!
# One comparison

What `step` does with types of one name and of different names, as equations, and what becomes of
several further comparisons that all have an answer.
-/

namespace Mutability

theorem Distance.isAssignable_plus (a b : Distance) :
    (a.plus b).isAssignable = (a.isAssignable && b.isAssignable) := by
  cases a <;> cases b <;> rfl

theorem Distance.isAssignable_better (a b : Distance) :
    (a.better b).isAssignable = (a.isAssignable || b.isAssignable) := by
  cases a <;> cases b <;> rfl

theorem Distance.better_comm (a b : Distance) : a.better b = b.better a := by
  cases a <;> cases b <;> simp only [better]
  grind

theorem Distance.better_assoc (a b c : Distance) :
    (a.better b).better c = a.better (b.better c) := by
  cases a <;> cases b <;> cases c <;> simp only [better]
  grind

namespace Assignability

/-! ## Several queries -/

theorem sumOf_cons {answer : Query → Outcome Distance} {q : Query} {d : Distance}
    (hd : answer q = .answer d) (qs : List Query) (sum : Distance) :
    sumOf answer (q :: qs) sum =
      if (sum.plus d).isAssignable then sumOf answer qs (sum.plus d) else .answer (sum.plus d) := by
  rw [sumOf, hd]
  rfl

/-- Arguments that all have an answer have a sum, assignable exactly if each of them is. -/
theorem exists_sumOf {answer : Query → Outcome Distance} {qs : List Query}
    (h : ∀ q ∈ qs, ∃ d, answer q = .answer d) (sum : Distance) :
    ∃ total, sumOf answer qs sum = .answer total ∧
      (total.isAssignable = true ↔ sum.isAssignable = true ∧
        ∀ q ∈ qs, ∀ d, answer q = .answer d → d.isAssignable = true) := by
  induction qs generalizing sum with
  | nil => exact ⟨sum, rfl, by simp⟩
  | cons q qs ih =>
    obtain ⟨d, hd⟩ := h q List.mem_cons_self
    have hhead : ∀ d', answer q = .answer d' → d' = d := by
      intro d' hd'
      rw [hd] at hd'
      cases hd'
      rfl
    rw [sumOf_cons hd]
    split
    · rename_i hplus
      obtain ⟨total, htotal, hiff⟩ := ih (fun x hx => h x (List.mem_cons_of_mem q hx)) (sum.plus d)
      refine ⟨total, htotal, ?_⟩
      rw [hiff]
      simp only [Distance.isAssignable_plus, Bool.and_eq_true] at hplus ⊢
      constructor
      · rintro ⟨_, hrest⟩
        refine ⟨hplus.1, fun x hx d' hd' => ?_⟩
        rcases List.mem_cons.mp hx with rfl | hx
        · rw [hhead d' hd']
          exact hplus.2
        · exact hrest x hx d' hd'
      · rintro ⟨_, hall⟩
        exact ⟨hplus, fun x hx => hall x (List.mem_cons_of_mem q hx)⟩
    · rename_i hplus
      refine ⟨_, rfl, ?_⟩
      rw [Distance.isAssignable_plus, Bool.and_eq_true] at hplus ⊢
      constructor
      · exact fun hboth => absurd hboth hplus
      · exact fun hall => absurd ⟨hall.1, hall.2 q List.mem_cons_self d hd⟩ hplus

variable {answer : TypeExpr → Outcome Distance}

theorem firstHop_cons {t : TypeExpr} {d : Distance} (hd : answer t = .answer d)
    (ts : List TypeExpr) :
    firstHop answer (t :: ts) =
      if d.isAssignable then .answer (Distance.hop.plus d) else firstHop answer ts := by
  rw [firstHop, hd]
  rfl

/-- The first candidate that is assignable counts, if there is one. -/
theorem firstHop_cases {ts : List TypeExpr}
    (hts : ∀ t ∈ ts, ∃ d, answer t = .answer d) :
    (∃ t ∈ ts, ∃ d, answer t = .answer d ∧ d.isAssignable = true ∧
      firstHop answer ts = .answer (Distance.hop.plus d)) ∨
    ((∀ t ∈ ts, answer t = .answer .notAssignable) ∧
      firstHop answer ts = .answer .notAssignable) := by
  induction ts with
  | nil => exact Or.inr ⟨by simp, rfl⟩
  | cons t ts ih =>
    obtain ⟨d, hd⟩ := hts t List.mem_cons_self
    rw [firstHop_cons hd]
    cases d with
    | cost n => exact Or.inl ⟨t, List.mem_cons_self, .cost n, hd, rfl, rfl⟩
    | notAssignable =>
      rcases ih fun x hx => hts x (List.mem_cons_of_mem t hx) with ⟨u, hu, hfirst⟩ | ⟨hall, hnone⟩
      · exact Or.inl ⟨u, List.mem_cons_of_mem t hu, hfirst⟩
      · exact Or.inr ⟨List.forall_mem_cons.mpr ⟨hd, hall⟩, hnone⟩

/-! ## Named types -/

section Named

variable {s : Setting} {recur : Answerer} {path : List Visit} {q : Query} {target source : String}

theorem step_named (ht : q.target.base = .nominal target) (hs : q.source.base = .nominal source)
    (hcontra : q.mode ≠ .contravariant) (hany : q.mode ≠ .any) :
    step s recur path q =
      if q.trivial then .answer .equal
      else if q.mode ≠ .invariant ∧ q.topTakes then .answer .hop
      else concrete s recur path q := by
  have hnull : q.source.isNull = false := by simp [TypeExpr.isNull, hs]
  have hwild : q.target.isUnboundWildcard = false := by simp [TypeExpr.isUnboundWildcard, ht]
  have hbase : byBase s recur path q = concrete s recur path q := by simp only [byBase, ht, hs]
  have hdirected : directed s recur path q =
      if q.mode ≠ .invariant ∧ q.topTakes then .answer .hop else concrete s recur path q := by
    simp only [directed, hwild, hbase, Bool.false_eq_true, ↓reduceIte]
  unfold step
  rw [hnull, ← hdirected]
  cases hmode : q.mode with
  | contravariant => exact absurd hmode hcontra
  | any => exact absurd hmode hany
  | invariant | covariant | erasure => rfl

/-- Array dimensions do not matter where they are ignored or the same on both sides. -/
theorem concrete_named (ht : q.target.base = .nominal target)
    (hs : q.source.base = .nominal source)
    (harrays : q.ignoreArrays = true ∨ q.target.arrays = 0 ∧ q.source.arrays = 0) :
    concrete s recur path q =
      if target = source then sameName recur path q.target q.source q.mode
      else differentNames s recur path q.target q.source target source q.mode := by
  unfold concrete
  rcases harrays with hi | ⟨hta, hsa⟩
  · simp [hi, ht, hs]
  · simp [hta, hsa, ht, hs]

end Named

/-! ## Types of different names -/

variable {s : Setting} {recur : Answerer} {path : List Visit}

section DifferentNames

variable {q : Query} {target source : String} (ht : q.target.base = .nominal target)
  (hs : q.source.base = .nominal source) (hne : target ≠ source) (hmode : q.mode = .covariant)
  (harrays : q.ignoreArrays = true ∨ q.target.arrays = 0 ∧ q.source.arrays = 0)

include ht hs hne hmode harrays

theorem step_of_names_ne :
    step s recur path q =
      if q.topTakes then .answer .hop
      else differentNames s recur path q.target q.source target source .covariant := by
  have hbases : q.target.base ≠ q.source.base := by simp [ht, hs, hne]
  have htrivial : q.trivial = false := by
    have hdiff : q.target ≠ q.source := fun heq => hbases (by rw [heq])
    simp [Query.trivial, TypeExpr.equalsIgnoringArrays, hdiff, hbases]
  rw [step_named ht hs (by simp [hmode]) (by simp [hmode]), htrivial,
    concrete_named ht hs harrays, if_neg hne, hmode]
  simp

/-- The top type is no functional interface, so it does not come before their methods. -/
theorem step_functional (hbuilt : s.hierarchy.FromPlatform)
    (hboth : (s.hierarchy.isFunctional target && s.hierarchy.isFunctional source) = true) :
    step s recur path q = functional s q.target q.source .covariant := by
  have htop : q.topTakes = false := by
    have hobject : q.target.isObject = false := by
      rw [TypeExpr.isObject, decide_eq_false_iff_not, TypeExpr.name?_eq_some_iff]
      intro hobject
      rw [ht] at hobject
      cases hobject
      simp [hbuilt.isFunctional_object] at hboth
    simp [Query.topTakes, hobject]
  rw [step_of_names_ne ht hs hne hmode harrays, htop]
  simp [differentNames, hboth]

/-- Other types are looked for among the supertypes of the source, unless a climb from it is under
way already. -/
theorem step_climb {d : Declaration} (hd : s.hierarchy.find? source = some d)
    (hboth : (s.hierarchy.isFunctional target && s.hierarchy.isFunctional source) = false) :
    step s recur path q =
      if q.topTakes then .answer .hop
      else if s.guarded && path.contains ⟨q.target, q.source, .covariant⟩ then
        .answer .notAssignable
      else firstHop (fun declared =>
        Outcome.ofExcept (s.hierarchy.directSupertype q.source declared) >>= fun concrete =>
          recur (⟨q.target, q.source, .covariant⟩ :: path) ⟨q.target, concrete, true, .covariant⟩)
        (climbable d) := by
  have hclimb : differentNames s recur path q.target q.source target source .covariant =
      climb s recur path q.target q.source source .covariant := by
    simp [differentNames, hboth]
  rw [step_of_names_ne ht hs hne hmode harrays, hclimb, climb,
    show s.hierarchy.require source = .ok d by simp [Hierarchy.require, hd]]
  rfl

end DifferentNames

/-- A type without array dimensions does not fit one that has some. -/
theorem step_arrays_ne {q : Query} {target source : String}
    (ht : q.target.base = .nominal target) (hs : q.source.base = .nominal source)
    (hmode : q.mode = .covariant) (hignore : q.ignoreArrays = false)
    (hsource : q.source.arrays = 0) (htarget : q.target.arrays ≠ 0) :
    step s recur path q = .answer .notAssignable := by
  have harrays : q.target.arrays ≠ q.source.arrays := by rwa [hsource]
  have htrivial : q.trivial = false := by
    have hdiff : q.target ≠ q.source := fun heq => harrays (by rw [heq])
    simp [Query.trivial, hignore, hdiff]
  have htop : q.topTakes = false := by simp [Query.topTakes, hignore, htarget, hsource]
  rw [step_named ht hs (by simp [hmode]) (by simp [hmode]), htrivial, htop]
  simp [concrete, hignore, harrays]

/-! ## Erased comparisons -/

theorem trivial_eq_equalsIgnoringArrays {q : Query}
    (harrays : q.ignoreArrays = true ∨ q.target.arrays = 0 ∧ q.source.arrays = 0) :
    q.trivial = q.target.equalsIgnoringArrays q.source := by
  have hequal : q.target = q.source → q.target.equalsIgnoringArrays q.source = true := by
    intro heq
    simp [TypeExpr.equalsIgnoringArrays, heq]
  cases hsame : q.target.equalsIgnoringArrays q.source with
  | false =>
    have hne : q.target ≠ q.source := fun heq => by simp [hequal heq] at hsame
    simp [Query.trivial, hne, hsame]
  | true =>
    rcases harrays with hignore | ⟨htarget, hsource⟩
    · simp [Query.trivial, hignore, hsame]
    · have heq : q.target = q.source := by
        simp only [TypeExpr.equalsIgnoringArrays, Bool.and_eq_true, decide_eq_true_eq] at hsame
        cases htypes : q.target
        cases hsources : q.source
        simp_all
      simp [Query.trivial, heq]

section Erasure

variable {s : Setting} {recur : Answerer} {path : List Visit} {q : Query} {name own : String}
  (htarget : q.target.base = .nominal name) (hobject : name ≠ TypeExpr.objectName)
  (hsource : q.source.base = .nominal own) (hmode : q.mode = .erasure)
  (harrays : q.ignoreArrays = true ∨ q.target.arrays = 0 ∧ q.source.arrays = 0)

include htarget hobject hsource hmode harrays

theorem step_erasure :
    step s recur path q =
      if q.target.equalsIgnoringArrays q.source then .answer .equal
      else if name = own then .answer .sameType
      else differentNames s recur path q.target q.source name own .erasure := by
  have htop : q.topTakes = false := by
    simp [Query.topTakes, TypeExpr.isObject, TypeExpr.name?, htarget, hobject]
  rw [step_named htarget hsource (by simp [hmode]) (by simp [hmode]),
    trivial_eq_equalsIgnoringArrays harrays, htop, concrete_named htarget hsource harrays, hmode]
  simp [sameName]

theorem step_erasure_same (hname : name = own) :
    step s recur path q =
      .answer (if q.target.equalsIgnoringArrays q.source then .equal else .sameType) := by
  rw [step_erasure htarget hobject hsource hmode harrays, if_pos hname]
  split <;> rfl

/-- A target that is no functional interface is looked for among the supertypes. -/
theorem step_erasure_climb (hname : name ≠ own)
    (hfunctional : s.hierarchy.isFunctional name = false) {d : Declaration}
    (hd : s.hierarchy.require own = .ok d) :
    step s recur path q =
      guarded s path ⟨q.target, q.source, .erasure⟩ fun path =>
        firstHop (fun declared =>
          Outcome.ofExcept (s.hierarchy.directSupertype q.source declared) >>= fun concrete =>
            recur path ⟨q.target, concrete, true, .erasure⟩) (climbable d) := by
  have hdiffer : q.target.equalsIgnoringArrays q.source = false := by
    simp [TypeExpr.equalsIgnoringArrays, htarget, hsource, hname]
  rw [step_erasure htarget hobject hsource hmode harrays, hdiffer, if_neg hname]
  simp only [Bool.false_eq_true, ↓reduceIte, differentNames, hfunctional, Bool.false_and, climb,
    hd]
  rfl

end Erasure

/-! ## Declared supertypes to climb to -/

theorem mem_supertypes_of_climbable {d : Declaration} {t : TypeExpr} (ht : t ∈ climbable d) :
    t ∈ d.supertypes := by
  unfold climbable at ht
  unfold Declaration.supertypes
  rcases List.mem_append.mp ht with ht | ht
  · exact List.mem_append_left _ ht
  · refine List.mem_append_right _ ?_
    rw [Option.mem_toList, Option.filter_eq_some_iff] at ht
    simpa using ht.1

theorem mem_climbable_or_isObject {d : Declaration} {t : TypeExpr} (ht : t ∈ d.supertypes) :
    t ∈ climbable d ∨ t.isObject = true := by
  rcases List.mem_append.mp ht with hinterface | hparent
  · exact Or.inl (List.mem_append_left _ hinterface)
  · cases htop : t.isObject with
    | true => exact Or.inr rfl
    | false =>
      refine Or.inl (List.mem_append_right _ ?_)
      rw [Option.mem_toList] at hparent ⊢
      exact Option.filter_eq_some_iff.mpr ⟨hparent, by simp [htop]⟩

end Assignability

end Mutability
