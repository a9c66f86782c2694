import Mutability.Proofs.Derivability
import Mutability.Proofs.Resolution

/-!
# Ways up

A search for a named type goes up from the source: from a named type to its supertypes and from a
type parameter to its bounds (`above`). It ends at types that are compared with the target
themselves, and goes to none that is under way already.

`LeadsUp` says that a way up ends at a type that fits, and `Answered` that the search comes to a
result. Supertypes are tried in the order of declaration up to the first that leads to such a type,
so what stands behind it need not have a result; of bounds all are compared. Neither says anything
about depths or costs, and both are what a search does: `exists_compares_iff` and
`Compares.isAssignable_iff`.
-/

namespace Mutability

/-! ## Functional interfaces -/

namespace Hierarchy

variable {h : Hierarchy}

/-- Where both types are functional interfaces, their methods take the same parameters, and the
result is the same or not asked for. -/
def MethodsAgree (h : Hierarchy) (target source : TypeExpr) : Prop :=
  ∀ left right, h.signature? target = .ok (some left) → h.signature? source = .ok (some right) →
    left.parameters = right.parameters ∧ (left.returnsVoid = true ∨ left.result = right.result)

end Hierarchy

namespace Assignability

theorem compareSignatures_isAssignable_iff (left right : Signature) :
    (compareSignatures left right .covariant).isAssignable = true ↔
      left.parameters = right.parameters ∧
        (left.returnsVoid = true ∨ left.result = right.result) := by
  have hvoid : left.result = right.result → left.returnsVoid = right.returnsVoid :=
    fun hresult => by simp [Signature.returnsVoid, hresult]
  unfold compareSignatures
  split
  · rename_i hlength
    exact iff_of_false nofun fun hagree => hlength (congrArg List.length hagree.1)
  · split
    · rename_i hleft
      rw [Bool.and_eq_true, Bool.not_eq_true'] at hleft
      refine iff_of_false nofun fun hagree => ?_
      rcases hagree.2 with hresult | hresult
      · simp [hleft.1] at hresult
      · simpa [hleft] using hvoid hresult
    · split
      · contradiction
      · split
        · rename_i hagree
          exact iff_of_true rfl (by simpa [and_comm] using hagree)
        · rename_i hagree
          exact iff_of_false nofun (by simpa [and_comm] using hagree)

/-- Two functional interfaces are compared by their methods alone. -/
theorem exists_functional {s : Setting} {target source : TypeExpr}
    (ht : target.Every s.hierarchy.Knows) (hs : source.Every s.hierarchy.Knows)
    {targetName sourceName : String} (htarget : target.base = .nominal targetName)
    (hsource : source.base = .nominal sourceName)
    (hboth : (s.hierarchy.isFunctional targetName && s.hierarchy.isFunctional sourceName) = true) :
    ∃ d, functional s target source .covariant = .answer d ∧
      (d.isAssignable = true ↔ s.hierarchy.MethodsAgree target source) := by
  obtain ⟨left, hleft, hleftSome⟩ := Hierarchy.exists_signature? ht htarget
  obtain ⟨right, hright, hrightSome⟩ := Hierarchy.exists_signature? hs hsource
  rw [Bool.and_eq_true, ← hleftSome, ← hrightSome] at hboth
  obtain ⟨left, rfl⟩ := Option.isSome_iff_exists.mp hboth.1
  obtain ⟨right, rfl⟩ := Option.isSome_iff_exists.mp hboth.2
  refine ⟨compareSignatures left right .covariant, ?_, ?_⟩
  · unfold functional
    rw [hleft, hright]
    rfl
  · rw [compareSignatures_isAssignable_iff]
    simp [Hierarchy.MethodsAgree, hleft, hright]

/-! ## Ways -/

section Definitions

variable (h : Hierarchy) (reversed : List TypeParameter) (found : TypeExpr) (name : String)

/-- The comparison of the target with a type that the search comes to. -/
def ask (t : TypeExpr) : Query := ⟨found, t, true, .covariant⟩

/-- The visits under way where the search has gone up from the given types. -/
def underWay (under : List TypeExpr) : List Visit := under.map fun t => ⟨found, t, .covariant⟩

/-- The distance of a type while the search is above the given ones. -/
def Compares (under : List TypeExpr) (t : TypeExpr) (d : Distance) : Prop :=
  ∃ n, search ⟨h, reversed, true⟩ n (underWay found under) (ask found t) = .answer d

/-- A type of the same name, or a parameter that is compared the other way round. -/
def Direct (t : TypeExpr) : Prop :=
  t.base = .nominal name ∨ ∃ p ∈ reversed, t.base = .parameter p

/-- The types one step up. Between two functional interfaces there is none. -/
def above (t : TypeExpr) : List TypeExpr :=
  match t.base with
  | .nominal own =>
    if own = name ∨ h.isFunctional name = true ∧ h.isFunctional own = true then []
    else
      match h.find? own with
      | some d => (climbable d).filterMap fun declared => (h.directSupertype t declared).toOption
      | none => []
  | .parameter p => if p ∈ reversed then [] else h.boundsOf t
  | _ => []

/-- What is remembered of a type while the search is above it. -/
def footprint (t : TypeExpr) : TypeExpr :=
  match t.base with
  | .parameter p => .parameter p
  | _ => t

/-- The types that fit the target without a step up. -/
inductive Meets (under : List TypeExpr) (t : TypeExpr) : Prop where
  | direct {d : Distance} : Direct reversed name t → Compares h reversed found under t d →
      d.isAssignable = true → Meets under t
  | agrees {own : String} : t.base = .nominal own → own ≠ name → h.isFunctional name = true →
      h.isFunctional own = true → h.MethodsAgree found t → Meets under t
  | boxed {p : Primitive} : t.base = .primitive p → (p.boxing name).isAssignable = true →
      Meets under t
  | null : t.base = .null → Meets under t

/-- Some way up from a type, through none that is under way, ends at one that fits. -/
inductive LeadsUp : List TypeExpr → TypeExpr → Prop where
  | here {under : List TypeExpr} {t : TypeExpr} : Meets h reversed found name under t →
      LeadsUp under t
  | up {under : List TypeExpr} {t u : TypeExpr} : footprint t ∉ under →
      u ∈ above h reversed name t → LeadsUp (footprint t :: under) u → LeadsUp under t

/-- The search from a type has a result. The bounds of a parameter are known, and all types above
have a result, of supertypes those that come up to the first one that leads to a type that fits. -/
inductive Answered : List TypeExpr → TypeExpr → Prop where
  | direct {under : List TypeExpr} {t : TypeExpr} {d : Distance} : Direct reversed name t →
      Compares h reversed found under t d → Answered under t
  | up {under : List TypeExpr} {t : TypeExpr} : ¬ Direct reversed name t →
      (∀ p, t.parameter? = some p → ∃ bounds, h.bounds p = .ok bounds) →
      (footprint t ∉ under → ∀ before u after, above h reversed name t = before ++ u :: after →
        (t.parameter? = none →
          ∀ x ∈ before, ¬ LeadsUp h reversed found name (footprint t :: under) x) →
        Answered (footprint t :: under) u) →
      Answered under t

end Definitions

/-! ## Trying one type after the other -/

section Trying

variable {d : Distance}

theorem firstHop_filterMap {concrete : TypeExpr → Except Unresolved TypeExpr}
    {answer : TypeExpr → Outcome Distance} {ts : List TypeExpr}
    (hts : ∀ t ∈ ts, ∃ u, concrete t = .ok u) :
    firstHop (fun t => Outcome.ofExcept (concrete t) >>= answer) ts =
      firstHop answer (ts.filterMap fun t => (concrete t).toOption) := by
  induction ts with
  | nil => rfl
  | cons t ts ih =>
    obtain ⟨u, hu⟩ := hts t List.mem_cons_self
    have hrest := ih fun x hx => hts x (List.mem_cons_of_mem t hx)
    rw [List.filterMap_cons, hu, firstHop, hu, hrest]
    rfl

/-- A result of several candidates takes one from each before the first that is assignable. -/
theorem exists_answer_of_firstHop {answer : TypeExpr → Outcome Distance}
    {before after : List TypeExpr} {t : TypeExpr}
    (hd : firstHop answer (before ++ t :: after) = .answer d)
    (hbefore : ∀ x ∈ before, ¬ Accepted (answer x)) : ∃ e, answer t = .answer e := by
  induction before with
  | nil =>
    obtain ⟨e, he, -⟩ := Outcome.bind_eq_answer.mp hd
    exact ⟨e, he⟩
  | cons x before ih =>
    obtain ⟨e, he, -⟩ := Outcome.bind_eq_answer.mp hd
    have hrefused : ¬ e.isAssignable = true :=
      fun hassignable => hbefore x List.mem_cons_self ⟨e, he, hassignable⟩
    rw [List.cons_append, firstHop_cons he, if_neg hrefused] at hd
    exact ih hd fun y hy => hbefore y (List.mem_cons_of_mem x hy)

theorem exists_answer_of_bestOf {answer : Query → Outcome Distance} {qs : List Query}
    {best : Distance} (hd : bestOf answer qs best = .answer d) {q : Query} (hq : q ∈ qs) :
    ∃ e, answer q = .answer e := by
  induction qs generalizing best with
  | nil => cases hq
  | cons q' qs ih =>
    obtain ⟨e, he, hrest⟩ := Outcome.bind_eq_answer.mp hd
    rcases List.mem_cons.mp hq with rfl | hq
    · exact ⟨e, he⟩
    · exact ih hrest hq

section Deepening

variable {answer : Nat → Query → Outcome Distance}
  (hdeepens : ∀ q, Outcome.Deepens fun n => answer n q)

include hdeepens

theorem answer_of_le {n m : Nat} (hle : n ≤ m) {q : Query} (hq : answer n q = .answer d) :
    answer m q = .answer d := by
  rw [← hq]
  exact hdeepens q n m hle (by simp [hq])

theorem exists_firstHop_of_answers {f : TypeExpr → Query} {ts : List TypeExpr}
    (hts : ∀ before t after, ts = before ++ t :: after →
      (∀ x ∈ before, ∃ n, Refused (answer n (f x))) → ∃ n e, answer n (f t) = .answer e) :
    ∃ n e, firstHop (fun t => answer n (f t)) ts = .answer e := by
  induction ts with
  | nil => exact ⟨0, _, rfl⟩
  | cons t ts ih =>
    obtain ⟨n, e, he⟩ := hts [] t ts rfl (by simp)
    cases hassignable : e.isAssignable with
    | true =>
      refine ⟨n, Distance.hop.plus e, ?_⟩
      rw [firstHop_cons he, if_pos hassignable]
    | false =>
      have hrefused : ∃ m, Refused (answer m (f t)) := ⟨n, refused_of_answer he hassignable⟩
      obtain ⟨m, e', he'⟩ := ih fun before x after hsplit hbefore =>
        hts (t :: before) x after (by rw [hsplit]; rfl)
          (List.forall_mem_cons.mpr ⟨hrefused, hbefore⟩)
      refine ⟨max n m, e', ?_⟩
      rw [firstHop_cons (answer_of_le hdeepens (Nat.le_max_left n m) he), hassignable]
      have hext : (firstHop (fun t => answer m (f t)) ts).ExtendsTo
          (firstHop (fun t => answer (max n m) (f t)) ts) :=
        firstHop_relates Outcome.sequential_extendsTo fun x _ =>
          hdeepens (f x) m (max n m) (Nat.le_max_right n m)
      simpa [he'] using hext (by simp [he'])

theorem exists_bestOf_of_answers {qs : List Query}
    (hqs : ∀ q ∈ qs, ∃ n e, answer n q = .answer e) (best : Distance) :
    ∃ n e, bestOf (answer n) qs best = .answer e := by
  induction qs generalizing best with
  | nil => exact ⟨0, best, rfl⟩
  | cons q qs ih =>
    obtain ⟨n, e, he⟩ := hqs q List.mem_cons_self
    obtain ⟨m, e', he'⟩ := ih (fun x hx => hqs x (List.mem_cons_of_mem q hx)) (best.better e)
    refine ⟨max n m, e', ?_⟩
    have hext : (bestOf (answer m) qs (best.better e)).ExtendsTo
        (bestOf (answer (max n m)) qs (best.better e)) :=
      bestOf_relates Outcome.sequential_extendsTo
        (fun x _ => hdeepens x m (max n m) (Nat.le_max_right n m)) _
    rw [bestOf, answer_of_le hdeepens (Nat.le_max_left n m) he]
    exact (hext (by simp [he'])).trans he'

end Deepening

end Trying

section TryAbove

variable (h : Hierarchy) (reversed : List TypeParameter) (found : TypeExpr) (name : String) in
/-- Tries the types one step up: all bounds of a parameter, supertypes up to the first that fits. -/
def tryAbove (answer : Query → Outcome Distance) (t : TypeExpr) : Outcome Distance :=
  if t.parameter? = none then firstHop (fun u => answer (ask found u)) (above h reversed name t)
  else bestOf answer ((above h reversed name t).map (ask found)) .notAssignable

variable {h : Hierarchy} {reversed : List TypeParameter} {found : TypeExpr} {name : String}
  {t : TypeExpr} {d : Distance}

theorem tryAbove_decides {answer : Query → Outcome Distance}
    (hd : tryAbove h reversed found name answer t = .answer d) :
    (d.isAssignable = true ∧ ∃ u ∈ above h reversed name t, Accepted (answer (ask found u))) ∨
      (d.isAssignable = false ∧
        ∀ u ∈ above h reversed name t, Refused (answer (ask found u))) := by
  unfold tryAbove at hd
  split_ifs at hd
  · exact firstHop_decides hd
  · rcases bestOf_decides hd with ⟨hsome, hbest | ⟨q, hq, haccepted⟩⟩ | ⟨hnone, -, hqs⟩
    · cases hbest
    · obtain ⟨u, hu, rfl⟩ := List.mem_map.mp hq
      exact Or.inl ⟨hsome, u, hu, haccepted⟩
    · exact Or.inr ⟨hnone, fun u hu => hqs _ (List.mem_map_of_mem hu)⟩

theorem exists_answer_of_tryAbove {answer : Query → Outcome Distance}
    (hd : tryAbove h reversed found name answer t = .answer d) {before after : List TypeExpr}
    {u : TypeExpr} (hsplit : above h reversed name t = before ++ u :: after)
    (hbefore : t.parameter? = none → ∀ x ∈ before, ¬ Accepted (answer (ask found x))) :
    ∃ e, answer (ask found u) = .answer e := by
  unfold tryAbove at hd
  split_ifs at hd with hparameter
  · rw [hsplit] at hd
    exact exists_answer_of_firstHop hd (hbefore hparameter)
  · exact exists_answer_of_bestOf hd (List.mem_map_of_mem (by rw [hsplit]; simp))

theorem exists_tryAbove {answer : Nat → Query → Outcome Distance}
    (hdeepens : ∀ q, Outcome.Deepens fun n => answer n q)
    (habove : ∀ before u after, above h reversed name t = before ++ u :: after →
      (t.parameter? = none → ∀ x ∈ before, ∃ n, Refused (answer n (ask found x))) →
      ∃ n e, answer n (ask found u) = .answer e) :
    ∃ n e, tryAbove h reversed found name (answer n) t = .answer e := by
  unfold tryAbove
  split_ifs with hparameter
  · exact exists_firstHop_of_answers hdeepens fun before u after hsplit hbefore =>
      habove before u after hsplit fun _ => hbefore
  · refine exists_bestOf_of_answers hdeepens (fun q hq => ?_) _
    obtain ⟨u, hu, rfl⟩ := List.mem_map.mp hq
    obtain ⟨before, after, hsplit⟩ := List.append_of_mem hu
    exact habove before u after hsplit fun hnone => absurd hnone hparameter

end TryAbove

/-! ## Where ways end -/

section Ways

variable {h : Hierarchy} {reversed : List TypeParameter} {found : TypeExpr} {name : String}
  {under : List TypeExpr} {t : TypeExpr}

theorem Compares.unique {d e : Distance} (hd : Compares h reversed found under t d)
    (he : Compares h reversed found under t e) : d = e := by
  obtain ⟨n, hn⟩ := hd
  obtain ⟨m, hm⟩ := he
  have hdeepens := deepens_search ⟨h, reversed, true⟩ (underWay found under) (ask found t)
  have heq := hdeepens.eq_of_finished (n := n) (m := m) (by simp [hn]) (by simp [hm])
  rw [hn, hm] at heq
  exact Outcome.answer.inj heq

theorem Direct.above_eq_nil (hdirect : Direct reversed name t) : above h reversed name t = [] := by
  rcases hdirect with hname | ⟨p, hp, hbase⟩
  · simp [above, hname]
  · simp [above, hbase, hp]

theorem above_eq_filterMap {own : String} {d : Declaration} (hbase : t.base = .nominal own)
    (hne : own ≠ name) (hboth : ¬ (h.isFunctional name = true ∧ h.isFunctional own = true))
    (hd : h.find? own = some d) :
    above h reversed name t =
      (climbable d).filterMap fun declared => (h.directSupertype t declared).toOption := by
  simp only [above, hbase, hd, if_neg (not_or.mpr ⟨hne, hboth⟩)]

/-- A type that is compared itself fits if its own distance is assignable. -/
theorem Direct.meets_iff (hdirect : Direct reversed name t) {d : Distance}
    (hd : Compares h reversed found under t d) :
    Meets h reversed found name under t ↔ d.isAssignable = true := by
  refine ⟨fun hmeets => ?_, .direct hdirect hd⟩
  rcases hmeets with ⟨-, he, hassignable⟩ | ⟨hown, hne, -, -, -⟩ | ⟨hp, -⟩ | hnull
  · rwa [hd.unique he]
  · rcases hdirect with hname | ⟨p, -, hbase⟩
    · exact absurd (by simpa [hown] using hname) hne
    · simp [hown] at hbase
  · rcases hdirect with hname | ⟨p, -, hbase⟩ <;> simp_all
  · rcases hdirect with hname | ⟨p, -, hbase⟩ <;> simp_all

theorem meets_primitive_iff {p : Primitive} (hbase : t.base = .primitive p) :
    Meets h reversed found name under t ↔ (p.boxing name).isAssignable = true := by
  refine ⟨fun hmeets => ?_, .boxed hbase⟩
  rcases hmeets with ⟨hname | ⟨_, -, hp⟩, -, -⟩ | ⟨hown, -, -, -, -⟩ | ⟨hp, hassignable⟩ | hnull
  · simp [hbase] at hname
  · simp [hbase] at hp
  · simp [hbase] at hown
  · cases hbase.symm.trans hp
    exact hassignable
  · simp [hbase] at hnull

theorem meets_functional_iff {own : String} (hbase : t.base = .nominal own) (hne : own ≠ name)
    (hboth : h.isFunctional name = true ∧ h.isFunctional own = true) :
    Meets h reversed found name under t ↔ h.MethodsAgree found t := by
  refine ⟨fun hmeets => ?_, .agrees hbase hne hboth.1 hboth.2⟩
  rcases hmeets with ⟨hname | ⟨_, -, hp⟩, -, -⟩ | ⟨-, -, -, -, hagree⟩ | ⟨hp, -⟩ | hnull
  · exact absurd (by simpa [hbase] using hname) hne
  · simp [hbase] at hp
  · exact hagree
  · simp [hbase] at hp
  · simp [hbase] at hnull

/-- Of the types that are not compared themselves, functional interfaces, primitive types and `null`
may fit. -/
theorem not_meets (hdirect : ¬ Direct reversed name t)
    (hfunctional : ∀ own, t.base = .nominal own →
      ¬ (h.isFunctional name = true ∧ h.isFunctional own = true))
    (hprimitive : t.primitive? = none) (hnull : t.base ≠ .null) :
    ¬ Meets h reversed found name under t := by
  rintro (⟨hname, -, -⟩ | ⟨hown, -, hname, hsource, -⟩ | ⟨hp, -⟩ | hbase)
  · exact hdirect hname
  · exact hfunctional _ hown ⟨hname, hsource⟩
  · simp [TypeExpr.primitive?, hp] at hprimitive
  · exact hnull hbase

theorem leadsUp_iff_meets (habove : above h reversed name t = []) :
    LeadsUp h reversed found name under t ↔ Meets h reversed found name under t := by
  refine ⟨fun hleads => ?_, .here⟩
  cases hleads with
  | here hmeets => exact hmeets
  | up _ hu => simp [habove] at hu

theorem leadsUp_iff_above (hmeets : ¬ Meets h reversed found name under t) :
    LeadsUp h reversed found name under t ↔ footprint t ∉ under ∧
      ∃ u ∈ above h reversed name t, LeadsUp h reversed found name (footprint t :: under) u := by
  constructor
  · intro hleads
    cases hleads with
    | here hfits => exact absurd hfits hmeets
    | up hopen hu hrest => exact ⟨hopen, _, hu, hrest⟩
  · rintro ⟨hopen, u, hu, hrest⟩
    exact .up hopen hu hrest

/-- What stands above a named type is one of its declared supertypes as seen from it. -/
theorem declared_of_mem_above {own : String} {u : TypeExpr} (hbase : t.base = .nominal own)
    (hu : u ∈ above h reversed name t) :
    ∃ d declared, h.find? own = some d ∧ declared ∈ climbable d ∧
      h.directSupertype t declared = .ok u := by
  simp only [above, hbase] at hu
  split_ifs at hu with hstops
  · simp at hu
  · cases hd : h.find? own with
    | none => simp [hd] at hu
    | some d =>
      rw [hd] at hu
      obtain ⟨declared, hdeclared, hok⟩ := List.mem_filterMap.mp hu
      refine ⟨d, declared, rfl, hdeclared, ?_⟩
      cases hv : h.directSupertype t declared with
      | error fault => simp [hv, Except.toOption] at hok
      | ok v =>
        rw [hv] at hok
        cases hok
        rfl

theorem bounds_of_mem_above {p : TypeParameter} {u : TypeExpr} (hbase : t.base = .parameter p)
    (hu : u ∈ above h reversed name t) : ∃ bounds, h.bounds p = .ok bounds ∧ u ∈ bounds := by
  simp only [above, hbase, Hierarchy.boundsOf, TypeExpr.parameter?] at hu
  split_ifs at hu with hp
  · simp at hu
  · cases hbounds : h.bounds p with
    | error fault => simp [hbounds, Except.toOption] at hu
    | ok bounds => exact ⟨bounds, rfl, by simpa [hbounds, Except.toOption] using hu⟩

end Ways

/-! ## One step of the search -/

theorem contains_underWay {found t : TypeExpr} {under : List TypeExpr} :
    (underWay found under).contains ⟨found, t, .covariant⟩ = decide (t ∈ under) := by
  simp [underWay]

section Turn

variable (h : Hierarchy) (reversed : List TypeParameter) (found : TypeExpr) (name : String) in
/-- What a search does at a type. -/
inductive Turn (t : TypeExpr) : Prop where
  | direct : Direct reversed name t → Turn t
  | decided {d : Distance} : ¬ Direct reversed name t → t.parameter? = none →
      above h reversed name t = [] →
      (∀ n path, search ⟨h, reversed, true⟩ (n + 1) path (ask found t) = .answer d) →
      (∀ under, Meets h reversed found name under t ↔ d.isAssignable = true) → Turn t
  | fault {p : TypeParameter} {fault : Unresolved} : ¬ Direct reversed name t →
      t.parameter? = some p → h.bounds p = .error fault →
      (∀ n path, search ⟨h, reversed, true⟩ (n + 1) path (ask found t) = .unresolved fault) →
      Turn t
  | onward : ¬ Direct reversed name t →
      (∀ p, t.parameter? = some p → ∃ bounds, h.bounds p = .ok bounds) →
      (∀ under, ¬ Meets h reversed found name under t) →
      (∀ n under, search ⟨h, reversed, true⟩ (n + 1) (underWay found under) (ask found t) =
        if footprint t ∈ under then .answer .notAssignable
        else tryAbove h reversed found name
          (search ⟨h, reversed, true⟩ n (underWay found (footprint t :: under))) t) →
      Turn t

variable {h : Hierarchy} {reversed : List TypeParameter} {found : TypeExpr} {name : String}
  (hfound : found.base = .nominal name) (hobject : name ≠ TypeExpr.objectName) {t : TypeExpr}

include hfound hobject

theorem topTakes_ask : (ask found t).topTakes = false := by
  simp [Query.topTakes, ask, TypeExpr.isObject, TypeExpr.name?, hfound, hobject]

theorem step_ask {s : Setting} {recur : Answerer} {path : List Visit} (hbase : t.base ≠ found.base)
    (hnull : t.base ≠ .null) :
    step s recur path (ask found t) = byBase s recur path (ask found t) := by
  have htrivial : (ask found t).trivial = false := by
    have hne : found ≠ t := fun heq => hbase (by rw [heq])
    simp [Query.trivial, ask, hne, TypeExpr.equalsIgnoringArrays, hbase.symm]
  have hwild : (ask found t).target.isUnboundWildcard = false := by
    simp [ask, TypeExpr.isUnboundWildcard, hfound]
  have hsource : (ask found t).source.isNull = false := by simp [ask, TypeExpr.isNull, hnull]
  have hmode : (ask found t).mode = .covariant := rfl
  unfold step
  rw [htrivial, hsource, hmode]
  simp only [Bool.false_eq_true, ↓reduceIte]
  unfold directed
  rw [topTakes_ask hfound hobject, hwild]
  simp

theorem search_ask_primitive {p : Primitive} (hbase : t.base = .primitive p) (n : Nat)
    (path : List Visit) :
    search ⟨h, reversed, true⟩ (n + 1) path (ask found t) = .answer (p.boxing name) := by
  rw [search, step_ask hfound hobject (by simp [hbase, hfound]) (by simp [hbase])]
  simp [byBase, concrete, ask, hfound, hbase]

theorem search_ask_wildcard (hbase : t.base = .wildcard) (n : Nat) (path : List Visit) :
    search ⟨h, reversed, true⟩ (n + 1) path (ask found t) = .answer .notAssignable := by
  rw [search, step_ask hfound hobject (by simp [hbase, hfound]) (by simp [hbase])]
  simp [byBase, ask, hfound, hbase]

omit hobject in
theorem search_ask_null (hbase : t.base = .null) (n : Nat) (path : List Visit) :
    search ⟨h, reversed, true⟩ (n + 1) path (ask found t) = .answer .nullLiteral := by
  have hne : found ≠ t := fun heq => by simp [heq, hbase] at hfound
  simp [search, step, Query.trivial, ask, hne, TypeExpr.equalsIgnoringArrays, hfound, hbase,
    TypeExpr.isNull, TypeExpr.isPrimitive, TypeExpr.primitive?]

theorem search_ask_fault {p : TypeParameter} {fault : Unresolved} (hbase : t.base = .parameter p)
    (hp : p ∉ reversed) (hbounds : h.bounds p = .error fault) (n : Nat) (path : List Visit) :
    search ⟨h, reversed, true⟩ (n + 1) path (ask found t) = .unresolved fault := by
  rw [search, step_ask hfound hobject (by simp [hbase, hfound]) (by simp [hbase])]
  simp only [byBase, ask, hfound, hbase, parameterSource, List.contains_iff_mem, hp, ↓reduceIte,
    hbounds]
  rfl

theorem search_ask_bounds {p : TypeParameter} {bounds : List TypeExpr}
    (hbase : t.base = .parameter p) (hp : p ∉ reversed) (hbounds : h.bounds p = .ok bounds)
    (n : Nat) (under : List TypeExpr) :
    search ⟨h, reversed, true⟩ (n + 1) (underWay found under) (ask found t) =
      if footprint t ∈ under then .answer .notAssignable
      else tryAbove h reversed found name
        (search ⟨h, reversed, true⟩ n (underWay found (footprint t :: under))) t := by
  have hprint : footprint t = .parameter p := by simp [footprint, hbase]
  have habove : above h reversed name t = bounds := by
    simp [above, hbase, hp, Hierarchy.boundsOf, TypeExpr.parameter?, hbounds, Except.toOption]
  have htry : ∀ answer, tryAbove h reversed found name answer t =
      bestOf answer (bounds.map (ask found)) .notAssignable := by
    intro answer
    rw [tryAbove, habove, if_neg (by simp [TypeExpr.parameter?, hbase])]
  rw [htry, hprint, search,
    step_ask hfound hobject (by simp [hbase, hfound]) (by simp [hbase])]
  simp only [byBase, ask, hfound, hbase, parameterSource, List.contains_iff_mem, hp, ↓reduceIte,
    hbounds, guarded, contains_underWay, Bool.true_and, decide_eq_true_eq]
  rfl

theorem search_ask_climb {own : String} {d : Declaration} (ht : t.Every h.Knows)
    (hbase : t.base = .nominal own) (hne : own ≠ name) (hd : h.find? own = some d)
    (hboth : ¬ (h.isFunctional name = true ∧ h.isFunctional own = true))
    (n : Nat) (under : List TypeExpr) :
    search ⟨h, reversed, true⟩ (n + 1) (underWay found under) (ask found t) =
      if footprint t ∈ under then .answer .notAssignable
      else tryAbove h reversed found name
        (search ⟨h, reversed, true⟩ n (underWay found (footprint t :: under))) t := by
  have hprint : footprint t = t := by simp [footprint, hbase]
  have htry : ∀ answer, tryAbove h reversed found name answer t =
      firstHop (fun u => answer (ask found u))
        ((climbable d).filterMap fun declared => (h.directSupertype t declared).toOption) := by
    intro answer
    rw [tryAbove, above_eq_filterMap hbase hne hboth hd,
      if_pos (by simp [TypeExpr.parameter?, hbase])]
  rw [htry, hprint, search,
    step_climb hfound hbase (Ne.symm hne) rfl (Or.inl rfl) hd (by simpa using hboth),
    topTakes_ask hfound hobject,
    ← firstHop_filterMap fun declared _ => Hierarchy.exists_directSupertype ht declared]
  simp only [ask, contains_underWay, Bool.false_eq_true, ↓reduceIte, Bool.true_and,
    decide_eq_true_eq]
  rfl

variable (reversed) in
/-- A type is compared itself, decided at once, or led on from, unless it is a parameter whose
bounds are not known. -/
theorem turn (hbuilt : h.FromPlatform) (hknown : found.Every h.Knows) (ht : t.Every h.Knows) :
    Turn h reversed found name t := by
  by_cases hdirect : Direct reversed name t
  · exact .direct hdirect
  · cases hbase : t.base with
    | primitive p =>
      exact .decided hdirect (by simp [TypeExpr.parameter?, hbase]) (by simp [above, hbase])
        (search_ask_primitive hfound hobject hbase) fun under => meets_primitive_iff hbase
    | null =>
      exact .decided hdirect (by simp [TypeExpr.parameter?, hbase]) (by simp [above, hbase])
        (search_ask_null hfound hbase) fun under => iff_of_true (.null hbase) rfl
    | wildcard =>
      refine .decided hdirect (by simp [TypeExpr.parameter?, hbase]) (by simp [above, hbase])
        (search_ask_wildcard hfound hobject hbase) fun under => iff_of_false ?_ Bool.false_ne_true
      exact not_meets hdirect (by simp [hbase]) (by simp [TypeExpr.primitive?, hbase])
        (by simp [hbase])
    | parameter p =>
      have hp : p ∉ reversed := fun hmem => hdirect (Or.inr ⟨p, hmem, hbase⟩)
      have hparameter : t.parameter? = some p := by simp [TypeExpr.parameter?, hbase]
      cases hbounds : h.bounds p with
      | error fault =>
        exact .fault hdirect hparameter hbounds
          (search_ask_fault hfound hobject hbase hp hbounds)
      | ok bounds =>
        refine .onward hdirect ?_ ?_ (search_ask_bounds hfound hobject hbase hp hbounds)
        · intro p' hp'
          cases hparameter.symm.trans hp'
          exact ⟨bounds, hbounds⟩
        · exact fun under => not_meets hdirect (by simp [hbase])
            (by simp [TypeExpr.primitive?, hbase]) (by simp [hbase])
    | nominal own =>
      have hne : own ≠ name := fun heq => hdirect (Or.inl (heq ▸ hbase))
      have hparameter : t.parameter? = none := by simp [TypeExpr.parameter?, hbase]
      by_cases hboth : h.isFunctional name = true ∧ h.isFunctional own = true
      · have hand : (h.isFunctional name && h.isFunctional own) = true := by simpa using hboth
        obtain ⟨d, hd, hiff⟩ := exists_functional (s := ⟨h, reversed, true⟩) hknown ht hfound hbase
          hand
        refine .decided (d := d) hdirect hparameter ?_ (fun n path => ?_) fun under => ?_
        · simp [above, hbase, hboth]
        · rw [search, ← hd]
          exact step_functional hfound hbase (Ne.symm hne) rfl (Or.inl rfl) hbuilt hand
        · rw [hiff, meets_functional_iff hbase hne hboth]
      · obtain ⟨d, hd, -⟩ := Hierarchy.exists_require (Hierarchy.declares_of_every ht hbase)
        refine .onward hdirect (by simp [hparameter]) (fun under => ?_)
          (search_ask_climb hfound hobject ht hbase hne hd hboth)
        refine not_meets hdirect (fun own' hown => ?_) (by simp [TypeExpr.primitive?, hbase])
          (by simp [hbase])
        cases hbase.symm.trans hown
        exact hboth

end Turn

/-! ## The search over all ways -/

section Results

/-- All names in the hierarchy are declared, and the target is a named type over such names other
than the top one. -/
structure Sought (h : Hierarchy) (found : TypeExpr) (name : String) : Prop where
  built : h.FromPlatform
  closed : h.Closed
  methods : ∀ b ∈ h.methodBounds, ∀ n ∈ b.names, h.Declares n
  base_eq : found.base = .nominal name
  ne_object : name ≠ TypeExpr.objectName
  known : found.Every h.Knows

variable {h : Hierarchy} {reversed : List TypeParameter} {found : TypeExpr} {name : String}
  (hsought : Sought h found name) {under : List TypeExpr} {t : TypeExpr}

include hsought

variable (reversed) in
theorem Sought.turn (ht : t.Every h.Knows) : Turn h reversed found name t :=
  Assignability.turn reversed hsought.base_eq hsought.ne_object hsought.built hsought.known ht

/-- No way up leads out of what is declared. -/
theorem Sought.known_above (ht : t.Every h.Knows) {u : TypeExpr}
    (hu : u ∈ above h reversed name t) : u.Every h.Knows := by
  cases hbase : t.base with
  | nominal own =>
    obtain ⟨d, declared, hd, hdeclared, hok⟩ := declared_of_mem_above hbase hu
    exact Hierarchy.directSupertype_every hsought.built.boxClosed ht
      (hsought.closed.supertype hd (mem_supertypes_of_climbable hdeclared)) hok
  | parameter p =>
    obtain ⟨bounds, hbounds, hmem⟩ := bounds_of_mem_above hbase hu
    obtain ⟨formal, hformal, rfl⟩ := Hierarchy.exists_formal_of_bounds hbounds
    rcases Hierarchy.mem_of_bound hformal hmem with ⟨d, hd, htypes⟩ | hmethod
    · exact hsought.closed.declared hd htypes
    · exact Hierarchy.every_knows (hsought.methods u hmethod)
  | primitive | null | wildcard => simp [above, hbase] at hu

/-- A distance is assignable exactly if some way up leads to a type that fits. -/
theorem Compares.isAssignable_iff {d : Distance} (ht : t.Every h.Knows)
    (hd : Compares h reversed found under t d) :
    d.isAssignable = true ↔ LeadsUp h reversed found name under t := by
  obtain ⟨n, hn⟩ := hd
  induction n generalizing under t d with
  | zero => cases hn
  | succ n ih =>
    cases hsought.turn reversed ht with
    | direct hdirect =>
      rw [leadsUp_iff_meets hdirect.above_eq_nil, hdirect.meets_iff ⟨n + 1, hn⟩]
    | decided _ _ habove hsearch hmeets =>
      rw [hsearch] at hn
      cases hn
      rw [leadsUp_iff_meets habove, hmeets]
    | fault _ _ _ hsearch =>
      rw [hsearch] at hn
      cases hn
    | onward _ _ hmeets hsearch =>
      rw [leadsUp_iff_above (hmeets under)]
      rw [hsearch] at hn
      split_ifs at hn with hmem
      · cases hn
        exact iff_of_false nofun fun hleads => hleads.1 hmem
      · have hstep : ∀ u ∈ above h reversed name t, ∀ e,
            search ⟨h, reversed, true⟩ n (underWay found (footprint t :: under)) (ask found u) =
              .answer e →
            (e.isAssignable = true ↔ LeadsUp h reversed found name (footprint t :: under) u) :=
          fun u hu e => ih (hsought.known_above ht hu)
        rcases tryAbove_decides hn with ⟨hsome, u, hu, e, he, haccepted⟩ | ⟨hnone, hrefused⟩
        · exact iff_of_true hsome ⟨hmem, u, hu, (hstep u hu e he).mp haccepted⟩
        · refine iff_of_false (by simp [hnone]) ?_
          rintro ⟨-, u, hu, hleads⟩
          cases (hstep u hu _ (hrefused u hu)).mpr hleads

theorem answered_of_search {n : Nat} {d : Distance} (ht : t.Every h.Knows)
    (hn : search ⟨h, reversed, true⟩ n (underWay found under) (ask found t) = .answer d) :
    Answered h reversed found name under t := by
  induction n generalizing under t d with
  | zero => cases hn
  | succ n ih =>
    cases hsought.turn reversed ht with
    | direct hdirect => exact .direct hdirect ⟨n + 1, hn⟩
    | decided hdirect hparameter habove =>
      exact .up hdirect (by simp [hparameter]) (by simp [habove])
    | fault _ _ _ hsearch =>
      rw [hsearch] at hn
      cases hn
    | onward hdirect hbounds _ hsearch =>
      refine .up hdirect hbounds fun hopen before u after hsplit hbefore => ?_
      have hknown : ∀ x ∈ before ++ u :: after, x.Every h.Knows :=
        fun x hx => hsought.known_above ht (hsplit ▸ hx)
      rw [hsearch, if_neg hopen] at hn
      obtain ⟨e, he⟩ := exists_answer_of_tryAbove hn hsplit fun hparameter x hx haccepted => by
        obtain ⟨e, he, hassignable⟩ := haccepted
        have hcompares : Compares h reversed found (footprint t :: under) x e := ⟨n, he⟩
        refine hbefore hparameter x hx ?_
        exact (hcompares.isAssignable_iff hsought (hknown x (by simp [hx]))).mp hassignable
      exact ih (hknown u (by simp)) he

theorem exists_compares_of_answered (ht : t.Every h.Knows)
    (hanswered : Answered h reversed found name under t) :
    ∃ d, Compares h reversed found under t d := by
  induction hanswered with
  | direct _ hd => exact ⟨_, hd⟩
  | @up under t hdirect hbounds _ ih =>
    cases hsought.turn reversed ht with
    | direct hname => exact absurd hname hdirect
    | decided _ _ _ hsearch => exact ⟨_, 1, hsearch 0 _⟩
    | fault _ hp hfault =>
      obtain ⟨bounds, hok⟩ := hbounds _ hp
      cases hfault.symm.trans hok
    | onward _ _ _ hsearch =>
      by_cases hopen : footprint t ∈ under
      · refine ⟨.notAssignable, 1, ?_⟩
        rw [hsearch, if_pos hopen]
      · obtain ⟨n, e, he⟩ := exists_tryAbove (deepens_search ⟨h, reversed, true⟩ _)
          fun before u after hsplit hbefore => by
            have hknown : ∀ x ∈ before ++ u :: after, x.Every h.Knows :=
              fun x hx => hsought.known_above ht (hsplit ▸ hx)
            have hrest : t.parameter? = none →
                ∀ x ∈ before, ¬ LeadsUp h reversed found name (footprint t :: under) x := by
              intro hparameter x hx hleads
              obtain ⟨m, hrefused⟩ := hbefore hparameter x hx
              have hcompares : Compares h reversed found (footprint t :: under) x .notAssignable :=
                ⟨m, hrefused⟩
              cases (hcompares.isAssignable_iff hsought (hknown x (by simp [hx]))).mpr hleads
            obtain ⟨e, n, he⟩ := ih hopen before u after hsplit hrest (hknown u (by simp))
            exact ⟨n, e, he⟩
        exact ⟨e, n + 1, by rw [hsearch, if_neg hopen]; exact he⟩

/-- The search from a type has a result exactly if it is answered. -/
theorem exists_compares_iff (ht : t.Every h.Knows) :
    (∃ d, Compares h reversed found under t d) ↔ Answered h reversed found name under t := by
  constructor
  · rintro ⟨d, n, hn⟩
    exact answered_of_search hsought ht hn
  · exact exists_compares_of_answered hsought ht

end Results

end Assignability

end Mutability
