import Mutability.Proofs.ReentryGuard

/-!
# Types that fit

A query fits if its move is decided in favour by further queries that fit, in finitely many steps
(`Fits`). Visits under way do not enter here, nor the order of the queries. The guarded search
decides just this: an answer is assignable if and only if the query fits (`solve_isAssignable_iff`).

That a query with an assignable answer fits is seen along the search. Conversely, a query that fits
does so by a derivation of least depth, and the search can follow it: a visit that is entered again
would stand for a query that fits as early (`Unmet.visit_ne`). As with the guard itself, the
wildcard that a visit leaves out needs care. It can only decide a comparison with a source that
stays the same on all the way (`Steady`).
-/

namespace Mutability.Assignability

/-! ## Derivations -/

/-- The move is decided in favour, given which queries fit. -/
def Move.Granted (h : Hierarchy) (fits : Query → Prop) : Move → Prop
  | done result => ∃ d, result = .ok d ∧ d.isAssignable = true
  | pass q => fits q
  | either q q' => fits q ∨ fits q'
  | sum qs => ∀ q ∈ qs, fits q
  | bounds _ qs => ∃ q ∈ qs, fits q
  | climb visit declared => ∃ q ∈ (climb visit declared).asked h, fits q

/-- The query fits by a derivation of at most this depth. -/
def FitsWithin (h : Hierarchy) (reversed : List TypeParameter) : Nat → Query → Prop
  | 0, _ => False
  | n + 1, q => (move h reversed q).Granted h (FitsWithin h reversed n)

/-- The query fits. -/
def Fits (h : Hierarchy) (reversed : List TypeParameter) (q : Query) : Prop :=
  ∃ n, FitsWithin h reversed n q

variable {h : Hierarchy} {reversed : List TypeParameter}

theorem Move.Granted.mono {m : Move} {fits fits' : Query → Prop} (hm : m.Granted h fits)
    (hfits : ∀ q ∈ m.asked h, fits q → fits' q) : m.Granted h fits' := by
  cases m with
  | done result => exact hm
  | pass q => exact hfits q (by simp [asked]) hm
  | either q q' => exact hm.imp (hfits q (by simp [asked])) (hfits q' (by simp [asked]))
  | sum qs => exact fun q hq => hfits q hq (hm q hq)
  | bounds v qs =>
    obtain ⟨q, hq, hfit⟩ := hm
    exact ⟨q, hq, hfits q hq hfit⟩
  | climb v declared =>
    obtain ⟨q, hq, hfit⟩ := hm
    exact ⟨q, hq, hfits q hq hfit⟩

theorem FitsWithin.mono {n m : Nat} {q : Query} (hn : FitsWithin h reversed n q) (hle : n ≤ m) :
    FitsWithin h reversed m q := by
  induction n generalizing m q with
  | zero => exact hn.elim
  | succ n ih =>
    obtain ⟨m, rfl⟩ := Nat.exists_eq_add_of_le' (Nat.lt_of_lt_of_le (Nat.succ_pos n) hle)
    exact Move.Granted.mono hn fun q' _ hq' => ih hq' (by omega)

theorem FitsWithin.congr {n : Nat} {q q' : Query} (hn : FitsWithin h reversed n q)
    (hmove : move h reversed q = move h reversed q') : FitsWithin h reversed n q' := by
  cases n with
  | zero => exact hn.elim
  | succ n =>
    unfold FitsWithin at hn ⊢
    exact hmove ▸ hn

theorem exists_fitsWithin_forall {qs : List Query} (hqs : ∀ q ∈ qs, Fits h reversed q) :
    ∃ n, ∀ q ∈ qs, FitsWithin h reversed n q := by
  induction qs with
  | nil => exact ⟨0, by simp⟩
  | cons q qs ih =>
    obtain ⟨n, hn⟩ := hqs q List.mem_cons_self
    obtain ⟨m, hm⟩ := ih fun x hx => hqs x (List.mem_cons_of_mem q hx)
    refine ⟨max n m, fun x hx => ?_⟩
    rcases List.mem_cons.mp hx with rfl | hx
    · exact hn.mono (Nat.le_max_left n m)
    · exact (hm x hx).mono (Nat.le_max_right n m)

theorem Move.Granted.exists_within {m : Move} (hm : m.Granted h (Fits h reversed)) :
    ∃ n, m.Granted h (FitsWithin h reversed n) := by
  cases m with
  | done result => exact ⟨0, hm⟩
  | pass q => exact hm
  | either q q' =>
    rcases hm with ⟨n, hn⟩ | ⟨n, hn⟩
    · exact ⟨n, Or.inl hn⟩
    · exact ⟨n, Or.inr hn⟩
  | sum qs => exact exists_fitsWithin_forall hm
  | bounds v qs =>
    obtain ⟨q, hq, n, hn⟩ := hm
    exact ⟨n, q, hq, hn⟩
  | climb v declared =>
    obtain ⟨q, hq, n, hn⟩ := hm
    exact ⟨n, q, hq, hn⟩

/-- A query fits exactly if its move does. -/
theorem fits_iff {q : Query} :
    Fits h reversed q ↔ (move h reversed q).Granted h (Fits h reversed) := by
  constructor
  · rintro ⟨n, hn⟩
    cases n with
    | zero => exact hn.elim
    | succ n => exact Move.Granted.mono hn fun q' _ hq' => ⟨n, hq'⟩
  · intro hmove
    obtain ⟨n, hn⟩ := hmove.exists_within
    exact ⟨n + 1, hn⟩

/-! ## Answers of a move -/

/-- The outcome is that the types fit. -/
def Accepted (x : Outcome Distance) : Prop := ∃ d, x = .answer d ∧ d.isAssignable = true

/-- The outcome is that the types do not fit. -/
def Refused (x : Outcome Distance) : Prop := x = .answer .notAssignable

theorem refused_of_answer {x : Outcome Distance} {d : Distance} (hx : x = .answer d)
    (hd : d.isAssignable = false) : Refused x := by
  cases d with
  | notAssignable => exact hx
  | cost n => cases hd

section Answers

variable {d : Distance}

theorem sumOf_decides {answer : Query → Outcome Distance} {qs : List Query} {sum : Distance}
    (hsum : sum.isAssignable = true) (hd : sumOf answer qs sum = .answer d) :
    (d.isAssignable = true ∧ ∀ q ∈ qs, Accepted (answer q)) ∨
      (d.isAssignable = false ∧ ∃ q ∈ qs, Refused (answer q)) := by
  induction qs generalizing sum with
  | nil =>
    cases hd
    exact Or.inl ⟨hsum, by simp⟩
  | cons q qs ih =>
    obtain ⟨e, he, hrest⟩ := Outcome.bind_eq_answer.mp hd
    have hplus : (sum.plus e).isAssignable = e.isAssignable := by
      rw [Distance.isAssignable_plus, hsum, Bool.true_and]
    simp only [hplus] at hrest
    cases hassignable : e.isAssignable with
    | true =>
      rw [if_pos hassignable] at hrest
      rcases ih (hplus.trans hassignable) hrest with ⟨hall, hqs⟩ | ⟨hnone, q', hq', hrefused⟩
      · exact Or.inl ⟨hall, List.forall_mem_cons.mpr ⟨⟨e, he, hassignable⟩, hqs⟩⟩
      · exact Or.inr ⟨hnone, q', List.mem_cons_of_mem q hq', hrefused⟩
    | false =>
      rw [hassignable] at hrest
      cases hrest
      exact Or.inr ⟨hplus.trans hassignable, q, List.mem_cons_self,
        refused_of_answer he hassignable⟩

theorem bestOf_decides {answer : Query → Outcome Distance} {qs : List Query} {best : Distance}
    (hd : bestOf answer qs best = .answer d) :
    (d.isAssignable = true ∧ (best.isAssignable = true ∨ ∃ q ∈ qs, Accepted (answer q))) ∨
      (d.isAssignable = false ∧ best.isAssignable = false ∧ ∀ q ∈ qs, Refused (answer q)) := by
  induction qs generalizing best with
  | nil =>
    cases hd
    cases hassignable : d.isAssignable <;> simp
  | cons q qs ih =>
    obtain ⟨e, he, hrest⟩ := Outcome.bind_eq_answer.mp hd
    rcases ih hrest with ⟨hsome, hbetter | ⟨q', hq', haccepted⟩⟩ | ⟨hnone, hbetter, hqs⟩
    · rw [Distance.isAssignable_better, Bool.or_eq_true] at hbetter
      refine Or.inl ⟨hsome, hbetter.imp_right fun hassignable => ?_⟩
      exact ⟨q, List.mem_cons_self, e, he, hassignable⟩
    · exact Or.inl ⟨hsome, Or.inr ⟨q', List.mem_cons_of_mem q hq', haccepted⟩⟩
    · rw [Distance.isAssignable_better, Bool.or_eq_false_iff] at hbetter
      refine Or.inr ⟨hnone, hbetter.1, List.forall_mem_cons.mpr ⟨?_, hqs⟩⟩
      exact refused_of_answer he hbetter.2

theorem firstHop_decides {answer : TypeExpr → Outcome Distance} {ts : List TypeExpr}
    (hd : firstHop answer ts = .answer d) :
    (d.isAssignable = true ∧ ∃ t ∈ ts, Accepted (answer t)) ∨
      (d.isAssignable = false ∧ ∀ t ∈ ts, Refused (answer t)) := by
  induction ts with
  | nil =>
    cases hd
    exact Or.inr ⟨rfl, by simp⟩
  | cons t ts ih =>
    obtain ⟨e, he, -⟩ := Outcome.bind_eq_answer.mp hd
    rw [firstHop_cons he] at hd
    cases hassignable : e.isAssignable with
    | true =>
      rw [if_pos hassignable] at hd
      cases hd
      refine Or.inl ⟨?_, t, List.mem_cons_self, e, he, hassignable⟩
      rw [Distance.isAssignable_plus, hassignable]
      rfl
    | false =>
      rw [hassignable] at hd
      rcases ih hd with ⟨hfirst, t', ht', haccepted⟩ | ⟨hnone, hts⟩
      · exact Or.inl ⟨hfirst, t', List.mem_cons_of_mem t ht', haccepted⟩
      · exact Or.inr ⟨hnone, List.forall_mem_cons.mpr ⟨refused_of_answer he hassignable, hts⟩⟩

/-- An answer is assignable by queries that are accepted. If it is not, the guard has stopped the
move or queries that could grant it are refused. -/
theorem Move.run_decides {g : Bool} {recur : Answerer} {path : List Visit} {m : Move}
    (hd : m.run ⟨h, reversed, g⟩ recur path = .answer d) :
    (d.isAssignable = true ∧ m.Granted h fun q => Accepted (recur (m.enter path) q)) ∨
      (d.isAssignable = false ∧ ((∃ v, m.visit? = some v ∧ v ∈ path) ∨
        ¬ m.Granted h fun q => ¬ Refused (recur (m.enter path) q))) := by
  have hguarded : ∀ {v : Visit} {expand : List Visit → Outcome Distance},
      guarded ⟨h, reversed, g⟩ path v expand = .answer d →
      (d.isAssignable = false ∧ v ∈ path) ∨ expand (v :: path) = .answer d := by
    intro v expand hd
    unfold guarded at hd
    split_ifs at hd with hstopped
    · cases hd
      exact Or.inl ⟨rfl, by simp_all⟩
    · exact Or.inr hd
  cases m with
  | done result =>
    cases result with
    | error fault => cases hd
    | ok e =>
      cases hd
      cases hassignable : d.isAssignable with
      | true => exact Or.inl ⟨rfl, d, rfl, hassignable⟩
      | false =>
        refine Or.inr ⟨rfl, Or.inr ?_⟩
        rintro ⟨e, he, htrue⟩
        cases he
        cases hassignable.symm.trans htrue
  | pass q =>
    cases hassignable : d.isAssignable with
    | true => exact Or.inl ⟨rfl, d, hd, hassignable⟩
    | false => exact Or.inr ⟨rfl, Or.inr fun hq => hq (refused_of_answer hd hassignable)⟩
  | either q q' =>
    obtain ⟨first, hfirst, hrest⟩ := Outcome.bind_eq_answer.mp hd
    obtain ⟨second, hsecond, hbetter⟩ := Outcome.bind_eq_answer.mp hrest
    cases hbetter
    rw [Distance.isAssignable_better]
    cases hassignable : first.isAssignable with
    | true => exact Or.inl ⟨rfl, Or.inl ⟨first, hfirst, hassignable⟩⟩
    | false =>
      cases hassignable' : second.isAssignable with
      | true => exact Or.inl ⟨rfl, Or.inr ⟨second, hsecond, hassignable'⟩⟩
      | false =>
        refine Or.inr ⟨rfl, Or.inr ?_⟩
        rintro (hq | hq')
        · exact hq (refused_of_answer hfirst hassignable)
        · exact hq' (refused_of_answer hsecond hassignable')
  | sum qs =>
    rcases sumOf_decides rfl hd with hall | ⟨hnone, q, hq, hrefused⟩
    · exact Or.inl hall
    · exact Or.inr ⟨hnone, Or.inr fun hqs => hqs q hq hrefused⟩
  | bounds v qs =>
    rw [run] at hd
    rcases hguarded hd with ⟨hnone, hv⟩ | hd
    · exact Or.inr ⟨hnone, Or.inl ⟨v, rfl, hv⟩⟩
    · rcases bestOf_decides hd with ⟨hsome, hbest | hqs⟩ | ⟨hnone, -, hqs⟩
      · cases hbest
      · exact Or.inl ⟨hsome, hqs⟩
      · refine Or.inr ⟨hnone, Or.inr ?_⟩
        rintro ⟨q, hq, hopen⟩
        exact hopen (hqs q hq)
  | climb v declared =>
    rw [run] at hd
    rcases hguarded hd with ⟨hnone, hv⟩ | hd
    · exact Or.inr ⟨hnone, Or.inl ⟨v, rfl, hv⟩⟩
    · rcases firstHop_decides hd with ⟨hsome, t, ht, e, he, haccepted⟩ | ⟨hnone, hts⟩
      · cases hu : h.directSupertype v.source t with
        | error fault =>
          simp only [hu] at he
          cases he
        | ok u =>
          simp only [hu] at he
          exact Or.inl ⟨hsome, _, mem_asked_climb ht hu, e, he, haccepted⟩
      · refine Or.inr ⟨hnone, Or.inr ?_⟩
        rintro ⟨q, hq, hopen⟩
        obtain ⟨t, ht, u, hu, rfl⟩ := exists_of_mem_asked_climb hq
        have hrefused := hts t ht
        simp only [hu] at hrefused
        exact hopen hrefused

end Answers

/-- What a search finds assignable fits. -/
theorem fitsWithin_of_search {g : Bool} {n : Nat} {path : List Visit} {q : Query} {d : Distance}
    (hd : search ⟨h, reversed, g⟩ n path q = .answer d) (hassignable : d.isAssignable = true) :
    FitsWithin h reversed n q := by
  induction n generalizing path q d with
  | zero => cases hd
  | succ n ih =>
    rw [search_succ] at hd
    rcases Move.run_decides hd with ⟨-, hgranted⟩ | ⟨hnone, -⟩
    · refine hgranted.mono fun q' _ hq' => ?_
      obtain ⟨e, he, haccepted⟩ := hq'
      exact ih he haccepted
    · cases hassignable.symm.trans hnone

/-! ## Sources that agree -/

theorem fitsWithin_of_trivial {q : Query} (htrivial : q.trivial = true) (n : Nat) :
    FitsWithin h reversed (n + 1) q := by
  rw [FitsWithin, move_of_trivial htrivial]
  exact ⟨_, rfl, rfl⟩

theorem Alike.granted {m m' : Move} (halike : Alike m m') {fits : Query → Prop}
    (hm : m.Granted h fits) : m'.Granted h fits := by
  cases halike with
  | same => exact hm
  | climb target hsources mode declared =>
    simpa only [Move.Granted, Move.asked, Hierarchy.directSupertype_of_agrees hsources] using hm

theorem granted_againstBoundsMove {q : Query} {p : TypeParameter} {bounds : List TypeExpr}
    {fits : Query → Prop} :
    (againstBoundsMove q p bounds [q.source]).Granted h fits ↔
      ∃ b ∈ bounds, fits ⟨b, q.source, true, q.mode⟩ := by
  simp only [againstBoundsMove, Move.Granted, boundQueries_one, List.mem_map,
    exists_exists_and_eq_and]

section Sources

variable {source source' : TypeExpr} (hsources : source.Agrees source')

include hsources in
theorem rigid_of_agrees {mode : Mode} (hrigid : Rigid source mode) : Rigid source' mode := by
  rwa [Rigid, ← hsources.1, ← hsources.2]

variable (hsource : IsConcrete source.base) {mode : Mode} (hmode : Directed mode)
  (hrigid : ¬ Rigid source mode)

include hsource hmode in
/-- A parameter without bounds takes every source, and one with bounds what one of them takes. -/
theorem granted_parameter {bound : TypeExpr} {p : TypeParameter}
    (hbound : bound.base = .parameter p) {fits : Query → Prop} :
    (move h reversed ⟨bound, source, true, mode⟩).Granted h fits ↔
      ∃ bounds, h.bounds p = .ok bounds ∧
        (bounds = [] ∨ ∃ b ∈ bounds, fits ⟨b, source, true, mode⟩) := by
  rw [move_of_parameter hsource hmode hbound]
  cases h.bounds p with
  | error fault => simp [Move.after, Move.Granted]
  | ok bounds =>
    simp only [Move.after, Except.ok.injEq, exists_eq_left']
    split_ifs with hempty
    · have hnone : bounds = [] := List.isEmpty_iff.mp hempty
      exact iff_of_true ⟨_, rfl, rfl⟩ (Or.inl hnone)
    · have hsome : bounds ≠ [] := fun hnone => hempty (List.isEmpty_iff.mpr hnone)
      rw [granted_againstBoundsMove]
      simp [hsome]

include hsource hmode hrigid in
theorem fitsWithin_of_agrees {bound : TypeExpr} (hagrees : bound.Agrees source) (n : Nat) :
    FitsWithin h reversed (n + 2) ⟨bound, source, true, mode⟩ := by
  cases htrivial : Query.trivial ⟨bound, source, true, mode⟩ with
  | true => exact fitsWithin_of_trivial htrivial _
  | false =>
    rw [FitsWithin, move_of_directed hmode hsource htrivial]
    rcases directedMove_of_agrees (q := ⟨bound, source, true, mode⟩) hagrees hsource rfl with
      ⟨d, hd, hassignable⟩ | hsum
    · rw [hd]
      exact ⟨d, rfl, hassignable hrigid⟩
    · rw [hsum]
      exact fun q' hq' => fitsWithin_of_trivial (trivial_of_mem_zipWith hq') n

include hsources hsource hmode hrigid

/-- What fits one source fits every other that agrees with it, by a derivation that is at most one
step longer. -/
theorem FitsWithin.of_agrees {n : Nat} {bound : TypeExpr}
    (hn : FitsWithin h reversed n ⟨bound, source, true, mode⟩) :
    FitsWithin h reversed (n + 1) ⟨bound, source', true, mode⟩ := by
  have hsource' : IsConcrete source'.base := hsources.1 ▸ hsource
  have hrigid' : ¬ Rigid source' mode :=
    fun hrigid' => hrigid (rigid_of_agrees hsources.symm hrigid')
  induction n generalizing bound with
  | zero => exact hn.elim
  | succ n ih =>
    cases hbound : bound.parameter? with
    | some p =>
      have hbase : bound.base = .parameter p := TypeExpr.parameter?_eq_some_iff.mp hbound
      obtain ⟨bounds, hbounds, htaken⟩ := (granted_parameter hsource hmode hbase).mp hn
      refine (granted_parameter hsource' hmode hbase).mpr ⟨bounds, hbounds, ?_⟩
      rcases htaken with hnone | ⟨b, hb, hfits⟩
      · exact Or.inl hnone
      · exact Or.inr ⟨b, hb, ih hfits⟩
    | none =>
      by_cases hagrees : bound.Agrees source
      -- The bound may be equal to one source only, but it fits the other too.
      · exact fitsWithin_of_agrees hsource' hmode hrigid' (hagrees.trans hsources) n
      · have hagrees' : ¬ bound.Agrees source' := fun hb => hagrees (hb.trans hsources.symm)
        have htrivial := trivial_eq_false_of_not_agrees (q := ⟨bound, source, true, mode⟩) hagrees
        have htrivial' :=
          trivial_eq_false_of_not_agrees (q := ⟨bound, source', true, mode⟩) hagrees'
        refine FitsWithin.mono (n := n + 1) ?_ (Nat.le_succ _)
        rw [FitsWithin, move_of_directed hmode hsource htrivial] at hn
        rw [FitsWithin, move_of_directed hmode hsource' htrivial']
        exact (directedMove_alike hsources hbound hsource hagrees mode).granted hn

end Sources

/-- Of two queries of one visit, one fits at most one step after the other. -/
theorem SameBounds.fitsWithin {q q' : Query}
    (hsame : SameBounds q q' (move h reversed q) (move h reversed q'))
    (hrigid : ¬ Rigid q.source q.mode) {n : Nat} (hq : FitsWithin h reversed n q) :
    FitsWithin h reversed (n + 1) q' := by
  obtain ⟨hmode, hmodes, hconcrete, hsources, p, bounds, hmove, hmove'⟩ := hsame
  cases n with
  | zero => exact hq.elim
  | succ n =>
    rw [FitsWithin, hmove] at hq
    obtain ⟨b, hb, hfits⟩ := granted_againstBoundsMove.mp hq
    rw [FitsWithin, hmove']
    refine granted_againstBoundsMove.mpr ⟨b, hb, ?_⟩
    rw [← hmodes]
    exact hfits.of_agrees hsources hconcrete hmode hrigid

theorem SameBounds.move_eq {q q' : Query} {m m' : Move} (hsame : SameBounds q q' m m')
    (hsource : q.source = q'.source) : m = m' := by
  obtain ⟨-, hmodes, -, -, p, bounds, rfl, rfl⟩ := hsame
  rw [againstBoundsMove, againstBoundsMove, hsource, hmodes]

/-! ## Sources that stay -/

/-- Nothing is asked for but comparisons with the same source, wildcard included. -/
structure Steady (q : Query) : Prop where
  directed : Directed q.mode
  concrete : IsConcrete q.source.base
  rigid : Rigid q.source q.mode

/-- The second query compares the source of the first, in its mode. -/
structure Continues (q q' : Query) : Prop where
  source_eq : q'.source = q.source
  mode_eq : q'.mode = q.mode
  ignoreArrays : q'.ignoreArrays = true

theorem Continues.steady {q q' : Query} (hcontinues : Continues q q') (hq : Steady q) :
    Steady q' := by
  obtain ⟨hsource, hmode, -⟩ := hcontinues
  obtain ⟨hdirected, hconcrete, hrigid⟩ := hq
  rw [← hsource, ← hmode] at hrigid
  exact ⟨hmode ▸ hdirected, hsource ▸ hconcrete, hrigid⟩

theorem Continues.trans {q q' q'' : Query} (hfirst : Continues q q')
    (hsecond : Continues q' q'') : Continues q q'' :=
  ⟨hsecond.source_eq.trans hfirst.source_eq, hsecond.mode_eq.trans hfirst.mode_eq,
    hsecond.ignoreArrays⟩

theorem Makes.continues {q q' : Query} {m : Move} (hm : Makes h reversed q m) (hq : Steady q)
    (harrays : q.ignoreArrays = true ∨ m.visit? ≠ none) (hasked : q' ∈ m.asked h) :
    Continues q q' := by
  obtain ⟨hdirected, hconcrete, hrigid⟩ := hq
  cases hm with
  | done => cases hasked
  | flip hmode => exact absurd hmode hdirected.1
  | both hmode => exact absurd hmode hdirected.2
  | elements _ hignore =>
    rcases harrays with hignored | hvisit
    · cases hignore.symm.trans hignored
    · exact absurd rfl hvisit
  | arguments hsource =>
    rcases hrigid with ⟨p, hp⟩ | ⟨-, harguments⟩
    · cases hsource.symm.trans hp
    · simp [Move.asked, harguments] at hasked
  | swap _ _ hsource => exact absurd hsource (hconcrete.ne_parameter _)
  | climb _ hsource _ hmode =>
    rcases hrigid with ⟨p, hp⟩ | ⟨hinvariant, -⟩
    · cases hsource.symm.trans hp
    · exact absurd hinvariant hmode
  | sourceBounds _ hsource => exact absurd hsource (hconcrete.ne_parameter _)
  | bothBounds _ _ hsource => exact absurd hsource (hconcrete.ne_parameter _)
  | targetBounds _ _ _ _ =>
    simp only [againstBoundsMove, Move.asked, boundQueries_one] at hasked
    obtain ⟨b, -, rfl⟩ := List.mem_map.mp hasked
    exact ⟨rfl, rfl, rfl⟩

/-! ## The guard -/

/-- The visit is that of a query which does not fit within this depth. Nor does it one step deeper,
unless the visit could only be entered again with the same move; and a source that is steady there
is still the one that is compared. -/
def Unmet (h : Hierarchy) (reversed : List TypeParameter) (n : Nat) (q : Query) (v : Visit) :
    Prop :=
  ∃ q₀, (move h reversed q₀).visit? = some v ∧ ¬ FitsWithin h reversed n q₀ ∧
    (¬ FitsWithin h reversed (n + 1) q₀ ∨
      ((move h reversed q).visit? = some v → move h reversed q = move h reversed q₀)) ∧
    (Steady q₀ → Continues q₀ q)

/-- A query that fits does not enter an unmet visit again. -/
theorem Unmet.visit_ne {n : Nat} {q : Query} {v : Visit} (hunmet : Unmet h reversed n q v)
    (hq : FitsWithin h reversed n q) : (move h reversed q).visit? ≠ some v := by
  obtain ⟨q₀, hv₀, hn, hnext, hsteady⟩ := hunmet
  intro hv
  rcases (makes_move h reversed q).eq_or_sameBounds (makes_move h reversed q₀) hv hv₀ with
    hmove | hsame
  · exact hn (hq.congr hmove)
  · rcases hnext with hnext | hmove
    · by_cases hrigid : Rigid q.source q.mode
      -- Wildcards matter here, but they cannot differ: it is still the source of the first query.
      · have hrigid₀ : Rigid q₀.source q₀.mode :=
          hsame.mode_eq ▸ rigid_of_agrees hsame.sources hrigid
        have hsteady₀ : Steady q₀ :=
          ⟨hsame.mode_eq ▸ hsame.directed, hsame.sources.1 ▸ hsame.concrete, hrigid₀⟩
        exact hn (hq.congr (hsame.move_eq (hsteady hsteady₀).source_eq))
      · exact hnext (hsame.fitsWithin hrigid hq)
    · exact hn (hq.congr (hmove hv))

/-- A visit is unmet for the queries asked on it. -/
theorem unmet_of_visit {n : Nat} {q q' : Query} {v : Visit}
    (hv : (move h reversed q).visit? = some v) (hq : ¬ FitsWithin h reversed n q)
    (hasked : q' ∈ (move h reversed q).asked h) : Unmet h reversed n q' v := by
  have hmakes := makes_move h reversed q
  refine ⟨q, hv, hq, Or.inr fun hv' => ?_, fun hsteady => ?_⟩
  · exact hmakes.eq_of_asked (makes_move h reversed q') hv hv' hasked
  · exact hmakes.continues hsteady (Or.inr (by simp [hv])) hasked

/-- Visits stay unmet for the queries asked next. -/
theorem Unmet.of_asked {n k : Nat} {q q' : Query} {v : Visit} (hunmet : Unmet h reversed n q v)
    (hk : k < n) (hasked : q' ∈ (move h reversed q).asked h) : Unmet h reversed k q' v := by
  obtain ⟨q₀, hv₀, hn, -, hsteady⟩ := hunmet
  refine ⟨q₀, hv₀, fun hfits => hn (hfits.mono (by omega)),
    Or.inl fun hfits => hn (hfits.mono (by omega)), fun hq₀ => ?_⟩
  have hcontinues := hsteady hq₀
  have hq := hcontinues.steady hq₀
  exact hcontinues.trans
    ((makes_move h reversed q).continues hq (Or.inl hcontinues.ignoreArrays) hasked)

/-- The search follows a derivation of least depth. -/
theorem isAssignable_of_fitsWithin {n k : Nat} {path : List Visit} {q : Query} {d : Distance}
    (hq : FitsWithin h reversed k q) (hleast : ∀ j < k, ¬ FitsWithin h reversed j q)
    (hpath : ∀ v ∈ path, Unmet h reversed k q v)
    (hd : search ⟨h, reversed, true⟩ n path q = .answer d) : d.isAssignable = true := by
  -- On the depth of the derivation: what is asked next has derivations of its own, of lesser depth,
  -- while the depth of the search only has to be enough.
  induction k using Nat.strongRecOn generalizing n path q d with
  | ind k ih =>
  cases n with
  | zero => cases hd
  | succ n =>
  cases k with
  | zero => exact hq.elim
  | succ k =>
    have hopen : (move h reversed q).Granted h fun q' =>
        ¬ Refused (search ⟨h, reversed, true⟩ n ((move h reversed q).enter path) q') := by
      refine Move.Granted.mono hq fun q' hasked hq' => ?_
      obtain ⟨j, hjk, hj, hleast'⟩ := exists_least_of (P := (FitsWithin h reversed · q')) hq'
      have hpath' : ∀ v ∈ (move h reversed q).enter path, Unmet h reversed j q' v := by
        intro v hv
        rcases List.mem_append.mp hv with hv | hv
        · exact unmet_of_visit (by simpa using hv) (hleast j (by omega)) hasked
        · exact (hpath v hv).of_asked (by omega) hasked
      intro hrefused
      cases ih j (by omega) hj hleast' hpath' hrefused
    rw [search_succ] at hd
    rcases Move.run_decides hd with ⟨hassignable, -⟩ | ⟨-, ⟨v, hv, hmem⟩ | hrefused⟩
    · exact hassignable
    · exact absurd hv ((hpath v hmem).visit_ne hq)
    · exact absurd hopen hrefused

/-- An answer is assignable exactly if the query fits. -/
theorem solve_isAssignable_iff {q : Query} {d : Distance}
    (hd : solve ⟨h, reversed, true⟩ q = .answer d) :
    d.isAssignable = true ↔ Fits h reversed q := by
  obtain ⟨n, hn⟩ := exists_depth_solve ⟨h, reversed, true⟩ q
  have hsearch := (hn n (Nat.le_refl n)).trans hd
  constructor
  · exact fun hassignable => ⟨n, fitsWithin_of_search hsearch hassignable⟩
  · rintro ⟨k, hk⟩
    obtain ⟨j, -, hj, hleast⟩ := exists_least_of (P := (FitsWithin h reversed · q)) hk
    exact isAssignable_of_fitsWithin hj hleast (List.forall_mem_nil _) hsearch

end Mutability.Assignability
