import Mutability.Proofs.FixpointRuns

/-!
# Spans of fixpoint runs

A recorded run leaves a span of its own, one for each pass that is started and one for each entity
that a pass comes to, every one below the span it belongs to (`run_spans`). A pass takes its context
down before its entities are analysed, so `analyseAll_records` has it as a parameter; the passes and
the run find theirs as the current one. Which passes and entities there are is told by the history
of the run: `visited_of_completes` and `visited_of_failsFirst` are for one pass,
`exists_passesRecorded` is for all of them.
-/

namespace Mutability

namespace Fixpoint

variable {ε : Type}

/-! ## Without recording -/

section Plain

variable (analysis : Analysis ε)

theorem analyseAll_plain (pass : Nat) (parent : Context) (stores : Stores) (tracer : Tracer) :
    ((analyseAll false analysis pass parent stores).run tracer).2 = tracer := by
  induction stores with
  | nil => rfl
  | cons head rest ih =>
    obtain ⟨entity, store⟩ := head
    have hanalysis : Yields (pure (analysis entity store pass)) (analysis entity store pass) :=
      .pure _
    rw [analyseAll, (hanalysis.inChildPhase false .analyse _ parent).trace_bind]
    cases analysis entity store pass with
    | mk store' answer =>
      cases answer with
      | error cause => rfl
      | ok report => exact ih

theorem runPasses_plain (budget pass : Nat) (pending : List (String × List Property))
    (stores : Stores) (tracer : Tracer) :
    ((runPasses false analysis budget pass pending stores).run tracer).2 = tracer := by
  induction budget generalizing pass pending stores with
  | zero => rfl
  | succ budget ih =>
    have hpass : ((runPass false analysis pass stores).run tracer).2 = tracer :=
      analyseAll_plain analysis pass tracer.current stores tracer
    rw [runPasses, ((runPass_yields false analysis pass stores).inPhase false .pass _).trace_bind,
      inPhase_plain, hpass]
    cases sequentialPass analysis pass stores with
    | mk stores' reports =>
      cases reports with
      | error failure => rfl
      | ok reports =>
        dsimp only
        split
        · exact ih (pass + 1) (pendingIn reports) stores'
        · split <;> rfl

omit analysis in
theorem noteDelay_keeps (result : Except (AnalysisFailure ε) FixpointOutcome) (tracer : Tracer) :
    ((noteDelay result).run tracer).2.started = tracer.started ∧
      ((noteDelay result).run tracer).2.ended = tracer.ended := by
  unfold noteDelay
  split <;> exact ⟨rfl, rfl⟩

/-- A run that is not recorded starts and ends no span. -/
theorem runTraced_plain (configuration : Configuration) (stores : Stores) (tracer : Tracer) :
    ((runTraced configuration false analysis stores).run tracer).2.started = tracer.started ∧
      ((runTraced configuration false analysis stores).run tracer).2.ended = tracer.ended := by
  have hpasses := runPasses_yields false analysis configuration.maxPasses 0 [] stores
  rw [runTraced, inPhase_plain, hpasses.trace_bind, runPasses_plain]
  exact noteDelay_keeps _ tracer

end Plain

/-! ## One pass -/

/-- The spans of the analyses of some entities below a context, numbered from one on. -/
def analyseSpans (parent : Context) (first : SpanId) : Stores → List SpanRecord
  | [] => []
  | (entity, store) :: rest =>
    ⟨first, parent, .analyse, entityAttributes entity store.kind, []⟩ ::
      analyseSpans parent (first + 1) rest

/-- The entities that a pass comes to: all, or those up to the first one that fails. -/
def visited (analysis : Analysis ε) (pass : Nat) : Stores → Stores
  | [] => []
  | (entity, store) :: rest =>
    match (analysis entity store pass).2 with
    | .error _ => [(entity, store)]
    | .ok _ => (entity, store) :: visited analysis pass rest

theorem length_analyseSpans (parent : Context) (first : SpanId) (entries : Stores) :
    (analyseSpans parent first entries).length = entries.length := by
  induction entries generalizing first with
  | nil => rfl
  | cons head rest ih => simp [analyseSpans, ih]

theorem ids_analyseSpans (parent : Context) (first : SpanId) (entries : Stores) :
    (analyseSpans parent first entries).map (·.id) = List.range' first entries.length := by
  induction entries generalizing first with
  | nil => rfl
  | cons head rest ih => simp [analyseSpans, ih, List.range'_succ]

section Pass

variable {analysis : Analysis ε} {pass : Nat} {stores : Stores}

variable (analysis pass stores) in
theorem analyseAll_records (parent : Context) {tracer : Tracer} (hfresh : tracer.Fresh) :
    Records tracer ((analyseAll true analysis pass parent stores).run tracer).2
      (analyseSpans parent tracer.started (visited analysis pass stores)) := by
  induction stores generalizing tracer with
  | nil => exact .refl tracer
  | cons head rest ih =>
    obtain ⟨entity, store⟩ := head
    have hanalysis : Yields (pure (analysis entity store pass)) (analysis entity store pass) :=
      .pure _
    have hfirst := inChildPhase_records hfresh .analyse (entityAttributes entity store.kind) parent
      (Records.refl ((pure (analysis entity store pass) : Traced _).run _).2)
    rw [analyseAll, (hanalysis.inChildPhase true .analyse _ parent).trace_bind, visited]
    cases hstep : analysis entity store pass with
    | mk store' answer =>
      rw [hstep] at hfirst
      cases answer with
      | error cause => exact hfirst
      | ok report =>
        have hrest := ih (hfirst.fresh hfresh)
        rw [hfirst.started] at hrest
        exact hfirst.trans hrest

theorem visited_of_completes
    (h : ∀ entity cause, ¬ Answers analysis pass stores entity (.error cause)) :
    visited analysis pass stores = stores := by
  induction stores with
  | nil => rfl
  | cons head rest ih =>
    obtain ⟨name, store⟩ := head
    have hrest := ih fun entity cause hfails =>
      h entity cause (answers_cons_iff.mpr (Or.inr hfails))
    cases hanswer : (analysis name store pass).2 with
    | error cause => exact absurd (answers_cons_iff.mpr (Or.inl ⟨rfl, hanswer⟩)) (h name cause)
    | ok report => simp [visited, hanswer, hrest]

theorem visited_of_failsFirst (hmap : stores.Ordered) {entity : String} {cause : ε}
    (h : FailsFirst analysis pass stores entity cause) :
    visited analysis pass stores = stores.filter (·.1 ≤ entity) := by
  induction stores with
  | nil =>
    obtain ⟨⟨_, hmem, _⟩, _⟩ := h
    cases hmem
  | cons head rest ih =>
    obtain ⟨name, store⟩ := head
    obtain ⟨hfails, hleast⟩ := h
    cases hanswer : (analysis name store pass).2 with
    | error cause' =>
      -- The first entity fails, so it is the one meant, and all others come after it.
      have hle : entity ≤ name := String.not_lt.mp fun hlt =>
        hleast name hlt cause' (answers_cons_iff.mpr (Or.inl ⟨rfl, hanswer⟩))
      obtain rfl : entity = name := by
        rcases answers_cons_iff.mp hfails with ⟨heq, _⟩ | ⟨kept, hmem, _⟩
        · exact heq
        · exact absurd (hmap.lt_of_mem hmem) (String.not_lt.mpr hle)
      have hrest : rest.filter (·.1 ≤ entity) = [] := by
        rw [List.filter_eq_nil_iff]
        intro other hother hle
        exact String.not_lt.mpr (of_decide_eq_true hle) (hmap.lt_of_mem hother)
      rw [List.filter_cons, if_pos (decide_eq_true (String.le_refl entity)), hrest]
      simp only [visited, hanswer]
    | ok report =>
      have hlater : Answers analysis pass rest entity (.error cause) :=
        (answers_cons_iff.mp hfails).resolve_left fun hname => by simp [hanswer] at hname
      have hlt : name < entity := by
        obtain ⟨kept, hmem, _⟩ := hlater
        exact hmap.lt_of_mem hmem
      have hrest := ih hmap.tail ⟨hlater, fun other hother cause' hother' =>
        hleast other hother cause' (answers_cons_iff.mpr (Or.inr hother'))⟩
      have hle : name ≤ entity := String.not_lt.mp fun h =>
        String.lt_irrefl _ (String.lt_trans h hlt)
      rw [List.filter_cons, if_pos (decide_eq_true hle)]
      simp only [visited, hanswer, hrest]

end Pass

/-! ## All passes -/

/-- The span of a pass and those of the analyses in it. -/
structure PassSpans where
  span : SpanRecord
  parts : List SpanRecord

/-- In the order in which they end. -/
def PassSpans.ended (spans : PassSpans) : List SpanRecord := spans.parts ++ [spans.span]

/-- The span of a pass is below that of the run. Below it is one span for each entity that the pass
comes to: all entities, or those up to the first one that fails. -/
structure PassRecorded (analysis : Analysis ε) (stores : Stores) (root : SpanId) (pass : Nat)
    (spans : PassSpans) : Prop where
  phase : spans.span.phase = .pass
  parent : spans.span.parent = some root
  attributes : spans.span.attributes = [("engine.pass", .int pass)]
  events : spans.span.events = []
  parts : (Completes analysis stores pass ∧ spans.parts.length = stores.length ∧
      spans.parts = analyseSpans (some spans.span.id) (spans.span.id + 1)
        (before analysis stores pass)) ∨
    ∃ entity cause, FailsFirst analysis pass (before analysis stores pass) entity cause ∧
      spans.parts = analyseSpans (some spans.span.id) (spans.span.id + 1)
        ((before analysis stores pass).filter (·.1 ≤ entity))

/-- The spans of the passes that are started from a pass on, numbered without a gap. -/
structure PassesRecorded (analysis : Analysis ε) (stores : Stores) (root : SpanId)
    (budget pass : Nat) (first : SpanId) (passes : List PassSpans) : Prop where
  started : ∀ i, i < passes.length ↔ i < budget ∧ Reaches analysis stores (pass + i)
  recorded : ∀ i spans, passes[i]? = some spans →
    PassRecorded analysis stores root (pass + i) spans
  numbered : ((passes.flatMap PassSpans.ended).map (·.id)).Perm
    (List.range' first (passes.flatMap PassSpans.ended).length)

section Passes

variable {analysis : Analysis ε} {stores : Stores} {root : SpanId}

/-- What a pass records that starts with the number of its span. -/
def passSpans (analysis : Analysis ε) (root first : SpanId) (pass : Nat) (stores : Stores) :
    PassSpans :=
  ⟨⟨first, some root, .pass, [("engine.pass", .int pass)], []⟩,
    analyseSpans (some first) (first + 1) (visited analysis pass stores)⟩

variable (analysis stores) in
theorem pass_records (pass : Nat) {tracer : Tracer} (hfresh : tracer.Fresh)
    (hcurrent : tracer.current = some root) :
    Records tracer ((inPhase true .pass [("engine.pass", .int pass)]
        (runPass true analysis pass stores)).run tracer).2
      (passSpans analysis root tracer.started pass stores).ended := by
  rw [PassSpans.ended, passSpans, ← hcurrent]
  exact inPhase_records hfresh .pass _
    (analyseAll_records analysis pass stores (some tracer.started) (hfresh.start _ _ _))

variable (analysis root) in
theorem passRecorded (hmap : stores.Ordered) (pass : Nat) (first : SpanId) :
    PassRecorded analysis stores root pass
      (passSpans analysis root first pass (before analysis stores pass)) where
  phase := rfl
  parent := rfl
  attributes := rfl
  events := rfl
  parts := by
    by_cases hcompletes : Completes analysis stores pass
    · have hvisited := visited_of_completes hcompletes
      have hnames : (before analysis stores pass).names = stores.names := names_before pass
      have hlength : (before analysis stores pass).length = stores.length := by
        simpa [Stores.names] using congrArg List.length hnames
      exact Or.inl ⟨hcompletes, by simp only [passSpans, hvisited, length_analyseSpans, hlength],
        by simp only [passSpans, hvisited]⟩
    · simp only [Completes, Classical.not_forall, Classical.not_not] at hcompletes
      have hordered : (before analysis stores pass).Ordered := ordered_before hmap pass
      obtain ⟨entity, cause, hfirst, -⟩ := sequentialPass_with_failure hordered hcompletes
      exact Or.inr ⟨entity, cause, hfirst,
        by simp only [passSpans, visited_of_failsFirst hordered hfirst]⟩

variable (analysis stores root) in
theorem ids_passSpans (pass : Nat) (first : SpanId) :
    ((passSpans analysis root first pass stores).ended.map (·.id)).Perm
      (List.range' first (passSpans analysis root first pass stores).ended.length) := by
  simp only [PassSpans.ended, passSpans, List.map_append, ids_analyseSpans, List.length_append,
    length_analyseSpans, List.length_singleton, List.range'_succ]
  exact List.perm_append_singleton _ _

theorem Reaches.mono {pass earlier : Nat} (h : Reaches analysis stores pass)
    (hle : earlier ≤ pass) : Reaches analysis stores earlier :=
  fun before hlt => h before (Nat.lt_of_lt_of_le hlt hle)

/-- No pass is started once the passes are used up or the run has ended. -/
theorem PassesRecorded.nil {budget pass : Nat} {first : SpanId}
    (h : budget = 0 ∨ ¬ Reaches analysis stores pass) :
    PassesRecorded analysis stores root budget pass first [] where
  started i := by
    refine ⟨nofun, fun ⟨hlt, hreaches⟩ => ?_⟩
    rcases h with rfl | hended
    · exact hlt
    · exact absurd (hreaches.mono (Nat.le_add_right pass i)) hended
  recorded := nofun
  numbered := .refl _

theorem PassesRecorded.cons {budget pass : Nat} {first : SpanId} {spans : PassSpans}
    {passes : List PassSpans} (hreaches : Reaches analysis stores pass)
    (hspans : PassRecorded analysis stores root pass spans)
    (hids : (spans.ended.map (·.id)).Perm (List.range' first spans.ended.length))
    (hpasses : PassesRecorded analysis stores root budget (pass + 1)
      (first + spans.ended.length) passes) :
    PassesRecorded analysis stores root (budget + 1) pass first (spans :: passes) where
  started i := by
    cases i with
    | zero => simpa using hreaches
    | succ i =>
      rw [List.length_cons, Nat.add_lt_add_iff_right, Nat.add_lt_add_iff_right, hpasses.started,
        Nat.add_right_comm, Nat.add_assoc]
  recorded i spans' h := by
    cases i with
    | zero =>
      cases h
      exact hspans
    | succ i =>
      rw [← Nat.add_assoc, Nat.add_right_comm]
      exact hpasses.recorded i spans' h
  numbered := by
    rw [List.flatMap_cons, List.map_append, List.length_append, ← List.range'_append_1]
    exact hids.append hpasses.numbered

/-- The loop records the passes that the run comes to. -/
theorem exists_passesRecorded (hmap : stores.Ordered) (budget : Nat) {pass : Nat}
    (hreaches : Reaches analysis stores pass) (pending : List (String × List Property))
    {tracer : Tracer} (hfresh : tracer.Fresh) (hcurrent : tracer.current = some root) :
    ∃ passes, PassesRecorded analysis stores root budget pass tracer.started passes ∧
      Records tracer
        ((runPasses true analysis budget pass pending (before analysis stores pass)).run tracer).2
        (passes.flatMap PassSpans.ended) := by
  -- By induction on the passes left: each pass starts from the stores of the history.
  induction budget generalizing pass pending tracer with
  | zero => exact ⟨[], .nil (Or.inl rfl), .refl tracer⟩
  | succ budget ih =>
    have hspans := passRecorded analysis root hmap pass tracer.started
    have hids := ids_passSpans analysis (before analysis stores pass) root pass tracer.started
    have hrecords := pass_records analysis (before analysis stores pass) pass hfresh hcurrent
    have hyields := (runPass_yields true analysis pass (before analysis stores pass)).inPhase true
      .pass [("engine.pass", .int pass)]
    rw [runPasses, hyields.trace_bind]
    -- A pass after which the run ends is the last one recorded.
    have hlast : ¬ Reaches analysis stores (pass + 1) →
        PassesRecorded analysis stores root (budget + 1) pass tracer.started
          [passSpans analysis root tracer.started pass (before analysis stores pass)] :=
      fun hended => .cons hreaches hspans hids (.nil (Or.inr hended))
    rcases hreaches.succ_or_ends hmap with hnext | ⟨hcompletes, hquiet⟩ | ⟨entity, cause, hfirst⟩
    · obtain ⟨hcompletes, hchanges⟩ := hnext pass (Nat.lt_succ_self pass)
      obtain ⟨reports, hstep, hchanged, -⟩ := sequentialPass_of_completes hcompletes
      obtain ⟨passes, hpasses, hrest⟩ := ih hnext (pendingIn reports) (hrecords.fresh hfresh)
        (hrecords.current.trans hcurrent)
      rw [hrecords.started] at hpasses
      refine ⟨_, .cons hreaches hspans hids hpasses, ?_⟩
      rw [hstep, List.flatMap_cons]
      dsimp only
      rw [if_pos (hchanged.mpr hchanges)]
      exact hrecords.trans hrest
    · obtain ⟨reports, hstep, hchanged, -⟩ := sequentialPass_of_completes hcompletes
      have hended : ¬ Reaches analysis stores (pass + 1) := fun h =>
        hquiet (h pass (Nat.lt_succ_self pass)).2
      refine ⟨_, hlast hended, ?_⟩
      rw [hstep, List.flatMap_singleton]
      dsimp only
      rw [if_neg (mt hchanged.mp hquiet)]
      split <;> exact hrecords
    · obtain ⟨entity', cause', -, hstep⟩ := sequentialPass_with_failure (ordered_before hmap pass)
        ⟨entity, cause, hfirst.1⟩
      have hended : ¬ Reaches analysis stores (pass + 1) := fun h =>
        (h pass (Nat.lt_succ_self pass)).1 entity cause hfirst.1
      refine ⟨_, hlast hended, ?_⟩
      rw [hstep, List.flatMap_singleton]
      exact hrecords

end Passes

/-! ## The run -/

/-- The events on the span of a run by its result. -/
structure DelayNoted (result : Except (AnalysisFailure ε) FixpointOutcome) (events : List Event) :
    Prop where
  delayed : ∀ passes pending, result = .ok (.delayed passes pending) →
    events = [⟨"engine.fixpoint.delayed", [("engine.passes", .int passes),
      ("engine.delayed_entities", .int pending.length)]⟩]
  other : (∀ passes pending, result ≠ .ok (.delayed passes pending)) → events = []

theorem noteDelay_notes (result : Except (AnalysisFailure ε) FixpointOutcome) {tracer : Tracer}
    {span : SpanRecord} {others : List SpanRecord} (hrunning : tracer.running = span :: others)
    (hcurrent : tracer.current = some span.id) (hothers : ∀ other ∈ others, other.id < span.id)
    (hevents : span.events = []) :
    ∃ events, DelayNoted result events ∧
      ((noteDelay result).run tracer).2.running = { span with events := events } :: others ∧
      ((noteDelay result).run tracer).2.started = tracer.started ∧
      ((noteDelay result).run tracer).2.ended = tracer.ended := by
  unfold noteDelay
  split
  · rename_i passes pending
    have hnote := Tracer.running_note hrunning hcurrent hothers
      ⟨"engine.fixpoint.delayed",
        [("engine.passes", .int passes), ("engine.delayed_entities", .int pending.length)]⟩
    rw [hevents, List.nil_append] at hnote
    refine ⟨_, ⟨fun passes' pending' heq => ?_, fun h => ?_⟩, hnote, rfl, rfl⟩
    · cases heq
      rfl
    · exact absurd rfl (h passes pending)
  · rename_i hother
    refine ⟨[], ⟨fun passes pending heq => ?_, fun _ => rfl⟩, ?_, rfl, rfl⟩
    · exact absurd heq (hother passes pending)
    · obtain ⟨id, parent, phase, attributes, events⟩ := span
      cases hevents
      exact hrunning

/-- A run is recorded in one span below the context it is started in. Below that is one span for
each pass that is started, and below each of these one for each entity that the pass comes to. A run
that ends delayed is noted once, on the span of the run. Recording changes neither the outcome nor
the stores, and the context and the spans around the run are left as they were. -/
theorem run_spans (convention : Convention) (budget : Nat) (analysis : Analysis ε)
    (stores : Stores) (hmap : stores.Ordered) (tracer : Tracer) (hfresh : tracer.Fresh) :
    let recorded := (runTraced ⟨convention, budget, false⟩ true analysis stores).run tracer
    let plain := (runTraced ⟨convention, budget, false⟩ false analysis stores).run tracer
    recorded.1 = plain.1 ∧ plain.2.started = tracer.started ∧ plain.2.ended = tracer.ended ∧
    ∃ (root : SpanRecord) (passes : List PassSpans),
      let spans := passes.flatMap PassSpans.ended ++ [root]
      Records tracer recorded.2 spans ∧
      (spans.map (·.id)).Perm (List.range' tracer.started spans.length) ∧
      root.phase = .fixpoint ∧ root.parent = tracer.current ∧
      DelayNoted recorded.1.2 root.events ∧
      (∀ pass, pass < passes.length ↔ pass < budget ∧ Reaches analysis stores pass) ∧
      ∀ pass spans, passes[pass]? = some spans →
        PassRecorded analysis stores root.id pass spans := by
  intro recorded plain
  obtain ⟨hstarted, hended⟩ := runTraced_plain analysis ⟨convention, budget, false⟩ stores tracer
  have hsame : recorded.1 = plain.1 := by
    have hrecorded := runTraced_yields ⟨convention, budget, false⟩ true analysis stores tracer
    have hplain := runTraced_yields ⟨convention, budget, false⟩ false analysis stores tracer
    exact hrecorded.trans hplain.symm
  refine ⟨hsame, hstarted, hended, ?_⟩
  let attributes : Attributes :=
    [("engine.entities", .int stores.length), ("engine.parallel", .bool false)]
  let inside := tracer.start .fixpoint attributes tracer.current
  have hreaches : Reaches analysis stores 0 := fun _ hlt => absurd hlt (Nat.not_lt_zero _)
  have hinside : inside.Fresh := hfresh.start _ _ _
  obtain ⟨passes, hpasses, hloop⟩ := exists_passesRecorded hmap budget hreaches [] hinside rfl
  obtain ⟨events, hnoted, hrunning, hstarted, hended⟩ :=
    noteDelay_notes recorded.1.2 hloop.running hloop.current hfresh rfl
  refine ⟨⟨tracer.started, tracer.current, .fixpoint, attributes, events⟩, passes, ?_, ?_, rfl,
    rfl, hnoted, fun pass => ?_, fun pass spans h => ?_⟩
  · exact .finish hfresh rfl (hstarted.trans hloop.started) hrunning (hended.trans hloop.ended)
  · rw [List.map_append, List.length_append, List.length_singleton, List.range'_succ]
    exact (hpasses.numbered.append_right _).trans (List.perm_append_singleton _ _)
  · rw [hpasses.started, Nat.zero_add]
  · rw [← Nat.zero_add pass]
    exact hpasses.recorded pass spans h

/-- A run of three entities inside other work, whose second pass is aborted at the second one. -/
theorem aborted_run_spans :
    let store (entity : String) := Store.empty entity .type true .defensive
    let stores : Stores := Stores.insert "acme.Pool" (store "acme.Pool")
      (Stores.insert "acme.Cart" (store "acme.Cart")
        (Stores.insert "acme.Shop" (store "acme.Shop") []))
    let analysis : Analysis String := fun entity store pass =>
      if pass = 1 ∧ entity = "acme.Pool" then (store, .error "no bounds")
      else (store, .ok ⟨true, [.final]⟩)
    let tracer := Tracer.idle.start .derive [] none
    let recorded := (runTraced ⟨.defensive, 5, false⟩ true analysis stores).run tracer
    stores.Ordered ∧ tracer.Fresh ∧ recorded.1.2 = .error ⟨"acme.Pool", 1, "no bounds"⟩ ∧
    (recorded.2.ended.map fun span => (span.id, span.parent, span.phase)) =
      [(3, some 2, .analyse), (4, some 2, .analyse), (5, some 2, .analyse), (2, some 1, .pass),
        (7, some 6, .analyse), (8, some 6, .analyse), (6, some 1, .pass), (1, some 0, .fixpoint)] ∧
    ∃ (root : SpanRecord) (passes : List PassSpans),
      Records tracer recorded.2 (passes.flatMap PassSpans.ended ++ [root]) ∧
      root.parent = some 0 ∧ root.events = [] ∧
      ∀ pass, pass < passes.length ↔ pass < 5 ∧ Reaches analysis stores pass := by
  intro store stores analysis tracer recorded
  have hmap : stores.Ordered := ((Stores.ordered_nil.insert _ _).insert _ _).insert _ _
  have hfresh : tracer.Fresh := Tracer.Fresh.start (by simp [Tracer.Fresh, Tracer.idle]) _ _ _
  have hresult : recorded.1.2 = .error ⟨"acme.Pool", 1, "no bounds"⟩ := by rfl
  obtain ⟨-, -, -, root, passes, hrecords, -, -, hparent, hnoted, hstarted, -⟩ :=
    run_spans .defensive 5 analysis stores hmap tracer hfresh
  refine ⟨hmap, hfresh, hresult, by decide +kernel +zetaReduce, root, passes, hrecords, hparent, ?_,
    hstarted⟩
  refine hnoted.other fun passes pending heq => ?_
  have hdelayed := hresult.symm.trans heq
  cases hdelayed

end Fixpoint

end Mutability
