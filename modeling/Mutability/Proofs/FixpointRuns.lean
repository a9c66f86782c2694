import Mutability.Analysis.Fixpoint
import Mutability.Proofs.Traces
import Mutability.Text.Names

/-!
# Outcomes of fixpoint runs

What a run does is told by its history alone: `before` gives the stores at the start of each pass,
and a pass completes, changes something or leaves an entity waiting as the analysis says of those
stores. `StopsAfter` says after how many passes a run ends if no analysis fails, `Settles` whether
it has converged by then. `stopsAfter_or_failsFirst` is that every run ends in one way or another,
and `repeatPass_of_stopsAfter` and `repeatPass_of_failsFirst` are what it leaves behind.
-/

namespace Mutability

namespace Stores

def names (stores : Stores) : List String := stores.map (·.1)

/-- Every entity has one store, and the stores are in the order of names. -/
def Ordered (stores : Stores) : Prop := stores.names.Pairwise (· < ·)

theorem names_insert (entity : String) (store : Store) (stores : Stores) :
    (insert entity store stores).names = Text.insertName entity stores.names := by
  induction stores with
  | nil => rfl
  | cons head rest ih =>
    obtain ⟨other, kept⟩ := head
    simp only [names, List.map_cons] at ih ⊢
    unfold insert Text.insertName
    split
    · rfl
    · split
      · rename_i heq
        simp [heq]
      · simp [ih]

theorem ordered_nil : Ordered [] := List.Pairwise.nil

theorem Ordered.insert {stores : Stores} (h : stores.Ordered) (entity : String) (store : Store) :
    (Stores.insert entity store stores).Ordered := by
  unfold Ordered
  rw [names_insert]
  exact Text.pairwise_insertName entity h

theorem Ordered.lt_of_mem {entity name : String} {store kept : Store} {rest : Stores}
    (h : Ordered ((entity, store) :: rest)) (hmem : (name, kept) ∈ rest) : entity < name :=
  (List.pairwise_cons.mp h).1 name (List.mem_map_of_mem hmem)

theorem Ordered.tail {entry : String × Store} {rest : Stores} (h : Ordered (entry :: rest)) :
    Ordered rest :=
  (List.pairwise_cons.mp h).2

theorem Ordered.nodup {stores : Stores} (h : stores.Ordered) : stores.names.Nodup := by
  refine List.Pairwise.imp ?_ h
  rintro a b hlt rfl
  exact String.lt_irrefl _ hlt

theorem Ordered.store_eq {stores : Stores} (h : stores.Ordered) {entity : String}
    {a b : Store} (ha : (entity, a) ∈ stores) (hb : (entity, b) ∈ stores) : a = b := by
  induction stores with
  | nil => cases ha
  | cons head rest ih =>
    rcases List.mem_cons.mp ha with rfl | ha' <;> rcases List.mem_cons.mp hb with hb' | hb'
    · cases hb'
      rfl
    · exact absurd (h.lt_of_mem hb') (String.lt_irrefl _)
    · subst hb'
      exact absurd (h.lt_of_mem ha') (String.lt_irrefl _)
    · exact ih h.tail ha' hb'

/-- What a run that converges makes of a store: it is frozen, and all else is as it was. -/
structure KeptFrozen (left kept : Store) : Prop where
  frozen : kept.frozen = true
  facts : kept.facts = left.facts
  entity : kept.entity = left.entity
  kind : kept.kind = left.kind
  defined : kept.defined = left.defined
  convention : kept.convention = left.convention

theorem names_freezeAll (stores : Stores) : stores.freezeAll.names = stores.names := by
  simp [freezeAll, names, Function.comp_def]

theorem exists_left_of_mem_freezeAll {stores : Stores} {entity : String} {kept : Store}
    (h : (entity, kept) ∈ stores.freezeAll) :
    ∃ left, (entity, left) ∈ stores ∧ KeptFrozen left kept := by
  obtain ⟨⟨name, left⟩, hmem, heq⟩ := List.mem_map.mp h
  cases heq
  exact ⟨left, hmem, ⟨rfl, rfl, rfl, rfl, rfl, rfl⟩⟩

end Stores

namespace Fixpoint

variable {ε : Type}

/-! ## One pass -/

/-- A pass over all stores, whatever is recorded of it. -/
abbrev Pass (ε : Type) := Nat → Stores → PassEnd ε

/-- The pass that analyses the entities in the order of their stores. -/
def sequentialPass (analysis : Analysis ε) (pass : Nat) : Stores → PassEnd ε
  | [] => ([], .ok [])
  | (entity, store) :: rest =>
    match analysis entity store pass with
    | (store, .error cause) => ((entity, store) :: rest, .error ⟨entity, pass, cause⟩)
    | (store, .ok report) =>
      let others := sequentialPass analysis pass rest
      ((entity, store) :: others.1, others.2.map ((entity, report) :: ·))

theorem analyseAll_yields (recording : Recording) (analysis : Analysis ε) (pass : Nat)
    (parent : Context) (stores : Stores) :
    Yields (analyseAll recording analysis pass parent stores)
      (sequentialPass analysis pass stores) := by
  induction stores with
  | nil => exact .pure _
  | cons head rest ih =>
    obtain ⟨entity, store⟩ := head
    rw [analyseAll, sequentialPass]
    refine .bind ((Yields.pure _).inChildPhase recording _ _ _) ?_
    cases analysis entity store pass with
    | mk store' answer =>
      cases answer with
      | error cause => exact .pure _
      | ok report => exact ih.bind (.pure _)

theorem runPass_yields (recording : Recording) (analysis : Analysis ε) (pass : Nat)
    (stores : Stores) :
    Yields (runPass recording analysis pass stores) (sequentialPass analysis pass stores) :=
  .get fun _ => analyseAll_yields recording analysis pass _ stores

/-- The stores once every entity has been analysed in a pass. -/
def advance (analysis : Analysis ε) (pass : Nat) (stores : Stores) : Stores :=
  stores.map fun (name, store) => (name, (analysis name store pass).1)

/-- The stores once the entities up to a name have been analysed in a pass. -/
def advanceUpTo (entity : String) (analysis : Analysis ε) (pass : Nat) (stores : Stores) : Stores :=
  stores.map fun (name, store) =>
    if entity < name then (name, store) else (name, (analysis name store pass).1)

/-- What the analysis of an entity comes to in a pass over the stores. -/
def Answers (analysis : Analysis ε) (pass : Nat) (stores : Stores) (entity : String)
    (answer : Except ε PassReport) : Prop :=
  ∃ store, (entity, store) ∈ stores ∧ (analysis entity store pass).2 = answer

/-- The entity fails, and none that comes before it by name. -/
def FailsFirst (analysis : Analysis ε) (pass : Nat) (stores : Stores) (entity : String)
    (cause : ε) : Prop :=
  Answers analysis pass stores entity (.error cause) ∧
    ∀ other < entity, ∀ cause', ¬ Answers analysis pass stores other (.error cause')

section Pass

variable {analysis : Analysis ε} {pass : Nat}

theorem names_advance (stores : Stores) : (advance analysis pass stores).names = stores.names := by
  simp [advance, Stores.names, Function.comp_def]

theorem advanceUpTo_cons (entity name : String) (store : Store) (rest : Stores) :
    advanceUpTo entity analysis pass ((name, store) :: rest) =
      (if entity < name then (name, store) else (name, (analysis name store pass).1)) ::
        advanceUpTo entity analysis pass rest := rfl

theorem advanceUpTo_of_lt {entity : String} {stores : Stores}
    (h : ∀ entry ∈ stores, entity < entry.1) :
    advanceUpTo entity analysis pass stores = stores := by
  unfold advanceUpTo
  rw [List.map_congr_left fun entry hentry => if_pos (h entry hentry)]
  exact List.map_id' stores

theorem answers_cons_iff {name : String} {store : Store} {rest : Stores} {entity : String}
    {answer : Except ε PassReport} :
    Answers analysis pass ((name, store) :: rest) entity answer ↔
      (entity = name ∧ (analysis name store pass).2 = answer) ∨
        Answers analysis pass rest entity answer := by
  constructor
  · rintro ⟨kept, hmem, hanswer⟩
    rcases List.mem_cons.mp hmem with heq | hrest
    · cases heq
      exact Or.inl ⟨rfl, hanswer⟩
    · exact Or.inr ⟨kept, hrest, hanswer⟩
  · rintro (⟨rfl, hanswer⟩ | ⟨kept, hrest, hanswer⟩)
    · exact ⟨store, List.mem_cons_self, hanswer⟩
    · exact ⟨kept, List.mem_cons_of_mem _ hrest, hanswer⟩

theorem FailsFirst.unique {stores : Stores} (hmap : stores.Ordered) {a b : String} {ca cb : ε}
    (ha : FailsFirst analysis pass stores a ca) (hb : FailsFirst analysis pass stores b cb) :
    a = b ∧ ca = cb := by
  have hab : a = b := by
    have hba : b ≤ a := String.not_lt.mp fun h => hb.2 a h ca ha.1
    have hle : a ≤ b := String.not_lt.mp fun h => ha.2 b h cb hb.1
    exact String.le_antisymm hle hba
  subst hab
  obtain ⟨⟨sa, hsa, hca⟩, -⟩ := ha
  obtain ⟨⟨sb, hsb, hcb⟩, -⟩ := hb
  rw [hmap.store_eq hsa hsb, hcb] at hca
  cases hca
  exact ⟨rfl, rfl⟩

/-- A pass without a failure analyses every entity and has a report from each. -/
theorem sequentialPass_without_failure {stores : Stores}
    (h : ∀ entity cause, ¬ Answers analysis pass stores entity (.error cause)) :
    ∃ reports, sequentialPass analysis pass stores = (advance analysis pass stores, .ok reports) ∧
      reports.map (·.1) = stores.names ∧
      ∀ entity report, (entity, report) ∈ reports ↔
        Answers analysis pass stores entity (.ok report) := by
  induction stores with
  | nil => exact ⟨[], rfl, rfl, by simp [Answers]⟩
  | cons head rest ih =>
    obtain ⟨name, store⟩ := head
    obtain ⟨reports, hrest, hnames, hmem⟩ :=
      ih fun entity cause hfails => h entity cause (answers_cons_iff.mpr (Or.inr hfails))
    cases hstep : analysis name store pass with
    | mk store' answer =>
      have hanswer : (analysis name store pass).2 = answer := by rw [hstep]
      cases answer with
      | error cause => exact absurd (answers_cons_iff.mpr (Or.inl ⟨rfl, hanswer⟩)) (h name cause)
      | ok report =>
        refine ⟨(name, report) :: reports, ?_, ?_, ?_⟩
        · simp [sequentialPass, hstep, hrest, Except.map, advance]
        · rw [List.map_cons, hnames]
          rfl
        · intro entity report'
          rw [List.mem_cons, hmem, answers_cons_iff, hanswer, Prod.mk.injEq, Except.ok.injEq,
            eq_comm (a := report')]

/-- A pass with a failure stops at the first entity that fails. -/
theorem sequentialPass_with_failure {stores : Stores} (hmap : stores.Ordered)
    (h : ∃ entity cause, Answers analysis pass stores entity (.error cause)) :
    ∃ entity cause, FailsFirst analysis pass stores entity cause ∧
      sequentialPass analysis pass stores =
        (advanceUpTo entity analysis pass stores, .error ⟨entity, pass, cause⟩) := by
  induction stores with
  | nil =>
    obtain ⟨_, _, _, hmem, _⟩ := h
    cases hmem
  | cons head rest ih =>
    obtain ⟨name, store⟩ := head
    cases hstep : analysis name store pass with
    | mk store' answer =>
      have hanswer : (analysis name store pass).2 = answer := by rw [hstep]
      cases answer with
      | error cause =>
        refine ⟨name, cause, ⟨answers_cons_iff.mpr (Or.inl ⟨rfl, hanswer⟩), ?_⟩, ?_⟩
        · intro other hlt cause' hfails
          rcases answers_cons_iff.mp hfails with ⟨rfl, _⟩ | ⟨kept, hmem, _⟩
          · exact String.lt_irrefl _ hlt
          · exact String.lt_irrefl _ (String.lt_trans hlt (hmap.lt_of_mem hmem))
        · rw [advanceUpTo_cons, if_neg (String.lt_irrefl name),
            advanceUpTo_of_lt fun other hother => hmap.lt_of_mem hother]
          simp only [sequentialPass, hstep]
      | ok report =>
        have hhead : ∀ cause, (analysis name store pass).2 ≠ .error cause := by simp [hstep]
        have hrest : ∃ entity cause, Answers analysis pass rest entity (.error cause) := by
          obtain ⟨entity, cause, hfails⟩ := h
          exact ⟨entity, cause,
            (answers_cons_iff.mp hfails).resolve_left fun hname => hhead cause hname.2⟩
        obtain ⟨entity, cause, ⟨hfirst, hleast⟩, hothers⟩ := ih hmap.tail hrest
        have hlt : name < entity := by
          obtain ⟨kept, hmem, _⟩ := hfirst
          exact hmap.lt_of_mem hmem
        refine ⟨entity, cause, ⟨answers_cons_iff.mpr (Or.inr hfirst), ?_⟩, ?_⟩
        · intro other hother cause' hfails
          rcases answers_cons_iff.mp hfails with ⟨rfl, herror⟩ | hlater
          · exact hhead cause' herror
          · exact hleast other hother cause' hlater
        · have hnot : ¬ entity < name := fun h => String.lt_irrefl _ (String.lt_trans h hlt)
          rw [advanceUpTo_cons, if_neg hnot]
          simp only [sequentialPass, hstep, hothers, Except.map]

end Pass

/-! ## The loop -/

/-- Repeats a pass as a run does. -/
def repeatPass (step : Pass ε) (budget pass : Nat) (pending : List (String × List Property))
    (stores : Stores) : Stores × Except (AnalysisFailure ε) FixpointOutcome :=
  match budget with
  | 0 => (stores, .ok (.delayed pass pending))
  | budget + 1 =>
    match step pass stores with
    | (stores, .error failure) => (stores, .error failure)
    | (stores, .ok reports) =>
      if changedIn reports then repeatPass step budget (pass + 1) (pendingIn reports) stores
      else if (pendingIn reports).isEmpty then (stores.freezeAll, .ok (.converged (pass + 1)))
      else (stores, .ok (.delayed (pass + 1) (pendingIn reports)))

theorem runPasses_yields (recording : Recording) (analysis : Analysis ε) (budget pass : Nat)
    (pending : List (String × List Property)) (stores : Stores) :
    Yields (runPasses recording analysis budget pass pending stores)
      (repeatPass (sequentialPass analysis) budget pass pending stores) := by
  induction budget generalizing pass pending stores with
  | zero => exact .pure _
  | succ budget ih =>
    rw [runPasses, repeatPass]
    refine .bind ((runPass_yields recording analysis pass stores).inPhase recording _ _) ?_
    cases sequentialPass analysis pass stores with
    | mk stores' reports =>
      cases reports with
      | error failure => exact .pure _
      | ok reports =>
        dsimp only
        split
        · exact ih (pass + 1) (pendingIn reports) stores'
        · split <;> exact .pure _

theorem runTraced_yields (configuration : Configuration) (recording : Recording)
    (analysis : Analysis ε) (stores : Stores) :
    Yields (runTraced configuration recording analysis stores)
      (repeatPass (sequentialPass analysis) configuration.maxPasses 0 [] stores) := by
  have hnote : ∀ result : Except (AnalysisFailure ε) FixpointOutcome,
      Yields (noteDelay result) () := fun _ _ => rfl
  refine Yields.inPhase (.bind (runPasses_yields recording analysis _ 0 [] stores) ?_) recording _ _
  exact .bind (hnote _) (.pure _)

theorem run_eq_repeatPass (configuration : Configuration) (recording : Recording)
    (analysis : Analysis ε) (stores : Stores) :
    ((run configuration recording analysis stores).stores,
      (run configuration recording analysis stores).result) =
      repeatPass (sequentialPass analysis) configuration.maxPasses 0 [] stores :=
  runTraced_yields configuration recording analysis stores .idle

/-! ## The history of a run -/

/-- The stores at the start of a pass, if every pass before it completes. -/
def before (analysis : Analysis ε) (stores : Stores) : Nat → Stores
  | 0 => stores
  | pass + 1 => advance analysis pass (before analysis stores pass)

def Completes (analysis : Analysis ε) (stores : Stores) (pass : Nat) : Prop :=
  ∀ entity cause, ¬ Answers analysis pass (before analysis stores pass) entity (.error cause)

def Changes (analysis : Analysis ε) (stores : Stores) (pass : Nat) : Prop :=
  ∃ entity report, Answers analysis pass (before analysis stores pass) entity (.ok report) ∧
    report.changed = true

/-- The entity reports delayed properties in a pass. -/
def Waits (analysis : Analysis ε) (stores : Stores) (pass : Nat) (entity : String)
    (delayed : List Property) : Prop :=
  delayed ≠ [] ∧ ∃ report,
    Answers analysis pass (before analysis stores pass) entity (.ok report) ∧
      report.delayed = delayed

/-- A run comes to a pass if those before it complete and change something. -/
def Reaches (analysis : Analysis ε) (stores : Stores) (pass : Nat) : Prop :=
  ∀ earlier < pass, Completes analysis stores earlier ∧ Changes analysis stores earlier

/-- The passes that are run if no analysis fails: each but the last changes something, and the last
one changes nothing unless the passes are used up. -/
structure StopsAfter (analysis : Analysis ε) (stores : Stores) (maxPasses passes : Nat) : Prop where
  within : passes ≤ maxPasses
  completes : ∀ pass < passes, Completes analysis stores pass
  changes : ∀ pass, pass + 1 < passes → Changes analysis stores pass
  last : passes = maxPasses ∨ ∃ pass, passes = pass + 1 ∧ ¬ Changes analysis stores pass

/-- The last of the passes changes nothing and leaves nobody waiting. -/
def Settles (analysis : Analysis ε) (stores : Stores) (passes : Nat) : Prop :=
  ∃ pass, passes = pass + 1 ∧ ¬ Changes analysis stores pass ∧
    ∀ entity delayed, ¬ Waits analysis stores pass entity delayed

/-- Who waits after the last of the passes, in the order of the stores. -/
structure Pending (analysis : Analysis ε) (stores : Stores) (passes : Nat)
    (pending : List (String × List Property)) : Prop where
  names : (pending.map (·.1)).Sublist stores.names
  mem_iff : ∀ entity delayed, (entity, delayed) ∈ pending ↔
    ∃ pass, passes = pass + 1 ∧ Waits analysis stores pass entity delayed

section History

variable {analysis : Analysis ε} {stores : Stores}

theorem names_before (pass : Nat) : (before analysis stores pass).names = stores.names := by
  induction pass with
  | zero => rfl
  | succ pass ih => rw [before, names_advance, ih]

theorem ordered_before (hmap : stores.Ordered) (pass : Nat) :
    (before analysis stores pass).Ordered := by
  unfold Stores.Ordered
  rw [names_before]
  exact hmap

theorem pending_zero : Pending analysis stores 0 [] := ⟨by simp, by simp⟩

theorem changedIn_iff (reports : List (String × PassReport)) :
    changedIn reports = true ↔
      ∃ entity report, (entity, report) ∈ reports ∧ report.changed = true := by
  simp [changedIn, List.any_eq_true]

theorem mem_pendingIn_iff (reports : List (String × PassReport)) (entity : String)
    (delayed : List Property) :
    (entity, delayed) ∈ pendingIn reports ↔
      delayed ≠ [] ∧ ∃ report, (entity, report) ∈ reports ∧ report.delayed = delayed := by
  simp only [pendingIn, List.mem_map, List.mem_filter]
  constructor
  · rintro ⟨⟨name, report⟩, ⟨hmem, hwaits⟩, heq⟩
    cases heq
    exact ⟨by simpa using hwaits, report, hmem, rfl⟩
  · rintro ⟨hne, report, hmem, rfl⟩
    exact ⟨(entity, report), ⟨hmem, by simpa using hne⟩, rfl⟩

theorem names_pendingIn_sublist (reports : List (String × PassReport)) :
    ((pendingIn reports).map (·.1)).Sublist (reports.map (·.1)) := by
  unfold pendingIn
  rw [List.map_map]
  exact List.filter_sublist.map _

/-- A pass that completes leads from its stores to those of the next one. -/
theorem sequentialPass_of_completes {pass : Nat}
    (h : Completes analysis stores pass) :
    ∃ reports, sequentialPass analysis pass (before analysis stores pass) =
        (before analysis stores (pass + 1), .ok reports) ∧
      (changedIn reports = true ↔ Changes analysis stores pass) ∧
      Pending analysis stores (pass + 1) (pendingIn reports) := by
  obtain ⟨reports, hpass, hnames, hmem⟩ := sequentialPass_without_failure h
  refine ⟨reports, hpass, ?_, ?_, ?_⟩
  · simp only [changedIn_iff, hmem, Changes]
  · have hsublist := names_pendingIn_sublist reports
    rw [hnames, names_before] at hsublist
    exact hsublist
  · intro entity delayed
    rw [mem_pendingIn_iff]
    simp only [hmem, Waits, Nat.add_right_cancel_iff, exists_eq_left']

theorem isEmpty_iff_of_pending {pass : Nat} {pending : List (String × List Property)}
    (h : Pending analysis stores (pass + 1) pending) :
    pending.isEmpty = true ↔ ∀ entity delayed, ¬ Waits analysis stores pass entity delayed := by
  rw [List.isEmpty_iff, List.eq_nil_iff_forall_not_mem]
  constructor
  · intro hnone entity delayed hwaits
    exact hnone _ ((h.mem_iff entity delayed).mpr ⟨pass, rfl, hwaits⟩)
  · rintro hnone ⟨entity, delayed⟩ hmem
    obtain ⟨pass', heq, hwaits⟩ := (h.mem_iff entity delayed).mp hmem
    cases heq
    exact hnone entity delayed hwaits

/-- What the loop does after a pass that completes. -/
theorem repeatPass_of_completes {pass : Nat} (budget : Nat)
    (pending : List (String × List Property)) (h : Completes analysis stores pass) :
    ∃ next, Pending analysis stores (pass + 1) next ∧
      repeatPass (sequentialPass analysis) (budget + 1) pass pending
          (before analysis stores pass) =
        open Classical in
        if Changes analysis stores pass then
          repeatPass (sequentialPass analysis) budget (pass + 1) next
            (before analysis stores (pass + 1))
        else if Settles analysis stores (pass + 1) then
          ((before analysis stores (pass + 1)).freezeAll, .ok (.converged (pass + 1)))
        else (before analysis stores (pass + 1), .ok (.delayed (pass + 1) next)) := by
  obtain ⟨reports, hstep, hchanged, hpending⟩ := sequentialPass_of_completes h
  refine ⟨pendingIn reports, hpending, ?_⟩
  rw [repeatPass, hstep]
  by_cases hchanges : Changes analysis stores pass
  · simp [hchanges, hchanged.mpr hchanges]
  · have hsettles : Settles analysis stores (pass + 1) ↔ (pendingIn reports).isEmpty = true := by
      rw [isEmpty_iff_of_pending hpending]
      simp [Settles, hchanges]
    simp [hchanges, mt hchanged.mp hchanges, hsettles]

/-- After passes that complete and change something the loop goes on with the pass after them. -/
theorem repeatPass_of_reaches {maxPasses : Nat} (pass : Nat)
    (hle : pass ≤ maxPasses) (h : Reaches analysis stores pass) :
    ∃ pending, Pending analysis stores pass pending ∧
      repeatPass (sequentialPass analysis) maxPasses 0 [] stores =
        repeatPass (sequentialPass analysis) (maxPasses - pass) pass pending
          (before analysis stores pass) := by
  induction pass with
  | zero => exact ⟨[], pending_zero, rfl⟩
  | succ pass ih =>
    obtain ⟨pending, _, hloop⟩ := ih (by omega) fun earlier hlt => h earlier (by omega)
    obtain ⟨hcompletes, hchanges⟩ := h pass (by omega)
    obtain ⟨next, hnext, hstep⟩ :=
      repeatPass_of_completes (maxPasses - (pass + 1)) pending hcompletes
    refine ⟨next, hnext, ?_⟩
    rw [hloop, show maxPasses - pass = (maxPasses - (pass + 1)) + 1 by omega, hstep,
      if_pos hchanges]

/-- What a run without a failure leaves behind. -/
theorem repeatPass_of_stopsAfter {maxPasses passes : Nat}
    (h : StopsAfter analysis stores maxPasses passes) :
    (Settles analysis stores passes ∧
      repeatPass (sequentialPass analysis) maxPasses 0 [] stores =
        ((before analysis stores passes).freezeAll, .ok (.converged passes))) ∨
    (¬ Settles analysis stores passes ∧ ∃ pending, Pending analysis stores passes pending ∧
      repeatPass (sequentialPass analysis) maxPasses 0 [] stores =
        (before analysis stores passes, .ok (.delayed passes pending))) := by
  cases passes with
  | zero =>
    right
    have hmax : maxPasses = 0 := by
      rcases h.last with hmax | ⟨_, heq, _⟩
      · exact hmax.symm
      · cases heq
    subst hmax
    exact ⟨by simp [Settles], [], pending_zero, rfl⟩
  | succ pass =>
    have hwithin := h.within
    have hreaches : Reaches analysis stores pass := fun earlier hlt =>
      ⟨h.completes earlier (by omega), h.changes earlier (by omega)⟩
    obtain ⟨pending, _, hloop⟩ :=
      repeatPass_of_reaches pass (Nat.le_of_lt hwithin) hreaches
    obtain ⟨next, hnext, hstep⟩ := repeatPass_of_completes (maxPasses - (pass + 1))
      pending (h.completes pass (by omega))
    rw [show maxPasses - pass = (maxPasses - (pass + 1)) + 1 by omega, hstep] at hloop
    by_cases hchanges : Changes analysis stores pass
    · -- a pass with a change is only the last one because the passes are used up
      have hmax : maxPasses = pass + 1 := by
        rcases h.last with hmax | ⟨_, heq, hquiet⟩
        · exact hmax.symm
        · cases heq
          exact absurd hchanges hquiet
      have hunsettled : ¬ Settles analysis stores (pass + 1) := by simp [Settles, hchanges]
      subst hmax
      rw [if_pos hchanges, Nat.sub_self] at hloop
      exact Or.inr ⟨hunsettled, next, hnext, hloop⟩
    · rw [if_neg hchanges] at hloop
      by_cases hsettles : Settles analysis stores (pass + 1)
      · rw [if_pos hsettles] at hloop
        exact Or.inl ⟨hsettles, hloop⟩
      · rw [if_neg hsettles] at hloop
        exact Or.inr ⟨hsettles, next, hnext, hloop⟩

/-- What a run with a failure leaves behind. -/
theorem repeatPass_of_failsFirst (hmap : stores.Ordered)
    {maxPasses pass : Nat} {entity : String} {cause : ε} (hlt : pass < maxPasses)
    (h : Reaches analysis stores pass)
    (hfails : FailsFirst analysis pass (before analysis stores pass) entity cause) :
    repeatPass (sequentialPass analysis) maxPasses 0 [] stores =
      (advanceUpTo entity analysis pass (before analysis stores pass),
        .error ⟨entity, pass, cause⟩) := by
  obtain ⟨_, _, hloop⟩ := repeatPass_of_reaches pass (Nat.le_of_lt hlt) h
  have hordered : (before analysis stores pass).Ordered := ordered_before hmap pass
  obtain ⟨entity', cause', hfirst, hpass⟩ :=
    sequentialPass_with_failure hordered ⟨entity, cause, hfails.1⟩
  obtain ⟨rfl, rfl⟩ := hfirst.unique hordered hfails
  rw [hloop, show maxPasses - pass = (maxPasses - pass - 1) + 1 by omega, repeatPass,
    hpass]

/-- A run that has come to a pass comes to the next one, or stops or fails in this one. -/
theorem Reaches.succ_or_ends (hmap : stores.Ordered) {pass : Nat}
    (h : Reaches analysis stores pass) :
    Reaches analysis stores (pass + 1) ∨
    (Completes analysis stores pass ∧ ¬ Changes analysis stores pass) ∨
    ∃ entity cause, FailsFirst analysis pass (before analysis stores pass) entity cause := by
  by_cases hcompletes : Completes analysis stores pass
  · by_cases hchanges : Changes analysis stores pass
    · left
      intro earlier hlt
      rcases Nat.lt_succ_iff_lt_or_eq.mp hlt with hlt | rfl
      · exact h earlier hlt
      · exact ⟨hcompletes, hchanges⟩
    · exact Or.inr (Or.inl ⟨hcompletes, hchanges⟩)
  · simp only [Completes, Classical.not_forall, Classical.not_not] at hcompletes
    obtain ⟨entity, cause, hfirst, _⟩ :=
      sequentialPass_with_failure (ordered_before hmap pass) hcompletes
    exact Or.inr (Or.inr ⟨entity, cause, hfirst⟩)

theorem Reaches.stopsAfter_succ {maxPasses pass : Nat} (h : Reaches analysis stores pass)
    (hlt : pass < maxPasses) (hcompletes : Completes analysis stores pass)
    (hquiet : ¬ Changes analysis stores pass) :
    StopsAfter analysis stores maxPasses (pass + 1) where
  within := hlt
  completes := by
    intro earlier hearlier
    rcases Nat.lt_succ_iff_lt_or_eq.mp hearlier with hearlier | rfl
    · exact (h earlier hearlier).1
    · exact hcompletes
  changes := fun earlier hearlier => (h earlier (by omega)).2
  last := Or.inr ⟨pass, rfl, hquiet⟩

theorem Reaches.stopsAfter_max {maxPasses : Nat} (h : Reaches analysis stores maxPasses) :
    StopsAfter analysis stores maxPasses maxPasses where
  within := Nat.le_refl _
  completes := fun pass hlt => (h pass hlt).1
  changes := fun pass hlt => (h pass (by omega)).2
  last := Or.inl rfl

/-- Every run comes to its last pass or to a failure. -/
theorem stopsAfter_or_failsFirst (hmap : stores.Ordered) (maxPasses : Nat) :
    (∃ passes, StopsAfter analysis stores maxPasses passes) ∨
    ∃ pass entity cause, pass < maxPasses ∧ Reaches analysis stores pass ∧
      FailsFirst analysis pass (before analysis stores pass) entity cause := by
  -- from the first pass on, either the run ends or it comes to the next pass
  have hpasses : ∀ pass ≤ maxPasses, Reaches analysis stores pass ∨
      (∃ passes, StopsAfter analysis stores maxPasses passes) ∨
      ∃ pass entity cause, pass < maxPasses ∧ Reaches analysis stores pass ∧
        FailsFirst analysis pass (before analysis stores pass) entity cause := by
    intro pass
    induction pass with
    | zero => exact fun _ => Or.inl fun earlier hlt => absurd hlt (Nat.not_lt_zero earlier)
    | succ pass ih =>
      intro hlt
      rcases ih (Nat.le_of_lt hlt) with hreaches | hends
      · rcases hreaches.succ_or_ends hmap with
          hnext | ⟨hcompletes, hquiet⟩ | ⟨entity, cause, hfirst⟩
        · exact Or.inl hnext
        · exact Or.inr (Or.inl ⟨pass + 1, hreaches.stopsAfter_succ hlt hcompletes hquiet⟩)
        · exact Or.inr (Or.inr ⟨pass, entity, cause, hlt, hreaches, hfirst⟩)
      · exact Or.inr hends
  rcases hpasses maxPasses (Nat.le_refl _) with hreaches | hends
  · exact Or.inl ⟨maxPasses, hreaches.stopsAfter_max⟩
  · exact hends

/-! ## How a run ends -/

/-- The ways in which a run ends, with the stores it leaves. -/
inductive Ending (analysis : Analysis ε) (stores : Stores) (maxPasses : Nat) :
    Stores × Except (AnalysisFailure ε) FixpointOutcome → Prop
  | converged {passes : Nat} (stops : StopsAfter analysis stores maxPasses passes)
      (settles : Settles analysis stores passes) :
      Ending analysis stores maxPasses
        ((before analysis stores passes).freezeAll, .ok (.converged passes))
  | delayed {passes : Nat} {pending : List (String × List Property)}
      (stops : StopsAfter analysis stores maxPasses passes)
      (unsettled : ¬ Settles analysis stores passes)
      (waiting : Pending analysis stores passes pending) :
      Ending analysis stores maxPasses
        (before analysis stores passes, .ok (.delayed passes pending))
  | failed {pass : Nat} {entity : String} {cause : ε} (within : pass < maxPasses)
      (reaches : Reaches analysis stores pass)
      (first : FailsFirst analysis pass (before analysis stores pass) entity cause) :
      Ending analysis stores maxPasses
        (advanceUpTo entity analysis pass (before analysis stores pass),
          .error ⟨entity, pass, cause⟩)

theorem repeatPass_ending (hmap : stores.Ordered) (maxPasses : Nat) :
    Ending analysis stores maxPasses
      (repeatPass (sequentialPass analysis) maxPasses 0 [] stores) := by
  rcases stopsAfter_or_failsFirst hmap maxPasses with
    ⟨passes, hstops⟩ | ⟨pass, entity, cause, hlt, hreaches, hfirst⟩
  · rcases repeatPass_of_stopsAfter hstops with
      ⟨hsettles, heq⟩ | ⟨hunsettled, pending, hpending, heq⟩
    · rw [heq]
      exact .converged hstops hsettles
    · rw [heq]
      exact .delayed hstops hunsettled hpending
  · rw [repeatPass_of_failsFirst hmap hlt hreaches hfirst]
    exact .failed hlt hreaches hfirst

section Inversion

variable {maxPasses passes pass : Nat} {last : Stores}

theorem Ending.of_converged
    (h : Ending analysis stores maxPasses (last, .ok (.converged passes))) :
    StopsAfter analysis stores maxPasses passes ∧ Settles analysis stores passes ∧
      last = (before analysis stores passes).freezeAll := by
  cases h with
  | converged stops settles => exact ⟨stops, settles, rfl⟩

theorem Ending.of_delayed {pending : List (String × List Property)}
    (h : Ending analysis stores maxPasses (last, .ok (.delayed passes pending))) :
    StopsAfter analysis stores maxPasses passes ∧ ¬ Settles analysis stores passes ∧
      Pending analysis stores passes pending ∧ last = before analysis stores passes := by
  cases h with
  | delayed stops unsettled waiting => exact ⟨stops, unsettled, waiting, rfl⟩

theorem Ending.of_failed {entity : String} {cause : ε}
    (h : Ending analysis stores maxPasses (last, .error ⟨entity, pass, cause⟩)) :
    pass < maxPasses ∧ Reaches analysis stores pass ∧
      FailsFirst analysis pass (before analysis stores pass) entity cause ∧
      last = advanceUpTo entity analysis pass (before analysis stores pass) := by
  cases h with
  | failed within reaches first => exact ⟨within, reaches, first, rfl⟩

end Inversion

end History

/-- A run stops after the first pass that changes nothing or when its passes are used up. It
converges exactly if that pass changes nothing and leaves nobody waiting, and then freezes every
store with the facts that the pass leaves in it. Otherwise it ends delayed: it leaves the stores as
they are and tells who waits for what after the last pass. If the analysis fails for an entity, the
run ends there; entities that come later by name are as they were before the pass. -/
theorem run_outcome (configuration : Configuration) (recording : Recording) (analysis : Analysis ε)
    (stores : Stores) (hmap : stores.Ordered) :
    let final := run configuration recording analysis stores
    let maxPasses := configuration.maxPasses
    (∀ passes,
      (final.result = .ok (.converged passes) ↔
        StopsAfter analysis stores maxPasses passes ∧ Settles analysis stores passes) ∧
      (final.result = .ok (.converged passes) →
        final.stores.names = stores.names ∧
        ∀ entity kept, (entity, kept) ∈ final.stores →
          ∃ left, (entity, left) ∈ before analysis stores passes ∧
            Stores.KeptFrozen left kept)) ∧
    (∀ passes,
      ((∃ pending, final.result = .ok (.delayed passes pending)) ↔
        StopsAfter analysis stores maxPasses passes ∧ ¬ Settles analysis stores passes) ∧
      ∀ pending, final.result = .ok (.delayed passes pending) →
        final.stores = before analysis stores passes ∧
        (pending.map (·.1)).Pairwise (· < ·) ∧
        ∀ entity delayed, (entity, delayed) ∈ pending ↔
          ∃ pass, passes = pass + 1 ∧ Waits analysis stores pass entity delayed) ∧
    (configuration.parallel = false → ∀ entity pass cause,
      (final.result = .error ⟨entity, pass, cause⟩ ↔
        pass < maxPasses ∧ Reaches analysis stores pass ∧
        FailsFirst analysis pass (before analysis stores pass) entity cause) ∧
      (final.result = .error ⟨entity, pass, cause⟩ →
        final.stores = advanceUpTo entity analysis pass (before analysis stores pass))) := by
  intro final maxPasses
  have hrun : (final.stores, final.result) =
      repeatPass (sequentialPass analysis) maxPasses 0 [] stores :=
    run_eq_repeatPass configuration recording analysis stores
  have hending : Ending analysis stores maxPasses (final.stores, final.result) := by
    rw [hrun]
    exact repeatPass_ending hmap maxPasses
  refine ⟨fun passes => ⟨⟨fun h => ?_, ?_⟩, fun h => ?_⟩,
    fun passes => ⟨⟨?_, ?_⟩, fun pending h => ?_⟩,
    fun _ entity pass cause => ⟨⟨fun h => ?_, ?_⟩, fun h => ?_⟩⟩
  · rw [h] at hending
    exact ⟨hending.of_converged.1, hending.of_converged.2.1⟩
  · rintro ⟨hstops, hsettles⟩
    rcases repeatPass_of_stopsAfter hstops with ⟨_, heq⟩ | ⟨hunsettled, _⟩
    · exact (Prod.mk.inj (hrun.trans heq)).2
    · exact absurd hsettles hunsettled
  · rw [h] at hending
    obtain ⟨_, _, hstores⟩ := hending.of_converged
    rw [hstores, Stores.names_freezeAll, names_before]
    exact ⟨rfl, fun entity kept => Stores.exists_left_of_mem_freezeAll⟩
  · rintro ⟨pending, h⟩
    rw [h] at hending
    exact ⟨hending.of_delayed.1, hending.of_delayed.2.1⟩
  · rintro ⟨hstops, hunsettled⟩
    rcases repeatPass_of_stopsAfter hstops with ⟨hsettles, _⟩ | ⟨_, pending, _, heq⟩
    · exact absurd hsettles hunsettled
    · exact ⟨pending, (Prod.mk.inj (hrun.trans heq)).2⟩
  · rw [h] at hending
    obtain ⟨_, _, hpending, hstores⟩ := hending.of_delayed
    exact ⟨hstores, hmap.sublist hpending.names, hpending.mem_iff⟩
  · rw [h] at hending
    obtain ⟨hlt, hreaches, hfirst, _⟩ := hending.of_failed
    exact ⟨hlt, hreaches, hfirst⟩
  · rintro ⟨hlt, hreaches, hfirst⟩
    have heq := repeatPass_of_failsFirst hmap hlt hreaches hfirst
    exact (Prod.mk.inj (hrun.trans heq)).2
  · rw [h] at hending
    exact hending.of_failed.2.2.2

/-- The second pass of one run fails for an entity, that of another one converges. -/
theorem second_pass_ends_run :
    let store (entity : String) := Store.empty entity .type true .defensive
    let stores : Stores := Stores.insert "acme.Pool" (store "acme.Pool")
      (Stores.insert "acme.Cart" (store "acme.Cart")
        (Stores.insert "acme.Shop" (store "acme.Shop") []))
    let failing : Analysis String := fun entity store pass =>
      if pass = 0 then (store, .ok ⟨true, [.final]⟩)
      else if entity = "acme.Pool" then (store, .error "no bounds")
      else (store.keep .final (.flag true), .ok ⟨true, []⟩)
    let settling : Analysis String := fun _ store pass =>
      if pass = 0 then (store.keep .final (.flag true), .ok ⟨true, [.container]⟩)
      else (store, .ok .stable)
    let failed := run ⟨.defensive, 5, false⟩ true failing stores
    let converged := run ⟨.defensive, 5, false⟩ true settling stores
    stores.Ordered ∧ failed.result = .error ⟨"acme.Pool", 1, "no bounds"⟩ ∧
      failed.stores = advanceUpTo "acme.Pool" failing 1 (before failing stores 1) ∧
      converged.result = .ok (.converged 2) ∧
      converged.stores.names = ["acme.Cart", "acme.Pool", "acme.Shop"] ∧
      ∀ entity kept, (entity, kept) ∈ converged.stores →
        kept.frozen = true ∧ kept.facts .final = some (.flag true) := by
  intro store stores failing settling failed converged
  have hmap : stores.Ordered := ((Stores.ordered_nil.insert _ _).insert _ _).insert _ _
  have hfailed : failed.result = .error ⟨"acme.Pool", 1, "no bounds"⟩ := by rfl
  have hconverged : converged.result = .ok (.converged 2) := by rfl
  have hfail := run_outcome ⟨.defensive, 5, false⟩ true failing stores hmap
  have hsettle := run_outcome ⟨.defensive, 5, false⟩ true settling stores hmap
  obtain ⟨hnames, hkept⟩ := (hsettle.1 2).2 hconverged
  refine ⟨hmap, hfailed, (hfail.2.2 rfl "acme.Pool" 1 "no bounds").2 hfailed, hconverged, hnames,
    fun entity kept hmem => ?_⟩
  obtain ⟨left, hleft, hfrozen⟩ := hkept entity kept hmem
  have hfinal : ∀ entry ∈ before settling stores 2, entry.2.facts .final = some (.flag true) := by
    decide
  exact ⟨hfrozen.frozen, hfrozen.facts ▸ hfinal _ hleft⟩

end Fixpoint

end Mutability
