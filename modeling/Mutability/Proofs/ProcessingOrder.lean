import Mutability.Proofs.FixpointRuns

/-!
# The order of processing

A pass may visit the entities in any order, at the same time or one after the other, as long as it
visits each of them once and reads their answers off in the order of the stores. Every entity is
analysed in a slot of its own, so visits to different entities do not meet
(`foldl_visit_of_mem`), and a run comes out as it does in the order of names.
-/

namespace Mutability

namespace Fixpoint

variable {ε : Type}

/-! ## Slots -/

/-- A store in the course of a pass, with what its analysis came to once it has been visited. -/
structure Slot (ε : Type) where
  entity : String
  store : Store
  answer? : Option (Except ε PassReport)

namespace Slot

def unvisited (entry : String × Store) : Slot ε := ⟨entry.1, entry.2, none⟩

def analysed (analysis : Analysis ε) (pass : Nat) (slot : Slot ε) : Slot ε :=
  ⟨slot.entity, (analysis slot.entity slot.store pass).1,
   some (analysis slot.entity slot.store pass).2⟩

/-- Analyses an entity in its own slot; the others stay as they are. -/
def visit (analysis : Analysis ε) (pass : Nat) (entity : String) (slot : Slot ε) : Slot ε :=
  if slot.entity = entity then slot.analysed analysis pass else slot

def entry (slot : Slot ε) : String × Store := (slot.entity, slot.store)

end Slot

/-- The answers in the order of the slots, up to the first failure. -/
def collect (pass : Nat) : List (Slot ε) → Except (AnalysisFailure ε) (List (String × PassReport))
  | [] => .ok []
  | slot :: rest =>
    match slot.answer? with
    | none => collect pass rest
    | some (.error cause) => .error ⟨slot.entity, pass, cause⟩
    | some (.ok report) => (collect pass rest).map ((slot.entity, report) :: ·)

/-- The pass that visits the entities in the order chosen for it. -/
def passInOrder (order : Nat → List String) (analysis : Analysis ε) : Pass ε := fun pass stores =>
  let slots := (order pass).foldl
    (fun slots entity => slots.map (Slot.visit analysis pass entity)) (stores.map Slot.unvisited)
  (slots.map Slot.entry, collect pass slots)

/-! ## One pass -/

section Pass

variable {analysis : Analysis ε} {pass : Nat}

theorem foldl_visit_of_not_mem {order : List String} {slot : Slot ε} (h : slot.entity ∉ order) :
    order.foldl (fun slot entity => slot.visit analysis pass entity) slot = slot := by
  induction order with
  | nil => rfl
  | cons entity order ih =>
    obtain ⟨hne, hrest⟩ := not_or.mp (mt List.mem_cons.mpr h)
    rw [List.foldl_cons, Slot.visit, if_neg hne, ih hrest]

/-- A slot whose entity is visited once has been analysed in the end. -/
theorem foldl_visit_of_mem {order : List String} (hnodup : order.Nodup) {slot : Slot ε}
    (h : slot.entity ∈ order) :
    order.foldl (fun slot entity => slot.visit analysis pass entity) slot =
      slot.analysed analysis pass := by
  induction order with
  | nil => cases h
  | cons entity order ih =>
    obtain ⟨hentity, hrest⟩ := List.nodup_cons.mp hnodup
    rw [List.foldl_cons, Slot.visit]
    split
    · rename_i heq
      exact foldl_visit_of_not_mem (by rw [← heq] at hentity; exact hentity)
    · rename_i hne
      exact ih hrest ((List.mem_cons.mp h).resolve_left hne)

theorem foldl_map_visit (order : List String) (slots : List (Slot ε)) :
    order.foldl (fun slots entity => slots.map (Slot.visit analysis pass entity)) slots =
      slots.map fun slot =>
        order.foldl (fun slot entity => slot.visit analysis pass entity) slot := by
  induction order generalizing slots with
  | nil => simp
  | cons entity order ih => simp [ih, Function.comp_def]

theorem collect_analysed (stores : Stores) :
    collect pass (stores.map fun entry => (Slot.unvisited entry).analysed analysis pass) =
      (sequentialPass analysis pass stores).2 := by
  induction stores with
  | nil => rfl
  | cons head rest ih =>
    obtain ⟨name, store⟩ := head
    rw [List.map_cons, collect, ih]
    cases hstep : analysis name store pass with
    | mk store' answer =>
      cases answer <;> simp [sequentialPass, Slot.analysed, Slot.unvisited, hstep]

theorem stores_sequentialPass
    (hanalysis : ∀ entity store pass, ∃ report, (analysis entity store pass).2 = .ok report)
    (stores : Stores) :
    (sequentialPass analysis pass stores).1 = advance analysis pass stores := by
  have hcompletes : ∀ entity cause, ¬ Answers analysis pass stores entity (.error cause) := by
    rintro entity cause ⟨store, _, herror⟩
    obtain ⟨report, hreport⟩ := hanalysis entity store pass
    rw [hreport] at herror
    cases herror
  obtain ⟨_, hpass, _⟩ := sequentialPass_without_failure hcompletes
  rw [hpass]

theorem passInOrder_eq {order : Nat → List String} {stores : Stores}
    (hanalysis : ∀ entity store pass, ∃ report, (analysis entity store pass).2 = .ok report)
    (hnames : stores.names.Nodup) (horder : (order pass).Perm stores.names) :
    passInOrder order analysis pass stores = sequentialPass analysis pass stores := by
  have hslots : (order pass).foldl
      (fun slots entity => slots.map (Slot.visit analysis pass entity))
      (stores.map Slot.unvisited) =
        stores.map fun entry => (Slot.unvisited entry).analysed analysis pass := by
    rw [foldl_map_visit, List.map_map]
    apply List.map_congr_left
    intro entry hentry
    apply foldl_visit_of_mem (horder.nodup_iff.mpr hnames)
    exact horder.mem_iff.mpr (List.mem_map_of_mem hentry)
  refine Prod.ext ?_ ?_
  · rw [stores_sequentialPass hanalysis]
    simp only [passInOrder, hslots, List.map_map]
    rfl
  · simp only [passInOrder, hslots, collect_analysed]

end Pass

/-! ## All passes -/

/-- Passes that agree on all stores of the same entities make the same run. -/
theorem repeatPass_congr {step step' : Pass ε} {names : List String}
    (hstep : ∀ pass stores, Stores.names stores = names → step pass stores = step' pass stores)
    (hnames : ∀ pass stores, (step' pass stores).1.names = Stores.names stores)
    (budget pass : Nat) (pending : List (String × List Property)) {stores : Stores}
    (h : stores.names = names) :
    repeatPass step budget pass pending stores = repeatPass step' budget pass pending stores := by
  induction budget generalizing pass pending stores with
  | zero => rfl
  | succ budget ih =>
    have hnext := hnames pass stores
    rw [repeatPass, repeatPass, hstep pass stores h]
    cases hthis : step' pass stores with
    | mk stores' result =>
      rw [hthis] at hnext
      cases result with
      | error failure => rfl
      | ok reports =>
        simp only
        rw [ih (pass + 1) (pendingIn reports) (hnext.trans h)]

/-- An analysis that never fails comes to the same stores and the same outcome, whatever order its
entities are visited in and however the order changes from pass to pass. -/
theorem processing_order_irrelevant (configuration : Configuration) (recording : Recording)
    (analysis : Analysis ε) (stores : Stores) (order : Nat → List String)
    (hmap : stores.Ordered)
    (hanalysis : ∀ entity store pass, ∃ report, (analysis entity store pass).2 = .ok report)
    (horder : ∀ pass, (order pass).Perm stores.names) :
    repeatPass (passInOrder order analysis) configuration.maxPasses 0 [] stores =
      ((run configuration recording analysis stores).stores,
        (run configuration recording analysis stores).result) := by
  rw [run_eq_repeatPass]
  refine repeatPass_congr (fun pass others hnames => ?_) (fun pass others => ?_) _ _ _ rfl
  · have hnodup := hmap.nodup
    rw [← hnames] at horder hnodup
    exact passInOrder_eq hanalysis hnodup (horder pass)
  · rw [stores_sequentialPass hanalysis, names_advance]

theorem visits_turn_round :
    let store (entity : String) := Store.empty entity .type true .defensive
    let stores : Stores := [("acme.Cart", store "acme.Cart"), ("acme.Pool", store "acme.Pool"),
      ("acme.Shop", store "acme.Shop")]
    let analysis : Analysis String := fun entity store pass =>
      if pass = 0 then (store.keep .final (.flag true), .ok ⟨true, []⟩)
      else if entity = "acme.Pool" then (store, .ok ⟨false, [.container]⟩)
      else (store, .ok .stable)
    let order (pass : Nat) := if pass = 0 then stores.names.reverse else stores.names
    let final := run ⟨.defensive, 5, true⟩ true analysis stores
    stores.Ordered ∧
      (∀ entity store pass, ∃ report, (analysis entity store pass).2 = .ok report) ∧
      (∀ pass, (order pass).Perm stores.names) ∧
      repeatPass (passInOrder order analysis) 5 0 [] stores = (final.stores, final.result) ∧
      final.result = .ok (.delayed 2 [("acme.Pool", [.container])]) := by
  intro store stores analysis order final
  have hmap : stores.Ordered := by
    change List.Pairwise _ ["acme.Cart", "acme.Pool", "acme.Shop"]
    decide
  have hanalysis : ∀ entity store pass, ∃ report, (analysis entity store pass).2 = .ok report := by
    intro entity store pass
    simp only [analysis]
    split
    · exact ⟨_, rfl⟩
    · split <;> exact ⟨_, rfl⟩
  have horder : ∀ pass, (order pass).Perm stores.names := by
    intro pass
    simp only [order]
    split
    · exact List.reverse_perm _
    · exact List.Perm.refl _
  exact ⟨hmap, hanalysis, horder, processing_order_irrelevant ⟨.defensive, 5, true⟩ true analysis
    stores order hmap hanalysis horder, rfl⟩

end Fixpoint

end Mutability
