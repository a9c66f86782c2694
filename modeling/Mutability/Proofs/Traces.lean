import Mutability.Derivation.Entities

/-!
# Work under a tracer

`Yields` says what work comes to whatever is traced, `Records` which spans it leaves: they have
ended, the spans around them are still running as they were, and the context is the old one.
`Records.finish` is the rule for a span around work, and a derivation is the simplest case of it
(`deriveTraced_records`).
-/

namespace Mutability

/-! ## What the work comes to -/

section Yields

variable {α β : Type}

/-- The work comes to the result whatever has been traced before it. -/
def Yields (work : Traced α) (result : α) : Prop := ∀ tracer, (work.run tracer).1 = result

theorem Yields.pure (result : α) : Yields (pure result) result := fun _ => rfl

theorem Yields.bind {work : Traced α} {next : α → Traced β} {a : α} {b : β} (h : Yields work a)
    (hnext : Yields (next a) b) : Yields (work >>= next) b := by
  intro tracer
  show ((next (work.run tracer).1).run (work.run tracer).2).1 = b
  rw [h tracer]
  exact hnext _

theorem Yields.trace_bind {work : Traced α} {a : α} (h : Yields work a) (next : α → Traced β)
    (tracer : Tracer) :
    ((work >>= next).run tracer).2 = ((next a).run (work.run tracer).2).2 := by
  rw [← h tracer]
  rfl

theorem Yields.get {next : Tracer → Traced β} {b : β} (h : ∀ tracer, Yields (next tracer) b) :
    Yields (get >>= next) b := fun tracer => h tracer tracer

theorem Yields.inChildPhase {work : Traced α} {a : α} (h : Yields work a) (recording : Recording)
    (phase : Phase) (attributes : Attributes) (parent : Context) :
    Yields (inChildPhase recording phase attributes parent work) a := by
  intro tracer
  cases recording with
  | false => exact h tracer
  | true => exact h (tracer.start phase attributes parent)

theorem Yields.inPhase {work : Traced α} {a : α} (h : Yields work a) (recording : Recording)
    (phase : Phase) (attributes : Attributes) :
    Yields (inPhase recording phase attributes work) a :=
  .get fun _ => h.inChildPhase recording phase attributes _

/-- Nothing is added to work that is not recorded. -/
theorem inPhase_plain (phase : Phase) (attributes : Attributes) (work : Traced α)
    (tracer : Tracer) : (inPhase false phase attributes work).run tracer = work.run tracer := rfl

end Yields

/-! ## What the work records -/

/-- No span that is still running has the number of the next one. -/
def Tracer.Fresh (tracer : Tracer) : Prop := ∀ span ∈ tracer.running, span.id < tracer.started

theorem Tracer.Fresh.start {tracer : Tracer} (h : tracer.Fresh) (phase : Phase)
    (attributes : Attributes) (parent : Context) :
    (tracer.start phase attributes parent).Fresh := by
  intro span hspan
  rcases List.mem_cons.mp hspan with rfl | hspan
  · exact Nat.lt_succ_self _
  · exact Nat.lt_succ_of_lt (h span hspan)

/-- Between two states of a tracer the spans were started and have ended. -/
structure Records (before after : Tracer) (spans : List SpanRecord) : Prop where
  started : after.started = before.started + spans.length
  running : after.running = before.running
  ended : after.ended = before.ended ++ spans
  current : after.current = before.current

namespace Records

theorem refl (tracer : Tracer) : Records tracer tracer [] := ⟨rfl, rfl, by simp, rfl⟩

theorem trans {first second third : Tracer} {spans others : List SpanRecord}
    (h : Records first second spans) (h' : Records second third others) :
    Records first third (spans ++ others) where
  started := by rw [h'.started, h.started, List.length_append, Nat.add_assoc]
  running := h'.running.trans h.running
  ended := by rw [h'.ended, h.ended, List.append_assoc]
  current := h'.current.trans h.current

theorem fresh {before after : Tracer} {spans : List SpanRecord} (h : Records before after spans)
    (hfresh : before.Fresh) : after.Fresh := by
  intro span hspan
  rw [h.running] at hspan
  rw [h.started]
  exact Nat.lt_add_right _ (hfresh span hspan)

/-- A span ends after all that were recorded in it, with the events noted on it until then. -/
theorem finish {before after : Tracer} {span : SpanRecord} {spans : List SpanRecord}
    (hfresh : before.Fresh) (hid : span.id = before.started)
    (hstarted : after.started = before.started + 1 + spans.length)
    (hrunning : after.running = span :: before.running)
    (hended : after.ended = before.ended ++ spans) :
    Records before (after.finish before.started before.current) (spans ++ [span]) := by
  have hother : ∀ other ∈ before.running, other.id ≠ before.started :=
    fun other hother => Nat.ne_of_lt (hfresh other hother)
  have hkept : before.running.filter (·.id != before.started) = before.running :=
    List.filter_eq_self.mpr fun other h => bne_iff_ne.mpr (hother other h)
  have hgone : before.running.filter (·.id == before.started) = [] :=
    List.filter_eq_nil_iff.mpr fun other h heq => hother other h (beq_iff_eq.mp heq)
  refine ⟨?_, ?_, ?_, rfl⟩
  · simp only [Tracer.finish, hstarted, List.length_append, List.length_singleton]
    omega
  · simp [Tracer.finish, hrunning, hid, hkept]
  · simp [Tracer.finish, hrunning, hended, hid, hgone]

end Records

section Phases

variable {α : Type} {work : Traced α} {tracer : Tracer} {spans : List SpanRecord}

theorem inChildPhase_records (hfresh : tracer.Fresh) (phase : Phase) (attributes : Attributes)
    (parent : Context)
    (h : Records (tracer.start phase attributes parent)
      (work.run (tracer.start phase attributes parent)).2 spans) :
    Records tracer ((inChildPhase true phase attributes parent work).run tracer).2
      (spans ++ [⟨tracer.started, parent, phase, attributes, []⟩]) :=
  .finish hfresh rfl h.started h.running h.ended

theorem inPhase_records (hfresh : tracer.Fresh) (phase : Phase) (attributes : Attributes)
    (h : Records (tracer.start phase attributes tracer.current)
      (work.run (tracer.start phase attributes tracer.current)).2 spans) :
    Records tracer ((inPhase true phase attributes work).run tracer).2
      (spans ++ [⟨tracer.started, tracer.current, phase, attributes, []⟩]) :=
  inChildPhase_records hfresh phase attributes tracer.current h

end Phases

/-- An event goes to the latest span if that is the current one, and to no other. -/
theorem Tracer.running_note {tracer : Tracer} {span : SpanRecord} {others : List SpanRecord}
    (hrunning : tracer.running = span :: others) (hcurrent : tracer.current = some span.id)
    (hothers : ∀ other ∈ others, other.id < span.id) (event : Event) :
    (tracer.note event).running = { span with events := span.events ++ [event] } :: others := by
  have hkept : others.map (fun other => if some other.id = tracer.current then
      { other with events := other.events ++ [event] } else other) = others := by
    rw [hcurrent]
    refine (List.map_congr_left fun other hother => ?_).trans (List.map_id others)
    exact if_neg fun heq => Nat.ne_of_lt (hothers other hother) (Option.some.inj heq)
  simp only [note, hrunning, List.map_cons, hkept]
  rw [if_pos hcurrent.symm]

/-! ## Derivations -/

namespace Derivation

/-- A derivation comes to the same markers with and without recording, and is recorded in one span
of its entity. -/
theorem deriveTraced_records (recording : Recording) (s : Store) (facts : EntityFacts)
    {tracer : Tracer} (hfresh : tracer.Fresh) :
    ((deriveTraced recording s facts).run tracer).1 = derive s facts ∧
      Records tracer ((deriveTraced recording s facts).run tracer).2
        (if recording then
          [⟨tracer.started, tracer.current, .derive, entityAttributes s.entity s.kind, []⟩]
        else []) := by
  unfold deriveTraced
  refine ⟨(Yields.pure _).inPhase recording .derive _ tracer, ?_⟩
  cases recording with
  | false => exact .refl tracer
  | true =>
    rw [if_pos rfl, ← List.nil_append [_]]
    exact inPhase_records hfresh .derive _ (.refl _)

end Derivation

end Mutability
