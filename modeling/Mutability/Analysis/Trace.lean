import Mutability.Entity.Kind

/-!
# Records of work

A span stands for one unit of work. Work is done in a context, which is the span it belongs to. In
`inPhase` it gets a span of its own below the current context, in `inChildPhase` below one that was
taken down before; the span is the context of the work, ends with it, and leaves the context as it
was. Events go to the span of the current context (`recordEvent`). Without recording the work is
done as it is, in the context around it.
-/

namespace Mutability

inductive Phase where
  | fixpoint
  | pass
  | analyse
  | derive
  deriving DecidableEq, Repr

namespace Phase

def all : List Phase := [fixpoint, pass, analyse, derive]

def text : Phase → String
  | fixpoint => "engine.fixpoint"
  | pass => "engine.pass"
  | analyse => "engine.analyse"
  | derive => "engine.derive"

end Phase

inductive AttributeValue where
  | int (n : Int)
  | bool (b : Bool)
  | text (s : String)
  deriving DecidableEq, Repr

abbrev Attributes := List (String × AttributeValue)

structure Event where
  name : String
  attributes : Attributes
  deriving DecidableEq, Repr

/-- A span by the number it was started with. -/
abbrev SpanId := Nat

/-- The span that work belongs to, if there is one. -/
abbrev Context := Option SpanId

structure SpanRecord where
  id : SpanId
  parent : Context
  phase : Phase
  attributes : Attributes
  events : List Event
  deriving DecidableEq, Repr

/-- The spans of all work so far, and the context of what is done next. -/
structure Tracer where
  /-- How many spans have been started, which is the number of the next one. -/
  started : Nat
  /-- The spans that have not ended, the latest first. -/
  running : List SpanRecord
  /-- The spans that have ended, in that order. -/
  ended : List SpanRecord
  current : Context
  deriving DecidableEq, Repr

namespace Tracer

def idle : Tracer := ⟨0, [], [], none⟩

/-- Starts a span below a context and makes it the current one. -/
def start (tracer : Tracer) (phase : Phase) (attributes : Attributes) (parent : Context) : Tracer :=
  { tracer with
    started := tracer.started + 1
    running := ⟨tracer.started, parent, phase, attributes, []⟩ :: tracer.running
    current := some tracer.started }

/-- Ends a span and goes back to a context. -/
def finish (tracer : Tracer) (id : SpanId) (context : Context) : Tracer :=
  { tracer with
    running := tracer.running.filter (·.id != id)
    ended := tracer.ended ++ tracer.running.filter (·.id == id)
    current := context }

/-- Notes an event on the current span; there is nothing to note it on outside any span. -/
def note (tracer : Tracer) (event : Event) : Tracer :=
  { tracer with
    running := tracer.running.map fun span =>
      if some span.id = tracer.current then { span with events := span.events ++ [event] }
      else span }

end Tracer

/-- Work that is done under a tracer. -/
abbrev Traced := StateM Tracer

/-- Whether spans are recorded. -/
abbrev Recording := Bool

/-- Does some work in a span of its own below a given context. -/
def inChildPhase {α : Type} (recording : Recording) (phase : Phase) (attributes : Attributes)
    (parent : Context) (work : Traced α) : Traced α :=
  if recording then do
    let tracer ← get
    set (tracer.start phase attributes parent)
    let result ← work
    modify (·.finish tracer.started tracer.current)
    return result
  else work

/-- Does some work in a span of its own below the current context. -/
def inPhase {α : Type} (recording : Recording) (phase : Phase) (attributes : Attributes)
    (work : Traced α) : Traced α := do
  inChildPhase recording phase attributes (← get).current work

/-- Notes an event on the current span, whoever has started it. -/
def recordEvent (event : Event) : Traced Unit := modify (·.note event)

/-- What identifies an entity on its spans. -/
def entityAttributes (entity : String) (kind : EntityKind) : Attributes :=
  [("engine.entity", .text entity), ("engine.entity.kind", .text kind.text)]

end Mutability
