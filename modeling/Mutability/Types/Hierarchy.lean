import Mutability.Text.Names
import Mutability.Types.Declaration

/-!
# Hierarchies of declared types

A hierarchy holds declarations of named types and the formal parameters of methods, the latest
first. `register` adds a batch of declarations as a whole: every name has to be new and no type
may become its own supertype. `override` adds them without any check.
-/

namespace Mutability

/-- Why a question about a type has no answer. -/
inductive Unresolved where
  | type (name : String)
  | method (name : String)
  /-- A parameter whose declaration is not known. -/
  | ownerless (name : String)
  /-- The owner has no parameter at this index. -/
  | undeclared (name : String) (index : Nat)
  deriving DecidableEq, Repr

def Unresolved.message : Unresolved → String
  | type name => "unresolvable type: unknown type " ++ name
  | method name => "unresolvable type: unknown method " ++ name
  | ownerless name => "unresolvable type: type parameter " ++ name ++ " has no owner"
  | undeclared name index =>
    "unresolvable type: type parameter " ++ name ++ s!" at index {index} is not declared"

structure Hierarchy where
  declarations : List Declaration
  methods : List (String × List Formal)
  deriving DecidableEq, Repr

namespace Hierarchy

def empty : Hierarchy := ⟨[], []⟩

def find? (h : Hierarchy) (name : String) : Option Declaration :=
  h.declarations.find? (·.name = name)

theorem name_of_find? {h : Hierarchy} {name : String} {d : Declaration}
    (hd : h.find? name = some d) : d.name = name := by
  simpa using List.find?_some hd

def require (h : Hierarchy) (name : String) : Except Unresolved Declaration :=
  match h.find? name with
  | some d => .ok d
  | none => .error (.type name)

def isFunctional (h : Hierarchy) (name : String) : Bool :=
  match h.find? name with
  | some d => d.functional.isSome
  | none => false

/-- The formal parameters that the owner of a type parameter declares. -/
def ownerFormals (h : Hierarchy) (p : TypeParameter) : Except Unresolved (List Formal) :=
  match p.owner with
  | none => .error (.ownerless p.name)
  | some (.type owner) => (h.require owner).map (·.formals)
  | some (.method owner) =>
    match h.methods.lookup owner with
    | some formals => .ok formals
    | none => .error (.method owner)

/-- The declared bounds of a type parameter; only its owner and index count. -/
def bounds (h : Hierarchy) (p : TypeParameter) : Except Unresolved (List TypeExpr) := do
  match (← h.ownerFormals p)[p.index]? with
  | some formal => return formal.bounds
  | none => .error (.undeclared p.name p.index)

def size (h : Hierarchy) : Nat := h.declarations.length

def names (h : Hierarchy) : List String := Text.nameSet (h.declarations.map (·.name))

/-- Later declarations take the place of earlier ones of the same name. -/
def override (h : Hierarchy) (batch : List Declaration) : Hierarchy :=
  { h with
    declarations :=
      batch.foldl (fun kept d => d :: kept.filter (·.name ≠ d.name)) h.declarations }

def addMethod (h : Hierarchy) (method : String) (formals : List Formal) : Hierarchy :=
  { h with methods := (method, formals) :: h.methods }

/-! ## Supertypes by name -/

/-- The names of the declared supertypes. -/
def supernames (h : Hierarchy) (name : String) : List String :=
  match h.find? name with
  | some d => d.supertypes.filterMap (·.name?)
  | none => []

/-- The number of declarations that a walk has not been to. -/
def unvisited (h : Hierarchy) (visited : List String) : Nat :=
  h.declarations.countP (·.name ∉ visited)

theorem unvisited_cons_le (h : Hierarchy) (name : String) (visited : List String) :
    h.unvisited (name :: visited) ≤ h.unvisited visited :=
  List.countP_mono_left (by simp)

/-- A visit to a declared name that is new leaves fewer declarations. -/
theorem unvisited_cons_lt {h : Hierarchy} {name : String} {visited : List String}
    {d : Declaration} (hn : name ∉ visited) (hd : h.find? name = some d) :
    h.unvisited (name :: visited) < h.unvisited visited := by
  have hname := name_of_find? hd
  unfold find? at hd
  unfold unvisited
  obtain ⟨before, after, happ⟩ := List.append_of_mem (List.mem_of_find?_eq_some hd)
  have hmono : ∀ ds : List Declaration,
      ds.countP (·.name ∉ name :: visited) ≤ ds.countP (·.name ∉ visited) :=
    fun ds => List.countP_mono_left (by simp)
  have hbefore := hmono before
  have hafter := hmono after
  rw [happ, List.countP_append, List.countP_append, List.countP_cons, List.countP_cons]
  simp only [hname, List.mem_cons, true_or, not_true_eq_false, decide_false, Bool.false_eq_true,
    ↓reduceIte, hn, not_false_eq_true, decide_true] at *
  omega

/-- Adds to the visited names all that can be reached from the pending ones, depth first. -/
def walk (h : Hierarchy) (visited : List String) : List String → List String
  | [] => visited
  | name :: pending =>
    if _hn : name ∈ visited then h.walk visited pending
    else h.walk (name :: visited) (h.supernames name ++ pending)
termination_by pending => (h.unvisited visited, pending.length)
decreasing_by
  · exact Prod.Lex.right _ (by simp)
  · cases hd : h.find? name with
    | some d => exact Prod.Lex.left _ _ (unvisited_cons_lt _hn hd)
    | none =>
      rw [Prod.lex_def]
      simp only [supernames, hd, List.nil_append, List.length_cons]
      have := h.unvisited_cons_le name visited
      omega

/-- The names that can be reached in one hop or more. -/
def ancestors (h : Hierarchy) (name : String) : List String := h.walk [] (h.supernames name)

/-! ## Registration -/

/-- Why a batch is not registered. -/
inductive Rejection where
  /-- Names that would be declared more than once, with how often. -/
  | duplicates (counts : List (String × Nat))
  /-- Names in the batch that would be their own supertype. -/
  | cyclic (names : List String)
  deriving DecidableEq, Repr

def Rejection.message : Rejection → String
  | duplicates counts =>
    "duplicate types found: "
      ++ String.intercalate ", " (counts.map fun (name, count) => s!"{name}: {count}")
  | cyclic names => "cyclic type hierarchy through: " ++ String.intercalate ", " names

/-- How often a name would be declared with the batch added. -/
def countWith (h : Hierarchy) (batch : List Declaration) (name : String) : Nat :=
  batch.countP (·.name = name) + (if (h.find? name).isSome then 1 else 0)

def duplicateCounts (h : Hierarchy) (batch : List Declaration) : List (String × Nat) :=
  ((Text.nameSet (batch.map (·.name))).map fun name => (name, h.countWith batch name)).filter
    (·.2 > 1)

def extend (h : Hierarchy) (batch : List Declaration) : Hierarchy :=
  { h with declarations := batch ++ h.declarations }

/-- The names in the batch that reach themselves once it is added. -/
def cyclicNames (h : Hierarchy) (batch : List Declaration) : List String :=
  (Text.nameSet (batch.map (·.name))).filter fun name => name ∈ (h.extend batch).ancestors name

/-- Adds a batch as a whole or not at all. -/
def register (h : Hierarchy) (batch : List Declaration) : Except Rejection Hierarchy :=
  if h.duplicateCounts batch ≠ [] then .error (.duplicates (h.duplicateCounts batch))
  else if h.cyclicNames batch ≠ [] then .error (.cyclic (h.cyclicNames batch))
  else .ok (h.extend batch)

end Hierarchy

end Mutability
