/-
Idl/Scope.lean

Declared things, the scopes that name them, and what identifiers refer to.

A `SymbolTable` allocates objects and scopes, each known by its number in order of creation.  A
scope maps names to objects and keeps the first object inserted under a name; it may have an
outer scope, which was created before it, and `SymbolTable.resolve?` looks outwards from scope
to scope.  `Resolutions` records which object each identifier of a file stands for.
-/
import Idl.SourceFile
import Idl.FileSet

namespace Idl

/-! ### Objects -/

/-- The number of a scope. -/
abbrev ScopeId := Nat

/-- The number of an object. -/
abbrev ObjectId := Nat

/-- The number of an identifier in its file. -/
abbrev IdentId := Nat

/-- What sort of thing an object is. -/
inductive ObjectKind where
  | bad | package | const | var | bean | func
  deriving DecidableEq, Repr

namespace ObjectKind

/-- All sorts. -/
def all : List ObjectKind := [.bad, .package, .const, .var, .bean, .func]

/-- The sort in words. -/
def text : ObjectKind → String
  | .bad => "bad"
  | .package => "package"
  | .const => "const"
  | .var => "var"
  | .bean => "bean"
  | .func => "func"

end ObjectKind

/-- Where an object is declared: at an index among the declarations of a file, and among the
specifications or the members of that declaration. -/
inductive Origin where
  | none
  | package (id : String)
  | decl (file : FileId) (decl : Nat)
  | spec (file : FileId) (decl spec : Nat)
  | field (file : FileId) (decl field : Nat)
  deriving DecidableEq, Repr

/-- A declared thing. -/
structure Object where
  kind : ObjectKind
  name : String
  origin : Origin
  pos : Pos
  /-- The place of a constant in its group, or of a member in its enumeration. -/
  data : Option Int := Option.none
  deriving DecidableEq, Repr

/-! ### Scopes -/

/-- A scope. -/
structure Scope where
  outer : Option ScopeId
  /-- The named objects, the last one inserted first; no name occurs twice. -/
  names : List (String × ObjectId) := []
  deriving DecidableEq, Repr

/-- The object of a name, in this scope alone. -/
def Scope.find? (s : Scope) (name : String) : Option ObjectId :=
  (s.names.find? (·.1 = name)).map (·.2)

/-- All scopes and objects of a run. -/
structure SymbolTable where
  scopes : Array Scope := #[]
  objects : Array Object := #[]
  deriving DecidableEq, Repr

namespace SymbolTable

/-- Creates a scope. -/
def newScope (t : SymbolTable) (outer : Option ScopeId) : ScopeId × SymbolTable :=
  (t.scopes.size, { t with scopes := t.scopes.push { outer := outer } })

/-- Creates an object, which no scope names yet. -/
def newObject (t : SymbolTable) (o : Object) : ObjectId × SymbolTable :=
  (t.objects.size, { t with objects := t.objects.push o })

/-- The object of a name in one scope. -/
def lookup? (t : SymbolTable) (scope : ScopeId) (name : String) : Option ObjectId :=
  t.scopes[scope]?.bind (·.find? name)

/-- Names an object in a scope by its own name, unless that name is taken.  Answers with the
object that has the name already. -/
def insert (t : SymbolTable) (scope : ScopeId) (id : ObjectId) : Option ObjectId × SymbolTable :=
  match t.objects[id]? with
  | none => (none, t)
  | some o =>
    match t.lookup? scope o.name with
    | some existing => (some existing, t)
    | none =>
      (none,
        { t with scopes := t.scopes.modify scope fun s =>
            { s with names := (o.name, id) :: s.names } })

/-- The object of a name in the innermost scope that has it, from `scope` outwards. -/
def resolve? (t : SymbolTable) (scope : ScopeId) (name : String) : Option ObjectId :=
  match t.scopes[scope]? with
  | none => none
  | some s =>
    match s.find? name with
    | some id => some id
    | none =>
      match s.outer with
      | none => none
      | some outer => if outer < scope then t.resolve? outer name else none
termination_by scope

/-- The position of an object. -/
def posOf (t : SymbolTable) (id : ObjectId) : Pos := (t.objects[id]?.map (·.pos)).getD 0

/-- The objects that a scope names, ordered by position and then by number. -/
def objectsIn (t : SymbolTable) (scope : ScopeId) : List ObjectId :=
  let ids := ((t.scopes[scope]?.map (·.names)).getD []).map (·.2)
  ids.mergeSort fun a b =>
    decide (t.posOf a < t.posOf b) || (decide (t.posOf a = t.posOf b) && decide (a ≤ b))

end SymbolTable

/-! ### Resolutions -/

/-- The objects that the identifiers of a file stand for, as far as they are known. -/
structure Resolutions where
  objects : Array (Option ObjectId) := #[]
  deriving DecidableEq, Repr

namespace Resolutions

/-- Records the object of an identifier. -/
def set (r : Resolutions) (ident : IdentId) (object : ObjectId) : Resolutions :=
  let missing := ident + 1 - r.objects.size
  ⟨(r.objects ++ Array.replicate missing none).modify ident fun _ => some object⟩

/-- The object of an identifier. -/
def get? (r : Resolutions) (ident : IdentId) : Option ObjectId := (r.objects[ident]?).join

/-- The number of identifiers with an object. -/
def count (r : Resolutions) : Nat := r.objects.countP (·.isSome)

end Resolutions

end Idl
