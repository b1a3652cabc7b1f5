/-
Idl/Ir.lean

The intermediate representation: what a schema says, without how it is written.

An `Ir` holds packages, a package files, and a file constants and beans.  Types refer to beans of
other packages by the id of the package, constants have their values, and comments are plain
text.  Generators of code read nothing else.
-/
import Idl.NameMap
import Idl.Syntax
import Idl.Tag
import Idl.Text.Digits

namespace Idl

namespace Ir

/-! ### Types and values -/

/-- The size of an array. -/
inductive ArraySize where
  | literal (n : UInt64)
  /-- The size that the constant `name` has, if it is a whole number. -/
  | const (name : String) (value : Option UInt64)
  | invalid
  deriving DecidableEq, Repr

namespace ArraySize

/-- The number of elements, where it is known. -/
def length? : ArraySize → Option UInt64
  | .literal n => some n
  | .const _ value => value
  | .invalid => none

/-- The size in the notation of schemas. -/
def text : ArraySize → String
  | .literal n => toString n.toNat
  | .const name _ => name
  | .invalid => "invalid"

end ArraySize

mutual

/-- A type. -/
inductive Ty where
  | basic (name : String)
  | array (elem : Ty) (size : ArraySize)
  | vector (elem : Ty)
  | map (key value : Ty)
  /-- A bean of the package with the given id, or of the same package if that is empty. -/
  | struct (package name : String)
  | func (params : List Field) (result : Option Ty)
  | invalid

/-- A field of a bean, a method, a member of an enumeration, or a parameter. -/
structure Field where
  doc : String := ""
  options : List String := []
  type : Option Ty := none
  names : List String := []
  default : Option Expr := none
  tag : Tag := {}
  comment : String := ""

/-- A value. -/
inductive Expr where
  | ident (name : String)
  | lit (kind : LitKind) (text : String)
  | type (t : Ty)
  | invalid

end

instance : Inhabited Ty := ⟨.invalid⟩
instance : Inhabited Expr := ⟨.invalid⟩
instance : Inhabited Field := ⟨{}⟩

namespace Ty

/-! ### Types in the notation of schemas -/

mutual

/-- A type in the notation of schemas. -/
def text : Ty → String
  | .basic name => name
  | .array elem size => "array<" ++ elem.text ++ ", " ++ size.text ++ ">"
  | .vector elem => "vector<" ++ elem.text ++ ">"
  | .map key value => "map<" ++ key.text ++ ", " ++ value.text ++ ">"
  | .struct package name => if package.isEmpty then name else package ++ "." ++ name
  | .func params result => "(" ++ ", ".intercalate (paramTexts params) ++ ")" ++ resultText result
  | .invalid => "invalid"

/-- Parameters in the notation of schemas. -/
def paramTexts : List Field → List String
  | [] => []
  | ⟨_, _, type, names, _, _, _⟩ :: ps =>
    (paramTypeText type ++ String.join (names.map (" " ++ ·))) :: paramTexts ps

/-- The type of a parameter. -/
def paramTypeText : Option Ty → String
  | some t => t.text
  | none => "invalid"

/-- The result of a method, behind its parameters. -/
def resultText : Option Ty → String
  | some t => " " ++ t.text
  | none => ""

end

/-- A type with `sep` between the package and the name of a bean. -/
def qualified (sep : String) : Ty → String
  | .struct package name => if package.isEmpty then name else package ++ sep ++ name
  | t => t.text

/-! ### Sorts of type -/

/-- The builtin type that is named. -/
def builtin? : Ty → Option Builtin
  | .basic name => Builtin.ofName? name
  | _ => none

def isInt (t : Ty) : Bool := t.builtin?.any (·.isInt)
def isFloat (t : Ty) : Bool := t.builtin?.any (·.isFloat)
def isBool (t : Ty) : Bool := t.builtin? == some .bool
def isString (t : Ty) : Bool := t.builtin? == some .string

def isStruct : Ty → Bool
  | .struct .. => true
  | _ => false

def isArray : Ty → Bool
  | .array .. => true
  | _ => false

/-- Bytes are a vector, too. -/
def isVector : Ty → Bool
  | .vector _ => true
  | t => t.builtin? == some .bytes

def isMap : Ty → Bool
  | .map .. => true
  | _ => false

def isInvalid : Ty → Bool
  | .invalid => true
  | _ => false

end Ty

namespace Expr

/-- A value in the notation of schemas. -/
def text : Expr → String
  | .ident name => name
  | .lit _ text => text
  | .type t => t.text
  | .invalid => "invalid"

/-- The number that an integer literal writes. -/
def intValue? : Expr → Option UInt64
  | .lit .int text => intLiteral? text
  | _ => none

end Expr

/-! ### Fields -/

/-- A field with several names was asked for its name. -/
structure AmbiguousName where
  names : List String
  deriving DecidableEq, Repr

/-- The error in words. -/
def AmbiguousName.message (e : AmbiguousName) : String :=
  "field declares " ++ toString e.names.length ++ " names: " ++ ", ".intercalate e.names

namespace Field

/-- The name of a field, if it has one. -/
def name? (f : Field) : Except AmbiguousName (Option String) :=
  match f.names with
  | [] => .ok none
  | [name] => .ok (some name)
  | names => .error ⟨names⟩

/-- The literal that the field has as its value. -/
def value? (f : Field) : Option String :=
  match f.default with
  | some (.lit _ text) => some text
  | _ => none

/-- Whether the field is marked as required. -/
def isRequired (f : Field) : Bool := f.options.contains "required"

/-- Gives a key of the tag a value. -/
def addTag (f : Field) (key value : String) : Field := { f with tag := f.tag.set key value }

end Field

/-! ### Beans, files and packages -/

/-- A bean. -/
structure Bean where
  id : Option UInt32 := none
  kind : BeanKind
  doc : String := ""
  name : String
  extended : List Ty := []
  tag : Tag := {}
  fields : List Field := []
  comment : String := ""

/-- The first field that has the given name. -/
def Bean.field? (b : Bean) (name : String) : Option Field :=
  b.fields.find? (·.names.contains name)

/-- An import. -/
structure ImportSpec where
  doc : String := ""
  name : String := ""
  /-- The path of the package. -/
  package : String
  comment : String := ""
  deriving DecidableEq, Repr

/-- A constant. -/
structure ConstSpec where
  doc : String := ""
  name : String
  value : Expr
  comment : String := ""

/-- Imports or constants that are declared together. -/
structure GenDecl where
  doc : String := ""
  imports : List ImportSpec := []
  consts : List ConstSpec := []

/-- A file. -/
structure File where
  filename : String
  doc : String := ""
  package : String
  beans : List Bean := []
  decls : List GenDecl := []
  /-- The names that stand for nothing. -/
  unresolved : List String := []

/-- A package. -/
structure Package where
  name : String
  /-- The paths of the imported packages, by id. -/
  imports : NameMap String := .empty
  files : List File

namespace Package

/-- The beans of all files. -/
def beans (p : Package) : List Bean := p.files.flatMap (·.beans)

/-- The first bean with the given name. -/
def bean? (p : Package) (name : String) : Option Bean := p.beans.find? (·.name = name)

/-- The constants of all files. -/
def consts (p : Package) : List ConstSpec :=
  p.files.flatMap fun f => f.decls.flatMap (·.consts)

/-- Changes the first field that has the given name, of the first bean that has the given name
as long as that bean has such a field. -/
def modifyField? (p : Package) (bean field : String) (change : Field → Field) :
    Option Package :=
  let inFields (fs : List Field) : Option (List Field) :=
    (fs.findIdx? (·.names.contains field)).map (fs.modify · change)
  let inBeans (bs : List Bean) : Option (List Bean) :=
    (bs.findIdx? (·.name = bean)).bind fun i =>
      (bs[i]?.bind fun b => inFields b.fields).map fun fields =>
        bs.modify i fun b => { b with fields }
  (p.files.findIdx? fun f => f.beans.any (·.name = bean)).bind fun i =>
    (p.files[i]?.bind fun f => inBeans f.beans).map fun beans =>
      { p with files := p.files.modify i fun f => { f with beans } }

end Package

end Ir

/-- The intermediate representation of a schema. -/
structure Ir where
  packages : List Ir.Package := []

namespace Ir

/-- The first package with the given name. -/
def package? (ir : Ir) (name : String) : Option Package := ir.packages.find? (·.name = name)

/-- The name of a bean behind that of its package. -/
def beanKey (package : String) (b : Bean) : String := package ++ "." ++ b.name

/-- Gives every bean an id that `allocate` chooses, given the key of the bean.  Beans come in the
order of packages, files and declarations. -/
def assignBeanIds {σ : Type} (allocate : String → StateM σ UInt32) (ir : Ir) : StateM σ Ir := do
  let packages ← ir.packages.mapM fun p => do
    let files ← p.files.mapM fun f => do
      let beans ← f.beans.mapM fun b => do
        return { b with id := some (← allocate (beanKey p.name b)) }
      return { f with beans }
    return { p with files }
  return { packages }

/-- Changes a package. -/
def modifyPackage? (ir : Ir) (name : String) (change : Package → Option Package) : Option Ir :=
  (ir.packages.findIdx? (·.name = name)).bind fun i =>
    (ir.packages[i]?.bind change).map fun p => { packages := ir.packages.set i p }

end Ir

end Idl
