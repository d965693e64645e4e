import Std.Data.TreeMap
import MicroJava.Names.Entity

/-! # The name table

A stack of scopes over a store of entities. The innermost scope is kept apart from the enclosing
ones, so there is always one; the outermost holds the predeclared names and is never closed.
Closing a scope makes its names unreachable, while the entities stay in the store. -/

namespace MicroJava

/-- The names declared in one block. -/
structure Scope where
  /-- In declaration order. -/
  locals : Array EntityId := #[]
  ids : Std.TreeMap String EntityId := ∅
  /-- Number of variables among the names. -/
  varCount : Nat := 0

structure NameTable where
  entities : Array Entity
  classes : Array ClassInfo
  current : Scope
  /-- From the inside outwards. -/
  enclosing : List Scope

namespace NameTable

/-- Handle of the entity that stands in for unknown names. -/
def unknownId : EntityId := ⟨0⟩

def openScope (t : NameTable) : NameTable :=
  { t with current := {}, enclosing := t.current :: t.enclosing }

/-- The innermost scope and the table without it; nothing when it is the outermost. -/
def closeScope? (t : NameTable) : Option (Scope × NameTable) :=
  match t.enclosing with
  | [] => none
  | outer :: rest => some (t.current, { t with current := outer, enclosing := rest })

/-- Leaves the innermost scope, unless it is the outermost. -/
def closeScope (t : NameTable) : NameTable :=
  match t.closeScope? with
  | some (_, t) => t
  | none => t

/-- Nesting depth: 0 in the program's own scope, 1 inside a method or class. -/
def level (t : NameTable) : Nat := t.enclosing.length - 1

/-- The entity of a fresh declaration; a variable takes the next free slot. -/
def newEntity (t : NameTable) (form : Form) (name : String) (ty : Ty) : Entity :=
  match form with
  | .constant => ⟨name, .constant 0, ty⟩
  | .var => ⟨name, .var t.current.varCount t.level, ty⟩
  | .typeName => ⟨name, .typeName, ty⟩
  | .method => ⟨name, .method {}, ty⟩
  | .program => ⟨name, .program, ty⟩

/-- Declares a name in the innermost scope and gives its handle. A name that is already there is
refused and the table stays as it is; names of enclosing scopes may be hidden. -/
def insert (t : NameTable) (form : Form) (name : String) (ty : Ty) :
    Except NameError EntityId × NameTable :=
  if t.current.ids.contains name then (.error (.declaredTwice name), t)
  else
    let entity := t.newEntity form name ty
    let id : EntityId := ⟨t.entities.size⟩
    let slots := if form = .var then 1 else 0
    let current : Scope :=
      { locals := t.current.locals.push id
        ids := t.current.ids.insert name id
        varCount := t.current.varCount + slots }
    (.ok id, { t with entities := t.entities.push entity, current })

/-- The entity of a name in the innermost scope. -/
def lookup? (t : NameTable) (name : String) : Option EntityId := t.current.ids[name]?

/-- The entity of a name, searched from the inside outwards. -/
def find (t : NameTable) (name : String) : Except NameError EntityId :=
  match (t.current :: t.enclosing).findSome? fun scope => scope.ids[name]? with
  | some id => .ok id
  | none => .error (.notDeclared name)

def entity (t : NameTable) (id : EntityId) : Entity := t.entities.getD id.index .unknown

/-- Whether a handle leads to an entity of the store. -/
def hasEntity (t : NameTable) (id : EntityId) : Bool := decide (id.index < t.entities.size)

/-- Whether all parameters of a method are in the store. -/
def hasParams (t : NameTable) (callee : Callee) : Bool := callee.paramIds.all t.hasEntity

/-- Types of the parameters of a method. -/
def paramTypes (t : NameTable) (callee : Callee) : List Ty :=
  callee.paramIds.map fun id => (t.entity id).ty

/-- Gives a constant its value; other entities stay as they are. -/
def setConstant (t : NameTable) (id : EntityId) (value : Int32) : NameTable :=
  { t with entities := t.entities.modify id.index fun e =>
      match e.kind with
      | .constant _ => { e with kind := .constant value }
      | _ => e }

/-- Completes a method; other entities stay as they are. -/
def setCallee (t : NameTable) (id : EntityId) (callee : Callee) : NameTable :=
  { t with entities := t.entities.modify id.index fun e =>
      match e.kind with
      | .method _ => { e with kind := .method callee }
      | _ => e }

/-- A fresh class without fields. -/
def newClass (t : NameTable) (name : String) : ClassId × NameTable :=
  (⟨t.classes.size⟩, { t with classes := t.classes.push ⟨name, #[]⟩ })

def classInfo (t : NameTable) (cls : ClassId) : ClassInfo := t.classes.getD cls.index default

/-- Whether a handle leads to a class of the store. -/
def hasClass (t : NameTable) (cls : ClassId) : Bool := decide (cls.index < t.classes.size)

/-- Whether a class and all its fields are in the store. -/
def hasFields (t : NameTable) (cls : ClassId) : Bool :=
  t.hasClass cls && (t.classInfo cls).fields.all t.hasEntity

/-- Makes the names of the innermost scope the fields of the class. -/
def setFields (t : NameTable) (cls : ClassId) : NameTable :=
  let fields := t.current.locals
  { t with classes := t.classes.modify cls.index fun info => { info with fields } }

/-- A field of the class; enclosing scopes are not searched. -/
def findField (t : NameTable) (cls : ClassId) (name : String) : Except NameError EntityId :=
  let info := t.classInfo cls
  match info.fields.find? fun id => (t.entity id).name == name with
  | some id => .ok id
  | none => .error (.notAField name info.name)

/-! ## Before any declaration of a program -/

/-- Declares a name in the outermost scope. No such name is there twice, so none is refused. -/
def predeclare (t : NameTable) (form : Form) (name : String) (ty : Ty) : EntityId × NameTable :=
  match t.insert form name ty with
  | (.ok id, t) => (id, t)
  | (.error _, t) => (unknownId, t)

/-- Declares a method that is always there, with its parameter in a scope of its own. -/
def predeclareMethod (t : NameTable) (b : Builtin) : NameTable :=
  let (method, t) := t.predeclare .method b.name b.result
  let (param, t) := t.openScope.predeclare .var b.paramName b.paramType
  t.closeScope.setCallee method { paramCount := 1, locals := #[param], builtin := some b }

/-- Nothing but the entity behind unknown names. -/
def empty : NameTable where
  entities := #[.unknown]
  classes := #[]
  current := {}
  enclosing := []

/-- The types that are always there. -/
def withTypes : NameTable :=
  ((empty.predeclare .typeName "int" .int).2.predeclare .typeName "char" .char).2

/-- The table before any declaration of a program: two types and three methods. -/
def initial : NameTable :=
  ((withTypes.predeclareMethod .ord).predeclareMethod .chr).predeclareMethod .len

/-- The outermost scope. -/
def outermost : Scope := initial.current

end NameTable

end MicroJava
