import ObjectHeap.Construct

/-! # Records

Functions, methods, classes, instances, modules, frames and threads: how their payloads are
read, and how single fields are assigned.
-/

namespace ObjectHeap

/-- A field of a record that holds a value. -/
inductive Field where
  | functionName
  | functionModule
  | functionDefaults
  | functionClosure
  | methodFunction
  | methodReceiver
  | className
  | classBases
  | classMethods
  | instanceClass
  | instanceAttributes
  | moduleName
  | moduleGlobals
  | frameParent
  | frameFunction
  | frameModule
  | threadFrame
  | threadResult
deriving DecidableEq

namespace Field

/-- The kind of the records that have the field. -/
def kind : Field → Kind
  | .functionName | .functionModule | .functionDefaults | .functionClosure => .function
  | .methodFunction | .methodReceiver => .method
  | .className | .classBases | .classMethods => .classObj
  | .instanceClass | .instanceAttributes => .instanceObj
  | .moduleName | .moduleGlobals => .moduleObj
  | .frameParent | .frameFunction | .frameModule => .frame
  | .threadFrame | .threadResult => .thread

def all : List Field :=
  [.functionName, .functionModule, .functionDefaults, .functionClosure, .methodFunction,
   .methodReceiver, .className, .classBases, .classMethods, .instanceClass,
   .instanceAttributes, .moduleName, .moduleGlobals, .frameParent, .frameFunction,
   .frameModule, .threadFrame, .threadResult]

def name : Field → String
  | .functionName | .className | .moduleName => "name"
  | .functionModule | .frameModule => "module"
  | .functionDefaults => "defaults"
  | .functionClosure => "closure"
  | .methodFunction | .frameFunction => "function"
  | .methodReceiver => "receiver"
  | .classBases => "bases"
  | .classMethods => "methods"
  | .instanceClass => "class"
  | .instanceAttributes => "attributes"
  | .moduleGlobals => "namespace"
  | .frameParent => "parent"
  | .threadFrame => "frame"
  | .threadResult => "result"

/-- The field with a name in the records of a kind. -/
def ofName? (kind : Kind) (name : String) : Option Field :=
  all.find? fun field => field.kind == kind && field.name == name

/-- The value in the field, if the payload has it. -/
def read? : Field → Body → Option Value
  | .functionName, .function f => some f.name
  | .functionModule, .function f => some f.module
  | .functionDefaults, .function f => some f.defaults
  | .functionClosure, .function f => some f.closure
  | .methodFunction, .method m => some m.function
  | .methodReceiver, .method m => some m.receiver
  | .className, .classObj c => some c.name
  | .classBases, .classObj c => some c.bases
  | .classMethods, .classObj c => some c.methods
  | .instanceClass, .instanceObj i => some i.classRef
  | .instanceAttributes, .instanceObj i => some i.attributes
  | .moduleName, .moduleObj m => some m.name
  | .moduleGlobals, .moduleObj m => some m.globals
  | .frameParent, .frame f => some f.parent
  | .frameFunction, .frame f => some f.function
  | .frameModule, .frame f => some f.module
  | .threadFrame, .thread t => some t.frame
  | .threadResult, .thread t => some t.result
  | _, _ => none

/-- The payload with another value in the field, if it has the field. -/
def assign? : Field → Value → Body → Option Body
  | .functionName, v, .function f => some (.function { f with name := v })
  | .functionModule, v, .function f => some (.function { f with module := v })
  | .functionDefaults, v, .function f => some (.function { f with defaults := v })
  | .functionClosure, v, .function f => some (.function { f with closure := v })
  | .methodFunction, v, .method m => some (.method { m with function := v })
  | .methodReceiver, v, .method m => some (.method { m with receiver := v })
  | .className, v, .classObj c => some (.classObj { c with name := v })
  | .classBases, v, .classObj c => some (.classObj { c with bases := v })
  | .classMethods, v, .classObj c => some (.classObj { c with methods := v })
  | .instanceClass, v, .instanceObj i => some (.instanceObj { i with classRef := v })
  | .instanceAttributes, v, .instanceObj i => some (.instanceObj { i with attributes := v })
  | .moduleName, v, .moduleObj m => some (.moduleObj { m with name := v })
  | .moduleGlobals, v, .moduleObj m => some (.moduleObj { m with globals := v })
  | .frameParent, v, .frame f => some (.frame { f with parent := v })
  | .frameFunction, v, .frame f => some (.frame { f with function := v })
  | .frameModule, v, .frame f => some (.frame { f with module := v })
  | .threadFrame, v, .thread t => some (.thread { t with frame := v })
  | .threadResult, v, .thread t => some (.thread { t with result := v })
  | _, _, _ => none

end Field

/-- The named values of a record. -/
def Body.fields (body : Body) : List (String × Value) :=
  Field.all.filterMap fun field => (field.read? body).map (field.name, ·)

namespace Heap

/-- The slot and payload of a record of a kind. -/
def record (h : Heap) (v : Value) (kind : Kind) : Except Stop (Nat × Body) := do
  let (slot, block) ← h.expectBlock v kind.name (· == kind)
  return (slot, block.body)

/-- A part of the payload of a record of a kind. A payload of another form is a fault. -/
def recordPart {α : Type} (h : Heap) (v : Value) (kind : Kind) (part? : Body → Option α) :
    Except Stop α := do
  let (_, body) ← h.record v kind
  match part? body with
  | some part => return part
  | none => throw (.fault .misfit)

def classBody (h : Heap) (v : Value) : Except Stop ClassBody :=
  h.recordPart v .classObj fun | .classObj c => some c | _ => none

def instanceBody (h : Heap) (v : Value) : Except Stop InstanceBody :=
  h.recordPart v .instanceObj fun | .instanceObj i => some i | _ => none

def moduleBody (h : Heap) (v : Value) : Except Stop ModuleBody :=
  h.recordPart v .moduleObj fun | .moduleObj m => some m | _ => none

def frameBody (h : Heap) (v : Value) : Except Stop FrameBody :=
  h.recordPart v .frame fun | .frame f => some f | _ => none

def threadBody (h : Heap) (v : Value) : Except Stop ThreadBody :=
  h.recordPart v .thread fun | .thread t => some t | _ => none

def assignField (v : Value) (field : Field) (value : Value) : HeapM Unit := do
  let h ← get
  let (slot, body) ← h.record v field.kind
  match field.assign? value body with
  | some body => set (h.setBody slot body)
  | none => throw (.fault .misfit)

end Heap

end ObjectHeap
