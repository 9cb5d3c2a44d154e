import ObjectHeap.Record

/-! # Frames and threads

The locals and the value stack of a frame, and the frames that a thread enters and leaves.
The stack of a frame never grows.
-/

namespace ObjectHeap.Heap

def frameLocal (h : Heap) (frame : Value) (index : Nat) : Except Stop Value := do
  let body ← h.frameBody frame
  match body.locals[index]? with
  | some v => return v
  | none => refuse (.indexOutOfRange index body.locals.size)

def changeFrame {α : Type} (frame : Value)
    (change : FrameBody → Except Refusal (α × FrameBody)) : HeapM α := do
  let h ← get
  let (slot, body) ← h.record frame .frame
  match body with
  | .frame f =>
    match change f with
    | .ok (a, changed) =>
      set (h.setBody slot (.frame changed))
      return a
    | .error refusal => throw (.refused refusal)
  | _ => throw (.fault .misfit)

def frameSetLocal (frame : Value) (index : Nat) (value : Value) : HeapM Unit :=
  changeFrame frame fun f =>
    if index < f.locals.size then
      .ok ((), { f with locals := f.locals.setIfInBounds index value })
    else
      .error (.indexOutOfRange index f.locals.size)

def framePush (frame value : Value) : HeapM Unit :=
  changeFrame frame fun f =>
    match f.stack.push? value with
    | some stack => .ok ((), { f with stack })
    | none => .error .overflow

def framePop (frame : Value) : HeapM Value :=
  changeFrame frame fun f =>
    match f.stack.pop? with
    | some (v, stack) => .ok (v, { f with stack })
    | none => .error (.indexOutOfRange 0 0)

/-- The stack of a frame, bottom first. -/
def frameStack (h : Heap) (frame : Value) : Except Stop (Array Value) := do
  return (← h.frameBody frame).stack.toArray

/-- Makes a frame the innermost one of a thread. -/
def threadEnter (thread frame : Value) : HeapM Unit := do
  let _ ← (← get).frameBody frame
  assignField thread .threadFrame frame

/-- Leaves the innermost frame of a thread. Leaving the outermost records the result. -/
def threadReturn (thread result : Value) : HeapM Unit := do
  let h ← get
  let current := (← h.threadBody thread).frame
  let parent := (← h.frameBody current).parent
  assignField thread .threadFrame parent
  if parent.isNil then assignField thread .threadResult result

end ObjectHeap.Heap
