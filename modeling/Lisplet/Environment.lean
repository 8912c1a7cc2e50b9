import Lisplet.Error
import Lisplet.Record

/-!
# Environments

Variables are bound globally or in one of a stack of frames. A name means its innermost binding.
Assignment changes that binding, or makes a global one when there is none.

A frame is put on the stack by `scope`, which returns a guard. Releasing the guard takes away that
frame and everything above it, whatever happened in between.
-/

namespace Lisplet

/-- Global bindings, and local frames with the innermost first. -/
structure Environment (α : Type) where
  globals : Record α := []
  frames : List (Record α) := []

/-- The right to remove a frame: the height of the stack just after it was added. -/
structure Guard where
  height : Nat
  deriving DecidableEq

namespace Environment

variable {α : Type}

def depth (e : Environment α) : Nat :=
  e.frames.length

/-- The innermost binding of a name. -/
def get? (e : Environment α) (name : String) : Option α :=
  match e.frames.findSome? (Record.get? name) with
  | some v => some v
  | none => e.globals.get? name

def lookup (e : Environment α) (name : String) : Except Error α :=
  match e.get? name with
  | some v => .ok v
  | none => .error { cause := .unboundSymbol name }

/-- Overwrites the innermost frame that binds `name`, if any does. -/
def setInFrames (name : String) (value : α) : List (Record α) → Option (List (Record α))
  | [] => none
  | f :: fs =>
    if f.has name then some (f.insert name value :: fs)
    else (setInFrames name value fs).map (f :: ·)

def defineGlobal (e : Environment α) (name : String) (value : α) : Environment α :=
  { e with globals := e.globals.insert name value }

/-- Overwrites the innermost binding of a name, or makes a global one. -/
def set (e : Environment α) (name : String) (value : α) : Environment α :=
  match setInFrames name value e.frames with
  | some frames => { e with frames }
  | none => e.defineGlobal name value

/-- Binds a name in the innermost frame; globally when there is no frame. -/
def setLocal (e : Environment α) (name : String) (value : α) : Environment α :=
  match e.frames with
  | f :: fs => { e with frames := f.insert name value :: fs }
  | [] => e.defineGlobal name value

def push (e : Environment α) (frame : Record α) : Environment α :=
  { e with frames := frame :: e.frames }

def pop (e : Environment α) : Option (Record α) × Environment α :=
  match e.frames with
  | f :: fs => (some f, { e with frames := fs })
  | [] => (none, e)

/-- Keeps the `n` outermost frames. -/
def truncate (e : Environment α) (n : Nat) : Environment α :=
  { e with frames := e.frames.drop (e.frames.length - n) }

def scope (e : Environment α) (frame : Record α) : Environment α × Guard :=
  let e := e.push frame
  (e, ⟨e.depth⟩)

/-- Removes the frame of a guard and all frames above it. -/
def release (e : Environment α) (g : Guard) : Environment α :=
  e.truncate (g.height - 1)

/-- The global names in the order of their code points. -/
def globalNames (e : Environment α) : List String :=
  e.globals.keys.mergeSort fun a b => !decide (b < a)

/-! ## Scopes -/

/-- A guard released at once undoes its scope. -/
theorem release_scope (e : Environment α) (frame : Record α) :
    (e.scope frame).1.release (e.scope frame).2 = e := by
  simp [scope, release, push, truncate, depth]

/-- Releasing a guard keeps the outermost frames, as many as there were before its scope. -/
theorem depth_release (e : Environment α) (g : Guard) :
    (e.release g).depth = min e.depth (g.height - 1) := by
  simp only [release, truncate, depth, List.length_drop]
  omega

end Environment

end Lisplet
