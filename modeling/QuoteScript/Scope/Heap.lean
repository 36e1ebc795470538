import QuoteScript.Value.Basic

/-!
# `QuoteScript.Scope.Heap`: scopes

A scope binds names to values and may have a parent, the scope around
it. A name means what the nearest scope that binds it says. Binding a
name changes one scope only, never one around it.

All scopes of a session live in one heap, which also hands out the
handles that tell values apart. A scope is made with a parent that is
already there, so parents are always older than their children, and a
walk outwards takes no more steps than there are scopes up to the one
it starts from.

* `Heap.lookup` says what a name means in a scope.
* `Heap.bind` binds a name in a scope.
* `Heap.newScope` makes a scope, and `Heap.newHandle` a handle.
-/

set_option autoImplicit false

namespace QuoteScript

/-- The bindings of one scope, the oldest name first, and the scope
around it. -/
structure Frame where
  bindings : List (String × Value)
  parent : Option ScopeId

namespace Frame

/-- What a scope itself binds a name to. -/
def find? (frame : Frame) (name : String) : Option Value :=
  (frame.bindings.find? (·.1 == name)).map (·.2)

/-- The bindings with `name` bound to `value`; a name that is bound
already keeps its place. -/
def put (name : String) (value : Value) : List (String × Value) → List (String × Value)
  | [] => [(name, value)]
  | binding :: rest =>
    if binding.1 = name then (name, value) :: rest else binding :: put name value rest

/-- The same scope with a name bound to a value. -/
def bind (frame : Frame) (name : String) (value : Value) : Frame :=
  { frame with bindings := put name value frame.bindings }

/-- The names that a scope itself binds. -/
def names (frame : Frame) : List String :=
  frame.bindings.map (·.1)

end Frame

/-- All scopes, in the order in which they were made, and the number of
the next handle. -/
structure Heap where
  frames : Array Frame := #[]
  nextHandle : Nat := 0

namespace Heap

/-- The scope of a given name. -/
def frame? (heap : Heap) (scope : ScopeId) : Option Frame :=
  heap.frames[scope.number]?

/-- Looks a name up from a scope outwards, in at most as many steps as
are given. -/
def lookupFrom (heap : Heap) (name : String) : Nat → ScopeId → Option Value
  | 0, _ => none
  | steps + 1, scope =>
    match heap.frame? scope with
    | none => none
    | some frame =>
      match frame.find? name with
      | some value => some value
      | none => frame.parent.bind (lookupFrom heap name steps)

/-- What a name means in a scope. -/
def lookup (heap : Heap) (scope : ScopeId) (name : String) : Option Value :=
  heap.lookupFrom name (scope.number + 1) scope

/-- Binds a name in a scope. -/
def bind (heap : Heap) (scope : ScopeId) (name : String) (value : Value) : Heap :=
  { heap with frames := heap.frames.modify scope.number (·.bind name value) }

/-- Makes an empty scope. -/
def newScope (heap : Heap) (parent : Option ScopeId) : ScopeId × Heap :=
  (⟨heap.frames.size⟩, { heap with frames := heap.frames.push ⟨[], parent⟩ })

/-- Makes a handle. -/
def newHandle (heap : Heap) : Handle × Heap :=
  (⟨heap.nextHandle⟩, { heap with nextHandle := heap.nextHandle + 1 })

end Heap

end QuoteScript
