import LambdaInt.Frame

/-!
Scopes: the frame that names are set in, and the frames around it. A lookup goes from the inside
out and stops at the first frame that binds the name.
-/

namespace LambdaInt

structure Scope where
  inner : Frame
  outer : List Frame

namespace Scope

/-- A single frame with nothing around it. -/
def root (frame : Frame) : Scope :=
  ⟨frame, []⟩

/-- How many frames stand around the current one. -/
def level (scope : Scope) : Nat :=
  scope.outer.length

/-- Enters a new frame. -/
def child (scope : Scope) : Scope :=
  ⟨.empty, scope.inner :: scope.outer⟩

/-- Leaves the current frame for the one around it, if there is one. -/
def parent? (scope : Scope) : Option Scope :=
  match scope.outer with
  | [] => none
  | frame :: outer => some ⟨frame, outer⟩

/-- Binds the name in the current frame only. -/
def set (scope : Scope) (name : String) (value : Term) : Scope :=
  ⟨scope.inner.set name value, scope.outer⟩

def find? (scope : Scope) (name : String) : Option Term :=
  (scope.inner :: scope.outer).findSome? fun frame => frame.find? name

/-- The names bound in the current frame, in increasing order. -/
def names (scope : Scope) : List String :=
  scope.inner.names

@[simp] theorem find?_root (frame : Frame) (x : String) : (root frame).find? x = frame.find? x := by
  simp [find?, root]

@[simp] theorem find?_child (scope : Scope) (x : String) : scope.child.find? x = scope.find? x := by
  simp [find?, child, List.findSome?_cons]

@[simp] theorem find?_set (scope : Scope) (x : String) (v : Term) (y : String) :
    (scope.set x v).find? y = if y = x then some v else scope.find? y := by
  by_cases h : y = x <;> simp [find?, set, List.findSome?_cons, h]

end Scope
end LambdaInt
