import OpGraph.Pass.Basic
import OpGraph.Repeat

/-!
# Order of passes

Passes are registered in a list. The enabled ones run in the first order, by
registration, that puts every pass after those it must follow. Constraints that name
a disabled pass have no effect, and constraints that form a cycle admit no order.

The order is found by counting. Each place of the list carries the number of places
that must come before it and have not been taken yet, and of the places with the number
zero the least one is taken next.
-/

namespace OpGraph

/-- Passes in the order of registration. -/
abbrev PassRegistry := List Pass

namespace PassRegistry

/-- First pass of a name. -/
def get? (registry : PassRegistry) (name : String) : Option Pass :=
  List.find? (fun pass => pass.name = name) registry

/-- Enable or disable the first pass of a name, or nothing if no pass has it. -/
def setEnabled? (registry : PassRegistry) (name : String) (enabled : Bool) :
    Option PassRegistry :=
  (registry.findIdx? fun pass => pass.name = name).map fun index =>
    registry.modify index fun pass => { pass with enabled }

/-- Names of all passes in the order of registration. -/
def names (registry : PassRegistry) : List String := registry.map (·.name)

/-- Place of a name among those registered. -/
def place (registry : PassRegistry) (name : String) : Nat := registry.names.idxOf name

/-- Names of the enabled passes. -/
def enabledNames (registry : PassRegistry) : List String :=
  (registry.filter (·.enabled)).map (·.name)

/-- Places of the enabled passes. -/
def enabledPlaces (registry : PassRegistry) : List Nat :=
  (registry.zipIdx.filter (·.1.enabled)).map (·.2)

/-- Pairs of a pass and one that must come later, as one pass states them. -/
def constraintsOf (pass : Pass) : List (String × String) :=
  pass.after.map (fun other => (other, pass.name)) ++
    pass.before.map fun other => (pass.name, other)

/-- All pairs of enabled passes of which the second must come later. -/
def constraints (registry : PassRegistry) : List (String × String) :=
  ((registry.filter (·.enabled)).flatMap constraintsOf).filter fun (first, second) =>
    registry.enabledNames.contains first && registry.enabledNames.contains second

/-- First constraint of an enabled pass that names no registered pass. -/
def unresolved? (registry : PassRegistry) : Option (String × String) :=
  let named := (registry.filter (·.enabled)).flatMap fun pass =>
    (pass.after ++ pass.before).map fun other => (pass.name, other)
  named.find? fun (_, other) => !(registry.map (·.name)).contains other

/-- What the constraints say of places: which places must come after one, and how many
must come before it. -/
structure Links where
  successors : List (List Nat)
  inDegrees : List Nat

namespace Links

/-- So many places without constraints. -/
def unconstrained (count : Nat) : Links := ⟨List.replicate count [], List.replicate count 0⟩

/-- Places that must come after a place, each of them once. -/
def after (links : Links) (place : Nat) : List Nat := links.successors.getD place []

/-- Let one place come after another, unless it does so already. -/
def add (links : Links) (first second : Nat) : Links :=
  if (links.after first).contains second then links
  else
    { successors := links.successors.modify first (· ++ [second])
      inDegrees := links.inDegrees.modify second (· + 1) }

end Links

/-- What the constraints of a registry say of the places in it. -/
def links (registry : PassRegistry) : Links :=
  registry.constraints.foldl
    (fun links (first, second) => links.add (registry.place first) (registry.place second))
    (.unconstrained registry.length)

/-- One place less must come before this one, which is ready if none is left. -/
def countDown (state : List Nat × List Nat) (place : Nat) : List Nat × List Nat :=
  let inDegrees := state.1.modify place (· - 1)
  (inDegrees, if inDegrees.getD place 0 = 0 then place :: state.2 else state.2)

/-- Take the least ready place and count down the places after it, again and again, at
most `steps` times; the places that were taken, in order. -/
def takeLeast (links : Links) : Nat → List Nat → List Nat → List Nat → List Nat
  | 0, _, _, order => order
  | steps + 1, inDegrees, ready, order =>
    match ready.min? with
    | none => order
    | some place =>
      let state := (links.after place).foldl countDown (inDegrees, ready.erase place)
      takeLeast links steps state.1 state.2 (order ++ [place])

/-- Drop elements that need not come before any other that remains, until none is left
to drop or `steps` rounds are over. -/
def dropFinal {α : Type} (leads : α → α → Bool) : Nat → List α → List α
  | 0, remaining => remaining
  | steps + 1, remaining =>
    let kept := remaining.filter fun item => remaining.any (leads item)
    if kept.length = remaining.length then remaining else dropFinal leads steps kept

/-- Names of the enabled passes in the order in which they run, if at most so many steps
are taken to find it. -/
def scheduleWithin (registry : PassRegistry) (steps : Nat) : Except GraphError (List String) := do
  if let some name := firstRepeat? registry.names then
    throw (.internal (.repeatedPass name))
  if let some (pass, missing) := registry.unresolved? then
    throw (.unknownPass pass missing)
  let links := registry.links
  let enabled := registry.enabledPlaces
  let ready := enabled.filter fun place => links.inDegrees.getD place 0 = 0
  let order := takeLeast links steps links.inDegrees ready []
  if order.length ≠ enabled.length then
    let stuck := enabled.filter fun place => !order.contains place
    let involved := dropFinal (fun place => (links.after place).contains) stuck.length stuck
    throw (.cyclicPassDependency (involved.filterMap (registry.names[·]?)))
  return order.filterMap (registry.names[·]?)

/-- Names of the enabled passes in the order in which they run. -/
def schedule (registry : PassRegistry) : Except GraphError (List String) :=
  registry.scheduleWithin registry.length

end PassRegistry

end OpGraph
