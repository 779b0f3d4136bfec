/-!
# Forests with depths and nearest common ancestors

A forest gives each position a parent and a depth.  The nearest common ancestor of two positions is found by
stepping up from the deeper one, and from both when they are equally deep, until they meet.

The dominator forest of a graph whose consumers come later than what they consume is built from the last position
to the first: the parent of a position is the nearest common ancestor of its consumers, which all have their
parents by then.
-/
namespace Dataflow

structure ForestNode where
  depth : Nat
  parent : Option Nat
  deriving DecidableEq, Inhabited

structure Forest where
  nodes : Array ForestNode

namespace Forest

def depth (f : Forest) (i : Nat) : Nat := (f.nodes[i]?.map (·.depth)).getD 0

def parent? (f : Forest) (i : Nat) : Option Nat := f.nodes[i]?.bind (·.parent)

/-- The parent, which is less deep than the position itself. -/
def above? (f : Forest) (i : Nat) : Option { p : Nat // f.depth p < f.depth i } :=
  match f.parent? i with
  | some p => if h : f.depth p < f.depth i then some ⟨p, h⟩ else none
  | none => none

/-- The nearest common ancestor of two positions of one tree; a position is an ancestor of itself. -/
def nearestCommon? (f : Forest) (i j : Nat) : Option Nat :=
  if i = j then some i
  else if f.depth i < f.depth j then
    match f.above? j with
    | some ⟨p, _⟩ => f.nearestCommon? i p
    | none => none
  else if f.depth j < f.depth i then
    match f.above? i with
    | some ⟨p, _⟩ => f.nearestCommon? p j
    | none => none
  else
    match f.above? i, f.above? j with
    | some ⟨p, _⟩, some ⟨q, _⟩ => f.nearestCommon? p q
    | _, _ => none
termination_by f.depth i + f.depth j

/-- The nearest common ancestor of a list of positions. -/
def nearestCommonOf? (f : Forest) : List Nat → Option Nat
  | [] => none
  | i :: is => is.foldlM f.nearestCommon? i

/-- The node of a position with these consumers: without any it is a root. -/
def nodeUnder (f : Forest) (consumers : List Nat) : ForestNode :=
  if consumers.isEmpty then ⟨0, none⟩
  else
    match f.nearestCommonOf? consumers with
    | some p => ⟨f.depth p + 1, some p⟩
    | none => ⟨1, none⟩

/-- Decides the last position of a list first. -/
def addAll (consumers : Nat → List Nat) (positions : List Nat) (f : Forest) : Forest :=
  positions.foldr (fun i f => ⟨f.nodes.setIfInBounds i (f.nodeUnder (consumers i))⟩) f

/-- The dominator forest of `size` positions with their consumers. -/
def ofConsumers (size : Nat) (consumers : Nat → List Nat) : Forest :=
  addAll consumers (List.range size) ⟨Array.replicate size default⟩

end Forest
end Dataflow
