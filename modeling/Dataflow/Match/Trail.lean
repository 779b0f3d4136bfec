import Dataflow.Pattern.Basic
/-!
# The trail of a match

Every successful visit commits one entry: a pattern and the node it matched.  The trail keeps the entries in a
log and, beside it, a table of the nodes each pattern is bound to.  Rolling back to a mark takes the entries
committed since then out of both, the last one first, so bindings made before the mark survive even if the same
pattern was bound again after it.
-/
namespace Dataflow

structure Binding where
  pattern : Pattern
  expr : Expr
  deriving Inhabited

/-- The nodes a pattern is bound to: the first one, and the later ones with the last in front. -/
structure Bound where
  first : Expr
  later : List Expr
  deriving Inhabited

namespace Bound

def singleton (e : Expr) : Bound := ⟨e, []⟩

/-- The nodes, oldest first. -/
def toList (b : Bound) : List Expr := b.first :: b.later.reverse

def push (b : Bound) (e : Expr) : Bound := ⟨b.first, e :: b.later⟩

/-- What is left without the last node, if anything is. -/
def pop? : Bound → Option Bound
  | ⟨_, []⟩ => none
  | ⟨first, _ :: later⟩ => some ⟨first, later⟩

@[simp] theorem toList_push (b : Bound) (e : Expr) : (b.push e).toList = b.toList ++ [e] := by
  simp [toList, push]

@[simp] theorem pop?_push (b : Bound) (e : Expr) : (b.push e).pop? = some b := rfl

@[simp] theorem pop?_singleton (e : Expr) : (singleton e).pop? = none := rfl

end Bound

structure Trail where
  /-- The entries in the order in which they were committed. -/
  log : Array Binding
  table : List (PatternId × Bound)
  deriving Inhabited

namespace Trail

def empty : Trail := ⟨#[], []⟩

/-- The table with one more node for a pattern. -/
def addTo (p : PatternId) (e : Expr) : List (PatternId × Bound) → List (PatternId × Bound)
  | [] => [(p, .singleton e)]
  | (q, b) :: rest => if q = p then (q, b.push e) :: rest else (q, b) :: addTo p e rest

/-- The table without the last node of a pattern; there is none if the pattern is not in the table. -/
def removeFrom? (p : PatternId) : List (PatternId × Bound) → Option (List (PatternId × Bound))
  | [] => none
  | (q, b) :: rest =>
    if q = p then
      some (match b.pop? with
        | none => rest
        | some b => (q, b) :: rest)
    else (removeFrom? p rest).map ((q, b) :: ·)

/-- Every node a pattern is bound to, oldest first. -/
def getAll (t : Trail) (p : PatternId) : List Expr := (t.table.lookup p).elim [] Bound.toList

/-- The first node a pattern was bound to. -/
def get? (t : Trail) (p : PatternId) : Option Expr := (t.table.lookup p).map Bound.first

def contains (t : Trail) (p : PatternId) : Bool := (t.table.lookup p).isSome

def bindings (t : Trail) : List Binding := t.log.toList

def size (t : Trail) : Nat := t.log.size

def isEmpty (t : Trail) : Bool := t.log.isEmpty

/-- The place in the log to which a later rollback returns. -/
def mark (t : Trail) : Nat := t.size

def commit : Trail → Pattern → Expr → Trail
  | ⟨log, table⟩, p, e => ⟨log.push ⟨p, e⟩, addTo p.id e table⟩

def rollbackFrom (mark : Nat) (log : Array Binding) (table : List (PatternId × Bound)) : Except PatternId Trail :=
  if h : mark < log.size then
    let b := log[log.size - 1]
    match removeFrom? b.pattern.id table with
    | some table => rollbackFrom mark log.pop table
    | none => .error b.pattern.id
  else .ok ⟨log, table⟩
termination_by log.size

/-- Takes back every entry committed after a mark; fails on an entry that the table does not have. -/
def rollback : Trail → Nat → Except PatternId Trail
  | ⟨log, table⟩, mark => rollbackFrom mark log table

/-- Each pattern with the first node it was bound to, in the order of the first bindings. -/
def firstBindings (t : Trail) : List Binding :=
  t.bindings.foldl (fun firsts b =>
    if firsts.any (·.pattern.id == b.pattern.id) then firsts else firsts ++ [b]) []

/-! ## What a trail shows after a commit -/

theorem lookup_addTo (p q : PatternId) (e : Expr) (table : List (PatternId × Bound)) :
    (addTo p e table).lookup q =
      if q = p then some ((table.lookup p).elim (.singleton e) (·.push e)) else table.lookup q := by
  induction table with grind [addTo]

@[simp] theorem getAll_empty (q : PatternId) : empty.getAll q = [] := rfl

@[simp] theorem getAll_commit (t : Trail) (p : Pattern) (e : Expr) (q : PatternId) :
    (t.commit p e).getAll q = if q = p.id then t.getAll q ++ [e] else t.getAll q := by
  rw [getAll, commit, lookup_addTo]
  split
  · subst q
    rw [getAll]
    cases t.table.lookup p.id with
    | none => rfl
    | some b => exact b.toList_push e
  · rfl

@[simp] theorem bindings_empty : empty.bindings = [] := rfl

@[simp] theorem bindings_commit (t : Trail) (p : Pattern) (e : Expr) :
    (t.commit p e).bindings = t.bindings ++ [⟨p, e⟩] := Array.toList_push

theorem removeFrom?_addTo (p : PatternId) (e : Expr) (table : List (PatternId × Bound)) :
    removeFrom? p (addTo p e table) = some table := by
  induction table with
  | nil => simp [addTo, removeFrom?]
  | cons row rest ih =>
    obtain ⟨q, b⟩ := row
    rw [addTo]
    split <;> simp_all [removeFrom?]

/-- Rolling back to the end of the log changes nothing. -/
theorem rollback_mark (t : Trail) : t.rollback t.mark = .ok t := by
  rw [rollback, rollbackFrom]
  exact dif_neg (Nat.lt_irrefl t.log.size)

/-- Rolling back takes a commit back. -/
theorem rollback_commit (t : Trail) (p : Pattern) (e : Expr) {mark : Nat} (h : mark ≤ t.mark) :
    (t.commit p e).rollback mark = t.rollback mark := by
  rw [commit, rollback, rollbackFrom, dif_pos (by rw [Array.size_push]; exact Nat.lt_succ_of_le h)]
  simp only [Array.size_push, Nat.add_sub_cancel, Array.getElem_push_eq, Array.pop_push, removeFrom?_addTo]
  rfl

end Trail
end Dataflow
