/-!
# Attribute records

A record has a type key and fields in the order in which their names were first set.
-/
namespace Dataflow

structure Record (α : Type) where
  typeKey : String
  fields : List (String × α)
  deriving Inhabited

namespace Record

variable {α : Type}

def empty (typeKey : String) : Record α := ⟨typeKey, []⟩

def setField (name : String) (value : α) : List (String × α) → List (String × α)
  | [] => [(name, value)]
  | (n, v) :: rest => if n = name then (n, value) :: rest else (n, v) :: setField name value rest

/-- Gives a field its value where it stands, or adds it at the end. -/
def set (r : Record α) (name : String) (value : α) : Record α :=
  { r with fields := setField name value r.fields }

def ofList (typeKey : String) (pairs : List (String × α)) : Record α :=
  pairs.foldl (fun r (n, v) => r.set n v) (empty typeKey)

def get? (r : Record α) (name : String) : Option α := r.fields.lookup name

def names (r : Record α) : List String := r.fields.map (·.1)

def size (r : Record α) : Nat := r.fields.length

def isEmpty (r : Record α) : Bool := r.fields.isEmpty

theorem lookup_setField (name m : String) (value : α) (fields : List (String × α)) :
    (setField name value fields).lookup m = if m = name then some value else fields.lookup m := by
  induction fields with grind [setField]

@[simp] theorem get?_empty (key m : String) : (empty key : Record α).get? m = none := rfl

@[simp] theorem get?_set (r : Record α) (name m : String) (value : α) :
    (r.set name value).get? m = if m = name then some value else r.get? m :=
  lookup_setField name m value r.fields

@[simp] theorem typeKey_set (r : Record α) (name : String) (value : α) :
    (r.set name value).typeKey = r.typeKey := rfl

end Record
end Dataflow
