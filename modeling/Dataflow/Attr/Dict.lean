/-!
# Dictionaries

A dictionary has at most one value for a name and lists its names in ascending order.  `insert` keeps the entries
sorted, so a dictionary built from the empty one has them in that order
(`sorted_ofList`), and its latest value for a name is the one that counts (`get?_insert`).
-/
namespace Dataflow

structure Dict (α : Type) where
  entries : List (String × α)
  deriving Inhabited

namespace Dict

variable {α : Type}

def empty : Dict α := ⟨[]⟩

def insertEntry (name : String) (value : α) : List (String × α) → List (String × α)
  | [] => [(name, value)]
  | (n, v) :: rest =>
    if name < n then (name, value) :: (n, v) :: rest
    else if name = n then (name, value) :: rest
    else (n, v) :: insertEntry name value rest

/-- Gives a name its value, in place of an earlier one. -/
def insert (d : Dict α) (name : String) (value : α) : Dict α := ⟨insertEntry name value d.entries⟩

/-- The dictionary of some pairs; of two for one name the later counts. -/
def ofList (pairs : List (String × α)) : Dict α := pairs.foldl (fun d (n, v) => d.insert n v) empty

def get? (d : Dict α) (name : String) : Option α := d.entries.lookup name

def contains (d : Dict α) (name : String) : Bool := (d.get? name).isSome

def size (d : Dict α) : Nat := d.entries.length

def isEmpty (d : Dict α) : Bool := d.entries.isEmpty

/-- The names stand in ascending order, each once. -/
def Sorted (d : Dict α) : Prop := d.entries.Pairwise fun x y => x.1 < y.1

/-! ## What a dictionary answers after an insertion -/

theorem lookup_insertEntry (name m : String) (value : α) (entries : List (String × α)) :
    (insertEntry name value entries).lookup m = if m = name then some value else entries.lookup m := by
  induction entries with grind [insertEntry]

@[simp] theorem get?_empty (m : String) : (empty : Dict α).get? m = none := rfl

@[simp] theorem get?_insert (d : Dict α) (name m : String) (value : α) :
    (d.insert name value).get? m = if m = name then some value else d.get? m :=
  lookup_insertEntry name m value d.entries

theorem mem_insertEntry {name : String} {value : α} {entries : List (String × α)} {x : String × α}
    (h : x ∈ insertEntry name value entries) : x = (name, value) ∨ x ∈ entries := by
  induction entries with grind [insertEntry]

theorem pairwise_insertEntry (name : String) (value : α) {entries : List (String × α)}
    (h : entries.Pairwise fun x y => x.1 < y.1) :
    (insertEntry name value entries).Pairwise fun x y => x.1 < y.1 := by
  induction entries with
  | nil => simp [insertEntry]
  | cons entry rest ih =>
    obtain ⟨n, v⟩ := entry
    have hrest := List.pairwise_cons.1 h
    rw [insertEntry]
    split
    · rename_i hlt
      refine List.pairwise_cons.2 ⟨fun x hx => ?_, h⟩
      rcases List.mem_cons.1 hx with rfl | hx
      · exact hlt
      · exact String.lt_trans hlt (hrest.1 x hx)
    · split
      · rename_i heq
        subst heq
        exact List.pairwise_cons.2 hrest
      · rename_i hlt hne
        refine List.pairwise_cons.2 ⟨fun x hx => ?_, ih hrest.2⟩
        rcases mem_insertEntry hx with rfl | hx
        · exact Std.lt_of_le_of_ne (String.not_lt.1 hlt) (Ne.symm hne)
        · exact hrest.1 x hx

theorem sorted_empty : (empty : Dict α).Sorted := .nil

theorem Sorted.insert {d : Dict α} (h : d.Sorted) (name : String) (value : α) : (d.insert name value).Sorted :=
  pairwise_insertEntry name value h

theorem sorted_ofList (pairs : List (String × α)) : (ofList pairs).Sorted := by
  have foldl_sorted : ∀ d : Dict α, d.Sorted → (pairs.foldl (fun d (n, v) => d.insert n v) d).Sorted := by
    induction pairs with
    | nil => exact fun _ h => h
    | cons pair rest ih => exact fun d h => ih _ (h.insert pair.1 pair.2)
  exact foldl_sorted empty sorted_empty

end Dict
end Dataflow
