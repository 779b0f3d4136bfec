import Dataflow.Proofs.Pattern.Parts
import Mathlib.Data.List.Nodup
import Mathlib.Data.List.Perm.Subperm
/-!
# Patterns without sharing

`ids` lists the identities at all the positions of a pattern.  In a linear pattern, every position has an identity of
its own: the parts have none in common (`Linear.apart`), and a re-association, which has the same parts in another order
below two new calls, is linear as well (`linear_of_mem_reassociations`).
-/
namespace Dataflow
namespace Pattern

/-- The identities at the positions of a pattern. -/
def ids (p : Pattern) : List PatternId := p.id :: p.children.attach.flatMap fun ⟨q, _⟩ => ids q
termination_by p.size
decreasing_by exact size_lt_of_mem_children ‹_›

/-- No identity stands at two positions. -/
def Linear (p : Pattern) : Prop := p.ids.Nodup

variable {p q r : Pattern} {n : Nat}

theorem ids_eq (p : Pattern) : p.ids = p.id :: p.children.flatMap ids := by
  rw [ids, List.flatMap_subtype (fun _ _ => rfl), List.unattach_attach]

theorem mem_ids_iff {p : Pattern} {i : PatternId} : i ∈ p.ids ↔ p.Uses i := by
  rw [ids_eq, List.mem_cons, List.mem_flatMap, uses_iff]
  exact or_congr_right (exists_congr fun q => and_congr_right fun _ => mem_ids_iff)
termination_by p.size
decreasing_by exact size_lt_of_mem_children ‹_›

theorem ids_derive (k : Nat) (callee a b : Pattern) :
    (derive k callee a b).ids = .derived k :: (callee.ids ++ (a.ids ++ b.ids)) := by
  rw [ids_eq, id_derive, children_derive]
  simp

theorem ids_of_operands? {name : String} {callee a b : Pattern} (h : p.operands? name = some (callee, a, b)) :
    p.ids = p.id :: (callee.ids ++ (a.ids ++ b.ids)) := by
  rw [ids_eq, children_of_operands? h]
  simp

theorem Linear.child (h : p.Linear) (hq : q ∈ p.children) : q.Linear := by
  rw [Linear, ids_eq, List.nodup_cons, List.nodup_flatMap] at h
  exact h.2.1 q hq

/-- The parts of a linear pattern have no identity in common. -/
theorem Linear.apart (h : p.Linear) : p.children.Pairwise fun q r => ∀ i, q.Uses i → ¬r.Uses i := by
  rw [Linear, ids_eq, List.nodup_cons, List.nodup_flatMap] at h
  refine h.2.2.imp fun hdisjoint i hq hr => ?_
  exact hdisjoint (mem_ids_iff.2 hq) (mem_ids_iff.2 hr)

theorem Linear.plain (h : p.Linear) (hdominator : p.containsDominator = false)
    (hbelow : ∀ k, p.Uses (.derived k) → k < n) : p.Plain n := by
  refine ⟨hdominator, hbelow, fun q hq => ?_⟩
  have hlinear : q.Linear := by
    induction hq with
    | refl => exact h
    | child _ hc ih => exact ih.child hc
  rw [Linear, ids_eq, List.nodup_cons] at hlinear
  rintro ⟨r, hr, hid⟩
  exact hlinear.1 (List.mem_flatMap.2 ⟨r, hr, mem_ids_iff.2 hid⟩)

/-- Two new calls around parts that have each identity no more often than a list without repetitions. -/
theorem linear_derive {f g x y z : Pattern} {k : Nat} {l : List PatternId} (hl : l.Nodup)
    (hk : ∀ j, k ≤ j → .derived j ∉ l)
    (hparts : ∀ i, f.ids.count i + g.ids.count i + x.ids.count i + y.ids.count i + z.ids.count i ≤ l.count i) :
    (derive (k + 1) f x (derive k g y z)).Linear ∧ (derive (k + 1) f (derive k g x y) z).Linear := by
  have hnew : ∀ j, k ≤ j → l.count (.derived j) = 0 := fun j hj => List.count_eq_zero.2 (hk j hj)
  have hcount : ∀ i, (f.ids.count i + g.ids.count i + x.ids.count i + y.ids.count i + z.ids.count i) +
      (if PatternId.derived (k + 1) == i then 1 else 0) + (if PatternId.derived k == i then 1 else 0) ≤ 1 := by
    intro i
    have hle := hparts i
    have hone := List.nodup_iff_count_le_one.1 hl i
    by_cases h₁ : PatternId.derived (k + 1) = i
    · subst h₁
      have := hnew (k + 1) (Nat.le_succ k)
      simp
      omega
    · by_cases h₂ : PatternId.derived k = i
      · subst h₂
        have := hnew k (Nat.le_refl k)
        simp
        omega
      · simp [h₁, h₂]
        omega
  constructor
  all_goals
    refine List.nodup_iff_count_le_one.2 fun i => ?_
    have := hcount i
    simp only [ids_derive, List.count_cons, List.count_append]
    omega

/-- **Re-association keeps a pattern linear**, if the identities it takes are new. -/
theorem linear_of_mem_reassociations {e : Expr} (hlinear : p.Linear) (hbelow : ∀ k, p.UsesWithin (.derived k) → k < n)
    (h : q ∈ reassociations n p e) : q.Linear := by
  rw [Linear, ids_eq, List.nodup_cons] at hlinear
  have hnew : ∀ k, n ≤ k → ∀ j, k ≤ j → .derived j ∉ p.children.flatMap ids := fun k hk j hj hmem => by
    obtain ⟨d, hd, hj'⟩ := List.mem_flatMap.1 hmem
    have := hbelow j ⟨d, hd, mem_ids_iff.1 hj'⟩
    omega
  cases reassociated_of_mem h with
  | second hquotient hproduct =>
    refine (linear_derive hlinear.2 (hnew n (Nat.le_refl n)) fun i => ?_).1
    simp only [children_of_operands? hquotient, List.flatMap_cons, List.flatMap_nil, ids_of_operands? hproduct,
      List.count_cons, List.count_append, List.count_nil]
    omega
  | first hquotient hproduct =>
    refine (linear_derive hlinear.2 (hnew (n + 2) (Nat.le_add_right n 2)) fun i => ?_).1
    simp only [children_of_operands? hquotient, List.flatMap_cons, List.flatMap_nil, ids_of_operands? hproduct,
      List.count_cons, List.count_append, List.count_nil]
    omega
  | left hproduct hquotient | right hproduct hquotient =>
    refine (linear_derive hlinear.2 (hnew n (Nat.le_refl n)) fun i => ?_).2
    simp only [children_of_operands? hproduct, List.flatMap_cons, List.flatMap_nil, ids_of_operands? hquotient,
      List.count_cons, List.count_append, List.count_nil]
    omega

end Pattern
end Dataflow
