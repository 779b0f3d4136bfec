import Dataflow.Proofs.Graph.PostDominance
/-!
# The search for a nearest common ancestor

The search goes in rounds: the deeper of two positions is left for its parent, or both are if they are equally deep,
until they are one position (`Meets`).  Nothing in a round says that the search gets anywhere.  It does in a forest whose
depths count the steps from the roots, for positions of one tree: it meets at the deepest ancestor that both have.

While the dominator forest of a graph grows, the positions that are decided are always one tree.  So the search for the
parent of a position never runs out of parents, and no position gets the node that is kept for that case
(`nearestCommon?_finds`).
-/
namespace Dataflow
namespace Forest

variable {f : Forest} {i j l n p q : Nat}

/-- Positions of one tree have an ancestor in common. -/
def SameTree (f : Forest) (i j : Nat) : Prop := ∃ a, f.Ancestor a i ∧ f.Ancestor a j

/-- Of the ancestors that `i` and `j` have in common `l` is the deepest, and no other is as deep. -/
structure DeepestCommon (f : Forest) (i j l : Nat) : Prop where
  left : f.Ancestor l i
  right : f.Ancestor l j
  deepest : ∀ m, f.Ancestor m i → f.Ancestor m j → m ≠ l → f.depth m < f.depth l

/-! ## Rounds -/

/-- Where the search goes on from two different positions, if the parents that it asks for are there. -/
def round? (f : Forest) (i j : Nat) : Option (Nat × Nat) :=
  if f.depth i < f.depth j then (f.parent? j).map fun q => (i, q)
  else if f.depth j < f.depth i then (f.parent? i).map fun p => (p, j)
  else do return (← f.parent? i, ← f.parent? j)

/-- The search from `i` and `j` meets at `l` after `n` rounds. -/
inductive Meets (f : Forest) : Nat → Nat → Nat → Nat → Prop
  | here (i : Nat) : Meets f i i 0 i
  | round {i j p q n l : Nat} : i ≠ j → f.round? i j = some (p, q) → Meets f p q n l → Meets f i j (n + 1) l

theorem parent?_of_above? {q : { p : Nat // f.depth p < f.depth i }} (h : f.above? i = some q) :
    f.parent? i = some q.1 := by
  unfold above? at h
  split at h
  · split at h
    · cases h
      assumption
    · cases h
  · cases h

/-- What the search answers is where its rounds meet. -/
theorem exists_meets (h : f.nearestCommon? i j = some l) : ∃ n, f.Meets i j n l := by
  fun_induction nearestCommon? f i j with
  | case1 i =>
    cases h
    exact ⟨0, .here _⟩
  | case2 i j hne hlt q hq hqj ih =>
    obtain ⟨n, hn⟩ := ih h
    refine ⟨n + 1, .round hne ?_ hn⟩
    rw [round?, if_pos hlt, parent?_of_above? hqj]
    rfl
  | case3 => cases h
  | case4 i j hne hlt hgt p hp hpi ih =>
    obtain ⟨n, hn⟩ := ih h
    refine ⟨n + 1, .round hne ?_ hn⟩
    rw [round?, if_neg hlt, if_pos hgt, parent?_of_above? hpi]
    rfl
  | case5 => cases h
  | case6 i j hne hlt hgt p hp q hq hqj hpi ih =>
    obtain ⟨n, hn⟩ := ih h
    refine ⟨n + 1, .round hne ?_ hn⟩
    rw [round?, if_neg hlt, if_neg hgt, parent?_of_above? hpi, parent?_of_above? hqj]
    rfl
  | case7 => cases h

namespace Leveled

/-- A round takes one step off the deeper position. -/
theorem max_depth_of_round? (hf : f.Leveled) (h : f.round? i j = some (p, q)) :
    max (f.depth p) (f.depth q) + 1 = max (f.depth i) (f.depth j) := by
  unfold round? at h
  split at h
  · obtain ⟨r, hr, hpq⟩ := Option.map_eq_some_iff.1 h
    cases hpq
    have := hf.child j _ hr
    omega
  · split at h
    · obtain ⟨r, hr, hpq⟩ := Option.map_eq_some_iff.1 h
      cases hpq
      have := hf.child i _ hr
      omega
    · obtain ⟨p, hp, h⟩ := Option.bind_eq_some_iff.1 h
      obtain ⟨q, hq, h⟩ := Option.bind_eq_some_iff.1 h
      cases h
      have := hf.child i _ hp
      have := hf.child j _ hq
      omega

/-- The search takes as many rounds as the deeper position lies below the result. -/
theorem rounds_eq (hf : f.Leveled) (h : f.Meets i j n l) : n + f.depth l = max (f.depth i) (f.depth j) := by
  induction h with
  | here i => omega
  | round _ hround _ ih =>
    have := hf.max_depth_of_round? hround
    omega

theorem deepestCommon (hf : f.Leveled) (hl : ∀ m, f.Ancestor m l ↔ f.Ancestor m i ∧ f.Ancestor m j) :
    f.DeepestCommon i j l := by
  obtain ⟨hi, hj⟩ := (hl l).1 .refl
  refine ⟨hi, hj, fun m hmi hmj hne => ?_⟩
  by_contra hdeep
  exact hne (hf.eq_of_depth_le ((hl m).2 ⟨hmi, hmj⟩) (by omega))

/-- The search from two positions of one tree ends at the deepest ancestor that both have. -/
theorem exists_deepestCommon (hf : f.Leveled) (h : f.SameTree i j) : ∃ l n, f.nearestCommon? i j = some l ∧
    f.Meets i j n l ∧ n + f.depth l = max (f.depth i) (f.depth j) ∧ f.DeepestCommon i j l := by
  obtain ⟨a, hi, hj⟩ := h
  obtain ⟨l, hl, hm⟩ := hf.nearestCommon?_spec hi hj
  obtain ⟨n, hn⟩ := exists_meets hl
  exact ⟨l, n, hl, hn, hf.rounds_eq hn, hf.deepestCommon hm⟩

end Leveled
end Forest

namespace DependencyGraph

variable {root : Expr} {i m n : Nat}

/-- The dominator forest of a graph when its positions from `i` on are decided. -/
def growingForest (root : Expr) (i : Nat) : Forest := .grown root.toposort.length (consumersIn root) i

theorem growingForest_zero (root : Expr) : growingForest root 0 = dominatorForest root := Forest.grown_zero _ _

theorem decided_growingForest (h : root.Coherent) (hi : i ≤ root.toposort.length) :
    (growingForest root i).Decided ((ofExpr root).OnEveryPath (root.toposort.length - 1)) root.toposort.length i :=
  Forest.decided_grown (consumed_consumersIn h) (onAllWays_onEveryPath root) hi

/-- The decided positions are one tree. -/
theorem sameTree_growingForest (h : root.Coherent) (him : i ≤ m) (hm : m < root.toposort.length) (hin : i ≤ n)
    (hn : n < root.toposort.length) : (growingForest root i).SameTree m n := by
  have hf := decided_growingForest h (by omega : i ≤ root.toposort.length)
  have hlast := (onAllWays_onEveryPath root).last
  exact ⟨root.toposort.length - 1, (hf.ancestor_iff m him hm _).2 (hlast m hm),
    (hf.ancestor_iff n hin hn _).2 (hlast n hn)⟩

/-- **Nearest common ancestors are found.**  In a forest whose depths count the steps from the roots, the search from two
positions of one tree ends, and it ends at the deepest ancestor that both have.  While the forest of a graph grows, it
ends so for any two positions that are decided; every position but the root gets the nearest common ancestor of its
consumers for a parent and the depth below it, and only the root has no parent. -/
theorem nearestCommon?_finds :
    (∀ (f : Forest) (i j : Nat), f.Leveled → f.SameTree i j → ∃ l n, f.nearestCommon? i j = some l ∧
      f.Meets i j n l ∧ n + f.depth l = max (f.depth i) (f.depth j) ∧ f.DeepestCommon i j l) ∧
    ∀ root : Expr, root.Coherent → growingForest root 0 = dominatorForest root ∧
      (∀ i m n, i ≤ m → m < (ofExpr root).size → i ≤ n → n < (ofExpr root).size →
        ∃ l, (growingForest root i).nearestCommon? m n = some l ∧ (growingForest root i).DeepestCommon m n l) ∧
      ∀ i node, (ofExpr root).node? i = some node →
        (i + 1 = (ofExpr root).size ∧ node.consumers = [] ∧ node.dominatorParent = none ∧ node.depth = 0) ∨
        ∃ p, (growingForest root (i + 1)).nearestCommonOf? node.consumers = some p ∧
          node.dominatorParent = some p ∧ node.depth = (growingForest root (i + 1)).depth p + 1 := by
  refine ⟨fun f i j hf h => hf.exists_deepestCommon h, fun root h => ⟨growingForest_zero root,
    fun i m n him hm hin hn => ?_, fun i node hnode => ?_⟩⟩
  · rw [size_ofExpr] at hm hn
    obtain ⟨l, -, hl, -, -, hdeepest⟩ := (decided_growingForest h (by omega)).leveled.exists_deepestCommon
      (sameTree_growingForest h him hm hin hn)
    exact ⟨l, hl, hdeepest⟩
  · obtain ⟨e, he, rfl⟩ := node?_eq_some_iff.1 hnode
    have hi := (List.getElem?_eq_some_iff.1 he).1
    rw [size_ofExpr]
    by_cases hlast : i + 1 = root.toposort.length
    · exact .inl ⟨hlast, Forest.root_ofConsumers (consumed_consumersIn h) hlast⟩
    · exact .inr (Forest.exists_parent_ofConsumers (consumed_consumersIn h) (onAllWays_onEveryPath root) (by omega))

/-- Two positions of different depths in a forest of two trees, and the graph of a tuple of `x` and of `x` in two boxes. -/
theorem nearestCommon?_finds_of_uneven_depths :
    let f : Forest := ⟨#[⟨3, some 1⟩, ⟨2, some 3⟩, ⟨2, some 3⟩, ⟨1, some 4⟩, ⟨0, none⟩, ⟨0, none⟩]⟩
    let x := Expr.var ⟨0, none, none⟩ ⟨0, "x"⟩
    let box := Expr.tuple ⟨1, none, none⟩ [x]
    let boxes := Expr.tuple ⟨2, none, none⟩ [box]
    let root := Expr.tuple ⟨3, none, none⟩ [boxes, x]
    f.Leveled ∧ f.SameTree 0 2 ∧
      (∃ l n, f.nearestCommon? 0 2 = some l ∧ f.Meets 0 2 n l ∧ n + f.depth l = 3 ∧ f.DeepestCommon 0 2 l) ∧
      root.Coherent ∧
      ∀ i m n, i ≤ m → m < (ofExpr root).size → i ≤ n → n < (ofExpr root).size →
        ∃ l, (growingForest root i).nearestCommon? m n = some l ∧ (growingForest root i).DeepestCommon m n l := by
  intro f x box boxes root
  have hf : f.Leveled := by decide
  have hsame : f.SameTree 0 2 := ⟨3, .above rfl (.above rfl .refl), .above rfl .refl⟩
  have hroot : root.Coherent := by
    have hmem : root ∈ [x, box, boxes, root] := by simp
    refine Expr.coherent_of_closed hmem ?_ (by decide)
    simp [root, boxes, box, x, Expr.children]
  exact ⟨hf, hsame, nearestCommon?_finds.1 f 0 2 hf hsame, hroot, (nearestCommon?_finds.2 root hroot).2.1⟩

end DependencyGraph
end Dataflow
