import Dataflow.Proofs.Expr.Order
import Dataflow.Proofs.Graph.Forest
/-!
# The dominator parent is the immediate post-dominator

A consumer path leads from a position along consumers to the root.  The dominator parent of a position is the first
of the others that lie on all its consumer paths: it lies on them itself, and whatever else does lies on all consumer
paths of the parent (`parent_dominatorForest`).
-/
namespace Dataflow
namespace DependencyGraph

/-! ## What the graph of an expression holds -/

section
variable {root e : Expr} {i k m n : Nat}

theorem mem_consumersOf {inputs : List (List Nat)} :
    k ∈ consumersOf inputs i ↔ ∃ is, inputs[k]? = some is ∧ i ∈ is := by
  rw [consumersOf, List.mem_flatMap]
  constructor
  · rintro ⟨⟨is, j⟩, hj, hk⟩
    obtain ⟨hcount, rfl⟩ := List.mem_replicate.1 hk
    exact ⟨is, List.mk_mem_zipIdx_iff_getElem?.1 hj, List.count_pos_iff.1 (Nat.pos_of_ne_zero hcount)⟩
  · rintro ⟨is, hk, hi⟩
    refine ⟨(is, k), List.mk_mem_zipIdx_iff_getElem?.2 hk, List.mem_replicate.2 ⟨?_, rfl⟩⟩
    exact Nat.pos_iff_ne_zero.1 (List.count_pos_iff.2 hi)

def consumersIn (root : Expr) (i : Nat) : List Nat :=
  ((List.range root.toposort.length).map
    (consumersOf (root.toposort.map (Expr.inputPositions root.toposort))))[i]?.getD []

def dominatorForest (root : Expr) : Forest := .ofConsumers root.toposort.length (consumersIn root)

def nodeIn (root : Expr) (i : Nat) (e : Expr) : GraphNode where
  expr := e
  inputs := e.inputPositions root.toposort
  consumers := consumersIn root i
  depth := (dominatorForest root).depth i
  dominatorParent := (dominatorForest root).parent? i
  dominatorChildren := (List.range root.toposort.length).reverse.filter fun j =>
    (dominatorForest root).parent? j == some i

theorem size_ofExpr (root : Expr) : (ofExpr root).size = root.toposort.length := by
  simp [size, ofExpr]

theorem node?_ofExpr (root : Expr) (i : Nat) : (ofExpr root).node? i = root.toposort[i]?.map (nodeIn root i) := by
  by_cases hi : i < root.toposort.length
  · unfold nodeIn dominatorForest consumersIn
    simp [node?, ofExpr, hi]
  · rw [List.getElem?_eq_none (by omega), Option.map_none, node?, Array.getElem?_eq_none]
    simpa [ofExpr] using Nat.le_of_not_lt hi

theorem node?_eq_some_iff {node : GraphNode} : (ofExpr root).node? i = some node ↔
    ∃ e, root.toposort[i]? = some e ∧ nodeIn root i e = node := by
  rw [node?_ofExpr, Option.map_eq_some_iff]

/-- `k` has `n` among its inputs. -/
def Feeds (g : DependencyGraph) (n k : Nat) : Prop := ∃ node, g.node? k = some node ∧ n ∈ node.inputs

theorem feeds_iff (h : root.Coherent) : (ofExpr root).Feeds n k ↔
    ∃ (e d : Expr), root.toposort[n]? = some e ∧ root.toposort[k]? = some d ∧ e ∈ d.children := by
  have hinputs : ∀ d, root.toposort[k]? = some d →
      (n ∈ d.inputPositions root.toposort ↔ ∃ c ∈ d.children, root.toposort[n]? = some c) := by
    intro d hd
    have hreach := Expr.reaches_of_mem_toposort h (List.mem_of_getElem? hd)
    rw [Expr.inputPositions, List.mem_filterMap]
    exact exists_congr fun c => and_congr_right fun hc => Expr.positionIn?_toposort_iff h (hreach.child hc)
  constructor
  · rintro ⟨node, hk, hn⟩
    obtain ⟨d, hd, rfl⟩ := node?_eq_some_iff.1 hk
    obtain ⟨e, hed, he⟩ := (hinputs d hd).1 hn
    exact ⟨e, d, he, hd, hed⟩
  · rintro ⟨e, d, he, hd, hed⟩
    exact ⟨_, node?_eq_some_iff.2 ⟨d, hd, rfl⟩, (hinputs d hd).2 ⟨e, hed, he⟩⟩

theorem mem_consumersIn (hi : i < root.toposort.length) : k ∈ consumersIn root i ↔ (ofExpr root).Feeds i k := by
  rw [consumersIn, List.getElem?_map, List.getElem?_range hi, Option.map_some, Option.getD_some, mem_consumersOf]
  constructor
  · rintro ⟨is, hk, his⟩
    rw [List.getElem?_map, Option.map_eq_some_iff] at hk
    obtain ⟨d, hd, rfl⟩ := hk
    exact ⟨_, node?_eq_some_iff.2 ⟨d, hd, rfl⟩, his⟩
  · rintro ⟨node, hk, hi⟩
    obtain ⟨d, hd, rfl⟩ := node?_eq_some_iff.1 hk
    exact ⟨_, by rw [List.getElem?_map, hd]; rfl, hi⟩

theorem consumed_consumersIn (h : root.Coherent) : Forest.Consumed (consumersIn root) root.toposort.length := by
  refine ⟨fun i hi k hk => ?_, fun i hi => ?_⟩
  · obtain ⟨e, d, he, hd, hed⟩ := (feeds_iff h).1 ((mem_consumersIn hi).1 hk)
    obtain ⟨j, hjk, hj⟩ := Expr.exists_input_before h hd hed
    obtain rfl := Expr.toposort_inj h he hj rfl
    exact ⟨hjk, (List.getElem?_eq_some_iff.1 hd).1⟩
  · have hil : i < root.toposort.length := by omega
    obtain ⟨k, d, hd, hed⟩ := Expr.exists_consumer h (List.getElem?_eq_some_iff.2 ⟨hil, rfl⟩) hi
    have hk : k ∈ consumersIn root i :=
      (mem_consumersIn hil).2 ((feeds_iff h).2 ⟨_, d, List.getElem?_eq_some_iff.2 ⟨hil, rfl⟩, hd, hed⟩)
    exact List.ne_nil_of_mem hk

end

/-! ## Consumer paths -/

section
variable {g : DependencyGraph} {root : Expr} {m n r : Nat} {ps : List Nat}

/-- The positions on a way from `n` along consumers to `r`. -/
inductive ConsumerPath (g : DependencyGraph) (r : Nat) : Nat → List Nat → Prop
  | last : ConsumerPath g r r [r]
  | step {n k : Nat} {ps : List Nat} : g.Feeds n k → ConsumerPath g r k ps → ConsumerPath g r n (n :: ps)

def OnEveryPath (g : DependencyGraph) (r m n : Nat) : Prop := ∀ ps, g.ConsumerPath r n ps → m ∈ ps

theorem ConsumerPath.mem_first (h : g.ConsumerPath r n ps) : n ∈ ps := by
  cases h <;> exact List.mem_cons_self

theorem ConsumerPath.mem_last (h : g.ConsumerPath r n ps) : r ∈ ps := by
  induction h with
  | last => exact List.mem_cons_self
  | step _ _ ih => exact List.mem_cons_of_mem _ ih

theorem onEveryPath_iff : g.OnEveryPath r m n ↔ m = n ∨ n ≠ r ∧ ∀ k, g.Feeds n k → g.OnEveryPath r m k := by
  constructor
  · intro h
    by_cases hmn : m = n
    · exact .inl hmn
    refine .inr ⟨?_, fun k hk ps hps => ?_⟩
    · rintro rfl
      exact hmn (List.mem_singleton.1 (h _ .last))
    · exact (List.mem_cons.1 (h _ (.step hk hps))).resolve_left hmn
  · rintro (rfl | ⟨hnr, h⟩) ps hps
    · exact hps.mem_first
    · cases hps with
      | last => exact absurd rfl hnr
      | step hk hps => exact List.mem_cons_of_mem _ (h _ hk _ hps)

theorem onAllWays_onEveryPath (root : Expr) : Forest.OnAllWays (consumersIn root) root.toposort.length
    ((ofExpr root).OnEveryPath (root.toposort.length - 1)) := by
  refine ⟨fun n hn m => ?_, fun n _ ps hps => hps.mem_last⟩
  rw [onEveryPath_iff, forall_congr' fun k => imp_congr_left (mem_consumersIn hn).symm]
  have hlast : n ≠ root.toposort.length - 1 ↔ n + 1 ≠ root.toposort.length := by omega
  rw [hlast]

/-- The dominator parents of a graph are the immediate post-dominators towards `r`, and its depths and dominator
children say the same. -/
structure IsPostDominatorTree (g : DependencyGraph) (r : Nat) : Prop where
  root : ∃ node, g.node? r = some node ∧ node.dominatorParent = none ∧ node.depth = 0
  /-- Some way leads from every position to the root. -/
  path : ∀ n, n < g.size → ∃ ps, g.ConsumerPath r n ps
  parent : ∀ n node, n ≠ r → g.node? n = some node → ∃ d above, node.dominatorParent = some d ∧
    g.node? d = some above ∧ d ≠ n ∧ g.OnEveryPath r d n ∧
    (∀ m, m ≠ n → g.OnEveryPath r m n → g.OnEveryPath r m d) ∧ node.depth = above.depth + 1
  children : ∀ d node, g.node? d = some node → node.dominatorChildren.Nodup ∧
    ∀ n, n ∈ node.dominatorChildren ↔ ∃ below, g.node? n = some below ∧ below.dominatorParent = some d

theorem decided_dominatorForest (h : root.Coherent) : (dominatorForest root).Decided
    ((ofExpr root).OnEveryPath (root.toposort.length - 1)) root.toposort.length 0 :=
  Forest.decided_ofConsumers (consumed_consumersIn h) (onAllWays_onEveryPath root)

theorem toposort_root (h : root.Coherent) : root.toposort[root.toposort.length - 1]? = some root := by
  rw [← List.getLast?_eq_getElem?, Expr.getLast?_toposort h]

theorem root?_ofExpr (h : root.Coherent) : (ofExpr root).root? = some root := by
  have hlast := Expr.getLast?_toposort h
  rw [List.getLast?_eq_getElem?, ← size_ofExpr] at hlast
  have hnode : (ofExpr root).nodes.back? = some (nodeIn root ((ofExpr root).size - 1) root) :=
    node?_eq_some_iff.2 ⟨root, hlast, rfl⟩
  rw [root?, hnode]
  rfl

theorem exists_consumerPath (h : root.Coherent) : ∀ {n : Nat}, n < root.toposort.length →
    ∃ ps, (ofExpr root).ConsumerPath (root.toposort.length - 1) n ps := by
  intro n hn
  by_cases hlast : n + 1 = root.toposort.length
  · obtain rfl : n = root.toposort.length - 1 := by omega
    exact ⟨_, .last⟩
  · have hc := consumed_consumersIn h
    obtain ⟨k, hk⟩ := List.exists_mem_of_ne_nil _ (hc.nonempty n (by omega))
    have hnk := hc.later n hn k hk
    obtain ⟨ps, hps⟩ := exists_consumerPath h hnk.2
    exact ⟨_, .step ((mem_consumersIn hn).1 hk) hps⟩
termination_by n => root.toposort.length - n

/-- Every position but the last has a parent, and it is the first of the others on all paths. -/
theorem parent_dominatorForest (h : root.Coherent) (hn : n + 1 < root.toposort.length) :
    ∃ d, (dominatorForest root).parent? n = some d ∧ n < d ∧ d < root.toposort.length ∧
      (ofExpr root).OnEveryPath (root.toposort.length - 1) d n ∧
      ∀ m, m ≠ n → (ofExpr root).OnEveryPath (root.toposort.length - 1) m n →
        (ofExpr root).OnEveryPath (root.toposort.length - 1) m d := by
  have hf := decided_dominatorForest h
  have hiff := fun m => hf.ancestor_iff n (by omega) (by omega) m
  cases hd : (dominatorForest root).parent? n with
  | none =>
    have hroot := (hiff _).2 fun ps hps => hps.mem_last
    rw [Forest.ancestor_iff_of_root hd] at hroot
    omega
  | some d =>
    obtain ⟨hnd, hds⟩ := hf.later n d hd
    refine ⟨d, rfl, hnd, hds, (hiff d).1 (.above hd .refl), fun m hmn hm => ?_⟩
    have hmd := ((Forest.ancestor_iff_of_child hd).1 ((hiff m).2 hm)).resolve_left hmn
    exact (hf.ancestor_iff d (by omega) hds m).1 hmd

/-- **Dominator parents are immediate post-dominators.**  In the graph of an expression the node of the expression has
no dominator parent.  The dominator parent of any other node lies on all its consumer paths to the root, and so does
nothing else but the node itself and what lies on all consumer paths of the parent. -/
theorem isPostDominatorTree_ofExpr (root : Expr) (h : root.Coherent) : ∃ r node,
    (ofExpr root).node? r = some node ∧ node.expr = root ∧ (ofExpr root).IsPostDominatorTree r := by
  have hf := decided_dominatorForest h
  have hlast := node?_eq_some_iff.2 ⟨root, toposort_root h, rfl⟩
  have hrootless : (dominatorForest root).parent? (root.toposort.length - 1) = none := by
    rw [Option.eq_none_iff_forall_ne_some]
    intro p hp
    have := hf.later _ p hp
    omega
  have hnode : ∀ {i : Nat}, i < root.toposort.length →
      ∃ e, root.toposort[i]? = some e ∧ (ofExpr root).node? i = some (nodeIn root i e) := fun hi =>
    ⟨_, List.getElem?_eq_some_iff.2 ⟨hi, rfl⟩, node?_eq_some_iff.2 ⟨_, List.getElem?_eq_some_iff.2 ⟨hi, rfl⟩, rfl⟩⟩
  refine ⟨_, _, hlast, rfl, ⟨_, hlast, ?_, ?_⟩, fun n hn => ?_, fun n node hne hn => ?_, fun d node hd => ?_⟩
  · exact hrootless
  · exact hf.leveled.root _ hrootless
  · exact exists_consumerPath h (size_ofExpr root ▸ hn)
  · obtain ⟨e, he, rfl⟩ := node?_eq_some_iff.1 hn
    have hnl : n < root.toposort.length := (List.getElem?_eq_some_iff.1 he).1
    obtain ⟨d, hd, hnd, hds, hon, hnext⟩ := parent_dominatorForest h (by omega : n + 1 < root.toposort.length)
    obtain ⟨b, -, hb⟩ := hnode hds
    exact ⟨d, _, hd, hb, by omega, hon, hnext, hf.leveled.child n d hd⟩
  · obtain ⟨e, -, rfl⟩ := node?_eq_some_iff.1 hd
    refine ⟨(List.nodup_reverse.2 List.nodup_range).filter _, fun n => ?_⟩
    rw [nodeIn, List.mem_filter, List.mem_reverse, List.mem_range, beq_iff_eq]
    constructor
    · rintro ⟨hn, hp⟩
      obtain ⟨b, -, hb⟩ := hnode hn
      exact ⟨_, hb, hp⟩
    · rintro ⟨below, hb, hp⟩
      obtain ⟨b, hbn, rfl⟩ := node?_eq_some_iff.1 hb
      exact ⟨(List.getElem?_eq_some_iff.1 hbn).1, hp⟩

/-- A tuple of `x` and of a pair of `x` with itself. -/
theorem isPostDominatorTree_of_shared_input :
    let x := Expr.var ⟨0, none, none⟩ ⟨0, "x"⟩
    let pair := Expr.tuple ⟨1, none, none⟩ [x, x]
    let root := Expr.tuple ⟨2, none, none⟩ [pair, x]
    root.Coherent ∧ ∃ r node, (ofExpr root).node? r = some node ∧ node.expr = root ∧
      (ofExpr root).IsPostDominatorTree r := by
  intro x pair root
  have hroot : root.Coherent := by
    have hmem : root ∈ [x, pair, root] := by simp
    refine Expr.coherent_of_closed hmem ?_ (by decide)
    simp [root, pair, x, Expr.children]
  exact ⟨hroot, isPostDominatorTree_ofExpr root hroot⟩

end
end DependencyGraph
end Dataflow
