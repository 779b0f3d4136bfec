import Dataflow.Proofs.Graph.Dominated
/-!
# The graph of an expression is the expression

Inputs and consumers are the two sides of one relation with multiplicities: a position is as often among the consumers
of another as that one is among its inputs (`count_consumersOf`).  Every input of a node has a position
(`exists_positionIn?`), so that none is left out, and the last position is the only one that nothing consumes
(`consumersIn_eq_nil_iff`).
-/
namespace Dataflow
namespace DependencyGraph

/-! ## Consumers with their multiplicities -/

section
variable {root e c : Expr} {i k n : Nat}

/-- The inputs stand at positions from `n` on. -/
theorem count_consumersOf_from (inputs : List (List Nat)) (i k : Nat) : ∀ n,
    ((inputs.zipIdx n).flatMap fun (is, j) => List.replicate (is.count i) j).count k =
      if n ≤ k then (inputs[k - n]?.getD []).count i else 0 := by
  induction inputs with
  | nil => simp
  | cons is inputs ih =>
    intro n
    rw [List.zipIdx_cons, List.flatMap_cons, List.count_append, ih (n + 1), List.count_replicate]
    rcases Nat.lt_trichotomy k n with hkn | rfl | hnk
    · rw [if_neg (by simpa using Nat.ne_of_gt hkn), if_neg (by omega), if_neg (by omega)]
    · rw [if_pos (beq_self_eq_true k), if_neg (by omega), if_pos (Nat.le_refl k), Nat.sub_self,
        List.getElem?_cons_zero, Option.getD_some, Nat.add_zero]
    · obtain ⟨d, rfl⟩ := Nat.exists_eq_add_of_lt hnk
      rw [if_neg (by simpa using Nat.ne_of_lt hnk), if_pos (by omega), if_pos (by omega), Nat.zero_add,
        show n + d + 1 - n = d + 1 by omega, show n + d + 1 - (n + 1) = d by omega, List.getElem?_cons_succ]

/-- A position consumes another once for each time it has it among its inputs. -/
theorem count_consumersOf (inputs : List (List Nat)) (i k : Nat) :
    (consumersOf inputs i).count k = (inputs[k]?.getD []).count i := by
  simpa [consumersOf] using count_consumersOf_from inputs i k 0

theorem pairwise_consumersOf (inputs : List (List Nat)) (i : Nat) : (consumersOf inputs i).Pairwise (· ≤ ·) := by
  have hpositions : inputs.zipIdx.Pairwise fun a b => a.2 < b.2 := by
    have := List.pairwise_lt_range' (s := 0) (n := inputs.length)
    rwa [← List.zipIdx_map_snd, List.pairwise_map] at this
  rw [consumersOf, List.pairwise_flatMap]
  refine ⟨fun _ _ => by simp, hpositions.imp fun hab k hk l hl => ?_⟩
  obtain rfl := List.eq_of_mem_replicate hk
  obtain rfl := List.eq_of_mem_replicate hl
  exact Nat.le_of_lt hab

theorem consumersIn_eq (hi : i < root.toposort.length) :
    consumersIn root i = consumersOf (root.toposort.map (Expr.inputPositions root.toposort)) i := by
  rw [consumersIn, List.getElem?_map, List.getElem?_range hi, Option.map_some, Option.getD_some]

theorem count_consumersIn (hi : i < root.toposort.length) : (consumersIn root i).count k =
    ((ofExpr root).node? k).elim 0 fun consumer => consumer.inputs.count i := by
  rw [consumersIn_eq hi, count_consumersOf, List.getElem?_map, node?_ofExpr]
  cases root.toposort[k]? <;> rfl

/-- Only the last position has no consumers. -/
theorem consumersIn_eq_nil_iff (h : root.Coherent) (hi : i < root.toposort.length) :
    consumersIn root i = [] ↔ i + 1 = root.toposort.length := by
  have hc := consumed_consumersIn h
  constructor
  · intro hnil
    by_contra hlast
    exact hc.nonempty i (by omega) hnil
  · intro hlast
    rw [List.eq_nil_iff_forall_not_mem]
    intro k hk
    have := hc.later i hi k hk
    omega

/-! ## Inputs with their positions -/

/-- Where an input stands is found. -/
theorem exists_positionIn? (h : root.Coherent) (hk : root.toposort[k]? = some e) (hc : c ∈ e.children) :
    ∃ i, c.positionIn? root.toposort = some i ∧ i < k := by
  obtain ⟨i, hik, hi⟩ := Expr.exists_input_before h hk hc
  have hreach := (Expr.reaches_of_mem_toposort h (List.mem_of_getElem? hk)).child hc
  exact ⟨i, (Expr.positionIn?_toposort_iff h hreach).2 hi, hik⟩

/-- No input of a node is left out. -/
theorem map_some_inputPositions (h : root.Coherent) (he : e ∈ root.toposort) :
    (e.inputPositions root.toposort).map some = e.children.map (Expr.positionIn? root.toposort) := by
  obtain ⟨k, hk⟩ := List.getElem?_of_mem he
  have hfound : ∀ c ∈ e.children, ∃ i, c.positionIn? root.toposort = some i := fun c hc =>
    (exists_positionIn? h hk hc).imp fun _ hi => hi.1
  rw [Expr.inputPositions]
  generalize e.children = cs at hfound
  induction cs with
  | nil => rfl
  | cons c cs ih =>
    rw [List.forall_mem_cons] at hfound
    obtain ⟨⟨i, hi⟩, hcs⟩ := hfound
    rw [List.filterMap_cons_some hi, List.map_cons, List.map_cons, hi, ih hcs]

theorem lt_of_mem_inputPositions (h : root.Coherent) (hk : root.toposort[k]? = some e)
    (hi : i ∈ e.inputPositions root.toposort) : i < k := by
  obtain ⟨c, hc, hci⟩ := List.mem_filterMap.1 hi
  obtain ⟨j, hj, hjk⟩ := exists_positionIn? h hk hc
  rw [hci] at hj
  cases hj
  exact hjk

end

/-! ## The whole graph -/

/-- A graph holds what `root` reaches, inputs before their consumers and the root last. -/
structure Faithful (g : DependencyGraph) (root : Expr) : Prop where
  /-- Its nodes are the expressions that the root reaches. -/
  nodes : ∀ e, (∃ i node, g.node? i = some node ∧ node.expr = e) ↔ root.Reaches e
  /-- The position of one of them is the one that has it. -/
  position : ∀ i e, root.Reaches e → (g.position? e = some i ↔ ∃ node, g.node? i = some node ∧ node.expr = e)
  /-- Inputs are the positions of the inputs of the expression, in order and with repetitions. -/
  inputs : ∀ k node, g.node? k = some node → node.inputs.map some = node.expr.children.map g.position?
  earlier : ∀ k node, g.node? k = some node → ∀ i ∈ node.inputs, i < k
  /-- Every position is among the consumers as often as it has the node among its inputs. -/
  consumers : ∀ i node, g.node? i = some node →
    ∀ k, node.consumers.count k = (g.node? k).elim 0 fun consumer => consumer.inputs.count i
  ascending : ∀ i node, g.node? i = some node → node.consumers.Pairwise (· ≤ ·)
  root : g.root? = some root
  /-- The root alone has no consumers. -/
  sink : ∀ i node, g.node? i = some node → (node.consumers = [] ↔ i + 1 = g.size)

/-- **The graph of an expression is faithful, and no look-up fails while it is built.** -/
theorem faithful_ofExpr (root : Expr) (h : root.Coherent) : (ofExpr root).Faithful root ∧
    ∀ e ∈ root.toposort, ∀ c ∈ e.children, ∃ i, c.positionIn? root.toposort = some i := by
  have hnode : ∀ {i node}, (ofExpr root).node? i = some node →
      ∃ e, root.toposort[i]? = some e ∧ i < root.toposort.length ∧ node = nodeIn root i e := fun hi => by
    obtain ⟨e, he, rfl⟩ := node?_eq_some_iff.1 hi
    exact ⟨e, he, (List.getElem?_eq_some_iff.1 he).1, rfl⟩
  have hexpr : ∀ i e, (∃ node, (ofExpr root).node? i = some node ∧ node.expr = e) ↔ root.toposort[i]? = some e := by
    refine fun i e => ⟨?_, fun he => ⟨_, node?_eq_some_iff.2 ⟨e, he, rfl⟩, rfl⟩⟩
    rintro ⟨node, hi, rfl⟩
    obtain ⟨e, he, -, rfl⟩ := hnode hi
    exact he
  refine ⟨⟨fun e => ?_, fun i e he => ?_, fun k node hk => ?_, fun k node hk i hi => ?_, fun i node hi k => ?_,
    fun i node hi => ?_, root?_ofExpr h, fun i node hi => ?_⟩, fun e he c hc => ?_⟩
  · simp only [hexpr]
    rw [← Expr.mem_toposort_iff h, List.mem_iff_getElem?]
  · rw [position?_eq_some_iff h he, hexpr]
  · obtain ⟨e, he, -, rfl⟩ := hnode hk
    rw [funext (position?_ofExpr root)]
    exact map_some_inputPositions h (List.mem_of_getElem? he)
  · obtain ⟨e, he, -, rfl⟩ := hnode hk
    exact lt_of_mem_inputPositions h he hi
  · obtain ⟨e, -, hil, rfl⟩ := hnode hi
    exact count_consumersIn hil
  · obtain ⟨e, -, hil, rfl⟩ := hnode hi
    rw [nodeIn, consumersIn_eq hil]
    exact pairwise_consumersOf _ i
  · obtain ⟨e, -, hil, rfl⟩ := hnode hi
    rw [size_ofExpr]
    exact consumersIn_eq_nil_iff h hil
  · obtain ⟨k, hk⟩ := List.getElem?_of_mem he
    exact (exists_positionIn? h hk hc).imp fun _ hi => hi.1

/-- A pair of `x` with itself is consumed three times, twice by one tuple. -/
theorem faithful_of_repeated_inputs :
    let x := Expr.var ⟨0, none, none⟩ ⟨0, "x"⟩
    let pair := Expr.tuple ⟨1, none, none⟩ [x, x]
    let outer := Expr.tuple ⟨2, none, none⟩ [pair, x, pair]
    let root := Expr.tuple ⟨3, none, none⟩ [outer, pair]
    root.Coherent ∧ (ofExpr root).Faithful root ∧
      ((ofExpr root).node? 1).map (·.consumers) = some [2, 2, 3] := by
  intro x pair outer root
  have hroot : root.Coherent := by
    have hmem : root ∈ [x, pair, outer, root] := by simp
    refine Expr.coherent_of_closed hmem ?_ (by decide)
    simp [root, outer, pair, x, Expr.children]
  exact ⟨hroot, (faithful_ofExpr root hroot).1, by cbv⟩

end DependencyGraph
end Dataflow
