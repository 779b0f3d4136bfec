import Dataflow.Proofs.Graph.PostDominance
/-!
# What a position strictly dominates

The positions below another one in the dominator tree are those that have it on all their consumer paths, without the
position itself (`mem_dominatedBy_iff`).
-/
namespace Dataflow

namespace Forest

variable {f : Forest} {i j : Nat}

/-- What is below a position is its children and what is below them. -/
theorem exists_child_iff (hf : ∀ j p, f.parent? j = some p → j < p) :
    (∃ k, f.parent? k = some i ∧ f.Ancestor k j) ↔ j ≠ i ∧ f.Ancestor i j := by
  constructor
  · rintro ⟨k, hk, hkj⟩
    refine ⟨Nat.ne_of_lt (Nat.lt_of_le_of_lt (le_of_ancestor hf hkj) (hf k i hk)), ?_⟩
    induction hkj with
    | refl => exact .above hk .refl
    | above hp _ ih => exact .above hp ih
  · rintro ⟨hne, hij⟩
    induction hij with
    | refl => exact absurd rfl hne
    | @above n p hp hip ih =>
      by_cases hpi : p = i
      · exact ⟨n, hpi ▸ hp, .refl⟩
      · obtain ⟨k, hk, hkp⟩ := ih hpi
        exact ⟨k, hk, .above hp hkp⟩

/-- Two ancestors of one position that are equally deep are one. -/
theorem Leveled.eq_of_ancestor (hf : f.Leveled) {a b : Nat} (ha : f.Ancestor a j) (hb : f.Ancestor b j)
    (hd : f.depth a = f.depth b) : a = b := by
  induction ha with
  | refl => exact (hf.eq_of_depth_le hb (by omega)).symm
  | @above n p hp hap ih =>
    have hdepth := hf.child n p hp
    rcases (ancestor_iff_of_child hp).1 hb with rfl | hbp
    · have := hf.depth_le hap
      omega
    · exact ih hbp

end Forest

namespace DependencyGraph

/-- Another position than that of `e`, from which every way along consumers to the root comes by `e`. -/
def PostDominatedBy (g : DependencyGraph) (root e : Expr) (j : Nat) : Prop :=
  ∃ r k, g.position? root = some r ∧ g.position? e = some k ∧ j ≠ k ∧ g.OnEveryPath r k j

variable {root e : Expr} {i j : Nat}

theorem mem_dominatorChildren_iff (h : root.Coherent) :
    j ∈ ((ofExpr root).dominatorChildren i).filter (· < i) ↔ (dominatorForest root).parent? j = some i := by
  have hf := decided_dominatorForest h
  have hlater : ∀ {k}, (dominatorForest root).parent? j = some k → j < k ∧ k < root.toposort.length := fun hj =>
    hf.later j _ hj
  rw [List.mem_filter, dominatorChildren, node?_ofExpr]
  cases hi : root.toposort[i]? with
  | none =>
    have hlen := List.getElem?_eq_none_iff.1 hi
    refine iff_of_false (fun hmem => absurd hmem.1 List.not_mem_nil) fun hj => ?_
    have := hlater hj
    omega
  | some e =>
    rw [Option.map_some, Option.elim_some, nodeIn, List.mem_filter, List.mem_reverse, List.mem_range, beq_iff_eq]
    refine ⟨fun hmem => hmem.1.2, fun hj => ?_⟩
    have := hlater hj
    exact ⟨⟨by omega, hj⟩, by simpa using this.1⟩

theorem mem_dominatedBy_iff_ancestor (h : root.Coherent) : ∀ {i : Nat},
    j ∈ (ofExpr root).dominatedBy i ↔ j ≠ i ∧ (dominatorForest root).Ancestor i j := fun {i} => by
  have hf := decided_dominatorForest h
  have hbelow : ∀ k, (dominatorForest root).parent? k = some i →
      (j ∈ (ofExpr root).dominatedBy k ↔ j ≠ k ∧ (dominatorForest root).Ancestor k j) := fun k hk => by
    have := (hf.later k i hk).1
    exact mem_dominatedBy_iff_ancestor h
  rw [← Forest.exists_child_iff fun j p hp => (hf.later j p hp).1, dominatedBy, List.mem_append, List.mem_flatMap]
  simp only [List.mem_attach, true_and, Subtype.exists, List.mem_reverse, mem_dominatorChildren_iff h]
  constructor
  · rintro (hj | ⟨k, hk, hj⟩)
    · exact ⟨j, hj, .refl⟩
    · exact ⟨k, hk, ((hbelow k hk).1 hj).2⟩
  · rintro ⟨k, hk, hkj⟩
    by_cases hjk : j = k
    · exact .inl (hjk ▸ hk)
    · exact .inr ⟨k, hk, (hbelow k hk).2 ⟨hjk, hkj⟩⟩
termination_by i => i

theorem lt_of_mem_dominatorChildren (h : root.Coherent) (hj : j ∈ (ofExpr root).dominatorChildren i) : j < i := by
  rw [dominatorChildren, node?_ofExpr] at hj
  cases hi : root.toposort[i]? with
  | none =>
    rw [hi] at hj
    exact absurd hj List.not_mem_nil
  | some e =>
    rw [hi, Option.map_some, Option.elim_some, nodeIn, List.mem_filter, beq_iff_eq] at hj
    exact ((decided_dominatorForest h).later j i hj.2).1

theorem lt_of_mem_dominatedBy (h : root.Coherent) (hj : j ∈ (ofExpr root).dominatedBy i) : j < i := by
  have hf := decided_dominatorForest h
  rw [mem_dominatedBy_iff_ancestor h] at hj
  have := Forest.le_of_ancestor (fun j p hp => (hf.later j p hp).1) hj.2
  omega

theorem nodup_dominatorChildren (root : Expr) (i : Nat) : ((ofExpr root).dominatorChildren i).Nodup := by
  rw [dominatorChildren, node?_ofExpr]
  cases root.toposort[i]? with
  | none => exact List.nodup_nil
  | some e => exact (List.nodup_reverse.2 List.nodup_range).filter _

/-- No position is below another one in two ways. -/
theorem nodup_dominatedBy (h : root.Coherent) (i : Nat) : ((ofExpr root).dominatedBy i).Nodup := by
  have hf := decided_dominatorForest h
  rw [dominatedBy, List.flatMap_subtype fun _ _ => rfl, List.unattach_attach]
  have hchildren := (nodup_dominatorChildren root i).filter (· < i)
  refine hchildren.append (List.nodup_flatMap.2 ⟨fun k hk => ?_, ?_⟩) ?_
  · rw [List.mem_reverse, List.mem_filter] at hk
    have : k < i := by simpa using hk.2
    exact nodup_dominatedBy h k
  · refine (List.nodup_reverse.2 hchildren).imp_of_mem fun {a b} ha hb hab j hja hjb => hab ?_
    rw [List.mem_reverse, mem_dominatorChildren_iff h] at ha hb
    rw [mem_dominatedBy_iff_ancestor h] at hja hjb
    have hda := hf.leveled.child a i ha
    have hdb := hf.leveled.child b i hb
    exact hf.leveled.eq_of_ancestor hja.2 hjb.2 (by omega)
  · intro j hj hbelow
    obtain ⟨k, hk, hjk⟩ := List.mem_flatMap.1 hbelow
    rw [List.mem_reverse, mem_dominatorChildren_iff h] at hk
    rw [mem_dominatorChildren_iff h] at hj
    rw [mem_dominatedBy_iff_ancestor h] at hjk
    have hdj := hf.leveled.child j i hj
    have hdk := hf.leveled.child k i hk
    exact hjk.1 (hf.leveled.eq_of_ancestor .refl hjk.2 (by omega))
termination_by i

/-- **Below a position in the dominator tree are the others that have it on all their consumer paths.** -/
theorem mem_dominatedBy_iff (h : root.Coherent) (hi : i < root.toposort.length) :
    j ∈ (ofExpr root).dominatedBy i ↔
      j ≠ i ∧ j < root.toposort.length ∧ (ofExpr root).OnEveryPath (root.toposort.length - 1) i j := by
  have hf := decided_dominatorForest h
  rw [mem_dominatedBy_iff_ancestor h]
  refine and_congr_right fun _ => ⟨fun hij => ?_, fun ⟨hj, hij⟩ => (hf.ancestor_iff j (Nat.zero_le j) hj i).2 hij⟩
  have hj : j < root.toposort.length := by
    have := Forest.le_of_ancestor (fun j p hp => (hf.later j p hp).1) hij
    omega
  exact ⟨hj, (hf.ancestor_iff j (Nat.zero_le j) hj i).1 hij⟩

/-! ## Positions of expressions -/

theorem position?_ofExpr (root e : Expr) : (ofExpr root).position? e = e.positionIn? root.toposort := by
  have hexprs : (ofExpr root).nodes.map (·.expr) = root.toposort.toArray := by
    refine Array.ext_getElem? fun i => ?_
    have hnode := node?_ofExpr root i
    rw [node?] at hnode
    rw [Array.getElem?_map, hnode, Option.map_map, List.getElem?_toArray]
    cases root.toposort[i]? <;> rfl
  rw [Expr.positionIn?, ← List.findIdx?_toArray, ← hexprs, Array.findIdx?_map]
  rfl

theorem position?_congr {g : DependencyGraph} {d : Expr} (h : d.id = e.id) : g.position? d = g.position? e := by
  rw [position?, position?, h]

theorem position?_eq_some_iff (h : root.Coherent) (he : root.Reaches e) :
    (ofExpr root).position? e = some i ↔ root.toposort[i]? = some e := by
  rw [position?_ofExpr, Expr.positionIn?_toposort_iff h he]

/-- An expression that the root reaches strictly dominates what it stands above. -/
theorem mem_dominatedBy_position_iff (h : root.Coherent) (he : root.Reaches e) (hi : (ofExpr root).position? e = some i) :
    j ∈ (ofExpr root).dominatedBy i ↔ (∃ node, (ofExpr root).node? j = some node) ∧
      (ofExpr root).PostDominatedBy root e j := by
  have hlast : (ofExpr root).position? root = some (root.toposort.length - 1) :=
    (position?_eq_some_iff h .refl).2 (toposort_root h)
  have hil : i < root.toposort.length :=
    (List.getElem?_eq_some_iff.1 ((position?_eq_some_iff h he).1 hi)).1
  have hnode : (∃ node, (ofExpr root).node? j = some node) ↔ j < root.toposort.length := by
    rw [node?_ofExpr]
    constructor
    · rintro ⟨node, hnode⟩
      obtain ⟨d, hd, -⟩ := Option.map_eq_some_iff.1 hnode
      exact (List.getElem?_eq_some_iff.1 hd).1
    · exact fun hj => ⟨_, Option.map_eq_some_iff.2 ⟨_, List.getElem?_eq_getElem hj, rfl⟩⟩
  rw [mem_dominatedBy_iff h hil, hnode]
  constructor
  · rintro ⟨hji, hj, hpath⟩
    exact ⟨hj, _, i, hlast, hi, hji, hpath⟩
  · rintro ⟨hj, r, k, hr, hk, hjk, hpath⟩
    cases hlast.symm.trans hr
    cases hi.symm.trans hk
    exact ⟨hjk, hj, hpath⟩

end DependencyGraph
end Dataflow
