import Dataflow.Graph.Dominator
import Mathlib.Tactic.Common
/-!
# Ancestors in a forest

In a forest whose depths count the steps from a root (`Leveled`), two positions of one tree have a nearest common
ancestor, and its ancestors are exactly the ancestors that both have (`nearestCommon?_spec`).  That is enough to say
what the dominator forest is while it grows from the last position to the first: the ancestors of a decided position
are itself and the ancestors that all its consumers have (`Decided`, `decided_grown`).  So every position but the last
is given a parent, which it keeps (`exists_parent_ofConsumers`).
-/
namespace Dataflow
namespace Forest

inductive Ancestor (f : Forest) (m : Nat) : Nat → Prop
  | refl : Ancestor f m m
  | above {n p : Nat} : f.parent? n = some p → Ancestor f m p → Ancestor f m n

structure Leveled (f : Forest) : Prop where
  root : ∀ i, f.parent? i = none → f.depth i = 0
  child : ∀ i p, f.parent? i = some p → f.depth i = f.depth p + 1

section
variable {f : Forest} {i j m n p : Nat}

theorem leveled_iff : f.Leveled ↔ ∀ i < f.nodes.size, f.depth i = (f.parent? i).elim 0 (f.depth · + 1) := by
  constructor
  · intro hf i _
    cases hp : f.parent? i with
    | none => exact hf.root i hp
    | some p => exact hf.child i p hp
  · intro h
    have hall : ∀ i, f.depth i = (f.parent? i).elim 0 (f.depth · + 1) := fun i => by
      by_cases hi : i < f.nodes.size
      · exact h i hi
      · simp [parent?, depth, Array.getElem?_eq_none (Nat.le_of_not_lt hi)]
    exact ⟨fun i hp => by simpa [hp] using hall i, fun i p hp => by simpa [hp] using hall i⟩

instance (f : Forest) : Decidable f.Leveled := decidable_of_iff _ leveled_iff.symm

theorem ancestor_iff_of_root (h : f.parent? n = none) : f.Ancestor m n ↔ m = n := by
  constructor
  · intro ha
    cases ha with
    | refl => rfl
    | above hp _ => rw [h] at hp; cases hp
  · rintro rfl
    exact .refl

theorem ancestor_iff_of_child (h : f.parent? n = some p) : f.Ancestor m n ↔ m = n ∨ f.Ancestor m p := by
  constructor
  · intro ha
    cases ha with
    | refl => exact .inl rfl
    | above hp ha =>
      rw [h] at hp
      cases hp
      exact .inr ha
  · rintro (rfl | ha)
    · exact .refl
    · exact .above h ha

namespace Leveled

theorem above?_eq_some_iff (hf : f.Leveled) {q : { p : Nat // f.depth p < f.depth i }} :
    f.above? i = some q ↔ f.parent? i = some q.1 := by
  obtain ⟨p, hp⟩ := q
  unfold above?
  cases hi : f.parent? i with
  | none => simp
  | some p' =>
    have hdepth : f.depth p' < f.depth i := by have := hf.child i p' hi; omega
    simp [hdepth]

theorem above?_eq_none_iff (hf : f.Leveled) : f.above? i = none ↔ f.parent? i = none := by
  unfold above?
  cases hi : f.parent? i with
  | none => simp
  | some p =>
    have hdepth : f.depth p < f.depth i := by have := hf.child i p hi; omega
    simp [hdepth]

theorem depth_le (hf : f.Leveled) (h : f.Ancestor m n) : f.depth m ≤ f.depth n := by
  induction h with
  | refl => exact Nat.le_refl _
  | above hp _ ih => have := hf.child _ _ hp; omega

/-- An ancestor that is as deep is the position itself. -/
theorem eq_of_depth_le (hf : f.Leveled) (h : f.Ancestor m n) (hd : f.depth n ≤ f.depth m) : m = n := by
  cases h with
  | refl => rfl
  | above hp ha =>
    have hchild := hf.child _ _ hp
    have hle := hf.depth_le ha
    omega

theorem exists_parent (hf : f.Leveled) (h : f.depth i < f.depth j) : ∃ p, f.parent? j = some p := by
  cases hj : f.parent? j with
  | none => have := hf.root j hj; omega
  | some p => exact ⟨p, rfl⟩

theorem common_iff_of_lt (hf : f.Leveled) (h : f.depth i < f.depth j) (hp : f.parent? j = some p) (m : Nat) :
    f.Ancestor m i ∧ f.Ancestor m j ↔ f.Ancestor m i ∧ f.Ancestor m p := by
  rw [ancestor_iff_of_child hp]
  constructor
  · rintro ⟨hi, rfl | hmp⟩
    · have := hf.depth_le hi
      omega
    · exact ⟨hi, hmp⟩
  · exact fun ⟨hi, hmp⟩ => ⟨hi, .inr hmp⟩

theorem common_iff_of_eq (hf : f.Leveled) (h : f.depth i = f.depth j) (hne : i ≠ j) {q : Nat}
    (hp : f.parent? i = some p) (hq : f.parent? j = some q) (m : Nat) :
    f.Ancestor m i ∧ f.Ancestor m j ↔ f.Ancestor m p ∧ f.Ancestor m q := by
  constructor
  · rintro ⟨hi, hj⟩
    rcases (ancestor_iff_of_child hp).1 hi with rfl | hmp
    · exact absurd (hf.eq_of_depth_le hj (Nat.le_of_eq h.symm)) hne
    · rcases (ancestor_iff_of_child hq).1 hj with rfl | hmq
      · exact absurd (hf.eq_of_depth_le hi (Nat.le_of_eq h)).symm hne
      · exact ⟨hmp, hmq⟩
  · exact fun ⟨hmp, hmq⟩ => ⟨.above hp hmp, .above hq hmq⟩

/-- Of two equally deep positions of one tree neither is a root. -/
theorem exists_parent_of_eq (hf : f.Leveled) {a : Nat} (hi : f.Ancestor a i) (hj : f.Ancestor a j)
    (h : f.depth i = f.depth j) (hne : i ≠ j) : ∃ p, f.parent? i = some p := by
  cases hp : f.parent? i with
  | none =>
    obtain rfl := (ancestor_iff_of_root hp).1 hi
    exact absurd (hf.eq_of_depth_le hj (Nat.le_of_eq h.symm)) hne
  | some p => exact ⟨p, rfl⟩

/-- **Two positions of one tree have a nearest common ancestor, and its ancestors are the common ones.** -/
theorem nearestCommon?_spec (hf : f.Leveled) {a : Nat} (hi : f.Ancestor a i) (hj : f.Ancestor a j) :
    ∃ l, f.nearestCommon? i j = some l ∧ ∀ m, f.Ancestor m l ↔ f.Ancestor m i ∧ f.Ancestor m j := by
  fun_induction nearestCommon? f i j with
  | case1 i => exact ⟨i, rfl, by simp⟩
  | case2 i j _ hlt p hp hpj ih =>
    rw [hf.above?_eq_some_iff] at hpj
    have hcommon := hf.common_iff_of_lt hlt hpj
    obtain ⟨l, hl, hm⟩ := ih hi ((hcommon a).1 ⟨hi, hj⟩).2
    exact ⟨l, hl, fun m => by rw [hm m, hcommon m]⟩
  | case3 i j _ hlt hpj =>
    obtain ⟨p, hp⟩ := hf.exists_parent hlt
    rw [hf.above?_eq_none_iff, hp] at hpj
    cases hpj
  | case4 i j _ _ hlt p hp hpi ih =>
    rw [hf.above?_eq_some_iff] at hpi
    have hcommon := hf.common_iff_of_lt hlt hpi
    obtain ⟨l, hl, hm⟩ := ih ((hcommon a).1 ⟨hj, hi⟩).2 hj
    exact ⟨l, hl, fun m => by rw [hm m, and_comm, ← hcommon m, and_comm]⟩
  | case5 i j _ _ hlt hpi =>
    obtain ⟨p, hp⟩ := hf.exists_parent hlt
    rw [hf.above?_eq_none_iff, hp] at hpi
    cases hpi
  | case6 i j hne _ _ p _ q _ hq hp ih =>
    rw [hf.above?_eq_some_iff] at hp hq
    have hcommon := hf.common_iff_of_eq (by omega) hne hp hq
    obtain ⟨hap, haq⟩ := (hcommon a).1 ⟨hi, hj⟩
    obtain ⟨l, hl, hm⟩ := ih hap haq
    exact ⟨l, hl, fun m => by rw [hm m, hcommon m]⟩
  | case7 i j hne hij hji hnone =>
    have heq : f.depth i = f.depth j := by omega
    obtain ⟨p, hp⟩ := hf.exists_parent_of_eq hi hj heq hne
    obtain ⟨q, hq⟩ := hf.exists_parent_of_eq hj hi heq.symm (Ne.symm hne)
    have hpi : f.depth p < f.depth i := by have := hf.child i p hp; omega
    have hqj : f.depth q < f.depth j := by have := hf.child j q hq; omega
    exact absurd (hf.above?_eq_some_iff.2 hq) (hnone p hpi q hqj (hf.above?_eq_some_iff.2 hp))

/-- The same for a list of positions. -/
theorem nearestCommonOf?_spec (hf : f.Leveled) {a : Nat} : ∀ (is : List Nat) (i : Nat),
    (∀ k ∈ i :: is, f.Ancestor a k) →
      ∃ l, f.nearestCommonOf? (i :: is) = some l ∧ ∀ m, f.Ancestor m l ↔ ∀ k ∈ i :: is, f.Ancestor m k
  | [], i, _ => ⟨i, rfl, by simp⟩
  | j :: is, i, h => by
    obtain ⟨l, hl, hm⟩ := hf.nearestCommon?_spec (h i (by simp)) (h j (by simp))
    have hal : f.Ancestor a l := (hm a).2 ⟨h i (by simp), h j (by simp)⟩
    obtain ⟨l', hl', hm'⟩ := nearestCommonOf?_spec hf is l fun k hk => by
      rcases List.mem_cons.1 hk with rfl | hk
      · exact hal
      · exact h k (by simp [hk])
    refine ⟨l', ?_, fun m => ?_⟩
    · rw [nearestCommonOf?, List.foldlM_cons, hl]
      exact hl'
    · rw [hm' m, List.forall_mem_cons, hm m, List.forall_mem_cons, List.forall_mem_cons, and_assoc]

end Leveled
end

/-! ## The dominator forest while it grows -/

section
variable {f : Forest} {i j m n : Nat}

def setNode (f : Forest) (i : Nat) (node : ForestNode) : Forest := ⟨f.nodes.setIfInBounds i node⟩

theorem parent?_setNode (h : i < f.nodes.size) (node : ForestNode) (j : Nat) :
    (f.setNode i node).parent? j = if j = i then node.parent else f.parent? j := by
  simp only [parent?, setNode, Array.getElem?_setIfInBounds]
  by_cases hj : j = i
  · simp [hj, h]
  · simp [hj, Ne.symm hj]

theorem depth_setNode (h : i < f.nodes.size) (node : ForestNode) (j : Nat) :
    (f.setNode i node).depth j = if j = i then node.depth else f.depth j := by
  simp only [depth, setNode, Array.getElem?_setIfInBounds]
  by_cases hj : j = i
  · simp [hj, h]
  · simp [hj, Ne.symm hj]

/-- What holds of a forest on `size` positions that is decided from position `i` on, when `Above m n` says that `m`
is to be an ancestor of `n`. -/
structure Decided (Above : Nat → Nat → Prop) (size i : Nat) (f : Forest) : Prop where
  size_eq : f.nodes.size = size
  leveled : f.Leveled
  undecided : ∀ j, j < i → f.parent? j = none
  later : ∀ j p, f.parent? j = some p → j < p ∧ p < size
  ancestor_iff : ∀ j, i ≤ j → j < size → ∀ m, f.Ancestor m j ↔ Above m j

theorem le_of_ancestor (hf : ∀ j p, f.parent? j = some p → j < p) (h : f.Ancestor m n) : n ≤ m := by
  induction h with
  | refl => exact Nat.le_refl _
  | above hp _ ih => have := hf _ _ hp; omega

theorem lt_of_ancestor {size : Nat} (hf : ∀ j p, f.parent? j = some p → p < size) (h : f.Ancestor m n)
    (hn : n < size) : m < size := by
  induction h with
  | refl => exact hn
  | above hp _ ih => exact ih (hf _ _ hp)

/-- A node for `i` does not change the ancestors of later positions. -/
theorem ancestor_setNode_iff (hi : i < f.nodes.size) (hf : ∀ j p, f.parent? j = some p → j < p) (node : ForestNode)
    (hn : i < n) : (f.setNode i node).Ancestor m n ↔ f.Ancestor m n := by
  have hsame : ∀ n, i < n → (f.setNode i node).parent? n = f.parent? n := fun n hn => by
    rw [parent?_setNode hi, if_neg (by omega)]
  constructor
  · intro h
    induction h with
    | refl => exact .refl
    | above hp _ ih =>
      rw [hsame _ hn] at hp
      exact .above hp (ih (by have := hf _ _ hp; omega))
  · intro h
    induction h with
    | refl => exact .refl
    | above hp _ ih => exact .above (by rw [hsame _ hn, hp]) (ih (by have := hf _ _ hp; omega))

/-- Consumers come later than what they consume, and everything but the last position has one. -/
structure Consumed (consumers : Nat → List Nat) (size : Nat) : Prop where
  later : ∀ i, i < size → ∀ k ∈ consumers i, i < k ∧ k < size
  nonempty : ∀ i, i + 1 < size → consumers i ≠ []

/-- Being on every way to the last position, said one step at a time. -/
structure OnAllWays (consumers : Nat → List Nat) (size : Nat) (Above : Nat → Nat → Prop) : Prop where
  step_iff : ∀ n, n < size → ∀ m, Above m n ↔ m = n ∨ n + 1 ≠ size ∧ ∀ k ∈ consumers n, Above m k
  last : ∀ n, n < size → Above (size - 1) n

variable {Above : Nat → Nat → Prop} {size : Nat} {consumers : Nat → List Nat}

/-- A node that makes the ancestors of `i` what they are to be. -/
inductive Fits (f : Forest) (Above : Nat → Nat → Prop) (size i : Nat) : ForestNode → Prop
  | root : (∀ m, Above m i ↔ m = i) → Fits f Above size i ⟨0, none⟩
  | under {l : Nat} : i < l → l < size → (∀ m, Above m i ↔ m = i ∨ f.Ancestor m l) →
      Fits f Above size i ⟨f.depth l + 1, some l⟩

/-- The consumers of a position are decided before it, and all below the last position: they have a nearest common
ancestor. -/
theorem Decided.nearestCommonOf?_consumers (hc : Consumed consumers size) (ha : OnAllWays consumers size Above)
    (hf : f.Decided Above size (i + 1)) (hi : i < size) (hne : consumers i ≠ []) :
    ∃ l, f.nearestCommonOf? (consumers i) = some l ∧ i < l ∧ l < size ∧
      ∀ m, f.Ancestor m l ↔ ∀ k ∈ consumers i, Above m k := by
  have hlater := hc.later i hi
  obtain ⟨k, ks, hk⟩ := List.exists_cons_of_ne_nil hne
  rw [hk] at hlater ⊢
  have hiff : ∀ m, ∀ j ∈ k :: ks, f.Ancestor m j ↔ Above m j := fun m j hj =>
    hf.ancestor_iff j (hlater j hj).1 (hlater j hj).2 m
  obtain ⟨l, hl, hm⟩ := hf.leveled.nearestCommonOf?_spec ks k fun j hj =>
    (hiff (size - 1) j hj).2 (ha.last j (hlater j hj).2)
  have hlk : f.Ancestor l k := (hm l).1 .refl k (by simp)
  have hkl : k ≤ l := le_of_ancestor (fun j p hp => (hf.later j p hp).1) hlk
  have hls : l < size := lt_of_ancestor (fun j p hp => (hf.later j p hp).2) hlk (hlater k (by simp)).2
  refine ⟨l, hl, by have := hlater k (by simp); omega, hls, fun m => ?_⟩
  rw [hm m, forall₂_congr (hiff m)]

theorem nodeUnder_of_nearestCommonOf? {ks : List Nat} {l : Nat} (h : f.nearestCommonOf? ks = some l) :
    f.nodeUnder ks = ⟨f.depth l + 1, some l⟩ := by
  cases ks with
  | nil => cases h
  | cons k ks =>
    rw [nodeUnder, h]
    rfl

theorem fits_nodeUnder (hc : Consumed consumers size) (ha : OnAllWays consumers size Above)
    (hf : f.Decided Above size (i + 1)) (hi : i < size) : f.Fits Above size i (f.nodeUnder (consumers i)) := by
  by_cases hk : consumers i = []
  · have hlast : i + 1 = size := by
      by_contra hne
      exact hc.nonempty i (by omega) hk
    rw [hk]
    exact .root fun m => by rw [ha.step_iff i hi m, hlast]; simp
  · obtain ⟨l, hl, hil, hls, hm⟩ := hf.nearestCommonOf?_consumers hc ha hi hk
    rw [nodeUnder_of_nearestCommonOf? hl]
    refine .under hil hls fun m => ?_
    have hne : i + 1 ≠ size := by omega
    rw [ha.step_iff i hi m, hm m]
    simp [hne]

/-- **Deciding one more position keeps what holds of the forest.** -/
theorem Decided.setNode {node : ForestNode} (hf : f.Decided Above size (i + 1)) (hi : i < size)
    (hnode : f.Fits Above size i node) : (f.setNode i node).Decided Above size i := by
  have hin : i < f.nodes.size := hf.size_eq ▸ hi
  have hbefore : ∀ j p, f.parent? j = some p → j < p := fun j p hp => (hf.later j p hp).1
  have hafter : ∀ j p, f.parent? j = some p → i < j := by
    intro j p hp
    by_contra hj
    rw [hf.undecided j (by omega)] at hp
    cases hp
  refine ⟨by rw [Forest.setNode, Array.size_setIfInBounds, hf.size_eq], ⟨fun j hj => ?_, fun j p hp => ?_⟩,
    fun j hj => ?_, fun j p hp => ?_, fun j hij hjs m => ?_⟩
  · rw [parent?_setNode hin] at hj
    rw [depth_setNode hin]
    split at hj
    · rw [if_pos ‹_›]
      cases hnode with
      | root => rfl
      | under => cases hj
    · rw [if_neg ‹_›]
      exact hf.leveled.root j hj
  · rw [parent?_setNode hin] at hp
    split at hp
    · subst j
      cases hnode with
      | root => cases hp
      | under hil =>
        cases hp
        rw [depth_setNode hin, depth_setNode hin, if_pos rfl, if_neg (by omega)]
    · have hpi := hafter j p hp
      have hjp := hbefore j p hp
      rw [depth_setNode hin, depth_setNode hin, if_neg ‹_›, if_neg (by omega)]
      exact hf.leveled.child j p hp
  · rw [parent?_setNode hin, if_neg (by omega)]
    exact hf.undecided j (by omega)
  · rw [parent?_setNode hin] at hp
    split at hp
    · subst j
      cases hnode with
      | root => cases hp
      | under hil hls => cases hp; exact ⟨hil, hls⟩
    · exact hf.later j p hp
  · by_cases hji : j = i
    · subst hji
      cases hnode with
      | root hm => rw [ancestor_iff_of_root (by rw [parent?_setNode hin, if_pos rfl]), hm m]
      | @under l hil hls hm =>
        have hparent : (f.setNode j ⟨f.depth l + 1, some l⟩).parent? j = some l := by rw [parent?_setNode hin, if_pos rfl]
        rw [ancestor_iff_of_child hparent, hm m, ancestor_setNode_iff hin hbefore _ hil]
    · rw [ancestor_setNode_iff hin hbefore _ (by omega)]
      exact hf.ancestor_iff j (by omega) hjs m

theorem decided_blank (Above : Nat → Nat → Prop) (size : Nat) :
    (⟨Array.replicate size default⟩ : Forest).Decided Above size size := by
  have hnode : ∀ j, (⟨Array.replicate size default⟩ : Forest).parent? j = none ∧
      (⟨Array.replicate size default⟩ : Forest).depth j = 0 := by
    intro j
    simp only [parent?, depth, Array.getElem?_replicate]
    split <;> exact ⟨rfl, rfl⟩
  have hparent : ∀ j p, (⟨Array.replicate size default⟩ : Forest).parent? j ≠ some p := fun j p hp => by
    rw [(hnode j).1] at hp
    cases hp
  exact ⟨by simp, ⟨fun j _ => (hnode j).2, fun j p hp => absurd hp (hparent j p)⟩, fun j _ => (hnode j).1,
    fun j p hp => absurd hp (hparent j p), fun j hj hjs => by omega⟩

/-- The dominator forest while it grows: the positions from `i` on are decided. -/
def grown (size : Nat) (consumers : Nat → List Nat) (i : Nat) : Forest :=
  addAll consumers (List.range' i (size - i)) ⟨Array.replicate size default⟩

theorem grown_zero (size : Nat) (consumers : Nat → List Nat) : grown size consumers 0 = ofConsumers size consumers := by
  rw [grown, ofConsumers, List.range_eq_range', Nat.sub_zero]

theorem grown_eq_setNode (hi : i < size) : grown size consumers i =
    (grown size consumers (i + 1)).setNode i ((grown size consumers (i + 1)).nodeUnder (consumers i)) := by
  unfold grown
  rw [show size - i = size - (i + 1) + 1 by omega, List.range'_succ]
  rfl

/-- **The dominator forest at every stage**: parents come later, depths count the steps from the root, and the ancestors
of a decided position are the positions on all its ways. -/
theorem decided_grown (hc : Consumed consumers size) (ha : OnAllWays consumers size Above) {i : Nat} (hi : i ≤ size) :
    (grown size consumers i).Decided Above size i := by
  by_cases hlast : i = size
  · rw [hlast, grown, Nat.sub_self]
    exact decided_blank Above size
  · have hf := decided_grown hc ha (by omega : i + 1 ≤ size)
    rw [grown_eq_setNode (by omega)]
    exact hf.setNode (by omega) (fits_nodeUnder hc ha hf (by omega))
termination_by size - i

theorem decided_ofConsumers (hc : Consumed consumers size) (ha : OnAllWays consumers size Above) :
    (ofConsumers size consumers).Decided Above size 0 :=
  grown_zero size consumers ▸ decided_grown hc ha (Nat.zero_le size)

theorem size_addAll (consumers : Nat → List Nat) (f : Forest) :
    ∀ is : List Nat, (addAll consumers is f).nodes.size = f.nodes.size
  | [] => rfl
  | i :: is => by
    rw [addAll, List.foldr_cons, Array.size_setIfInBounds]
    exact size_addAll consumers f is

theorem size_grown (size : Nat) (consumers : Nat → List Nat) (i : Nat) : (grown size consumers i).nodes.size = size := by
  rw [grown, size_addAll, Array.size_replicate]

/-- A position keeps the node that it is given when everything after it is decided. -/
theorem node_grown (consumers : Nat → List Nat) {k : Nat} (hki : k ≤ i) (hi : i < size) :
    (grown size consumers k).parent? i = ((grown size consumers (i + 1)).nodeUnder (consumers i)).parent ∧
      (grown size consumers k).depth i = ((grown size consumers (i + 1)).nodeUnder (consumers i)).depth := by
  have hk : k < (grown size consumers (k + 1)).nodes.size := by
    rw [size_grown]
    omega
  rw [grown_eq_setNode (by omega), parent?_setNode hk, depth_setNode hk]
  by_cases hik : i = k
  · rw [if_pos hik, if_pos hik, hik]
    exact ⟨rfl, rfl⟩
  · rw [if_neg hik, if_neg hik]
    exact node_grown consumers (by omega) hi
termination_by i - k

/-- The last position is a root. -/
theorem root_ofConsumers (hc : Consumed consumers size) (hi : i + 1 = size) : consumers i = [] ∧
    (ofConsumers size consumers).parent? i = none ∧ (ofConsumers size consumers).depth i = 0 := by
  have hnil : consumers i = [] := List.eq_nil_iff_forall_not_mem.2 fun k hk => by
    have := hc.later i (by omega) k hk
    omega
  have hnode := node_grown consumers (Nat.zero_le i) (by omega : i < size)
  rw [grown_zero, hnil] at hnode
  exact ⟨hnil, hnode⟩

/-- Any other position has the nearest common ancestor of its consumers for a parent. -/
theorem exists_parent_ofConsumers (hc : Consumed consumers size) (ha : OnAllWays consumers size Above)
    (hi : i + 1 < size) : ∃ p, (grown size consumers (i + 1)).nearestCommonOf? (consumers i) = some p ∧
      (ofConsumers size consumers).parent? i = some p ∧
      (ofConsumers size consumers).depth i = (grown size consumers (i + 1)).depth p + 1 := by
  have hf := decided_grown hc ha (by omega : i + 1 ≤ size)
  obtain ⟨p, hp, -⟩ := hf.nearestCommonOf?_consumers hc ha (by omega) (hc.nonempty i hi)
  have hnode := node_grown consumers (Nat.zero_le i) (by omega : i < size)
  rw [grown_zero, nodeUnder_of_nearestCommonOf? hp] at hnode
  exact ⟨p, hp, hnode⟩

end
end Forest
end Dataflow
