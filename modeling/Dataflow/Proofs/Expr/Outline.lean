import Dataflow.Expr.Outline
import Dataflow.Proofs.Expr.Scope
import Mathlib.Algebra.GroupWithZero.Nat
/-!
# The compact outline writes every node once

Making an outline and writing its lines goes through the nodes as a worklist does (`items_outline`): a node that was
written is referred to, any other is written and its inputs are put in front of what is to come (`itemsFrom`).  So the
number of lines, and that a reference comes after its node, are seen from one step to the next.

That a reference hides no node that comes later in the order of writing takes an invariant (`Entered`).  Whatever a
written node reaches is written, or comes from a front part of the worklist in which all nodes are smaller; so when a
written node is in front, everything below it is written too.
-/
namespace Dataflow
namespace Outline

/-- The node that a line writes in full. -/
def Item.node? : Item → Option Expr
  | node e => some e
  | reference _ => none

/-- The nodes that some lines write in full, in the order of the lines. -/
def shown (items : List Item) : List Expr := items.filterMap Item.node?

/-- An outline is that of an expression, or refers to it. -/
def StandsFor : Outline → Expr → Prop
  | node e _, c => e = c
  | reference id, c => id = c.id

/-- One outline is part of another. -/
inductive Contains (o : Outline) : Outline → Prop
  | refl : Contains o o
  | child {e : Expr} {cs : List Outline} {c : Outline} : Contains o (.node e cs) → c ∈ cs → Contains o c

/-- Below every node of an outline stand its inputs, one by one and in their order. -/
def ShowsInputs (o : Outline) : Prop := ∀ e cs, o.Contains (.node e cs) → List.Forall₂ StandsFor cs e.children

variable {o p : Outline} {e : Expr} {cs : List Outline} {id : Nat}

theorem contains_reference (h : (reference id).Contains p) : p = reference id := by
  induction h with
  | refl => rfl
  | child _ _ ih => cases ih

theorem contains_node_iff : (node e cs).Contains p ↔ p = node e cs ∨ ∃ c ∈ cs, c.Contains p := by
  constructor
  · intro h
    induction h with
    | refl => exact .inl rfl
    | child _ hc ih =>
      rcases ih with hself | ⟨d, hd, hcontains⟩
      · cases hself
        exact .inr ⟨_, hc, .refl⟩
      · exact .inr ⟨d, hd, hcontains.child hc⟩
  · rintro (rfl | ⟨c, hc, hcontains⟩)
    · exact .refl
    · induction hcontains with
      | refl => exact Contains.refl.child hc
      | child _ hd ih => exact ih.child hd

mutual
/-- What the lines of an outline show. -/
def items : Outline → List Item
  | node e cs => .node e :: itemsAll cs
  | reference id => [.reference id]
def itemsAll : List Outline → List Item
  | [] => []
  | c :: cs => c.items ++ itemsAll cs
end

mutual
theorem map_item_linesFrom : ∀ (o : Outline) (first below : String), (o.linesFrom first below).map Line.item = o.items
  | node e cs, first, below => by rw [linesFrom, List.map_cons, map_item_childLines cs below, items]
  | reference id, first, below => rfl
theorem map_item_childLines : ∀ (cs : List Outline) (below : String),
    (childLines below cs).map Line.item = itemsAll cs
  | [], below => rfl
  | [c], below => by rw [childLines, map_item_linesFrom c, itemsAll, itemsAll, List.append_nil]
  | c :: d :: cs, below => by
    rw [childLines, List.map_append, map_item_linesFrom c, map_item_childLines (d :: cs) below]
    · rfl
    · exact List.cons_ne_nil d cs
end

end Outline

namespace Expr

open Outline (Item shown)

variable {root e d : Expr} {es rest : List Expr} {seen : List Nat}

/-! ## Making an outline -/

theorem run_outlineFrom (e : Expr) (seen : List Nat) : e.outlineFrom.run seen =
    if e.id ∈ seen then (.reference e.id, seen)
    else (.node e ((e.children.mapM outlineFrom).run (e.id :: seen)).1,
      ((e.children.mapM outlineFrom).run (e.id :: seen)).2) := by
  have hinputs : (e.children.attach.mapM fun c => c.1.outlineFrom : StateM (List Nat) _) =
      e.children.mapM outlineFrom := by
    rw [List.mapM_subtype (g := outlineFrom) (fun _ _ => rfl), List.unattach_attach]
  have hrun : e.outlineFrom.run seen = if seen.contains e.id = true then (.reference e.id, seen)
      else (.node e ((e.children.mapM outlineFrom).run (e.id :: seen)).1,
        ((e.children.mapM outlineFrom).run (e.id :: seen)).2) := by
    rw [outlineFrom.eq_def, ← hinputs]
    show (if seen.contains e.id = true then _ else _ : StateM (List Nat) Outline).run seen = _
    split <;> rfl
  simpa only [List.contains_iff_mem] using hrun

theorem run_mapM_outlineFrom_cons (e : Expr) (es : List Expr) (seen : List Nat) :
    ((e :: es).mapM outlineFrom).run seen =
      ((e.outlineFrom.run seen).1 :: ((es.mapM outlineFrom).run (e.outlineFrom.run seen).2).1,
        ((es.mapM outlineFrom).run (e.outlineFrom.run seen).2).2) := by
  rw [List.mapM_cons]
  rfl

theorem forall₂_run_mapM_outlineFrom {P : Outline → Expr → Prop} : ∀ {es : List Expr} (seen : List Nat),
    (∀ e ∈ es, ∀ seen, P (e.outlineFrom.run seen).1 e) → List.Forall₂ P ((es.mapM outlineFrom).run seen).1 es
  | [], _, _ => .nil
  | e :: es, seen, h => by
    rw [run_mapM_outlineFrom_cons]
    obtain ⟨he, hes⟩ := List.forall_mem_cons.1 h
    exact .cons (he seen) (forall₂_run_mapM_outlineFrom _ hes)

/-- What is made for an expression stands for it, and so does what stands below its nodes. -/
theorem standsFor_run_outlineFrom (e : Expr) : ∀ seen,
    (e.outlineFrom.run seen).1.StandsFor e ∧ (e.outlineFrom.run seen).1.ShowsInputs := by
  induction e using children_induction with
  | step e ih =>
    intro seen
    rw [run_outlineFrom]
    split
    · exact ⟨rfl, fun d cs h => by cases Outline.contains_reference h⟩
    · have hinputs := forall₂_run_mapM_outlineFrom (P := fun o c => o.StandsFor c ∧ o.ShowsInputs) (e.id :: seen) ih
      refine ⟨rfl, fun d cs h => ?_⟩
      rcases Outline.contains_node_iff.1 h with hself | ⟨c, hc, hcontains⟩
      · cases hself
        exact hinputs.imp fun _ _ h => h.1
      · obtain ⟨k, hk, rfl⟩ := List.getElem_of_mem hc
        exact (hinputs.get hk (hinputs.length_eq ▸ hk)).2 d cs hcontains

theorem showsInputs_outline (root : Expr) : root.outline.ShowsInputs := (standsFor_run_outlineFrom root []).2

/-! ## The worklist -/

/-- What is written for a worklist when some nodes are written already. -/
def itemsFrom (es : List Expr) (seen : List Nat) : List Item :=
  match es with
  | [] => []
  | e :: es =>
    if e.id ∈ seen then .reference e.id :: itemsFrom es seen else .node e :: itemsFrom (e.children ++ es) (e.id :: seen)
termination_by treeSizes es
decreasing_by
  · have := e.treeSize_pos
    rw [treeSizes]
    omega
  · have := e.treeSize_eq
    rw [treeSizes, treeSizes_append]
    omega

/-- Outlines are written as the worklist is, and then the rest of it. -/
theorem itemsAll_append_itemsFrom : ∀ (es rest : List Expr) (seen : List Nat),
    Outline.itemsAll ((es.mapM outlineFrom).run seen).1 ++ itemsFrom rest ((es.mapM outlineFrom).run seen).2 =
      itemsFrom (es ++ rest) seen
  | [], rest, seen => rfl
  | e :: es, rest, seen => by
    rw [run_mapM_outlineFrom_cons, run_outlineFrom, List.cons_append, itemsFrom]
    by_cases hseen : e.id ∈ seen
    · rw [if_pos hseen, if_pos hseen, ← itemsAll_append_itemsFrom]
      rfl
    · rw [if_neg hseen, if_neg hseen, ← itemsAll_append_itemsFrom e.children, ← itemsAll_append_itemsFrom es]
      simp [Outline.itemsAll, Outline.items]
termination_by es => treeSizes es
decreasing_by
  all_goals
    have := e.treeSize_eq
    rw [treeSizes]
    omega

/-- **The lines of an outline are what the worklist writes.** -/
theorem items_outline (root : Expr) : root.outline.lines.map Outline.Line.item = itemsFrom [root] [] := by
  have hroot : (([root].mapM outlineFrom).run []).1 = [root.outline] := by
    rw [List.mapM_cons]
    rfl
  rw [Outline.lines, Outline.map_item_linesFrom, ← List.append_nil [root], ← itemsAll_append_itemsFrom, hroot,
    itemsFrom]
  simp [Outline.itemsAll]

theorem length_itemsFrom (es : List Expr) (seen : List Nat) : (itemsFrom es seen).length =
    es.length + ((shown (itemsFrom es seen)).map fun e => e.children.length).sum := by
  fun_induction itemsFrom es seen with
  | case1 => rfl
  | case2 seen e es _ ih =>
    rw [List.length_cons, List.length_cons, ih]
    simp only [shown, List.filterMap_cons, Item.node?]
    omega
  | case3 seen e es _ ih =>
    rw [List.length_cons, ih]
    simp only [shown, List.filterMap_cons, Item.node?, List.map_cons, List.sum_cons, List.length_append,
      List.length_cons]
    omega

/-- A reference is to a node that was written before. -/
theorem written_of_reference (es : List Expr) (seen : List Nat) : ∀ {id : Nat} {before after : List Item},
    itemsFrom es seen = before ++ .reference id :: after → id ∈ seen ∨ ∃ e, .node e ∈ before ∧ e.id = id := by
  fun_induction itemsFrom es seen with
  | case1 => intro id before after h; simp at h
  | case2 seen e es hseen ih =>
    intro id before after h
    cases before with
    | nil =>
      cases h
      exact .inl hseen
    | cons i before =>
      obtain ⟨-, hrest⟩ := List.cons.inj h
      exact (ih hrest).imp_right fun ⟨d, hd, hid⟩ => ⟨d, List.mem_cons_of_mem i hd, hid⟩
  | case3 seen e es _ ih =>
    intro id before after h
    cases before with
    | nil => cases h
    | cons i before =>
      obtain ⟨rfl, hrest⟩ := List.cons.inj h
      rcases ih hrest with hid | ⟨d, hd, hid⟩
      · rcases List.mem_cons.1 hid with rfl | hid
        · exact .inr ⟨e, List.mem_cons_self .., rfl⟩
        · exact .inl hid
      · exact .inr ⟨d, List.mem_cons_of_mem _ hd, hid⟩

/-! ## The order of writing -/

/-- The nodes below a worklist from left to right, a node before its inputs and as often as there are ways to it. -/
def preorder (es : List Expr) : List Expr :=
  match es with
  | [] => []
  | e :: es => e :: preorder (e.children ++ es)
termination_by treeSizes es
decreasing_by
  have := e.treeSize_eq
  rw [treeSizes, treeSizes_append]
  omega

theorem preorder_append (es fs : List Expr) : preorder (es ++ fs) = preorder es ++ preorder fs := by
  fun_induction preorder es with
  | case1 => rw [List.nil_append, List.nil_append]
  | case2 e es ih => rw [List.cons_append, preorder, ← List.append_assoc, ih, List.cons_append]

theorem mem_preorder_of_mem (h : e ∈ es) : e ∈ preorder es := by
  obtain ⟨before, after, rfl⟩ := List.append_of_mem h
  rw [preorder_append, preorder]
  simp

theorem mem_preorder_of_mem_children {c : Expr} (h : e ∈ preorder es) (hc : c ∈ e.children) : c ∈ preorder es := by
  revert h
  fun_induction preorder es with
  | case1 => exact fun h => absurd h List.not_mem_nil
  | case2 b es ih =>
    intro h
    refine List.mem_cons_of_mem b ?_
    rcases List.mem_cons.1 h with rfl | h
    · exact mem_preorder_of_mem (List.mem_append_left es hc)
    · exact ih h

theorem mem_preorder_iff : d ∈ preorder es ↔ ∃ e ∈ es, e.Reaches d := by
  constructor
  · fun_induction preorder es with
    | case1 => intro h; cases h
    | case2 e es ih =>
      intro h
      rcases List.mem_cons.1 h with rfl | h
      · exact ⟨d, by simp, .refl⟩
      · obtain ⟨c, hc, hr⟩ := ih h
        rcases List.mem_append.1 hc with hc | hc
        · exact ⟨e, by simp, (Reaches.refl.child hc).trans hr⟩
        · exact ⟨c, by simp [hc], hr⟩
  · rintro ⟨e, he, hr⟩
    induction hr with
    | refl => exact mem_preorder_of_mem he
    | child _ hc ih => exact mem_preorder_of_mem_children ih hc

/-- Whatever a written node reaches is written or comes from a front part of the worklist, in which every node is
smaller. -/
def Entered (root : Expr) (es : List Expr) (seen : List Nat) : Prop :=
  ∀ e, root.Reaches e → e.id ∈ seen → ∃ below rest, es = below ++ rest ∧ (∀ c ∈ below, c.treeSize < e.treeSize) ∧
    ∀ d, e.Reaches d → d.id ∈ seen ∨ ∃ c ∈ below, c.Reaches d

theorem entered_nil : Entered root es [] := fun _ _ h => by cases h

/-- Below a written node that is in front everything is written. -/
theorem Entered.written (h : Entered root (e :: es) seen) (he : root.Reaches e) (hseen : e.id ∈ seen)
    (hr : e.Reaches d) : d.id ∈ seen := by
  obtain ⟨below, rest, hsplit, hsmaller, hbelow⟩ := h e he hseen
  cases below with
  | nil => exact (hbelow d hr).resolve_right (by simp)
  | cons c below =>
    obtain ⟨rfl, -⟩ := List.cons.inj hsplit
    exact absurd (hsmaller e (by simp)) (Nat.lt_irrefl _)

theorem Entered.skip (h : Entered root (e :: es) seen) (he : root.Reaches e) (hseen : e.id ∈ seen) :
    Entered root es seen := by
  intro b hb hbseen
  obtain ⟨below, rest, hsplit, hsmaller, hbelow⟩ := h b hb hbseen
  cases below with
  | nil => exact ⟨[], es, rfl, by simp, hbelow⟩
  | cons c below =>
    obtain ⟨rfl, hes⟩ := List.cons.inj hsplit
    refine ⟨below, rest, hes, fun d hd => hsmaller d (by simp [hd]), fun d hd => ?_⟩
    rcases hbelow d hd with hd | ⟨c, hc, hr⟩
    · exact .inl hd
    · rcases List.mem_cons.1 hc with rfl | hc
      · exact .inl (h.written he hseen hr)
      · exact .inr ⟨c, hc, hr⟩

theorem Entered.enter (h : Entered root (e :: es) seen) (hroot : root.Coherent) (he : root.Reaches e) :
    Entered root (e.children ++ es) (e.id :: seen) := by
  -- what `e` reaches besides itself comes from its inputs
  have hinputs : ∀ {d}, e.Reaches d → d.id ∈ e.id :: seen ∨ ∃ c ∈ e.children, c.Reaches d := by
    intro d hr
    rcases reaches_iff.1 hr with rfl | hbelow
    · exact .inl (List.mem_cons_self ..)
    · exact .inr hbelow
  intro b hb hbseen
  by_cases hself : b.id = e.id
  · obtain rfl := hroot b e hb he hself
    exact ⟨b.children, es, rfl, fun c hc => treeSize_lt_of_mem_children hc, fun d hd => hinputs hd⟩
  · obtain ⟨below, rest, hsplit, hsmaller, hbelow⟩ := h b hb ((List.mem_cons.1 hbseen).resolve_left hself)
    cases below with
    | nil =>
      refine ⟨[], _, rfl, by simp, fun d hd => .inl (List.mem_cons_of_mem _ ?_)⟩
      exact (hbelow d hd).resolve_right (by simp)
    | cons c below =>
      obtain ⟨rfl, rfl⟩ := List.cons.inj hsplit
      refine ⟨e.children ++ below, rest, (List.append_assoc ..).symm, fun c hc => ?_, fun d hd => ?_⟩
      · rcases List.mem_append.1 hc with hc | hc
        · exact Nat.lt_trans (treeSize_lt_of_mem_children hc) (hsmaller e (by simp))
        · exact hsmaller c (by simp [hc])
      · rcases hbelow d hd with hd | ⟨c, hc, hr⟩
        · exact .inl (List.mem_cons_of_mem _ hd)
        · rcases List.mem_cons.1 hc with rfl | hc
          · exact (hinputs hr).imp_right fun ⟨f, hf, hr⟩ => ⟨f, List.mem_append_left _ hf, hr⟩
          · exact .inr ⟨c, List.mem_append_right _ hc, hr⟩

/-- **The nodes that are written are the first ones of their numbers in the order of writing.** -/
theorem map_id_shown (hroot : root.Coherent) (es : List Expr) (seen : List Nat) (hes : ∀ e ∈ es, root.Reaches e)
    (hentered : Entered root es seen) : (shown (itemsFrom es seen)).map id =
      (((preorder es).map id).filter fun i => i ∉ seen).eraseDups := by
  fun_induction itemsFrom es seen with
  | case1 => rw [preorder]; rfl
  | case2 seen e es hseen ih =>
    obtain ⟨he, hrest⟩ := List.forall_mem_cons.1 hes
    have hbelow : ((preorder e.children).map id).filter (fun i => i ∉ seen) = [] := by
      rw [List.filter_eq_nil_iff]
      intro i hi
      obtain ⟨d, hd, rfl⟩ := List.mem_map.1 hi
      obtain ⟨c, hc, hr⟩ := mem_preorder_iff.1 hd
      simpa using hentered.written he hseen ((Reaches.refl.child hc).trans hr)
    rw [preorder, preorder_append, List.map_cons, List.filter_cons_of_neg (by simpa using hseen), List.map_append,
      List.filter_append, hbelow, List.nil_append, ← ih hrest (hentered.skip he hseen)]
    rfl
  | case3 seen e es hseen ih =>
    obtain ⟨he, hrest⟩ := List.forall_mem_cons.1 hes
    have hinputs : ∀ d ∈ e.children ++ es, root.Reaches d := by
      intro d hd
      rcases List.mem_append.1 hd with hd | hd
      · exact he.child hd
      · exact hrest d hd
    rw [preorder, List.map_cons, List.filter_cons_of_pos (by simpa using hseen), List.eraseDups_cons,
      List.filter_filter]
    refine congrArg (e.id :: ·) ((ih hinputs (hentered.enter hroot he)).trans ?_)
    congr 1
    refine List.filter_congr fun i _ => ?_
    simp [beq_eq_decide]

/-- No number is written twice. -/
theorem nodup_map_id_shown (es : List Expr) (seen : List Nat) :
    ((shown (itemsFrom es seen)).map id).Nodup ∧ ∀ e ∈ shown (itemsFrom es seen), e.id ∉ seen := by
  fun_induction itemsFrom es seen with
  | case1 => exact ⟨.nil, List.forall_mem_nil _⟩
  | case2 seen e es _ ih => exact ih
  | case3 seen e es hseen ih =>
    obtain ⟨hnodup, hnew⟩ := ih
    refine ⟨List.nodup_cons.2 ⟨fun he => ?_, hnodup⟩, List.forall_mem_cons.2 ⟨hseen, fun d hd hid => ?_⟩⟩
    · obtain ⟨d, hd, hid⟩ := List.mem_map.1 he
      exact hnew d hd (hid ▸ List.mem_cons_self ..)
    · exact hnew d hd (List.mem_cons_of_mem _ hid)

theorem reaches_of_mem_shown (es : List Expr) (seen : List Nat) :
    ∀ d ∈ shown (itemsFrom es seen), ∃ e ∈ es, e.Reaches d := by
  fun_induction itemsFrom es seen with
  | case1 => exact List.forall_mem_nil _
  | case2 seen e es _ ih =>
    intro d hd
    obtain ⟨c, hc, hr⟩ := ih d hd
    exact ⟨c, List.mem_cons_of_mem e hc, hr⟩
  | case3 seen e es _ ih =>
    refine List.forall_mem_cons.2 ⟨⟨e, by simp, .refl⟩, fun d hd => ?_⟩
    obtain ⟨c, hc, hr⟩ := ih d hd
    rcases List.mem_append.1 hc with hc | hc
    · exact ⟨e, by simp, (Reaches.refl.child hc).trans hr⟩
    · exact ⟨c, by simp [hc], hr⟩

/-- **The compact outline writes every node once.**  The lines that write a node in full are one for each node that the
root reaches, in the order in which one comes to them from left to right for the first time; below each of them stand
its inputs, one by one.  Every other line refers to a node that was written before it.  So besides that of the root
there is a line for each input of each node. -/
theorem outline_shows_once (root : Expr) (hroot : root.Coherent) :
    let items := root.outline.lines.map Outline.Line.item
    ((shown items).map id).Nodup ∧ (∀ e, e ∈ shown items ↔ root.Reaches e) ∧
      (shown items).map id = ((preorder [root]).map id).eraseDups ∧
      items.length = 1 + ((shown items).map fun e => e.children.length).sum ∧
      (∀ e cs, root.outline.Contains (.node e cs) → List.Forall₂ Outline.StandsFor cs e.children) ∧
      ∀ before item after, items = before ++ item :: after → item.node? = none →
        ∃ e, .node e ∈ before ∧ item = .reference e.id ∧
          item.text .own = "[" ++ toString e.id ++ "] -> (see above)" := by
  intro items
  have hitems : items = itemsFrom [root] [] := items_outline root
  have hself : ∀ e ∈ [root], root.Reaches e := by simpa using .refl
  have horder : (shown items).map id = ((preorder [root]).map id).eraseDups := by
    rw [hitems, map_id_shown hroot [root] [] hself entered_nil]
    simp
  have hreach : ∀ e ∈ shown items, root.Reaches e := by
    simpa [hitems] using reaches_of_mem_shown [root] []
  refine ⟨hitems ▸ (nodup_map_id_shown [root] []).1, fun e => ⟨hreach e, fun he => ?_⟩, horder, ?_,
    showsInputs_outline root, ?_⟩
  · have hid : e.id ∈ (shown items).map id := by
      rw [horder, List.mem_eraseDups]
      exact List.mem_map_of_mem (mem_preorder_iff.2 ⟨root, by simp, he⟩)
    obtain ⟨d, hd, hde⟩ := List.mem_map.1 hid
    exact hroot d e (hreach d hd) he hde ▸ hd
  · rw [hitems]
    exact length_itemsFrom [root] []
  · intro before item after hsplit hnone
    cases item with
    | node => cases hnone
    | reference id =>
      rcases written_of_reference [root] [] (hitems ▸ hsplit) with hid | ⟨e, he, rfl⟩
      · cases hid
      · exact ⟨e, he, rfl, rfl⟩

/-- A node whose inputs are a shared node, a node that uses it twice, and the first one again. -/
theorem outline_shows_once_of_shared_item :
    let x := var ⟨4, none, none⟩ ⟨0, "x"⟩
    let shared := tuple ⟨1, none, none⟩ [x, x]
    let left := item ⟨3, none, none⟩ shared 0
    let right := tuple ⟨0, none, none⟩ [shared, x]
    let root := tuple ⟨2, none, none⟩ [left, right, left]
    let items := root.outline.lines.map Outline.Line.item
    root.Coherent ∧ shown items = [root, left, shared, x, right] ∧ items.length = 9 ∧
      items = [.node root, .node left, .node shared, .node x, .reference x.id, .node right, .reference shared.id,
        .reference x.id, .reference left.id] := by
  intro x shared left right root items
  have hcoherent : root.Coherent := by
    refine @coherent_of_closed root [root, left, right, shared, x] (by simp) ?_ (by decide)
    simp [root, left, right, shared, x, children]
  have hitems : root.outline.lines.map Outline.Line.item = [.node root, .node left, .node shared, .node x,
      .reference x.id, .node right, .reference shared.id, .reference x.id, .reference left.id] := by
    rw [items_outline]
    simp [itemsFrom, root, left, right, shared, x, children, id, info]
  have hshown : shown items = [root, left, shared, x, right] := congrArg shown hitems
  obtain ⟨-, -, -, hlength, -, -⟩ := outline_shows_once root hcoherent
  exact ⟨hcoherent, hshown, hlength.trans (by rw [hshown]; rfl), hitems⟩

end Expr
end Dataflow
