import Dataflow.Graph.Basic
import Mathlib.Data.List.Nodup
import Mathlib.Tactic.Common
/-!
# The order of evaluation lists inputs first

`postorder` is the traversal that the worklist of `toposort` carries out: a node that is not listed yet is listed
after its inputs.  Where a number belongs to one node only (`Coherent`), the two give the same list
(`toposort_eq_postorder`), and it lists what the root reaches, once, inputs first and the root last.
-/
namespace Dataflow
namespace Expr

/-! ## Nodes that an expression reaches -/

inductive Reaches (root : Expr) : Expr → Prop
  | refl : Reaches root root
  | child {e c : Expr} : Reaches root e → c ∈ e.children → Reaches root c

/-- Nodes with one number are one node. -/
def Coherent (root : Expr) : Prop := ∀ a b, root.Reaches a → root.Reaches b → a.id = b.id → a = b

theorem Reaches.trans {a b c : Expr} (hab : a.Reaches b) (hbc : b.Reaches c) : a.Reaches c := by
  induction hbc with
  | refl => exact hab
  | child _ hc ih => exact .child ih hc

theorem reaches_iff {a b : Expr} : a.Reaches b ↔ b = a ∨ ∃ c ∈ a.children, c.Reaches b := by
  constructor
  · intro h
    induction h with
    | refl => exact .inl rfl
    | child _ hc ih =>
      rcases ih with rfl | ⟨d, hd, hr⟩
      · exact .inr ⟨_, hc, .refl⟩
      · exact .inr ⟨d, hd, hr.child hc⟩
  · rintro (rfl | ⟨c, hc, hr⟩)
    · exact .refl
    · exact (Reaches.refl.child hc).trans hr

theorem Reaches.treeSize_le {a b : Expr} (h : a.Reaches b) : b.treeSize ≤ a.treeSize := by
  induction h with
  | refl => exact Nat.le_refl _
  | child _ hc ih => exact Nat.le_trans (Nat.le_of_lt (treeSize_lt_of_mem_children hc)) ih

/-- An expression is coherent when it stands in a list that holds all inputs of its nodes and no number twice. -/
theorem coherent_of_closed {root : Expr} {es : List Expr} (hroot : root ∈ es) (hes : ∀ e ∈ es, ∀ c ∈ e.children, c ∈ es)
    (hid : (es.map Expr.id).Nodup) : root.Coherent := by
  have hmem : ∀ {e}, root.Reaches e → e ∈ es := fun h => by
    induction h with
    | refl => exact hroot
    | child _ hc ih => exact hes _ ih _ hc
  exact fun a b ha hb hab => List.inj_on_of_nodup_map hid (hmem ha) (hmem hb) hab

theorem isIn_iff {e : Expr} {es : List Expr} : e.isIn es = true ↔ ∃ d ∈ es, d.id = e.id := by
  simp [isIn]

theorem isIn_of_suffix {e : Expr} {es fs : List Expr} (h : es <:+ fs) (he : e.isIn es = true) : e.isIn fs = true := by
  obtain ⟨d, hd, hid⟩ := isIn_iff.1 he
  exact isIn_iff.2 ⟨d, h.subset hd, hid⟩

/-! ## The recursive traversal -/

/-- Lists every one of `es` that is not listed yet after its inputs; the last node listed stands first. -/
def postorder (es listed : List Expr) : List Expr :=
  match es with
  | [] => listed
  | e :: es => if e.isIn listed then postorder es listed else postorder es (e :: postorder e.children listed)
termination_by treeSizes es
decreasing_by
  all_goals
    have := e.treeSize_eq
    rw [treeSizes]
    omega

theorem suffix_postorder (es listed : List Expr) : listed <:+ postorder es listed := by
  fun_induction postorder es listed with
  | case1 listed => exact List.suffix_refl listed
  | case2 listed e es _ ih => exact ih
  | case3 listed e es _ ihc ih => exact (ihc.trans (List.suffix_cons _ _)).trans ih

theorem isIn_postorder {es listed : List Expr} : ∀ {e : Expr}, e ∈ es → e.isIn (postorder es listed) = true := by
  fun_induction postorder es listed with
  | case1 => intro e he; cases he
  | case2 listed e es h ih =>
    intro d hd
    rcases List.mem_cons.1 hd with rfl | hd
    · exact isIn_of_suffix (suffix_postorder es listed) h
    · exact ih hd
  | case3 listed e es _ _ ih =>
    intro d hd
    rcases List.mem_cons.1 hd with rfl | hd
    · exact isIn_of_suffix (suffix_postorder es _) (isIn_iff.2 ⟨d, by simp, rfl⟩)
    · exact ih hd

theorem mem_postorder {es listed : List Expr} : ∀ {d : Expr},
    d ∈ postorder es listed → d ∈ listed ∨ ∃ e ∈ es, e.Reaches d := by
  fun_induction postorder es listed with
  | case1 => exact fun hd => .inl hd
  | case2 listed e es _ ih =>
    intro d hd
    exact (ih hd).imp_right fun ⟨b, hb, hr⟩ => ⟨b, by simp [hb], hr⟩
  | case3 listed e es _ ihc ih =>
    intro d hd
    rcases ih hd with hd | ⟨b, hb, hr⟩
    · rcases List.mem_cons.1 hd with rfl | hd
      · exact .inr ⟨d, by simp, .refl⟩
      · exact (ihc hd).imp_right fun ⟨c, hc, hr⟩ => ⟨e, by simp, (Reaches.refl.child hc).trans hr⟩
    · exact .inr ⟨b, by simp [hb], hr⟩

theorem reaches_of_mem_postorder {root : Expr} {es listed : List Expr} (hes : ∀ e ∈ es, root.Reaches e)
    (hl : ∀ d ∈ listed, root.Reaches d) : ∀ d ∈ postorder es listed, root.Reaches d := by
  intro d hd
  rcases mem_postorder hd with hd | ⟨e, he, hr⟩
  · exact hl d hd
  · exact (hes e he).trans hr

/-- A node is not among what is listed for its inputs. -/
theorem not_isIn_postorder_children {root e : Expr} {listed : List Expr} (hroot : root.Coherent)
    (he : root.Reaches e) (hnew : ¬e.isIn listed = true) :
    ¬e.isIn (postorder e.children listed) = true := by
  intro hin
  obtain ⟨d, hd, hid⟩ := isIn_iff.1 hin
  rcases mem_postorder hd with hd | ⟨c, hc, hr⟩
  · exact hnew (isIn_iff.2 ⟨d, hd, hid⟩)
  · obtain rfl := hroot d e ((he.child hc).trans hr) he hid
    exact absurd (hr.treeSize_le) (Nat.not_le_of_lt (treeSize_lt_of_mem_children hc))

/-- Nodes listed once each, after their inputs; the last one stands first. -/
inductive Listing : List Expr → Prop
  | nil : Listing []
  | cons {e : Expr} {listed : List Expr} : Listing listed → ¬e.isIn listed = true →
      (∀ c ∈ e.children, c.isIn listed = true) → Listing (e :: listed)

theorem Listing.postorder {root : Expr} (hroot : root.Coherent) {es listed : List Expr} (h : Listing listed)
    (hes : ∀ e ∈ es, root.Reaches e) (hl : ∀ d ∈ listed, root.Reaches d) : Listing (Expr.postorder es listed) := by
  revert hl
  fun_induction Expr.postorder es listed with
  | case1 => exact fun _ => h
  | case2 listed e es _ ih => exact ih h fun d hd => hes d (by simp [hd])
  | case3 listed e es hnew ihc ih =>
    intro hl
    have he := hes e (by simp)
    have hchildren : ∀ c ∈ e.children, root.Reaches c := fun c hc => he.child hc
    have hlc := reaches_of_mem_postorder hchildren hl
    refine ih (.cons (ihc h hchildren hl) (not_isIn_postorder_children hroot he hnew) fun c hc => isIn_postorder hc)
      (fun d hd => hes d (by simp [hd])) ?_
    exact List.forall_mem_cons.2 ⟨he, hlc⟩

/-! ## The worklist carries the traversal out -/

theorem postorder_filter (es : List Expr) {listed listed' : List Expr} (h : listed <:+ listed') :
    postorder (es.filter fun e => !e.isIn listed) listed' = postorder es listed' := by
  induction es generalizing listed' with
  | nil => rfl
  | cons e es ih =>
    by_cases he : e.isIn listed = true
    · rw [List.filter_cons_of_neg (by simp [he]), ih h]
      conv_rhs => rw [postorder, if_pos (isIn_of_suffix h he)]
    · rw [List.filter_cons_of_pos (by simp [he]), postorder]
      conv_rhs => rw [postorder]
      split
      · exact ih h
      · exact ih ((h.trans (suffix_postorder _ _)).trans (List.suffix_cons _ _))

theorem listFrom_enter {root : Expr} (hroot : root.Coherent) : ∀ {es listed : List Expr} (rest : List Pending),
    (∀ e ∈ es, root.Reaches e) → (∀ d ∈ listed, root.Reaches d) →
      listFrom (es.map .enter ++ rest) listed = listFrom rest (postorder es listed)
  | [], listed, rest, _, _ => by rw [postorder]; rfl
  | e :: es, listed, rest, hes, hl => by
    have hes' : ∀ d ∈ es, root.Reaches d := fun d hd => hes d (by simp [hd])
    rw [List.map_cons, List.cons_append, listFrom, postorder]
    split
    · exact listFrom_enter hroot rest hes' hl
    · rename_i hnew
      have he : root.Reaches e := hes e (by simp)
      have hchildren : ∀ c ∈ e.children, root.Reaches c := fun c hc => he.child hc
      have hunlisted : ∀ c ∈ e.children.filter fun c => !c.isIn listed, root.Reaches c := fun c hc =>
        hchildren c (List.mem_filter.1 hc).1
      -- the inputs that are not listed yet, then `e` itself, then what was to be entered after it
      rw [listFrom_enter hroot (.leave e :: (es.map Pending.enter ++ rest)) hunlisted hl,
        postorder_filter e.children (List.suffix_refl listed), listFrom,
        if_neg (not_isIn_postorder_children hroot he hnew)]
      exact listFrom_enter hroot rest hes' (List.forall_mem_cons.2 ⟨he, reaches_of_mem_postorder hchildren hl⟩)
termination_by es => treeSizes es
decreasing_by
  all_goals
    have := treeSizes_filter_le (fun c => !c.isIn listed) e.children
    have := e.treeSize_eq
    rw [treeSizes]
    omega

/-- **The worklist lists what the recursive traversal lists.** -/
theorem toposort_eq_postorder {root : Expr} (h : root.Coherent) : root.toposort = (postorder [root] []).reverse := by
  have hroot : ∀ e ∈ [root], root.Reaches e := by simpa using .refl
  have hlist := listFrom_enter h [] hroot (List.forall_mem_nil _)
  rw [List.map_singleton, List.append_nil, listFrom] at hlist
  exact hlist

/-! ## Positions in the order -/

theorem Listing.pairwise {es : List Expr} (h : Listing es) : es.Pairwise fun a b => a.id ≠ b.id := by
  induction h with
  | nil => exact .nil
  | cons _ hnew _ ih => exact .cons (fun d hd hid => hnew (isIn_iff.2 ⟨d, hd, hid.symm⟩)) ih

/-- An input stands behind its consumer in a listing, whose last node stands first. -/
theorem Listing.exists_later {es : List Expr} (h : Listing es) : ∀ {k : Nat} {e c : Expr}, es[k]? = some e →
    c ∈ e.children → ∃ i d, k < i ∧ es[i]? = some d ∧ d.id = c.id := by
  induction h with
  | nil => intro k e c he; cases he
  | @cons b es _ _ hc ih =>
    intro k e c he hce
    cases k with
    | zero =>
      cases he
      obtain ⟨d, hd, hid⟩ := isIn_iff.1 (hc c hce)
      obtain ⟨i, hi, rfl⟩ := List.mem_iff_getElem.1 hd
      exact ⟨i + 1, _, by omega, by simp, hid⟩
    | succ k =>
      obtain ⟨i, d, hki, hi, hid⟩ := ih (by simpa using he) hce
      exact ⟨i + 1, d, by omega, by simpa using hi, hid⟩

section
variable {root e c : Expr}

theorem listing_toposort (h : root.Coherent) : Listing root.toposort.reverse := by
  rw [toposort_eq_postorder h, List.reverse_reverse]
  exact Listing.nil.postorder h (by simpa using .refl) (by simp)

theorem getLast?_toposort (h : root.Coherent) : root.toposort.getLast? = some root := by
  rw [toposort_eq_postorder h, List.getLast?_reverse, postorder, if_neg (by simp [isIn]), postorder]
  rfl

theorem reaches_of_mem_toposort (h : root.Coherent) (he : e ∈ root.toposort) : root.Reaches e := by
  rw [toposort_eq_postorder h, List.mem_reverse] at he
  exact reaches_of_mem_postorder (by simpa using .refl) (by simp) e he

/-- No node is listed twice. -/
theorem nodup_map_id_toposort (h : root.Coherent) : (root.toposort.map Expr.id).Nodup := by
  rw [← List.nodup_reverse, ← List.map_reverse, List.Nodup, List.pairwise_map]
  exact (listing_toposort h).pairwise

theorem toposort_inj (h : root.Coherent) {i j : Nat} {d : Expr} (hi : root.toposort[i]? = some d)
    (hj : root.toposort[j]? = some e) (hid : d.id = e.id) : i = j := by
  have hlt : i < (root.toposort.map Expr.id).length := by simpa using (List.getElem?_eq_some_iff.1 hi).1
  refine (List.getElem?_inj hlt (nodup_map_id_toposort h)).1 ?_
  rw [List.getElem?_map, List.getElem?_map, hi, hj, Option.map_some, Option.map_some, hid]

theorem exists_input_before (h : root.Coherent) {k : Nat} (he : root.toposort[k]? = some e) (hc : c ∈ e.children) :
    ∃ i, i < k ∧ root.toposort[i]? = some c := by
  have hk : k < root.toposort.length := (List.getElem?_eq_some_iff.1 he).1
  have hback : root.toposort.reverse[root.toposort.length - 1 - k]? = some e := by
    rw [List.getElem?_reverse (by omega), ← he]
    congr 1
    omega
  obtain ⟨i, d, hki, hi, hid⟩ := (listing_toposort h).exists_later hback hc
  have hil : i < root.toposort.length := by simpa using (List.getElem?_eq_some_iff.1 hi).1
  rw [List.getElem?_reverse hil] at hi
  have hreach := reaches_of_mem_toposort h (List.mem_of_getElem? he)
  have hd : d = c := h d c (reaches_of_mem_toposort h (List.mem_of_getElem? hi)) (hreach.child hc) hid
  exact ⟨_, by omega, hd ▸ hi⟩

/-- **The order lists exactly what the root reaches.** -/
theorem mem_toposort_iff (h : root.Coherent) : e ∈ root.toposort ↔ root.Reaches e := by
  refine ⟨reaches_of_mem_toposort h, fun hr => ?_⟩
  induction hr with
  | refl => exact List.mem_of_getLast? (getLast?_toposort h)
  | child _ hc ih =>
    obtain ⟨k, hk, hek⟩ := List.mem_iff_getElem.1 ih
    obtain ⟨i, _, hi⟩ := exists_input_before h (List.getElem?_eq_some_iff.2 ⟨hk, hek⟩) hc
    exact List.mem_of_getElem? hi

theorem exists_consumer (h : root.Coherent) {k : Nat} (he : root.toposort[k]? = some e)
    (hk : k + 1 < root.toposort.length) : ∃ (j : Nat) (d : Expr), root.toposort[j]? = some d ∧ e ∈ d.children := by
  have hne : e ≠ root := by
    rintro rfl
    have hlast := getLast?_toposort h
    rw [List.getLast?_eq_getElem?] at hlast
    have := toposort_inj h he hlast rfl
    omega
  cases reaches_of_mem_toposort h (List.mem_of_getElem? he) with
  | refl => exact absurd rfl hne
  | child hr hc =>
    obtain ⟨j, hj, hdj⟩ := List.mem_iff_getElem.1 ((mem_toposort_iff h).2 hr)
    exact ⟨j, _, List.getElem?_eq_some_iff.2 ⟨hj, hdj⟩, hc⟩

theorem positionIn?_toposort_iff (h : root.Coherent) (hc : root.Reaches c) {i : Nat} :
    c.positionIn? root.toposort = some i ↔ root.toposort[i]? = some c := by
  rw [positionIn?, List.findIdx?_eq_some_iff_getElem]
  constructor
  · rintro ⟨hi, hid, -⟩
    have hci := h _ c (reaches_of_mem_toposort h (List.getElem_mem hi)) hc (by simpa using hid)
    exact List.getElem?_eq_some_iff.2 ⟨hi, hci⟩
  · intro hi
    obtain ⟨hil, hic⟩ := List.getElem?_eq_some_iff.1 hi
    refine ⟨hil, by simp [hic], fun j hj hid => ?_⟩
    have hjl : j < root.toposort.length := by omega
    have := toposort_inj h (List.getElem?_eq_some_iff.2 ⟨hjl, rfl⟩) hi (by simpa using hid)
    omega

end

/-- **The order of evaluation is that of the recursive traversal**, which finishes inputs first to last: it lists the
nodes that the root reaches, each once and after its inputs, the root last. -/
theorem toposort_traverses (root : Expr) (h : root.Coherent) :
    root.toposort = (postorder [root] []).reverse ∧ (root.toposort.map Expr.id).Nodup ∧
      (∀ e, e ∈ root.toposort ↔ root.Reaches e) ∧
        (∀ (k : Nat) (e : Expr), root.toposort[k]? = some e →
          ∀ c ∈ e.children, ∃ i, i < k ∧ root.toposort[i]? = some c) ∧
          root.toposort.getLast? = some root :=
  ⟨toposort_eq_postorder h, nodup_map_id_toposort h, fun _ => mem_toposort_iff h,
    fun _ _ he _ hc => exists_input_before h he hc, getLast?_toposort h⟩

/-- A node whose two inputs share one of theirs, which it has as an input itself once more. -/
theorem toposort_traverses_diamond :
    let x := Expr.var ⟨4, none, none⟩ ⟨0, "x"⟩
    let shared := Expr.tuple ⟨1, none, none⟩ [x, x]
    let left := Expr.item ⟨3, none, none⟩ shared 0
    let right := Expr.tuple ⟨0, none, none⟩ [shared, x]
    let root := Expr.tuple ⟨2, none, none⟩ [left, right, shared, left]
    root.Coherent ∧ root.toposort = (postorder [root] []).reverse ∧ root.toposort = [x, shared, left, right, root] := by
  intro x shared left right root
  have hcoherent : root.Coherent := by
    refine @coherent_of_closed root [root, left, right, shared, x] (by simp) ?_ (by decide)
    simp [root, left, right, shared, x, children]
  refine ⟨hcoherent, (toposort_traverses root hcoherent).1, by cbv⟩

end Expr
end Dataflow
