import Dataflow.Proofs.Expr.Copy
import Dataflow.Proofs.Expr.Equality
/-!
# The memory of structural equality

A pair that was found equal outside every function is taken for equal inside of functions as well.  There it need not
be, if they bind a variable that occurs in it (`equal_ne_direct_of_recorded_pair`).  Where no node of the left side
stands both outside of every function and below one that binds a variable it mentions (`ScopesApart`), the memory
changes no answer (`equal_eq_direct`): a comparison `Confirms` a statement if from a sound memory it answers yes only
when the statement holds, and then leaves a sound memory.
-/
namespace Dataflow

/-! ## Pairings -/

namespace Pairing

variable {pairing other : Pairing} {v : Nat}

/-- The parameters that have a partner inside two functions. -/
theorem mem_enter_iff (v : Nat) : ∀ {ps qs : List Expr} (pairing : Pairing), ps.length = qs.length →
    (∀ q ∈ qs, q.var?.isSome = true) →
      (v ∈ (pairing.enter ps qs).map Prod.fst ↔ v ∈ Expr.varIds ps ∨ v ∈ pairing.map Prod.fst)
  | [], [], pairing, _, _ => by simp [enter, Expr.varIds]
  | p :: ps, q :: qs, pairing, hlength, hqs => by
    obtain ⟨hq, hrest⟩ := List.forall_mem_cons.1 hqs
    obtain ⟨w, hw⟩ := Option.isSome_iff_exists.1 hq
    rw [enter, hw]
    cases hp : p.var? with
    | none =>
      have hids : Expr.varIds (p :: ps) = Expr.varIds ps := by simp [Expr.varIds, hp]
      rw [hids]
      exact mem_enter_iff v pairing (Nat.succ.inj hlength) hrest
    | some x =>
      have hids : Expr.varIds (p :: ps) = x.id :: Expr.varIds ps := by simp [Expr.varIds, hp]
      rw [hids, List.mem_cons, mem_enter_iff v _ (Nat.succ.inj hlength) hrest]
      have hnew : v ∈ (if (pairing.lookup x.id).isNone then (x.id, w.id) :: pairing else pairing).map Prod.fst ↔
          v = x.id ∨ v ∈ pairing.map Prod.fst := by
        split
        · rw [List.map_cons, List.mem_cons]
        · rename_i hbound
          refine (or_iff_right_of_imp fun hv => ?_).symm
          simpa [List.lookup_eq_none_iff, hv] using hbound
      rw [hnew]
      tauto

/-- What a variable stands for inside two functions depends only on what it stood for outside. -/
theorem lookup_enter_congr : ∀ {ps qs : List Expr} {pairing other : Pairing}, pairing.lookup v = other.lookup v →
    (pairing.enter ps qs).lookup v = (other.enter ps qs).lookup v
  | [], _, _, _, h | _ :: _, [], _, _, h => h
  | p :: ps, q :: qs, pairing, other, h => by
    rw [enter, enter]
    cases p.var? with
    | none => exact lookup_enter_congr h
    | some x =>
      cases q.var? with
      | none => exact lookup_enter_congr h
      | some y =>
        refine lookup_enter_congr ?_
        rw [lookup_extend, lookup_extend, h]

end Pairing

namespace Expr

variable {root a₀ b₀ a b e c : Expr} {pairing other : Pairing} {bound : List Nat} {v : Nat}

theorem formsAgree_congr (h : ∀ v, a.Mentions v → pairing.lookup v = other.lookup v) :
    a.formsAgree pairing b = a.formsAgree other b := by
  cases a with
  | var i x =>
    cases b with
    | var => rw [formsAgree, formsAgree, Pairing.relates, Pairing.relates, h x.id (mentions_of_var? rfl)]
    | _ => rfl
  | _ => cases b <;> rfl

theorem attrsDirect_of_attrsEqual (h : ∀ x ∈ a.attrExprs, ∀ y ∈ b.attrExprs, x.equal y = true → x.direct y = true)
    (hequal : a.attrsEqual b = true) : a.attrsDirect b = true := by
  refine attrsDirect_attrsEqual (ρ := fun direct equal => equal = true → direct = true) (fun _ h => h) ?_ h hequal
  intro p p' q q' hp hq hpq
  rw [Bool.and_eq_true] at hpq ⊢
  exact ⟨hp hpq.1, hq hpq.2⟩

/-- Comparing without a memory depends only on what the pairing says of variables that are mentioned. -/
theorem directUnder_congr (hcoherent : CoherentAll [a₀, b₀]) (ha : a₀.Reaches a) (hb : b₀.Reaches b)
    (hlookup : ∀ v, a.Mentions v → pairing.lookup v = other.lookup v) (h : a.directUnder pairing b = true) :
    a.directUnder other b = true := by
  induction a using children_induction generalizing b pairing other with
  | step a ih =>
    rcases directUnder_iff.1 h with ⟨hid, rfl⟩ | ⟨hnodes, hchildren⟩
    · obtain rfl := hcoherent a b ⟨a₀, by simp, ha⟩ ⟨b₀, by simp, hb⟩ hid
      refine directUnder_of_bare_eq rfl fun v hv => ?_
      rw [← hlookup v hv]
      rfl
    · rw [formsAgree_congr hlookup] at hnodes
      obtain ⟨hlength, hzip⟩ := List.forall₂_iff_zip.1 hchildren
      refine directUnder_iff.2 (.inr ⟨hnodes, List.forall₂_iff_zip.2 ⟨hlength, fun {c d} hcd => ?_⟩⟩)
      obtain ⟨hc, hd⟩ := List.of_mem_zip hcd
      refine ih c hc (ha.child hc) (hb.child hd) (fun v hv => ?_) (hzip hcd)
      exact Pairing.lookup_enter_congr (hlookup v ((Reaches.refl.child hc).mentions hv))

/-! ## Nodes in two scopes -/

/-- A node stands below functions that bind the variables `bound`. -/
inductive Under (root : Expr) : List Nat → Expr → Prop
  | root : Under root [] root
  | child {bound : List Nat} {e c : Expr} : Under root bound e → c ∈ e.children → Under root (e.binders ++ bound) c

theorem Under.reaches (h : Under root bound e) : root.Reaches e := by
  induction h with
  | root => exact .refl
  | child _ hc ih => exact ih.child hc

/-- No node stands both outside of every function and below one that binds a variable it mentions. -/
def ScopesApart (root : Expr) : Prop :=
  ∀ e bound, root.Under [] e → root.Under bound e → ∀ v ∈ bound, ¬e.Mentions v

/-- All parameters of functions are variables. -/
def BindsVariables (root : Expr) : Prop := ∀ e, root.Reaches e → ∀ p ∈ e.params, p.var?.isSome = true

/-! ## What the memory confirms -/

/-- What is recorded stands outside of every function and is equal without a memory. -/
def Recorded (a₀ b₀ : Expr) (t : Proven) : Prop :=
  ∀ a b, a₀.Reaches a → b₀.Reaches b → t.contains (a.id, b.id) = true → a₀.Under [] a ∧ a.direct b = true

/-- From a sound memory a step answers yes only if a statement holds, and then leaves a sound memory. -/
def Confirms (a₀ b₀ : Expr) (m : StateM Proven Bool) (A : Prop) : Prop :=
  ∀ t : Proven, Recorded a₀ b₀ t → (m.run t).1 = true → A ∧ Recorded a₀ b₀ (m.run t).2

/-- What is recorded stands for nodes that are related in this way. -/
theorem confirms_iff {m : StateM Proven Bool} {A : Prop} :
    Confirms a₀ b₀ m A ↔ Upholds (fun a b => a₀.Under [] a ∧ a.direct b = true) a₀ b₀ m A := Iff.rfl

/-- The comparison with a memory confirms what the comparison without finds. -/
theorem confirms_equalUnder (hcoherent : CoherentAll [a₀, b₀]) (hvars : b₀.BindsVariables) (happart : a₀.ScopesApart)
    (hattrs : ∀ c, a₀.Reaches c → ∀ d, b₀.Reaches d →
      ∀ x ∈ c.attrExprs, ∀ y ∈ d.attrExprs, x.equal y = true → x.direct y = true)
    (a : Expr) : ∀ {b : Expr} {pairing : Pairing} {bound : List Nat}, (∀ v, v ∈ pairing.map Prod.fst ↔ v ∈ bound) →
      a₀.Under bound a → b₀.Reaches b →
        Confirms a₀ b₀ (a.equalUnder pairing b) (a.directUnder pairing b = true) := by
  induction a using children_induction with
  | step a ih =>
    intro b pairing bound hbound ha hb
    have houter : pairing = [] → bound = [] := by
      rintro rfl
      exact List.eq_nil_iff_forall_not_mem.2 fun v hv => List.not_mem_nil ((hbound v).2 hv)
    rw [confirms_iff, equalUnder_eq]
    refine .remember hcoherent ha.reaches hb ?_ ?_ ?_ ?_
    · exact fun hid hempty => directUnder_iff.2 (.inl ⟨hid, hempty⟩)
    · -- The pair was recorded outside, so nothing that is bound here occurs in it.
      rintro ⟨hnode, hdirect⟩
      refine directUnder_congr hcoherent ha.reaches hb (fun v hv => ?_) hdirect
      have hfree : v ∉ pairing.map Prod.fst := fun hv' => happart a bound hnode ha v ((hbound v).1 hv') hv
      refine (List.lookup_eq_none_iff.2 fun x hx => ?_).symm
      have hne : v ≠ x.1 := fun h => hfree (List.mem_map.2 ⟨x, hx, h.symm⟩)
      simpa using hne
    · rintro hdirect rfl
      exact ⟨houter rfl ▸ ha, hdirect⟩
    · have hpart : (a.formsAgree pairing b && a.attrsEqual b) = true → ∀ c ∈ a.children, ∀ d ∈ b.children,
          Confirms a₀ b₀ (c.equalUnder (pairing.enter a.params b.params) d)
            (c.directUnder (pairing.enter a.params b.params) d = true) := by
        intro hnodes c hc d hd
        rw [Bool.and_eq_true] at hnodes
        have hlength := length_params_of_formsAgree hnodes.1
        refine ih c hc (fun v => ?_) (ha.child hc) (hb.child hd)
        rw [Pairing.mem_enter_iff v pairing hlength (hvars b hb), hbound, List.mem_append, binders]
      refine Upholds.imp (.guard fun hnodes => upholds_equalAllUnder (hpart hnodes)) ?_
      rintro ⟨hnodes, hchildren⟩
      refine directUnder_iff.2 (.inr ⟨?_, hchildren⟩)
      rw [Bool.and_eq_true] at hnodes ⊢
      exact ⟨hnodes.1, attrsDirect_of_attrsEqual (hattrs a ha.reaches b hb) hnodes.2⟩

/-- **What is equal without a memory is structurally equal**, and where scopes are apart in the left side nothing else
is. -/
theorem equal_eq_direct (a b : Expr) : (a.direct b = true → a.equal b = true) ∧
    ((∀ x y, a.Holds x → b.Holds y → CoherentAll [x, y] ∧ y.BindsVariables ∧ x.ScopesApart) →
      a.equal b = a.direct b) := by
  refine ⟨equal_of_direct, fun h => ?_⟩
  -- What an attribute holds is smaller than the node that carries it, wherever in the tree that is.
  induction hn : sizeOf a using Nat.strongRecOn generalizing a b with
  | ind n ih =>
    have hattrs : ∀ c, a.Reaches c → ∀ d, b.Reaches d →
        ∀ x ∈ c.attrExprs, ∀ y ∈ d.attrExprs, x.equal y = true → x.direct y = true := by
      intro c hc d hd x hx y hy hequal
      have hsize : sizeOf x < n := hn ▸ Nat.lt_of_lt_of_le (sizeOf_lt_of_mem_attrExprs hx) hc.sizeOf_le
      rwa [← ih _ hsize x y (fun x' y' hx' hy' => ?_) rfl]
      exact h x' y' ((Holds.refl.attr hc hx).trans hx') ((Holds.refl.attr hd hy).trans hy')
    obtain ⟨hcoherent, hvars, happart⟩ := h a b .refl .refl
    have hnone : ∀ v, v ∈ ([] : Pairing).map Prod.fst ↔ v ∈ ([] : List Nat) := by simp
    have hconfirms := confirms_equalUnder hcoherent hvars happart hattrs a hnone .root .refl
    rw [Bool.eq_iff_iff]
    exact ⟨fun hequal => (hconfirms ∅ recordsWithin_empty hequal).1, equal_of_direct⟩

theorem Under.mem_of_closed {es : List (List Nat × Expr)} (h : root.Under bound e) (hroot : ([], root) ∈ es)
    (hes : ∀ x ∈ es, ∀ c ∈ x.2.children, (x.2.binders ++ x.1, c) ∈ es) : (bound, e) ∈ es := by
  induction h with
  | root => exact hroot
  | child _ hc ih => exact hes _ ih _ hc

/-- A tuple of a node and a function that uses it beside its parameter, against a copy under another name of the
parameter. -/
theorem equal_eq_direct_of_shared_input :
    let x := var ⟨0, none, none⟩ ⟨0, "x"⟩
    let y := var ⟨1, none, none⟩ ⟨1, "y"⟩
    let z := var ⟨2, none, none⟩ ⟨2, "z"⟩
    let g := tuple ⟨3, none, none⟩ [z]
    let p := tuple ⟨4, none, none⟩ [x, g]
    let f := function ⟨5, none, none⟩ [x] p .empty
    let a := tuple ⟨6, none, none⟩ [g, f]
    let g' := tuple ⟨7, none, none⟩ [z]
    let p' := tuple ⟨8, none, none⟩ [y, g']
    let h := function ⟨9, none, none⟩ [y] p' .empty
    let b := tuple ⟨10, none, none⟩ [g', h]
    (∀ x y, a.Holds x → b.Holds y → CoherentAll [x, y] ∧ y.BindsVariables ∧ x.ScopesApart) ∧
      a.equal b = a.direct b ∧ a.equal b = true := by
  intro x y z g p f a g' p' h b
  let nodes := [a, b, f, h, p, p', g, g', x, y, z]
  have hclosed : ∀ e ∈ nodes, ∀ c ∈ e.children, c ∈ nodes := by
    simp [nodes, a, b, f, h, p, p', g, g', x, y, z, children]
  have hheld : ∀ e ∈ nodes, e.attrExprs = [] := by
    simp [nodes, a, b, f, h, p, p', g, g', x, y, z, attrExprs, Dict.exprs, Dict.empty]
  have hself : ∀ r ∈ nodes, ∀ e, r.Holds e → e = r := by
    intro r hr e he
    induction he with
    | refl => rfl
    | attr _ hd hx ih =>
      rw [hheld _ (Reaches.mem_of_closed hd (ih ▸ hr) hclosed)] at hx
      cases hx
  have hroots : ∀ r ∈ [a, b], r ∈ nodes := by simp [nodes]
  have hcoherent : CoherentAll [a, b] := coherentAll_of_closed hroots hclosed (by decide)
  have hvars : b.BindsVariables := by
    intro e he
    have hparams : ∀ e ∈ nodes, ∀ q ∈ e.params, q.var?.isSome = true := by
      simp [nodes, a, b, f, h, p, p', g, g', x, y, z, params, var?]
    exact hparams e (he.mem_of_closed (hroots b (by simp)) hclosed)
  have happart : a.ScopesApart := by
    let places := [([], a), ([], g), ([], f), ([], z), ([0], x), ([0], p), ([0], g), ([0], z)]
    have hplaces : ∀ q ∈ places, ∀ c ∈ q.2.children, (q.2.binders ++ q.1, c) ∈ places := by
      simp [places, a, f, p, g, x, z, children, binders, params, varIds, var?]
    intro e bound houter hinner v hv
    have hout : ([], e) ∈ places := houter.mem_of_closed (by simp [places]) hplaces
    have hin : (bound, e) ∈ places := hinner.mem_of_closed (by simp [places]) hplaces
    have hzero : ∀ q ∈ places, ∀ v ∈ q.1, v = 0 := by simp [places]
    have hmeet : ∀ q ∈ places, ∀ r ∈ places, q.1 = [] → r.1 ≠ [] → q.2 = r.2 → q.2 ∈ [g, z] := by
      simp [places, a, f, p, g, x, z]
    obtain rfl := hzero _ hin v hv
    have he : e ∈ [g, z] := hmeet _ hout _ hin rfl (List.ne_nil_of_mem hv) rfl
    rintro ⟨d, w, hd, hw, hid⟩
    have hparts : ∀ e ∈ [g, z], ∀ c ∈ e.children, c ∈ [g, z] := by simp [g, z, children]
    have hfree : ∀ e ∈ [g, z], ∀ w ∈ e.var?, w.id ≠ 0 := by simp [g, z, var?]
    exact hfree d (hd.mem_of_closed he hparts) w hw hid
  have hall : ∀ c d, a.Holds c → b.Holds d → CoherentAll [c, d] ∧ d.BindsVariables ∧ c.ScopesApart := by
    intro c d hc hd
    obtain rfl := hself a (hroots a (by simp)) c hc
    obtain rfl := hself b (hroots b (by simp)) d hd
    exact ⟨hcoherent, hvars, happart⟩
  exact ⟨hall, (equal_eq_direct a b).2 hall, by decide +kernel⟩

/-- Otherwise it need not be: two expressions that are equal outside are taken for equal inside of functions that bind
a variable of theirs. -/
theorem equal_ne_direct_of_recorded_pair :
    let x := var ⟨0, none, none⟩ ⟨0, "x"⟩
    let y := var ⟨1, none, none⟩ ⟨1, "y"⟩
    let exp := op ⟨2, none, none⟩ ⟨"exp", some 1⟩
    let e := call ⟨3, none, none⟩ exp [x] none
    let e' := call ⟨4, none, none⟩ exp [x] none
    let f := function ⟨5, none, none⟩ [x] e .empty
    let h := function ⟨6, none, none⟩ [y] e' .empty
    let a := tuple ⟨7, none, none⟩ [e, f]
    let b := tuple ⟨8, none, none⟩ [e', h]
    CoherentAll [a, b] ∧ f.equal h = false ∧ a.equal b = true ∧ a.direct b = false := by
  intro x y exp e e' f h a b
  refine ⟨?_, by decide +kernel, by decide +kernel, by decide +kernel⟩
  refine @coherentAll_of_closed [a, b] [a, b, f, h, e, e', exp, x, y] (by simp) ?_ (by decide)
  simp [a, b, f, h, e, e', exp, x, y, children]

end Expr
end Dataflow
