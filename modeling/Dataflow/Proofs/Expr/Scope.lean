import Dataflow.Proofs.Expr.Order
/-!
# The scope of variables

A function binds its parameters in its inputs.  `Free` and `Binds` say of a variable that it occurs outside of every
function that binds it, and that some function binds it.  Expressions are `WellScoped` together when no function binds
a variable twice or once more inside a function that binds it, and no variable is bound at one place and free at
another.  `Inside` is what that comes to at a node below functions that bind given variables.
-/
namespace Dataflow
namespace Expr

/-- **Induction over the inputs of nodes.** -/
theorem children_induction {motive : Expr → Prop} (step : ∀ e, (∀ c ∈ e.children, motive c) → motive e) (e : Expr) :
    motive e :=
  step e fun c _ => children_induction step c
termination_by e.treeSize
decreasing_by exact treeSize_lt_of_mem_children ‹_›

/-- Nodes with one number are one node, in all of some expressions together. -/
def CoherentAll (roots : List Expr) : Prop :=
  ∀ a b, (∃ r ∈ roots, r.Reaches a) → (∃ r ∈ roots, r.Reaches b) → a.id = b.id → a = b

theorem Reaches.mem_of_closed {r e : Expr} {es : List Expr} (h : r.Reaches e) (hr : r ∈ es)
    (hes : ∀ e ∈ es, ∀ c ∈ e.children, c ∈ es) : e ∈ es := by
  induction h with
  | refl => exact hr
  | child _ hc ih => exact hes _ ih _ hc

theorem coherentAll_of_closed {roots es : List Expr} (hroots : ∀ r ∈ roots, r ∈ es)
    (hes : ∀ e ∈ es, ∀ c ∈ e.children, c ∈ es) (hid : (es.map Expr.id).Nodup) : CoherentAll roots :=
  fun _ _ ⟨r, hr, ha⟩ ⟨s, hs, hb⟩ hab =>
    List.inj_on_of_nodup_map hid (ha.mem_of_closed (hroots r hr) hes) (hb.mem_of_closed (hroots s hs) hes) hab

def params : Expr → List Expr
  | function _ ps _ _ => ps
  | _ => []

/-- The variables among some expressions. -/
def varIds (ps : List Expr) : List Nat := ps.filterMap fun p => p.var?.map Var.id

/-- The variables that a node binds in its inputs. -/
def binders (e : Expr) : List Nat := varIds e.params

/-- A variable occurs where no function binds it. -/
inductive Free (v : Nat) : Expr → Prop
  | var {i : NodeInfo} {x : Var} : x.id = v → Free v (.var i x)
  | child {e c : Expr} : c ∈ e.children → Free v c → v ∉ e.binders → Free v e

/-- A variable is a parameter of some function. -/
def Binds (root : Expr) (v : Nat) : Prop := ∃ e, root.Reaches e ∧ v ∈ e.binders

/-- Below functions that bind the variables `bound`, parameters are variables, and no function has a parameter twice
or one that is bound already. -/
inductive Scoped : List Nat → Expr → Prop
  | node {bound : List Nat} {e : Expr} : (∀ p ∈ e.params, p.var?.isSome = true) → e.binders.Nodup →
      e.binders.Disjoint bound → (∀ c ∈ e.children, Scoped (e.binders ++ bound) c) → Scoped bound e

section
variable {i : NodeInfo} {x : Var} {es : List Expr} {body : Expr} {attrs : LiteralDict} {v : Nat} {bound : List Nat}

theorem free_var_iff : (var i x).Free v ↔ x.id = v := by
  constructor
  · intro h
    cases h with
    | var h => exact h
    | child hc => cases hc
  · exact .var

theorem free_tuple_iff : (tuple i es).Free v ↔ ∃ e ∈ es, e.Free v := by
  constructor
  · intro h
    cases h with
    | child hc hfree => exact ⟨_, hc, hfree⟩
  · rintro ⟨e, he, hfree⟩
    exact .child he hfree (List.not_mem_nil)

theorem free_function_iff : (function i es body attrs).Free v ↔
    v ∉ varIds es ∧ ((∃ p ∈ es, p.Free v) ∨ body.Free v) := by
  have hparts : ∀ {c}, c ∈ (function i es body attrs).children ↔ c ∈ es ∨ c = body := by simp [children]
  constructor
  · intro h
    cases h with
    | child hc hfree hv =>
      refine ⟨hv, ?_⟩
      rcases hparts.1 hc with hc | rfl
      · exact .inl ⟨_, hc, hfree⟩
      · exact .inr hfree
  · rintro ⟨hv, ⟨p, hp, hfree⟩ | hfree⟩
    · exact .child (hparts.2 (.inl hp)) hfree hv
    · exact .child (hparts.2 (.inr rfl)) hfree hv

theorem scoped_var : (var i x).Scoped bound :=
  .node (List.forall_mem_nil _) .nil (List.disjoint_nil_left bound) (List.forall_mem_nil _)

theorem scoped_tuple_iff : (tuple i es).Scoped bound ↔ ∀ e ∈ es, e.Scoped bound :=
  ⟨fun ⟨_, _, _, hinner⟩ => hinner,
    fun hinner => .node (List.forall_mem_nil _) .nil (List.disjoint_nil_left bound) hinner⟩

theorem scoped_function_iff : (function i es body attrs).Scoped bound ↔
    (∀ p ∈ es, p.var?.isSome = true) ∧ (varIds es).Nodup ∧ (varIds es).Disjoint bound ∧
      body.Scoped (varIds es ++ bound) := by
  constructor
  · rintro ⟨hparams, hnodup, hdisjoint, hinner⟩
    exact ⟨hparams, hnodup, hdisjoint, hinner body (by simp [children])⟩
  · rintro ⟨hparams, hnodup, hdisjoint, hinner⟩
    refine .node hparams hnodup hdisjoint fun c hc => ?_
    rcases List.mem_append.1 hc with hc | hc
    · have hvar := hparams c hc
      cases c with
      | var => exact scoped_var
      | _ => cases hvar
    · obtain rfl := List.mem_singleton.1 hc
      exact hinner

end

/-- Expressions in which scopes do not overlap, and no parameter is free in any of them. -/
structure WellScoped (es : List Expr) : Prop where
  scopes : ∀ e ∈ es, e.Scoped []
  apart : ∀ e ∈ es, ∀ f ∈ es, ∀ v, e.Binds v → ¬f.Free v

/-- A node below functions that bind the variables `bound`, where `taken` holds of every parameter there is. -/
structure Inside (taken : Nat → Prop) (root : Expr) (bound : List Nat) (e : Expr) : Prop where
  reaches : root.Reaches e
  scopes : e.Scoped bound
  nodup : bound.Nodup
  free : ∀ v, e.Free v → taken v → v ∈ bound
  bound : ∀ v ∈ bound, taken v

theorem CoherentAll.mono {es fs : List Expr} (h : CoherentAll es) (hfs : ∀ f ∈ fs, f ∈ es) : CoherentAll fs :=
  fun a b ⟨r, hr, hra⟩ ⟨s, hs, hsb⟩ => h a b ⟨r, hfs r hr, hra⟩ ⟨s, hfs s hs, hsb⟩

theorem CoherentAll.coherent {root : Expr} {es : List Expr} (h : CoherentAll es) (hroot : root ∈ es) : root.Coherent :=
  fun a b ha hb => h a b ⟨root, hroot, ha⟩ ⟨root, hroot, hb⟩

theorem WellScoped.mono {es fs : List Expr} (h : WellScoped es) (hfs : ∀ f ∈ fs, f ∈ es) : WellScoped fs :=
  ⟨fun e he => h.scopes e (hfs e he), fun e he f hf => h.apart e (hfs e he) f (hfs f hf)⟩

theorem length_varIds {ps : List Expr} (h : ∀ p ∈ ps, p.var?.isSome = true) : (varIds ps).length = ps.length :=
  List.filterMap_length_eq_length.2 fun p hp => by simpa using h p hp

variable {taken : Nat → Prop} {root e c : Expr} {bound : List Nat} {v : Nat}

theorem Inside.child (h : Inside taken root bound e) (htaken : ∀ v, root.Binds v → taken v) (hc : c ∈ e.children) :
    Inside taken root (e.binders ++ bound) c := by
  obtain ⟨_, hnodup, hdisjoint, hinner⟩ := h.scopes
  refine ⟨h.reaches.child hc, hinner c hc, hnodup.append h.nodup hdisjoint, fun v hv ht => ?_, fun v hv => ?_⟩
  · rw [List.mem_append]
    by_cases hb : v ∈ e.binders
    · exact .inl hb
    · exact .inr (h.free v (.child hc hv hb) ht)
  · rcases List.mem_append.1 hv with hv | hv
    · exact htaken v ⟨e, h.reaches, hv⟩
    · exact h.bound v hv

theorem inside_root {es : List Expr} (h : WellScoped es) (hroot : root ∈ es) :
    Inside (fun v => ∃ e ∈ es, e.Binds v) root [] root := by
  refine ⟨.refl, h.scopes root hroot, .nil, ?_, List.forall_mem_nil _⟩
  rintro v hv ⟨e, he, hb⟩
  exact absurd hv (h.apart e he root hroot v hb)

end Expr
end Dataflow
