import Dataflow.Match.Matcher
import Dataflow.Proofs.Expr.Direct
/-!
# Copies

`Expr.bare` is the tree of an expression without what a copy may change: the numbers and annotations of nodes, and with
the numbers what is shared, also in the attributes, and the texts of variables, which their numbers stand for.  Two
expressions with one such tree are copies of each other.

A copy is structurally equal (`equal_of_bare_eq`).  On the way down the pairing pairs every variable with itself: the
parameters of a function are those of its copy, and one that is bound already keeps its partner, which is itself.
-/
namespace Dataflow

/-- The node data of a tree without numbers and annotations. -/
def NodeInfo.blank : NodeInfo := ⟨0, none, none⟩

mutual
/-- The tree of an expression. -/
def Expr.bare : Expr → Expr
  | .constant _ c => .constant .blank c
  | .var _ v => .var .blank ⟨v.id, ""⟩
  | .external _ s => .external .blank s
  | .op _ o => .op .blank o
  | .call _ f args attrs => .call .blank f.bare (Expr.bareAll args) (AttrValue.bareAttrs attrs)
  | .tuple _ fs => .tuple .blank (Expr.bareAll fs)
  | .item _ t k => .item .blank t.bare k
  | .function _ ps body attrs => .function .blank (Expr.bareAll ps) body.bare (Literal.bareDict attrs)
  | .cond _ c t e => .cond .blank c.bare t.bare e.bare
  | .dims _ ds => .dims .blank ds
termination_by structural e => e

def Expr.bareAll : List Expr → List Expr
  | [] => []
  | e :: es => e.bare :: Expr.bareAll es
termination_by structural es => es

def Literal.bare : Literal → Literal
  | .expr e => .expr e.bare
  | .array ls => .array (Literal.bareAll ls)
  | l => l
termination_by structural l => l

def Literal.bareAll : List Literal → List Literal
  | [] => []
  | l :: ls => l.bare :: Literal.bareAll ls
termination_by structural ls => ls

def Literal.bareEntries : List (String × Literal) → List (String × Literal)
  | [] => []
  | (n, l) :: entries => (n, l.bare) :: Literal.bareEntries entries
termination_by structural entries => entries

def Literal.bareDict : Dict Literal → Dict Literal
  | ⟨entries⟩ => ⟨Literal.bareEntries entries⟩
termination_by structural d => d

def AttrValue.bare : AttrValue → AttrValue
  | .literal l => .literal l.bare
  | v => v
termination_by structural v => v

def AttrValue.bareFields : List (String × AttrValue) → List (String × AttrValue)
  | [] => []
  | (n, v) :: fields => (n, v.bare) :: AttrValue.bareFields fields
termination_by structural fields => fields

def AttrValue.bareAttrs : Option (Record AttrValue) → Option (Record AttrValue)
  | none => none
  | some ⟨key, fields⟩ => some ⟨key, AttrValue.bareFields fields⟩
termination_by structural attrs => attrs
end

/-! ## Attributes -/

mutual
theorem Literal.direct_of_bare_eq : ∀ l m : Literal, l.bare = m.bare →
    (∀ x ∈ l.exprs, ∀ y : Expr, x.bare = y.bare → x.direct y = true) → l.direct m = true
  | .int _, m, h, _ | .float _, m, h, _ | .stringImm _, m, h, _ | .string _, m, h, _ | .dtype _, m, h, _
  | .prim _, m, h, _ | .type _, m, h, _ => by
    cases m <;> cases h
    exact beq_self_eq_true _
  | .expr x, m, h, hx => by
    cases m with
    | expr y => exact hx x (by simp [Literal.exprs]) y (Literal.expr.inj h)
    | _ => cases h
  | .array ls, m, h, hx => by
    cases m with
    | array ms =>
      obtain ⟨hlength, hall⟩ := Literal.directAll_of_bare_eq ls ms (Literal.array.inj h) hx
      rw [Literal.direct, Bool.and_eq_true, beq_iff_eq]
      exact ⟨hlength, hall⟩
    | _ => cases h
theorem Literal.directAll_of_bare_eq : ∀ ls ms : List Literal, Literal.bareAll ls = Literal.bareAll ms →
    (∀ x ∈ Literal.exprsAll ls, ∀ y : Expr, x.bare = y.bare → x.direct y = true) →
      ls.length = ms.length ∧ Literal.directAll ls ms = true
  | [], [], _, _ => ⟨rfl, rfl⟩
  | [], _ :: _, h, _ | _ :: _, [], h, _ => by cases h
  | l :: ls, m :: ms, h, hx => by
    obtain ⟨hl, hls⟩ := List.cons.inj h
    have hhead := Literal.direct_of_bare_eq l m hl fun x hm => hx x (List.mem_append_left _ hm)
    obtain ⟨hlength, htail⟩ :=
      Literal.directAll_of_bare_eq ls ms hls fun x hm => hx x (List.mem_append_right _ hm)
    rw [Literal.directAll, Bool.and_eq_true]
    exact ⟨congrArg Nat.succ hlength, hhead, htail⟩
end

theorem Literal.directEntries_of_bare_eq : ∀ xs ys : List (String × Literal),
    Literal.bareEntries xs = Literal.bareEntries ys →
    (∀ x ∈ xs.flatMap fun entry => entry.2.exprs, ∀ y : Expr, x.bare = y.bare → x.direct y = true) →
      xs.length = ys.length ∧ Literal.directEntries xs ys = true
  | [], [], _, _ => ⟨rfl, rfl⟩
  | [], _ :: _, h, _ | _ :: _, [], h, _ => by cases h
  | (n, l) :: xs, (k, m) :: ys, h, hx => by
    obtain ⟨hl, hxs⟩ := List.cons.inj h
    obtain ⟨rfl, hlm⟩ := Prod.mk.inj hl
    have hhead := Literal.direct_of_bare_eq l m hlm fun x hm => hx x (List.mem_append_left _ hm)
    obtain ⟨hlength, htail⟩ := directEntries_of_bare_eq xs ys hxs fun x hm => hx x (List.mem_append_right _ hm)
    rw [Literal.directEntries, Bool.and_eq_true, Bool.and_eq_true]
    exact ⟨congrArg Nat.succ hlength, beq_self_eq_true n, hhead, htail⟩

theorem AttrValue.direct_of_bare_eq (v w : AttrValue) (h : v.bare = w.bare)
    (hx : ∀ x ∈ v.exprs, ∀ y : Expr, x.bare = y.bare → x.direct y = true) : v.direct w = true := by
  cases v with
  | literal l =>
    cases w with
    | literal m => exact Literal.direct_of_bare_eq l m (AttrValue.literal.inj h) hx
    | _ => cases h
  | null =>
    cases w with
    | null => rfl
    | _ => cases h
  | _ =>
    cases w <;> cases h
    exact beq_self_eq_true _

theorem AttrValue.directFields_of_bare_eq : ∀ xs ys : List (String × AttrValue),
    AttrValue.bareFields xs = AttrValue.bareFields ys →
    (∀ x ∈ xs.flatMap fun field => field.2.exprs, ∀ y : Expr, x.bare = y.bare → x.direct y = true) →
      xs.length = ys.length ∧ AttrValue.directFields xs ys = true
  | [], [], _, _ => ⟨rfl, rfl⟩
  | [], _ :: _, h, _ | _ :: _, [], h, _ => by cases h
  | (n, v) :: xs, (k, w) :: ys, h, hx => by
    obtain ⟨hv, hxs⟩ := List.cons.inj h
    obtain ⟨rfl, hvw⟩ := Prod.mk.inj hv
    have hhead := AttrValue.direct_of_bare_eq v w hvw fun x hm => hx x (List.mem_append_left _ hm)
    obtain ⟨hlength, htail⟩ := directFields_of_bare_eq xs ys hxs fun x hm => hx x (List.mem_append_right _ hm)
    rw [AttrValue.directFields, Bool.and_eq_true, Bool.and_eq_true]
    exact ⟨congrArg Nat.succ hlength, beq_self_eq_true n, hhead, htail⟩

/-- A parameter gets a partner unless it has one. -/
theorem Pairing.lookup_extend (pairing : Pairing) (v x y : Nat) :
    List.lookup v (if (pairing.lookup x).isNone then (x, y) :: pairing else pairing) =
      (pairing.lookup v).or (if v = x then some y else none) := by
  by_cases hv : v = x
  · subst hv
    cases h : pairing.lookup v <;> simp [h]
  · have hne : (v == x) = false := by simpa using hv
    rw [if_neg hv, Option.or_none]
    split
    · rw [List.lookup_cons, hne]
    · rfl

namespace Expr

variable {pairing : Pairing} {a b e : Expr} {v : Nat}

/-! ## Nodes -/

theorem bareAll_eq_map : ∀ es : List Expr, bareAll es = es.map bare
  | [] => rfl
  | e :: es => by rw [bareAll, bareAll_eq_map es, List.map_cons]

/-- An annotated copy of a node is a copy. -/
@[simp] theorem bare_withInfo (i : NodeInfo) (e : Expr) : (e.withInfo i).bare = e.bare := by cases e <;> rfl

theorem children_bare (e : Expr) : e.bare.children = e.children.map bare := by
  cases e <;> simp [bare, children, bareAll_eq_map]

theorem params_bare (e : Expr) : e.bare.params = e.params.map bare := by
  cases e <;> simp [bare, params, bareAll_eq_map]

theorem var?_bare (e : Expr) : e.bare.var?.map Var.id = e.var?.map Var.id := by cases e <;> rfl

theorem forall₂_bare_eq {as bs : List Expr} (h : as.map bare = bs.map bare) :
    List.Forall₂ (fun a b => a.bare = b.bare) as bs := by
  rw [← List.forall₂_eq_eq_eq, List.forall₂_map_left_iff, List.forall₂_map_right_iff] at h
  exact h

theorem forall₂_children_of_bare_eq (h : a.bare = b.bare) :
    List.Forall₂ (fun c d => c.bare = d.bare) a.children b.children :=
  forall₂_bare_eq (by rw [← children_bare, ← children_bare, h])

theorem attrsDirect_of_bare_eq (h : a.bare = b.bare)
    (hx : ∀ x ∈ a.attrExprs, ∀ y : Expr, x.bare = y.bare → x.direct y = true) : a.attrsDirect b = true := by
  cases a with
  | call _ _ _ attrs =>
    cases b with
    | call _ _ _ bttrs =>
      obtain ⟨-, -, -, hattrs⟩ := call.inj h
      cases attrs with
      | none =>
        cases bttrs with
        | none => rfl
        | some => cases hattrs
      | some r =>
        cases bttrs with
        | none => cases hattrs
        | some s =>
          obtain ⟨hkey, hfields⟩ := Record.mk.inj (Option.some.inj hattrs)
          obtain ⟨hlength, hall⟩ := AttrValue.directFields_of_bare_eq _ _ hfields hx
          show (r.typeKey == s.typeKey && r.fields.length == s.fields.length && _) = true
          rw [hall, Bool.and_true, Bool.and_eq_true, beq_iff_eq, beq_iff_eq]
          exact ⟨hkey, hlength⟩
    | _ => cases h
  | function _ _ _ d =>
    cases b with
    | function _ _ _ e =>
      obtain ⟨xs⟩ := d
      obtain ⟨ys⟩ := e
      obtain ⟨hlength, hall⟩ := Literal.directEntries_of_bare_eq xs ys (Dict.mk.inj (function.inj h).2.2.2) hx
      show (xs.length == ys.length && _) = true
      rw [hall, Bool.and_true, beq_iff_eq]
      exact hlength
    | _ => cases h
  | _ => rfl

theorem formsAgree_of_bare_eq (h : a.bare = b.bare) (hvar : ∀ v ∈ a.var?, (pairing.lookup v.id).getD v.id = v.id) :
    a.formsAgree pairing b = true := by
  have hlength : ∀ {es fs : List Expr}, bareAll es = bareAll fs → (es.length == fs.length) = true := by
    intro es fs hes
    rw [bareAll_eq_map, bareAll_eq_map] at hes
    simpa using congrArg List.length hes
  cases a with
  | var _ v =>
    cases b with
    | var _ w =>
      have hid : v.id = w.id := (Var.mk.inj (var.inj h).2).1
      rw [formsAgree, Pairing.relates, hvar v rfl, beq_iff_eq]
      exact hid
    | _ => cases h
  | call =>
    cases b with
    | call => exact hlength (call.inj h).2.2.1
    | _ => cases h
  | tuple =>
    cases b with
    | tuple => exact hlength (tuple.inj h).2
    | _ => cases h
  | function =>
    cases b with
    | function => exact hlength (function.inj h).2.1
    | _ => cases h
  | item =>
    cases b with
    | item => exact beq_iff_eq.2 (item.inj h).2.2
    | _ => cases h
  | cond =>
    cases b with
    | cond => rfl
    | _ => cases h
  | constant | external | op | dims => cases b <;> simp_all [bare, formsAgree]

/-! ## Variables -/

/-- A variable occurs in an expression, attributes aside. -/
def Mentions (e : Expr) (v : Nat) : Prop := ∃ d w, e.Reaches d ∧ d.var? = some w ∧ w.id = v

theorem mentions_of_var? {w : Var} (h : e.var? = some w) : e.Mentions w.id := ⟨e, w, .refl, h, rfl⟩

theorem Reaches.mentions {c : Expr} (h : e.Reaches c) (hc : c.Mentions v) : e.Mentions v := by
  obtain ⟨d, w, hd, hw, hv⟩ := hc
  exact ⟨d, w, h.trans hd, hw, hv⟩

/-- A variable that is paired with itself is so below the parameters of a function and of its copy. -/
theorem lookup_enter_of_bare_eq : ∀ {ps qs : List Expr} {pairing : Pairing},
    List.Forall₂ (fun p q => p.bare = q.bare) ps qs → (pairing.lookup v).getD v = v →
      ((pairing.enter ps qs).lookup v).getD v = v
  | [], [], _, .nil, hself => hself
  | p :: ps, q :: qs, pairing, .cons hpq hrest, hself => by
    have hids : p.var?.map Var.id = q.var?.map Var.id := by rw [← var?_bare p, ← var?_bare q, hpq]
    rw [Pairing.enter]
    cases hp : p.var? with
    | none => exact lookup_enter_of_bare_eq hrest hself
    | some x =>
      cases hq : q.var? with
      | none => exact lookup_enter_of_bare_eq hrest hself
      | some y =>
        have hxy : x.id = y.id := by simpa [hp, hq] using hids
        refine lookup_enter_of_bare_eq hrest ?_
        rw [Pairing.lookup_extend, ← hxy]
        cases hv : pairing.lookup v with
        | none =>
          rw [Option.none_or]
          split <;> simp_all
        | some w => rwa [hv] at hself

/-! ## The comparison of copies -/

/-- Copies are equal without a memory below a pairing that pairs with itself what they mention. -/
theorem directUnder_of_bare_eq (h : a.bare = b.bare) (hself : ∀ v, a.Mentions v → (pairing.lookup v).getD v = v) :
    a.directUnder pairing b = true := by
  induction hn : sizeOf a using Nat.strongRecOn generalizing a b pairing with
  | ind n ih =>
    subst hn
    have hforms := formsAgree_of_bare_eq h fun v hv => hself v.id (mentions_of_var? hv)
    have hattrs : a.attrsDirect b = true := by
      refine attrsDirect_of_bare_eq h fun x hx y hxy => ?_
      exact ih _ (sizeOf_lt_of_mem_attrExprs hx) hxy (fun _ _ => rfl) rfl
    have hparams : List.Forall₂ (fun p q => p.bare = q.bare) a.params b.params :=
      forall₂_bare_eq (by rw [← params_bare, ← params_bare, h])
    have hmem := (List.forall₂_and_left _ _).2 ⟨fun c hc => hc, forall₂_children_of_bare_eq h⟩
    refine directUnder_iff.2 (.inr ⟨by rw [hforms, hattrs]; rfl, hmem.imp fun c d ⟨hc, hcd⟩ => ?_⟩)
    refine ih _ (sizeOf_lt_of_mem_children hc) hcd (fun v hv => ?_) rfl
    exact lookup_enter_of_bare_eq hparams (hself v ((Reaches.refl.child hc).mentions hv))

theorem direct_of_bare_eq (h : a.bare = b.bare) : a.direct b = true :=
  directUnder_of_bare_eq h fun _ _ => rfl

end Expr

/-- The pattern for an expression matches whatever is structurally equal to it, in every matcher that can begin. -/
theorem Matcher.run_expr {e e' : Expr} (m : Matcher) (registry : Registry) (i : PatternId)
    (hm : m.config.autoJump = true → m.bindings.isSome = true) (h : e.equal e' = true) :
    (m.run registry (.expr i e) e').1 = .ok true := by
  have hready : ¬(m.config.autoJump && m.bindings.isNone) = true := by
    rw [Bool.and_eq_true]
    rintro ⟨hjump, hnone⟩
    have hsome := hm hjump
    simp_all
  have hvisit : (m.context registry).visit (.expr i e) e' = MatchM.attempt (.expr i e) e' (do
      if e.equal e' then return true
      MatchM.checkFollow (m.context registry) e'
      return ((m.context registry).follow e').id != e'.id && e.equal ((m.context registry).follow e')) :=
    MatchContext.visit.eq_def ..
  have hanswer : (((m.context registry).visit (.expr i e) e').run .initial).1 = .ok true := by
    rw [hvisit, if_pos h]
    rfl
  rw [Matcher.run, if_neg hready]
  exact hanswer

namespace Expr

/-- **Every expression is structurally equal to its copies**, and a pattern for it matches all of them. -/
theorem equal_of_bare_eq (e e' : Expr) (h : e.bare = e'.bare) : e.equal e' = true ∧
    ∀ (m : Matcher) (registry : Registry) (i : PatternId), (m.config.autoJump = true → m.bindings.isSome = true) →
      (m.run registry (.expr i e) e').1 = .ok true := by
  have hequal : e.equal e' = true := equal_of_direct (direct_of_bare_eq h)
  exact ⟨hequal, fun m registry i hm => m.run_expr registry i hm hequal⟩

/-- A function with a parameter twice, around one that binds it again and with one in its attributes, against a copy in
which nothing is shared and some nodes are annotated. -/
theorem equal_of_unshared_copy :
    let nan : Tensor := ⟨.scalar .float64, [], [.float ⟨0x7ff8000000000000⟩]⟩
    let x := fun k => var ⟨k, none, none⟩ ⟨0, "x"⟩
    let c := constant ⟨1, none, none⟩ nan
    let inner := function ⟨2, none, none⟩ [x 0] (tuple ⟨3, none, none⟩ [x 0, c, c]) .empty
    let body := tuple ⟨4, none, none⟩ [inner, var ⟨5, none, none⟩ ⟨1, "y"⟩, inner]
    let step := function ⟨6, none, none⟩ [x 0] (x 0) .empty
    let e := function ⟨7, none, none⟩ [x 0, x 0] body ⟨[("step", .expr step)]⟩
    let inner' := fun k => function ⟨k, some .object, none⟩ [x (k + 1)]
      (tuple ⟨k + 2, none, some .runtime⟩
        [x (k + 3), constant ⟨k + 4, none, none⟩ nan, constant ⟨k + 5, none, none⟩ nan]) .empty
    let body' := tuple ⟨8, none, none⟩ [inner' 20, var ⟨9, some .object, none⟩ ⟨1, "y"⟩, inner' 30]
    let step' := function ⟨10, none, none⟩ [x 11] (x 12) .empty
    let e' := function ⟨13, none, none⟩ [x 14, x 15] body' ⟨[("step", .expr step')]⟩
    e.bare = e'.bare ∧ e.equal e' = true ∧
      ∀ registry, (Pattern.expr (.given 0) e).isMatch registry e' none = .ok true := by
  intro nan x c inner body step e inner' body' step' e'
  have hbare : e.bare = e'.bare := rfl
  obtain ⟨hequal, hmatch⟩ := equal_of_bare_eq e e' hbare
  exact ⟨hbare, hequal, fun registry => hmatch (Pattern.matcher none) registry _ (by decide)⟩

end Expr
end Dataflow
