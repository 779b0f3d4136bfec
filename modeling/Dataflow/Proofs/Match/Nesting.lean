import Dataflow.Proofs.Graph.Dominated
import Dataflow.Proofs.Match.Congruence
import Dataflow.Proofs.Match.Induction
/-!
# How deep visits are nested

A visit is one layer of work around visits of other patterns (`visit_eq_visitBy`), and what these do counts only where
the layer can ask for it (`visitBy_congr`): for the parts of the pattern, and for its re-associations at the expression
it looks at.  Parts are smaller.  A re-association is as large as the pattern but has none of its own there, so after
one of them the visits go down (`Calls.nesting_lt`).  The expressions do not matter, and following variables may lead
back to where it began.
-/
namespace Dataflow
namespace MatchContext

open MatchM

/-! ## What a visit can ask for -/

section
variable {c : MatchContext} {v w : Pattern → Expr → MatchM Bool} {path parent : Pattern}

theorem visitAllBy_congr : ∀ {ps : List Pattern} (_ : ∀ p ∈ ps, v p = w p) (es : List Expr),
    visitAllBy v ps es = visitAllBy w ps es
  | [], _, [] => by rw [visitAllBy, visitAllBy]
  | [], _, _ :: _ | _ :: _, _, [] => by rw [visitAllBy, visitAllBy] <;> simp
  | p :: ps, h, e :: es => by
    rw [List.forall_mem_cons] at h
    rw [visitAllBy, visitAllBy, h.1, visitAllBy_congr h.2]

theorem visitPathBy_congr (hpath : v path = w path) (hparent : v parent = w parent) (e : Expr) :
    c.visitPathBy v path parent e = c.visitPathBy w path parent e := by
  rw [visitPathBy, visitPathBy, hpath, hparent]
  refine bind_congr fun _ => ?_
  congr 1
  funext input
  simp only [visitPathBy_congr hpath hparent input.1]
termination_by e.treeSize
decreasing_by exact Expr.treeSize_lt_of_mem_dataInputs input.2

theorem anyM_congr {α : Type} {f g : α → MatchM Bool} : ∀ {as : List α}, (∀ a ∈ as, f a = g a) → as.anyM f = as.anyM g
  | [], _ => rfl
  | a :: as, h => by
    rw [List.forall_mem_cons] at h
    rw [List.anyM_cons, List.anyM_cons, h.1, anyM_congr h.2]

theorem allM_congr {α : Type} {f g : α → MatchM Bool} : ∀ {as : List α}, (∀ a ∈ as, f a = g a) → as.allM f = as.allM g
  | [], _ => rfl
  | a :: as, h => by
    rw [List.forall_mem_cons] at h
    rw [List.allM_cons, List.allM_cons, h.1, allM_congr h.2]

/-- **What a visit can ask for**: the parts of the pattern, and re-associations at the expression it looks at. -/
inductive Calls (c : MatchContext) : Pattern × Expr → Pattern × Expr → Prop
  | part {p q : Pattern} (e f : Expr) : q ∈ p.children → c.Calls (p, e) (q, f)
  | again {p q : Pattern} {e : Expr} {n : Nat} : q ∈ Pattern.reassociations n p (c.follow e) →
      c.Calls (p, e) (q, c.follow e)

theorem formBy_congr {p : Pattern} {e : Expr} (hpart : ∀ q ∈ p.children, v q = w q)
    (hagain : reassociatedBy v p e = reassociatedBy w p e) : c.formBy v p e = c.formBy w p e := by
  have hreverse : ∀ {qs : List Pattern}, (∀ q ∈ qs, v q = w q) → ∀ q ∈ qs.reverse, v q = w q := fun hqs q hq =>
    hqs q (List.mem_reverse.1 hq)
  cases p <;> simp only [Pattern.children, List.forall_mem_cons, List.forall_mem_append] at hpart <;>
    cases e <;> simp only [formBy]
  case tuple.tuple => exact visitAllBy_congr hpart _
  case item.item => rw [hpart.1]
  case function.function => rw [visitAllBy_congr hpart.1, hpart.2.1]
  case anyFunction.function => rw [hpart.1]
  case cond.cond => rw [hpart.1, hpart.2.1, hpart.2.2.1]
  case call.call => rw [hpart.1, visitAllBy_congr hpart.2, visitAllBy_congr (hreverse hpart.2), hagain]
  case anyCall.call => rw [hpart.1]

theorem ruleBy_congr {p : Pattern} {e : Expr} (h : ∀ q f, c.Calls (p, e) (q, f) → v q f = w q f) :
    c.ruleBy v p e = c.ruleBy w p e := by
  have hpart : ∀ q ∈ p.children, v q = w q := fun q hq => funext fun f => h q f (.part e f hq)
  have hagain : reassociatedBy v p (c.follow e) = reassociatedBy w p (c.follow e) :=
    bind_congr fun n => anyM_congr fun q hq => h q _ (.again hq)
  have hform := c.formBy_congr hpart hagain
  cases p with
  | either | both | negation | hasAttrs | hasType | hasShape | hasDType =>
    simp only [Pattern.children, List.forall_mem_cons] at hpart
    simp only [ruleBy, hpart]
  | dominator _ child path parent =>
    simp only [Pattern.children, List.forall_mem_cons] at hpart
    simp only [ruleBy, dominatesParentBy, hpart, visitPathBy_congr hpart.2.1 hpart.2.2.1]
  | _ => simp only [ruleBy, hform]

/-- **The layer asks for nothing else.** -/
theorem visitBy_congr {p : Pattern} {e : Expr} (h : ∀ q f, c.Calls (p, e) (q, f) → v q f = w q f) :
    c.visitBy v p e = c.visitBy w p e := by
  rw [visitBy, visitBy, ruleBy_congr h]

end

/-! ## Nested visits -/

section
variable (c : MatchContext)

/-- How deep visits can be nested in a visit, itself included. -/
def nesting (p : Pattern) (e : Expr) : Nat :=
  if Pattern.reassociations 0 p (c.follow e) = [] then 2 * p.size - 1 else 2 * p.size

variable {c} {p q : Pattern} {e f : Expr}

theorem nesting_le : c.nesting p e ≤ 2 * p.size := by
  unfold nesting
  split <;> omega

theorem lt_nesting (p : Pattern) (e : Expr) : 2 * p.size - 2 < c.nesting p e := by
  have := p.size_pos
  unfold nesting
  split <;> omega

theorem follow_follow_of_reassociations {n : Nat} (hq : q ∈ Pattern.reassociations n p (c.follow e)) :
    c.follow (c.follow e) = c.follow e :=
  c.follow_of_var?_eq_none (Pattern.var?_of_mem_reassociations hq)

/-- **Visits go down**: to smaller patterns, or once to one of the same size that has no re-associations. -/
theorem Calls.nesting_lt (h : c.Calls (p, e) (q, f)) : c.nesting q f < c.nesting p e := by
  cases h with
  | part _ _ hq =>
    have hle := c.nesting_le (p := q) (e := f)
    have hlt := c.lt_nesting p e
    have := Pattern.size_lt_of_mem_children hq
    omega
  | again hq =>
    rename_i n
    have hp : Pattern.reassociations 0 p (c.follow e) ≠ [] := by
      rw [← List.length_pos_iff, Pattern.length_reassociations 0 n]
      exact List.length_pos_of_mem hq
    rw [nesting, nesting, if_neg hp, follow_follow_of_reassociations hq, Pattern.reassociations_of_mem hq,
      if_pos rfl, Pattern.size_of_mem_reassociations hq]
    have := p.size_pos
    omega

theorem wellFounded_calls (c : MatchContext) : WellFounded fun b a => c.Calls a b :=
  Subrelation.wf (fun h => Calls.nesting_lt h) (measure fun a : Pattern × Expr => c.nesting a.1 a.2).wf

theorem length_le_of_isChain : ∀ {chain : List (Pattern × Expr)} {p : Pattern} {e : Expr},
    ((p, e) :: chain).IsChain c.Calls → chain.length + 1 ≤ c.nesting p e
  | [], p, e, _ => by
    have := c.lt_nesting p e
    rw [List.length_nil]
    omega
  | (q, f) :: chain, p, e, h => by
    rw [List.isChain_cons_cons] at h
    have hlt := h.1.nesting_lt
    have := length_le_of_isChain h.2
    rw [List.length_cons]
    omega

/-- Visits that are nested at most `n` deep; deeper ones are `bottom`. -/
def visitWithin (c : MatchContext) (bottom : Pattern → Expr → MatchM Bool) : Nat → Pattern → Expr → MatchM Bool
  | 0 => bottom
  | n + 1 => c.visitBy (c.visitWithin bottom n)

theorem visitWithin_eq_visit (bottom : Pattern → Expr → MatchM Bool) : ∀ (n : Nat) (p : Pattern) (e : Expr),
    c.nesting p e ≤ n → c.visitWithin bottom n p e = c.visit p e
  | 0, p, e, h => by
    have := c.lt_nesting p e
    omega
  | n + 1, p, e, h => by
    rw [visitWithin, visit_eq_visitBy]
    refine visitBy_congr fun q f hcall => visitWithin_eq_visit bottom n q f ?_
    have := hcall.nesting_lt
    omega

end

/-! ## After a re-association -/

section
variable {c : MatchContext} {v : Pattern → Expr → MatchM Bool} {p q : Pattern} {e : Expr} {n : Nat}

theorem exists_call_of_mem_reassociations (hq : q ∈ Pattern.reassociations n p e) :
    ∃ i callee args j f es attrs, q = .call i callee args ∧ e = .call j f es attrs := by
  obtain ⟨k, callee, a, b, -, -, -, -, -, rfl, -⟩ := Pattern.reaches_of_mem_reassociations hq
  cases e with
  | call j f es attrs => exact ⟨_, _, _, _, _, _, _, rfl, rfl⟩
  | _ =>
    rw [Pattern.reassociations] at hq
    simp only [Expr.nests, Bool.false_eq_true, if_false] at hq
    split at hq <;> split at hq <;> exact absurd hq List.not_mem_nil

/-- A re-association whose callee does not match is not re-associated: it only takes identities. -/
theorem reassociatedBy_of_mem (hq : q ∈ Pattern.reassociations n p e) :
    reassociatedBy v q e = takeFresh Pattern.reassociationIds >>= fun _ => pure false := by
  rw [reassociatedBy]
  refine bind_congr fun fresh => ?_
  rw [Pattern.reassociations_of_mem hq]
  rfl

/-- **After a re-association the callee of the new pattern decides**: where it does not match, nothing else is tried. -/
theorem ruleBy_of_mem_reassociations (hq : q ∈ Pattern.reassociations n p (c.follow e)) :
    ∃ i callee args j f es attrs, q = .call i callee args ∧ c.follow e = .call j f es attrs ∧
      ∀ s s' : Session, (v callee f).run s = (.ok false, s') → (c.ruleBy v q (c.follow e)).run s = (.ok false,
        { s' with fresh := if c.config.associative then s'.fresh + Pattern.reassociationIds else s'.fresh }) := by
  obtain ⟨i, callee, args, j, f, es, attrs, rfl, hf⟩ := exists_call_of_mem_reassociations hq
  have hagain := reassociatedBy_of_mem (v := v) hq
  have hfollow := follow_follow_of_reassociations hq
  have hstuck : c.isStuck (c.follow e) = false := by
    rw [isStuck, Pattern.var?_of_mem_reassociations hq]
    simp
  refine ⟨i, callee, args, j, f, es, attrs, rfl, hf, fun s s' hcallee => ?_⟩
  simp only [ruleBy]
  rw [hfollow, checkFollow, if_neg (by simp [hstuck]), pure_bind]
  rw [hf] at hagain ⊢
  rw [formBy, run_bind, hcallee]
  cases c.config.associative with
  | false => rfl
  | true =>
    simp only [Bool.false_eq_true, if_false, if_true, hagain]
    rfl

end

/-! ## Walks in the dependency graph -/

section
variable {c : MatchContext} {root e d : Expr} {path parent : Pattern} {i : Nat}

/-- A walk along a path goes to smaller positions. -/
theorem position?_lt_of_mem_dataInputs (h : root.Coherent) (he : root.Reaches e)
    (hi : (DependencyGraph.ofExpr root).position? e = some i) (hd : d ∈ e.dataInputs) :
    ∃ j, (DependencyGraph.ofExpr root).position? d = some j ∧ j < i := by
  have hchild : d ∈ e.children := (List.mem_filter.1 hd).1
  obtain ⟨j, hji, hj⟩ := Expr.exists_input_before h ((DependencyGraph.position?_eq_some_iff h he).1 hi) hchild
  exact ⟨j, (DependencyGraph.position?_eq_some_iff h (he.child hchild)).2 hj, hji⟩

/-- A walk that is at most `n` steps deep; deeper ones are `bottom`. -/
def visitPathWithin (c : MatchContext) (bottom : Expr → MatchM Bool) (path parent : Pattern) : Nat → Expr → MatchM Bool
  | 0 => bottom
  | n + 1 => c.pathStep c.visit (c.visitPathWithin bottom path parent n) path parent

theorem visitPathWithin_eq_visitPath (h : root.Coherent) (bottom : Expr → MatchM Bool) :
    ∀ (n : Nat) (e : Expr) (i : Nat), root.Reaches e → (DependencyGraph.ofExpr root).position? e = some i → i < n →
      c.visitPathWithin bottom path parent n e = c.visitPath path parent e
  | 0, _, _, _, _, hin => absurd hin (Nat.not_lt_zero _)
  | n + 1, e, i, he, hi, hin => by
    rw [visitPathWithin, ← visitPathBy_visit, visitPathBy_eq, pathStep, pathStep]
    refine bind_congr fun _ => allM_congr fun d hd => ?_
    obtain ⟨j, hj, hji⟩ := position?_lt_of_mem_dataInputs h he hi hd
    rw [visitPathWithin_eq_visitPath h bottom n d j (he.child (List.mem_filter.1 hd).1) hj (by omega),
      visitPathBy_visit]

end

/-! ## The recursion as a whole -/

/-- Nested visits go down, whatever variables are followed to. -/
structure Ends (c : MatchContext) : Prop where
  layer : ∀ p e, c.visit p e = c.visitBy c.visit p e
  /-- A layer depends on nested visits as far as it can ask for them. -/
  asks : ∀ v w p e, (∀ q f, c.Calls (p, e) (q, f) → v q f = w q f) → c.visitBy v p e = c.visitBy w p e
  wellFounded : WellFounded fun b a => c.Calls a b
  /-- There are at most twice as many nested visits as the pattern has positions. -/
  chain : ∀ p e chain, ((p, e) :: chain).IsChain c.Calls → chain.length + 1 ≤ 2 * p.size
  /-- What deeper visits would do is of no account. -/
  depth : ∀ bottom n p e, 2 * p.size ≤ n → c.visitWithin bottom n p e = c.visit p e
  /-- A re-association has no re-associations, and its callee has to match. -/
  again : ∀ n p q e, q ∈ Pattern.reassociations n p (c.follow e) →
    (∀ m, Pattern.reassociations m q (c.follow e) = []) ∧
    ∃ i callee args j f es attrs, q = .call i callee args ∧ c.follow e = .call j f es attrs ∧
      ∀ s s' : Session, (c.visit callee f).run s = (.ok false, s') →
        (c.ruleBy c.visit q (c.follow e)).run s = (.ok false,
          { s' with fresh := if c.config.associative then s'.fresh + Pattern.reassociationIds else s'.fresh })
  /-- A walk along a path goes to smaller positions and is not deeper than the one where it begins. -/
  path : ∀ root, root.Coherent → ∀ e i, root.Reaches e → (DependencyGraph.ofExpr root).position? e = some i →
    (∀ d ∈ e.dataInputs, ∃ j, (DependencyGraph.ofExpr root).position? d = some j ∧ j < i) ∧
    ∀ bottom path parent n, i < n → c.visitPathWithin bottom path parent n e = c.visitPath path parent e
  /-- A search below a position goes to smaller ones and to none of them twice. -/
  search : ∀ root, root.Coherent → ∀ i, (∀ j ∈ (DependencyGraph.ofExpr root).dominatorChildren i, j < i) ∧
    (∀ j ∈ (DependencyGraph.ofExpr root).dominatedBy i, j < i) ∧ ((DependencyGraph.ofExpr root).dominatedBy i).Nodup

/-- **Matching ends.**  Visits are nested at most twice as deep as the pattern has positions, for any expression, with
variables followed to any values.  No re-association follows another, and where the callee of the new pattern does not
match, it fails at once.  The walk and the search of a dominator pattern go down in the dependency graph. -/
theorem ends (c : MatchContext) : c.Ends where
  layer := visit_eq_visitBy
  asks _ _ _ _ := visitBy_congr
  wellFounded := wellFounded_calls c
  chain _ _ _ h := Nat.le_trans (length_le_of_isChain h) nesting_le
  depth bottom n p e h := visitWithin_eq_visit bottom n p e (Nat.le_trans nesting_le h)
  again _ _ _ _ hq := ⟨fun _ => Pattern.reassociations_of_mem hq, ruleBy_of_mem_reassociations hq⟩
  path _ h e i he hi := ⟨fun _ => position?_lt_of_mem_dataInputs h he hi, fun bottom _ _ n hin =>
    visitPathWithin_eq_visitPath h bottom n e i he hi hin⟩
  search _ h i := ⟨fun _ => DependencyGraph.lt_of_mem_dominatorChildren h,
    fun _ => DependencyGraph.lt_of_mem_dominatedBy h, DependencyGraph.nodup_dominatedBy h i⟩

/-- A tuple of `x` is looked for in `x` twice, which is bound to a tuple of itself. -/
example :
    let v : Var := ⟨0, "x"⟩
    let x := Expr.var ⟨0, none, none⟩ v
    let b := Bindings.empty.set v (.tuple ⟨1, none, none⟩ [x])
    let p := Pattern.tuple (.given 0) [.tuple (.given 1) [.wildcard (.given 2)]]
    p.isMatch .empty x (some b) = .ok true := by
  cbv

end MatchContext
end Dataflow
