import Dataflow.Proofs.Match.History
import Dataflow.Proofs.Match.Substitute
import Mathlib.Logic.Relation
/-!
# A variable and its value

A match of a variable that is followed to its value goes side by side with a match of the value.  At the root, the one
has the variable where the other has the value, and it passes the variable on to what does not ask for a form; below
the root, both see the same.  They agree on whether a pattern that is bound already is bound to the right node because
nothing that is found below the root is the variable or the value again (`Aliases.inside`): a way back to it would go
around in the bindings (`Acyclic.not_transGen_self`).  A re-association is tried on the value in both.
-/
namespace Dataflow

open Relation

/-! ## Ways through inputs and values -/

/-- An input, or the value of a variable. -/
def Expr.Leads (b : Bindings) (e f : Expr) : Prop := f ∈ e.children ∨ e.var?.bind b.value? = some f

namespace Bindings

/-- No variable with a value can be reached from its value. -/
def Acyclic (b : Bindings) : Prop :=
  ∀ v u, b.value? v = some u → ∀ i w, w.id = v.id → ¬ReflTransGen (Expr.Leads b) u (.var i w)

variable {b : Bindings} {e f : Expr}

/-- A way goes down in an expression, unless it comes to a value. -/
theorem treeSize_lt_or_passes_value (h : TransGen (Expr.Leads b) e f) : f.treeSize < e.treeSize ∨
    ∃ i v u, ReflTransGen (Expr.Leads b) e (.var i v) ∧ b.value? v = some u ∧ ReflTransGen (Expr.Leads b) u f := by
  have hvalue : ∀ {d f : Expr}, d.var?.bind b.value? = some f → ∃ i v, d = .var i v ∧ b.value? v = some f :=
      fun {d f} h => by
    cases d with
    | var i v => exact ⟨i, v, rfl, h⟩
    | _ => cases h
  induction h with
  | single h =>
    rcases h with h | h
    · exact .inl (Expr.treeSize_lt_of_mem_children h)
    · obtain ⟨i, v, rfl, hv⟩ := hvalue h
      exact .inr ⟨i, v, _, .refl, hv, .refl⟩
  | @tail d f hd h ih =>
    rcases h with h | h
    · rcases ih with ih | ⟨i, v, u, hv, hu, hud⟩
      · exact .inl (Nat.lt_trans (Expr.treeSize_lt_of_mem_children h) ih)
      · exact .inr ⟨i, v, u, hv, hu, hud.tail (.inl h)⟩
    · obtain ⟨i, v, rfl, hv⟩ := hvalue h
      exact .inr ⟨i, v, _, hd.to_reflTransGen, hv, .refl⟩

/-- There is no way from an expression back to it. -/
theorem Acyclic.not_transGen_self (hb : b.Acyclic) : ¬TransGen (Expr.Leads b) e e := fun h => by
  rcases treeSize_lt_or_passes_value h with hlt | ⟨i, v, u, hv, hu, hue⟩
  · exact Nat.lt_irrefl _ hlt
  · exact hb v u hu i v rfl (hue.trans hv)

end Bindings

/-! ## Patterns that do not ask for a variable itself -/

namespace Pattern

/-- Does not ask what a variable is, what type or shape it has, or what dominates it, and refers to no node of `v`. -/
def asksValue (v : Var) : Pattern → Bool
  | var .. | hasType .. | hasShape .. | hasDType .. | runtimeShape _ | dominator .. => false
  | expr _ target => target.var?.all fun w => w.id != v.id
  | _ => true

/-- The nodes that a match of `e` can come to, and those that a pattern refers to. -/
def Meets (p : Pattern) (b : Bindings) (e d : Expr) : Prop :=
  ReflTransGen (Expr.Leads b) e d ∨ ∃ i, p.Reaches (.expr i d)

/-- A pattern as it is during a match: it refers to expressions that are known, does not ask for a variable itself, and
what was made during the match is calls. -/
structure Looks (v : Var) (known : Expr → Prop) (p : Pattern) : Prop where
  asks : ∀ q, p.Reaches q → q.asksValue v = true
  target : ∀ i t, p.Reaches (.expr i t) → known t
  made : ∀ q, p.Reaches q → (∃ i callee args, q = .call i callee args) ∨
    (∃ n, q.id = .given n) ∧ ∀ r ∈ q.children, ∃ n, r.id = .given n

variable {v : Var} {known : Expr → Prop} {p q : Pattern} {n : Nat} {e : Expr}

theorem Looks.child (h : p.Looks v known) (hq : q ∈ p.children) : q.Looks v known :=
  have hreaches : ∀ d, q.Reaches d → p.Reaches d := fun _ hd => (Reaches.refl.child hq).trans hd
  ⟨fun d hd => h.asks d (hreaches d hd), fun i t ht => h.target i t (hreaches _ ht),
    fun d hd => h.made d (hreaches d hd)⟩

theorem Looks.of_mem_reassociations (h : p.Looks v known) (hq : q ∈ reassociations n p e) : q.Looks v known := by
  refine ⟨fun d hd => ?_, fun i t ht => ?_, fun d hd => ?_⟩
  · rcases reaches_or_call_of_mem_reassociations hq hd with hd | ⟨i, callee, args, rfl⟩
    · exact h.asks d hd
    · rfl
  · exact h.target i t (reaches_of_mem_reassociations_of_ne_call hq ht (by simp))
  · rcases reaches_or_call_of_mem_reassociations hq hd with hd | ⟨k, callee, args, hcall⟩
    · exact h.made d hd
    · exact .inl ⟨_, callee, args, hcall⟩

theorem containsDominator_eq_false_of_asksValue (h : ∀ q, p.Reaches q → q.asksValue v = true) :
    p.containsDominator = false := by
  by_contra hd
  obtain ⟨i, child, path, parent, hr⟩ := exists_reaches_of_containsDominator (by simpa using hd)
  have := h _ hr
  cases this

end Pattern

/-- What equals a variable is a node of it. -/
theorem Expr.equal_var_eq_false {target : Expr} {i : NodeInfo} {v : Var} (h : target.var?.all (·.id != v.id) = true)
    (hid : target.id ≠ i.id) : target.equal (.var i v) = false := by
  have hnew : ¬((target.id == (Expr.var i v).id && ([] : Pairing).isEmpty) = true ∨
      (∅ : Proven).contains (target.id, (Expr.var i v).id) = true) := by
    simp [show target.id ≠ (Expr.var i v).id from hid]
  rw [equal, equalUnder.eq_def, Proven.run_remember, if_neg hnew]
  cases target with
  | var j w =>
    have hne : (w.id == v.id) = false := by simpa [var?] using h
    exact hne
  | _ => rfl

/-! ## Sessions side by side -/

/-- What a pattern is bound to in the match of `x`, where it is bound to `e` in the match of the value of `x`.  What is
made during a match never sees `x`. -/
def standIn (x value : Expr) (i : PatternId) (e : Expr) : Expr :=
  match i with
  | .given _ => if e.id = value.id then x else e
  | .derived _ => e

/-- The binding that takes the place of one in the match of the value of `x`. -/
def Binding.standIn (x value : Expr) (b : Binding) : Binding :=
  ⟨b.pattern, Dataflow.standIn x value b.pattern.id b.expr⟩

section
variable {x value d e : Expr} {i : PatternId}

theorem standIn_of_ne (h : e.id ≠ value.id) : standIn x value i e = e := by
  cases i with
  | given => exact if_neg h
  | derived => rfl

theorem standIn_value_or : standIn x value i value = x ∨ standIn x value i value = value := by
  cases i with
  | given => exact .inl (if_pos rfl)
  | derived => exact .inr rfl

theorem standIn_beq (hd : d.id ≠ x.id) (he : e.id ≠ x.id) :
    ((standIn x value i d).id == (standIn x value i e).id) = (d.id == e.id) := by
  cases i with
  | derived => rfl
  | given =>
    unfold standIn
    by_cases hdv : d.id = value.id <;> by_cases hev : e.id = value.id <;> simp_all [eq_comm]

end

/-- The sessions of a match of `x` and of a match of its value. -/
structure Session.Beside (x value : Expr) (s t : Session) : Prop where
  fresh : t.fresh = s.fresh
  memoize : t.memoize = s.memoize
  bound : ∀ i, s.trail.get? i = (t.trail.get? i).map (standIn x value i)
  /-- The match of the value never comes to `x`. -/
  apart : ∀ i e, t.trail.get? i = some e → e.id ≠ x.id
  committed : ∃ new, s.trail = Trail.empty.commitAll (new.map (.standIn x value)) ∧ t.trail = Trail.empty.commitAll new

namespace Session.Beside

variable {x value e : Expr} {s s' t t' : Session}

theorem initial : Session.initial.Beside x value .initial :=
  ⟨rfl, rfl, fun _ => rfl, fun _ _ h => (by cases h), [], rfl, rfl⟩

instance : Lockstep 0 0 (Session.Beside x value) where
  start_le _ := Nat.zero_le _
  fresh h := h.fresh
  takeFresh n h := ⟨by simp only [h.fresh], h.memoize, h.bound, h.apart, h.committed⟩
  withTrail h h' := ⟨h'.fresh, h'.memoize, h.bound, h.apart, h.committed⟩

theorem bind (h : s.Beside x value t) (p : Pattern) (he : e.id ≠ x.id) :
    (s.bind p (standIn x value p.id e)).Beside x value (t.bind p e) := by
  rw [Session.bind, Session.bind]
  split
  · exact h
  · obtain ⟨new, hs, ht⟩ := h.committed
    refine ⟨h.fresh, h.memoize, fun i => ?_, fun i d hd => ?_, new ++ [⟨p, e⟩], ?_, ?_⟩
    · rw [Trail.get?_commit, Trail.get?_commit, h.bound i]
      split
      · subst i
        cases t.trail.get? p.id <;> rfl
      · rfl
    · rw [Trail.get?_commit] at hd
      split at hd
      · cases ht' : t.trail.get? i with
        | none =>
          rw [ht'] at hd
          exact Option.some.inj hd ▸ he
        | some d' =>
          rw [ht'] at hd
          exact Option.some.inj hd ▸ h.apart i d' ht'
      · exact h.apart i d hd
    · rw [List.map_append, List.map_singleton, Trail.commitAll_concat, ← hs]
      rfl
    · rw [Trail.commitAll_concat, ← ht]

end Session.Beside

namespace MatchM

theorem Simulates.attempt_beside {x value e : Expr} {p : Pattern} {m m' : MatchM Bool}
    (hm : Simulates (Session.Beside x value) m m') (he : e.id ≠ x.id) :
    Simulates (Session.Beside x value) (MatchM.attempt p (standIn x value p.id e) m) (MatchM.attempt p e m') := by
  refine hm.attempt (fun s t hst => ?_) fun s t hst => hst.bind p he
  rw [hst.memoize, hst.bound]
  cases s.memoize with
  | false => rfl
  | true =>
    cases ht : t.trail.get? p.id with
    | none => rfl
    | some d => simp [standIn_beq (hst.apart _ d ht) he]

end MatchM

/-! ## The two matches -/

/-- `x` is a variable with a value that is no such variable again; no variable is reached from its value; and `known`
expressions, among which are those that the value leads to, have numbers of their own. -/
structure Aliases (b : Bindings) (known : Expr → Prop) (v : Var) (x value : Expr) : Prop where
  var : ∃ i, x = .var i v
  bound : b.value? v = some value
  last : value.var?.bind b.value? = none
  acyclic : b.Acyclic
  known_var : known x
  known_of_reaches : ∀ f, ReflTransGen (Expr.Leads b) value f → known f
  coherent : ∀ d e, known d → known e → d.id = e.id → d = e

namespace Aliases

variable {b : Bindings} {known : Expr → Prop} {v : Var} {x value f : Expr}

theorem id_ne_var (h : Aliases b known v x value) (hf : ReflTransGen (Expr.Leads b) value f) : f.id ≠ x.id := by
  intro hid
  obtain ⟨i, hx⟩ := h.var
  rw [h.coherent f x (h.known_of_reaches f hf) h.known_var hid, hx] at hf
  exact h.acyclic v value h.bound i v rfl hf

/-- **Below the root there is neither the value nor the variable.** -/
theorem inside (h : Aliases b known v x value) (hf : TransGen (Expr.Leads b) value f) : f.id ≠ value.id := by
  intro hid
  have hvalue := h.known_of_reaches value .refl
  rw [h.coherent f value (h.known_of_reaches f hf.to_reflTransGen) hvalue hid] at hf
  exact h.acyclic.not_transGen_self hf

end Aliases

namespace MatchContext

open MatchM

variable {c : MatchContext} {b : Bindings} {known : Expr → Prop} {v : Var} {x value : Expr}

theorem checkFollow_following (c : MatchContext) (b : Bindings) (e : Expr) :
    checkFollow (c.following b) e = pure () := by
  rw [checkFollow, if_neg]
  rw [isStuck_eq_false (by simp [following])]
  exact Bool.false_ne_true

theorem follow_root (h : Aliases b known v x value) {e : Expr} (he : e = x ∨ e = value) :
    (c.following b).follow e = value := by
  obtain ⟨i, hx⟩ := h.var
  rcases he with rfl | rfl
  · rw [follow_following, hx]
    exact congrArg (Option.getD · _) h.bound
  · rw [follow_following, h.last]
    rfl

theorem leads_follow (c : MatchContext) (b : Bindings) (e : Expr) :
    ReflTransGen (Expr.Leads b) e ((c.following b).follow e) := by
  rw [follow_following]
  cases he : e.var?.bind b.value? with
  | none => exact .refl
  | some u => exact .single (.inr he)

theorem transGen_of_passesOn {e f : Expr} (he : TransGen (Expr.Leads b) value e)
    (hf : (c.following b).PassesOn e f) : TransGen (Expr.Leads b) value f := by
  rcases hf with rfl | hf
  · exact he
  · exact (he.trans_left (leads_follow c b e)).tail (.inl hf)

theorem rename_shift_zero (p : Pattern) : p.rename (.shift 0 0) = p := Pattern.rename_eq_self fun i _ => by
  cases i <;> simp [PatternId.shift]

/-- At the root, the rules of the two matches go side by side if the visits in them do. -/
theorem simulates_rule_value (h : Aliases b known v x value) {p : Pattern} (hp : p.Looks v known)
    (hself : ∀ q ∈ p.children, Simulates (Session.Beside x value)
      ((c.following b).visit q (standIn x value q.id value)) ((c.following b).visit q value))
    (hbelow : ∀ q ∈ p.children, ∀ f ∈ value.children, Simulates (Session.Beside x value)
      ((c.following b).visit q f) ((c.following b).visit q f))
    (hagain : Simulates (Session.Beside x value) ((c.following b).visitReassociated p value)
      ((c.following b).visitReassociated p value)) :
    Simulates (Session.Beside x value)
      ((c.following b).ruleBy (c.following b).visit p (standIn x value p.id value))
      ((c.following b).ruleBy (c.following b).visit p value) := by
  have hc := Simulates.congruence (Session.Beside x value) (c.following b)
  have hx : (c.following b).follow (standIn x value p.id value) = value := follow_root h standIn_value_or
  have hvalue : (c.following b).follow value = value := follow_root h (.inr rfl)
  have hcheck : ∀ {e : Expr} {m m' : MatchM Bool}, Simulates (Session.Beside x value) m m' →
      Simulates (Session.Beside x value) (checkFollow (c.following b) e >>= fun _ => m)
        (checkFollow (c.following b) value >>= fun _ => m') := fun {e _ _} hm => by
    rw [checkFollow_following, checkFollow_following]
    exact hc.bind (hc.pure ()) fun _ => hm
  have hform : Simulates (Session.Beside x value) ((c.following b).formBy (c.following b).visit p value)
      ((c.following b).formBy (c.following b).visit p value) := by
    have := hc.formBy (σ := .shift 0 0) c.graph p value (fun q hq f hf => by
      rw [rename_shift_zero]
      exact hbelow q hq f hf) (by
      rw [rename_shift_zero]
      exact hagain)
    rwa [rename_shift_zero] at this
  -- what passes the expression on was given, and so were its parts: they see the variable
  have hgiven : ∀ n, standIn x value (.given n) value = x := fun _ => if_pos rfl
  have hasks := hp.asks p .refl
  rcases hp.made p .refl with ⟨i, callee, args, rfl⟩ | ⟨⟨n, hn⟩, hparts⟩
  · simp only [ruleBy, hx, hvalue]
    exact hcheck hform
  rw [hn, hgiven] at hx ⊢
  have hpass : ∀ q ∈ p.children, Simulates (Session.Beside x value) ((c.following b).visit q x)
      ((c.following b).visit q value) := fun q hq => by
    obtain ⟨k, hk⟩ := hparts q hq
    have := hself q hq
    rwa [hk, hgiven] at this
  cases p with
  | var | hasType | hasShape | hasDType | runtimeShape | dominator => cases hasks
  | wildcard => exact hc.pure true
  | either _ l r => exact hc.or (hpass l (by simp [Pattern.children])) (hpass r (by simp [Pattern.children]))
  | both _ l r => exact hc.and (hpass l (by simp [Pattern.children])) (hpass r (by simp [Pattern.children]))
  | negation _ q => exact hc.bind (hpass q (by simp [Pattern.children])) fun _ => hc.pure _
  | expr i target =>
    obtain ⟨j, hj⟩ := h.var
    have hne : (value.id != x.id) = true := bne_iff_ne.2 (h.id_ne_var .refl)
    have htarget : target.equal x = false := by
      rw [hj]
      refine Expr.equal_var_eq_false hasks fun hid => ?_
      have := h.coherent target x (hp.target i target .refl) h.known_var (hj ▸ hid)
      rw [this, hj] at hasks
      simp [Pattern.asksValue, Expr.var?] at hasks
    simp only [ruleBy, hx, hvalue, htarget, checkFollow_following, pure_bind, Bool.false_eq_true, if_false]
    rw [hne, Bool.true_and]
    cases target.equal value with
    | true => exact hc.pure true
    | false =>
      rw [Bool.and_false]
      exact hc.pure false
  | hasAttrs _ q attrs =>
    simp only [ruleBy, hx, hvalue]
    exact hc.and (hpass q (by simp [Pattern.children])) (hcheck .heldBy)
  | _ =>
    simp only [ruleBy, hx, hvalue]
    exact hcheck hform

/-- **A match of a variable and a match of its value go side by side.** -/
theorem simulates_visit_value (h : Aliases b known v x value) (p : Pattern) (e : Expr) :
    p.Looks v known → ReflTransGen (Expr.Leads b) value e → Simulates (Session.Beside x value)
      ((c.following b).visit p (standIn x value p.id e)) ((c.following b).visit p e) := by
  induction p, e using (c.following b).visit_induction with
  | step p e parts again =>
    intro hp he
    have hbelow : ∀ q ∈ p.children, ∀ f, TransGen (Expr.Leads b) value f → Simulates (Session.Beside x value)
        ((c.following b).visit q f) ((c.following b).visit q f) := fun q hq f hf => by
      have := parts q hq f (hp.child hq) hf.to_reflTransGen
      rwa [standIn_of_ne (h.inside hf)] at this
    have hagain : Simulates (Session.Beside x value) ((c.following b).visitReassociated p ((c.following b).follow e))
        ((c.following b).visitReassociated p ((c.following b).follow e)) := by
      have hmade : ∀ n, ∀ q ∈ Pattern.reassociations n p ((c.following b).follow e), Simulates (Session.Beside x value)
          ((c.following b).visit q ((c.following b).follow e))
          ((c.following b).visit (q.rename (.shift 0 0)) ((c.following b).follow e)) := fun n q hq => by
        have hsame := again n q hq (hp.of_mem_reassociations hq) (he.trans (leads_follow c b e))
        obtain ⟨k, callee, y, z, -, -, -, -, -, rfl, -⟩ := Pattern.reaches_of_mem_reassociations hq
        rw [rename_shift_zero]
        exact hsame
      have := Simulates.visitReassociated fun n _ => hmade n
      rwa [rename_shift_zero] at this
    have hne : e.id ≠ x.id := h.id_ne_var he
    rcases reflTransGen_iff_eq_or_transGen.1 he with rfl | hinside
    · have hvalue : (c.following b).follow e = e := follow_root h (.inr rfl)
      rw [hvalue] at hagain
      have hrule := simulates_rule_value h hp (fun q hq => parts q hq e (hp.child hq) .refl)
        (fun q hq f hf => hbelow q hq f (.single (.inl hf))) hagain
      rw [visit_eq_visitBy, visit_eq_visitBy]
      exact hrule.attempt_beside hne
    · have hrule := (Simulates.congruence (Session.Beside x value) (c.following b)).ruleBy (σ := .shift 0 0)
        (c.following b) rfl p e
        (fun q hq f hf => by
          rw [rename_shift_zero]
          exact hbelow q hq f (transGen_of_passesOn hinside hf))
        (by
          rw [rename_shift_zero]
          exact hagain)
        (fun _ _ _ _ => .heldBy) fun i child path parent hdominator => by
          have := hp.asks _ .refl
          rw [hdominator] at this
          cases this
      rw [rename_shift_zero] at hrule
      have := hrule.attempt_beside (p := p) hne
      rw [standIn_of_ne (h.inside hinside)] at this ⊢
      rw [visit_eq_visitBy]
      exact this

end MatchContext

/-! ## Verdicts and bindings -/

/-- First bindings are found by the identities of patterns. -/
theorem Trail.firstBindings_map {f : Binding → Binding} (hf : ∀ b, (f b).pattern = b.pattern) (bs : List Binding) :
    (empty.commitAll (bs.map f)).firstBindings = (empty.commitAll bs).firstBindings.map f := by
  induction bs using List.reverseRecOn with
  | nil => rfl
  | append_singleton bs b ih =>
    rw [List.map_append, List.map_singleton, commitAll_concat, commitAll_concat, firstBindings_commit,
      firstBindings_commit, ih, List.any_map]
    simp only [Function.comp_def, hf]
    split
    · rfl
    · rw [List.map_append, List.map_singleton, ← show Binding.mk b.pattern (f b).expr = f b by rw [← hf b]]

namespace Bindings

variable {b : Bindings} {e f : Expr} {es : List Expr}

theorem mem_of_leads (h : ReflTransGen (Expr.Leads b) e f) (he : e ∈ es)
    (hes : ∀ d ∈ es, (∀ c ∈ d.children, c ∈ es) ∧ ∀ u, d.var?.bind b.value? = some u → u ∈ es) : f ∈ es := by
  induction h with
  | refl => exact he
  | tail _ hf ih => exact hf.elim ((hes _ ih).1 _) ((hes _ ih).2 _)

/-- Bindings have no cycle if each value stands in a list with all it leads to, and none of that is its variable. -/
theorem acyclic_of_closed (h : ∀ v u, b.value? v = some u → ∃ es : List Expr, u ∈ es ∧
    (∀ d ∈ es, (∀ c ∈ d.children, c ∈ es) ∧ ∀ u, d.var?.bind b.value? = some u → u ∈ es) ∧
    ∀ d ∈ es, d.var?.all (·.id != v.id) = true) : b.Acyclic := by
  intro v u hu i w hw hpath
  obtain ⟨es, hmem, hes, hne⟩ := h v u hu
  have := hne _ (mem_of_leads hpath hmem hes)
  simp [Expr.var?, hw] at this

end Bindings

namespace Pattern

open MatchM MatchContext

variable {p : Pattern} {b : Bindings} {v : Var} {value : Expr}

theorem looks_of_numbered {known : Expr → Prop} (hp : p.Numbered) (hasks : ∀ q, p.Reaches q → q.asksValue v = true)
    (htarget : ∀ i t, p.Reaches (.expr i t) → known t) : p.Looks v known :=
  ⟨hasks, htarget, fun q hq => .inr ⟨hp.given q hq, fun _ hr => hp.given _ (hq.child hr)⟩⟩

/-- **Following a variable at the root is transparent.**  For bindings in which no variable is reached from its own
value, a variable `v` with a value that is no such variable again, and a pattern, shared parts included, that does not
ask for a variable, a type, a shape or a dominator anywhere and does not refer to `v`, a match of the variable ends as a
match of the value does.  If they succeed, each pattern is bound to the same in both, but to the variable where the
match of the value has the value; what re-association makes for the root is bound to the value in both. -/
theorem match_variable_eq_match_value (p : Pattern) (hp : p.Numbered) (b : Bindings) (hb : b.Acyclic) (v : Var)
    (value : Expr) (hv : b.value? v = some value) (hvalue : value.var?.bind b.value? = none)
    (hasks : ∀ q, p.Reaches q → q.asksValue v = true) (i : NodeInfo)
    (hnumbers : ∀ d d', p.Meets b (.var i v) d → p.Meets b (.var i v) d' → d.id = d'.id → d = d')
    (registry : Registry) :
    p.isMatch registry (.var i v) (some b) = p.isMatch registry value (some b) ∧
      p.extract registry (.var i v) (some b) =
        (p.extract registry value (some b)).map (Option.map (List.map (.standIn (.var i v) value))) := by
  have hstep : Expr.Leads b (.var i v) value := .inr hv
  have haliases : Aliases b (p.Meets b (.var i v)) v (.var i v) value :=
    ⟨⟨i, rfl⟩, hv, hvalue, hb, .inl .refl, fun f hf => .inl (.head hstep hf), hnumbers⟩
  have hlooks : p.Looks v (p.Meets b (.var i v)) := looks_of_numbered hp hasks fun j t ht => .inr ⟨j, ht⟩
  have hdominator := containsDominator_eq_false_of_asksValue hasks
  have hstuck : ¬((matcher (some b)).config.autoJump && (matcher (some b)).bindings.isNone) = true :=
    Bool.false_ne_true
  have hrun : ∀ e, (matcher (some b)).run registry p e =
      ((((((matcher none).context registry).following b).visit p e).run .initial).1, { matcher (some b) with
        trail := (((((matcher none).context registry).following b).visit p e).run .initial).2.trail }) := fun e => by
    rw [Matcher.run, if_neg hstuck, if_neg (by simp [hdominator])]
    rfl
  have hagree := (simulates_visit_value (c := (matcher none).context registry) haliases p value hlooks .refl).agree
    _ _ .initial
  obtain ⟨n, hn⟩ := hp.given p .refl
  rw [hn, show standIn (.var i v) value (.given n) value = .var i v from if_pos rfl] at hagree
  rw [isMatch, isMatch, extract, extract, hrun, hrun]
  generalize ((((matcher none).context registry).following b).visit p (.var i v)).run .initial = y,
    ((((matcher none).context registry).following b).visit p value).run .initial = z at hagree
  cases hagree with
  | error => exact ⟨rfl, rfl⟩
  | @ok matched s t hst =>
    refine ⟨rfl, ?_⟩
    cases matched with
    | false => rfl
    | true =>
      obtain ⟨new, hs, ht⟩ := hst.committed
      dsimp only
      rw [hs, ht, Trail.firstBindings_map (f := .standIn (.var i v) value) fun _ => rfl]
      rfl

/-- A pair of a variable and of one with a constant as its value, which a variable stands for.  The wildcard is used
twice, at the root and inside. -/
theorem match_variable_of_pair_with_shared_wildcard :
    let y := Expr.var ⟨0, none, none⟩ ⟨0, "y"⟩
    let w : Var := ⟨1, "w"⟩
    let v : Var := ⟨2, "v"⟩
    let four := Expr.constant ⟨1, none, none⟩ ⟨.scalar .int64, [], [.int 4]⟩
    let value := Expr.tuple ⟨3, none, none⟩ [y, .var ⟨2, none, none⟩ w]
    let x := Expr.var ⟨4, none, none⟩ v
    let b := (Bindings.empty.set w four).set v value
    let any := Pattern.wildcard (.given 0)
    let fields := Pattern.tuple (.given 3) [.negation (.given 1) any, .constant (.given 2)]
    let p := Pattern.both (.given 4) any fields
    p.Numbered ∧ b.Acyclic ∧ b.value? v = some value ∧ value.var?.bind b.value? = none ∧
      (∀ q, p.Reaches q → q.asksValue v = true) ∧
      (∀ d d', p.Meets b x d → p.Meets b x d' → d.id = d'.id → d = d') ∧
      p.isMatch .empty value (some b) = .ok true ∧ p.isMatch .empty x (some b) = p.isMatch .empty value (some b) ∧
      p.extract .empty x (some b) =
        (p.extract .empty value (some b)).map (Option.map (List.map (.standIn x value))) := by
  intro y w v four value x b any fields p
  let ps := [p, any, fields, .negation (.given 1) any, .constant (.given 2)]
  have hclosed : ∀ q ∈ ps, ∀ r ∈ q.children, r ∈ ps := by simp [ps, p, fields, any, children]
  have hmem : ∀ q, p.Reaches q → q ∈ ps := fun q hq => hq.mem_of_closed (by simp [ps]) hclosed
  have hp : p.Numbered := by
    refine numbered_of_closed (hmem p .refl) hclosed ?_ (by decide)
    simp [ps, p, fields, any, Pattern.id]
  have hvalues : ∀ z u, b.value? z = some u → z.id = v.id ∧ u = value ∨ z.id = w.id ∧ u = four := by
    intro z u hz
    simp only [b, Bindings.value?_set, Bindings.value?_empty] at hz
    split at hz
    · exact .inl ⟨‹_›, (Option.some.inj hz).symm⟩
    · split at hz
      · exact .inr ⟨‹_›, (Option.some.inj hz).symm⟩
      · cases hz
  let es := [value, y, .var ⟨2, none, none⟩ w, four]
  have hes : ∀ d ∈ es, (∀ c ∈ d.children, c ∈ es) ∧ ∀ u, d.var?.bind b.value? = some u → u ∈ es := by
    simp [es, value, y, four, b, w, v, Expr.children, Expr.var?]
  have hb : b.Acyclic := Bindings.acyclic_of_closed fun z u hz => by
    rcases hvalues z u hz with ⟨hid, rfl⟩ | ⟨hid, rfl⟩
    · refine ⟨es, by simp [es], hes, ?_⟩
      rw [hid]
      decide
    · refine ⟨[four], by simp, ?_, ?_⟩
      · simp [four, Expr.children, Expr.var?]
      · simp [four, Expr.var?]
  have hasks : ∀ q, p.Reaches q → q.asksValue v = true := fun q hq =>
    (by decide : ∀ q ∈ ps, q.asksValue v = true) q (hmem q hq)
  have hmeets : ∀ d, p.Meets b x d → d ∈ x :: es := by
    rintro d (hd | ⟨i, hd⟩)
    · refine Bindings.mem_of_leads hd (by simp) ?_
      simp [es, x, value, y, four, b, w, v, Expr.children, Expr.var?]
    · have := hmem _ hd
      simp [ps, p, fields, any] at this
  have hnumbers : ∀ d d', p.Meets b x d → p.Meets b x d' → d.id = d'.id → d = d' := fun d d' hd hd' =>
    List.inj_on_of_nodup_map (by decide) (hmeets d hd) (hmeets d' hd')
  have hvalue : b.value? v = some value := by simp [b]
  have hmatched : p.isMatch .empty value (some b) = .ok true := by
    subst p fields any b value four
    cbv
  obtain ⟨hsame, hbound⟩ := match_variable_eq_match_value p hp b hb v value hvalue rfl hasks _ hnumbers .empty
  exact ⟨hp, hb, hvalue, rfl, hasks, hnumbers, hmatched, hsame, hbound⟩

end Pattern
end Dataflow
