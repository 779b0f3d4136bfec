import Dataflow.Proofs.Expr.Scope
import Dataflow.Proofs.Graph.PostDominance
import Dataflow.Proofs.Match.Supply
/-!
# A matcher has no memory

Between matches a matcher keeps its last trail and a dependency graph.  The trail is not looked at again.  The graph is
looked at by dominator patterns only (`visit_withGraph`), and before one is matched it is made sure that the graph is
that of the root: whatever roots, patterns and expressions a matcher in use has seen, its graph is that of one of them
(`Used.exists_graph`), so a graph whose root has the right number is the right graph (`Used.graph_prepareGraph`).  What
is left is how far the supply of identities has gone, and that decides only which identities re-association takes.
-/
namespace Dataflow

/-! ## Trails with other identities -/

namespace Trail

def rename (σ : PatternId → PatternId) (t : Trail) : Trail :=
  ⟨t.log.map (.rename σ), t.table.map fun (i, b) => (σ i, b)⟩

variable {σ : PatternId → PatternId}

theorem rename_empty : empty.rename σ = empty := by simp [rename, empty]

theorem addTo_rename (hσ : ∀ {i j}, σ i = σ j ↔ i = j) (i : PatternId) (e : Expr) :
    ∀ table : List (PatternId × Bound), addTo (σ i) e (table.map fun (i, b) => (σ i, b)) =
      (addTo i e table).map fun (i, b) => (σ i, b)
  | [] => rfl
  | (j, b) :: rest => by
    rw [List.map_cons, addTo, addTo, addTo_rename hσ i e rest]
    simp only [hσ]
    split <;> rfl

theorem rename_commit (hσ : ∀ {i j}, σ i = σ j ↔ i = j) (t : Trail) (p : Pattern) (e : Expr) :
    (t.commit p e).rename σ = (t.rename σ).commit (p.rename σ) e := by
  obtain ⟨log, table⟩ := t
  rw [commit, rename, rename, commit, Array.map_push, Pattern.id_rename, addTo_rename hσ]
  rfl

theorem rename_commitAll (hσ : ∀ {i j}, σ i = σ j ↔ i = j) (t : Trail) : ∀ bs : List Binding,
    (t.commitAll bs).rename σ = (t.rename σ).commitAll (bs.map (.rename σ))
  | [] => rfl
  | b :: bs => by
    rw [commitAll_cons, rename_commitAll hσ _ bs, rename_commit hσ]
    rfl

end Trail

/-! ## Only dominator patterns look at the graph -/

namespace MatchContext

open MatchM

theorem congruence_eq (c : MatchContext) : Congruence c fun m m' => m = m' where
  pure _ := rfl
  bind hm hf := by rw [hm, funext hf]
  orUndo := congrArg orUndo
  checkFollow _ := rfl

theorem visit_withGraph (c : MatchContext) (g : Option DependencyGraph) (p : Pattern) (e : Expr)
    (hp : p.containsDominator = false) : (c.withGraph g).visit p e = c.visit p e := by
  have hself : ∀ p : Pattern, p.rename (fun i => i) = p := fun p => Pattern.rename_eq_self fun _ _ => rfl
  induction p, e using c.visit_induction with
  | step p e parts again =>
    have hpart : ∀ q ∈ p.children, ∀ f, c.PassesOn e f →
        c.visit q f = (c.withGraph g).visit (q.rename fun i => i) f := fun q hq f _ => by
      rw [hself, parts q hq f (Pattern.containsDominator_eq_false_of_mem_children hq hp)]
    have hagain : c.visitReassociated p (c.follow e) =
        (c.withGraph g).visitReassociated (p.rename fun i => i) (c.follow e) := by
      rw [hself]
      refine c.congruence_eq.bind rfl fun n => c.congruence_eq.anyM (List.forall₂_same.2 fun q _ => ?_)
      exact (again n q.1 q.2 (Pattern.containsDominator_eq_false_of_mem_reassociations q.2 hp)).symm
    have hrule := c.congruence_eq.ruleBy (c.withGraph g) rfl p e hpart hagain
      (fun _ _ _ _ => rfl) fun i child path parent hd => by
        rw [hd, Pattern.containsDominator] at hp
        cases hp
    rw [hself] at hrule
    rw [visit_eq_visitBy, visit_eq_visitBy, visitBy, visitBy, hrule]

end MatchContext

/-! ## Matchers in use -/

namespace Matcher

/-- The matcher with the graph that a match needs, if it needs one. -/
def prepare (m : Matcher) (p : Pattern) (e : Expr) : Matcher := if p.containsDominator then m.prepareGraph e else m

/-- A match for which the supply of identities has gone on to `n`. -/
def runFrom (m : Matcher) (registry : Registry) (n : Nat) (p : Pattern) (e : Expr) : Except Fault Bool × Matcher :=
  if m.config.autoJump && m.bindings.isNone then (.error .noBindings, m)
  else
    let (answer, s) := (((m.prepare p e).context registry).visit p e).run ⟨.empty, true, n⟩
    (answer, { m.prepare p e with trail := s.trail })

theorem runFrom_zero (m : Matcher) (registry : Registry) (p : Pattern) (e : Expr) :
    m.runFrom registry 0 p e = m.run registry p e := rfl

/-- A new matcher with the same switches, values of variables, oracle and root. -/
def fresh (m : Matcher) : Matcher := { m with graph := none, trail := .empty }

/-- A matcher after it was set up and asked any number of times, for matches and with roots among some expressions. -/
inductive Used (es : List Expr) : Matcher → Prop
  | initial : Used es .initial
  | withConfig {m : Matcher} (config : Config) : Used es m → Used es (m.withConfig config)
  | withBindings {m : Matcher} (bindings : Bindings) : Used es m → Used es (m.withBindings bindings)
  | withOracle {m : Matcher} (oracle : Oracle) : Used es m → Used es (m.withOracle oracle)
  | withRoot {m : Matcher} {root : Expr} : Used es m → root ∈ es → Used es (m.withRoot root)
  | run {m : Matcher} {e : Expr} (registry : Registry) (n : Nat) (p : Pattern) : Used es m → e ∈ es →
      Used es (m.runFrom registry n p e).2

variable {es : List Expr} {m : Matcher} {e root : Expr}

/-- Nothing of a matcher is changed but its graph, which is the one that it had or that of the root. -/
theorem prepare_cases (m : Matcher) (p : Pattern) (e : Expr) :
    m.prepare p e = m ∨ m.prepare p e = { m with graph := some (.ofExpr (m.root.getD e)) } := by
  rw [prepare]
  split
  · exact (m.prepareGraph_cases e).imp_left And.left
  · exact .inl rfl

/-- What a match leaves of a matcher besides its trail. -/
theorem runFrom_keeps (m : Matcher) (registry : Registry) (n : Nat) (p : Pattern) (e : Expr) :
    (m.runFrom registry n p e).2.root = m.root ∧ ((m.runFrom registry n p e).2.graph = m.graph ∨
      (m.runFrom registry n p e).2.graph = some (.ofExpr (m.root.getD e))) := by
  rw [runFrom]
  split
  · exact ⟨rfl, .inl rfl⟩
  · dsimp only
    rcases m.prepare_cases p e with hsame | hnew
    · rw [hsame]
      exact ⟨rfl, .inl rfl⟩
    · rw [hnew]
      exact ⟨rfl, .inr rfl⟩

theorem Used.root_mem (h : m.Used es) : ∀ root, m.root = some root → root ∈ es := by
  induction h with
  | initial => exact fun _ h => by cases h
  | withConfig _ _ ih | withBindings _ _ ih | withOracle _ _ ih => exact ih
  | withRoot _ hroot _ =>
    rintro _ ⟨⟩
    exact hroot
  | run registry n p _ _ ih =>
    rw [(runFrom_keeps ..).1]
    exact ih

/-- Graphs start at the root or at the expression to be matched. -/
theorem Used.start_mem (h : m.Used es) (he : e ∈ es) : m.root.getD e ∈ es := by
  cases hroot : m.root with
  | none => exact he
  | some root => exact h.root_mem root hroot

theorem Used.exists_graph (h : m.Used es) : ∀ g, m.graph = some g → ∃ root ∈ es, g = .ofExpr root := by
  induction h with
  | initial | withRoot => exact fun _ h => by cases h
  | withConfig _ _ ih | withBindings _ _ ih | withOracle _ _ ih => exact ih
  | @run m e registry n p hm he ih =>
    intro g hg
    rcases (m.runFrom_keeps registry n p e).2 with hgraph | hgraph
    · exact ih g (hgraph ▸ hg)
    · exact ⟨_, hm.start_mem he, (Option.some.inj (hgraph.symm.trans hg)).symm⟩

/-- **A graph is kept only if it is the right one.** -/
theorem Used.graph_prepareGraph (h : m.Used es) (hes : Expr.CoherentAll es) (he : e ∈ es) :
    (m.prepareGraph e).graph = some (.ofExpr (m.root.getD e)) := by
  rcases m.prepareGraph_cases e with ⟨hsame, g, hg, hid⟩ | hnew
  · obtain ⟨root, hroot, rfl⟩ := h.exists_graph g hg
    rw [DependencyGraph.root?_ofExpr (hes.coherent hroot)] at hid
    rw [hsame, hg, hes root _ ⟨root, hroot, .refl⟩ ⟨_, h.start_mem he, .refl⟩ (by simpa using hid)]
  · rw [hnew]

theorem context_prepare (m : Matcher) (registry : Registry) (p : Pattern) (e : Expr) :
    (m.prepare p e).context registry = (m.context registry).withGraph (m.prepare p e).graph := by
  rcases m.prepare_cases p e with h | h <;> rw [h] <;> rfl

/-- A matcher in use visits a pattern as a new one does. -/
theorem Used.visit_eq_fresh (h : m.Used es) (hes : Expr.CoherentAll es) (he : e ∈ es) (registry : Registry)
    (p : Pattern) :
    ((m.prepare p e).context registry).visit p e = ((m.fresh.prepare p e).context registry).visit p e := by
  rw [context_prepare, context_prepare]
  cases hp : p.containsDominator with
  | true =>
    rw [prepare, prepare, if_pos hp, if_pos hp, h.graph_prepareGraph hes he]
    rfl
  | false =>
    rw [MatchContext.visit_withGraph _ _ p e hp, MatchContext.visit_withGraph _ _ p e hp]
    exact ((m.context registry).visit_withGraph none p e hp).symm

/-- **A matcher has no memory.**  Whatever a matcher was set up for and asked before, with whatever supply of
identities, a match has the same verdict as the match with a new matcher that is set up alike, or ends in the same
fault; and the trail that it leaves is that of the new matcher, but for the identities of the patterns that
re-association makes, which are as far apart as the supplies were.  All expressions stand for parts of one graph, and
the pattern has nothing that the supplies still have. -/
theorem run_eq_fresh (es : List Expr) (hes : Expr.CoherentAll es) (m : Matcher) (hm : m.Used es) (registry : Registry)
    (n d : Nat) (p : Pattern) (hp : ∀ k, p.Uses (.derived k) → k < n) (e : Expr) (he : e ∈ es) :
    (m.runFrom registry (n + d) p e).1 = (m.fresh.runFrom registry n p e).1 ∧
      ∀ matched, (m.fresh.runFrom registry n p e).1 = .ok matched → (m.runFrom registry (n + d) p e).2.trail =
        (m.fresh.runFrom registry n p e).2.trail.rename (.shift n d) := by
  have hself : p.rename (.shift n d) = p := by
    refine Pattern.rename_eq_self fun i hi => ?_
    cases i with
    | given => rfl
    | derived k => rw [PatternId.shift, if_pos (hp k hi)]
  unfold runFrom
  rw [show m.fresh.config = m.config from rfl, show m.fresh.bindings = m.bindings from rfl]
  split
  · exact ⟨rfl, fun _ h => by cases h⟩
  · rw [hm.visit_eq_fresh hes he registry p]
    generalize (m.fresh.prepare p e).context registry = c
    have hshifted : Session.Shifted n d .empty .empty ⟨.empty, true, n⟩ ⟨.empty, true, n + d⟩ :=
      ⟨Nat.le_refl n, rfl, rfl, fun _ => rfl, [], rfl, rfl⟩
    have hagree := (c.simulates_visit n d .empty .empty p e).agree _ _ hshifted
    rw [hself] at hagree
    generalize (c.visit p e).run ⟨.empty, true, n⟩ = x, (c.visit p e).run ⟨.empty, true, n + d⟩ = y at hagree ⊢
    cases hagree with
    | error => exact ⟨rfl, fun _ h => by cases h⟩
    | ok hs =>
      obtain ⟨new, hnew, hnew'⟩ := hs.committed
      refine ⟨rfl, fun _ _ => ?_⟩
      dsimp only
      rw [hnew, hnew', Trail.rename_commitAll PatternId.shift_inj, Trail.rename_empty]

/-- A box with `x` in it dominates `x`, though not in the graph of the pair of boxes that was matched before. -/
theorem run_eq_fresh_of_box_after_pair :
    let x := Expr.var ⟨0, none, none⟩ ⟨0, "x"⟩
    let left := Expr.tuple ⟨1, none, none⟩ [x]
    let right := Expr.tuple ⟨2, none, none⟩ [x]
    let pair := Expr.tuple ⟨3, none, none⟩ [left, right]
    let isBox := Pattern.anyTuple (.given 1)
    let isX := Pattern.var (.given 2) "x"
    let p := Pattern.dominator (.given 3) (.wildcard (.given 0)) isBox isX
    let m := (initial.runFrom .empty 0 p pair).2
    Expr.CoherentAll [pair, left] ∧ m.Used [pair, left] ∧ (∀ k, p.Uses (.derived k) → k < 0) ∧
      m.graph = some (.ofExpr pair) ∧ (m.fresh.runFrom .empty 0 p left).1 = .ok true ∧
      (m.runFrom .empty (0 + 4) p left).1 = .ok true ∧
      (m.runFrom .empty (0 + 4) p left).2.trail = (m.fresh.runFrom .empty 0 p left).2.trail.rename (.shift 0 4) := by
  intro x left right pair isBox isX p m
  have hes : Expr.CoherentAll [pair, left] := by
    have hmem : ∀ r ∈ [pair, left], r ∈ [x, left, right, pair] := by simp
    refine Expr.coherentAll_of_closed hmem ?_ (by decide)
    simp [pair, right, left, x, Expr.children]
  have hm : m.Used [pair, left] := .run _ _ _ .initial (by simp)
  have hp : p.Numbered := by
    have hmem : p ∈ [.wildcard (.given 0), isBox, isX, p] := by simp
    refine Pattern.numbered_of_closed hmem ?_ ?_ (by decide)
    · simp [p, isX, isBox, Pattern.children]
    · simp [p, isX, isBox, Pattern.id]
  have hbelow : ∀ k, p.Uses (.derived k) → k < 0 := fun k hk => absurd hk (hp.not_uses_derived k)
  have hmatched : (m.fresh.runFrom .empty 0 p left).1 = .ok true := by cbv
  obtain ⟨hanswer, htrail⟩ := run_eq_fresh [pair, left] hes m hm .empty 0 4 p hbelow left (by simp)
  exact ⟨hes, hm, hbelow, rfl, hmatched, hanswer.trans hmatched, htrail true hmatched⟩

end Matcher
end Dataflow
