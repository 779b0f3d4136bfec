import Dataflow.Proofs.Graph.Dominated
import Dataflow.Proofs.Match.Reuse
/-!
# Which faults a match can end in

A match that begins has a graph if its pattern has a dominator pattern anywhere, and re-association, which makes
patterns of parts of the pattern, does not bring in another one.  A trail that only grew is always rolled back.  So the
faults of a visit are those of looking for nodes in the graph, those of comparing attributes, and that a variable is
to be followed without values (`relates_visit`).  Without values a match does not begin; and where variables are not
followed, a match stays with what the matched expression reaches, and the dominator patterns stay with the nodes of the
graph, so looking for nodes succeeds as well (`faults_of_run`).
-/
namespace Dataflow

namespace MatchContext

open MatchM

variable {c : MatchContext} {faults : Fault → Prop} {D : Expr → Prop} {p q : Pattern} {e f : Expr}

/-- What is looked at in the place of an expression of a domain is in the domain, and so are the inputs of nodes. -/
structure Closed (c : MatchContext) (D : Expr → Prop) : Prop where
  follow : ∀ e, D e → D (c.follow e)
  input : ∀ e, D e → ∀ f ∈ e.children, D f

theorem Closed.passesOn (h : c.Closed D) (he : D e) (hf : c.PassesOn e f) : D f := by
  rcases hf with rfl | hf
  · exact he
  · exact h.input _ (h.follow e he) f hf

/-- There is a graph, whose nodes are in a domain, and looking for an expression of the domain ends in no other
faults. -/
structure Locates (c : MatchContext) (D : Expr → Prop) (faults : Fault → Prop) (g : DependencyGraph) : Prop where
  graph : c.graph = some g
  node : ∀ i node, g.node? i = some node → D node.expr
  position : ∀ e, D e → g.position? e = none → faults (.outsideGraph e)

/-- Neither attributes nor dominator patterns in a pattern bring in other faults. -/
structure Permits (c : MatchContext) (D : Expr → Prop) (faults : Fault → Prop) (p : Pattern) : Prop where
  attrs : ∀ i q attrs, p.Reaches (.hasAttrs i q attrs) → ∀ fault : Fault, fault.OfAttribute → faults fault
  graph : p.containsDominator = true → ∃ g, c.Locates D faults g

theorem Permits.child (h : c.Permits D faults p) (hq : q ∈ p.children) : c.Permits D faults q :=
  ⟨fun i r attrs hr => h.attrs i r attrs ((Pattern.Reaches.refl.child hq).trans hr),
    fun hd => h.graph (Pattern.containsDominator_of_mem_children hq hd)⟩

theorem Permits.reassociation {n : Nat} (h : c.Permits D faults p) (hq : q ∈ Pattern.reassociations n p e) :
    c.Permits D faults q := by
  refine ⟨fun i r attrs hr => ?_, fun hd => h.graph ?_⟩
  · exact h.attrs i r attrs (Pattern.reaches_of_mem_reassociations_of_ne_call hq hr (by simp))
  · by_contra hp
    rw [Pattern.containsDominator_eq_false_of_mem_reassociations hq (by simpa using hp)] at hd
    cases hd

/-! ## Dominator patterns -/

section
variable {g : DependencyGraph} {child path parent : Pattern}

theorem ensures_locate (h : c.Locates D faults g) (he : D e) (s : Session) :
    Ensures (locate c e) s (fun located s' => s' = s ∧ located.1 = g) faults := by
  rw [locate, h.graph]
  dsimp only
  cases hi : g.position? e with
  | some i => exact ⟨rfl, rfl⟩
  | none => exact h.position e he hi

/-- Visits of the expressions of a domain end in no other faults. -/
def SafeOn (c : MatchContext) (D : Expr → Prop) (faults : Fault → Prop) (p : Pattern) : Prop :=
  ∀ e, D e → Relates Session.Grows faults (c.visit p e)

theorem relates_visitPath (h : c.Locates D faults g) (hclosed : c.Closed D) (hpath : c.SafeOn D faults path)
    (hparent : c.SafeOn D faults parent) (e : Expr) (he : D e) :
    Relates Session.Grows faults (c.visitPath path parent e) := fun s => by
  rw [visitPath, ensures_bind]
  refine (ensures_locate h he s).imp ?_
  rintro _ s' ⟨rfl, -⟩
  refine Relates.allM (fun input _ => ?_) s'
  obtain ⟨input, hinput⟩ := input
  have hin : D input := hclosed.input e he input (List.mem_filter.1 hinput).1
  refine .bind (.setMemoize true) fun _ => .bind (hparent input hin) fun _ => .ite .pure ?_
  refine .bind (.setMemoize false) fun _ => .bind (hpath input hin) fun _ => .ite ?_ .pure
  exact relates_visitPath h hclosed hpath hparent input hin
termination_by e.treeSize
decreasing_by exact Expr.treeSize_lt_of_mem_dataInputs hinput

theorem relates_dominatesParent (h : c.Locates D faults g) (hparent : c.SafeOn D faults parent) (he : D e) :
    Relates Session.Grows faults (c.dominatesParent parent e) := fun s => by
  rw [dominatesParent, ensures_bind]
  refine (ensures_locate h he s).imp ?_
  rintro ⟨_, i⟩ s' ⟨rfl, rfl⟩
  refine Relates.anyM (fun j _ => ?_) s'
  split
  · exact hparent _ (h.node j _ ‹_›)
  · exact .pure

theorem relates_walkDominator (h : c.Locates D faults g) (hclosed : c.Closed D)
    (hparts : ∀ q ∈ [child, path, parent], c.SafeOn D faults q) (he : D e) :
    Relates Session.Grows faults (c.walkDominator child path parent e) := by
  have hparent := hparts parent (by simp)
  refine .bind (hparts child (by simp) e he) fun _ => .ite ?_ .pure
  refine .bind (relates_visitPath h hclosed (hparts path (by simp)) hparent e he) fun _ => ?_
  exact .bind (.setMemoize true) fun _ => .ite (relates_dominatesParent h hparent he) .pure

end

/-- **A visit ends in no faults but those of its attributes and of the graph.** -/
theorem relates_visit (hclosed : c.Closed D) (hstuck : ∀ e, c.isStuck e = false) (p : Pattern) (e : Expr)
    (hp : c.Permits D faults p) (he : D e) : Relates Session.Extends faults (c.visit p e) := by
  induction p, e using c.visit_induction with
  | step p e parts again =>
    have hpart : ∀ q ∈ p.children, ∀ f, D f → Relates Session.Extends faults (c.visit q f) := fun q hq f hf =>
      parts q hq f (hp.child hq) hf
    have hagain : Relates Session.Extends faults (c.visitReassociated p (c.follow e)) :=
      .takeFresh fun n => .anyM fun q _ => again n q.1 q.2 (hp.reassociation q.2) (hclosed.follow e he)
    have hbegins : ∀ e, c.isStuck e = true → faults .noBindings := fun e h => by
      rw [hstuck e] at h
      cases h
    have hrule := (Relates.congruence hbegins).ruleBy (σ := id) c rfl p e
      (fun q hq f hf => hpart q hq f (hclosed.passesOn he hf)) hagain
      (fun i q attrs ha => .heldBy (hp.attrs i q attrs (ha ▸ .refl))) fun i child path parent hd => by
        subst hd
        obtain ⟨g, hg⟩ := hp.graph (by rw [Pattern.containsDominator])
        exact .restoringMemoize (relates_walkDominator hg hclosed (fun q hq f hf => (hpart q hq f hf).grows) he)
    rw [visit_eq_visitBy]
    exact hrule.attempt fun s => s.extends_bind p e

theorem closed_true (c : MatchContext) : c.Closed fun _ => True := ⟨fun _ _ => trivial, fun _ _ _ _ => trivial⟩

/-- Without following variables, a match stays with what an expression reaches. -/
theorem closed_reaches (h : c.config.autoJump = false) (root : Expr) : c.Closed root.Reaches := by
  refine ⟨fun e he => ?_, fun _ he _ hf => he.child hf⟩
  rw [follow, h]
  exact he

theorem locates_ofExpr {root : Expr} (hroot : root.Coherent) (hgraph : c.graph = some (.ofExpr root)) :
    c.Locates root.Reaches faults (.ofExpr root) := by
  refine ⟨hgraph, fun i node hnode => ?_, fun e he hnone => ?_⟩
  · obtain ⟨d, hd, rfl⟩ := DependencyGraph.node?_eq_some_iff.1 hnode
    exact Expr.reaches_of_mem_toposort hroot (List.mem_of_getElem? hd)
  · obtain ⟨i, hi⟩ := List.getElem?_of_mem ((Expr.mem_toposort_iff hroot).2 he)
    rw [(DependencyGraph.position?_eq_some_iff hroot he).2 hi] at hnone
    cases hnone

end MatchContext

namespace Matcher

open MatchContext

theorem exists_graph_prepareGraph (m : Matcher) (e : Expr) : ∃ g, (m.prepareGraph e).graph = some g := by
  rcases m.prepareGraph_cases e with ⟨hsame, g, hg, -⟩ | hnew
  · exact ⟨g, by rw [hsame, hg]⟩
  · exact ⟨_, by rw [hnew]⟩

/-- A match that begins ends in the faults of its visit. -/
theorem fault_of_runFrom {m m' : Matcher} {registry : Registry} {n : Nat} {p : Pattern} {e : Expr} {fault : Fault}
    (h : m.runFrom registry n p e = (.error fault, m')) :
    (fault = .noBindings ∧ m.config.autoJump = true ∧ m.bindings = none ∧ m' = m) ∨
      (∀ d, ((m.prepare p e).context registry).isStuck d = false) ∧
        ∃ s', (((m.prepare p e).context registry).visit p e).run ⟨.empty, true, n⟩ = (.error fault, s') := by
  rw [runFrom] at h
  split at h
  · rename_i hstuck
    obtain ⟨hfault, rfl⟩ := Prod.mk.inj h
    rw [Bool.and_eq_true, Option.isNone_iff_eq_none] at hstuck
    exact .inl ⟨(Except.error.inj hfault).symm, hstuck.1, hstuck.2, rfl⟩
  · rename_i hstuck
    obtain ⟨hanswer, -⟩ := Prod.mk.inj h
    refine .inr ⟨isStuck_eq_false ?_, _, Prod.ext hanswer rfl⟩
    rw [context_prepare]
    exact hstuck

/-- **The faults that a match cannot end in.**  Whatever state a matcher is in, a match never lacks a dependency graph
for a dominator pattern, nor a logged binding in the table; and that variables are to be followed without values it
finds before it touches anything.  If variables are not followed, and no root was given or the root reaches the
expression, then a match never leaves the graph: the only faults left are those of comparing attributes. -/
theorem faults_of_run :
    (∀ (m m' : Matcher) (registry : Registry) (n : Nat) (p : Pattern) (e : Expr) (fault : Fault),
      m.runFrom registry n p e = (.error fault, m') → fault ≠ .noGraph ∧ (∀ i, fault ≠ .missingBinding i) ∧
        (fault = .noBindings → m.config.autoJump = true ∧ m.bindings = none ∧ m' = m)) ∧
    ∀ (es : List Expr) (m m' : Matcher) (registry : Registry) (n : Nat) (p : Pattern) (e : Expr) (fault : Fault),
      Expr.CoherentAll es → m.Used es → e ∈ es → m.config.autoJump = false →
        (∀ root, m.root = some root → root.Reaches e) → m.runFrom registry n p e = (.error fault, m') →
          fault.OfAttribute := by
  refine ⟨fun m m' registry n p e fault h => ?_, fun es m m' registry n p e fault hes hm he hjump hroot h => ?_⟩
  · rcases fault_of_runFrom h with ⟨rfl, hfault⟩ | ⟨hstuck, s', hrun⟩
    · exact ⟨by simp, by simp, fun _ => hfault⟩
    · have hpermits : ((m.prepare p e).context registry).Permits (fun _ => True)
          (fun fault => fault ≠ .noGraph ∧ (∀ i, fault ≠ .missingBinding i) ∧ fault ≠ .noBindings) p := by
        refine ⟨fun _ _ _ _ fault hfault => ?_, fun hp => ?_⟩
        · cases fault with
          | incomparable | unsupportedKind => simp
          | _ => exact hfault.elim
        · obtain ⟨g, hg⟩ := m.exists_graph_prepareGraph e
          rw [prepare, if_pos hp]
          exact ⟨g, hg, fun _ _ _ => trivial, fun _ _ _ => by simp⟩
      obtain ⟨hgraph, hmissing, hbindings⟩ :=
        (relates_visit (closed_true _) hstuck p e hpermits trivial _).of_error hrun
      exact ⟨hgraph, hmissing, fun hfault => absurd hfault hbindings⟩
  · rcases fault_of_runFrom h with ⟨-, hjump', -⟩ | ⟨hstuck, s', hrun⟩
    · rw [hjump] at hjump'
      cases hjump'
    · have hstart : (m.root.getD e).Reaches e := by
        cases hm : m.root with
        | none => exact .refl
        | some root => exact hroot root hm
      have hclosed : ((m.prepare p e).context registry).Closed (m.root.getD e).Reaches := by
        refine closed_reaches ?_ _
        rw [context_prepare]
        exact hjump
      refine (relates_visit hclosed hstuck p e ⟨fun _ _ _ _ _ hfault => hfault, fun hp => ?_⟩ hstart _).of_error hrun
      rw [prepare, if_pos hp]
      exact ⟨_, locates_ofExpr (hes.coherent (hm.start_mem he)) (hm.graph_prepareGraph hes he)⟩

/-- Variables are to be followed without values; and a dominator pattern whose parent asks `x` for an attribute meets
one without a value there. -/
theorem faults_of_run_of_missing_values :
    let following := initial.withConfig ⟨true, true, true⟩
    let x := Expr.call ⟨1, none, none⟩ (.external ⟨0, none, none⟩ "f") [] (some ⟨"", [("tag", .null)]⟩)
    let box := Expr.tuple ⟨2, none, none⟩ [x]
    let any := Pattern.wildcard (.given 0)
    let tagged := Pattern.hasAttrs (.given 2) (.wildcard (.given 1)) ⟨[("tag", .int 0)]⟩
    let p := Pattern.dominator (.given 4) any (.anyTuple (.given 3)) tagged
    let m := (initial.runFrom .empty 0 any box).2
    let m' := (m.runFrom .empty 0 p box).2
    (following.runFrom .empty 0 any box = (.error .noBindings, following) ∧ following.config.autoJump = true ∧
      following.bindings = none) ∧
    Expr.CoherentAll [box] ∧ m.Used [box] ∧ m.config.autoJump = false ∧ m.root = none ∧
      m.runFrom .empty 0 p box = (.error (.unsupportedKind .null), m') ∧ (Fault.unsupportedKind .null).OfAttribute := by
  intro following x box any tagged p m m'
  have hstuck : following.runFrom .empty 0 any box = (.error .noBindings, following) := rfl
  obtain ⟨hjump, hbindings, -⟩ := (faults_of_run.1 _ _ _ _ _ _ _ hstuck).2.2 rfl
  have hes : Expr.CoherentAll [box] := by
    have hmem : ∀ r ∈ [box], r ∈ [.external ⟨0, none, none⟩ "f", x, box] := by simp
    refine Expr.coherentAll_of_closed hmem ?_ (by decide)
    simp [box, x, Expr.children]
  have hm : m.Used [box] := .run _ _ _ .initial (by simp)
  have hanswer : (m.runFrom .empty 0 p box).1 = .error (.unsupportedKind .null) := by cbv
  have hrun : m.runFrom .empty 0 p box = (.error (.unsupportedKind .null), m') := Prod.ext hanswer rfl
  have hroot : m.root = none := rfl
  refine ⟨⟨hstuck, hjump, hbindings⟩, hes, hm, rfl, hroot, hrun, ?_⟩
  refine faults_of_run.2 [box] m m' .empty 0 p box _ hes hm (by simp) rfl (fun root h => ?_) hrun
  rw [hroot] at h
  cases h

end Matcher

/-- A match that looks at no attributes and has no dominator pattern gives an answer. -/
theorem Pattern.exists_isMatch_eq_ok {p : Pattern} (hdominator : p.containsDominator = false)
    (hattrs : ∀ i q attrs, ¬p.Reaches (.hasAttrs i q attrs)) (registry : Registry) (e : Expr)
    (values : Option Bindings) : ∃ matched, p.isMatch registry e values = .ok matched := by
  have hstuck : ¬((matcher values).config.autoJump && (matcher values).bindings.isNone) = true := by
    cases values <;> exact Bool.false_ne_true
  have hpermits : ((matcher values).context registry).Permits (fun _ => True) (fun _ => False) p :=
    ⟨fun i q attrs hr => absurd hr (hattrs i q attrs), fun hd => by simp [hdominator] at hd⟩
  have hrelates := MatchContext.relates_visit (MatchContext.closed_true _) (MatchContext.isStuck_eq_false hstuck) p e
    hpermits trivial .initial
  rw [isMatch, Matcher.run, if_neg hstuck, if_neg (by simp [hdominator])]
  rcases hrun : (((matcher values).context registry).visit p e).run .initial with ⟨_ | matched, s'⟩
  · exact (hrelates.of_error hrun).elim
  · exact ⟨matched, congrArg Prod.fst hrun⟩

end Dataflow
