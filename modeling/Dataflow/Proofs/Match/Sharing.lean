import Dataflow.Proofs.Match.Faults
import Dataflow.Proofs.Match.Frame
/-!
# What two patterns have in common

Two patterns that are matched one after the other may be made of the same patterns (`Sharing`).  What they have in
common outside of their choices was bound because all that it demands was visited and matched.  What they have in common
otherwise, they use as a whole, and it was bound because it matches on its own.  So what such a pattern is bound to, it
matches again from a session that has bound less (`Session.Traced`), and every visit keeps this
(`Sharing.Apart.traced`).
-/
namespace Dataflow

open MatchM

/-- What patterns have in common that are matched one after the other.  The identity `callee` is bound before.  Patterns
without choices are visited part by part; other patterns are used as a whole, so nothing outside of them binds what
they are made of, except for `callee`. -/
structure Sharing where
  callee : PatternId
  common : PatternId → Prop
  plain : Pattern → Prop
  whole : Pattern → Prop
  common_of_plain : ∀ r, plain r → common r.id
  common_of_whole : ∀ m, whole m → ∀ i, m.Uses i → common i
  given : ∀ i, common i → ∃ n, i = .given n
  numbered : ∀ r, plain r ∨ whole r → r.Numbered
  noDominator : ∀ m, whole m → m.containsDominator = false
  coherent : ∀ r r', plain r → plain r' → r.id = r'.id → r = r'
  single : ∀ r, plain r → r.branches = false
  child : ∀ r, plain r → ∀ q ∈ r.children, plain q ∨ whole q
  separate : ∀ m, whole m → ∀ r, plain r → m.Uses r.id → r.id = callee
  disjoint : ∀ m m', whole m → whole m' → ∀ i, m.Uses i → m'.Uses i → i = callee ∨ m = m'

/-- The choices of a pattern have nothing in common with the other one, except for what is used as a whole.  The callee
of a commutative call is used as a whole, and bound before anything is chosen. -/
inductive Sharing.Apart (σ : Sharing) : Pattern → Prop
  | whole {m : Pattern} : σ.whole m → σ.Apart m
  | choice {r : Pattern} : r.Numbered → r.containsDominator = false →
      (∀ i, r.Uses i → σ.common i → i = σ.callee) → σ.Apart r
  | call {r callee : Pattern} : r.leadingCallee? = some callee → r.Numbered → r.containsDominator = false →
      σ.whole callee → (∀ i, r.Uses i → σ.common i → i = σ.callee ∨ i = callee.id) → σ.Apart r
  | plain {r : Pattern} : (∃ n, r.id = .given n) → r.branches = false → (σ.common r.id → σ.plain r) →
      (∀ q ∈ r.children, σ.Apart q) → σ.Apart r

theorem Sharing.apart_of_plain (σ : Sharing) {r : Pattern} (hr : σ.plain r) : σ.Apart r := by
  refine .plain ((σ.numbered r (.inl hr)).given r .refl) (σ.single r hr) (fun _ => hr) fun q hq => ?_
  rcases σ.child r hr q hq with hq' | hq'
  · exact σ.apart_of_plain hq'
  · exact .whole hq'
termination_by r.size
decreasing_by exact Pattern.size_lt_of_mem_children hq

/-- Nodes that a match knows, with the numbers telling them apart. -/
structure MatchContext.Knows (c : MatchContext) (known : Expr → Prop) : Prop extends c.Closed known where
  coherent : ∀ d e, known d → known e → d.id = e.id → d = e

namespace Session

variable {σ : Sharing} {c : MatchContext} {known : Expr → Prop} {base s s' t : Session}

/-- A session from which two patterns are matched, with nothing bound of what they use as a whole. -/
structure Starts (σ : Sharing) (base : Session) : Prop where
  memoize : base.memoize = true
  supplied : base.Supplied
  callee : ∃ f, base.trail.get? σ.callee = some f
  unbound : ∀ m, σ.whole m → base.trail.get? m.id = none

/-- A pattern was visited at a node and matched: it is bound to the node, or it is a negation, used as a whole. -/
def Shows (σ : Sharing) (c : MatchContext) (s base : Session) (q : Pattern) (e : Expr) : Prop :=
  s.trail.get? q.id = some e ∨ σ.whole q ∧ q.isNegation = true ∧ ∃ u, Succeeds (c.visit q e) base u

/-- Of a pattern, nothing was bound since `base`, or it was bound to a node that it matches on its own, and what is
bound is what it binds then. -/
def Settled (c : MatchContext) (known : Expr → Prop) (s base : Session) (m : Pattern) : Prop :=
  base.AgreesOn m.Uses s ∨
    m.isNegation = false ∧ ∃ e u, known e ∧ Succeeds (c.visit m e) base u ∧ u.AgreesOn m.Uses s

/-- What two patterns have in common and is bound matches again: all that it demands was visited and matched, or it
matches on its own. -/
structure Traced (σ : Sharing) (c : MatchContext) (known : Expr → Prop) (s base : Session) : Prop where
  after : base.Extends s
  supplied : s.Supplied
  plain : ∀ r, σ.plain r → ∀ e, s.trail.get? r.id = some e →
    known e ∧ ∃ l, c.demands r e = some l ∧ ∀ d ∈ l, s.Shows σ c base d.1 d.2
  whole : ∀ m, σ.whole m → s.Settled c known base m

theorem Shows.extends {q : Pattern} {e : Expr} (h : s.Shows σ c base q e) (hs : s.Extends s') : s'.Shows σ c base q e :=
  h.imp_left hs.trail.get?

theorem Settled.grow {m : Pattern} (h : s.Settled c known base m) (hs : s.Extends s') (hsupplied : s'.Supplied)
    (hsame : ∀ i, m.Uses i → s'.trail.get? i = s.trail.get? i) : s'.Settled c known base m := by
  rcases h with hagrees | ⟨hnegation, e, u, he, hu, hagrees⟩
  · exact .inl (hagrees.grow hs hsupplied hsame)
  · exact .inr ⟨hnegation, e, u, he, hu, hagrees.grow hs hsupplied hsame⟩

namespace Traced

theorem memoize (h : s.Traced σ c known base) (hbase : base.Starts σ) : s.memoize = true :=
  h.after.memoize.trans hbase.memoize

theorem callee (h : s.Traced σ c known base) (hbase : base.Starts σ) : ∃ f, s.trail.get? σ.callee = some f := by
  obtain ⟨f, hf⟩ := hbase.callee
  exact ⟨f, h.after.trail.get? hf⟩

/-- What is used as a whole is bound because it matches on its own. -/
theorem exists_of_get? (h : s.Traced σ c known base) (hbase : base.Starts σ) {m : Pattern} (hm : σ.whole m) {e : Expr}
    (he : s.trail.get? m.id = some e) :
    known e ∧ m.isNegation = false ∧ ∃ u, Succeeds (c.visit m e) base u ∧ u.AgreesOn m.Uses s := by
  have hself : m.Uses m.id := Pattern.uses_iff.2 (.inl rfl)
  have hnone := hbase.unbound m hm
  rcases h.whole m hm with hagrees | ⟨hnegation, f, u, hf, hu, hagrees⟩
  · rw [hagrees.same _ hself, hnone] at he
    cases he
  · have hget := hu.get?_self (σ.numbered m (.inr hm)) hnegation hbase.memoize hnone
    rw [hagrees.same _ hself, hget] at he
    cases he
    exact ⟨hf, hnegation, u, hu, hagrees⟩

/-- Nothing is bound of what is used as a whole, if it is not bound itself. -/
theorem agreesOn_of_get?_eq_none (h : s.Traced σ c known base) (hbase : base.Starts σ) {m : Pattern} (hm : σ.whole m)
    (hnone : s.trail.get? m.id = none) : base.AgreesOn m.Uses s := by
  rcases h.whole m hm with hagrees | ⟨hnegation, f, u, -, hu, hagrees⟩
  · exact hagrees
  · have hget := hu.get?_self (σ.numbered m (.inr hm)) hnegation hbase.memoize (hbase.unbound m hm)
    rw [hagrees.same _ (Pattern.uses_iff.2 (.inl rfl)), hget] at hnone
    cases hnone

/-- What is bound of the common patterns is known. -/
theorem known_of_get? (h : s.Traced σ c known base) (hbase : base.Starts σ) {r : Pattern} (hr : σ.plain r ∨ σ.whole r)
    {e : Expr} (he : s.trail.get? r.id = some e) : known e :=
  hr.elim (fun hr => (h.plain r hr e he).1) fun hr => (h.exists_of_get? hbase hr he).1

/-- A session stays traced if what it binds is not common. -/
theorem mono (h : s.Traced σ c known base) (hbase : base.Starts σ) (hs : s.Extends s') (hsupplied : s'.Supplied)
    (hsame : ∀ i, σ.common i → i ≠ σ.callee → s'.trail.get? i = s.trail.get? i) : s'.Traced σ c known base := by
  have hall : ∀ i, σ.common i → s'.trail.get? i = s.trail.get? i := fun i hi => by
    by_cases hcallee : i = σ.callee
    · obtain ⟨f, hf⟩ := h.callee hbase
      rw [hcallee, hf, hs.trail.get? hf]
    · exact hsame i hi hcallee
  refine ⟨h.after.trans hs, hsupplied, fun r hr e he => ?_, fun m hm => ?_⟩
  · rw [hall _ (σ.common_of_plain r hr)] at he
    obtain ⟨hknown, l, hl, hshows⟩ := h.plain r hr e he
    exact ⟨hknown, l, hl, fun d hd => (hshows d hd).extends hs⟩
  · exact (h.whole m hm).grow hs hsupplied fun i hi => hall i (σ.common_of_whole m hm i hi)

end Traced

theorem Starts.traced (hbase : base.Starts σ)
    (hplain : ∀ r, σ.plain r → ∀ e, base.trail.get? r.id = some e → known e ∧ c.demands r e = some []) :
    base.Traced σ c known base := by
  refine ⟨.refl base, hbase.supplied, fun r hr e he => ?_, fun m hm => .inl (.refl hbase.supplied)⟩
  obtain ⟨hknown, hl⟩ := hplain r hr e he
  exact ⟨hknown, [], hl, nofun⟩

end Session

open MatchContext

section
variable {σ : Sharing} {c : MatchContext} {known : Expr → Prop} {base s s' t : Session} {r : Pattern} {e : Expr}
  (hbase : base.Starts σ) (hknown : c.Knows known)

/-- A pattern without choices is bound after what it demands was visited. -/
theorem Session.Traced.bind (hs : s.Traced σ c known base) (hid : ∃ n, r.id = .given n) (hcallee : r.id ≠ σ.callee)
    (hr : σ.common r.id → σ.plain r) (he : known e) {l : List (Pattern × Expr)} (hl : c.demands r e = some l)
    (hshows : σ.plain r → ∀ d ∈ l, s.Shows σ c base d.1 d.2) : (s.bind r e).Traced σ c known base := by
  have hextends := s.extends_bind r e
  have hsupplied : (s.bind r e).Supplied := fun k hk => by
    obtain ⟨n, hn⟩ := hid
    rw [get?_bind_of_ne (by simp [hn])]
    refine hs.supplied k ?_
    rwa [show (s.bind r e).fresh = s.fresh by rw [Session.bind]; split <;> rfl] at hk
  refine ⟨hs.after.trans hextends, hsupplied, fun q hq f hf => ?_, fun m hm => ?_⟩
  · have hbefore : s.trail.get? q.id = some f →
        known f ∧ ∃ l, c.demands q f = some l ∧ ∀ d ∈ l, (s.bind r e).Shows σ c base d.1 d.2 := fun hf => by
      obtain ⟨hf', l, hl, hshows⟩ := hs.plain q hq f hf
      exact ⟨hf', l, hl, fun d hd => (hshows d hd).extends hextends⟩
    by_cases hqr : q.id = r.id
    · have hr := hr (hqr ▸ σ.common_of_plain q hq)
      obtain rfl := σ.coherent q r hq hr hqr
      cases hnone : s.trail.get? q.id with
      | some f' =>
        rw [hextends.trail.get? hnone] at hf
        exact hbefore (hf ▸ hnone)
      | none =>
        rw [get?_bind_self (Pattern.isNegation_eq_false (σ.single q hq)), hnone] at hf
        obtain rfl := Option.some.inj hf
        exact ⟨he, l, hl, fun d hd => (hshows hq d hd).extends hextends⟩
    · rw [get?_bind_of_ne hqr] at hf
      exact hbefore hf
  · refine (hs.whole m hm).grow hextends hsupplied fun i hi => get?_bind_of_ne (fun hir => hcallee ?_) e
    subst hir
    exact σ.separate m hm r (hr (σ.common_of_whole m hm _ hi)) hi

include hbase

/-- A pattern is visited of which all that is common is bound. -/
theorem Session.Traced.visit_choice (hs : s.Traced σ c known base) (hnumbered : r.Numbered)
    (hbound : ∀ i, r.Uses i → σ.common i → ∃ f, s.trail.get? i = some f) (h : Succeeds (c.visit r e) s s') :
    s'.Traced σ c known base := by
  refine hs.mono hbase h.extended (h.supplied hnumbered hs.supplied) fun i hi _ => ?_
  obtain ⟨n, rfl⟩ := σ.given i hi
  by_cases huses : r.Uses (.given n)
  · obtain ⟨f, hf⟩ := hbound _ huses hi
    rw [hf, h.extended.trail.get? hf]
  · exact h.get?_eq huses

/-- What is used as a whole is visited. -/
theorem Session.Traced.visit_whole (hs : s.Traced σ c known base) (hr : σ.whole r) (he : known e)
    (h : Succeeds (c.visit r e) s s') : s'.Traced σ c known base := by
  have hnumbered := σ.numbered r (.inr hr)
  have hsupplied := h.supplied hnumbered hs.supplied
  cases hget : s.trail.get? r.id with
  | some f => exact (h.eq_of_bound (hs.memoize hbase) hget).2 ▸ hs
  | none =>
    cases hnegation : r.isNegation with
    | true =>
      have htrail := h.trail_eq hnegation (hs.memoize hbase)
      exact hs.mono hbase h.extended hsupplied fun i _ _ => by rw [htrail]
    | false =>
      obtain ⟨u, hu, hagrees⟩ :=
        h.frame hnumbered (σ.noDominator r hr) (hs.agreesOn_of_get?_eq_none hbase hr hget).symm
      have hsame : ∀ {i}, σ.common i → (r.Uses i → i = σ.callee) → s'.trail.get? i = s.trail.get? i :=
        fun {i} hi huses => by
          by_cases hcallee : i = σ.callee
          · obtain ⟨f, hf⟩ := hs.callee hbase
            rw [hcallee, hf, h.extended.trail.get? hf]
          · obtain ⟨n, rfl⟩ := σ.given i hi
            exact h.get?_eq fun hi => hcallee (huses hi)
      refine ⟨hs.after.trans h.extended, hsupplied, fun q hq f hf => ?_, fun m hm => ?_⟩
      · rw [hsame (σ.common_of_plain q hq) (σ.separate r hr q hq)] at hf
        obtain ⟨hf', l, hl, hshows⟩ := hs.plain q hq f hf
        exact ⟨hf', l, hl, fun d hd => (hshows d hd).extends h.extended⟩
      · by_cases hmr : m = r
        · subst hmr
          exact .inr ⟨hnegation, e, u, he, hu, hagrees.symm⟩
        · exact (hs.whole m hm).grow h.extended hsupplied fun i hi =>
            hsame (σ.common_of_whole m hm i hi) fun hi' => (σ.disjoint m r hm hr i hi hi').resolve_right hmr

include hknown

/-- What is common and was visited shows that it matched. -/
theorem Session.Traced.shows (hs : s.Traced σ c known base) (hs' : s'.Traced σ c known base)
    (hr : σ.plain r ∨ σ.whole r) (he : known e) (h : Succeeds (c.visit r e) s s') : s'.Shows σ c base r e := by
  have hnumbered := σ.numbered r hr
  rcases (ensures_satisfied hnumbered.not_usesWithin (hnumbered.given r .refl) (hs.memoize hbase)).of_run h rfl with
    hnegation | ⟨f, hf, hid⟩
  · rcases hr with hr | hr
    · rw [Pattern.isNegation_eq_false (σ.single r hr)] at hnegation
      cases hnegation
    · have hunbound : s.trail.get? r.id = none := by
        rcases hget : s.trail.get? r.id with _ | f
        · rfl
        · rw [(hs.exists_of_get? hbase hr hget).2.1] at hnegation
          cases hnegation
      obtain ⟨u, hu, -⟩ := h.frame hnumbered (σ.noDominator r hr) (hs.agreesOn_of_get?_eq_none hbase hr hunbound).symm
      exact .inr ⟨hr, hnegation, u, hu⟩
  · obtain rfl := hknown.coherent f e (hs'.known_of_get? hbase hr hf) he hid
    exact .inl hf

/-- **Every visit leaves the session traced.** -/
theorem Sharing.Apart.traced (hr : σ.Apart r) : ∀ {e : Expr} {s s' : Session}, known e → s.Traced σ c known base →
    Succeeds (c.visit r e) s s' → s'.Traced σ c known base := by
  induction hr with
  | whole hm => exact fun he hs h => hs.visit_whole hbase hm he h
  | @choice r hnumbered _ happart =>
    intro e s s' _ hs h
    refine hs.visit_choice hbase hnumbered (fun i hi hcommon => ?_) h
    exact happart i hi hcommon ▸ hs.callee hbase
  | @call r callee hleading hnumbered _ hwhole happart =>
    intro e s s' he hs h
    have hmemoize := hs.memoize hbase
    cases hget : s.trail.get? r.id with
    | some f => exact (h.eq_of_bound hmemoize hget).2 ▸ hs
    | none =>
      obtain ⟨g, hg, ⟨u, hu⟩, hgoesOn⟩ := h.exists_leadingCallee hleading hnumbered hmemoize hget
      obtain ⟨hbound, hiff⟩ := hgoesOn s u hmemoize hget hu
      have hu' := hs.visit_whole hbase hwhole (hknown.passesOn he hg) hu
      refine hu'.visit_choice hbase hnumbered (fun i hi hcommon => ?_) ((hiff s').1 h)
      rcases happart i hi hcommon with rfl | rfl
      · exact hu'.callee hbase
      · exact hbound
  | @plain r hid hsingle hr _ parts =>
    intro e s s' he hs h
    rcases (succeeds_visit hsingle (hs.memoize hbase)).1 h with ⟨-, -, -, rfl⟩ | ⟨hnone, l, hl, t, ht, rfl⟩
    · exact hs
    have hvisits : ∀ l : List (Pattern × Expr), (∀ d ∈ l, d.1 ∈ r.children ∧ c.PassesOn e d.2) →
        ∀ {s : Session}, s.Traced σ c known base → c.Visits l s t → t.Traced σ c known base ∧
          ∀ d ∈ l, σ.plain d.1 ∨ σ.whole d.1 → t.Shows σ c base d.1 d.2 := fun l => by
      induction l with
      | nil => exact fun _ s hs ht => ⟨(show t = s from ht) ▸ hs, List.forall_mem_nil _⟩
      | cons d l ih =>
        intro hl s hs hvisits
        obtain ⟨⟨hchild, hpasses⟩, hl⟩ := List.forall_mem_cons.1 hl
        obtain ⟨u, hu, hrest⟩ := hvisits
        have hd := hknown.passesOn he hpasses
        have hu' := parts d.1 hchild hd hs hu
        obtain ⟨ht, hshows⟩ := ih hl hu' hrest
        exact ⟨ht, List.forall_mem_cons.2
          ⟨fun hcommon => (hs.shows hbase hknown hu' hcommon hd hu).extends hrest.extends, hshows⟩⟩
    obtain ⟨ht', hshows⟩ := hvisits l (fun d hd => mem_demands hl hd) hs ht
    refine ht'.bind hid (fun hcallee => ?_) hr he hl fun hr' d hd =>
      hshows d hd (σ.child r hr' d.1 (mem_demands hl hd).1)
    obtain ⟨f, hf⟩ := hs.callee hbase
    rw [hcallee, hf] at hnone
    cases hnone

end
end Dataflow
