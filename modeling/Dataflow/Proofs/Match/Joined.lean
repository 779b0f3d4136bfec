import Dataflow.Proofs.Match.Sharing
/-!
# Two sessions of which one has more bound

A visit that starts when another one is over finds more bound than one that starts before it (`Session.Joined`).  Of a
pattern that only one of the sessions has bound, the other one finds out that it matches (`Joined.retrace`).  So what
matches from the session with more matches from the other one, and what matches from the other one matches from the
one with more if it wants nothing bound to another node (`Joined.back`, `Joined.forth`).  Two patterns that match one
after the other match in the other order (`succeeds_swap`).
-/
namespace Dataflow

open MatchM MatchContext

/-- The second session has bound what the first one has, and all of `extra`. -/
structure Session.Joined (σ : Sharing) (c : MatchContext) (known : Expr → Prop) (extra : PatternId → Prop)
    (s t base : Session) : Prop where
  left : s.Traced σ c known base
  right : t.Traced σ c known base
  same : ∀ n, ¬extra (.given n) → t.trail.get? (.given n) = s.trail.get? (.given n)
  bound : ∀ n, extra (.given n) → ∃ e, t.trail.get? (.given n) = some e
  within : ∀ n e, extra (.given n) → s.trail.get? (.given n) = some e → t.trail.get? (.given n) = some e

namespace Session.Joined

variable {σ : Sharing} {c : MatchContext} {known : Expr → Prop} {extra : PatternId → Prop} {base s s' t t' : Session}
  {r : Pattern} {e f : Expr}

theorem get?_eq (h : s.Joined σ c known extra t base) (hid : ∃ n, r.id = .given n) (hr : ¬extra r.id) :
    t.trail.get? r.id = s.trail.get? r.id := by
  obtain ⟨n, hn⟩ := hid
  rw [hn] at hr ⊢
  exact h.same n hr

theorem get? (h : s.Joined σ c known extra t base) (hid : ∃ n, r.id = .given n) (hs : s.trail.get? r.id = some e) :
    t.trail.get? r.id = some e := by
  by_cases hr : extra r.id
  · obtain ⟨n, hn⟩ := hid
    rw [hn] at hr hs ⊢
    exact h.within n e hr hs
  · rw [h.get?_eq hid hr, hs]

theorem get?_eq_none (h : s.Joined σ c known extra t base) (hid : ∃ n, r.id = .given n)
    (ht : t.trail.get? r.id = none) : ¬extra r.id ∧ s.trail.get? r.id = none := by
  have hr : ¬extra r.id := fun hr => by
    obtain ⟨n, hn⟩ := hid
    rw [hn] at hr ht
    obtain ⟨f, hf⟩ := h.bound n hr
    rw [ht] at hf
    cases hf
  exact ⟨hr, h.get?_eq hid hr ▸ ht⟩

/-- A commutative call is not bound in one of the sessions only. -/
theorem get?_call (hcallee : ¬extra σ.callee) (h : s.Joined σ c known extra t base) {callee : Pattern}
    (hleading : r.leadingCallee? = some callee) (hr : r.Numbered)
    (happart : ∀ i, r.Uses i → σ.common i → i = σ.callee ∨ i = callee.id)
    (hextra : ∀ i, extra i → r.Uses i → σ.common i) : t.trail.get? r.id = s.trail.get? r.id := by
  refine h.get?_eq (hr.given r .refl) fun hx => ?_
  have hself : r.Uses r.id := Pattern.uses_iff.2 (.inl rfl)
  rcases happart _ hself (hextra _ hx hself) with hid | hid
  · exact hcallee (hid ▸ hx)
  · exact hr.not_usesWithin ⟨callee, (Pattern.leaf_of_leadingCallee? hleading).1, callee, .refl, hid.symm⟩

/-- Both sessions go on, and what they bind anew they bind alike. -/
theorem step (h : s.Joined σ c known extra t base) (hs : s'.Traced σ c known base) (ht : t'.Traced σ c known base)
    {U : PatternId → Prop} (hsame : ∀ i, U i → t'.trail.get? i = s'.trail.get? i)
    (hleft : ∀ n, ¬U (.given n) → s'.trail.get? (.given n) = s.trail.get? (.given n)) (hgrows : t.Extends t')
    (hright : ∀ n, ¬U (.given n) → t'.trail.get? (.given n) = t.trail.get? (.given n)) :
    s'.Joined σ c known extra t' base := by
  refine ⟨hs, ht, fun n hn => ?_, fun n hn => ?_, fun n e hn he => ?_⟩
  · by_cases hU : U (.given n)
    · exact hsame _ hU
    · rw [hright n hU, hleft n hU, h.same n hn]
  · obtain ⟨f, hf⟩ := h.bound n hn
    exact ⟨f, hgrows.trail.get? hf⟩
  · by_cases hU : U (.given n)
    · rw [hsame _ hU, he]
    · rw [hleft n hU] at he
      rw [hright n hU, h.within n e hn he]

/-- Both sessions bind a pattern alike. -/
theorem bind (h : s.Joined σ c known extra t base) (hs : (s.bind r e).Traced σ c known base)
    (ht : (t.bind r e).Traced σ c known base) (hsame : t.trail.get? r.id = s.trail.get? r.id) :
    (s.bind r e).Joined σ c known extra (t.bind r e) base := by
  refine h.step (U := fun i => i = r.id) hs ht (fun i hi => ?_) (fun _ hi => get?_bind_of_ne hi e) (t.extends_bind r e)
    fun _ hi => get?_bind_of_ne hi e
  subst hi
  rw [Session.bind, Session.bind]
  split
  · exact hsame
  · rw [Trail.get?_commit, Trail.get?_commit, hsame]

variable (hbase : base.Starts σ) (hknown : c.Knows known)

include hbase

/-- A pattern finds nothing of what is extra, if all that it has in common is bound already in the first session. -/
theorem agreesOn_of_choice (hcallee : ¬extra σ.callee) (h : s.Joined σ c known extra t base) (hr : r.Numbered)
    (happart : ∀ i, r.Uses i → σ.common i → i = σ.callee ∨ ∃ f, s.trail.get? i = some f)
    (hextra : ∀ i, extra i → r.Uses i → σ.common i) : s.AgreesOn r.Uses t := by
  refine ⟨(h.right.memoize hbase).trans (h.left.memoize hbase).symm, h.left.supplied, h.right.supplied,
    fun i hi => ?_⟩
  obtain ⟨n, rfl⟩ := hr.given_of_uses hi
  by_cases hn : extra (.given n)
  · rcases happart _ hi (hextra _ hn hi) with hc | ⟨f, hf⟩
    · exact absurd (hc ▸ hn) hcallee
    · rw [hf, h.within n f hn hf]
  · exact h.same n hn

include hknown

/-- Both sessions visit a pattern alike. -/
theorem visit (h : s.Joined σ c known extra t base) (hr : σ.Apart r) (he : known e) (hs : Succeeds (c.visit r e) s s')
    (ht : Succeeds (c.visit r e) t t') (hagrees : s'.AgreesOn r.Uses t') : s'.Joined σ c known extra t' base :=
  h.step (hr.traced hbase hknown he h.left hs) (hr.traced hbase hknown he h.right ht) hagrees.same
    (fun _ => hs.get?_eq) ht.extended fun _ => ht.get?_eq

/-- What the second session has visited as a whole, and the first one has not, matches from the first one. -/
theorem retrace_whole (h : s.Joined σ c known extra t base) (hr : σ.whole r) (he : known e)
    (hget : s.trail.get? r.id = none) (hshows : t.Shows σ c base r e) :
    ∃ s', Succeeds (c.visit r e) s s' ∧ s'.Joined σ c known extra t base := by
  have hnumbered := σ.numbered r (.inr hr)
  have htraced : ∀ {s'}, Succeeds (c.visit r e) s s' → s'.Traced σ c known base :=
    (Sharing.Apart.whole hr).traced hbase hknown he h.left
  have hagrees := h.left.agreesOn_of_get?_eq_none hbase hr hget
  rcases hshows with hbound | ⟨-, hnegation, u, hu⟩
  · obtain ⟨-, -, u, hu, hsame⟩ := h.right.exists_of_get? hbase hr hbound
    obtain ⟨s', hs', hagrees'⟩ := hu.frame hnumbered (σ.noDominator r hr) hagrees
    exact ⟨s', hs', h.step (htraced hs') h.right (hagrees'.symm.trans hsame).same (fun _ => hs'.get?_eq) (.refl t)
      fun _ _ => rfl⟩
  · obtain ⟨s', hs', -⟩ := hu.frame hnumbered (σ.noDominator r hr) hagrees
    have hsame := hs'.trail_eq hnegation (h.left.memoize hbase)
    exact ⟨s', hs', h.step (U := fun _ => False) (htraced hs') h.right (fun _ => False.elim) (fun _ _ => by rw [hsame])
      (.refl t) fun _ _ => rfl⟩

/-- **What the second session has bound matches from the first one too**, which then has bound nothing that the second
one has not. -/
theorem retrace : ∀ {r : Pattern} {e : Expr} {s : Session}, s.Joined σ c known extra t base → σ.plain r ∨ σ.whole r →
    known e → t.Shows σ c base r e → ∃ s', Succeeds (c.visit r e) s s' ∧ s'.Joined σ c known extra t base :=
    fun {r e s} h hr he hshows => by
  have hid := (σ.numbered r hr).given r .refl
  have hs := h.left.memoize hbase
  rcases hget : s.trail.get? r.id with _ | f
  · rcases hr with hr | hr
    · have hbound : t.trail.get? r.id = some e := hshows.resolve_right fun hnegation => by
        rw [Pattern.isNegation_eq_false (σ.single r hr)] at hnegation
        cases hnegation.2.1
      obtain ⟨-, l, hl, hdemanded⟩ := h.right.plain r hr e hbound
      have hvisits : ∀ l : List (Pattern × Expr), (∀ d ∈ l, (d.1 ∈ r.children ∧ c.PassesOn e d.2) ∧
          t.Shows σ c base d.1 d.2) → ∀ {s : Session}, s.Joined σ c known extra t base →
            ∃ s', c.Visits l s s' ∧ s'.Joined σ c known extra t base := fun l => by
        induction l with
        | nil => exact fun _ s h => ⟨s, rfl, h⟩
        | cons d l ih =>
          intro hl s h
          obtain ⟨⟨⟨hchild, hpasses⟩, hd⟩, hl⟩ := List.forall_mem_cons.1 hl
          obtain ⟨u, hu, h⟩ := retrace h (σ.child r hr d.1 hchild) (hknown.passesOn he hpasses) hd
          obtain ⟨s', hs', h⟩ := ih hl h
          exact ⟨s', ⟨u, hu, hs'⟩, h⟩
      obtain ⟨u, hu, h'⟩ := hvisits l (fun d hd => ⟨mem_demands hl hd, hdemanded d hd⟩) h
      have hvisit : Succeeds (c.visit r e) s (u.bind r e) :=
        (succeeds_visit (σ.single r hr) hs).2 (.inr ⟨hget, l, hl, u, hu, rfl⟩)
      refine ⟨u.bind r e, hvisit, h'.step (U := fun i => i = r.id)
        ((σ.apart_of_plain hr).traced hbase hknown he h.left hvisit) h.right (fun i hi => ?_)
        (fun _ hi => get?_bind_of_ne hi e) (.refl t) fun _ _ => rfl⟩
      subst hi
      rw [get?_bind_self (Pattern.isNegation_eq_false (σ.single r hr)), hbound]
      rcases hu' : u.trail.get? r.id with _ | f
      · rfl
      · rw [h'.get? hid hu'] at hbound
        exact hbound.symm
    · exact h.retrace_whole hbase hknown hr he hget hshows
  · have hbound := h.get? hid hget
    have hfe : f = e := by
      rcases hshows with hshown | ⟨hwhole, hnegation, -⟩
      · rw [hbound] at hshown
        exact Option.some.inj hshown
      · rw [(h.right.exists_of_get? hbase hwhole hbound).2.1] at hnegation
        cases hnegation
    exact ⟨s, .of_bound hs hget (by rw [hfe]), h⟩
termination_by r => r.size
decreasing_by exact Pattern.size_lt_of_mem_children hchild

/-- A pattern that only the second session has bound is bound to the node that the first one binds it to. -/
theorem meet (h : s.Joined σ c known extra t base) (hr : σ.plain r ∨ σ.whole r) (he : known e)
    (hfree : s.trail.get? r.id = none) (hget : t.trail.get? r.id = some f) (hs : Succeeds (c.visit r e) s s')
    (hwants : ∀ n f, extra (.given n) → s'.trail.get? (.given n) = some f → t.trail.get? (.given n) = some f) :
    ∃ t', Succeeds (c.visit r e) t t' ∧ s'.Joined σ c known extra t' base := by
  have hnumbered := σ.numbered r hr
  have hid := hnumbered.given r .refl
  have hnegation : r.isNegation = false := hr.elim (fun hr => Pattern.isNegation_eq_false (σ.single r hr))
    fun hr => (h.right.exists_of_get? hbase hr hget).2.1
  have hbinds := hs.get?_self hnumbered hnegation (h.left.memoize hbase) hfree
  have hx : extra r.id := by
    by_contra hx
    rw [h.get?_eq hid hx, hfree] at hget
    cases hget
  have hwanted : t.trail.get? r.id = some e := by
    obtain ⟨n, hn⟩ := hid
    rw [hn] at hbinds hx ⊢
    exact hwants n e hx hbinds
  obtain ⟨u, hu, h'⟩ := h.retrace hbase hknown hr he (.inl hwanted)
  obtain rfl := hs.unique hu
  exact ⟨t, .of_bound (h.right.memoize hbase) hwanted rfl, h'⟩

/-- What is used as a whole and matches from the second session matches from the first one. -/
theorem back_whole (h : s.Joined σ c known extra t base) (hr : σ.whole r) (he : known e)
    (ht : Succeeds (c.visit r e) t t') : ∃ s', Succeeds (c.visit r e) s s' ∧ s'.Joined σ c known extra t' base := by
  have hnumbered := σ.numbered r (.inr hr)
  rcases hget : t.trail.get? r.id with _ | f
  · have hunbound := (h.get?_eq_none (hnumbered.given r .refl) hget).2
    have hagrees := (h.right.agreesOn_of_get?_eq_none hbase hr hget).symm.trans
      (h.left.agreesOn_of_get?_eq_none hbase hr hunbound)
    obtain ⟨s', hs', hagrees'⟩ := ht.frame hnumbered (σ.noDominator r hr) hagrees
    exact ⟨s', hs', h.visit hbase hknown (.whole hr) he hs' ht hagrees'.symm⟩
  · obtain ⟨hid, rfl⟩ := ht.eq_of_bound (h.right.memoize hbase) hget
    obtain rfl := hknown.coherent f e (h.right.known_of_get? hbase (.inr hr) hget) he hid
    exact h.retrace hbase hknown (.inr hr) he (.inl hget)

/-- What is used as a whole and matches from the first session matches from the second one, if it does not bind what is
extra to other nodes. -/
theorem forth_whole (h : s.Joined σ c known extra t base) (hr : σ.whole r) (he : known e)
    (hs : Succeeds (c.visit r e) s s')
    (hwants : ∀ n f, extra (.given n) → s'.trail.get? (.given n) = some f → t.trail.get? (.given n) = some f) :
    ∃ t', Succeeds (c.visit r e) t t' ∧ s'.Joined σ c known extra t' base := by
  have hnumbered := σ.numbered r (.inr hr)
  rcases hfree : s.trail.get? r.id with _ | f
  · rcases hget : t.trail.get? r.id with _ | f
    · have hagrees := (h.left.agreesOn_of_get?_eq_none hbase hr hfree).symm.trans
        (h.right.agreesOn_of_get?_eq_none hbase hr hget)
      obtain ⟨t', ht', hagrees'⟩ := hs.frame hnumbered (σ.noDominator r hr) hagrees
      exact ⟨t', ht', h.visit hbase hknown (.whole hr) he hs ht' hagrees'⟩
    · exact h.meet hbase hknown (.inr hr) he hfree hget hs hwants
  · obtain ⟨hf, rfl⟩ := hs.eq_of_bound (h.left.memoize hbase) hfree
    exact ⟨t, .of_bound (h.right.memoize hbase) (h.get? (hnumbered.given r .refl) hfree) hf, h⟩

variable (hcallee : ¬extra σ.callee)

include hcallee

section
variable {callee : Pattern} (hleading : r.leadingCallee? = some callee) (hnumbered : r.Numbered)
  (hdominator : r.containsDominator = false) (hwhole : σ.whole callee)
  (happart : ∀ i, r.Uses i → σ.common i → i = σ.callee ∨ i = callee.id)
  (hextra : ∀ i, extra i → r.Uses i → σ.common i)

include hleading hnumbered hdominator hwhole happart hextra

/-- A commutative call that matches from the second session first has its callee bound in the first one. -/
theorem back_call (he : known e) (h : s.Joined σ c known extra t base) (ht : Succeeds (c.visit r e) t t') :
    ∃ s', Succeeds (c.visit r e) s s' ∧ s'.Joined σ c known extra t' base := by
  have hs := h.left.memoize hbase
  have ht₀ := h.right.memoize hbase
  have hsame := h.get?_call hcallee hleading hnumbered happart hextra
  rcases hget : t.trail.get? r.id with _ | f
  · obtain ⟨g, hg, ⟨u', hu'⟩, hgoesOn⟩ := ht.exists_leadingCallee hleading hnumbered ht₀ hget
    obtain ⟨u, hu, h'⟩ := h.back_whole hbase hknown hwhole (hknown.passesOn he hg) hu'
    obtain ⟨hbound, hiff⟩ := hgoesOn s u hs (hsame ▸ hget) hu
    have hagrees := h'.agreesOn_of_choice hbase hcallee hnumbered
      (fun i hi hcommon => (happart i hi hcommon).imp_right fun hic => by rwa [hic]) hextra
    have ht' := ((hgoesOn t u' ht₀ hget hu').2 t').1 ht
    obtain ⟨s', hs', hagrees'⟩ := ht'.frame hnumbered hdominator hagrees.symm
    have hs'' := (hiff s').2 hs'
    exact ⟨s', hs'', h.visit hbase hknown (.call hleading hnumbered hdominator hwhole happart) he hs'' ht
      hagrees'.symm⟩
  · obtain ⟨hf, rfl⟩ := ht.eq_of_bound ht₀ hget
    exact ⟨s, .of_bound hs (hsame ▸ hget) hf, h⟩

/-- A commutative call that matches from the first session first has its callee bound in the second one. -/
theorem forth_call (he : known e) (h : s.Joined σ c known extra t base) (hs : Succeeds (c.visit r e) s s')
    (hwants : ∀ n f, extra (.given n) → s'.trail.get? (.given n) = some f → t.trail.get? (.given n) = some f) :
    ∃ t', Succeeds (c.visit r e) t t' ∧ s'.Joined σ c known extra t' base := by
  have hs₀ := h.left.memoize hbase
  have ht := h.right.memoize hbase
  have hsame := h.get?_call hcallee hleading hnumbered happart hextra
  rcases hfree : s.trail.get? r.id with _ | f
  · obtain ⟨g, hg, ⟨u, hu⟩, hgoesOn⟩ := hs.exists_leadingCallee hleading hnumbered hs₀ hfree
    obtain ⟨hbound, hiff⟩ := hgoesOn s u hs₀ hfree hu
    have hs' := (hiff s').1 hs
    obtain ⟨u', hu', h'⟩ := h.forth_whole hbase hknown hwhole (hknown.passesOn he hg) hu fun n f hn hf =>
      hwants n f hn (hs'.extended.trail.get? hf)
    have hagrees := h'.agreesOn_of_choice hbase hcallee hnumbered
      (fun i hi hcommon => (happart i hi hcommon).imp_right fun hic => by rwa [hic]) hextra
    obtain ⟨t', ht', hagrees'⟩ := hs'.frame hnumbered hdominator hagrees
    have ht'' := ((hgoesOn t u' ht (hsame.trans hfree) hu').2 t').2 ht'
    exact ⟨t', ht'', h.visit hbase hknown (.call hleading hnumbered hdominator hwhole happart) he hs ht'' hagrees'⟩
  · obtain ⟨hf, rfl⟩ := hs.eq_of_bound hs₀ hfree
    exact ⟨t, .of_bound ht (hsame.trans hfree) hf, h⟩

end

/-- **What matches from the session with more bound matches from the other one.** -/
theorem back (hr : σ.Apart r) : ∀ {e : Expr} {s t t' : Session}, (∀ i, extra i → r.Uses i → σ.common i) → known e →
    s.Joined σ c known extra t base → Succeeds (c.visit r e) t t' →
      ∃ s', Succeeds (c.visit r e) s s' ∧ s'.Joined σ c known extra t' base := by
  induction hr with
  | whole hm => exact fun _ he h ht => h.back_whole hbase hknown hm he ht
  | @choice r hnumbered hdominator happart =>
    intro e s t t' hextra he h ht
    obtain ⟨s', hs', hagrees⟩ := ht.frame hnumbered hdominator
      (h.agreesOn_of_choice hbase hcallee hnumbered (fun i hi hcommon => .inl (happart i hi hcommon)) hextra).symm
    exact ⟨s', hs', h.visit hbase hknown (.choice hnumbered hdominator happart) he hs' ht hagrees.symm⟩
  | call hleading hnumbered hdominator hwhole happart =>
    exact fun hextra he h ht => h.back_call hbase hknown hcallee hleading hnumbered hdominator hwhole happart hextra he ht
  | @plain r hid hsingle hr hparts parts =>
    intro e s t t' hextra he h ht
    have happart : σ.Apart r := .plain hid hsingle hr hparts
    have hs := h.left.memoize hbase
    rcases (succeeds_visit hsingle (h.right.memoize hbase)).1 ht with ⟨f, hget, hf, rfl⟩ | ⟨hnone, l, hl, u', hu', rfl⟩
    · by_cases hx : extra r.id
      · have hplain := hr (hextra _ hx (Pattern.uses_iff.2 (.inl rfl)))
        obtain rfl := hknown.coherent f e (h.right.known_of_get? hbase (.inl hplain) hget) he hf
        exact h.retrace hbase hknown (.inl hplain) he (.inl hget)
      · rw [h.get?_eq hid hx] at hget
        exact ⟨s, .of_bound hs hget hf, h⟩
    · obtain ⟨hx, hfree⟩ := h.get?_eq_none hid hnone
      obtain ⟨u, hu, h'⟩ : ∃ u, c.Visits l s u ∧ u.Joined σ c known extra u' base := by
        refine Visits.related (R := fun t s => s.Joined σ c known extra t base) (fun d hd t v s h hv _ => ?_) h hu'
        obtain ⟨hchild, hpasses⟩ := mem_demands hl hd
        exact parts d.1 hchild (fun i hi huses => hextra i hi (Pattern.uses_iff.2 (.inr ⟨_, hchild, huses⟩)))
          (hknown.passesOn he hpasses) h hv
      have hvisit : Succeeds (c.visit r e) s (u.bind r e) :=
        (succeeds_visit hsingle hs).2 (.inr ⟨hfree, l, hl, u, hu, rfl⟩)
      exact ⟨u.bind r e, hvisit, h'.bind (happart.traced hbase hknown he h.left hvisit)
        (happart.traced hbase hknown he h.right ht) (h'.get?_eq hid hx)⟩

/-- **What matches from the session with less bound matches from the other one, if it does not bind what is extra to
other nodes.** -/
theorem forth (hr : σ.Apart r) : ∀ {e : Expr} {s s' t : Session}, (∀ i, extra i → r.Uses i → σ.common i) → known e →
    s.Joined σ c known extra t base → Succeeds (c.visit r e) s s' →
      (∀ n f, extra (.given n) → s'.trail.get? (.given n) = some f → t.trail.get? (.given n) = some f) →
        ∃ t', Succeeds (c.visit r e) t t' ∧ s'.Joined σ c known extra t' base := by
  induction hr with
  | whole hm => exact fun _ he h hs hwants => h.forth_whole hbase hknown hm he hs hwants
  | @choice r hnumbered hdominator happart =>
    intro e s s' t hextra he h hs _
    obtain ⟨t', ht', hagrees⟩ := hs.frame hnumbered hdominator
      (h.agreesOn_of_choice hbase hcallee hnumbered (fun i hi hcommon => .inl (happart i hi hcommon)) hextra)
    exact ⟨t', ht', h.visit hbase hknown (.choice hnumbered hdominator happart) he hs ht' hagrees⟩
  | call hleading hnumbered hdominator hwhole happart =>
    exact fun hextra he h hs hwants =>
      h.forth_call hbase hknown hcallee hleading hnumbered hdominator hwhole happart hextra he hs hwants
  | @plain r hid hsingle hr hparts parts =>
    intro e s s' t hextra he h hs hwants
    have happart : σ.Apart r := .plain hid hsingle hr hparts
    have ht := h.right.memoize hbase
    rcases (succeeds_visit hsingle (h.left.memoize hbase)).1 hs with ⟨f, hget, hf, rfl⟩ | ⟨hfree, l, hl, u, hu, rfl⟩
    · exact ⟨t, .of_bound ht (h.get? hid hget) hf, h⟩
    · rcases hget : t.trail.get? r.id with _ | f
      · obtain ⟨hx, -⟩ := h.get?_eq_none hid hget
        have hwants' : ∀ n f, extra (.given n) → u.trail.get? (.given n) = some f →
            t.trail.get? (.given n) = some f := fun n f hn hf =>
          hwants n f hn ((u.extends_bind r e).trail.get? hf)
        obtain ⟨u', hu', h', -⟩ : ∃ u', c.Visits l t u' ∧ u.Joined σ c known extra u' base ∧
            ∀ n f, extra (.given n) → u.trail.get? (.given n) = some f → u'.trail.get? (.given n) = some f := by
          refine Visits.related (R := fun s t => s.Joined σ c known extra t base ∧
            ∀ n f, extra (.given n) → u.trail.get? (.given n) = some f → t.trail.get? (.given n) = some f)
            (fun d hd s v t hst hv hvu => ?_) ⟨h, hwants'⟩ hu
          obtain ⟨hchild, hpasses⟩ := mem_demands hl hd
          obtain ⟨v', hv', h'⟩ := parts d.1 hchild
            (fun i hi huses => hextra i hi (Pattern.uses_iff.2 (.inr ⟨_, hchild, huses⟩))) (hknown.passesOn he hpasses)
            hst.1 hv fun n f hn hf => hst.2 n f hn (hvu.trail.get? hf)
          exact ⟨v', hv', h', fun n f hn hf => hv'.extended.trail.get? (hst.2 n f hn hf)⟩
        have hvisit : Succeeds (c.visit r e) t (u'.bind r e) :=
          (succeeds_visit hsingle ht).2 (.inr ⟨hget, l, hl, u', hu', rfl⟩)
        exact ⟨u'.bind r e, hvisit, h'.bind (happart.traced hbase hknown he h.left hs)
          (happart.traced hbase hknown he h.right hvisit) (h'.get?_eq hid hx)⟩
      · have hx : extra r.id := by
          by_contra hx
          rw [h.get?_eq hid hx, hfree] at hget
          cases hget
        exact h.meet hbase hknown (.inl (hr (hextra _ hx (Pattern.uses_iff.2 (.inl rfl))))) he hfree hget hs hwants

end Session.Joined

/-! ## Two visits -/

/-- What was made from outside and was bound on the way from one session to another. -/
def Session.newIds (s s' : Session) (i : PatternId) : Prop :=
  (∃ n, i = .given n) ∧ s.trail.get? i = none ∧ ∃ e, s'.trail.get? i = some e

theorem MatchM.Succeeds.uses_of_newIds {c : MatchContext} {p : Pattern} {e : Expr} {s s' : Session} {i : PatternId}
    (h : Succeeds (c.visit p e) s s') (hi : s.newIds s' i) : p.Uses i := by
  obtain ⟨⟨n, rfl⟩, hnone, f, hf⟩ := hi
  by_contra hn
  rw [h.get?_eq hn, hnone] at hf
  cases hf

section
variable {σ : Sharing} {c : MatchContext} {known : Expr → Prop} {base s' : Session} {p q : Pattern} {x y : Expr}
  (hbase : base.Starts σ) (hknown : c.Knows known)

include hbase hknown

/-- After a visit, a session has more bound than before. -/
theorem Session.Traced.joined (h : base.Traced σ c known base) (hp : σ.Apart p) (hx : known x)
    (hvisit : Succeeds (c.visit p x) base s') : base.Joined σ c known (base.newIds s') s' base := by
  refine ⟨h, hp.traced hbase hknown hx h hvisit, fun n hn => ?_, fun n hn => hn.2.2, fun n e hn he => ?_⟩
  · cases hget : base.trail.get? (.given n) with
    | none =>
      by_contra hbound
      exact hn ⟨⟨n, rfl⟩, hget, Option.ne_none_iff_exists'.1 hbound⟩
    | some f => exact hvisit.extended.trail.get? hget
  · rw [hn.2.1] at he
    cases he

/-- **Two patterns that match one after the other match in the other order.** -/
theorem succeeds_swap (h : base.Traced σ c known base) (hp : σ.Apart p) (hq : σ.Apart q)
    (hcommon : ∀ i, p.Uses i → q.Uses i → σ.common i) (hx : known x) (hy : known y) {s₁ s₁₂ : Session}
    (hp₁ : Succeeds (c.visit p x) base s₁) (hq₁ : Succeeds (c.visit q y) s₁ s₁₂) :
    ∃ s₂ s₂₁, Succeeds (c.visit q y) base s₂ ∧ Succeeds (c.visit p x) s₂ s₂₁ := by
  have hcallee : ∀ s : Session, ¬base.newIds s σ.callee := fun s hnew => by
    obtain ⟨f, hf⟩ := hbase.callee
    rw [hnew.2.1] at hf
    cases hf
  obtain ⟨s₂, hq₂, h₁₂⟩ := (h.joined hbase hknown hp hx hp₁).back hbase hknown (hcallee s₁) hq
    (fun i hi hqi => hcommon i (hp₁.uses_of_newIds hi) hqi) hy hq₁
  obtain ⟨s₂₁, hp₂, -⟩ := (h.joined hbase hknown hq hy hq₂).forth hbase hknown (hcallee s₂) hp
    (fun i hi hpi => hcommon i hpi (hq₂.uses_of_newIds hi)) hx hp₁ fun n f hn hf => by
      -- the second pattern, visited after the first one, kept to what the first one had bound
      obtain ⟨hgiven, hnone, f', hf'⟩ := hn
      have hwithin := h₁₂.within n f' ⟨hgiven, hnone, f, hf⟩ hf'
      rw [hq₁.extended.trail.get? hf] at hwithin
      exact hwithin ▸ hf'
  exact ⟨s₂, s₂₁, hq₂, hp₂⟩

/-- Two arguments that are found in one order are found in the other one. -/
theorem run_visitAll_swap (h : base.Traced σ c known base) (hp : σ.Apart p) (hq : σ.Apart q)
    (hcommon : ∀ i, p.Uses i → q.Uses i → σ.common i) (hx : known x) (hy : known y)
    (hfound : ((c.visitAll [p, q] [x, y]).run base).1 = .ok true) :
    ((c.visitAll [q, p] [y, x]).run base).1 = .ok true := by
  have hsucceeds : Succeeds (c.visitAll [p, q] [x, y]) base _ := Prod.ext hfound rfl
  obtain ⟨-, s₁, hp₁, s₁₂, hq₁, -⟩ := succeeds_visitAll.1 hsucceeds
  obtain ⟨s₂, s₂₁, hq₂, hp₂⟩ := succeeds_swap hbase hknown h hp hq hcommon hx hy hp₁ hq₁
  have hswapped : Succeeds (c.visitAll [q, p] [y, x]) base s₂₁ := succeeds_visitAll.2 ⟨rfl, s₂, hq₂, s₂₁, hp₂, rfl⟩
  exact congrArg Prod.fst hswapped

end
end Dataflow
