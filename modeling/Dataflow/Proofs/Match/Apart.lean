import Dataflow.Proofs.Match.Sharing
/-!
# Arguments whose choices are apart

Of two arguments of a call, no choice in one uses a pattern that both use, unless as its callee, which is bound before
anything is chosen, or as part of one that both use as a whole (`Pattern.ChoosesApart`).  What the arguments have in
common are the patterns that both use as a whole, other than those inside of each other, and what both use besides
(`ApartIn.sharing`).  Everything else in the two arguments is apart from that (`ApartIn.apart_left`,
`ApartIn.apart_right`).
-/
namespace Dataflow
namespace Pattern

/-- What both of two patterns are made of. -/
def Shared (p q d : Pattern) : Prop := p.Reaches d ∧ q.Reaches d

/-- Nothing in `root` uses a part of `m` but through `m`, except for a pattern with the identity `k`. -/
def UsesWhole (root : Pattern) (k : PatternId) (m : Pattern) : Prop :=
  ∀ r, root.Reaches r → ∀ d ∈ r.children, m.Reaches d → d = m ∨ d.id = k ∨ m.Reaches r

/-- No choice in one of two arguments uses what both use, except for a pattern with the identity `k` and the callee of
the choice, which are bound before, unless as part of what both use as a whole. -/
def ChoosesApart (root : Pattern) (k : PatternId) (p q : Pattern) : Prop :=
  ∀ d, p.Reaches d ∨ q.Reaches d → d.branches = true → ∀ i, d.Uses i → p.Uses i → q.Uses i →
    i = k ∨ (∃ callee, d.leadingCallee? = some callee ∧ callee.id = i) ∨
      ∃ m, Shared p q m ∧ root.UsesWhole k m ∧ m.Reaches d

/-- Two parts of a pattern that choose apart, but for a pattern with the identity `k` that is not made of others. -/
structure ApartIn (root : Pattern) (k : PatternId) (p q : Pattern) : Prop where
  numbered : root.Numbered
  noDominator : root.containsDominator = false
  callee : ∀ d, root.Reaches d → d.id = k → d.children = [] ∧ d.branches = false
  left : root.Reaches p
  right : root.Reaches q
  apart : root.ChoosesApart k p q

/-- What both of two arguments use as a whole. -/
def Whole (root : Pattern) (k : PatternId) (p q m : Pattern) : Prop :=
  Shared p q m ∧ root.UsesWhole k m ∧ m.id ≠ k

/-- What is not inside of anything that two arguments use as a whole. -/
def Outer (root : Pattern) (k : PatternId) (p q r : Pattern) : Prop :=
  ∀ m, root.Whole k p q m → m.Reaches r → m = r ∨ r.id = k

namespace ApartIn

variable {root p q r d m : Pattern} {k i : PatternId}

theorem eq_of_uses (h : root.ApartIn k p q) (hm : root.Reaches m) (hr : root.Reaches r) (huses : m.Uses r.id) :
    m.Reaches r := by
  obtain ⟨d, hd, hid⟩ := huses
  rwa [← h.numbered.coherent d r (hm.trans hd) hr hid]

theorem outer_child (h : root.ApartIn k p q) (hr : root.Reaches r) (hwhole : ¬root.Whole k p q r)
    (houter : root.Outer k p q r) (hd : d ∈ r.children) : root.Outer k p q d := by
  intro m hm hmd
  rcases hm.2.1 r hr d hd hmd with rfl | hdk | hmr
  · exact .inl rfl
  · exact .inr hdk
  · rcases houter m hm hmr with rfl | hrk
    · exact absurd hm hwhole
    · rw [(h.callee r hr hrk).1] at hd
      cases hd

/-- An outer choice has nothing but its callee in common with the other argument. -/
theorem eq_or_leadingCallee (h : root.ApartIn k p q) (hd : p.Reaches d ∨ q.Reaches d) (hwhole : ¬root.Whole k p q d)
    (houter : root.Outer k p q d) (hbranches : d.branches = true) (hi : d.Uses i) (hp : p.Uses i) (hq : q.Uses i) :
    i = k ∨ ∃ callee, d.leadingCallee? = some callee ∧ callee.id = i := by
  have hnot : ∀ {r}, root.Reaches r → r.id = k → r.branches ≠ true := fun hr hk => by
    rw [(h.callee _ hr hk).2]
    exact Bool.false_ne_true
  have hdroot : root.Reaches d := hd.elim h.left.trans h.right.trans
  rcases h.apart d hd hbranches i hi hp hq with hik | hcallee | ⟨m, hshared, huses, hmd⟩
  · exact .inl hik
  · exact .inr hcallee
  · by_cases hmk : m.id = k
    · have hm := h.left.trans hshared.1
      rcases reaches_iff.1 hmd with rfl | ⟨r, hr, -⟩
      · exact absurd hbranches (hnot hm hmk)
      · rw [(h.callee m hm hmk).1] at hr
        cases hr
    · rcases houter m ⟨hshared, huses, hmk⟩ hmd with rfl | hdk
      · exact absurd ⟨hshared, huses, hmk⟩ hwhole
      · exact absurd hbranches (hnot hdroot hdk)

/-- An outer choice is not common itself. -/
theorem branches_eq_false (h : root.ApartIn k p q) (hd : Shared p q d) (hwhole : ¬root.Whole k p q d)
    (houter : root.Outer k p q d) : d.branches = false := by
  have hroot := h.left.trans hd.1
  by_contra hbranches
  rcases h.eq_or_leadingCallee (.inl hd.1) hwhole houter (by simpa using hbranches) ⟨d, .refl, rfl⟩ ⟨d, hd.1, rfl⟩
    ⟨d, hd.2, rfl⟩ with hk | ⟨callee, hcallee, hid⟩
  · exact hbranches (h.callee d hroot hk).2
  · exact (h.numbered.reaches hroot).not_usesWithin ⟨callee, (leaf_of_leadingCallee? hcallee).1, callee, .refl, hid⟩

/-- What both arguments use and is not made of others, both use as a whole. -/
theorem whole_of_leaf (h : root.ApartIn k p q) (hd : root.Reaches d) (hleaf : d.children = []) (hk : d.id ≠ k)
    (hp : p.Uses d.id) (hq : q.Uses d.id) : root.Whole k p q d := by
  refine ⟨⟨h.eq_of_uses h.left hd hp, h.eq_of_uses h.right hd hq⟩, fun r _ m _ hdm => .inl ?_, hk⟩
  rcases reaches_iff.1 hdm with rfl | ⟨m', hm', -⟩
  · rfl
  · rw [hleaf] at hm'
    cases hm'

/-- What is used as a whole and something else are made of the same only if one is made of the other. -/
theorem linked (h : root.ApartIn k p q) (hm : root.Whole k p q m) (hr : root.Reaches r) (hrd : r.Reaches d)
    (hmd : m.Reaches d) : d.id = k ∨ m.Reaches r ∨ r.Reaches m := by
  induction hrd with
  | refl => exact .inr (.inl hmd)
  | @child r' d hr' hd ih =>
    rcases hm.2.1 r' (hr.trans hr') d hd hmd with rfl | hdk | hmr'
    · exact .inr (.inr (hr'.child hd))
    · exact .inl hdk
    · rcases ih hmr' with hk | hlinked
      · rw [(h.callee r' (hr.trans hr') hk).1] at hd
        cases hd
      · exact .inr hlinked

/-- What two arguments have in common. -/
def sharing (h : root.ApartIn k p q) : Sharing where
  callee := k
  common i := p.Uses i ∧ q.Uses i
  plain r := Shared p q r ∧ ¬root.Whole k p q r ∧ root.Outer k p q r
  whole m := root.Whole k p q m ∧ root.Outer k p q m
  common_of_plain r hr := ⟨⟨r, hr.1.1, rfl⟩, ⟨r, hr.1.2, rfl⟩⟩
  common_of_whole m hm i hi := by
    obtain ⟨d, hd, rfl⟩ := hi
    exact ⟨⟨d, hm.1.1.1.trans hd, rfl⟩, ⟨d, hm.1.1.2.trans hd, rfl⟩⟩
  given i hi := (h.numbered.reaches h.left).given_of_uses hi.1
  numbered r hr := h.numbered.reaches (h.left.trans (hr.elim (·.1.1) (·.1.1.1)))
  noDominator m hm := containsDominator_eq_false_of_reaches (h.left.trans hm.1.1.1) h.noDominator
  coherent r r' hr hr' := h.numbered.coherent r r' (h.left.trans hr.1.1) (h.left.trans hr'.1.1)
  single r hr := h.branches_eq_false hr.1 hr.2.1 hr.2.2
  child r hr d hd := by
    have hshared : Shared p q d := ⟨hr.1.1.child hd, hr.1.2.child hd⟩
    have houter := h.outer_child (h.left.trans hr.1.1) hr.2.1 hr.2.2 hd
    by_cases hwhole : root.Whole k p q d
    · exact .inr ⟨hwhole, houter⟩
    · exact .inl ⟨hshared, hwhole, houter⟩
  separate m hm r hr huses := by
    have hmr := h.eq_of_uses (h.left.trans hm.1.1.1) (h.left.trans hr.1.1) huses
    rcases hr.2.2 m hm.1 hmr with rfl | hk
    · exact absurd hm.1 hr.2.1
    · exact hk
  disjoint m m' hm hm' i hi hi' := by
    obtain ⟨d, hd, rfl⟩ := hi
    have hroot := h.left.trans hm.1.1.1
    have hroot' := h.left.trans hm'.1.1.1
    have hd' := h.eq_of_uses hroot' (hroot.trans hd) hi'
    rcases h.linked hm.1 hroot' hd' hd with hk | hmm' | hm'm
    · exact .inl hk
    · exact .inr ((hm'.2 m hm.1 hmm').resolve_right hm'.1.2.2)
    · exact .inr ((hm.2 m' hm'.1 hm'm).resolve_right hm.1.2.2).symm

/-- An outer choice with its callee in common is a commutative call. -/
theorem apart_of_choice (h : root.ApartIn k p q) {r : Pattern} (hr : p.Reaches r ∨ q.Reaches r)
    (hwhole : ¬root.Whole k p q r) (houter : root.Outer k p q r) (hbranches : r.branches = true) :
    h.sharing.Apart r := by
  have hroot : root.Reaches r := hr.elim h.left.trans h.right.trans
  have hnumbered := h.numbered.reaches hroot
  have hdominator := containsDominator_eq_false_of_reaches hroot h.noDominator
  have hcallee : ∀ i, r.Uses i → h.sharing.common i → i = k ∨ ∃ f, r.leadingCallee? = some f ∧ f.id = i :=
    fun i hi hcommon => h.eq_or_leadingCallee hr hwhole houter hbranches hi hcommon.1 hcommon.2
  by_cases hnone : ∀ i, r.Uses i → h.sharing.common i → i = k
  · exact .choice hnumbered hdominator hnone
  · push Not at hnone
    obtain ⟨i, hi, hcommon, hik⟩ := hnone
    obtain ⟨callee, hleading, rfl⟩ := (hcallee i hi hcommon).resolve_left hik
    obtain ⟨hchild, hleaf, -⟩ := leaf_of_leadingCallee? hleading
    have hshared := h.whole_of_leaf (hroot.child hchild) hleaf hik hcommon.1 hcommon.2
    have houter' := h.outer_child hroot hwhole houter hchild
    refine .call hleading hnumbered hdominator ⟨hshared, houter'⟩ fun i hi hcommon => ?_
    refine (hcallee i hi hcommon).imp_right fun ⟨f, hf, hid⟩ => ?_
    rw [hleading] at hf
    cases hf
    exact hid.symm

theorem apart_of_outer (h : root.ApartIn k p q) {r : Pattern} (hr : p.Reaches r ∨ q.Reaches r)
    (houter : root.Outer k p q r) : h.sharing.Apart r := by
  have hroot : root.Reaches r := hr.elim h.left.trans h.right.trans
  by_cases hwhole : root.Whole k p q r
  · exact .whole ⟨hwhole, houter⟩
  cases hbranches : r.branches with
  | true => exact h.apart_of_choice hr hwhole houter hbranches
  | false =>
    refine .plain (h.numbered.given r hroot) hbranches (fun hcommon => ⟨⟨?_, ?_⟩, hwhole, houter⟩) fun d hd => ?_
    · exact h.eq_of_uses h.left hroot hcommon.1
    · exact h.eq_of_uses h.right hroot hcommon.2
    · exact h.apart_of_outer (hr.imp (·.child hd) (·.child hd)) (h.outer_child hroot hwhole houter hd)
termination_by r.size
decreasing_by exact size_lt_of_mem_children hd

theorem apart_left (h : root.ApartIn k p q) : h.sharing.Apart p :=
  h.apart_of_outer (.inl .refl) fun _ hm hmp => .inl (hmp.antisymm hm.1.1)

theorem apart_right (h : root.ApartIn k p q) : h.sharing.Apart q :=
  h.apart_of_outer (.inr .refl) fun _ hm hmq => .inl (hmq.antisymm hm.1.2)

end ApartIn
end Pattern
end Dataflow
