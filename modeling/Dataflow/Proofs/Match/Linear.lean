import Dataflow.Proofs.Match.Judgement
import Dataflow.Proofs.Pattern.Linear
/-!
# A match of a linear pattern is its reading

What a match of a pattern without sharing answers is what its reading says (`run_eq_reads`): that a bound pattern is
held to its node, and that a failure takes bindings back, cannot be told from the answers.  A session that is `Ready`
for some patterns has bound nothing in them.  Matching them only binds what they are made of and patterns made on the
way (`Binds`), so the session stays ready for patterns apart from them, and what failed can be tried again in another
order.
-/
namespace Dataflow

open MatchM

/-- Two patterns have no identity in common. -/
def Pattern.Apart (p q : Pattern) : Prop := ∀ i, p.Uses i → ¬q.Uses i

theorem Pattern.Apart.symm {p q : Pattern} (h : p.Apart q) : q.Apart p := fun i hq hp => h i hp hq

namespace Session

/-- Nothing in some patterns is bound, and bound patterns are held to their nodes. -/
structure Ready (ps : List Pattern) (s : Session) : Prop where
  memoize : s.memoize = true
  supplied : s.Supplied
  unbound : ∀ p ∈ ps, ∀ i, p.Uses i → s.trail.get? i = none
  below : ∀ p ∈ ps, ∀ k, p.Uses (.derived k) → k < s.fresh

/-- A step binds only what some patterns are made of, and what it makes itself. -/
structure Binds (ps : List Pattern) (s s' : Session) : Prop extends s.Extends s' where
  supplied : s.Supplied → s'.Supplied
  unbound : ∀ i, (∀ p ∈ ps, ¬p.Uses i) → (∀ k, i = .derived k → k < s.fresh) → s.trail.get? i = none →
    s'.trail.get? i = none

variable {ps qs : List Pattern} {s s' s'' : Session}

theorem Ready.mono (h : s.Ready ps) (hqs : ∀ q ∈ qs, q ∈ ps) : s.Ready qs :=
  ⟨h.memoize, h.supplied, fun q hq => h.unbound q (hqs q hq), fun q hq => h.below q (hqs q hq)⟩

theorem Binds.refl (s : Session) : s.Binds ps s := ⟨.refl s, id, fun _ _ _ h => h⟩

theorem Binds.trans (h : s.Binds ps s') (h' : s'.Binds ps s'') : s.Binds ps s'' := by
  refine ⟨h.toExtends.trans h'.toExtends, h'.supplied ∘ h.supplied, fun i hi hk hs => ?_⟩
  exact h'.unbound i hi (fun k hik => Nat.lt_of_lt_of_le (hk k hik) h.fresh) (h.unbound i hi hk hs)

theorem Binds.mono (h : s.Binds ps s') (hps : ∀ p ∈ ps, p ∈ qs) : s.Binds qs s' :=
  ⟨h.toExtends, h.supplied, fun i hi => h.unbound i fun p hp => hi p (hps p hp)⟩

theorem Binds.withTrail (h : s.Binds ps s') : s.Binds qs (s'.withTrail s.trail) :=
  ⟨h.toExtends.withTrail, fun hs k hk => hs k (Nat.le_trans h.fresh hk), fun _ _ _ hi => hi⟩

theorem binds_bind {p : Pattern} (s : Session) (e : Expr) (hbelow : ∀ k, p.id = .derived k → k < s.fresh) :
    s.Binds [p] (s.bind p e) := by
  have hget : ∀ i, i ≠ p.id → s.trail.get? i = none → (s.bind p e).trail.get? i = none := fun i hi hs => by
    rw [bind]
    split
    · exact hs
    · rw [Trail.get?_commit, if_neg hi, hs]
  have hextends := s.extends_bind p e
  refine ⟨hextends, fun hs k hk => hget _ (fun hid => ?_) (hs k (Nat.le_trans hextends.fresh hk)), fun i hi _ => ?_⟩
  · have := hbelow k hid.symm
    have := hextends.fresh
    omega
  · refine hget i fun hid => hi p (List.mem_singleton_self p) ?_
    exact Pattern.uses_iff.2 (.inl hid)

/-- What is apart from the patterns that a step binds is as ready as before. -/
theorem Ready.step (h : s.Ready qs) (hs' : s.Binds ps s') (happart : ∀ p ∈ ps, ∀ q ∈ qs, p.Apart q) : s'.Ready qs := by
  refine ⟨hs'.memoize.trans h.memoize, hs'.supplied h.supplied, fun q hq i hi => ?_, fun q hq k hk => ?_⟩
  · refine hs'.unbound i (fun p hp hpi => happart p hp q hq i hpi hi) ?_ (h.unbound q hq i hi)
    rintro k rfl
    exact h.below q hq k hi
  · exact Nat.lt_of_lt_of_le (h.below q hq k hk) hs'.fresh

/-- After a step that left the trail as it was, everything is as ready as before. -/
theorem Ready.restored (h : s.Ready qs) (hs' : s.Binds ps s') (htrail : s'.trail = s.trail) : s'.Ready qs := by
  refine ⟨hs'.memoize.trans h.memoize, hs'.supplied h.supplied, fun q hq i hi => ?_, fun q hq k hk => ?_⟩
  · rw [htrail]
    exact h.unbound q hq i hi
  · exact Nat.lt_of_lt_of_le (h.below q hq k hk) hs'.fresh

end Session

/-- With some patterns, which have nothing in common, ready to match, a step gives a certain answer, if no attribute
keeps it from one. -/
def Says (ps : List Pattern) (m : MatchM Bool) (answer : Bool) : Prop :=
  ps.Pairwise Pattern.Apart → ∀ s : Session, s.Ready ps →
    Ensures m s (fun matched s' => matched = answer ∧ s.Binds ps s') Fault.OfAttribute

namespace Says

variable {ps qs : List Pattern} {m m₁ m₂ : MatchM Bool} {answer answer₁ answer₂ : Bool}

theorem mono (h : Says qs m answer) (hqs : ∀ q ∈ qs, q ∈ ps)
    (hpairwise : ps.Pairwise Pattern.Apart → qs.Pairwise Pattern.Apart) : Says ps m answer := fun hps s hs =>
  (h (hpairwise hps) s (hs.mono hqs)).imp fun _ _ hs' => ⟨hs'.1, hs'.2.mono hqs⟩

theorem part {q : Pattern} (h : Says [q] m answer) (hq : q ∈ ps) : Says ps m answer :=
  h.mono (fun _ hr => List.mem_singleton.1 hr ▸ hq) fun _ => List.pairwise_singleton _ _

theorem pure : Says ps (Pure.pure answer) answer := fun _ s _ => ensures_pure.2 ⟨rfl, .refl s⟩

theorem not (h : Says ps m answer) : Says ps (m >>= fun matched => Pure.pure !matched) (!answer) := fun hps s hs =>
  ensures_bind.2 ((h hps s hs).imp fun _ _ hs' => ensures_pure.2 ⟨congrArg _ hs'.1, hs'.2⟩)

theorem and (hm : Says ps m answer) (h₁ : Says qs m₁ answer₁) :
    Says (ps ++ qs) (m >>= fun matched => if matched then m₁ else Pure.pure false) (answer && answer₁) := by
  intro happart s hs
  obtain ⟨hps, hqs, hcross⟩ := List.pairwise_append.1 happart
  refine ensures_bind.2 ((hm hps s (hs.mono fun _ => List.mem_append_left qs)).imp ?_)
  rintro matched s' ⟨rfl, hs'⟩
  have hbinds : s.Binds (ps ++ qs) s' := hs'.mono fun _ => List.mem_append_left qs
  cases matched with
  | false => exact ensures_pure.2 ⟨rfl, hbinds⟩
  | true =>
    have hready : s'.Ready qs := (hs.mono fun _ => List.mem_append_right ps).step hs' hcross
    refine (h₁ hqs s' hready).imp fun _ s'' hs'' => ⟨hs''.1, ?_⟩
    exact hbinds.trans (hs''.2.mono fun _ => List.mem_append_right ps)

/-- After a failure that is taken back, patterns can be matched that have something in common with those that failed. -/
theorem cases (hm : Says ps m answer) (hatomic : Atomic m) (h₁ : Says qs m₁ answer₁) (h₂ : Says (ps ++ qs) m₂ answer₂) :
    Says (ps ++ qs) (m >>= fun matched => if matched then m₁ else m₂) (if answer then answer₁ else answer₂) := by
  intro happart s hs
  obtain ⟨hps, hqs, hcross⟩ := List.pairwise_append.1 happart
  refine ensures_bind.2 (((hm hps s (hs.mono fun _ => List.mem_append_left qs)).and (hatomic s)).imp ?_)
  rintro matched s' ⟨⟨rfl, hs'⟩, -, hrestored⟩
  have hbinds : s.Binds (ps ++ qs) s' := hs'.mono fun _ => List.mem_append_left qs
  cases matched with
  | false => exact (h₂ happart s' (hs.restored hs' (hrestored rfl))).imp fun _ _ hs'' => ⟨hs''.1, hbinds.trans hs''.2⟩
  | true =>
    have hready : s'.Ready qs := (hs.mono fun _ => List.mem_append_right ps).step hs' hcross
    refine (h₁ hqs s' hready).imp fun _ s'' hs'' => ⟨hs''.1, ?_⟩
    exact hbinds.trans (hs''.2.mono fun _ => List.mem_append_right ps)

theorem orUndo (h : Says ps m answer) : Says ps (MatchM.orUndo m) answer := fun hps s hs => by
  refine .orUndo ((h hps s hs).imp ?_)
  rintro matched s' ⟨rfl, hs'⟩
  cases matched with
  | true => exact ⟨hs'.trail, rfl, hs'⟩
  | false => exact ⟨hs'.trail, rfl, hs'.withTrail⟩

theorem checkFollow {c : MatchContext} {e : Expr} (hc : c.isStuck e = false) (h : Says ps m answer) :
    Says ps (MatchM.checkFollow c e >>= fun _ => m) answer := fun hps s hs => by
  rw [ensures_bind, ensures_checkFollow, hc]
  exact h hps s hs

theorem heldBy {d : LiteralDict} {registry : Registry} {e : Expr} :
    Says ps (liftM (d.heldBy registry e) : MatchM Bool)
      (match d.heldBy registry e with
        | .ok held => held
        | .error _ => false) := fun _ s _ => by
  cases h : d.heldBy registry e with
  | error fault => exact ofAttribute_of_heldBy h
  | ok held => exact ⟨rfl, .refl s⟩

theorem judgement {c : MatchContext} (hfollow : ∀ e, c.isStuck e = false) : c.Judgement Says where
  pure := pure
  part := part
  reverse h := h.mono (fun _ => List.mem_reverse.1) fun happart =>
    List.pairwise_reverse.2 (happart.imp Pattern.Apart.symm)
  not := not
  and := and
  cases := cases
  orUndo := orUndo
  checkFollow e := checkFollow (hfollow e)
  heldBy _ _ := heldBy

/-- Of patterns that are ready one by one, the first that matches decides. -/
theorem ensures_anyM {α : Type} {f : α → MatchM Bool} {p : α → Pattern} {answer : α → Bool} :
    ∀ {l : List α} {s : Session}, (∀ a ∈ l, Atomic (f a) ∧ Says [p a] (f a) (answer a)) → s.Ready (l.map p) →
      Ensures (l.anyM f) s (fun matched s' => matched = l.any answer ∧ s.Binds (l.map p) s') Fault.OfAttribute
  | [], s, _, _ => ensures_pure.2 ⟨rfl, .refl s⟩
  | a :: l, s, h, hs => by
    obtain ⟨⟨hatomic, ha⟩, hl⟩ := List.forall_mem_cons.1 h
    have hready : s.Ready [p a] := hs.mono fun q hq => by simp [List.mem_singleton.1 hq]
    rw [List.anyM_cons, ensures_bind, List.any_cons]
    refine ((ha (List.pairwise_singleton _ _) s hready).and (hatomic s)).imp ?_
    rintro matched s' ⟨⟨hanswer, hs'⟩, -, hrestored⟩
    have hbinds : s.Binds ((a :: l).map p) s' := hs'.mono fun q hq => by simp [List.mem_singleton.1 hq]
    rw [← hanswer]
    cases matched with
    | true => exact ensures_pure.2 ⟨rfl, hbinds⟩
    | false =>
      have hready' : s'.Ready (l.map p) := (hs.restored hs' (hrestored rfl)).mono fun q hq => List.mem_cons_of_mem _ hq
      refine (ensures_anyM hl hready').imp fun _ s'' hs'' => ⟨hs''.1, ?_⟩
      exact hbinds.trans (hs''.2.mono fun q hq => List.mem_cons_of_mem _ hq)

/-- A visit of a pattern answers what its rule answers for the parts. -/
theorem attempt {p : Pattern} {e : Expr} {rule : MatchM Bool} (h : Says p.children rule answer) (hp : p.Linear) :
    Says [p] (MatchM.attempt p e rule) answer := by
  intro _ s hs
  have hp' : p ∈ [p] := List.mem_singleton_self p
  have huses : ∀ q ∈ p.children, ∀ i, q.Uses i → p.Uses i := fun q hq i hi => Pattern.uses_iff.2 (.inr ⟨q, hq, hi⟩)
  have hself : p.Uses p.id := Pattern.uses_iff.2 (.inl rfl)
  have hready : s.Ready p.children := ⟨hs.memoize, hs.supplied, fun q hq i hi => hs.unbound p hp' i (huses q hq i hi),
    fun q hq k hk => hs.below p hp' k (huses q hq _ hk)⟩
  have hfree := hs.unbound p hp' p.id hself
  refine .attempt (fun bound _ hbound => ?_) fun _ => (h hp.apart s hready).imp ?_
  · rw [hfree] at hbound
    cases hbound
  · rintro matched s' ⟨rfl, hs'⟩
    have hbinds : s.Binds [p] s' := ⟨hs'.toExtends, hs'.supplied, fun i hi => hs'.unbound i fun q hq hqi =>
      hi p hp' (huses q hq i hqi)⟩
    cases matched with
    | false => exact ⟨hs'.trail, rfl, hbinds.withTrail⟩
    | true =>
      refine ⟨hs'.trail, rfl, ?_⟩
      rw [if_pos rfl]
      exact hbinds.trans (s'.binds_bind e fun k hk => Nat.lt_of_lt_of_le (hs.below p hp' k (hk ▸ hself)) hs'.fresh)

end Says

namespace MatchContext

variable {c : MatchContext}

/-- The re-associations of a pattern are tried with identities that nothing is bound to. -/
theorem says_reassociations {p : Pattern} {e : Expr} (hp : p.Linear) (hdominator : p.containsDominator = false)
    (again : ∀ n, ∀ q ∈ Pattern.reassociations n p e, q.Linear → q.containsDominator = false →
      Says [q] (c.visit q e) (c.reads q e)) :
    Says p.children (c.visitReassociated p e) ((Pattern.reassociations 0 p e).any (c.reads · e)) := by
  intro _ s hs
  have hwithin : ∀ d, p.Within d → d.Plain s.fresh := by
    rintro d ⟨q, hq, hd⟩
    have hq' := Pattern.containsDominator_eq_false_of_mem_children hq hdominator
    exact ((hp.child hq).plain hq' (hs.below q hq)).reaches hd
  let l := Pattern.reassociations s.fresh p e
  let s₁ : Session := { s with fresh := s.fresh + Pattern.reassociationIds }
  have hready : s₁.Ready (l.attach.map Subtype.val) := by
    refine ⟨hs.memoize, fun k hk => hs.supplied k (Nat.le_trans (Nat.le_add_right ..) hk), ?_, ?_⟩
    all_goals
      rw [List.attach_map_subtype_val]
      intro q hq
    · intro i hi
      rcases Pattern.uses_of_mem_reassociations hq i hi with ⟨r, hr, hi⟩ | ⟨j, rfl, hj, -⟩
      · exact hs.unbound r hr i hi
      · exact hs.supplied j hj
    · exact (Pattern.plain_of_mem_reassociations hwithin hq).below
  have hsays : ∀ q ∈ l.attach, Atomic (c.visit q.1 e) ∧ Says [q.1] (c.visit q.1 e) (c.reads q.1 e) := by
    rintro ⟨q, hq⟩ -
    have hplain := Pattern.plain_of_mem_reassociations hwithin hq
    have hlinear := Pattern.linear_of_mem_reassociations hp (fun k ⟨r, hr, hk⟩ => hs.below r hr k hk) hq
    exact ⟨visit_atomic c q e, again s.fresh q hq hlinear hplain.noDominator⟩
  rw [visitReassociated, ensures_bind, ensures_takeFresh]
  refine (Says.ensures_anyM hsays hready).imp ?_
  rintro matched s' ⟨hmatched, hs'⟩
  refine ⟨?_, ⟨⟨hs'.trail, Nat.le_trans (Nat.le_add_right ..) hs'.fresh⟩, hs'.memoize⟩, fun _ => ?_, fun i hi hk => ?_⟩
  · rw [hmatched, any_reads_reassociations 0 s.fresh]
    exact List.any_subtype (fun _ _ => rfl) |>.trans (by rw [List.unattach_attach])
  · exact hs'.supplied hready.supplied
  · refine hs'.unbound i ?_ fun k hik => Nat.lt_of_lt_of_le (hk k hik) (Nat.le_add_right ..)
    rw [List.attach_map_subtype_val]
    intro q hq hqi
    rcases Pattern.uses_of_mem_reassociations hq i hqi with ⟨r, hr, hri⟩ | ⟨j, rfl, hj, -⟩
    · exact hi r hr hri
    · have := hk j rfl
      omega

/-- **Without sharing, a visit answers what the reading says.** -/
theorem says_visit (hfollow : ∀ e, c.isStuck e = false) (p : Pattern) (e : Expr) (hp : p.Linear)
    (hdominator : p.containsDominator = false) : Says [p] (c.visit p e) (c.reads p e) := by
  induction p, e using c.visit_induction with
  | step p e parts again =>
    have hpart : ∀ q ∈ p.children, ∀ f, Says [q] (c.visit q f) (c.reads q f) := fun q hq f =>
      parts q hq f (hp.child hq) (Pattern.containsDominator_eq_false_of_mem_children hq hdominator)
    obtain ⟨rule, hvisit, hrule⟩ :=
      (Says.judgement hfollow).rule p e hdominator hpart (says_reassociations hp hdominator again)
    rw [hvisit]
    exact .attempt hrule hp

/-- A whole match that begins is a visit from the initial session, in which everything is ready. -/
theorem says_run {m : Matcher} {registry : Registry} {p : Pattern} {e : Expr} (hp : p.Numbered) (hlinear : p.Linear)
    (hdominator : p.containsDominator = false) (hbegins : ¬(m.config.autoJump && m.bindings.isNone) = true) :
    (m.run registry p e).1 = (((m.context registry).visit p e).run .initial).1 ∧
      Ensures ((m.context registry).visit p e) .initial
        (fun matched _ => matched = (m.context registry).reads p e) Fault.OfAttribute := by
  have hready : Session.initial.Ready [p] := by
    refine ⟨rfl, fun _ _ => rfl, fun _ _ _ _ => rfl, fun q hq k hk => ?_⟩
    obtain rfl := List.mem_singleton.1 hq
    exact absurd hk (hp.not_uses_derived k)
  constructor
  · rw [Matcher.run, if_neg hbegins, if_neg (by simp [hdominator])]
    rfl
  · exact (says_visit (isStuck_eq_false hbegins) p e hlinear hdominator (List.pairwise_singleton _ _) _ hready).imp
      fun _ _ hs' => hs'.1

/-- **Without sharing, memory and rollback cannot be observed.**  A match of a pattern without dominator patterns, in
which every position has an identity of its own, answers what the reading of the pattern says, unless comparing an
attribute ends it.  (It does not begin if variables are to be followed and there are no values.) -/
theorem run_eq_reads (m : Matcher) (registry : Registry) (p : Pattern) (e : Expr) (hp : p.Numbered) (hlinear : p.Linear)
    (hdominator : p.containsDominator = false)
    (hattrs : ∀ fault, (m.run registry p e).1 = .error fault → ¬fault.OfAttribute) :
    (m.run registry p e).1 =
      if m.config.autoJump && m.bindings.isNone then .error .noBindings else .ok ((m.context registry).reads p e) := by
  by_cases hstuck : (m.config.autoJump && m.bindings.isNone) = true
  · rw [Matcher.run, if_pos hstuck, if_pos hstuck]
  · obtain ⟨hrun, hanswer⟩ := says_run (m := m) (e := e) hp hlinear hdominator hstuck
    rw [hrun] at hattrs ⊢
    rw [if_neg hstuck]
    unfold Ensures at hanswer
    split at hanswer
    · rename_i heq
      rw [heq, hanswer]
    · rename_i fault _ heq
      exact absurd hanswer (hattrs fault (by rw [heq]))

/-- A quotient of a product, `y * x / z`, matches a product with a quotient inside, `y * (x / z)`, at the second of two
re-associations, after the first has bound and given back one of its parts. -/
theorem run_eq_reads_of_nested_quotient :
    let x := Expr.var ⟨0, none, none⟩ ⟨0, "x"⟩
    let y := Expr.var ⟨1, none, none⟩ ⟨1, "y"⟩
    let z := Expr.var ⟨2, none, none⟩ ⟨2, "z"⟩
    let multiply := Expr.op ⟨3, none, none⟩ ⟨"multiply", some 2⟩
    let divide := Expr.op ⟨4, none, none⟩ ⟨"divide", some 2⟩
    let e := Expr.call ⟨6, none, none⟩ multiply [y, .call ⟨5, none, none⟩ divide [x, z] none] none
    let isMultiply := Pattern.expr (.given 0) multiply
    let isDivide := Pattern.expr (.given 1) divide
    let isY := Pattern.var (.given 2) "y"
    let isX := Pattern.var (.given 3) "x"
    let any := Pattern.wildcard (.given 4)
    let product := Pattern.call (.given 5) isMultiply [isY, isX]
    let p := Pattern.call (.given 6) isDivide [product, any]
    p.Numbered ∧ p.Linear ∧ p.containsDominator = false ∧ (Matcher.initial.run .empty p e).1 = .ok true ∧
      (Matcher.initial.run .empty p e).1 = .ok ((Matcher.initial.context .empty).reads p e) := by
  intro x y z multiply divide e isMultiply isDivide isY isX any product p
  have hp : p.Numbered := by
    have hmem : p ∈ [p, product, any, isX, isY, isDivide, isMultiply] := by simp
    refine Pattern.numbered_of_closed hmem ?_ ?_ (by decide)
    · simp [p, product, any, isX, isY, isDivide, isMultiply, Pattern.children]
    · simp [p, product, any, isX, isY, isDivide, isMultiply, Pattern.id]
  have hlinear : p.Linear := by
    simp [Pattern.Linear, p, product, any, isX, isY, isDivide, isMultiply, Pattern.ids_eq, Pattern.children, Pattern.id]
  have hdominator : p.containsDominator = false := by rfl
  have hrun : (Matcher.initial.run .empty p e).1 = .ok true := by cbv
  refine ⟨hp, hlinear, hdominator, hrun, run_eq_reads Matcher.initial .empty p e hp hlinear hdominator ?_⟩
  rw [hrun]
  exact fun _ h => absurd h (by simp)

end MatchContext
end Dataflow
