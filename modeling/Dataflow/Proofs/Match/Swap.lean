import Dataflow.Proofs.Expr.Comparison
import Dataflow.Proofs.Match.Apart
import Dataflow.Proofs.Match.Joined
import Dataflow.Proofs.Pattern.Linear
/-!
# Calls with their arguments swapped

A pattern for a call of a commutative operator tries its arguments in the order in which they stand and in reverse
(`searchBothOrders`).  For the same call with its arguments swapped it tries what it tried before, in the other order.
The order matters: what a choice in one argument binds is not taken back when the other argument fails
(`isMatch_swap_ne`).  If no choice uses what both arguments use, unless as its callee or as part of what both use as a
whole, each order finds what the other one finds (`searchArgs_swap_iff`), and the swapped call matches if and only if
the call does (`isMatch_swap`).
-/
namespace Dataflow

open MatchM

/-- The session in which nothing but a callee is bound, with a supply from `n` on. -/
def Session.called (callee : Pattern) (f : Expr) (n : Nat) : Session := ⟨Trail.empty.commit callee f, true, n⟩

/-- References to one operator are equal. -/
theorem Expr.equal_of_operator?_eq {target f : Expr} {o : Operator} (h : target.operator? = some o)
    (hf : f.operator? = some o) : target.equal f = true := by
  cases target with
  | op =>
    cases f with
    | op =>
      cases h
      cases hf
      rw [equal, equalUnder.eq_def, Proven.run_remember]
      split
      · rfl
      · exact beq_self_eq_true o.name
    | _ => cases hf
  | _ => cases h

namespace MatchContext

/-- What a search for the arguments answers, after the callee was bound. -/
def searchArgs (c : MatchContext) (callee : Pattern) (f : Expr) (ps : List Pattern) (es : List Expr) :
    Except Fault Bool := ((c.visitAll ps es).run (.called callee f 0)).1

/-- What is found in the order of the arguments, and if nothing is found, what is found in reverse. -/
def searchBothOrders (c : MatchContext) (callee : Pattern) (f : Expr) (ps : List Pattern) (es : List Expr) :
    Except Fault Bool :=
  match c.searchArgs callee f ps es with
  | .ok false => c.searchArgs callee f ps.reverse es
  | answer => answer

variable {c : MatchContext} {callee : Pattern} {f f' : Expr} {ps : List Pattern} {es es' : List Expr}

theorem searchBothOrders_true (h : c.searchBothOrders callee f ps es = .ok true) :
    c.searchArgs callee f ps es = .ok true ∨ c.searchArgs callee f ps.reverse es = .ok true := by
  unfold searchBothOrders at h
  split at h
  · exact .inr h
  · exact .inl h

theorem searchBothOrders_false (h : c.searchBothOrders callee f ps es = .ok false) :
    c.searchArgs callee f ps es = .ok false ∧ c.searchArgs callee f ps.reverse es = .ok false := by
  unfold searchBothOrders at h
  split at h
  · exact ⟨‹_›, h⟩
  · exact absurd h ‹_›

/-- Two calls have the same verdict if what one finds in one order, the other one finds in the other order. -/
theorem searchBothOrders_unique {v v' : Bool}
    (hforwards : c.searchArgs callee f ps es = .ok true ↔ c.searchArgs callee f' ps.reverse es' = .ok true)
    (hbackwards : c.searchArgs callee f ps.reverse es = .ok true ↔ c.searchArgs callee f' ps es' = .ok true)
    (h : c.searchBothOrders callee f ps es = .ok v) (h' : c.searchBothOrders callee f' ps es' = .ok v') : v = v' := by
  have hfound : c.searchBothOrders callee f ps es = .ok true → c.searchBothOrders callee f' ps es' ≠ .ok false :=
    fun h h' => by
      obtain ⟨h₁, h₂⟩ := searchBothOrders_false h'
      rcases searchBothOrders_true h with h | h
      · rw [hforwards, h₂] at h
        cases h
      · rw [hbackwards, h₁] at h
        cases h
  have hfound' : c.searchBothOrders callee f' ps es' = .ok true → c.searchBothOrders callee f ps es ≠ .ok false :=
    fun h' h => by
      obtain ⟨h₁, h₂⟩ := searchBothOrders_false h
      rcases searchBothOrders_true h' with h' | h'
      · rw [← hbackwards, h₂] at h'
        cases h'
      · rw [← hforwards, h₁] at h'
        cases h'
  cases v <;> cases v'
  · rfl
  · exact absurd h (hfound' h')
  · exact absurd h' (hfound h)
  · rfl

theorem get?_called (callee : Pattern) (f : Expr) (n : Nat) (i : PatternId) :
    (Session.called callee f n).trail.get? i = if i = callee.id then some f else none := by
  rw [Session.called, Trail.get?_commit]
  rfl

theorem supplied_called (hk : ∃ k, callee.id = .given k) (f : Expr) (n : Nat) :
    (Session.called callee f n).Supplied := by
  intro i _
  obtain ⟨k, hk⟩ := hk
  rw [get?_called, if_neg (by rw [hk]; nofun)]

/-- A call pattern whose callee matches a commutative operator searches its arguments in both orders. -/
theorem run_visit_call {i j : PatternId} {target : Expr} {info : NodeInfo} {attrs : Option Attrs} {o : Operator}
    (hc : c.config.commutative = true) (ho : target.operator? = some o) (hcomm : o.isCommutative = true)
    (hf : f.operator? = some o) (hj : ∃ k, j = .given k)
    (hps : ∀ p ∈ ps, p.Numbered ∧ p.containsDominator = false) :
    ((c.visit (.call i (.expr j target) ps) (.call info f es attrs)).run .initial).1 =
      c.searchBothOrders (.expr j target) f ps es := by
  have hfollow : c.follow (.call info f es attrs) = .call info f es attrs := c.follow_of_var?_eq_none rfl
  have hcheck : checkFollow c (.call info f es attrs) = pure () := by
    simp [checkFollow, isStuck, Expr.var?]
  have hcallee : (c.visit (.expr j target) f).run .initial = (.ok true, .called (.expr j target) f 0) := by
    refine (succeeds_visit rfl rfl).2 (.inr ⟨rfl, [], ?_, .initial, rfl, rfl⟩)
    rw [demands, Expr.equal_of_operator?_eq ho hf]
    rfl
  have hgrows : ∀ ps, Keeps Session.Grows (c.visitAll ps es) := fun _ =>
    .visitAll fun p _ e => (c.visit_atomic p e).keeps.grows
  have hswaps : (c.config.commutative && (Pattern.expr j target).operator?.any (·.isCommutative)) = true := by
    simp [hc, Pattern.operator?, ho, hcomm]
  rw [visit_eq_visitBy, visitBy, run_attempt (c.extends_ruleBy _ _).grows]
  simp only [ruleBy, hfollow, hcheck, pure_bind, formBy, visitAllBy_visit, hswaps, if_true]
  rw [run_bind, hcallee]
  dsimp only
  rw [if_pos rfl, run_bind, run_orUndo (hgrows ps), searchBothOrders, searchArgs, searchArgs]
  rw [show (if Session.initial.memoize = true then Session.initial.trail.get? _ else none) = none from rfl]
  rcases hrun : (c.visitAll ps es).run (.called (.expr j target) f 0) with ⟨_ | _ | _, s'⟩
  · rfl
  · have hkeeps : Keeps Session.Extends (c.visitAll ps es) := .visitAll fun p _ e => (c.visit_atomic p e).keeps
    have hextends : (Session.called (.expr j target) f 0).Extends s' := (hkeeps _).of_run hrun
    have hback : s'.withTrail (Session.called (.expr j target) f 0).trail = .called (.expr j target) f s'.fresh := by
      rw [Session.withTrail, hextends.memoize]
      rfl
    have hcallee : ∃ k, (Pattern.expr j target).id = .given k := hj
    have hsame : (Session.called (.expr j target) f 0).AgreesOn (fun i => ∃ n, i = .given n)
        (.called (.expr j target) f s'.fresh) :=
      ⟨rfl, supplied_called hcallee f 0, supplied_called hcallee f s'.fresh, fun _ _ => rfl⟩
    rw [run_visitAll_eq hsame (fun _ => id) fun p hp => ⟨(hps p (List.mem_reverse.1 hp)).1,
      (hps p (List.mem_reverse.1 hp)).2, fun _ => (hps p (List.mem_reverse.1 hp)).1.given_of_uses⟩]
    dsimp only
    rw [hback, if_neg Bool.false_ne_true, run_orUndo (hgrows ps.reverse)]
    rcases (c.visitAll ps.reverse es).run (.called (.expr j target) f s'.fresh) with ⟨_ | _ | _, _⟩ <;> rfl
  · rfl

/-- The callee does not matter to arguments that do not use it. -/
theorem searchArgs_eq_of_unused (hk : ∃ k, callee.id = .given k)
    (hps : ∀ p ∈ ps, p.Numbered ∧ p.containsDominator = false ∧ ¬p.Uses callee.id) (f f' : Expr) :
    c.searchArgs callee f ps es = c.searchArgs callee f' ps es := by
  have hsame : (Session.called callee f 0).AgreesOn (fun i => (∃ n, i = .given n) ∧ i ≠ callee.id)
      (.called callee f' 0) := by
    refine ⟨rfl, supplied_called hk f 0, supplied_called hk f' 0, fun i hi => ?_⟩
    rw [get?_called, get?_called, if_neg hi.2, if_neg hi.2]
  exact run_visitAll_eq hsame (fun _ hi => hi.1) fun p hp => ⟨(hps p hp).1, (hps p hp).2.1, fun _ hi =>
    ⟨(hps p hp).1.given_of_uses hi, fun hic => (hps p hp).2.2 (hic ▸ hi)⟩⟩

section
variable {known : Expr → Prop} {root p q : Pattern} {j : PatternId} {target x y : Expr} (h : root.ApartIn j p q)
  (hcallee : root.Reaches (.expr j target))

include h hcallee

theorem starts_called (f : Expr) : (Session.called (.expr j target) f 0).Starts h.sharing := by
  have hk := h.numbered.given _ hcallee
  refine ⟨rfl, supplied_called hk f 0, ⟨f, ?_⟩, fun m hm => ?_⟩
  · rw [get?_called]
    exact if_pos rfl
  · rw [get?_called]
    exact if_neg hm.1.2.2

/-- The callee pattern demands nothing. -/
theorem traced_called (hequal : target.equal f = true) (hf : known f) :
    (Session.called (.expr j target) f 0).Traced h.sharing c known (.called (.expr j target) f 0) := by
  refine (starts_called h hcallee f).traced fun r hr e he => ?_
  rw [get?_called] at he
  split at he
  · obtain rfl := h.numbered.coherent r _ (h.left.trans hr.1.1) hcallee ‹_›
    obtain rfl := Option.some.inj he
    exact ⟨hf, by simp [demands, hequal]⟩
  · cases he

/-- **What a call finds in one order, a call with the arguments swapped finds in the other one.** -/
theorem searchArgs_swap_iff (hequal : target.equal f = true) (hequal' : target.equal f' = true)
    (hop : f = f' ∨ ¬p.Uses j ∧ ¬q.Uses j) (hknown : c.Knows known) (hf : known f) (hf' : known f') (hx : known x)
    (hy : known y) : c.searchArgs (.expr j target) f [p, q] [x, y] = .ok true ↔
      c.searchArgs (.expr j target) f' [q, p] [y, x] = .ok true := by
  have hpart : ∀ {r}, root.Reaches r → r.Numbered ∧ r.containsDominator = false := fun hr =>
    ⟨h.numbered.reaches hr, Pattern.containsDominator_eq_false_of_reaches hr h.noDominator⟩
  have hsame : ∀ {ps es}, (∀ r ∈ ps, r = p ∨ r = q) → c.searchArgs (.expr j target) f ps es =
      c.searchArgs (.expr j target) f' ps es := fun {ps es} hps => by
    rcases hop with rfl | ⟨hpj, hqj⟩
    · rfl
    · refine searchArgs_eq_of_unused (h.numbered.given _ hcallee) (fun r hr => ?_) f f'
      rcases hps r hr with rfl | rfl
      · exact ⟨(hpart h.left).1, (hpart h.left).2, hpj⟩
      · exact ⟨(hpart h.right).1, (hpart h.right).2, hqj⟩
  have hstarts := starts_called h hcallee
  constructor
  · intro hfound
    rw [← hsame (by simp)]
    exact run_visitAll_swap (hstarts f) hknown (traced_called h hcallee hequal hf) h.apart_left h.apart_right
      (fun _ => And.intro) hx hy hfound
  · intro hfound
    rw [hsame (by simp)]
    exact run_visitAll_swap (hstarts f') hknown (traced_called h hcallee hequal' hf') h.apart_right h.apart_left
      (fun _ hq hp => ⟨hp, hq⟩) hy hx hfound

/-- The same where the pattern stands in reverse. -/
theorem searchArgs_reverse_iff (hequal : target.equal f = true) (hequal' : target.equal f' = true)
    (hop : f = f' ∨ ¬p.Uses j ∧ ¬q.Uses j) (hknown : c.Knows known) (hf : known f) (hf' : known f') (hx : known x)
    (hy : known y) : c.searchArgs (.expr j target) f [q, p] [x, y] = .ok true ↔
      c.searchArgs (.expr j target) f' [p, q] [y, x] = .ok true :=
  (searchArgs_swap_iff h hcallee hequal' hequal (hop.imp_left Eq.symm) hknown hf' hf hy hx).symm

end
end MatchContext

namespace Pattern

open MatchContext

/-- The match of a call by a call pattern for its commutative operator. -/
theorem isMatch_call {i j : PatternId} {target f x y : Expr} {p q : Pattern} {o : Operator}
    (hp : (call i (expr j target) [p, q]).Numbered)
    (hdominator : (call i (expr j target) [p, q]).containsDominator = false) (ho : target.operator? = some o)
    (hcomm : o.isCommutative = true) (hf : f.operator? = some o) (info : NodeInfo) (attrs : Option Attrs)
    (registry : Registry) :
    (call i (expr j target) [p, q]).isMatch registry (.call info f [x, y] attrs) none =
      ((matcher none).context registry).searchBothOrders (expr j target) f [p, q] [x, y] := by
  have hparts : ∀ r ∈ [p, q], r.Numbered ∧ r.containsDominator = false := fun r hr =>
    have hchild : r ∈ (call i (expr j target) [p, q]).children := List.mem_cons_of_mem _ hr
    ⟨hp.reaches (Reaches.refl.child hchild), containsDominator_eq_false_of_mem_children hchild hdominator⟩
  obtain ⟨k, hk⟩ := hp.given (expr j target) (Reaches.refl.child (by simp [children]))
  have hrun : ((((matcher none).context registry).visit (call i (expr j target) [p, q])
      (.call info f [x, y] attrs)).run .initial).1 =
        ((matcher none).context registry).searchBothOrders (expr j target) f [p, q] [x, y] :=
    run_visit_call rfl ho hcomm hf ⟨k, hk⟩ hparts
  have hstuck : ¬((matcher none).config.autoJump && (matcher none).bindings.isNone) = true := Bool.false_ne_true
  refine Eq.trans ?_ hrun
  rw [isMatch, Matcher.run, if_neg hstuck, if_neg (by simp [hdominator])]
  rfl

/-- **Calls of commutative operators match with their arguments swapped.**  A pattern calls a commutative operator with
two arguments, in which patterns may occur again and again, with one exception: no choice in one argument uses a
pattern that both arguments use, other than the callee pattern, unless as part of one that both use as a whole.  Nor
does it matter that a choice is a call of a commutative operator whose callee both arguments use, as in a sum of two
products, provided that it is not a product of a quotient.  Then the pattern matches a call of the operator if and
only if it matches the call with the arguments swapped, provided that the callee pattern is not used in the arguments if
the two calls refer to the operator by different nodes.  Only comparing attributes can keep a match from a verdict. -/
theorem isMatch_swap (i j : PatternId) (target : Expr) (o : Operator) (ho : target.operator? = some o)
    (hcomm : o.isCommutative = true) (p q : Pattern) (hp : (call i (expr j target) [p, q]).Numbered)
    (hdominator : (call i (expr j target) [p, q]).containsDominator = false)
    (hchoices : (call i (expr j target) [p, q]).ChoosesApart j p q) (x y f f' : Expr) (hf : f.operator? = some o)
    (hf' : f'.operator? = some o) (hop : f = f' ∨ ¬p.Uses j ∧ ¬q.Uses j)
    (hnumbers : Expr.CoherentAll [f, f', x, y]) (info info' : NodeInfo) (attrs attrs' : Option Attrs)
    (registry : Registry) :
    (∀ v v', (call i (expr j target) [p, q]).isMatch registry (.call info f [x, y] attrs) none = .ok v →
      (call i (expr j target) [p, q]).isMatch registry (.call info' f' [y, x] attrs') none = .ok v' → v = v') ∧
    ((∀ k r entries, ¬(call i (expr j target) [p, q]).Reaches (.hasAttrs k r entries)) → ∃ v,
      (call i (expr j target) [p, q]).isMatch registry (.call info f [x, y] attrs) none = .ok v ∧
        (call i (expr j target) [p, q]).isMatch registry (.call info' f' [y, x] attrs') none = .ok v) := by
  have hchild : ∀ r ∈ [expr j target, p, q], (call i (expr j target) [p, q]).Reaches r := fun r hr =>
    Reaches.refl.child hr
  have hcallee := hchild (expr j target) (by simp)
  have hapart : (call i (expr j target) [p, q]).ApartIn j p q := by
    refine ⟨hp, hdominator, fun d hd hid => ?_, hchild p (by simp), hchild q (by simp), hchoices⟩
    rw [hp.coherent d _ hd hcallee hid]
    exact ⟨rfl, rfl⟩
  let c := (matcher none).context registry
  let known : Expr → Prop := fun d => ∃ r ∈ [f, f', x, y], r.Reaches d
  have hclosed : c.Closed known := ⟨fun _ he => he, fun _ he _ hd => he.imp fun _ hr => ⟨hr.1, hr.2.child hd⟩⟩
  have hknown : c.Knows known := ⟨hclosed, hnumbers⟩
  have hroot : ∀ d ∈ [f, f', x, y], known d := fun d hd => ⟨d, hd, .refl⟩
  have hequal : ∀ {g : Expr}, g.operator? = some o → target.equal g = true := Expr.equal_of_operator?_eq ho
  have hforwards := searchArgs_swap_iff hapart hcallee (hequal hf) (hequal hf') hop hknown (hroot f (by simp))
    (hroot f' (by simp)) (hroot x (by simp)) (hroot y (by simp))
  have hbackwards := searchArgs_reverse_iff hapart hcallee (hequal hf) (hequal hf') hop hknown (hroot f (by simp))
    (hroot f' (by simp)) (hroot x (by simp)) (hroot y (by simp))
  have hverdicts : ∀ v v', c.searchBothOrders (expr j target) f [p, q] [x, y] = .ok v →
      c.searchBothOrders (expr j target) f' [p, q] [y, x] = .ok v' → v = v' := fun _ _ =>
    searchBothOrders_unique hforwards hbackwards
  rw [← isMatch_call hp hdominator ho hcomm hf info attrs registry,
    ← isMatch_call hp hdominator ho hcomm hf' info' attrs' registry] at hverdicts
  refine ⟨hverdicts, fun hattrs => ?_⟩
  obtain ⟨v, hv⟩ := exists_isMatch_eq_ok hdominator hattrs registry (.call info f [x, y] attrs) none
  obtain ⟨v', hv'⟩ := exists_isMatch_eq_ok hdominator hattrs registry (.call info' f' [y, x] attrs') none
  exact ⟨v, hv, hverdicts v v' hv hv' ▸ hv'⟩

/-- A product of an image under `f` and a triple, both of anything, of a constant or `z`, and of a sum, where one
reference to the operator is used for both sums. -/
theorem isMatch_swap_of_shared_operand :
    let u := Expr.var ⟨0, none, none⟩ ⟨0, "u"⟩
    let z := Expr.var ⟨1, none, none⟩ ⟨1, "z"⟩
    let times := Expr.op ⟨2, none, none⟩ ⟨"multiply", some 2⟩
    let times' := Expr.op ⟨3, none, none⟩ ⟨"multiply", some 2⟩
    let plus := Expr.op ⟨4, none, none⟩ ⟨"add", some 2⟩
    let uz := Expr.call ⟨5, none, none⟩ plus [u, z] none
    let zu := Expr.call ⟨6, none, none⟩ plus [z, u] none
    let image := Expr.call ⟨8, none, none⟩ (.external ⟨7, none, none⟩ "f") [u, z, uz] none
    let triple := Expr.tuple ⟨9, none, none⟩ [u, z, zu]
    let any := Pattern.wildcard (.given 0)
    let isZ := Pattern.either (.given 3) (.constant (.given 1)) (.var (.given 2) "z")
    let isPlus := Pattern.expr (.given 4) plus
    let isSum := fun n => Pattern.call (.given (n + 2)) isPlus [.wildcard (.given n), .wildcard (.given (n + 1))]
    let isImage := Pattern.call (.given 12) (.external (.given 11) "f") [any, isZ, isSum 5]
    let isTriple := Pattern.tuple (.given 13) [any, isZ, isSum 8]
    let p := Pattern.call (.given 15) (.expr (.given 14) times) [isImage, isTriple]
    p.Numbered ∧ p.containsDominator = false ∧ p.ChoosesApart (.given 14) isImage isTriple ∧
      (¬isImage.Uses (.given 14) ∧ ¬isTriple.Uses (.given 14)) ∧ Expr.CoherentAll [times, times', image, triple] ∧
      p.isMatch .empty (.call ⟨10, none, none⟩ times [image, triple] none) none = .ok true ∧
      p.isMatch .empty (.call ⟨11, none, none⟩ times' [triple, image] none) none = .ok true := by
  intro u z times times' plus uz zu image triple any isZ isPlus isSum isImage isTriple p
  let qs := [isImage, .external (.given 11) "f", isTriple, any, isZ, .constant (.given 1), .var (.given 2) "z", isSum 5,
    isSum 8, isPlus, .wildcard (.given 5), .wildcard (.given 6), .wildcard (.given 8), .wildcard (.given 9)]
  have hqs : ∀ q ∈ qs, ∀ r ∈ q.children, r ∈ qs := by
    simp [qs, isImage, isTriple, isZ, isSum, isPlus, any, children]
  let ps := p :: .expr (.given 14) times :: qs
  have hclosed : ∀ q ∈ ps, ∀ r ∈ q.children, r ∈ ps := by
    simp [ps, qs, p, isImage, isTriple, isZ, isSum, isPlus, any, children]
  have hmem : ∀ d, p.Reaches d → d ∈ ps := fun d hd => hd.mem_of_closed (by simp [ps]) hclosed
  have hgiven : ∀ q ∈ ps, ∃ n, q.id = .given n := by
    simp [ps, qs, p, isImage, isTriple, isZ, isSum, isPlus, any, Pattern.id]
  have hp : p.Numbered := numbered_of_closed (by simp [ps]) hclosed hgiven (by decide)
  have hwhole : p.UsesWhole (.given 14) isZ := fun r hr d hd hzd => by
    have hr := hmem r hr
    have hd' : d ∈ [isZ, .constant (.given 1), .var (.given 2) "z"] :=
      hzd.mem_of_closed (by simp) (by simp [isZ, children])
    simp only [ps, qs, List.mem_cons, List.not_mem_nil, or_false] at hr hd'
    rcases hd' with rfl | rfl | rfl
    · exact .inl rfl
    all_goals
      rcases hr with rfl | rfl | rfl | rfl | rfl | rfl | rfl | rfl | rfl | rfl | rfl | rfl | rfl | rfl | rfl | rfl <;>
        simp [p, isImage, isTriple, isZ, isSum, isPlus, any, children] at hd
      exact .inr (.inr .refl)
  have hcalled : ∀ n ∈ [5, 8], ∀ i, (isSum n).Uses i → isImage.Uses i → isTriple.Uses i → isPlus.id = i := by
    simp [← mem_ids_iff, isImage, isTriple, isZ, isSum, isPlus, any, ids_eq, children, Pattern.id]
  have hchoices : p.ChoosesApart (.given 14) isImage isTriple := fun d hd hbranches i hi hi₁ hi₂ => by
    have hd' : d ∈ qs := hd.elim (·.mem_of_closed (by simp [qs]) hqs) (·.mem_of_closed (by simp [qs]) hqs)
    simp only [qs, List.mem_cons, List.not_mem_nil, or_false] at hd'
    rcases hd' with rfl | rfl | rfl | rfl | rfl | rfl | rfl | rfl | rfl | rfl | rfl | rfl | rfl | rfl <;>
      try cases hbranches
    · have hshared : Shared isImage isTriple isZ :=
        ⟨Reaches.refl.child (by simp [isImage, children]), Reaches.refl.child (by simp [isTriple, children])⟩
      exact .inr (.inr ⟨isZ, hshared, hwhole, .refl⟩)
    · exact .inr (.inl ⟨isPlus, rfl, hcalled 5 (by simp) i hi hi₁ hi₂⟩)
    · exact .inr (.inl ⟨isPlus, rfl, hcalled 8 (by simp) i hi hi₁ hi₂⟩)
  have hcallee : ¬isImage.Uses (.given 14) ∧ ¬isTriple.Uses (.given 14) := by
    simp [← mem_ids_iff, isImage, isTriple, isZ, isSum, isPlus, any, ids_eq, children, Pattern.id]
  have hnumbers : Expr.CoherentAll [times, times', image, triple] := by
    let es := [times, times', image, triple, .external ⟨7, none, none⟩ "f", u, z, uz, zu, plus]
    have hchildren : ∀ e ∈ es, ∀ d ∈ e.children, d ∈ es := by
      simp [es, times, times', image, triple, uz, zu, plus, u, z, Expr.children]
    exact Expr.coherentAll_of_closed (by simp [es]) hchildren (by decide)
  have hmatched : p.isMatch .empty (.call ⟨10, none, none⟩ times [image, triple] none) none = .ok true := by
    subst p isTriple isImage isSum isPlus isZ any triple image zu uz plus times u z
    cbv
  have hattrs : ∀ k r entries, ¬p.Reaches (.hasAttrs k r entries) := fun k r entries hr => by
    have := hmem _ hr
    simp [ps, qs, p, isImage, isTriple, isZ, isSum, isPlus, any] at this
  obtain ⟨v, hv, hv'⟩ := (isMatch_swap (.given 15) (.given 14) times _ rfl rfl isImage isTriple hp rfl hchoices image
    triple times times' rfl rfl (.inr hcallee) hnumbers ⟨10, none, none⟩ ⟨11, none, none⟩ none none .empty).2 hattrs
  obtain rfl : v = true := Except.ok.inj (hv.symm.trans hmatched)
  exact ⟨hp, rfl, hchoices, hcallee, hnumbers, hmatched, hv'⟩

/-- A match that meets what it cannot compare has no verdict, and with the arguments swapped it may be over before. -/
example :
    let null := Expr.call ⟨1, none, none⟩ (.external ⟨0, none, none⟩ "f") [] (some ⟨"", [("k", .null)]⟩)
    let one := Expr.call ⟨2, none, none⟩ (.external ⟨0, none, none⟩ "f") [] (some ⟨"", [("k", .int 1)]⟩)
    let times := Expr.op ⟨3, none, none⟩ ⟨"multiply", some 2⟩
    let isOne := Pattern.hasAttrs (.given 2) (.wildcard (.given 1)) ⟨[("k", .int 1)]⟩
    let p := Pattern.call (.given 4) (.expr (.given 3) times) [.wildcard (.given 0), isOne]
    p.isMatch .empty (.call ⟨4, none, none⟩ times [null, one] none) none = .ok true ∧
      p.isMatch .empty (.call ⟨5, none, none⟩ times [one, null] none) none = .error (.unsupportedKind .null) := by
  intro null one times isOne p
  subst p isOne times one null
  exact ⟨by cbv, by cbv⟩

/-- **The order of the arguments matters to choices that have something in common.**  A sum of two products with the
same factor is found where the factor stands first in the first product, though not where the products are swapped: the
first product then binds it to its other factor, and that is not taken back. -/
theorem isMatch_swap_ne :
    let u := Expr.var ⟨0, none, none⟩ ⟨0, "u"⟩
    let v := Expr.var ⟨1, none, none⟩ ⟨1, "v"⟩
    let w := Expr.var ⟨2, none, none⟩ ⟨2, "w"⟩
    let plus := Expr.op ⟨3, none, none⟩ ⟨"add", some 2⟩
    let times := fun n => Expr.op ⟨n, none, none⟩ ⟨"multiply", some 2⟩
    let uv := Expr.call ⟨5, none, none⟩ (times 4) [u, v] none
    let wu := Expr.call ⟨7, none, none⟩ (times 6) [w, u] none
    let factor := Pattern.wildcard (.given 0)
    let isProduct := fun n =>
      Pattern.call (.given (n + 2)) (.expr (.given (n + 1)) (times 8)) [factor, .wildcard (.given n)]
    let p := Pattern.call (.given 8) (.expr (.given 7) plus) [isProduct 1, isProduct 4]
    p.Numbered ∧ p.containsDominator = false ∧
      p.isMatch .empty (.call ⟨9, none, none⟩ plus [uv, wu] none) none = .ok true ∧
      p.isMatch .empty (.call ⟨10, none, none⟩ plus [wu, uv] none) none = .ok false := by
  intro u v w plus times uv wu factor isProduct p
  let ps := [p, .expr (.given 7) plus, isProduct 1, .expr (.given 2) (times 8), factor, .wildcard (.given 1),
    isProduct 4, .expr (.given 5) (times 8), .wildcard (.given 4)]
  have hclosed : ∀ q ∈ ps, ∀ r ∈ q.children, r ∈ ps := by simp [ps, p, isProduct, factor, children]
  have hgiven : ∀ q ∈ ps, ∃ n, q.id = .given n := by simp [ps, p, isProduct, factor, Pattern.id]
  have hp : p.Numbered := numbered_of_closed (by simp [ps]) hclosed hgiven (by decide)
  subst p isProduct factor wu uv times plus w v u
  exact ⟨hp, rfl, by cbv, by cbv⟩

end Pattern
end Dataflow
