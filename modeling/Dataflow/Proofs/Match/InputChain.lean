import Dataflow.Proofs.Match.Dominator
import Dataflow.Proofs.Match.Unheld
import Dataflow.Proofs.Pattern.Linear
import Mathlib.Data.List.TakeWhile
/-!
# What a dominator pattern says of chains of inputs

After a match of a dominator pattern, the path accepts everything on a chain of data inputs before what the parent is
bound to (`Covers.accepts`).  A chain that never comes by it ends at a node that the path accepts too: the walk asks
nothing more of a node without inputs.  So what the parent is bound to lies on every chain whose end the path does not
accept (`exists_bound_of_getLast?_not_accepts`), and not on every chain.
-/
namespace Dataflow
namespace MatchContext

open MatchM

variable {c : MatchContext} {path parent : Pattern} {bound : Expr} {t : Trail} {chain : List Expr}

/-- What a path without dominator patterns accepts is as it says. -/
theorem Accepts.reads {e : Expr} (h : c.Accepts path e) (hpath : path.containsDominator = false) :
    c.reads path e = true := by
  obtain ⟨s, s', hs, hrun⟩ := h
  exact ((c.answersUnheld_visit path e hpath [] s hs).of_run hrun).1.symm

/-- Only the node that the parent is bound to satisfies it. -/
theorem satisfied_iff_of_bound (hnegation : parent.isNegation = false) (hbound : t.get? parent.id = some bound)
    (e : Expr) : t.Satisfied parent e ↔ e.id = bound.id := by
  constructor
  · rintro (hneg | ⟨b, hb, hid⟩)
    · rw [hnegation] at hneg
      cases hneg
    · rw [hbound] at hb
      exact Option.some.inj hb ▸ hid.symm
  · exact fun hid => .inr ⟨bound, hbound, hid.symm⟩

/-- The path accepts what stands before the bound node, all of the chain if that does not occur. -/
theorem Covers.accepts (hsatisfied : ∀ e, t.Satisfied parent e ↔ e.id = bound.id) :
    ∀ {chain : List Expr}, c.Covers path parent t chain →
      ∀ d ∈ chain.takeWhile (·.id != bound.id), c.Accepts path d
  | [], _, d, hd => absurd hd List.not_mem_nil
  | e :: chain, h, d, hd => by
    rw [List.takeWhile_cons] at hd
    split at hd
    · rename_i hne
      obtain ⟨haccepts, hchain⟩ := h.resolve_left fun hs => (by simpa using hne : e.id ≠ bound.id) ((hsatisfied e).1 hs)
      rcases List.mem_cons.1 hd with rfl | hd
      · exact haccepts
      · exact hchain.accepts hsatisfied d hd
    · exact absurd hd List.not_mem_nil

theorem exists_bound_of_getLast?_not_accepts
    (h : ∀ d ∈ chain.takeWhile (·.id != bound.id), c.Accepts path d) {last : Expr} (hlast : last ∈ chain.getLast?)
    (hrefused : ¬c.Accepts path last) : ∃ d ∈ chain, d.id = bound.id := by
  by_contra hnone
  push Not at hnone
  have hall : chain.takeWhile (·.id != bound.id) = chain :=
    List.takeWhile_eq_self_iff.2 fun d hd => by simpa using hnone d hd
  exact hrefused (h last (hall.symm ▸ List.mem_of_getLast? hlast))

/-- **After a match of a dominator pattern, the path leads to what the parent is bound to**: on every chain of data
inputs from the expression the path accepts all that stands before the node that the parent is bound to, not held to
earlier bindings, and the node is on every chain whose last node the path does not accept.  What a path without
dominator patterns accepts is as it says. -/
theorem path_leads_to_parent (m m' : Matcher) (registry : Registry) (i : PatternId) (child path parent : Pattern)
    (e : Expr) (hp : (Pattern.dominator i child path parent).Numbered) (hnegation : parent.isNegation = false)
    (h : m.run registry (.dominator i child path parent) e = (.ok true, m')) :
    ∃ bound, m'.trail.get? parent.id = some bound ∧ ∀ chain, e.InputChain chain →
      (∀ d ∈ chain.takeWhile (·.id != bound.id), (m'.context registry).Accepts path d ∧
        (path.containsDominator = false → (m'.context registry).reads path d = true)) ∧
      ∀ last ∈ chain.getLast?, ¬(m'.context registry).Accepts path last → ∃ d ∈ chain, d.id = bound.id := by
  have hparent : parent.Numbered := hp.reaches (Pattern.Reaches.refl.child (by simp [Pattern.children]))
  obtain ⟨⟨_, _, _, _, -, -, -, -, hfound⟩, hcovers⟩ := found_of_run_dominator hparent h
  have hcontext : m'.context registry = (m.prepareGraph e).context registry := by
    rw [context_of_run h, if_pos (by rw [Pattern.containsDominator])]
  rw [← hcontext] at hcovers
  obtain hneg | ⟨bound, hbound, -⟩ := hfound
  · rw [hnegation] at hneg
    cases hneg
  · refine ⟨bound, hbound, fun chain hchain => ?_⟩
    have haccepts := (hcovers chain hchain).accepts (satisfied_iff_of_bound hnegation hbound)
    exact ⟨fun d hd => ⟨haccepts d hd, (haccepts d hd).reads⟩,
      fun _ hlast => exists_bound_of_getLast?_not_accepts haccepts hlast⟩

/-- From a pair of two boxes with one `x`, by way of boxes, all chains lead to `x`. -/
theorem path_leads_to_parent_of_boxed_pair :
    let x := Expr.var ⟨0, none, none⟩ ⟨0, "x"⟩
    let left := Expr.tuple ⟨1, none, none⟩ [x]
    let right := Expr.tuple ⟨2, none, none⟩ [x]
    let pair := Expr.tuple ⟨3, none, none⟩ [left, right]
    let any := Pattern.wildcard (.given 0)
    let isBox := Pattern.anyTuple (.given 1)
    let isX := Pattern.var (.given 2) "x"
    let p := Pattern.dominator (.given 3) any isBox isX
    let m' := (Matcher.initial.run .empty p pair).2
    p.Numbered ∧ isX.isNegation = false ∧ Matcher.initial.run .empty p pair = (.ok true, m') ∧
      ∃ bound, m'.trail.get? isX.id = some bound ∧ ∀ chain, pair.InputChain chain →
        (∀ d ∈ chain.takeWhile (·.id != bound.id), (m'.context .empty).Accepts isBox d ∧
          (isBox.containsDominator = false → (m'.context .empty).reads isBox d = true)) ∧
        ∀ last ∈ chain.getLast?, ¬(m'.context .empty).Accepts isBox last → ∃ d ∈ chain, d.id = bound.id := by
  intro x left right pair any isBox isX p m'
  have hp : p.Numbered := by
    have hmem : p ∈ [any, isBox, isX, p] := by simp
    refine Pattern.numbered_of_closed hmem ?_ ?_ (by decide)
    · simp [p, isX, isBox, any, Pattern.children]
    · simp [p, isX, isBox, any, Pattern.id]
  have hanswer : (Matcher.initial.run .empty p pair).1 = .ok true := by cbv
  have hrun : Matcher.initial.run .empty p pair = (.ok true, m') := Prod.ext hanswer rfl
  exact ⟨hp, rfl, hrun, path_leads_to_parent Matcher.initial m' .empty (.given 3) any isBox isX pair hp rfl hrun⟩

/-- A sum of `relu (conv2d x w)` and `y` matches, by way of anything, a sum with a convolution as its parent, although
the chain from the sum to `y` does not come by the convolution. -/
theorem parent_not_on_every_chain :
    let x := Expr.var ⟨0, none, none⟩ ⟨0, "x"⟩
    let w := Expr.var ⟨1, none, none⟩ ⟨1, "w"⟩
    let y := Expr.var ⟨2, none, none⟩ ⟨2, "y"⟩
    let conv2d := Expr.op ⟨3, none, none⟩ ⟨"nn.conv2d", some 2⟩
    let relu := Expr.op ⟨4, none, none⟩ ⟨"nn.relu", some 1⟩
    let add := Expr.op ⟨5, none, none⟩ ⟨"add", some 2⟩
    let conv := Expr.call ⟨6, none, none⟩ conv2d [x, w] none
    let activation := Expr.call ⟨7, none, none⟩ relu [conv] none
    let e := Expr.call ⟨8, none, none⟩ add [activation, y] none
    let child := Pattern.anyCall (.given 1) (.expr (.given 0) add)
    let path := Pattern.wildcard (.given 2)
    let parent := Pattern.call (.given 6) (.expr (.given 3) conv2d) [.wildcard (.given 4), .wildcard (.given 5)]
    let p := Pattern.dominator (.given 7) child path parent
    let m' := (Matcher.initial.run .empty p e).2
    p.Numbered ∧ p.Linear ∧ (Matcher.initial.run .empty p e).1 = .ok true ∧
      ¬∀ chain, e.InputChain chain → (∀ last ∈ (e :: chain).getLast?, last.dataInputs = []) →
        ∃ bound, m'.trail.get? parent.id = some bound ∧ ∃ d ∈ chain, d.id = bound.id := by
  intro x w y conv2d relu add conv activation e child path parent p m'
  have hp : p.Numbered := by
    have hmem : p ∈ p :: child :: path :: parent :: (child.children ++ parent.children) := by simp
    refine Pattern.numbered_of_closed hmem ?_ ?_ (by decide)
    · simp [p, parent, path, child, Pattern.children]
    · simp [p, parent, path, child, Pattern.children, Pattern.id]
  have hlinear : p.Linear := by
    simp [Pattern.Linear, p, parent, path, child, Pattern.ids_eq, Pattern.children, Pattern.id]
  refine ⟨hp, hlinear, by cbv, fun hclaim => ?_⟩
  have hbound : (m'.trail.get? parent.id).map (·.id) = some conv.id := by
    -- The matcher is evaluated before anything is read from it.
    show (fun r : Except Fault Bool × Matcher => (r.2.trail.get? parent.id).map (·.id))
      (Matcher.initial.run .empty p e) = some conv.id
    cbv
  have hinputs : e.dataInputs = [activation, y] := by rfl
  have hchain : e.InputChain [y] := .cons_cons (hinputs ▸ by simp) (.singleton y)
  obtain ⟨bound, hget, d, hd, hid⟩ := hclaim [y] hchain fun last hlast => by
    obtain rfl : y = last := Option.some.inj hlast
    rfl
  obtain rfl := List.mem_singleton.1 hd
  rw [hget, Option.map_some, ← hid] at hbound
  exact absurd hbound (by decide)

end MatchContext
end Dataflow
