import Dataflow.Proofs.Builder.Constant
import Dataflow.Proofs.Match.Supply
import Dataflow.Proofs.SymInt.Overflow
import Dataflow.Proofs.SymInt.Soundness
/-!
# The shape of a constant

A constant has unsigned words for dimensions, and a shape has signed ones.  The shape of a constant reads a dimension
as itself if it is a signed word, and otherwise as itself less `2^64` (`Word.toInt_toInt64`).  A constant without a zero
dimension has at least as many elements as each dimension says, so its dimensions are read as they are as long as the
number of its elements is a signed word.  A zero dimension says nothing of the others, and they can be any words.
-/
namespace Dataflow

namespace Word

theorem toInt_toInt64 (n : UInt64) :
    n.toInt64.toInt = if Fits n.toNat then (n.toNat : Int) else (n.toNat : Int) - UInt64.size := by
  have hlt := n.toNat_lt
  have hcond : n.toInt64.toInt = if 2 * n.toNat < 2 ^ 64 then (n.toNat : Int) else (n.toNat : Int) - (2 ^ 64 : Nat) :=
    BitVec.toInt_eq_toNat_cond n.toBitVec
  have hfits : Fits n.toNat ↔ 2 * n.toNat < 2 ^ 64 := by
    unfold Fits
    rw [Int64.toInt_minValue, Int64.toInt_maxValue]
    omega
  simp only [hcond, hfits]
  rfl

theorem toInt_toInt64_eq_iff (n : UInt64) : n.toInt64.toInt = n.toNat ↔ Fits n.toNat := by
  have hsize : (0 : Int) < UInt64.size := by decide
  rw [toInt_toInt64]
  split
  · exact iff_of_true rfl ‹_›
  · exact iff_of_false (by omega) ‹_›

/-- A list of words is read as it is exactly if each of them is. -/
theorem map_toInt_toInt64_eq_iff (ws : List UInt64) :
    (ws.map UInt64.toInt64).map Int64.toInt = ws.map (fun n => (n.toNat : Int)) ↔ ∀ n ∈ ws, Fits n.toNat := by
  rw [List.map_map, List.map_inj_left]
  exact forall₂_congr fun n _ => toInt_toInt64_eq_iff n

theorem toNat_le_prod_of_mem {ws : List UInt64} {n : UInt64} (h : 0 ∉ ws) (hn : n ∈ ws) :
    n.toNat ≤ (ws.map UInt64.toNat).prod := by
  have hzero : 0 ∉ ws.map UInt64.toNat := by
    intro hmem
    obtain ⟨w, hw, hw0⟩ := List.mem_map.1 hmem
    have hw0 : w = 0 := UInt64.toNat_inj.1 hw0
    exact h (hw0 ▸ hw)
  exact Nat.le_of_dvd (Nat.pos_of_ne_zero (List.prod_ne_zero hzero)) (List.dvd_prod (List.mem_map_of_mem hn))

end Word

namespace Prover

theorem provesEqual_lit_iff (r : Prover) (v w : Int64) : r.provesEqual (.lit v) (.lit w) = true ↔ v = w := by
  rw [provesEqual, normalize_lit, normalize_lit]
  constructor
  · intro h
    have hconstant := Polynomial.constant?_eq_of_toList_eq (Polynomial.beq_iff.1 h)
    rw [Polynomial.constant?_constant, Polynomial.constant?_constant] at hconstant
    exact Option.some.inj hconstant
  · rintro rfl
    exact Polynomial.beq_iff.2 rfl

/-- Shapes made of integers are proved equal exactly if they are the same. -/
theorem shapesEqual_lit_iff (r : Prover) : ∀ vs ws : List Int64,
    r.oracle.shapesEqual (vs.map .lit) (ws.map .lit) = true ↔ vs = ws
  | [], [] => iff_of_true rfl rfl
  | [], _ :: _ => iff_of_false Bool.false_ne_true (List.cons_ne_nil _ _).symm
  | _ :: _, [] => iff_of_false Bool.false_ne_true (List.cons_ne_nil _ _)
  | v :: vs, w :: ws => by
    have htail := shapesEqual_lit_iff r vs ws
    have hhead := r.provesEqual_lit_iff v w
    simp only [shapesEqual_oracle, Bool.and_eq_true, beq_iff_eq, List.length_map] at htail
    simp only [shapesEqual_oracle, List.map_cons, List.zip_cons_cons, List.all_cons, List.length_cons,
      Bool.and_eq_true, beq_iff_eq, List.length_map, Nat.succ_inj, List.cons.injEq, hhead, ← htail]
    exact and_left_comm

end Prover

namespace Build

theorem constant_eq_ok {b b' : Builder} {dtype : DType} {dims : List UInt64} {data : List Element} {e : Expr}
    (h : constant dtype dims data b = .ok (e, b')) :
    e = .constant ⟨b.nextNode, none, none⟩ ⟨dtype, dims, data⟩ ∧ data.length = (dims.map UInt64.toNat).prod := by
  cases hproduct : Word.product? dims with
  | none =>
    rw [constant_of_product?_eq_none hproduct] at h
    cases h
  | some expected =>
    rw [constant_of_product? hproduct] at h
    split at h
    · rename_i hlength
      cases h
      exact ⟨rfl, hlength.trans (Word.toNat_of_product? hproduct)⟩
    · cases h

end Build

namespace MatchContext

open MatchM

/-- From an empty trail a pattern with a shape matches what its inner pattern matches, if the shape is proved equal. -/
theorem visit_hasShape_iff (c : MatchContext) (i : PatternId) (q : Pattern) (ds : List SymInt) (e : Expr) :
    ((c.visit (.hasShape i q ds) e).run .initial).1 = .ok true ↔
      (e.shape?.bind Shape.dims?).any (c.oracle.shapesEqual ds) = true ∧ ((c.visit q e).run .initial).1 = .ok true := by
  have hfree : (if Session.initial.memoize then Session.initial.trail.get? (Pattern.hasShape i q ds).id else none) = none :=
    rfl
  rw [visit_eq_visitBy, visitBy, run_attempt (c.extends_ruleBy _ e).grows, hfree, ruleBy]
  cases (e.shape?.bind Shape.dims?).any (c.oracle.shapesEqual ds) with
  | false => exact iff_of_false (by rintro ⟨⟩) fun h => absurd h.1 Bool.false_ne_true
  | true =>
    rw [if_pos rfl]
    rcases (c.visit q e).run .initial with ⟨_ | _ | _, s'⟩ <;> simp

end MatchContext

namespace Matcher

theorem run_hasShape_iff (m : Matcher) (registry : Registry) (i : PatternId) (q : Pattern) (ds : List SymInt)
    (e : Expr) :
    (m.run registry (.hasShape i q ds) e).1 = .ok true ↔
      (e.shape?.bind Shape.dims?).any (m.oracle.shapesEqual ds) = true ∧ (m.run registry q e).1 = .ok true := by
  have hgraph : (Pattern.hasShape i q ds).containsDominator = q.containsDominator := by rw [Pattern.containsDominator]
  have horacle : ((if q.containsDominator then m.prepareGraph e else m).context registry).oracle = m.oracle := by
    split
    · rcases m.prepareGraph_cases e with ⟨hm, -⟩ | hm <;> rw [hm] <;> rfl
    · rfl
  unfold run
  split
  · simp
  · rw [hgraph, ← horacle]
    exact MatchContext.visit_hasShape_iff _ i q ds e

/-- **The shape of a constant, read as a list of integers.**  A constant that was built, or a copy of it without a shape
of its own, has a known shape with one integer for each dimension, the dimension itself or `2^64` less.  They are the
dimensions exactly if all of these are signed words, and so they are if no dimension is zero and the number of elements
is a signed word.  A pattern that asks for a shape of integers matches the constant exactly if it lists these, and so,
if all dimensions are signed words, exactly if it lists the dimensions. -/
theorem shape_of_constant {b b' : Builder} {dtype : DType} {dims : List UInt64} {data : List Element} {e : Expr}
    (h : Build.constant dtype dims data b = .ok (e, b')) {info : NodeInfo} (hinfo : info.shape = none) :
    let d := e.withInfo info
    let ws := dims.map UInt64.toInt64
    let declared := dims.map fun n => (n.toNat : Int)
    d.shape? = some (.known (ws.map .lit)) ∧
    (ws.map Int64.toInt = declared ↔ ∀ n ∈ dims, Word.Fits n.toNat) ∧
    (0 ∉ dims → Word.Fits data.length → ∀ n ∈ dims, Word.Fits n.toNat) ∧
    ∀ (m : Matcher) (r : Prover) (registry : Registry) (i : PatternId) (q : Pattern) (vs : List Int64),
      let matched (p : Pattern) := ((m.withOracle r.oracle).run registry p d).1 = .ok true
      (matched (.hasShape i q (vs.map .lit)) ↔ vs = ws ∧ matched q) ∧
      ((∀ n ∈ dims, Word.Fits n.toNat) →
        (matched (.hasShape i q (vs.map .lit)) ↔ vs.map Int64.toInt = declared ∧ matched q)) := by
  intro d ws declared
  obtain ⟨rfl, hlength⟩ := Build.constant_eq_ok h
  have hshape : d.shape? = some (.known (ws.map .lit)) := by
    unfold Expr.shape?
    rw [Expr.shapeAnnotation?, Expr.info_withInfo, hinfo]
    exact congrArg (some ∘ Shape.known) List.map_map.symm
  have hexact : ws.map Int64.toInt = declared ↔ _ := Word.map_toInt_toInt64_eq_iff dims
  refine ⟨hshape, hexact, fun hzero hfits n hn => ?_, fun m r registry i q vs => ?_⟩
  · have hle := Word.toNat_le_prod_of_mem hzero hn
    rw [← hlength] at hle
    exact ⟨by have := Word.fits_zero.1; omega, by have := hfits.2; omega⟩
  · intro matched
    have hmatched : matched (.hasShape i q (vs.map .lit)) ↔ vs = ws ∧ matched q := by
      rw [← r.shapesEqual_lit_iff vs ws]
      have hrun := (m.withOracle r.oracle).run_hasShape_iff registry i q (vs.map .lit) d
      rw [hshape] at hrun
      exact hrun
    refine ⟨hmatched, fun hfits => ?_⟩
    rw [hmatched, ← hexact.2 hfits, List.map_inj_right fun _ _ => Int64.toInt_inj.1]

/-- A constant without elements whose second dimension is the greatest signed word, with a type. -/
theorem shape_of_constant_of_greatest_dimension :
    let dims : List UInt64 := [0, 9223372036854775807]
    let c : Tensor := ⟨.scalar .int32, dims, []⟩
    let b : Builder := { Builder.initial with nextNode := 28 }
    let typed : NodeInfo := ⟨28, some (.tensor (some 2) none), none⟩
    let any := Pattern.wildcard (.given 0)
    let p := Pattern.hasShape (.given 1) any [.lit 0, .lit Int64.maxValue]
    Build.constant (.scalar .int32) dims [] .initial = .ok (.constant ⟨27, none, none⟩ c, b) ∧ typed.shape = none ∧
      (∀ n ∈ dims, Word.Fits n.toNat) ∧
      (Expr.constant typed c).shape? = some (.known [.lit 0, .lit Int64.maxValue]) ∧
      (Matcher.initial.run .empty p (.constant typed c)).1 = .ok true := by
  intro dims c b typed any p
  have hbuilt : Build.constant (.scalar .int32) dims [] .initial = .ok (.constant ⟨27, none, none⟩ c, b) := rfl
  have hfits : ∀ n ∈ dims, Word.Fits n.toNat :=
    List.forall_mem_cons.2 ⟨by decide, List.forall_mem_singleton.2 (by decide)⟩
  have hwords : dims.map UInt64.toInt64 = [0, Int64.maxValue] := by decide
  have hdeclared : [0, Int64.maxValue].map Int64.toInt = dims.map fun n => (n.toNat : Int) := by decide
  have hany : (Matcher.initial.run .empty any (.constant typed c)).1 = .ok true := by cbv
  have htyped : typed.shape = none := rfl
  obtain ⟨hshape, -, -, hmatched⟩ := shape_of_constant hbuilt htyped
  rw [hwords] at hshape
  exact ⟨hbuilt, htyped, hfits, hshape,
    ((hmatched .initial .empty .empty (.given 1) any [0, Int64.maxValue]).2 hfits).2 ⟨hdeclared, hany⟩⟩

/-- A constant without elements whose second dimension is `2^63`.  Its shape has the least signed word there, and a
pattern that asks for this matches. -/
theorem shape_of_constant_ne :
    let dims : List UInt64 := [0, 9223372036854775808]
    let c : Tensor := ⟨.scalar .int32, dims, []⟩
    let b : Builder := { Builder.initial with nextNode := 28 }
    let e := Expr.constant ⟨27, none, none⟩ c
    let p := Pattern.hasShape (.given 1) (.wildcard (.given 0)) [.lit 0, .lit Int64.minValue]
    Build.constant (.scalar .int32) dims [] .initial = .ok (e, b) ∧
      e.shape? = some (.known [.lit 0, .lit Int64.minValue]) ∧
      [0, Int64.minValue].map Int64.toInt ≠ dims.map (fun n => (n.toNat : Int)) ∧
      (Matcher.initial.run .empty p e).1 = .ok true := by
  intro dims c b e p
  have hwords : dims.map UInt64.toInt64 = [0, Int64.minValue] := by decide
  have hshape : e.shape? = some (.known ((dims.map UInt64.toInt64).map .lit)) := rfl
  rw [hwords] at hshape
  exact ⟨rfl, hshape, by decide, by cbv⟩

end Matcher
end Dataflow
