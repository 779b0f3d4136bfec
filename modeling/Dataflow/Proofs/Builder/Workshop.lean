import Dataflow.Proofs.Builder.WellFormed
import Dataflow.Proofs.Expr.Scope
import Mathlib.Logic.Relation
/-!
# What stays true of everything that was built

A workshop is a builder with the expressions that it has given out.  A `Step` of it is an attempt to build from those
expressions, to annotate one of them or to register an operator; an attempt that fails leaves the workshop as it was.
After any steps there is a `Stock` of all nodes (`sound_of_leads`), which the next step adds at most one node to.  So
every node of every expression stays well formed, looking up an operator goes on giving the same node
(`built_stays_wellFormed`), and nodes with one number are one node (`coherentAll_of_leads`).
-/
namespace Dataflow

open Build

/-! ## Adding to the stock -/

namespace Build

variable {known : Expr → Prop} {r r' : Registry} {next next' : Nat} {e d : Expr}

/-- A stock is one for a later registry that has no operator without a node in it. -/
theorem Stock.grow (h : Stock known r next) (hr : r.Extends r') (hnext : next ≤ next')
    (hregistered : ∀ name entry, r'.find? name = some entry → known entry.expr) : Stock known r' next' where
  parts := h.parts
  wellFormed d hd := (h.wellFormed d hd).mono hr
  registered := hregistered
  id_lt d hd := Nat.lt_of_lt_of_le (h.id_lt d hd) hnext
  id_inj := h.id_inj

theorem Stock.add (h : Stock known r next) (hr : r.Extends r') (hle : next ≤ e.id) (hlt : e.id < next')
    (hwell : e.WellFormed r') (hparts : ∀ p ∈ e.parts, known p)
    (hregistered : ∀ name entry, r'.find? name = some entry → entry.expr = e ∨ known entry.expr) :
    Stock (fun d => d = e ∨ known d) r' next' where
  parts d hd p hp := by
    rcases hd with rfl | hd
    · exact .inr (hparts p hp)
    · exact .inr (h.parts d hd p hp)
  wellFormed d hd := by
    rcases hd with rfl | hd
    · exact hwell
    · exact (h.wellFormed d hd).mono hr
  registered := hregistered
  id_lt d hd := by
    rcases hd with rfl | hd
    · exact hlt
    · exact Nat.lt_trans (Nat.lt_of_lt_of_le (h.id_lt d hd) hle) hlt
  id_inj d d' hd hd' hid := by
    rcases hd with rfl | hd
    · rcases hd' with rfl | hd'
      · rfl
      · exact absurd (h.id_lt d' hd') (Nat.not_lt_of_le (hid ▸ hle))
    · rcases hd' with rfl | hd'
      · exact absurd (h.id_lt d hd) (Nat.not_lt_of_le (hid ▸ hle))
      · exact h.id_inj d d' hd hd' hid

/-- The nodes of the built-in operators are a stock. -/
theorem stock_builtin :
    Stock (fun e => ∃ entry ∈ Registry.builtin.entries, e = entry.expr) .builtin Builder.initial.nextNode := by
  have hfind : ∀ entry ∈ Registry.builtin.entries, Registry.builtin.find? entry.operator.name = some entry := by decide
  have hnodes : Registry.builtin.entries.map OperatorEntry.node = List.range Builder.initial.nextNode := by decide
  have hnodup : (Registry.builtin.entries.map OperatorEntry.node).Nodup := hnodes ▸ List.nodup_range
  refine ⟨?_, ?_, ?_, ?_, ?_⟩
  · rintro _ ⟨entry, _, rfl⟩ p hp
    cases hp
  · rintro _ ⟨entry, hentry, rfl⟩
    exact ⟨entry.node, hfind entry hentry⟩
  · exact fun name entry hf => ⟨entry, List.mem_of_find?_eq_some hf, rfl⟩
  · rintro _ ⟨entry, hentry, rfl⟩
    exact List.mem_range.1 (hnodes ▸ List.mem_map_of_mem hentry)
  · rintro _ _ ⟨x, hx, rfl⟩ ⟨y, hy, rfl⟩ hid
    exact congrArg OperatorEntry.expr (List.inj_on_of_nodup_map hnodup hx hy hid)

end Build

/-! ## Steps of a workshop -/

/-- A builder with the expressions that it has given out, the last one first. -/
structure Workshop where
  builder : Builder
  built : List Expr

namespace Workshop

def initial : Workshop := ⟨.initial, []⟩

/-- The workshop after an attempt, with what it gives; as it was if the attempt fails. -/
def attempt {α : Type} (s : Workshop) (m : BuildM α) (given : α → List Expr) : Workshop :=
  match m s.builder with
  | .ok (a, b) => ⟨b, given a ++ s.built⟩
  | .error _ => s

inductive Step (s : Workshop) : Workshop → Prop
  | build {m : BuildM Expr} : Makes s.built m → Step s (s.attempt m fun e => [e])
  | register (name : String) (arity : Option Nat) : Step s (s.attempt (register name arity) fun _ => [])
  | setAttr (name attr : String) (value : AttrValue) : Step s (s.attempt (setAttr name attr value) fun _ => [])
  | symbol (name : String) : Step s (s.attempt (symbol name) fun _ => [])

/-- Steps lead from one workshop to the other. -/
def Leads : Workshop → Workshop → Prop := Relation.ReflTransGen Step

/-- There is a stock of nodes with all that were built. -/
def Sound (s : Workshop) : Prop :=
  ∃ known, Stock known s.builder.registry s.builder.nextNode ∧ ∀ e ∈ s.built, known e

/-- Nothing that was built or registered is lost. -/
structure Keeps (s t : Workshop) : Prop where
  built : ∀ e ∈ s.built, e ∈ t.built
  registry : s.builder.registry.Extends t.builder.registry

variable {s t : Workshop}

theorem Keeps.refl : Keeps s s := ⟨fun _ h => h, .refl⟩

theorem Keeps.trans {u : Workshop} (h : Keeps s t) (h' : Keeps t u) : Keeps s u :=
  ⟨fun e he => h'.built e (h.built e he), h.registry.trans h'.registry⟩

theorem attempt_of_ok {α : Type} {m : BuildM α} {given : α → List Expr} {a : α} {b : Builder}
    (h : m s.builder = .ok (a, b)) : s.attempt m given = ⟨b, given a ++ s.built⟩ := by
  simp only [attempt, h]

theorem attempt_of_error {α : Type} {m : BuildM α} {given : α → List Expr} {error : BuildError}
    (h : m s.builder = .error error) : s.attempt m given = s := by
  simp only [attempt, h]

theorem attempt_cases {α : Type} (s : Workshop) (m : BuildM α) (given : α → List Expr) :
    s.attempt m given = s ∨ ∃ a b, m s.builder = .ok (a, b) ∧ s.attempt m given = ⟨b, given a ++ s.built⟩ := by
  cases hm : m s.builder with
  | error => exact .inl (attempt_of_error hm)
  | ok x => exact .inr ⟨x.1, x.2, rfl, attempt_of_ok hm⟩

theorem step_of_ok {α : Type} {m : BuildM α} {given : α → List Expr} {a : α} {b : Builder}
    (h : Step s (s.attempt m given)) (hm : m s.builder = .ok (a, b)) : Step s ⟨b, given a ++ s.built⟩ := by
  rwa [attempt_of_ok hm] at h

theorem step_of_error {α : Type} {m : BuildM α} {given : α → List Expr} {error : BuildError}
    (h : Step s (s.attempt m given)) (hm : m s.builder = .error error) : Step s s := by
  rwa [attempt_of_error hm] at h

/-! ## What a step keeps -/

variable {b : Builder}

theorem Sound.build {m : BuildM Expr} {e : Expr} (hs : s.Sound) (hmakes : Makes s.built m)
    (hm : m s.builder = .ok (e, b)) : Sound ⟨b, e :: s.built⟩ ∧ Keeps s ⟨b, e :: s.built⟩ := by
  obtain ⟨known, hknown, hbuilt⟩ := hs
  have hkept : ∀ d ∈ s.built, d ∈ e :: s.built := fun d hd => List.mem_cons_of_mem e hd
  rcases hmakes.gives hbuilt hknown hm with ⟨rfl, name, entry, hf, rfl⟩ | ⟨hregistry, hle, hlt, hwell, hparts⟩
  · have hentry := hknown.registered name entry hf
    exact ⟨⟨known, hknown, List.forall_mem_cons.2 ⟨hentry, hbuilt⟩⟩, hkept, .refl⟩
  · have hextends : s.builder.registry.Extends b.registry := hregistry ▸ .refl
    refine ⟨⟨fun d => d = e ∨ known d, ?_, ?_⟩, hkept, hextends⟩
    · refine hknown.add hextends hle hlt (hwell.mono hextends) hparts fun name entry hf => ?_
      exact .inr (hknown.registered name entry (hregistry ▸ hf))
    · exact List.forall_mem_cons.2 ⟨.inl rfl, fun d hd => .inr (hbuilt d hd)⟩

theorem Sound.register {name : String} {arity : Option Nat} {o : Operator} (hs : s.Sound)
    (hm : Build.register name arity s.builder = .ok (o, b)) : Sound ⟨b, s.built⟩ ∧ Keeps s ⟨b, s.built⟩ := by
  obtain ⟨known, hknown, hbuilt⟩ := hs
  cases hf : s.builder.registry.find? name with
  | some entry =>
    cases (register_of_some hf arity).symm.trans hm
    exact ⟨⟨known, hknown, hbuilt⟩, .refl⟩
  | none =>
    cases (register_of_none hf arity).symm.trans hm
    -- the node of the operator is the new one, although no expression refers to it yet
    let entry : OperatorEntry := ⟨⟨name, arity⟩, s.builder.nextNode⟩
    have hextends := s.builder.registry.extends_register entry.operator entry.node
    have hentry : (s.builder.registry.register entry.operator entry.node).find? name = some entry := by
      rw [Registry.find?_register, if_pos ⟨rfl, hf⟩]
    refine ⟨⟨fun d => d = entry.expr ∨ known d, ?_, fun d hd => Or.inr (hbuilt d hd)⟩, fun _ he => he, hextends⟩
    refine hknown.add hextends (Nat.le_refl _) (Nat.lt_succ_self _) ⟨_, hentry⟩ (List.forall_mem_nil _) ?_
    intro name' entry' hf'
    rw [Registry.find?_register] at hf'
    split at hf'
    · cases hf'
      exact .inl rfl
    · exact .inr (hknown.registered name' entry' hf')

theorem Sound.setAttr {name attr : String} {value : AttrValue} {u : Unit} (hs : s.Sound)
    (hm : Build.setAttr name attr value s.builder = .ok (u, b)) : Sound ⟨b, s.built⟩ ∧ Keeps s ⟨b, s.built⟩ := by
  obtain ⟨known, hknown, hbuilt⟩ := hs
  obtain ⟨entry, b₁, hentry, hset⟩ := bind_eq_ok (m := operator name) hm
  obtain ⟨-, rfl⟩ := operator_eq_ok_iff.1 hentry
  cases hset
  have hextends : s.builder.registry.Extends (s.builder.registry.setAttr attr entry.operator.name value) :=
    fun _ _ h => h
  exact ⟨⟨known, hknown.grow hextends (Nat.le_refl _) hknown.registered, hbuilt⟩, fun _ he => he, hextends⟩

/-- **A step leaves a sound workshop sound**, and loses nothing. -/
theorem Step.sound_and_keeps (h : Step s t) (hs : s.Sound) : t.Sound ∧ Keeps s t := by
  have hfail : s.Sound ∧ Keeps s s := ⟨hs, .refl⟩
  cases h with
  | @build m hmakes =>
    rcases attempt_cases s m fun e => [e] with heq | ⟨e, b, hm, heq⟩
    · rwa [heq]
    · rw [heq]
      exact hs.build hmakes hm
  | register name arity =>
    rcases attempt_cases s (Build.register name arity) fun _ => [] with heq | ⟨o, b, hm, heq⟩
    · rwa [heq]
    · rw [heq]
      exact hs.register hm
  | setAttr name attr value =>
    rcases attempt_cases s (Build.setAttr name attr value) fun _ => [] with heq | ⟨_, b, hm, heq⟩
    · rwa [heq]
    · rw [heq]
      exact hs.setAttr hm
  | symbol name => exact ⟨hs, fun _ he => he, .refl⟩

theorem Leads.sound_and_keeps (h : s.Leads t) (hs : s.Sound) : t.Sound ∧ Keeps s t := by
  induction h with
  | refl => exact ⟨hs, .refl⟩
  | tail _ hstep ih =>
    obtain ⟨hsound, hkeeps⟩ := hstep.sound_and_keeps ih.1
    exact ⟨hsound, ih.2.trans hkeeps⟩

theorem sound_of_leads (h : initial.Leads s) : s.Sound :=
  (h.sound_and_keeps ⟨_, stock_builtin, List.forall_mem_nil _⟩).1

/-- **Nodes with one number are one node**, among all that were built and the expressions in their attributes. -/
theorem coherentAll_of_leads {es : List Expr} (h : initial.Leads s) (hes : ∀ e ∈ es, ∃ r ∈ s.built, r.Contains e) :
    Expr.CoherentAll es := by
  obtain ⟨known, hknown, hbuilt⟩ := sound_of_leads h
  have hreaches : ∀ a, (∃ e ∈ es, e.Reaches a) → known a := by
    rintro a ⟨e, he, ha⟩
    obtain ⟨r, hr, hre⟩ := hes e he
    induction ha with
    | refl => exact hknown.contains (hbuilt r hr) hre
    | child _ hc ih => exact hknown.parts _ ih _ (List.mem_append_left _ hc)
  exact fun a b ha hb hid => hknown.id_inj a b (hreaches a ha) (hreaches b hb) hid

/-- **Every node of every expression that was ever built is well formed for good**, and looking up an operator gives the
same operator and the same node again and again.  That a constant has exactly as many elements as the product of its
dimensions rests on overflow checks when the product is taken (`Word.product?`). -/
theorem built_stays_wellFormed (hs : initial.Leads s) (ht : s.Leads t) :
    (∀ e ∈ s.built, e ∈ t.built ∧ ∀ d, e.Contains d → d.WellFormed t.builder.registry) ∧
      ∀ name entry, (operator name).run s.builder = .ok (entry, s.builder) →
        (operator name).run t.builder = .ok (entry, t.builder) ∧ (op name).run t.builder = .ok (entry.expr, t.builder) ∧
          ∀ arity, (Build.register name arity).run t.builder = .ok (entry.operator, t.builder) := by
  obtain ⟨⟨known, hknown, hbuilt⟩, hkeeps⟩ := ht.sound_and_keeps (sound_of_leads hs)
  refine ⟨fun e he => ⟨hkeeps.built e he, fun d hd => ?_⟩, fun name entry hentry => ?_⟩
  · exact hknown.wellFormed d (hknown.contains (hbuilt e (hkeeps.built e he)) hd)
  · have hf := hkeeps.registry name entry (operator_eq_ok_iff.1 hentry).1
    refine ⟨operator_eq_ok_iff.2 ⟨hf, rfl⟩, op_eq_ok_iff.2 ⟨entry, hf, rfl, rfl⟩, fun arity => ?_⟩
    exact register_of_some hf arity

/-- A call of an operator that takes two arguments: the operator was registered once more with one, a call with one
argument was refused and another with two was built. -/
theorem built_stays_wellFormed_of_second_registration :
    let scale : OperatorEntry := ⟨⟨"scale", some 2⟩, 27⟩
    let registry := Registry.builtin.register scale.operator scale.node
    let x := Expr.var ⟨28, none, none⟩ ⟨0, "x"⟩
    let call := Expr.call ⟨29, none, none⟩ scale.expr [x, x] none
    let call' := Expr.call ⟨30, none, none⟩ scale.expr [call, x] none
    let s : Workshop := ⟨⟨30, 1, 0, 0, registry⟩, [call, x]⟩
    let t : Workshop := ⟨⟨31, 1, 0, 0, registry⟩, [call', call, x]⟩
    (initial.Leads s ∧ s.Leads t) ∧ (∀ d, call.Contains d → d.WellFormed t.builder.registry) ∧
      (op "scale").run t.builder = .ok (scale.expr, t.builder) := by
  intro scale registry x call call'
  have hnone : Registry.builtin.find? "scale" = none := by decide
  have hsome : registry.find? "scale" = some scale := by rw [Registry.find?_register, if_pos ⟨rfl, hnone⟩]
  have hregister : Step initial ⟨⟨28, 0, 0, 0, registry⟩, []⟩ :=
    step_of_ok (s := initial) (.register "scale" (some 2)) (register_of_none (b := .initial) hnone (some 2))
  clear_value registry
  intro s t
  have hs : initial.Leads s := by
    have hvar : Step ⟨⟨28, 0, 0, 0, registry⟩, []⟩ ⟨⟨29, 1, 0, 0, registry⟩, [x]⟩ := .build (.var "x")
    have hcall : Step ⟨⟨29, 1, 0, 0, registry⟩, [x]⟩ s :=
      step_of_ok (.build (.callOp "scale" (by simp))) (callOp_eq (b := ⟨29, 1, 0, 0, registry⟩) hsome [x, x])
    exact ((Relation.ReflTransGen.refl.tail hregister).tail hvar).tail hcall
  have ht : s.Leads t := by
    have hregister : Step s s :=
      step_of_ok (s := s) (.register "scale" (some 1)) (register_of_some (b := s.builder) hsome (some 1))
    have hrefused : Step s s :=
      step_of_error (s := s) (.build (.callOp "scale" (by simp [s]))) (callOp_eq (b := s.builder) hsome [x])
    have hcall : Step s t :=
      step_of_ok (s := s) (.build (.callOp "scale" (by simp [s]))) (callOp_eq (b := s.builder) hsome [call, x])
    exact ((Relation.ReflTransGen.refl.tail hregister).tail hrefused).tail hcall
  have h := built_stays_wellFormed hs ht
  exact ⟨⟨hs, ht⟩, (h.1 call (List.mem_cons_self ..)).2, (h.2 "scale" scale (operator_eq_ok_iff.2 ⟨hsome, rfl⟩)).2.1⟩

end Workshop
end Dataflow
