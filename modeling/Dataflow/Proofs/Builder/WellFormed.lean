import Dataflow.Builder
import Dataflow.Proofs.Expr.Attribute
import Mathlib.Algebra.BigOperators.Group.List.Basic
import Mathlib.Tactic.Common
/-!
# What building checks

A node is `WellFormed` under a registry when it is as the checks of building want it.  Every way to build, `Makes`,
gives the node of a registered operator or a new node, with a number that the builder has not given yet, well formed and
over nodes that were there (`Makes.gives`).  Annotated copies go past the checks; they are well formed because the node
that is copied was.
-/
namespace Dataflow

/-- A product of words that is a word is the exact product. -/
theorem Word.toNat_of_product? {ws : List UInt64} {w : UInt64} (h : product? ws = some w) :
    w.toNat = (ws.map UInt64.toNat).prod := by
  have hfold : ∀ a : UInt64, ws.foldlM times? a = some w → w.toNat = a.toNat * (ws.map UInt64.toNat).prod := by
    clear h
    induction ws with
    | nil =>
      rintro a ⟨⟩
      simp
    | cons x ws ih =>
      intro a h
      rw [List.foldlM_cons] at h
      obtain ⟨b, hb, hw⟩ := Option.bind_eq_some_iff.1 h
      rw [ih b hw, ofNat?_eq_some_iff.1 hb, List.map_cons, List.prod_cons, Nat.mul_assoc]
  simpa using hfold 1 h

namespace Registry

/-- An operator is registered under its name. -/
def Holds (r : Registry) (o : Operator) : Prop := ∃ node, r.find? o.name = some ⟨o, node⟩

/-- What is found in one registry is found in the other. -/
def Extends (r r' : Registry) : Prop := ∀ name entry, r.find? name = some entry → r'.find? name = some entry

variable {r r' r'' : Registry} {o : Operator}

theorem Extends.refl : r.Extends r := fun _ _ h => h

theorem Extends.trans (h : r.Extends r') (h' : r'.Extends r'') : r.Extends r'' := fun name entry hf =>
  h' name entry (h name entry hf)

/-- A second registration of a name changes nothing. -/
theorem extends_register (r : Registry) (o : Operator) (node : Nat) : r.Extends (r.register o node) := by
  intro name entry hf
  rw [find?_register, if_neg, hf]
  rintro ⟨rfl, hnone⟩
  rw [hnone] at hf
  cases hf

theorem Holds.mono (h : r.Holds o) (hr : r.Extends r') : r'.Holds o :=
  h.imp fun node hf => hr o.name ⟨o, node⟩ hf

end Registry

namespace Expr

/-- The nodes that a node holds directly: its inputs and those in its attributes. -/
def parts (e : Expr) : List Expr := e.children ++ e.attrExprs

/-- The nodes of an expression, those of the expressions in its attributes among them. -/
inductive Contains (root : Expr) : Expr → Prop
  | refl : Contains root root
  | part {e p : Expr} : Contains root e → p ∈ e.parts → Contains root p

/-- What building checks of a node: a constant has as many elements as the product of its dimensions, an operator is the
one that is registered, a call of an operator has as many arguments as that takes, an item of a tuple that is written
out is one of its fields, and the parameters of a function are variables. -/
def WellFormed (r : Registry) : Expr → Prop
  | .constant _ c => c.data.length = (c.dims.map UInt64.toNat).prod
  | .op _ o => r.Holds o
  | .call _ f args _ => ∀ o, f.operator? = some o → r.Holds o ∧ ∀ n, o.arity = some n → args.length = n
  | .item _ t k => ∀ i fields, t = .tuple i fields → k < fields.length
  | .function _ ps _ _ => ∀ p ∈ ps, p.var?.isSome = true
  | .var .. | .external .. | .tuple .. | .cond .. | .dims .. => True

variable {r r' : Registry} {e : Expr} {o : Operator}

/-- Registering more operators leaves nodes well formed. -/
theorem WellFormed.mono (h : e.WellFormed r) (hr : r.Extends r') : e.WellFormed r' := by
  cases e with
  | op => exact Registry.Holds.mono h hr
  | call => exact fun o ho => ⟨(h o ho).1.mono hr, (h o ho).2⟩
  | _ => exact h

@[simp] theorem wellFormed_withInfo (i : NodeInfo) : (e.withInfo i).WellFormed r ↔ e.WellFormed r := by
  cases e <;> rfl

@[simp] theorem parts_withInfo (i : NodeInfo) : (e.withInfo i).parts = e.parts := by
  cases e <;> rfl

theorem WellFormed.holds (h : e.WellFormed r) (ho : e.operator? = some o) : r.Holds o := by
  cases e with
  | op =>
    cases ho
    exact h
  | _ => cases ho

end Expr

namespace Build

variable {b b' : Builder} {e : Expr}

theorem bind_eq_ok {α β : Type} {m : BuildM α} {f : α → BuildM β} {x : β} (h : (m >>= f) b = .ok (x, b')) :
    ∃ a b₁, m b = .ok (a, b₁) ∧ f a b₁ = .ok (x, b') := by
  cases hm : m b with
  | error =>
    simp only [bind, StateT.bind, Except.bind, hm] at h
    cases h
  | ok y =>
    simp only [bind, StateT.bind, Except.bind, hm] at h
    exact ⟨y.1, y.2, rfl, h⟩

theorem operator_eq_ok_iff {name : String} {entry : OperatorEntry} :
    operator name b = .ok (entry, b') ↔ b.registry.find? name = some entry ∧ b' = b := by
  have hrun : operator name b =
      (b.registry.find? name).elim (.error (.unknownOperator name)) fun entry => .ok (entry, b) := by
    unfold operator
    cases hf : b.registry.find? name <;> simp only [bind, StateT.bind, get, getThe, MonadStateOf.get, StateT.get, pure,
      Except.pure, Except.bind, hf] <;> rfl
  rw [hrun]
  cases b.registry.find? name <;> simp [eq_comm]

theorem op_eq_ok_iff {name : String} :
    op name b = .ok (e, b') ↔ ∃ entry, b.registry.find? name = some entry ∧ e = entry.expr ∧ b' = b := by
  have hbind : op name = operator name >>= fun entry => pure entry.expr := rfl
  rw [hbind]
  constructor
  · intro h
    obtain ⟨entry, b₁, hentry, hexpr⟩ := bind_eq_ok h
    obtain ⟨hf, rfl⟩ := operator_eq_ok_iff.1 hentry
    cases hexpr
    exact ⟨entry, hf, rfl, rfl⟩
  · rintro ⟨entry, hf, rfl, rfl⟩
    simp only [bind, StateT.bind, operator_eq_ok_iff.2 ⟨hf, rfl⟩]
    rfl

theorem register_of_some {name : String} {entry : OperatorEntry} (h : b.registry.find? name = some entry)
    (arity : Option Nat) : register name arity b = .ok (entry.operator, b) := by
  simp only [register, h]

theorem register_of_none {name : String} (h : b.registry.find? name = none) (arity : Option Nat) :
    register name arity b = .ok (⟨name, arity⟩,
      { b with nextNode := b.nextNode + 1, registry := b.registry.register ⟨name, arity⟩ b.nextNode }) := by
  simp only [register, h]

theorem callOp_eq {name : String} {entry : OperatorEntry} (h : b.registry.find? name = some entry) (args : List Expr) :
    callOp name args b = call entry.expr args none b := by
  show (op name >>= fun callee => call callee args none) b = _
  simp only [bind, StateT.bind, op_eq_ok_iff.2 ⟨entry, h, rfl, rfl⟩]
  rfl

/-! ## Every way to build -/

/-- The ways to build an expression, from expressions that are there already. -/
inductive Makes (there : List Expr) : BuildM Expr → Prop
  | var (name : String) : Makes there (var name)
  | typedVar (name : String) (t : Ty) : Makes there (typedVar name t)
  | scalar {α : Type} [HostScalar α] (value : α) : Makes there (scalar value)
  | constant (dtype : DType) (dims : List UInt64) (data : List Element) : Makes there (constant dtype dims data)
  | op (name : String) : Makes there (op name)
  | external (symbol : String) : Makes there (external symbol)
  | call {callee : Expr} {args : List Expr} {attrs : Option Attrs} : callee ∈ there → (∀ a ∈ args, a ∈ there) →
      (∀ x ∈ attrs.elim [] Record.exprs, x ∈ there) → Makes there (call callee args attrs)
  | callOp (name : String) {args : List Expr} : (∀ a ∈ args, a ∈ there) → Makes there (callOp name args)
  | tuple {fields : List Expr} : (∀ f ∈ fields, f ∈ there) → Makes there (tuple fields)
  | item {t : Expr} (index : Nat) : t ∈ there → Makes there (item t index)
  | function {params : List Expr} {body : Expr} {attrs : LiteralDict} : (∀ p ∈ params, p ∈ there) → body ∈ there →
      (∀ x ∈ attrs.exprs, x ∈ there) → Makes there (function params body attrs)
  | cond {test thenBranch elseBranch : Expr} : test ∈ there → thenBranch ∈ there → elseBranch ∈ there →
      Makes there (cond test thenBranch elseBranch)
  | dims (ds : List SymInt) : Makes there (dims ds)
  | withType {e : Expr} (t : Ty) : e ∈ there → Makes there (withType e t)
  | withShape {e : Expr} (s : Shape) : e ∈ there → Makes there (withShape e s)

/-- What is known of all nodes that there are, when numbers up to `next` have been given: with a node its parts are
there, each is well formed, the registered operators have theirs, and a number belongs to one node only. -/
structure Stock (known : Expr → Prop) (r : Registry) (next : Nat) : Prop where
  parts : ∀ e, known e → ∀ p ∈ e.parts, known p
  wellFormed : ∀ e, known e → e.WellFormed r
  registered : ∀ name entry, r.find? name = some entry → known entry.expr
  id_lt : ∀ e, known e → e.id < next
  id_inj : ∀ d e, known d → known e → d.id = e.id → d = e

/-- A new node, well formed and over nodes that are known; the registry stays as it is. -/
structure IsNew (known : Expr → Prop) (r : Registry) (next : Nat) (e : Expr) (b : Builder) : Prop where
  registry : b.registry = r
  le_id : next ≤ e.id
  id_lt : e.id < b.nextNode
  wellFormed : e.WellFormed r
  parts : ∀ p ∈ e.parts, known p

variable {known : Expr → Prop}

theorem Stock.contains {r : Registry} {next : Nat} {d : Expr} (h : Stock known r next) (he : known e)
    (hd : e.Contains d) : known d := by
  induction hd with
  | refl => exact he
  | part _ hp ih => exact h.parts _ ih _ hp

theorem isNew_node {form : NodeInfo → Expr} (h : node form b = .ok (e, b')) (hinfo : ∀ i, (form i).info = i)
    (hwell : ∀ i, (form i).WellFormed b.registry) (hparts : ∀ i, ∀ p ∈ (form i).parts, known p) :
    IsNew known b.registry b.nextNode e b' := by
  cases h
  have hid : (form ⟨b.nextNode, none, none⟩).id = b.nextNode := by rw [Expr.id, hinfo]
  exact ⟨rfl, Nat.le_of_eq hid.symm, Nat.lt_succ_of_le (Nat.le_of_eq hid), hwell _, hparts _⟩

theorem isNew_copy {c : Expr} {t : Option Ty} {s : Option Shape} (h : copy c t s b = .ok (e, b'))
    (hwell : c.WellFormed b.registry) (hparts : ∀ p ∈ c.parts, known p) : IsNew known b.registry b.nextNode e b' := by
  cases h
  have hid : (c.withInfo ⟨b.nextNode, t, s⟩).id = b.nextNode := congrArg NodeInfo.id (Expr.info_withInfo _ c)
  refine ⟨rfl, Nat.le_of_eq hid.symm, Nat.lt_succ_of_le (Nat.le_of_eq hid), (Expr.wellFormed_withInfo _).2 hwell, ?_⟩
  rwa [Expr.parts_withInfo]

theorem isNew_call {callee : Expr} {args : List Expr} {attrs : Option Attrs}
    (h : call callee args attrs b = .ok (e, b'))
    (hcallee : callee.WellFormed b.registry) (hparts : ∀ i, ∀ p ∈ (Expr.call i callee args attrs).parts, known p) :
    IsNew known b.registry b.nextNode e b' := by
  have hholds : ∀ {o}, callee.operator? = some o → b.registry.Holds o := hcallee.holds
  rcases ho : callee.operator? with _ | ⟨name, _ | expected⟩
  · simp only [call, ho] at h
    refine isNew_node h (fun _ => rfl) (fun _ o ho' => ?_) hparts
    cases ho.symm.trans ho'
  · simp only [call, ho] at h
    refine isNew_node h (fun _ => rfl) (fun _ o ho' => ⟨hholds ho', fun n hn => ?_⟩) hparts
    cases ho.symm.trans ho'
    cases hn
  · simp only [call, ho] at h
    by_cases hlength : args.length = expected
    · rw [if_pos hlength] at h
      refine isNew_node h (fun _ => rfl) (fun _ o ho' => ⟨hholds ho', fun n hn => ?_⟩) hparts
      cases ho.symm.trans ho'
      exact hlength.trans (Option.some.inj hn)
    · rw [if_neg hlength] at h
      cases h

theorem isNew_item {t : Expr} {index : Nat} (h : item t index b = .ok (e, b')) (ht : known t) :
    IsNew known b.registry b.nextNode e b' := by
  have hparts : ∀ i, ∀ p ∈ (Expr.item i t index).parts, known p := by
    simp [Expr.parts, Expr.children, Expr.attrExprs, ht]
  cases harity : knownArity? t with
  | none =>
    simp only [item, harity] at h
    refine isNew_node h (fun _ => rfl) (fun _ i fields hfields => ?_) hparts
    subst hfields
    cases harity
  | some arity =>
    simp only [item, harity] at h
    by_cases hindex : index < arity
    · rw [if_pos hindex] at h
      refine isNew_node h (fun _ => rfl) (fun _ i fields hfields => ?_) hparts
      subst hfields
      cases harity
      exact hindex
    · rw [if_neg hindex] at h
      cases h

theorem isNew_function {params : List Expr} {body : Expr} {attrs : LiteralDict}
    (h : function params body attrs b = .ok (e, b'))
    (hparts : ∀ i, ∀ p ∈ (Expr.function i params body attrs).parts, known p) :
    IsNew known b.registry b.nextNode e b' := by
  unfold function at h
  generalize hfind : params.zipIdx.find? _ = found at h
  cases found with
  | some => cases h
  | none =>
    refine isNew_node h (fun _ => rfl) (fun _ p hp => ?_) hparts
    obtain ⟨k, hk, hpk⟩ := List.mem_iff_getElem.1 hp
    have hmem : (p, k) ∈ params.zipIdx :=
      List.mk_mem_zipIdx_iff_getElem?.2 (List.getElem?_eq_some_iff.2 ⟨hk, hpk⟩)
    simpa [Option.isSome_iff_ne_none] using List.find?_eq_none.1 hfind (p, k) hmem

theorem isNew_constant {dtype : DType} {dims : List UInt64} {data : List Element}
    (h : constant dtype dims data b = .ok (e, b')) : IsNew known b.registry b.nextNode e b' := by
  cases hproduct : Word.product? dims with
  | none =>
    simp only [constant, hproduct] at h
    cases h
  | some expected =>
    simp only [constant, hproduct] at h
    by_cases hlength : data.length = expected.toNat
    · rw [if_pos hlength] at h
      refine isNew_node h (fun _ => rfl) (fun _ => ?_) (fun _ => List.forall_mem_nil _)
      exact hlength.trans (Word.toNat_of_product? hproduct)
    · rw [if_neg hlength] at h
      cases h

/-- **What building gives**: the node of a registered operator, and then the builder is as before, or a new node. -/
theorem Makes.gives {there : List Expr} {m : BuildM Expr} (h : Makes there m) (hthere : ∀ e ∈ there, known e)
    (hknown : Stock known b.registry b.nextNode) (hm : m b = .ok (e, b')) :
    (b' = b ∧ ∃ name entry, b.registry.find? name = some entry ∧ e = entry.expr) ∨
      IsNew known b.registry b.nextNode e b' := by
  cases h with
  | op name =>
    obtain ⟨entry, hf, rfl, rfl⟩ := op_eq_ok_iff.1 hm
    exact .inl ⟨rfl, name, entry, hf, rfl⟩
  | var name =>
    refine .inr (isNew_node (b := { b with nextVar := b.nextVar + 1 }) hm (fun _ => rfl) (fun _ => trivial) fun _ => ?_)
    exact List.forall_mem_nil _
  | typedVar name t =>
    obtain ⟨x, b₁, hx, hcopy⟩ := bind_eq_ok (m := Build.var name) hm
    cases hx
    obtain ⟨hregistry, hle, hlt, hwell, hparts⟩ := isNew_copy hcopy trivial (List.forall_mem_nil _)
    exact .inr ⟨hregistry, Nat.le_of_succ_le hle, hlt, hwell, hparts⟩
  | scalar value =>
    exact .inr (isNew_node hm (fun _ => rfl) (fun _ => rfl) fun _ => List.forall_mem_nil _)
  | constant => exact .inr (isNew_constant hm)
  | external => exact .inr (isNew_node hm (fun _ => rfl) (fun _ => trivial) fun _ => List.forall_mem_nil _)
  | call hcallee hargs hattrs =>
    refine .inr (isNew_call hm (hknown.wellFormed _ (hthere _ hcallee)) fun _ p hp => ?_)
    rcases List.mem_append.1 hp with hp | hp
    · rcases List.mem_cons.1 hp with rfl | hp
      · exact hthere _ hcallee
      · exact hthere p (hargs p hp)
    · exact hthere p (hattrs p hp)
  | callOp name hargs =>
    obtain ⟨f, b₁, hf, -⟩ := bind_eq_ok (m := Build.op name) hm
    obtain ⟨entry, hentry, rfl, rfl⟩ := op_eq_ok_iff.1 hf
    rw [callOp_eq hentry] at hm
    have hcallee := hknown.registered name entry hentry
    refine .inr (isNew_call hm (hknown.wellFormed _ hcallee) fun _ p hp => ?_)
    rcases List.mem_append.1 hp with hp | hp
    · rcases List.mem_cons.1 hp with rfl | hp
      · exact hcallee
      · exact hthere p (hargs p hp)
    · cases hp
  | tuple hfields =>
    refine .inr (isNew_node hm (fun _ => rfl) (fun _ => trivial) fun _ p hp => ?_)
    rcases List.mem_append.1 hp with hp | hp
    · exact hthere p (hfields p hp)
    · cases hp
  | item index ht => exact .inr (isNew_item hm (hthere _ ht))
  | function hparams hbody hattrs =>
    refine .inr (isNew_function hm fun _ p hp => ?_)
    rcases List.mem_append.1 hp with hp | hp
    · rcases List.mem_append.1 hp with hp | hp
      · exact hthere p (hparams p hp)
      · obtain rfl := List.mem_singleton.1 hp
        exact hthere _ hbody
    · exact hthere p (hattrs p hp)
  | cond htest hthen helse =>
    refine .inr (isNew_node hm (fun _ => rfl) (fun _ => trivial) fun _ p hp => ?_)
    simp only [Expr.parts, Expr.children, Expr.attrExprs, List.append_nil, List.mem_cons, List.not_mem_nil,
      or_false] at hp
    rcases hp with rfl | rfl | rfl
    · exact hthere _ htest
    · exact hthere _ hthen
    · exact hthere _ helse
  | dims => exact .inr (isNew_node hm (fun _ => rfl) (fun _ => trivial) fun _ => List.forall_mem_nil _)
  | @withType c _ hc | @withShape c _ hc =>
    exact .inr (isNew_copy hm (hknown.wellFormed c (hthere c hc)) (hknown.parts c (hthere c hc)))

end Build
end Dataflow
