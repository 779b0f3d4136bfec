import Dataflow.Expr.Equal
/-!
# Comparing attributes

Attributes equal themselves.  The comparison is symmetric as far as it is for the expressions that they hold.
-/
namespace Dataflow

mutual
/-- The expressions that a literal holds. -/
def Literal.exprs : Literal → List Expr
  | .expr e => [e]
  | .array ls => Literal.exprsAll ls
  | _ => []
def Literal.exprsAll : List Literal → List Expr
  | [] => []
  | l :: ls => l.exprs ++ Literal.exprsAll ls
end

def AttrValue.exprs : AttrValue → List Expr
  | .literal l => l.exprs
  | _ => []

def Record.exprs (r : Attrs) : List Expr := r.fields.flatMap fun field => field.2.exprs

def Dict.exprs (d : LiteralDict) : List Expr := d.entries.flatMap fun entry => entry.2.exprs

/-- The expressions in the attributes of a node. -/
def Expr.attrExprs : Expr → List Expr
  | .call _ _ _ attrs => attrs.elim [] Record.exprs
  | .function _ _ _ attrs => attrs.exprs
  | _ => []

/-- The comparison of the attributes of two calls. -/
def sameAttrs : Option Attrs → Option Attrs → Bool
  | none, none => true
  | some r, some s => r.equal s
  | _, _ => false

theorem Expr.equal_self (e : Expr) : e.equal e = true := by
  rw [Expr.equal, Expr.equalUnder.eq_def]
  simp [Proven.remember]
  rfl

mutual
theorem Literal.equal_self : ∀ l : Literal, l.equal l = true
  | .int _ | .float _ | .stringImm _ | .string _ | .dtype _ | .prim _ | .type _ => by simp [Literal.equal]
  | .expr e => e.equal_self
  | .array ls => by simp [Literal.equal, Literal.equalAll_self ls]
theorem Literal.equalAll_self : ∀ ls : List Literal, Literal.equalAll ls ls = true
  | [] => rfl
  | l :: ls => by rw [Literal.equalAll, l.equal_self, Literal.equalAll_self ls]; rfl
end

theorem Literal.equalEntries_self : ∀ entries : List (String × Literal), Literal.equalEntries entries entries = true
  | [] => rfl
  | (_, l) :: entries => by simp [Literal.equalEntries, l.equal_self, Literal.equalEntries_self entries]

theorem AttrValue.equal_self (v : AttrValue) : v.equal v = true := by
  cases v <;> simp [AttrValue.equal, Literal.equal_self]

theorem AttrValue.equalFields_self : ∀ fields : List (String × AttrValue), AttrValue.equalFields fields fields = true
  | [] => rfl
  | (_, v) :: fields => by simp [AttrValue.equalFields, v.equal_self, AttrValue.equalFields_self fields]

theorem Dict.equal_self (d : LiteralDict) : d.equal d = true := by
  simp [Dict.equal, Literal.equalEntries_self]

theorem sameAttrs_self (attrs : Option Attrs) : sameAttrs attrs attrs = true := by
  cases attrs <;> simp [sameAttrs, Record.equal, AttrValue.equalFields_self]

/-! ## Symmetry -/

mutual
theorem Literal.equal_comm : ∀ l m : Literal, (∀ x ∈ l.exprs, ∀ y ∈ m.exprs, x.equal y = y.equal x) →
    l.equal m = m.equal l
  | .int _, m, _ | .float _, m, _ | .stringImm _, m, _ | .string _, m, _ | .dtype _, m, _ | .prim _, m, _
  | .type _, m, _ => by
    cases m <;> simp [Literal.equal, BEq.comm]
  | .expr x, m, h => by
    cases m with
    | expr y => exact h x (by simp [Literal.exprs]) y (by simp [Literal.exprs])
    | _ => rfl
  | .array ls, m, h => by
    cases m with
    | array ms => rw [Literal.equal, Literal.equal, Literal.equalAll_comm ls ms h, BEq.comm]
    | _ => rfl
theorem Literal.equalAll_comm : ∀ ls ms : List Literal,
    (∀ x ∈ Literal.exprsAll ls, ∀ y ∈ Literal.exprsAll ms, x.equal y = y.equal x) →
      Literal.equalAll ls ms = Literal.equalAll ms ls
  | [], [], _ | [], _ :: _, _ | _ :: _, [], _ => rfl
  | l :: ls, m :: ms, h => by
    have hhead := l.equal_comm m fun x hx y hy => h x (List.mem_append_left _ hx) y (List.mem_append_left _ hy)
    have htail := Literal.equalAll_comm ls ms fun x hx y hy =>
      h x (List.mem_append_right _ hx) y (List.mem_append_right _ hy)
    rw [Literal.equalAll, Literal.equalAll, hhead, htail]
end

theorem AttrValue.equal_comm (v w : AttrValue) (h : ∀ x ∈ v.exprs, ∀ y ∈ w.exprs, x.equal y = y.equal x) :
    v.equal w = w.equal v := by
  cases v with
  | literal l =>
    cases w with
    | literal m => exact l.equal_comm m h
    | _ => rfl
  | _ => cases w <;> simp [AttrValue.equal, BEq.comm]

theorem Literal.equalEntries_comm : ∀ xs ys : List (String × Literal),
    (∀ x ∈ xs.flatMap fun entry => entry.2.exprs, ∀ y ∈ ys.flatMap fun entry => entry.2.exprs, x.equal y = y.equal x) →
      Literal.equalEntries xs ys = Literal.equalEntries ys xs
  | [], [], _ | [], _ :: _, _ | _ :: _, [], _ => rfl
  | (n, l) :: xs, (k, m) :: ys, h => by
    have hhead := l.equal_comm m fun x hx y hy => h x (List.mem_append_left _ hx) y (List.mem_append_left _ hy)
    have htail := Literal.equalEntries_comm xs ys fun x hx y hy =>
      h x (List.mem_append_right _ hx) y (List.mem_append_right _ hy)
    rw [Literal.equalEntries, Literal.equalEntries, hhead, htail, BEq.comm]

theorem AttrValue.equalFields_comm : ∀ xs ys : List (String × AttrValue),
    (∀ x ∈ xs.flatMap fun field => field.2.exprs, ∀ y ∈ ys.flatMap fun field => field.2.exprs, x.equal y = y.equal x) →
      AttrValue.equalFields xs ys = AttrValue.equalFields ys xs
  | [], [], _ | [], _ :: _, _ | _ :: _, [], _ => rfl
  | (n, v) :: xs, (k, w) :: ys, h => by
    have hhead := v.equal_comm w fun x hx y hy => h x (List.mem_append_left _ hx) y (List.mem_append_left _ hy)
    have htail := AttrValue.equalFields_comm xs ys fun x hx y hy =>
      h x (List.mem_append_right _ hx) y (List.mem_append_right _ hy)
    rw [AttrValue.equalFields, AttrValue.equalFields, hhead, htail, BEq.comm]

theorem Dict.equal_comm {d e : LiteralDict} (h : ∀ x ∈ d.exprs, ∀ y ∈ e.exprs, x.equal y = y.equal x) :
    d.equal e = e.equal d := by
  rw [Dict.equal, Dict.equal, Literal.equalEntries_comm _ _ h, BEq.comm]

theorem sameAttrs_comm {r s : Option Attrs} (h : ∀ x ∈ r.elim [] Record.exprs, ∀ y ∈ s.elim [] Record.exprs,
    x.equal y = y.equal x) : sameAttrs r s = sameAttrs s r := by
  cases r with
  | none => cases s <;> rfl
  | some r =>
    cases s with
    | none => rfl
    | some s =>
      rw [sameAttrs, sameAttrs, Record.equal, Record.equal, AttrValue.equalFields_comm _ _ h, BEq.comm (a := r.typeKey),
        BEq.comm (a := r.fields.length)]

/-! ## What attributes hold is smaller -/

mutual
theorem Literal.sizeOf_lt_of_mem_exprs {x : Expr} : ∀ {l : Literal}, x ∈ l.exprs → sizeOf x < sizeOf l
  | .expr e, h => by
    obtain rfl := List.mem_singleton.1 h
    simp
  | .array ls, h => by
    have := Literal.sizeOf_lt_of_mem_exprsAll h
    simp; omega
theorem Literal.sizeOf_lt_of_mem_exprsAll {x : Expr} :
    ∀ {ls : List Literal}, x ∈ Literal.exprsAll ls → sizeOf x < sizeOf ls
  | l :: ls, h => by
    rcases List.mem_append.1 h with h | h
    · have := Literal.sizeOf_lt_of_mem_exprs h
      simp; omega
    · have := Literal.sizeOf_lt_of_mem_exprsAll h
      simp; omega
end

theorem Expr.sizeOf_lt_of_mem_attrExprs {x e : Expr} (h : x ∈ e.attrExprs) : sizeOf x < sizeOf e := by
  cases e with
  | call _ _ _ attrs =>
    cases attrs with
    | none => cases h
    | some r =>
      obtain ⟨⟨n, v⟩, hf, hx⟩ := List.mem_flatMap.1 h
      have hlt := List.sizeOf_lt_of_mem hf
      cases v with
      | literal l =>
        have := Literal.sizeOf_lt_of_mem_exprs hx
        obtain ⟨key, fields⟩ := r
        simp at hlt ⊢
        omega
      | _ => cases hx
  | function _ _ _ attrs =>
    obtain ⟨⟨n, l⟩, hf, hx⟩ := List.mem_flatMap.1 h
    have hlt := List.sizeOf_lt_of_mem hf
    have : sizeOf x < sizeOf l := Literal.sizeOf_lt_of_mem_exprs hx
    obtain ⟨entries⟩ := attrs
    simp at hlt ⊢
    omega
  | _ => cases h

theorem Expr.sizeOf_lt_of_mem_children {c e : Expr} (h : c ∈ e.children) : sizeOf c < sizeOf e := by
  cases e with
  | call _ f args =>
    rcases List.mem_cons.1 h with rfl | h
    · simp; omega
    · have := List.sizeOf_lt_of_mem h
      simp; omega
  | tuple _ fs =>
    have : sizeOf c < sizeOf fs := List.sizeOf_lt_of_mem h
    simp; omega
  | item =>
    obtain rfl := List.mem_singleton.1 h
    simp; omega
  | function _ ps =>
    rcases List.mem_append.1 h with h | h
    · have := List.sizeOf_lt_of_mem h
      simp; omega
    · obtain rfl := List.mem_singleton.1 h
      simp; omega
  | cond =>
    simp only [children, List.mem_cons, List.not_mem_nil, or_false] at h
    rcases h with rfl | rfl | rfl <;> simp <;> omega
  | _ => cases h
end Dataflow
