import Dataflow.Match.Attribute
import Mathlib.Tactic.Common
/-!
# The two kinds of strings in attribute constraints

A literal may hold a text as a string or as an immediate string.  `plain` writes it as a string, so literals that differ
only in the kinds of their strings are those with the same plain literal, and likewise for attribute values.

`heldByText` compares the literals of a function as the attribute values of other nodes are compared, strings by
content.  It cannot tell the two kinds apart, neither in the pattern nor among the attributes (`heldByText_congr`), and
on operators and calls it is what a constraint asks for.  On a function a constraint asks for the kinds as well, since
its dictionary is compared structurally (`heldBy_eq`).  So the kinds matter to a function that has the texts asked for,
and to nothing else (`heldBy_eq_iff_of_plain_eq`).
-/
namespace Dataflow

/-! ## Values without the kinds of their strings -/

/-- The literal, with a text as a string.  What is inside an array stays as it is. -/
def Literal.plain : Literal → Literal
  | .stringImm s => .string s
  | l => l

/-- The value with a text as a string literal, also where it stands without one. -/
def AttrValue.plain : AttrValue → AttrValue
  | .string s => .literal (.string s)
  | .literal l => .literal l.plain
  | v => v

def Dict.plain (d : LiteralDict) : LiteralDict := ⟨d.entries.map fun (name, l) => (name, l.plain)⟩

def Record.plain (r : Attrs) : Attrs := { r with fields := r.fields.map fun (name, v) => (name, v.plain) }

def Registry.plain (r : Registry) : Registry := { r with attrs := r.attrs.map fun a => { a with value := a.value.plain } }

theorem lookup_map_snd {α β : Type} (f : α → β) (name : String) : ∀ entries : List (String × α),
    (entries.map fun (n, v) => (n, f v)).lookup name = (entries.lookup name).map f
  | [] => rfl
  | (n, v) :: entries => by
    rw [List.map_cons, List.lookup_cons, List.lookup_cons, lookup_map_snd f name entries]
    cases name == n <;> rfl

/-- What a constraint reads of a node, without the kinds of strings. -/
def Expr.plainAttrs : Expr → Expr
  | .call i f args attrs => .call i f args (attrs.map Record.plain)
  | .function i ps body attrs => .function i ps body attrs.plain
  | e => e

theorem Dict.get?_plain (d : LiteralDict) (name : String) : d.plain.get? name = (d.get? name).map Literal.plain :=
  lookup_map_snd Literal.plain name d.entries

theorem Record.get?_plain (r : Attrs) (name : String) : r.plain.get? name = (r.get? name).map AttrValue.plain :=
  lookup_map_snd AttrValue.plain name r.fields

theorem Registry.attr?_plain (r : Registry) (attr operator : String) :
    r.plain.attr? attr operator = (r.attr? attr operator).map AttrValue.plain := by
  unfold attr? plain
  rw [List.find?_map, Option.map_map, Option.map_map]
  rfl

namespace Literal

theorem string?_plain (l : Literal) : l.plain.string? = l.string? := by
  cases l <;> rfl

theorem plain_of_string?_eq_none {l : Literal} (h : l.string? = none) : l.plain = l := by
  cases l with
  | stringImm => cases h
  | _ => rfl

/-- Whether two literals are equal by text if the second is a string, and structurally if it is none. -/
def sameText (l m : Literal) : Bool :=
  match m.string? with
  | some s => l.string? == some s
  | none => l.equal m

/-- Not one string and one immediate string. -/
def sameKind : Literal → Literal → Bool
  | .string _, .stringImm _ | .stringImm _, .string _ => false
  | _, _ => true

/-- Two literals are structurally equal iff they are by text and neither is the other kind of string. -/
theorem equal_eq (l m : Literal) : l.equal m = (l.sameText m && l.sameKind m) := by
  cases m with
  | string | stringImm => cases l <;> simp [sameText, string?, sameKind, equal]
  | _ => cases l <;> simp [sameText, string?, sameKind, equal]

theorem sameText_plain (l m : Literal) : l.plain.sameText m.plain = l.sameText m := by
  unfold sameText
  rw [string?_plain, string?_plain]
  cases hm : m.string? with
  | some s => rfl
  | none =>
    rw [plain_of_string?_eq_none hm]
    cases l with
    | stringImm s =>
      cases m with
      | stringImm | string => cases hm
      | _ => simp [plain, equal]
    | _ => rfl

theorem agrees_literal (l m : Literal) : l.agrees (.literal m) = .ok (l.sameText m) := by
  unfold agrees sameText
  dsimp only
  cases m.string? <;> rfl

/-- Whether a literal agrees with an attribute value does not depend on the kinds of strings. -/
theorem agrees_plain (l : Literal) (v : AttrValue) : l.plain.agrees v.plain = l.agrees v := by
  cases v with
  | null | handle => rfl
  | int | float => cases l <;> rfl
  | string s =>
    rw [AttrValue.plain, agrees_literal]
    exact congrArg (fun text => Except.ok (text == some s)) l.string?_plain
  | dtype d =>
    unfold agrees AttrValue.plain
    dsimp only
    rw [string?_plain]
    cases hl : l.string? with
    | none => rw [plain_of_string?_eq_none hl]
    | some s => rfl
  | literal m => rw [AttrValue.plain, agrees_literal, agrees_literal, sameText_plain]

end Literal

namespace Dict

/-! ## Operators and calls -/

theorem agreesWith_cons (name : String) (l : Literal) (entries : List (String × Literal))
    (value? : String → Option AttrValue) :
    agreesWith ⟨(name, l) :: entries⟩ value? =
      (((value? name).map l.agrees).getD (.ok false) >>= fun agrees =>
        if agrees then agreesWith ⟨entries⟩ value? else .ok false) := by
  unfold agreesWith
  rw [List.allM_cons]
  dsimp only
  cases value? name <;> rfl

theorem agreesWith_plain (value? : String → Option AttrValue) : ∀ entries : List (String × Literal),
    (plain ⟨entries⟩).agreesWith (fun name => (value? name).map AttrValue.plain) = agreesWith ⟨entries⟩ value?
  | [] => rfl
  | (name, l) :: entries => by
    have hhead : ((value? name).map AttrValue.plain).map l.plain.agrees = (value? name).map l.agrees := by
      rw [Option.map_map]
      exact congrArg (Option.map · _) (funext l.agrees_plain)
    have hrest := agreesWith_plain value? entries
    unfold plain at hrest ⊢
    rw [List.map_cons, agreesWith_cons, agreesWith_cons, hrest, hhead]

/-! ## Functions -/

/-- Whether an expression has every attribute of a dictionary, the kinds of strings apart. -/
def heldByText (d : LiteralDict) (registry : Registry) : Expr → Except Fault Bool
  | .function _ _ _ attrs => d.agreesWith fun name => (attrs.get? name).map .literal
  | e => d.heldBy registry e

/-- Whether a function has its strings in the kinds in which a dictionary has them; no other node is asked. -/
def kindsHeldBy (d : LiteralDict) : Expr → Bool
  | .function _ _ _ attrs => d.entries.all fun (name, l) => (attrs.get? name).all l.sameKind
  | _ => true

theorem heldByText_function (d attrs : LiteralDict) (registry : Registry) (i : NodeInfo) (ps : List Expr) (body : Expr) :
    d.heldByText registry (.function i ps body attrs) =
      .ok (d.entries.all fun (name, l) => (attrs.get? name).any l.sameText) := by
  refine Eq.trans ?_ List.allM_pure
  refine congrArg (List.allM · d.entries) (funext fun entry => ?_)
  obtain ⟨name, l⟩ := entry
  dsimp only
  cases attrs.get? name with
  | none => rfl
  | some m => exact l.agrees_literal m

/-- A constraint asks for the texts of strings, and on a function for their kinds. -/
theorem heldBy_eq (d : LiteralDict) (registry : Registry) (e : Expr) :
    d.heldBy registry e = (· && d.kindsHeldBy e) <$> d.heldByText registry e := by
  cases e with
  | function i ps body attrs =>
    rw [heldByText_function]
    refine congrArg Except.ok (Bool.eq_iff_iff.2 ?_)
    rw [Bool.and_eq_true, kindsHeldBy, List.all_eq_true, List.all_eq_true, List.all_eq_true, ← forall₂_and]
    refine forall₂_congr fun entry _ => ?_
    obtain ⟨name, l⟩ := entry
    dsimp only
    cases attrs.get? name with
    | none => simp
    | some m => rw [Option.any_some, Option.any_some, Option.all_some, Literal.equal_eq, Bool.and_eq_true]
  | _ =>
    unfold heldByText kindsHeldBy
    simp only [Bool.and_true, id_map']

/-! ## Nodes that differ in the kinds of their strings -/

theorem heldByText_plain (d : LiteralDict) (registry : Registry) (e : Expr) :
    d.plain.heldByText registry.plain e.plainAttrs = d.heldByText registry e := by
  cases e with
  | op i o =>
    have hvalue : (registry.plain.attr? · o.name) = fun name => (registry.attr? name o.name).map AttrValue.plain :=
      funext (registry.attr?_plain · o.name)
    exact (congrArg d.plain.agreesWith hvalue).trans (agreesWith_plain _ d.entries)
  | call i f args attrs =>
    have hvalue : (fun name => (attrs.map Record.plain).bind (·.get? name)) =
        fun name => (attrs.bind (·.get? name)).map AttrValue.plain := funext fun name => by
      cases attrs with
      | none => rfl
      | some attrs => exact attrs.get?_plain name
    exact (congrArg d.plain.agreesWith hvalue).trans (agreesWith_plain _ d.entries)
  | function i ps body attrs =>
    have hvalue : (fun name => (attrs.plain.get? name).map AttrValue.literal) =
        fun name => ((attrs.get? name).map .literal).map AttrValue.plain := funext fun name => by
      rw [get?_plain, Option.map_map, Option.map_map]
      rfl
    exact (congrArg d.plain.agreesWith hvalue).trans (agreesWith_plain _ d.entries)
  | _ => rfl

section

variable {d d' : LiteralDict} {registry registry' : Registry} {e e' : Expr}

theorem heldByText_congr (hd : d.plain = d'.plain) (hregistry : registry.plain = registry'.plain)
    (he : e.plainAttrs = e'.plainAttrs) : d.heldByText registry e = d'.heldByText registry' e' := by
  rw [← heldByText_plain d, ← heldByText_plain d', hd, hregistry, he]

/-- **The kinds of strings, in the pattern and among the attributes, change the outcome of a constraint exactly on a
function that has every text asked for, and has them in the kinds asked for only the one time.** -/
theorem heldBy_eq_iff_of_plain_eq (hd : d.plain = d'.plain) (hregistry : registry.plain = registry'.plain)
    (he : e.plainAttrs = e'.plainAttrs) :
    d.heldBy registry e = d'.heldBy registry' e' ↔
      (d.heldByText registry e = .ok true → d.kindsHeldBy e = d'.kindsHeldBy e') := by
  rw [heldBy_eq, heldBy_eq, ← heldByText_congr hd hregistry he]
  cases d.heldByText registry e with
  | error fault => exact ⟨fun _ => nofun, fun _ => rfl⟩
  | ok held =>
    cases held with
    | false => exact ⟨fun _ => nofun, fun _ => rfl⟩
    | true => exact ⟨fun h _ => Except.ok.inj h, fun h => congrArg Except.ok (h rfl)⟩

end

/-- A layout of either kind of string, asked for in either kind, on an operator and on a call; on a function the
exchange of the two kinds for each other changes nothing. -/
theorem heldBy_eq_of_exchanged_layout :
    let text := Literal.string "NCHW"
    let immediate := Literal.stringImm "NCHW"
    let layout : Literal → LiteralDict := fun l => .ofList [("data_layout", l)]
    let registry := fun l => Registry.empty.setAttr "data_layout" "nn.conv2d" (.literal l)
    let conv := Expr.op ⟨0, none, none⟩ ⟨"nn.conv2d", some 2⟩
    let call := fun l => Expr.call ⟨1, none, none⟩ conv [] (some (.ofList "Conv2DAttrs" [("data_layout", .literal l)]))
    let function := fun l => Expr.function ⟨2, none, none⟩ [] conv (layout l)
    (layout text).plain = (layout immediate).plain ∧ (registry text).plain = (registry immediate).plain ∧
      (call text).plainAttrs = (call immediate).plainAttrs ∧
      (function text).plainAttrs = (function immediate).plainAttrs ∧
      (layout text).heldBy (registry immediate) conv = (layout immediate).heldBy (registry text) conv ∧
      (layout text).heldBy (registry text) (call immediate) = (layout immediate).heldBy (registry text) (call text) ∧
      (layout text).heldBy .empty (function immediate) = (layout immediate).heldBy .empty (function text) := by
  intro text immediate layout registry conv call function
  have hlayout : (layout text).plain = (layout immediate).plain := rfl
  have hregistry : (registry text).plain = (registry immediate).plain := rfl
  have hcall : (call text).plainAttrs = (call immediate).plainAttrs := rfl
  have hfunction : (function text).plainAttrs = (function immediate).plainAttrs := rfl
  refine ⟨hlayout, hregistry, hcall, hfunction, ?_, ?_, ?_⟩
  · exact (heldBy_eq_iff_of_plain_eq hlayout hregistry.symm rfl).2 fun _ => rfl
  · exact (heldBy_eq_iff_of_plain_eq hlayout rfl hcall.symm).2 fun _ => rfl
  · exact (heldBy_eq_iff_of_plain_eq hlayout rfl hfunction.symm).2 fun _ => rfl

/-- A function with an immediate string has it where the pattern asks for one, and has no string of the same text. -/
theorem heldBy_ne_of_other_kind :
    let composite : Literal → LiteralDict := fun l => .ofList [("Composite", l)]
    let immediate := Literal.stringImm "conv_relu"
    let text := Literal.string "conv_relu"
    let f := Expr.function ⟨1, none, none⟩ [] (.var ⟨0, none, none⟩ ⟨0, "x"⟩) (composite immediate)
    (composite immediate).plain = (composite text).plain ∧
      (composite immediate).heldBy .empty f = .ok true ∧ (composite text).heldBy .empty f = .ok false := by
  intro composite immediate text f
  exact ⟨rfl, rfl, rfl⟩

end Dict
end Dataflow
