import Dataflow.SymInt.Normalize
import Mathlib.Tactic.Common
/-!
# Keys can be read in one way

A term that polynomials do not look into is known by a text: its operator and the keys of its operands.  Two such
terms share a text only if they are the same term (`sealedKey_inj`).  A key is read from the left.  A numeral goes
on as long as there are digits, a product as long as there are stars, a sum as long as there are plus signs, and a
nested key up to the bracket that closes it.  The last works because the brackets in a key match (`Balanced`).
-/
namespace Dataflow

/-! ## Texts split at the first character that cannot belong to them -/

/-- The first character, if there is one, is as said. -/
def Opens (P : Char → Prop) (cs : List Char) : Prop := ∀ c ∈ cs.head?, P c

theorem opens_cons {P : Char → Prop} {c : Char} {cs : List Char} : Opens P (c :: cs) ↔ P c := by
  simp [Opens]

theorem Opens.imp {P Q : Char → Prop} {cs : List Char} (hPQ : ∀ c, P c → Q c) (h : Opens P cs) : Opens Q cs :=
  fun c hc => hPQ c (h c hc)

theorem append_inj_of_forall {P : Char → Prop} : ∀ {xs ys s t : List Char}, (∀ c ∈ xs, P c) → (∀ c ∈ ys, P c) →
    Opens (¬P ·) s → Opens (¬P ·) t → xs ++ s = ys ++ t → xs = ys ∧ s = t
  | [], [], _, _, _, _, _, _, h => ⟨rfl, h⟩
  | [], y :: ys, s, t, _, hy, hs, _, h => by
    rw [List.nil_append] at h
    rw [h, List.cons_append, opens_cons] at hs
    exact absurd (hy y (by simp)) hs
  | x :: xs, [], s, t, hx, _, _, ht, h => by
    rw [List.nil_append] at h
    rw [← h, List.cons_append, opens_cons] at ht
    exact absurd (hx x (by simp)) ht
  | x :: xs, y :: ys, s, t, hx, hy, hs, ht, h => by
    rw [List.cons_append, List.cons_append, List.cons.injEq] at h
    obtain ⟨rfl, hrest⟩ := h
    obtain ⟨rfl, rfl⟩ := append_inj_of_forall (fun c hc => hx c (by simp [hc])) (fun c hc => hy c (by simp [hc]))
      hs ht hrest
    exact ⟨rfl, rfl⟩

theorem Opens.flatMap_append {α : Type} {f : α → List Char} {follows : Char → Prop} {lead : Char} {as : List α}
    {s : List Char} (hs : Opens (fun c => follows c ∧ c ≠ lead) s) (hlead : ∀ a, ∃ cs, f a = lead :: cs)
    (hfollows : follows lead) : Opens follows (as.flatMap f ++ s) := by
  cases as with
  | nil => exact hs.imp fun _ h => h.1
  | cons a as =>
    obtain ⟨cs, hcs⟩ := hlead a
    rw [List.flatMap_cons, hcs, List.cons_append, List.cons_append, opens_cons]
    exact hfollows

/-- Items that all begin with `lead` and are read in one way make lists that are read in one way, before a text
that does not begin with it. -/
theorem flatMap_append_inj {α : Type} {f : α → List Char} {good : α → Prop} {follows : Char → Prop} {lead : Char}
    (hlead : ∀ a, ∃ cs, f a = lead :: cs)
    (hf : ∀ a b s t, good a → good b → Opens follows s → Opens follows t → f a ++ s = f b ++ t → a = b ∧ s = t)
    (hfollows : follows lead) :
    ∀ {as bs : List α} {s t : List Char}, (∀ a ∈ as, good a) → (∀ b ∈ bs, good b) →
      Opens (fun c => follows c ∧ c ≠ lead) s → Opens (fun c => follows c ∧ c ≠ lead) t →
      as.flatMap f ++ s = bs.flatMap f ++ t → as = bs ∧ s = t := by
  have hnot : ∀ a s t, Opens (fun c => follows c ∧ c ≠ lead) t → f a ++ s ≠ t := by
    rintro a s t ht rfl
    obtain ⟨cs, hcs⟩ := hlead a
    rw [hcs, List.cons_append, opens_cons] at ht
    exact ht.2 rfl
  intro as
  induction as with
  | nil =>
    intro bs s t _ _ hs _ h
    cases bs with
    | nil => exact ⟨rfl, h⟩
    | cons b bs =>
      rw [List.flatMap_nil, List.nil_append, List.flatMap_cons, List.append_assoc] at h
      exact absurd h.symm (hnot b _ s hs)
  | cons a as ih =>
    intro bs s t ha hb hs ht h
    cases bs with
    | nil =>
      rw [List.flatMap_nil, List.nil_append, List.flatMap_cons, List.append_assoc] at h
      exact absurd h (hnot a _ t ht)
    | cons b bs =>
      rw [List.flatMap_cons, List.flatMap_cons, List.append_assoc, List.append_assoc] at h
      obtain ⟨rfl, hrest⟩ := hf a b _ _ (ha a (by simp)) (hb b (by simp)) (hs.flatMap_append hlead hfollows)
        (ht.flatMap_append hlead hfollows) h
      obtain ⟨rfl, rfl⟩ := ih (fun c hc => ha c (by simp [hc])) (fun c hc => hb c (by simp [hc])) hs ht hrest
      exact ⟨rfl, rfl⟩

/-! ## Numerals -/

def NoDigit (c : Char) : Prop := ¬c.isDigit = true

instance : DecidablePred NoDigit := fun _ => inferInstanceAs (Decidable (¬_))

theorem isDigit_of_mem_repr {n : Nat} {c : Char} (h : c ∈ n.repr.toList) : c.isDigit = true := by
  rw [Nat.toList_repr] at h
  exact Nat.isDigit_of_mem_toDigits (by decide) (by decide) h

theorem repr_append_inj {i j : Nat} {s t : List Char} (hs : Opens NoDigit s) (ht : Opens NoDigit t)
    (h : i.repr.toList ++ s = j.repr.toList ++ t) : i = j ∧ s = t := by
  obtain ⟨hij, hst⟩ := append_inj_of_forall (fun _ => isDigit_of_mem_repr) (fun _ => isDigit_of_mem_repr) hs ht h
  rw [Nat.toList_repr, Nat.toList_repr] at hij
  refine ⟨?_, hst⟩
  rw [← Nat.ofDigitChars_ten_toDigits (n := i), hij, Nat.ofDigitChars_ten_toDigits]

theorem repr_append_ne_minus (n : Nat) (s t : List Char) : n.repr.toList ++ s ≠ '-' :: t := by
  intro h
  cases hn : n.repr.toList with
  | nil => exact absurd (by rw [← String.toList_inj, hn]; rfl) (Nat.repr_ne_empty (n := n))
  | cons c cs =>
    rw [hn, List.cons_append, List.cons.injEq] at h
    have hc : c.isDigit = true := isDigit_of_mem_repr (n := n) (by simp [hn])
    rw [h.1] at hc
    exact absurd hc (by decide)

theorem toString_append_inj {x y : Int} {s t : List Char} (hs : Opens NoDigit s) (ht : Opens NoDigit t)
    (h : (toString x).toList ++ s = (toString y).toList ++ t) : x = y ∧ s = t := by
  simp only [Int.toString_eq_repr, Int.repr_eq_if] at h
  split at h <;> split at h
  · obtain ⟨hxy, rfl⟩ := repr_append_inj hs ht h
    exact ⟨by omega, rfl⟩
  · rw [String.toList_append] at h
    exact absurd h (repr_append_ne_minus _ _ _)
  · rw [String.toList_append] at h
    exact absurd h.symm (repr_append_ne_minus _ _ _)
  · rw [String.toList_append, String.toList_append, List.append_assoc, List.append_assoc] at h
    obtain ⟨hxy, rfl⟩ := repr_append_inj hs ht (List.append_cancel_left h)
    exact ⟨by omega, rfl⟩

/-! ## Matching brackets -/

/-- How many brackets are open after a text that begins with `d` open ones; none is closed that is not open. -/
def depthAfter : Nat → List Char → Option Nat
  | d, [] => some d
  | d, '[' :: cs => depthAfter (d + 1) cs
  | 0, ']' :: _ => none
  | d + 1, ']' :: cs => depthAfter d cs
  | d, _ :: cs => depthAfter d cs

def Balanced (cs : List Char) : Prop := ∀ d, depthAfter d cs = some d

theorem depthAfter_append : ∀ (xs ys : List Char) (d : Nat),
    depthAfter d (xs ++ ys) = (depthAfter d xs).bind fun e => depthAfter e ys := by
  intro xs ys d
  fun_induction depthAfter d xs <;> simp_all [depthAfter]

theorem Balanced.append {xs ys : List Char} (hx : Balanced xs) (hy : Balanced ys) : Balanced (xs ++ ys) := by
  intro d
  rw [depthAfter_append, hx d, Option.bind_some, hy d]

theorem Balanced.flatMap {α : Type} {f : α → List Char} : ∀ {as : List α}, (∀ a ∈ as, Balanced (f a)) →
    Balanced (as.flatMap f)
  | [], _ => fun _ => rfl
  | a :: as, h => by
    rw [List.flatMap_cons]
    exact (h a (by simp)).append (Balanced.flatMap fun b hb => h b (by simp [hb]))

theorem depthAfter_cons_of_ne {c : Char} (h : c ≠ '[' ∧ c ≠ ']') (d : Nat) (cs : List Char) :
    depthAfter d (c :: cs) = depthAfter d cs := by
  rw [depthAfter.eq_def]
  split <;> grind

theorem Balanced.cons {c : Char} {cs : List Char} (hc : c ≠ '[' ∧ c ≠ ']') (h : Balanced cs) :
    Balanced (c :: cs) := by
  intro d
  rw [depthAfter_cons_of_ne hc, h d]

theorem balanced_of_forall : ∀ {cs : List Char}, (∀ c ∈ cs, c ≠ '[' ∧ c ≠ ']') → Balanced cs
  | [], _ => fun _ => rfl
  | c :: cs, h => Balanced.cons (h c (by simp)) (balanced_of_forall fun b hb => h b (by simp [hb]))

theorem Balanced.enclosed {cs : List Char} (h : Balanced cs) : Balanced ('[' :: (cs ++ [']'])) := by
  intro d
  rw [depthAfter, depthAfter_append, h]
  rfl

theorem Balanced.not_append_close {xs : List Char} (h : Balanced xs) (zs : List Char) :
    ¬Balanced (xs ++ ']' :: zs) := by
  intro hz
  have h0 := hz 0
  rw [depthAfter_append, h 0] at h0
  cases h0

/-- A bracketed text ends at the bracket that closes it. -/
theorem Balanced.append_inj {xs ys s t : List Char} (hx : Balanced xs) (hy : Balanced ys)
    (h : xs ++ ']' :: s = ys ++ ']' :: t) : xs = ys ∧ s = t := by
  rcases List.append_eq_append_iff.1 h with ⟨zs, rfl, hzs⟩ | ⟨zs, rfl, hzs⟩
  · cases zs with
    | nil => simpa using hzs
    | cons z zs =>
      rw [List.cons_append, List.cons.injEq] at hzs
      exact absurd (hzs.1 ▸ hy) (hx.not_append_close zs)
  · cases zs with
    | nil => simpa [eq_comm] using hzs
    | cons z zs =>
      rw [List.cons_append, List.cons.injEq] at hzs
      exact absurd (hzs.1 ▸ hx) (hy.not_append_close zs)

/-! ## Keys -/

def Atom.Legible : Atom → Prop
  | .var _ => True
  | .sealed key => Balanced key.toList

namespace Polynomial

/-- No term is zero and every atom is legible. -/
def Legible (p : Polynomial) : Prop := ∀ t ∈ p.toList, t.2 ≠ 0 ∧ ∀ a ∈ t.1, a.Legible

/-- The text of a term that is not looked into. -/
def sealedKey (name : String) (p q : Polynomial) : String := name ++ "(" ++ p.key ++ "," ++ q.key ++ ")"

theorem sealed_eq (name : String) (p q : Polynomial) :
    Polynomial.sealed name p q = atom (.sealed (sealedKey name p q)) := rfl

theorem toList_atomKey_var (i : Nat) : (atomKey (.var i)).toList = '*' :: 'v' :: i.repr.toList := by
  rw [atomKey, String.toList_append]; rfl

theorem toList_atomKey_sealed (key : String) :
    (atomKey (.sealed key)).toList = '*' :: '[' :: (key.toList ++ [']']) := by
  rw [atomKey, String.toList_append, String.toList_append]; rfl

theorem toList_termKey (t : Monomial × Int64) :
    (termKey t).toList = (toString t.2.toInt).toList ++ t.1.flatMap fun a => (atomKey a).toList := by
  rw [termKey, String.toList_append, String.toList_join, List.flatMap_map]

theorem toList_key_of_cons {p : Polynomial} {t : Monomial × Int64} {ts : List (Monomial × Int64)}
    (h : p.toList = t :: ts) :
    p.key.toList = (termKey t).toList ++ ts.flatMap fun u => '+' :: (termKey u).toList := by
  have hsum : ∀ (ts : List (Monomial × Int64)) (t : Monomial × Int64),
      ("+".intercalate ((t :: ts).map termKey)).toList =
        (termKey t).toList ++ ts.flatMap fun u => '+' :: (termKey u).toList := by
    intro ts
    induction ts with
    | nil => intro t; simp
    | cons u us ih =>
      intro t
      rw [List.map_cons, List.map_cons, String.intercalate_cons_cons, String.toList_append, ← List.map_cons, ih u,
        String.toList_append, List.flatMap_cons, List.append_assoc]
      rfl
  have hne : p.terms.isEmpty = false := by
    rw [← Std.TreeMap.isEmpty_toList]
    exact congrArg List.isEmpty h
  rw [key, hne, h]
  exact hsum ts t

theorem key_of_nil {p : Polynomial} (h : p.toList = []) : p.key = "0" := by
  have he : p.terms.isEmpty = true := by
    rw [← Std.TreeMap.isEmpty_toList]
    exact congrArg List.isEmpty h
  rw [key, if_pos he]

/-! ## A key has one reading -/

theorem atomKey_append_inj {a b : Atom} {s t : List Char} (ha : a.Legible) (hb : b.Legible) (hs : Opens NoDigit s)
    (ht : Opens NoDigit t) (h : (atomKey a).toList ++ s = (atomKey b).toList ++ t) : a = b ∧ s = t := by
  cases a with
  | var i =>
    cases b with
    | var j =>
      rw [toList_atomKey_var, toList_atomKey_var] at h
      obtain ⟨rfl, rfl⟩ := repr_append_inj hs ht (by simpa only [List.cons_append, List.cons.injEq, true_and] using h)
      exact ⟨rfl, rfl⟩
    | sealed l =>
      rw [toList_atomKey_var, toList_atomKey_sealed] at h
      simp at h
  | sealed k =>
    cases b with
    | var j =>
      rw [toList_atomKey_sealed, toList_atomKey_var] at h
      simp at h
    | sealed l =>
      rw [toList_atomKey_sealed, toList_atomKey_sealed] at h
      obtain ⟨hkl, rfl⟩ := Balanced.append_inj ha hb (s := s) (t := t) (by simpa using h)
      exact ⟨congrArg Atom.sealed (String.toList_inj.1 hkl), rfl⟩

theorem atomKey_head (a : Atom) : ∃ cs, (atomKey a).toList = '*' :: cs := by
  cases a with
  | var i => exact ⟨_, toList_atomKey_var i⟩
  | sealed k => exact ⟨_, toList_atomKey_sealed k⟩

def AfterTerm (c : Char) : Prop := NoDigit c ∧ c ≠ '*'

theorem termKey_append_inj {t u : Monomial × Int64} {cs ds : List Char} (ht : ∀ a ∈ t.1, a.Legible)
    (hu : ∀ a ∈ u.1, a.Legible) (hcs : Opens AfterTerm cs) (hds : Opens AfterTerm ds)
    (h : (termKey t).toList ++ cs = (termKey u).toList ++ ds) : t = u ∧ cs = ds := by
  have hstar : NoDigit '*' := by decide
  rw [toList_termKey, toList_termKey, List.append_assoc, List.append_assoc] at h
  obtain ⟨hc, hm⟩ := toString_append_inj (hcs.flatMap_append atomKey_head hstar)
    (hds.flatMap_append atomKey_head hstar) h
  obtain ⟨hm, hrest⟩ := flatMap_append_inj atomKey_head (fun _ _ _ _ => atomKey_append_inj) hstar ht hu hcs hds hm
  exact ⟨Prod.ext hm (Int64.toInt_inj.1 hc), hrest⟩

/-- What follows a key inside another one. -/
def AfterKey (c : Char) : Prop := c = ',' ∨ c = ')'

theorem AfterKey.afterTerm {c : Char} (h : AfterKey c) : AfterTerm c ∧ c ≠ '+' := by
  rcases h with rfl | rfl <;> exact ⟨⟨by decide, by decide⟩, by decide⟩

/-- The key of the zero polynomial begins no other key, because no term is zero. -/
theorem zeroKey_append_ne {p : Polynomial} {u : Monomial × Int64} {us : List (Monomial × Int64)} {s t : List Char}
    (hp : p.Legible) (hs : Opens AfterKey s) (ht : Opens AfterKey t) (hpu : p.toList = u :: us) :
    "0".toList ++ s ≠ p.key.toList ++ t := by
  intro h
  rw [toList_key_of_cons hpu, List.append_assoc] at h
  obtain ⟨hu, hlegible⟩ := hp u (by simp [hpu])
  have hnext : Opens AfterTerm (us.flatMap (fun u => '+' :: (termKey u).toList) ++ t) :=
    (ht.imp fun _ => AfterKey.afterTerm).flatMap_append (fun u => ⟨_, rfl⟩) ⟨by decide, by decide⟩
  obtain ⟨rfl, -⟩ := termKey_append_inj (t := (([], 0) : Monomial × Int64)) (by simp) hlegible
    (hs.imp fun _ hc => hc.afterTerm.1) hnext h
  exact hu rfl

theorem key_append_inj {p q : Polynomial} {s t : List Char} (hp : p.Legible) (hq : q.Legible)
    (hs : Opens AfterKey s) (ht : Opens AfterKey t) (h : p.key.toList ++ s = q.key.toList ++ t) :
    p.toList = q.toList ∧ s = t := by
  cases hpu : p.toList with
  | nil =>
    cases hqv : q.toList with
    | nil =>
      rw [key_of_nil hpu, key_of_nil hqv] at h
      exact ⟨rfl, List.append_cancel_left h⟩
    | cons v vs =>
      rw [key_of_nil hpu] at h
      exact absurd h (zeroKey_append_ne hq hs ht hqv)
  | cons u us =>
    cases hqv : q.toList with
    | nil =>
      rw [key_of_nil hqv] at h
      exact absurd h.symm (zeroKey_append_ne hp ht hs hpu)
    | cons v vs =>
      have hplus : AfterTerm '+' := ⟨by decide, by decide⟩
      have hlead : ∀ u : Monomial × Int64, ∃ cs, '+' :: (termKey u).toList = '+' :: cs := fun u => ⟨_, rfl⟩
      have hterm : ∀ (t u : Monomial × Int64) (cs ds : List Char), (∀ a ∈ t.1, a.Legible) → (∀ a ∈ u.1, a.Legible) →
          Opens AfterTerm cs → Opens AfterTerm ds →
          '+' :: (termKey t).toList ++ cs = '+' :: (termKey u).toList ++ ds → t = u ∧ cs = ds :=
        fun t u cs ds ht hu hcs hds h => termKey_append_inj ht hu hcs hds (List.cons.inj h).2
      have hs' := hs.imp fun _ => AfterKey.afterTerm
      have ht' := ht.imp fun _ => AfterKey.afterTerm
      have hpl : ∀ t ∈ u :: us, ∀ a ∈ t.1, a.Legible := fun t ht => (hp t (hpu ▸ ht)).2
      have hql : ∀ t ∈ v :: vs, ∀ a ∈ t.1, a.Legible := fun t ht => (hq t (hqv ▸ ht)).2
      rw [toList_key_of_cons hpu, toList_key_of_cons hqv, List.append_assoc, List.append_assoc] at h
      obtain ⟨rfl, hrest⟩ := termKey_append_inj (hpl u (by simp)) (hql v (by simp))
        (hs'.flatMap_append hlead hplus) (ht'.flatMap_append hlead hplus) h
      obtain ⟨rfl, rfl⟩ := flatMap_append_inj hlead hterm hplus (fun t ht => hpl t (by simp [ht]))
        (fun t ht => hql t (by simp [ht])) hs' ht' hrest
      exact ⟨rfl, rfl⟩

/-- A name of an operator, which has no bracket of its own. -/
def IsName (name : String) : Prop := ∀ c ∈ name.toList, c ≠ '(' ∧ c ≠ '[' ∧ c ≠ ']'

theorem toList_sealedKey (name : String) (p q : Polynomial) :
    (sealedKey name p q).toList = name.toList ++ '(' :: (p.key.toList ++ ',' :: (q.key.toList ++ [')'])) := by
  simp only [sealedKey, String.toList_append, List.append_assoc]
  rfl

/-- **Terms that are not looked into have different texts**, unless they are the same operator applied to operands
with the same terms. -/
theorem sealedKey_inj {name name' : String} {p q p' q' : Polynomial} (hn : IsName name) (hn' : IsName name')
    (hp : p.Legible) (hq : q.Legible) (hp' : p'.Legible) (hq' : q'.Legible)
    (h : sealedKey name p q = sealedKey name' p' q') :
    name = name' ∧ p.toList = p'.toList ∧ q.toList = q'.toList := by
  rw [← String.toList_inj, toList_sealedKey, toList_sealedKey] at h
  obtain ⟨hname, h⟩ := append_inj_of_forall (fun c hc => (hn c hc).1) (fun c hc => (hn' c hc).1)
    (opens_cons.2 (by simp)) (opens_cons.2 (by simp)) h
  obtain ⟨hpp, h⟩ := key_append_inj hp hp' (opens_cons.2 (.inl rfl)) (opens_cons.2 (.inl rfl)) (List.cons.inj h).2
  obtain ⟨hqq, -⟩ := key_append_inj hq hq' (opens_cons.2 (.inr rfl)) (opens_cons.2 (.inr rfl)) (List.cons.inj h).2
  exact ⟨String.toList_inj.1 hname, hpp, hqq⟩

/-! ## Brackets match in every key -/

theorem balanced_repr (n : Nat) : Balanced n.repr.toList := by
  refine balanced_of_forall fun c hc => ?_
  have hd := isDigit_of_mem_repr hc
  refine ⟨?_, ?_⟩ <;> rintro rfl <;> exact absurd hd (by decide)

theorem balanced_toString (x : Int) : Balanced (toString x).toList := by
  rw [Int.toString_eq_repr, Int.repr_eq_if]
  split
  · exact balanced_repr _
  · rw [String.toList_append]
    exact Balanced.append (balanced_of_forall (by simp)) (balanced_repr _)

theorem balanced_atomKey {a : Atom} (h : a.Legible) : Balanced (atomKey a).toList := by
  cases a with
  | var i =>
    rw [toList_atomKey_var]
    exact ((balanced_repr i).cons (by decide)).cons (by decide)
  | sealed k =>
    rw [toList_atomKey_sealed]
    exact (Balanced.enclosed h).cons (by decide)

theorem balanced_termKey {t : Monomial × Int64} (h : ∀ a ∈ t.1, a.Legible) : Balanced (termKey t).toList := by
  rw [toList_termKey]
  exact (balanced_toString _).append (Balanced.flatMap fun a ha => balanced_atomKey (h a ha))

theorem balanced_key {p : Polynomial} (h : p.Legible) : Balanced p.key.toList := by
  cases hp : p.toList with
  | nil =>
    rw [key_of_nil hp]
    exact balanced_of_forall (by simp)
  | cons t ts =>
    have ht : ∀ u ∈ t :: ts, Balanced (termKey u).toList := fun u hu => balanced_termKey (h u (hp ▸ hu)).2
    rw [toList_key_of_cons hp]
    exact (ht t (by simp)).append (Balanced.flatMap fun u hu => (ht u (by simp [hu])).cons (by decide))

theorem legible_sealedKey {name : String} {p q : Polynomial} (hn : IsName name) (hp : p.Legible) (hq : q.Legible) :
    (Atom.sealed (sealedKey name p q)).Legible := by
  have hname : Balanced name.toList := balanced_of_forall fun c hc => (hn c hc).2
  have hclose : Balanced [')'] := balanced_of_forall (by simp)
  have hcomma : Balanced (',' :: (q.key.toList ++ [')'])) := ((balanced_key hq).append hclose).cons (by decide)
  rw [Atom.Legible, toList_sealedKey]
  exact hname.append (((balanced_key hp).append hcomma).cons (by decide))

end Polynomial
end Dataflow
