import Dataflow.Proofs.Match.Rollback
/-!
# The log and the table of a trail agree

A trail is changed by commits, by rollbacks to any mark and by clearing it.  Whatever changes are made of the empty
trail, its table is what committing the entries of its log in order makes: it grew from the empty trail.  So the log
tells what the table shows, and a rollback never meets an entry that the table does not have.  What is below a mark
stays through all changes that take nothing back below it, and a rollback to the mark takes all of them back
(`Grows.changeAll`).
-/
namespace Dataflow
namespace Trail

inductive Change where
  | commit (p : Pattern) (e : Expr)
  | rollback (mark : Nat)
  | clear

def change (t : Trail) : Change → Except PatternId Trail
  | .commit p e => .ok (t.commit p e)
  | .rollback mark => t.rollback mark
  | .clear => .ok empty

/-- The trail after some changes; or the pattern that a rollback missed in the table. -/
def changeAll (t : Trail) (changes : List Change) : Except PatternId Trail := changes.foldlM change t

/-- Nothing below a mark is taken back. -/
def Change.Spares (mark : Nat) : Change → Prop
  | .commit .. => True
  | .rollback target => mark ≤ target
  | .clear => False

variable {t t' : Trail} {changes : List Change} {c : Change} {mark : Nat} {i : PatternId}

/-! ## Rolling back a trail that grew -/

theorem mark_commitAll (t : Trail) (bs : List Binding) : (t.commitAll bs).mark = t.mark + bs.length := by
  rw [mark_eq, bindings_commitAll, List.length_append, ← mark_eq]

theorem rollback_of_le (h : t.mark ≤ mark) : t.rollback mark = .ok t := by
  rw [rollback, rollbackFrom]
  exact dif_neg (Nat.not_lt_of_le h)

/-- A rollback keeps what was committed up to its mark, and takes back the rest. -/
theorem rollback_commitAll_of_le (t : Trail) (bs : List Binding) (h : t.mark ≤ mark) :
    (t.commitAll bs).rollback mark = .ok (t.commitAll (bs.take (mark - t.mark))) := by
  rcases Nat.le_total (t.mark + bs.length) mark with hle | hle
  · rw [List.take_of_length_le (by omega)]
    exact rollback_of_le (mark_commitAll t bs ▸ hle)
  · have hkept : (t.commitAll (bs.take (mark - t.mark))).mark = mark := by
      rw [mark_commitAll, List.length_take]
      omega
    have hback := rollback_commitAll (t.commitAll (bs.take (mark - t.mark))) (bs.drop (mark - t.mark))
    rwa [← commitAll_append, List.take_append_drop, hkept] at hback

/-- A change that spares what is below the end of a trail makes another trail grown from it. -/
theorem Grows.change (h : t.Grows t') (hc : c.Spares t.mark) : ∃ t'', t'.change c = .ok t'' ∧ t.Grows t'' := by
  cases c with
  | commit p e => exact ⟨_, rfl, h.trans (t'.grows_commit p e)⟩
  | rollback target =>
    obtain ⟨bs, rfl⟩ := h
    exact ⟨_, rollback_commitAll_of_le t bs hc, _, rfl⟩
  | clear => exact hc.elim

theorem Grows.changeAll : ∀ {changes : List Change} {t' : Trail}, t.Grows t' → (∀ c ∈ changes, c.Spares t.mark) →
    ∃ t'', t'.changeAll changes = .ok t'' ∧ t.Grows t''
  | [], t', h, _ => ⟨t', rfl, h⟩
  | c :: changes, t', h, hspares => by
    obtain ⟨hc, hrest⟩ := List.forall_mem_cons.1 hspares
    obtain ⟨t₁, h₁, hgrows⟩ := h.change hc
    obtain ⟨t₂, h₂, hgrows'⟩ := hgrows.changeAll hrest
    refine ⟨t₂, ?_, hgrows'⟩
    rw [Trail.changeAll, List.foldlM_cons, h₁]
    exact h₂

/-! ## Trails that grew from the empty one -/

/-- **Whatever changes are made of a trail that grew from the empty one, they end in such a trail.** -/
theorem exists_changeAll : ∀ (changes : List Change) {t : Trail}, empty.Grows t →
    ∃ t', t.changeAll changes = .ok t' ∧ empty.Grows t'
  | [], t, h => ⟨t, rfl, h⟩
  | c :: changes, t, h => by
    have hone : ∃ t₁, t.change c = .ok t₁ ∧ empty.Grows t₁ := by
      cases c with
      | commit => exact h.change trivial
      | rollback target => exact h.change (Nat.zero_le target)
      | clear => exact ⟨empty, rfl, .refl empty⟩
    obtain ⟨t₁, h₁, hgrows⟩ := hone
    obtain ⟨t₂, h₂, hgrows'⟩ := exists_changeAll changes hgrows
    refine ⟨t₂, ?_, hgrows'⟩
    rw [Trail.changeAll, List.foldlM_cons, h₁]
    exact h₂

theorem get?_eq_head? (t : Trail) (i : PatternId) : t.get? i = (t.getAll i).head? := by
  rw [get?, getAll]
  cases t.table.lookup i <;> rfl

theorem contains_iff_getAll (t : Trail) (i : PatternId) : t.contains i = true ↔ t.getAll i ≠ [] := by
  rw [contains, getAll]
  cases t.table.lookup i <;> simp [Bound.toList]

theorem getAll_commitAll (i : PatternId) (bs : List Binding) :
    (empty.commitAll bs).getAll i = (bs.filter (·.pattern.id = i)).map (·.expr) := by
  induction bs using List.reverseRecOn with
  | nil => rfl
  | append_singleton bs b ih =>
    rw [commitAll_concat, getAll_commit, ih, List.filter_append, List.map_append]
    by_cases hi : i = b.pattern.id
    · simp [hi]
    · simp [hi, Ne.symm hi]

/-- The table shows for every pattern what the log holds for it, in order. -/
theorem Grows.getAll_eq (h : empty.Grows t) (i : PatternId) :
    t.getAll i = (t.bindings.filter (·.pattern.id = i)).map (·.expr) := by
  obtain ⟨bs, rfl⟩ := h
  rw [getAll_commitAll, bindings_commitAll, bindings_empty, List.nil_append]

theorem Grows.contains_iff (h : empty.Grows t) (i : PatternId) :
    t.contains i = true ↔ ∃ b ∈ t.bindings, b.pattern.id = i := by
  rw [contains_iff_getAll, h.getAll_eq, ne_eq, List.map_eq_nil_iff, List.filter_eq_nil_iff]
  simp

/-! ## First bindings -/

theorem firstBindings_commit (t : Trail) (p : Pattern) (e : Expr) : (t.commit p e).firstBindings =
    if t.firstBindings.any (·.pattern.id == p.id) then t.firstBindings else t.firstBindings ++ [⟨p, e⟩] := by
  rw [firstBindings, bindings_commit, List.foldl_append]
  rfl

/-- A list of bindings has each bound pattern once, with what it was first bound to. -/
structure Firsts (t : Trail) (firsts : List Binding) : Prop where
  once : (firsts.map (·.pattern.id)).Nodup
  bound : ∀ i d, (∃ b ∈ firsts, b.pattern.id = i ∧ b.expr = d) ↔ t.get? i = some d

theorem Firsts.commit {firsts : List Binding} (h : t.Firsts firsts) (p : Pattern) (e : Expr) : (t.commit p e).Firsts
    (if firsts.any (·.pattern.id == p.id) then firsts else firsts ++ [⟨p, e⟩]) := by
  have hany : firsts.any (·.pattern.id == p.id) = (t.get? p.id).isSome := by
    rw [Bool.eq_iff_iff, List.any_eq_true, Option.isSome_iff_exists]
    simp only [← h.bound, beq_iff_eq]
    exact ⟨fun ⟨b, hb, hid⟩ => ⟨_, b, hb, hid, rfl⟩, fun ⟨_, b, hb, hid, _⟩ => ⟨b, hb, hid⟩⟩
  cases hp : t.get? p.id with
  | some bound =>
    rw [hany, hp, Option.isSome_some, if_pos rfl]
    refine ⟨h.once, fun i d => (h.bound i d).trans ?_⟩
    rw [get?_commit]
    split
    · rename_i hi
      rw [hi, hp, Option.getD_some]
    · exact Iff.rfl
  | none =>
    have hnew : ∀ b ∈ firsts, b.pattern.id ≠ p.id := fun b hb hid => by
      have := (h.bound p.id b.expr).1 ⟨b, hb, hid, rfl⟩
      rw [hp] at this
      cases this
    rw [hany, hp, Option.isSome_none, if_neg Bool.false_ne_true]
    refine ⟨?_, fun i d => ?_⟩
    · have hfresh : p.id ∉ firsts.map (·.pattern.id) := fun hmem => by
        obtain ⟨b, hb, hid⟩ := List.mem_map.1 hmem
        exact hnew b hb hid
      rw [List.map_append, List.map_singleton, ← List.concat_eq_append, List.nodup_concat]
      exact ⟨hfresh, h.once⟩
    · rw [get?_commit]
      simp only [List.mem_append, List.mem_singleton, or_and_right, exists_or, exists_eq_left, h.bound i d]
      split
      · rename_i hi
        subst hi
        simp [hp]
      · rename_i hi
        simp [Ne.symm hi]

theorem Grows.firsts (h : empty.Grows t) : t.Firsts t.firstBindings := by
  obtain ⟨bs, rfl⟩ := h
  induction bs using List.reverseRecOn with
  | nil =>
    have hnone : ∀ i, empty.get? i = none := fun _ => rfl
    exact ⟨.nil, fun i d => iff_of_false (fun ⟨_, hb, _⟩ => absurd hb List.not_mem_nil) (by simp [commitAll, hnone])⟩
  | append_singleton bs b ih =>
    rw [commitAll_concat, firstBindings_commit]
    exact ih.commit b.pattern b.expr

theorem exists_changes_of_grows (h : empty.Grows t) : ∃ changes, empty.changeAll changes = .ok t := by
  obtain ⟨bs, rfl⟩ := h
  suffices ∀ t : Trail, t.changeAll (bs.map fun b => .commit b.pattern b.expr) = .ok (t.commitAll bs) from
    ⟨_, this empty⟩
  induction bs with
  | nil => exact fun _ => rfl
  | cons b bs ih =>
    intro t
    rw [List.map_cons, changeAll, List.foldlM_cons]
    exact ih (t.commit b.pattern b.expr)

/-- **The log and the table of a trail agree after any changes**: commits, rollbacks to any mark, and clearing.  All of
these can be made, a rollback too.  A pattern has in the table what the log holds for it, in order, and is in the table
if and only if it is in the log, so none is there with nothing.  Once a mark was taken, changes that spare what is below
it end in a trail that a rollback to the mark makes again what it was.  What is extracted from a match has every bound
pattern once, with the first node that it was bound to. -/
theorem log_agrees_with_table :
    (∀ changes : List Change, ∃ t, empty.changeAll changes = .ok t ∧
      (∀ i, t.getAll i = (t.bindings.filter (·.pattern.id = i)).map (·.expr) ∧ t.get? i = (t.getAll i).head? ∧
        (t.contains i = true ↔ t.getAll i ≠ []) ∧ (t.contains i = true ↔ ∃ b ∈ t.bindings, b.pattern.id = i)) ∧
      ∀ later : List Change, (∀ c ∈ later, c.Spares t.mark) →
        ∃ t', t.changeAll later = .ok t' ∧ t'.rollback t.mark = .ok t) ∧
    ∀ (p : Pattern) (registry : Registry) (e : Expr) (values : Option Bindings) (firsts : List Binding),
      p.extract registry e values = .ok (some firsts) → ∃ m' changes,
        (Pattern.matcher values).run registry p e = (.ok true, m') ∧ empty.changeAll changes = .ok m'.trail ∧
          m'.trail.Firsts firsts := by
  refine ⟨fun changes => ?_, fun p registry e values firsts h => ?_⟩
  · obtain ⟨t, ht, hgrows⟩ := exists_changeAll changes (.refl empty)
    refine ⟨t, ht, fun i => ?_, fun later hlater => ?_⟩
    · exact ⟨hgrows.getAll_eq i, t.get?_eq_head? i, t.contains_iff_getAll i, hgrows.contains_iff i⟩
    · obtain ⟨t', ht', hgrows'⟩ := (Grows.refl t).changeAll hlater
      exact ⟨t', ht', hgrows'.rollback⟩
  · unfold Pattern.extract at h
    split at h
    · rename_i m' hrun
      obtain ⟨s', hvisit, htrail⟩ := MatchContext.visit_of_run hrun
      have hgrows : empty.Grows m'.trail := by
        rw [htrail]
        exact ((MatchContext.visit_atomic _ p e .initial).of_run hvisit).1.trail
      obtain ⟨changes, hchanges⟩ := exists_changes_of_grows hgrows
      cases h
      exact ⟨m', changes, hrun, hchanges, hgrows.firsts⟩
    · cases h
    · cases h

/-- Anything is bound to `a`, then to `b` and again to `c`, and a rollback between the two takes back `b`; what is
extracted from a pair of `a` and a constant. -/
theorem log_agrees_with_table_of_pattern_bound_again :
    let a := Expr.var ⟨0, none, none⟩ ⟨0, "a"⟩
    let b := Expr.var ⟨1, none, none⟩ ⟨1, "b"⟩
    let c := Expr.constant ⟨2, none, none⟩ ⟨.scalar .int64, [], [.int 4]⟩
    let any := Pattern.wildcard (.given 0)
    let constant := Pattern.constant (.given 1)
    let t := empty.commit any a
    let later := [Change.commit any b, .commit constant c, .rollback 1, .commit constant c, .commit any c]
    let pair := Expr.tuple ⟨3, none, none⟩ [a, c]
    let p := Pattern.tuple (.given 2) [any, constant]
    let firsts := [⟨any, a⟩, ⟨constant, c⟩, ⟨p, pair⟩]
    empty.changeAll [.commit any a] = .ok t ∧ (∀ change ∈ later, change.Spares t.mark) ∧
      (∃ t', t.changeAll later = .ok t' ∧ t'.rollback t.mark = .ok t) ∧
      p.extract .empty pair none = .ok (some firsts) ∧ ∃ m' changes,
        (Pattern.matcher none).run .empty p pair = (.ok true, m') ∧ empty.changeAll changes = .ok m'.trail ∧
          m'.trail.Firsts firsts := by
  intro a b c any constant t later pair p firsts
  have hspares : ∀ change ∈ later, change.Spares t.mark := by
    simp [later, Change.Spares, t, mark, size, commit, empty]
  have hextract : p.extract .empty pair none = .ok (some firsts) := by cbv
  obtain ⟨t₀, ht₀, -, hback⟩ := log_agrees_with_table.1 [.commit any a]
  obtain rfl : t = t₀ := Except.ok.inj ht₀
  exact ⟨rfl, hspares, hback later hspares, hextract, log_agrees_with_table.2 p .empty pair none firsts hextract⟩

end Trail
end Dataflow
