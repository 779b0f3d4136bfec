import Dataflow.Match.Trail
import Mathlib.Data.List.Induction
import Mathlib.Tactic.Common
/-!
# A trail that grew

`commitAll` commits entries in order.  A trail that grew by commits is rolled back to what it was
(`rollback_commitAll`), and what a pattern was first bound to stays what it is bound to (`Grows.get?`).
-/
namespace Dataflow
namespace Trail

variable {t t' t'' : Trail} {bs : List Binding}

def commitAll (t : Trail) (bs : List Binding) : Trail := bs.foldl (fun t b => t.commit b.pattern b.expr) t

theorem commitAll_cons (t : Trail) (b : Binding) (bs : List Binding) :
    t.commitAll (b :: bs) = (t.commit b.pattern b.expr).commitAll bs := rfl

theorem commitAll_append (t : Trail) (bs cs : List Binding) :
    t.commitAll (bs ++ cs) = (t.commitAll bs).commitAll cs := List.foldl_append

theorem commitAll_concat (t : Trail) (bs : List Binding) (b : Binding) :
    t.commitAll (bs ++ [b]) = (t.commitAll bs).commit b.pattern b.expr := commitAll_append t bs [b]

theorem bindings_commitAll (t : Trail) : ∀ bs : List Binding, (t.commitAll bs).bindings = t.bindings ++ bs
  | [] => (List.append_nil _).symm
  | b :: bs => by
    rw [commitAll_cons, bindings_commitAll _ bs, bindings_commit, List.append_assoc]
    rfl

theorem table_commitAll (t : Trail) : ∀ bs : List Binding,
    (t.commitAll bs).table = bs.foldl (fun table b => addTo b.pattern.id b.expr table) t.table
  | [] => rfl
  | b :: bs => table_commitAll (t.commit b.pattern b.expr) bs

theorem mark_eq (t : Trail) : t.mark = t.bindings.length := Array.length_toList.symm

/-- **Rolling back to a mark takes everything back that was committed since.** -/
theorem rollback_commitAll (t : Trail) (bs : List Binding) : (t.commitAll bs).rollback t.mark = .ok t := by
  induction bs using List.reverseRecOn with
  | nil => exact rollback_mark t
  | append_singleton bs b ih =>
    have hmark : t.mark ≤ (t.commitAll bs).mark := by
      rw [mark_eq, mark_eq, bindings_commitAll, List.length_append]
      omega
    rw [commitAll_concat, rollback_commit _ _ _ hmark, ih]

/-! ## Growing by commits -/

def Grows (t t' : Trail) : Prop := ∃ bs, t' = t.commitAll bs

theorem Grows.refl (t : Trail) : t.Grows t := ⟨[], rfl⟩

theorem Grows.trans (h : t.Grows t') (h' : t'.Grows t'') : t.Grows t'' := by
  obtain ⟨bs, rfl⟩ := h
  obtain ⟨cs, rfl⟩ := h'
  exact ⟨bs ++ cs, (commitAll_append t bs cs).symm⟩

theorem grows_commit (t : Trail) (p : Pattern) (e : Expr) : t.Grows (t.commit p e) := ⟨[⟨p, e⟩], rfl⟩

theorem Grows.rollback (h : t.Grows t') : t'.rollback t.mark = .ok t := by
  obtain ⟨bs, rfl⟩ := h
  exact rollback_commitAll t bs

theorem Grows.mem {b : Binding} (h : t.Grows t') (hb : b ∈ t.bindings) : b ∈ t'.bindings := by
  obtain ⟨bs, rfl⟩ := h
  rw [bindings_commitAll]
  exact List.mem_append_left bs hb

/-! ## What a pattern is bound to -/

theorem get?_commit (t : Trail) (p : Pattern) (e : Expr) (q : PatternId) :
    (t.commit p e).get? q = if q = p.id then some ((t.get? q).getD e) else t.get? q := by
  rw [get?, commit, lookup_addTo]
  split
  · subst q
    rw [get?]
    cases t.table.lookup p.id <;> rfl
  · rfl

theorem get?_commit_of_some {q : PatternId} {d : Expr} (h : t.get? q = some d) (p : Pattern) (e : Expr) :
    (t.commit p e).get? q = some d := by
  rw [get?_commit, h]
  split <;> rfl

/-- The first binding of a pattern stays. -/
theorem Grows.get? {q : PatternId} {d : Expr} (h : t.Grows t') (hq : t.get? q = some d) : t'.get? q = some d := by
  obtain ⟨bs, rfl⟩ := h
  induction bs generalizing t with
  | nil => exact hq
  | cons b bs ih => exact ih (get?_commit_of_some hq b.pattern b.expr)

end Trail
end Dataflow
