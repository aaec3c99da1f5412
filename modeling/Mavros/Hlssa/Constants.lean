/-
# `Mavros.Hlssa.Constants` — the constants side table

Constants are interned: the table is one to one, an id once given is not given again,
and a later table agrees with an earlier one on the ids that had been handed out.

## What is proved

`addConst_spec` is what a pass needs of `add_const`: the id it returns names the constant in the
new table, the new table is well formed (`Constants.WF`), and it extends the old one
(`Constants.Extends`), so that ids looked up before are still good.

Which id a new constant gets is fixed by the counter, which the functions share with it; that
ids are not in use elsewhere is the counter's business and part of `Constants.WF`.
-/
import Mavros.Hlssa.Syntax
import Mavros.Lib.Lists

namespace Mavros.Hlssa

open Lib (mem_of_lookup_eq_some)

/-- The constants side table, and the first value id not handed out. -/
structure Constants where
  table : List (ValueId × Constant)
  nextValueId : Nat

/-- `add_const` interns: a constant that is there keeps its id. -/
def Constants.addConst (c : Constants) (value : Constant) : ValueId × Constants :=
  match c.table.find? (·.2 = value) with
  | some p => (p.1, c)
  | none => (c.nextValueId, ⟨(c.nextValueId, value) :: c.table, c.nextValueId + 1⟩)

/-- The table is one to one and its ids have been handed out. -/
structure Constants.WF (c : Constants) : Prop where
  named : ∀ p ∈ c.table, c.table.lookup p.1 = some p.2
  interned : ∀ p ∈ c.table, ∀ q ∈ c.table, p.2 = q.2 → p.1 = q.1
  below : ∀ p ∈ c.table, p.1 < c.nextValueId

/-- Later constants have new ids. -/
structure Constants.Extends (c c' : Constants) : Prop where
  le : c.nextValueId ≤ c'.nextValueId
  lookup : ∀ v < c.nextValueId, c'.table.lookup v = c.table.lookup v

namespace Constants

theorem Extends.refl (c : Constants) : c.Extends c := ⟨Nat.le_refl _, fun _ _ => rfl⟩

theorem Extends.trans {a b c : Constants} (h : a.Extends b) (h' : b.Extends c) : a.Extends c :=
  ⟨h.le.trans h'.le, fun v hv => (h'.lookup v (hv.trans_le h.le)).trans (h.lookup v hv)⟩

theorem WF.lt {c : Constants} (h : c.WF) {v : ValueId} {x : Constant}
    (hv : c.table.lookup v = some x) : v < c.nextValueId :=
  h.below (v, x) (mem_of_lookup_eq_some hv)

theorem Extends.some {c c' : Constants} (h : c.Extends c') (hwf : c.WF) {v : ValueId}
    {x : Constant} (hv : c.table.lookup v = .some x) : c'.table.lookup v = .some x :=
  (h.lookup v (hwf.lt hv)).trans hv

theorem WF.id_unique {c : Constants} (h : c.WF) {v w : ValueId} {x : Constant}
    (hv : c.table.lookup v = some x) (hw : c.table.lookup w = some x) : v = w :=
  h.interned (v, x) (mem_of_lookup_eq_some hv) (w, x)
    (mem_of_lookup_eq_some hw) rfl

theorem lookup_addConst_new (c : Constants) (value : Constant) (v : ValueId) :
    ((c.nextValueId, value) :: c.table).lookup v
      = if v = c.nextValueId then some value else c.table.lookup v := by
  rw [List.lookup_cons]
  by_cases hv : v = c.nextValueId
  · simp [hv]
  · simp [hv, beq_false_of_ne hv]

/-- Interning gives an id that names the constant. -/
theorem addConst_spec {c : Constants} (h : c.WF) (value : Constant) :
    (c.addConst value).2.WF ∧ c.Extends (c.addConst value).2 ∧
      (c.addConst value).2.table.lookup (c.addConst value).1 = some value := by
  unfold addConst
  cases hfind : c.table.find? (·.2 = value) with
  | some p =>
    refine ⟨h, .refl c, ?_⟩
    have hp : p.2 = value := by simpa using List.find?_some hfind
    rw [← hp]
    exact h.named p (List.mem_of_find?_eq_some hfind)
  | none =>
    have hnew : ∀ p ∈ c.table, p.2 ≠ value := by simpa using hfind
    refine ⟨⟨?_, ?_, ?_⟩, ⟨Nat.le_succ _, fun v hv => ?_⟩, ?_⟩
    · intro p hp
      rw [lookup_addConst_new]
      rcases List.mem_cons.mp hp with rfl | hp
      · simp
      · rw [if_neg (Nat.ne_of_lt (h.below p hp))]
        exact h.named p hp
    · intro p hp q hq heq
      rcases List.mem_cons.mp hp with rfl | hp <;> rcases List.mem_cons.mp hq with rfl | hq
      · rfl
      · exact absurd heq.symm (hnew q hq)
      · exact absurd heq (hnew p hp)
      · exact h.interned p hp q hq heq
    · intro p hp
      rcases List.mem_cons.mp hp with rfl | hp
      · exact Nat.lt_succ_self _
      · exact Nat.lt_succ_of_lt (h.below p hp)
    · rw [lookup_addConst_new, if_neg (Nat.ne_of_lt hv)]
    · rw [lookup_addConst_new, if_pos rfl]

end Constants

end Mavros.Hlssa
