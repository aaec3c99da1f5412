/-
# `Mavros.R1CGen.ExecSpec` — what a symbolic run keeps

A run only adds: rows, tables, lookups and witnesses stay where they are.  And
what it has recorded can be sealed: the lookups name tables that exist and have as
many columns as they do.  `Program.symbolic_gen` says both.

## What is proved

* `Instr.symbolic_add` and its like: what one instruction does to the state, as an equivalence, so
  that a run is taken apart by rewriting.
* `Program.symbolic_gen`: after a run the generator has grown (`Grows`) and is well formed if it
  was before (`WellFormed`).
* `Program.symbolic_wellFormed`: what a program leaves can be sealed.
* `Program.symbolic_append`: a run of two programs, one after the other.

## How it goes

The invariant is about lookups, tables and the tables that arrays name, and an operation that
touches none of them keeps it by `WellFormed.frame`.  What is left is `lookup`: the table that it
resolves is there, or has been made by it, with the columns that the target has
(`WellFormed.resolveTable`).
-/
import Mavros.R1CGen.Exec
import Mavros.R1CGen.SealSpec
import Mavros.Lib.Lists

namespace Mavros

/-- The columns of the table a target asks for. -/
def LookupTarget.columns : LookupTarget → Nat
  | rangecheck _ | dynRangecheck _ => 1
  | spread _ | array _ => 2

namespace R1CGen

/-- `g'` is `g` with more in it. -/
structure Grows (g g' : R1CGen) : Prop where
  constraints : g.constraints <+: g'.constraints
  tables : g.tables <+: g'.tables
  lookups : g.lookups <+: g'.lookups
  nextWitness : g.nextWitness ≤ g'.nextWitness

theorem Grows.refl (g : R1CGen) : Grows g g :=
  ⟨List.prefix_rfl, List.prefix_rfl, List.prefix_rfl, Nat.le_refl _⟩

theorem Grows.trans {g g' g'' : R1CGen} (h : Grows g g') (h' : Grows g' g'') : Grows g g'' :=
  ⟨h.constraints.trans h'.constraints, h.tables.trans h'.tables, h.lookups.trans h'.lookups,
    Nat.le_trans h.nextWitness h'.nextWitness⟩

/-- What `seal` needs of a state, and what keeps it so: every lookup names a table
with as many columns as it has, and the table of an array is made of its leaves. -/
structure WellFormed (g : R1CGen) : Prop where
  widths : ∀ l ∈ g.lookups, ∃ t, g.tables[l.tableId]? = some t ∧ t.width = l.width
  named : ∀ rc k, g.tableIds rc = some k → ∃ els, g.tables[k]? = some (.ofElems els)

theorem WellFormed.new : WellFormed new :=
  ⟨fun _ h => absurd h List.not_mem_nil, fun _ _ h => nomatch h⟩

theorem WellFormed.sealable {g : R1CGen} (hwf : g.WellFormed) : ∀ l ∈ g.lookups, l.Sealable := by
  intro l hl
  obtain ⟨t, -, hw⟩ := hwf.widths l hl
  rw [LookupConstraint.Sealable, ← hw]
  exact t.width_eq

theorem WellFormed.inRange {g : R1CGen} (hwf : g.WellFormed) : g.LookupsInRange := by
  intro l hl
  obtain ⟨t, ht, -⟩ := hwf.widths l hl
  exact (List.getElem?_eq_some_iff.mp ht).1

/-! ## The operations of the generator

What each changes and what the invariant needs of it.
-/

theorem grows_freshWitness (g : R1CGen) : Grows g g.freshWitness.2 :=
  ⟨List.prefix_rfl, List.prefix_rfl, List.prefix_rfl, Nat.le_succ _⟩

theorem constrain_eq_some {g g' : R1CGen} {a b c : Value} (h : g.constrain a b c = some g') :
    ∃ la lb lc, a.expectLinearCombination = some la ∧ b.expectLinearCombination = some lb ∧
      c.expectLinearCombination = some lc ∧
      g' = { g with constraints := g.constraints ++ [⟨la, lb, lc⟩] } := by
  simp only [constrain, Option.bind_eq_bind, Option.bind_eq_some_iff, Option.pure_def,
    Option.some.injEq] at h
  obtain ⟨la, ha, lb, hb, lc, hc, rfl⟩ := h
  exact ⟨la, lb, lc, ha, hb, hc, rfl⟩

theorem lookup_eq_some {g g' : R1CGen} {target : LookupTarget} {args : List Value}
    {flag : Value} (h : g.lookup target args flag = some g') :
    ∃ flagLc els k g₁, flag.expectLinearCombination = some flagLc ∧
      args.mapM Value.expectLinearCombination = some els ∧
      g.resolveTable target = some (k, g₁) ∧
      g' = { g₁ with lookups := g₁.lookups ++ [⟨k, els, flagLc⟩] } := by
  simp only [lookup, Option.bind_eq_bind, Option.bind_eq_some_iff, Option.pure_def,
    Option.some.injEq, Prod.exists] at h
  obtain ⟨flagLc, hflag, els, hels, k, g₁, hres, rfl⟩ := h
  exact ⟨flagLc, els, k, g₁, hflag, hels, hres, rfl⟩

/-- What resolving a table of so many columns does: it is found, it is the one an array
names, or it is a new one at the end, which an array may name from then on. -/
inductive Resolved (g : R1CGen) (columns k : Nat) : R1CGen → Prop
  | found {t : Table} (ht : g.tables[k]? = some t) (hw : t.width = columns) :
      Resolved g columns k g
  | named {rc : Nat} (hrc : g.tableIds rc = some k) (hw : columns = 2) : Resolved g columns k g
  | pushed {t : Table} (hk : k = g.tables.length) (hw : t.width = columns) :
      Resolved g columns k { g with tables := g.tables ++ [t] }
  | tabled {rc : Nat} {els : List LC} (hk : k = g.tables.length) (hw : columns = 2) :
      Resolved g columns k
        { g with
          tables := g.tables ++ [.ofElems els]
          tableIds := Function.update g.tableIds rc (some g.tables.length) }

theorem rangeTable_resolved {g g₁ : R1CGen} {k : Nat}
    (h : g.rangeTable.map (fun g' => (0, g')) = some (k, g₁)) : Resolved g 1 k g₁ := by
  obtain ⟨g₂, h₂, heq⟩ := Option.map_eq_some_iff.mp h
  obtain ⟨rfl, rfl⟩ := Prod.mk.inj heq
  obtain ⟨hnil, rfl⟩ | ⟨rfl, ts, hts⟩ := rangeTable_cases h₂
  · have hpush : Resolved g 1 0 { g with tables := g.tables ++ [.range 8] } :=
      .pushed (by simp [hnil]) rfl
    rwa [hnil] at hpush
  · exact .found (t := .range 8) (by simp [hts]) rfl

theorem resolveTable_cases {g g₁ : R1CGen} {target : LookupTarget} {k : Nat}
    (h : g.resolveTable target = some (k, g₁)) : Resolved g target.columns k g₁ := by
  cases target with
  | rangecheck i =>
      simp only [resolveTable] at h
      split at h
      · exact rangeTable_resolved h
      · exact absurd h (by simp)
  | dynRangecheck v =>
      cases v with
      | const c =>
          simp only [resolveTable] at h
          split at h
          · exact rangeTable_resolved h
          · exact absurd h (by simp)
      | lc terms => simp [resolveTable] at h
      | array rc data => simp [resolveTable] at h
  | spread bits =>
      simp only [resolveTable, Option.some.injEq, spreadTable] at h
      split at h
      · rename_i idx hidx
        obtain ⟨rfl, rfl⟩ := Prod.mk.inj h
        obtain ⟨hlt, heq, -⟩ := List.findIdx?_eq_some_iff_getElem.mp hidx
        exact .found (List.getElem?_eq_getElem hlt) (by rw [eq_of_beq heq]; rfl)
      · obtain ⟨rfl, rfl⟩ := Prod.mk.inj h
        exact .pushed rfl rfl
  | array arr =>
      cases arr with
      | const c => simp [resolveTable] at h
      | lc terms => simp [resolveTable] at h
      | array rc data =>
          simp only [resolveTable, Option.some.injEq] at h
          obtain ⟨j, hj, heq⟩ | ⟨hnone, heq⟩ := arrayTable_cases rc data g
          · obtain ⟨rfl, rfl⟩ := Prod.mk.inj (heq.symm.trans h)
            exact .named hj rfl
          · obtain ⟨rfl, rfl⟩ := Prod.mk.inj (heq.symm.trans h)
            exact .tabled rfl rfl

theorem grows_lookup {g g' : R1CGen} {target : LookupTarget} {args : List Value} {flag : Value}
    (h : g.lookup target args flag = some g') : Grows g g' := by
  obtain ⟨flagLc, els, k, g₁, -, -, hres, rfl⟩ := lookup_eq_some h
  cases resolveTable_cases hres with
  | found | named =>
      exact ⟨List.prefix_rfl, List.prefix_rfl, List.prefix_append _ _, Nat.le_refl _⟩
  | pushed | tabled =>
      exact ⟨List.prefix_rfl, List.prefix_append _ _, List.prefix_append _ _, Nat.le_refl _⟩

theorem WellFormed.frame {g g' : R1CGen} (hwf : WellFormed g) (htables : g'.tables = g.tables)
    (hlookups : g'.lookups = g.lookups)
    (hids : ∀ rc k, g'.tableIds rc = some k → g.tableIds rc = some k) : WellFormed g' := by
  refine ⟨?_, fun rc k hk => ?_⟩
  · rw [hlookups, htables]
    exact hwf.widths
  · rw [htables]
    exact hwf.named rc k (hids rc k hk)

theorem WellFormed.mkArray {g : R1CGen} (hwf : WellFormed g) (data : List Value) :
    WellFormed (g.mkArray data).2 := by
  refine hwf.frame rfl rfl fun rc k hk => ?_
  have hk' : Function.update g.tableIds g.nextRc none rc = some k := hk
  by_cases hrc : rc = g.nextRc
  · subst hrc
    rw [Function.update_self] at hk'
    exact absurd hk' (by simp)
  · rwa [Function.update_of_ne hrc] at hk'

/-- A state that can be sealed stays so when a table is resolved, and the table has the
columns asked for. -/
theorem WellFormed.resolveTable {g g₁ : R1CGen} (hwf : WellFormed g) {target : LookupTarget}
    {k : Nat} (h : g.resolveTable target = some (k, g₁)) :
    WellFormed g₁ ∧ ∃ t, g₁.tables[k]? = some t ∧ t.width = target.columns := by
  have hold : ∀ {t : Table} {j : Nat} {u : Table}, g.tables[j]? = some u →
      (g.tables ++ [t])[j]? = some u := by
    intro t j u hj
    rw [List.getElem?_append_left (List.getElem?_eq_some_iff.mp hj).1, hj]
  have hwidths : ∀ {t : Table}, ∀ l ∈ g.lookups,
      ∃ u, (g.tables ++ [t])[l.tableId]? = some u ∧ u.width = l.width := by
    intro t l hl
    obtain ⟨u, hu, hw⟩ := hwf.widths l hl
    exact ⟨u, hold hu, hw⟩
  cases resolveTable_cases h with
  | found ht hw => exact ⟨hwf, _, ht, hw⟩
  | named hrc hw =>
      obtain ⟨els, hels⟩ := hwf.named _ k hrc
      exact ⟨hwf, _, hels, hw.symm⟩
  | pushed hk hw =>
      subst hk
      refine ⟨⟨hwidths, fun rc k hk => ?_⟩, _, List.getElem?_concat_length, hw⟩
      obtain ⟨els, hels⟩ := hwf.named rc k hk
      exact ⟨els, hold hels⟩
  | @tabled rc' els hk hw =>
      subst hk
      refine ⟨⟨hwidths, fun rc k hk => ?_⟩, _, List.getElem?_concat_length, hw.symm⟩
      have hk' : Function.update g.tableIds rc' (some g.tables.length) rc = some k := hk
      by_cases hrc : rc = rc'
      · subst hrc
        rw [Function.update_self] at hk'
        obtain rfl := Option.some.inj hk'
        exact ⟨els, List.getElem?_concat_length⟩
      · rw [Function.update_of_ne hrc] at hk'
        obtain ⟨els', hels'⟩ := hwf.named rc k hk'
        exact ⟨els', hold hels'⟩

theorem WellFormed.lookup {g g' : R1CGen} (hwf : WellFormed g) {target : LookupTarget}
    {args : List Value} {flag : Value} (hargs : args.length = target.columns)
    (h : g.lookup target args flag = some g') : WellFormed g' := by
  obtain ⟨flagLc, els, k, g₁, -, hels, hres, rfl⟩ := lookup_eq_some h
  obtain ⟨hwf₁, t, ht, hw⟩ := hwf.resolveTable hres
  have hlen : els.length = args.length := Lib.mapM_length hels
  refine ⟨fun l hl => ?_, hwf₁.named⟩
  rcases List.mem_append.mp hl with hl | hl
  · exact hwf₁.widths l hl
  · rw [List.mem_singleton.mp hl]
    exact ⟨t, ht, hw.trans (hargs.symm.trans hlen.symm)⟩

end R1CGen

/-! ## One instruction at a time

A spec lemma each, then the instructions together.
-/

open Lib

namespace SymState

theorem read_eq_some {s : SymState} {t : Ty} {x : Var} {v : Value} :
    s.read t x = some v ↔ s.env.read x = some (t, v) := by
  simp only [read, Option.bind_eq_bind, Option.bind_eq_some_iff, Prod.exists]
  constructor
  · rintro ⟨t', v', hx, h⟩
    split at h
    · rename_i ht
      obtain rfl := Option.some.inj h
      rw [hx, ht]
    · exact absurd h (by simp)
  · intro hx
    exact ⟨t, v, hx, by simp⟩

theorem take_eq_some {s s' : SymState} {t : Ty} {x : Var} {v : Value}
    (h : s.take t x = some (v, s')) :
    ∃ env, s.env.take x = some ((t, v), env) ∧ s' = { s with env := env } := by
  simp only [take, Option.bind_eq_bind, Option.bind_eq_some_iff, Prod.exists] at h
  obtain ⟨t', v', env, hx, h⟩ := h
  split at h
  · rename_i ht
    obtain ⟨rfl, rfl⟩ := Prod.mk.inj (Option.some.inj h)
    exact ⟨env, ht ▸ hx, rfl⟩
  · exact absurd h (by simp)

theorem takeAll_eq_some {s s' : SymState} {t : Ty} {xs : List Var} {vs : List Value}
    (h : s.takeAll t xs = some (vs, s')) :
    ∃ env, s.env.takeAll xs = some (vs.map fun v => (t, v), env) ∧
      s' = { s with env := env } := by
  simp only [takeAll, Option.bind_eq_bind, Option.bind_eq_some_iff, Prod.exists] at h
  obtain ⟨tvs, env, hxs, h⟩ := h
  split at h
  · rename_i hall
    obtain ⟨rfl, rfl⟩ := Prod.mk.inj (Option.some.inj h)
    refine ⟨env, ?_, rfl⟩
    have hmap : (tvs.map Prod.snd).map (fun v => (t, v)) = tvs := by
      rw [List.map_map]
      refine (List.map_congr_left fun tv htv => ?_).trans (List.map_id tvs)
      exact Prod.ext (hall tv htv).symm rfl
    rw [hmap]
    exact hxs
  · exact absurd h (by simp)

end SymState

section Inversion

variable {s s' : SymState}

theorem Instr.symbolic_add {x y : Var} (h : (add x y).symbolic s = some s') :
    ∃ a b v env₁ env₂, s.env.take x = some ((.scalar, a), env₁) ∧
      env₁.take y = some ((.scalar, b), env₂) ∧ a.add b = some v ∧
      s' = { env := env₂.push (.scalar, v), gen := s.gen } := by
  simp only [symbolic, Option.bind_eq_bind, Option.bind_eq_some_iff, Prod.exists,
    Option.pure_def, Option.some.injEq] at h
  obtain ⟨a, s₁, hx, b, s₂, hy, v, hv, rfl⟩ := h
  obtain ⟨env₁, hx', rfl⟩ := SymState.take_eq_some hx
  obtain ⟨env₂, hy', rfl⟩ := SymState.take_eq_some hy
  exact ⟨a, b, v, env₁, env₂, hx', hy', hv, rfl⟩

theorem Instr.symbolic_mulConst {c : Fr} {x : Var} (h : (mulConst c x).symbolic s = some s') :
    ∃ a v env₁, s.env.take x = some ((.scalar, a), env₁) ∧ (Value.const c).mul a = some v ∧
      s' = { env := env₁.push (.scalar, v), gen := s.gen } := by
  simp only [symbolic, Option.bind_eq_bind, Option.bind_eq_some_iff, Prod.exists,
    Option.pure_def, Option.some.injEq] at h
  obtain ⟨a, s₁, hx, v, hv, rfl⟩ := h
  obtain ⟨env₁, hx', rfl⟩ := SymState.take_eq_some hx
  exact ⟨a, v, env₁, hx', hv, rfl⟩

theorem Instr.symbolic_mkPure {e : Elem} {elems : List PrimElem}
    (h : (mkPure e elems).symbolic s = some s') :
    (∀ p ∈ elems, p.elem = e) ∧
      s' = s.push (.array e) (s.gen.mkArray (elems.map PrimElem.value)).1
        (s.gen.mkArray (elems.map PrimElem.value)).2 := by
  simp only [symbolic] at h
  split at h
  · rename_i hall
    exact ⟨hall, (Option.some.inj h).symm⟩
  · exact absurd h (by simp)

theorem Instr.symbolic_mkArray {e : Elem} {xs : List Var}
    (h : (mkArray e xs).symbolic s = some s') :
    ∃ t vs env₁, e.ty = some t ∧ s.env.takeAll xs = some (vs.map fun v => (t, v), env₁) ∧
      s' = { env := env₁.push (.array e, (s.gen.mkArray vs).1), gen := (s.gen.mkArray vs).2 } := by
  simp only [symbolic, Option.bind_eq_bind, Option.bind_eq_some_iff, Prod.exists,
    Option.pure_def, Option.some.injEq] at h
  obtain ⟨t, ht, vs, s₁, hxs, rfl⟩ := h
  obtain ⟨env₁, hxs', rfl⟩ := SymState.takeAll_eq_some hxs
  exact ⟨t, vs, env₁, ht, hxs', rfl⟩

theorem Instr.symbolic_arrayGet {e : Elem} {arr : Var} {index : Nat}
    (h : (arrayGet e arr index).symbolic s = some s') :
    ∃ t a v, e.ty = some t ∧ s.env.read arr = some (.array e, a) ∧
      R1CGen.arrayGet a index = some v ∧
      s' = { env := s.env.push (t, v), gen := s.gen } := by
  simp only [symbolic, Option.bind_eq_bind, Option.bind_eq_some_iff,
    Option.pure_def, Option.some.injEq] at h
  obtain ⟨t, ht, a, ha, v, hv, rfl⟩ := h
  exact ⟨t, a, v, ht, SymState.read_eq_some.mp ha, hv, rfl⟩

theorem Instr.symbolic_arraySet {e : Elem} {arr x : Var} {index : Nat}
    (h : (arraySet e arr index x).symbolic s = some s') :
    ∃ t a v r g env₁ env₂, e.ty = some t ∧ s.env.take arr = some ((.array e, a), env₁) ∧
      env₁.take x = some ((t, v), env₂) ∧ s.gen.arraySet a index v = some (r, g) ∧
      s' = { env := env₂.push (.array e, r), gen := g } := by
  simp only [symbolic, Option.bind_eq_bind, Option.bind_eq_some_iff, Prod.exists,
    Option.pure_def, Option.some.injEq] at h
  obtain ⟨t, ht, a, s₁, ha, v, s₂, hv, r, g, hr, rfl⟩ := h
  obtain ⟨env₁, ha', rfl⟩ := SymState.take_eq_some ha
  obtain ⟨env₂, hv', rfl⟩ := SymState.take_eq_some hv
  exact ⟨t, a, v, r, g, env₁, env₂, ht, ha', hv', hr, rfl⟩

theorem Instr.symbolic_arraySetPure {e : Elem} {arr : Var} {index : Nat} {elem : PrimElem}
    (h : (arraySetPure e arr index elem).symbolic s = some s') :
    ∃ a r g env₁, elem.elem = e ∧ s.env.take arr = some ((.array e, a), env₁) ∧
      s.gen.arraySet a index elem.value = some (r, g) ∧
      s' = { env := env₁.push (.array e, r), gen := g } := by
  simp only [symbolic] at h
  split at h
  · rename_i he
    simp only [Option.bind_eq_bind, Option.bind_eq_some_iff, Prod.exists,
      Option.pure_def, Option.some.injEq] at h
    obtain ⟨a, s₁, ha, r, g, hr, rfl⟩ := h
    obtain ⟨env₁, ha', rfl⟩ := SymState.take_eq_some ha
    exact ⟨a, r, g, env₁, he, ha', hr, rfl⟩
  · exact absurd h (by simp)

theorem Instr.symbolic_dup {x : Var} (h : (dup x).symbolic s = some s') :
    ∃ tv, s.env.read x = some tv ∧ s' = { env := s.env.push tv, gen := s.gen } := by
  simp only [symbolic, Option.bind_eq_bind, Option.bind_eq_some_iff, Prod.exists,
    Option.pure_def, Option.some.injEq] at h
  obtain ⟨t, v, hx, rfl⟩ := h
  exact ⟨(t, v), hx, rfl⟩

theorem Instr.symbolic_drop {x : Var} (h : (drop x).symbolic s = some s') :
    ∃ tv env₁, s.env.take x = some (tv, env₁) ∧ s' = { s with env := env₁ } := by
  simp only [symbolic, Option.bind_eq_bind, Option.bind_eq_some_iff, Prod.exists,
    Option.pure_def, Option.some.injEq] at h
  obtain ⟨t, v, env₁, hx, rfl⟩ := h
  exact ⟨(t, v), env₁, hx, rfl⟩

theorem Instr.symbolic_constrain {a b c : Var} (h : (constrain a b c).symbolic s = some s') :
    ∃ va vb vc g, s.env.read a = some (.scalar, va) ∧ s.env.read b = some (.scalar, vb) ∧
      s.env.read c = some (.scalar, vc) ∧ s.gen.constrain va vb vc = some g ∧
      s' = { s with gen := g } := by
  simp only [symbolic, Option.bind_eq_bind, Option.bind_eq_some_iff,
    Option.pure_def, Option.some.injEq] at h
  obtain ⟨va, ha, vb, hb, vc, hc, g, hg, rfl⟩ := h
  exact ⟨va, vb, vc, g, SymState.read_eq_some.mp ha, SymState.read_eq_some.mp hb,
    SymState.read_eq_some.mp hc, hg, rfl⟩

theorem Instr.symbolic_rangecheck {x flag : Var} (h : (rangecheck x flag).symbolic s = some s') :
    ∃ vx vf g, s.env.read x = some (.scalar, vx) ∧ s.env.read flag = some (.scalar, vf) ∧
      s.gen.lookup (.rangecheck 8) [vx] vf = some g ∧ s' = { s with gen := g } := by
  simp only [symbolic, Option.bind_eq_bind, Option.bind_eq_some_iff,
    Option.pure_def, Option.some.injEq] at h
  obtain ⟨vx, hx, vf, hf, g, hg, rfl⟩ := h
  exact ⟨vx, vf, g, SymState.read_eq_some.mp hx, SymState.read_eq_some.mp hf, hg, rfl⟩

theorem Instr.symbolic_spreadLookup {bits : Nat} {x result flag : Var}
    (h : (spreadLookup bits x result flag).symbolic s = some s') :
    ∃ vx vr vf g, s.env.read x = some (.scalar, vx) ∧ s.env.read result = some (.scalar, vr) ∧
      s.env.read flag = some (.scalar, vf) ∧
      s.gen.lookup (.spread bits) [vx, vr] vf = some g ∧ s' = { s with gen := g } := by
  simp only [symbolic, Option.bind_eq_bind, Option.bind_eq_some_iff,
    Option.pure_def, Option.some.injEq] at h
  obtain ⟨vx, hx, vr, hr, vf, hf, g, hg, rfl⟩ := h
  exact ⟨vx, vr, vf, g, SymState.read_eq_some.mp hx, SymState.read_eq_some.mp hr,
    SymState.read_eq_some.mp hf, hg, rfl⟩

theorem Instr.symbolic_arrayLookup {e : Elem} {arr index result flag : Var}
    (h : (arrayLookup e arr index result flag).symbolic s = some s') :
    ∃ va vi vr vf g, s.env.read arr = some (.array e, va) ∧
      s.env.read index = some (.scalar, vi) ∧ s.env.read result = some (.scalar, vr) ∧
      s.env.read flag = some (.scalar, vf) ∧
      s.gen.lookup (.array va) [vi, vr] vf = some g ∧ s' = { s with gen := g } := by
  simp only [symbolic, Option.bind_eq_bind, Option.bind_eq_some_iff,
    Option.pure_def, Option.some.injEq] at h
  obtain ⟨va, ha, vi, hi, vr, hr, vf, hf, g, hg, rfl⟩ := h
  exact ⟨va, vi, vr, vf, g, SymState.read_eq_some.mp ha, SymState.read_eq_some.mp hi,
    SymState.read_eq_some.mp hr, SymState.read_eq_some.mp hf, hg, rfl⟩

end Inversion

theorem R1CGen.arraySet_eq_some {g g' : R1CGen} {a r v : Value} {index : Nat}
    (h : g.arraySet a index v = some (r, g')) :
    ∃ rc data, a = .array rc data ∧ index < data.length ∧
      r = (g.mkArray (data.set index v)).1 ∧ g' = (g.mkArray (data.set index v)).2 := by
  cases a with
  | const c => simp [R1CGen.arraySet] at h
  | lc terms => simp [R1CGen.arraySet] at h
  | array rc data =>
      obtain ⟨hlt, hmk⟩ := arraySet_cases h
      exact ⟨rc, data, rfl, hlt, (congrArg Prod.fst hmk).symm, (congrArg Prod.snd hmk).symm⟩

/-- One instruction adds to the generator's state and keeps it sealable. -/
theorem Instr.symbolic_gen {s s' : SymState} {instr : Instr} (h : instr.symbolic s = some s') :
    s.gen.Grows s'.gen ∧ (s.gen.WellFormed → s'.gen.WellFormed) := by
  have hmk : ∀ (g : R1CGen) data, g.Grows (g.mkArray data).2 := fun g data =>
    ⟨List.prefix_rfl, List.prefix_rfl, List.prefix_rfl, Nat.le_refl _⟩
  cases instr with
  | const c =>
      obtain rfl := Option.some.inj h
      exact ⟨.refl _, id⟩
  | writeWitness val =>
      obtain rfl := Option.some.inj h
      exact ⟨R1CGen.grows_freshWitness s.gen, fun hwf => hwf.frame rfl rfl fun _ _ h => h⟩
  | add x y =>
      obtain ⟨a, b, v, env₁, env₂, -, -, -, rfl⟩ := symbolic_add h
      exact ⟨.refl _, id⟩
  | mulConst c x =>
      obtain ⟨a, v, env₁, -, -, rfl⟩ := symbolic_mulConst h
      exact ⟨.refl _, id⟩
  | mkPure e elems =>
      obtain ⟨-, rfl⟩ := symbolic_mkPure h
      exact ⟨hmk _ (elems.map PrimElem.value), fun hwf => hwf.mkArray (elems.map PrimElem.value)⟩
  | mkArray e xs =>
      obtain ⟨t, vs, env₁, -, -, rfl⟩ := symbolic_mkArray h
      exact ⟨hmk _ vs, fun hwf => hwf.mkArray vs⟩
  | arrayGet e arr index =>
      obtain ⟨t, a, v, -, -, -, rfl⟩ := symbolic_arrayGet h
      exact ⟨.refl _, id⟩
  | arraySet e arr index x =>
      obtain ⟨t, a, v, r, g, env₁, env₂, -, -, -, hr, rfl⟩ := symbolic_arraySet h
      obtain ⟨rc, data, rfl, -, -, rfl⟩ := R1CGen.arraySet_eq_some hr
      exact ⟨hmk _ (data.set index v), fun hwf => hwf.mkArray (data.set index v)⟩
  | arraySetPure e arr index elem =>
      obtain ⟨a, r, g, env₁, -, -, hr, rfl⟩ := symbolic_arraySetPure h
      obtain ⟨rc, data, rfl, -, -, rfl⟩ := R1CGen.arraySet_eq_some hr
      exact ⟨hmk _ (data.set index elem.value), fun hwf => hwf.mkArray (data.set index elem.value)⟩
  | dup x =>
      obtain ⟨tv, -, rfl⟩ := symbolic_dup h
      exact ⟨.refl _, id⟩
  | drop x =>
      obtain ⟨tv, env₁, -, rfl⟩ := symbolic_drop h
      exact ⟨.refl _, id⟩
  | constrain a b c =>
      obtain ⟨va, vb, vc, g, -, -, -, hg, rfl⟩ := symbolic_constrain h
      obtain ⟨la, lb, lc, -, -, -, rfl⟩ := R1CGen.constrain_eq_some hg
      exact ⟨⟨List.prefix_append _ _, List.prefix_rfl, List.prefix_rfl, Nat.le_refl _⟩,
        fun hwf => hwf.frame rfl rfl fun _ _ h => h⟩
  | rangecheck x flag =>
      obtain ⟨vx, vf, g, -, -, hg, rfl⟩ := symbolic_rangecheck h
      exact ⟨R1CGen.grows_lookup hg, fun hwf => hwf.lookup rfl hg⟩
  | spreadLookup bits x result flag =>
      obtain ⟨vx, vr, vf, g, -, -, -, hg, rfl⟩ := symbolic_spreadLookup h
      exact ⟨R1CGen.grows_lookup hg, fun hwf => hwf.lookup rfl hg⟩
  | arrayLookup e arr index result flag =>
      obtain ⟨va, vi, vr, vf, g, -, -, -, -, hg, rfl⟩ := symbolic_arrayLookup h
      exact ⟨R1CGen.grows_lookup hg, fun hwf => hwf.lookup rfl hg⟩

theorem Program.symbolic_gen {s' : SymState} : ∀ {prog : Program} {s : SymState},
    prog.symbolic s = some s' →
    s.gen.Grows s'.gen ∧ (s.gen.WellFormed → s'.gen.WellFormed) := by
  intro prog
  induction prog with
  | nil =>
      intro s h
      obtain rfl := Option.some.inj h
      exact ⟨.refl _, id⟩
  | cons instr prog ih =>
      intro s h
      simp only [Program.symbolic, Option.bind_eq_some_iff] at h
      obtain ⟨s₁, h₁, h⟩ := h
      obtain ⟨hgrow, hwf⟩ := Instr.symbolic_gen h₁
      obtain ⟨hgrow', hwf'⟩ := ih h
      exact ⟨hgrow.trans hgrow', hwf' ∘ hwf⟩

theorem Program.symbolic_append (pre post : Program) (s : SymState) :
    Program.symbolic (pre ++ post) s = (pre.symbolic s).bind post.symbolic := by
  induction pre generalizing s with
  | nil => rfl
  | cons instr pre ih =>
      show (instr.symbolic s).bind _ = ((instr.symbolic s).bind _).bind _
      rw [Option.bind_assoc]
      exact Option.bind_congr fun s₁ _ => ih s₁

/-! ## Witnesses

A run of a program allots one witness for each value the program writes.
-/

theorem Program.witnessValues_cons (instr : Instr) (prog : List Instr) :
    witnessValues (instr :: prog) = witnessValues [instr] ++ witnessValues prog := by
  rw [← List.singleton_append, witnessValues, List.filterMap_append]
  rfl

/-- An instruction allots a witness when it writes one. -/
theorem Instr.symbolic_nextWitness {s s' : SymState} {instr : Instr}
    (h : instr.symbolic s = some s') :
    s'.gen.nextWitness = s.gen.nextWitness + (Program.witnessValues [instr]).length := by
  have hlookup : ∀ {target args flag g}, s.gen.lookup target args flag = some g →
      g.nextWitness = s.gen.nextWitness := by
    intro target args flag g hg
    obtain ⟨flagLc, els, k, g₁, -, -, hres, rfl⟩ := R1CGen.lookup_eq_some hg
    cases R1CGen.resolveTable_cases hres <;> rfl
  cases instr with
  | const c =>
      obtain rfl := Option.some.inj h
      rfl
  | writeWitness val =>
      obtain rfl := Option.some.inj h
      rfl
  | add x y =>
      obtain ⟨a, b, v, env₁, env₂, -, -, -, rfl⟩ := symbolic_add h
      rfl
  | mulConst c x =>
      obtain ⟨a, v, env₁, -, -, rfl⟩ := symbolic_mulConst h
      rfl
  | mkPure e elems =>
      obtain ⟨-, rfl⟩ := symbolic_mkPure h
      rfl
  | mkArray e xs =>
      obtain ⟨t, vs, env₁, -, -, rfl⟩ := symbolic_mkArray h
      rfl
  | arrayGet e arr index =>
      obtain ⟨t, a, v, -, -, -, rfl⟩ := symbolic_arrayGet h
      rfl
  | arraySet e arr index x =>
      obtain ⟨t, a, v, r, g, env₁, env₂, -, -, -, hr, rfl⟩ := symbolic_arraySet h
      obtain ⟨rc, data, rfl, -, -, rfl⟩ := R1CGen.arraySet_eq_some hr
      rfl
  | arraySetPure e arr index elem =>
      obtain ⟨a, r, g, env₁, -, -, hr, rfl⟩ := symbolic_arraySetPure h
      obtain ⟨rc, data, rfl, -, -, rfl⟩ := R1CGen.arraySet_eq_some hr
      rfl
  | dup x =>
      obtain ⟨tv, -, rfl⟩ := symbolic_dup h
      rfl
  | drop x =>
      obtain ⟨tv, env₁, -, rfl⟩ := symbolic_drop h
      rfl
  | constrain a b c =>
      obtain ⟨va, vb, vc, g, -, -, -, hg, rfl⟩ := symbolic_constrain h
      obtain ⟨la, lb, lc, -, -, -, rfl⟩ := R1CGen.constrain_eq_some hg
      rfl
  | rangecheck x flag =>
      obtain ⟨vx, vf, g, -, -, hg, rfl⟩ := symbolic_rangecheck h
      exact hlookup hg
  | spreadLookup bits x result flag =>
      obtain ⟨vx, vr, vf, g, -, -, -, hg, rfl⟩ := symbolic_spreadLookup h
      exact hlookup hg
  | arrayLookup e arr index result flag =>
      obtain ⟨va, vi, vr, vf, g, -, -, -, -, hg, rfl⟩ := symbolic_arrayLookup h
      exact hlookup hg

/-- What a program leaves can be sealed. -/
theorem Program.symbolic_wellFormed {prog : Program} {s : SymState}
    (h : prog.symbolic .new = some s) : s.gen.WellFormed :=
  (Program.symbolic_gen h).2 R1CGen.WellFormed.new

end Mavros
