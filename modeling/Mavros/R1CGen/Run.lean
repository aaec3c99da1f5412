/-
# `Mavros.R1CGen.Run` — what the generator can reach

The generator is driven by the symbolic executor, one operation at a time and in
any order.  `R1CGen.Run` is that: the states `R1CGen::new` leads to, with the
lookups asked for on the way and the arrays made.

Its invariant says whose table is whose.  Every lookup recorded in the state is
one that was asked for, with its own key, value and flag, and names a table with
the contents its target asks for; an array keeps the table it got first.

## What is proved

* `resolveTable_spec`: resolving a table extends the state, keeps the invariant and finds the table
  the target asks for, for each of the three kinds of target.
* `Run.inv`: the invariant holds in every state of a run, whatever the order of operations.

## How it goes

Tables are never dropped or changed, nor is the table of an array once it has one (`Extends`), so
an answer once right stays right (`Extends.answers`).  An operation other than `lookup` changes
nothing the invariant reads (`RunInv.frame`), but that a new array gets a label: labels not handed
out yet have no table, and that is part of the invariant.
-/
import Mavros.R1CGen.Lookup

namespace Mavros

/-- The arguments of one call of `R1CGen::lookup`. -/
structure LookupCall where
  target : LookupTarget
  args : List Value
  flag : Value

namespace R1CGen

/-- An array that was made: `made` lists their vectors by label. -/
def LookupTarget.Made (made : List (List Value)) : LookupTarget → Prop
  | .array (.array rc data) => made[rc]? = some data
  | _ => True

/-- The states of the generator, the calls of `lookup` and the arrays made so far. -/
inductive Run : List LookupCall → List (List Value) → R1CGen → Prop
  | new : Run [] [] new
  | freshWitness {calls made g} : Run calls made g → Run calls made g.freshWitness.2
  | constrain {calls made g g'} (a b c : Value) : Run calls made g →
      g.constrain a b c = some g' → Run calls made g'
  | mkArray {calls made g} (data : List Value) : Run calls made g →
      Run calls (made ++ [data]) (g.mkArray data).2
  | arraySet {calls made g data} (rc index : Nat) (value arr : Value) {g' : R1CGen} :
      Run calls made g → made[rc]? = some data →
      g.arraySet (.array rc data) index value = some (arr, g') →
      Run calls (made ++ [data.set index value]) g'
  | lookup {calls made g g'} (target : LookupTarget) (args : List Value) (flag : Value) :
      Run calls made g → LookupTarget.Made made target →
      g.lookup target args flag = some g' →
      Run (calls ++ [⟨target, args, flag⟩]) made g'

/-- The table a target asks for, among those of the state. -/
def TableOf (g : R1CGen) (target : LookupTarget) (k : Nat) : Prop :=
  match target with
  | .rangecheck i => i = 8 ∧ k = 0 ∧ g.tables[k]? = some (.range 8)
  | .dynRangecheck _ => k = 0 ∧ g.tables[k]? = some (.range 8)
  | .spread bits => g.tables[k]? = some (.spread bits)
  | .array (.array rc data) =>
      g.tableIds rc = some k ∧ g.tables[k]? = some (.ofElems (flattenArrayIntoTable data))
  | .array _ => False

/-- A recorded lookup is the one that was asked for. -/
structure Answers (g : R1CGen) (call : LookupCall) (l : LookupConstraint) : Prop where
  elements : call.args.mapM Value.expectLinearCombination = some l.elements
  flag : call.flag.expectLinearCombination = some l.flag
  table : g.TableOf call.target l.tableId

/-- What holds in every state of a run. -/
structure RunInv (calls : List LookupCall) (made : List (List Value)) (g : R1CGen) : Prop where
  nextRc : g.nextRc = made.length
  named : ∀ rc k, g.tableIds rc = some k →
    ∃ data, made[rc]? = some data ∧
      g.tables[k]? = some (.ofElems (flattenArrayIntoTable data))
  answers : List.Forall₂ g.Answers calls g.lookups

/-- Tables are never dropped or changed, nor is the table of an array. -/
structure Extends (g g' : R1CGen) : Prop where
  tables : g.tables <+: g'.tables
  tableIds : ∀ rc k, g.tableIds rc = some k → g'.tableIds rc = some k

theorem Extends.refl (g : R1CGen) : Extends g g :=
  ⟨List.prefix_rfl, fun _ _ h => h⟩

theorem Extends.getElem? {g g' : R1CGen} (h : Extends g g') {k : Nat} {t : Table}
    (ht : g.tables[k]? = some t) : g'.tables[k]? = some t := by
  obtain ⟨ts, hts⟩ := h.tables
  have hk : k < g.tables.length := (List.getElem?_eq_some_iff.mp ht).1
  rw [← hts, List.getElem?_append_left hk, ht]

theorem Extends.tableOf {g g' : R1CGen} (h : Extends g g') {target : LookupTarget} {k : Nat}
    (ht : g.TableOf target k) : g'.TableOf target k := by
  cases target with
  | rangecheck i => exact ⟨ht.1, ht.2.1, h.getElem? ht.2.2⟩
  | dynRangecheck v => exact ⟨ht.1, h.getElem? ht.2⟩
  | spread bits => exact h.getElem? ht
  | array arr =>
      cases arr with
      | array rc data => exact ⟨h.tableIds rc k ht.1, h.getElem? ht.2⟩
      | const c => exact ht
      | lc terms => exact ht

theorem Extends.answers {g g' : R1CGen} (h : Extends g g') {call : LookupCall}
    {l : LookupConstraint} (ha : g.Answers call l) : g'.Answers call l :=
  ⟨ha.elements, ha.flag, h.tableOf ha.table⟩

/-! ## Resolving a table

The three kinds separately; two of them look for a table by what it holds.
-/

theorem rangeTable_cases {g g' : R1CGen} (h : g.rangeTable = some g') :
    (g.tables = [] ∧ g' = { g with tables := [.range 8] }) ∨
      (g' = g ∧ ∃ ts, g.tables = .range 8 :: ts) := by
  unfold rangeTable at h
  split at h
  · rename_i hnil
    exact .inl ⟨hnil, (Option.some.inj h).symm⟩
  · rename_i i1 ts hcons
    split at h
    · rename_i hi
      subst hi
      exact .inr ⟨(Option.some.inj h).symm, ts, hcons⟩
    · exact absurd h (by simp)
  · exact absurd h (by simp)

theorem rangeTable_spec {g g' : R1CGen} (h : g.rangeTable = some g') :
    Extends g g' ∧ g'.tables[0]? = some (.range 8) ∧ g'.tableIds = g.tableIds ∧
      g'.lookups = g.lookups ∧ g'.nextRc = g.nextRc := by
  obtain ⟨hnil, rfl⟩ | ⟨rfl, ts, hts⟩ := rangeTable_cases h
  · exact ⟨⟨by simp [hnil], fun _ _ h => h⟩, rfl, rfl, rfl, rfl⟩
  · exact ⟨Extends.refl _, by simp [hts], rfl, rfl, rfl⟩

theorem spreadTable_spec (bits : Nat) (g : R1CGen) :
    Extends g (g.spreadTable bits).2 ∧
      (g.spreadTable bits).2.tables[(g.spreadTable bits).1]? = some (.spread bits) ∧
      (g.spreadTable bits).2.tableIds = g.tableIds ∧
      (g.spreadTable bits).2.lookups = g.lookups ∧
      (g.spreadTable bits).2.nextRc = g.nextRc := by
  unfold spreadTable
  split
  · rename_i idx hidx
    obtain ⟨hlt, heq, -⟩ := List.findIdx?_eq_some_iff_getElem.mp hidx
    refine ⟨Extends.refl g, ?_, rfl, rfl, rfl⟩
    show g.tables[idx]? = _
    rw [List.getElem?_eq_getElem hlt, eq_of_beq heq]
  · exact ⟨⟨List.prefix_append _ _, fun _ _ h => h⟩, by simp, rfl, rfl, rfl⟩

theorem arrayTable_cases (rc : Nat) (data : List Value) (g : R1CGen) :
    (∃ k, g.tableIds rc = some k ∧ g.arrayTable rc data = (k, g)) ∨
      (g.tableIds rc = none ∧ g.arrayTable rc data =
        (g.tables.length,
          { g with
            tables := g.tables ++ [.ofElems (flattenArrayIntoTable data)]
            tableIds := Function.update g.tableIds rc (some g.tables.length) })) := by
  unfold arrayTable
  cases hk : g.tableIds rc with
  | none => exact .inr ⟨rfl, rfl⟩
  | some k => exact .inl ⟨k, rfl, rfl⟩

/-- Resolving a table extends the state, keeps the invariant and finds the table
the target asks for. -/
theorem resolveTable_spec {calls : List LookupCall} {made : List (List Value)} {g g' : R1CGen}
    {target : LookupTarget} {k : Nat} (hinv : RunInv calls made g)
    (hmade : LookupTarget.Made made target)
    (h : g.resolveTable target = some (k, g')) :
    Extends g g' ∧ g'.TableOf target k ∧ g'.lookups = g.lookups ∧ g'.nextRc = g.nextRc ∧
      ∀ rc k, g'.tableIds rc = some k →
        ∃ data, made[rc]? = some data ∧
          g'.tables[k]? = some (.ofElems (flattenArrayIntoTable data)) := by
  have hkept : ∀ {g'}, Extends g g' → g'.tableIds = g.tableIds →
      ∀ rc k, g'.tableIds rc = some k →
        ∃ data, made[rc]? = some data ∧
          g'.tables[k]? = some (.ofElems (flattenArrayIntoTable data)) := by
    intro g' hext hids rc k hk
    obtain ⟨data, hd, ht⟩ := hinv.named rc k (by rw [← hids]; exact hk)
    exact ⟨data, hd, hext.getElem? ht⟩
  cases target with
  | rangecheck i =>
      simp only [resolveTable] at h
      split at h
      · rename_i hi
        obtain ⟨g₁, h₁, heq⟩ := Option.map_eq_some_iff.mp h
        obtain ⟨rfl, rfl⟩ := Prod.mk.inj heq
        obtain ⟨hext, htab, hids, hl, hrc⟩ := rangeTable_spec h₁
        exact ⟨hext, ⟨hi, rfl, htab⟩, hl, hrc, hkept hext hids⟩
      · exact absurd h (by simp)
  | dynRangecheck v =>
      cases v with
      | const c =>
          simp only [resolveTable] at h
          split at h
          · obtain ⟨g₁, h₁, heq⟩ := Option.map_eq_some_iff.mp h
            obtain ⟨rfl, rfl⟩ := Prod.mk.inj heq
            obtain ⟨hext, htab, hids, hl, hrc⟩ := rangeTable_spec h₁
            exact ⟨hext, ⟨rfl, htab⟩, hl, hrc, hkept hext hids⟩
          · exact absurd h (by simp)
      | lc terms => simp [resolveTable] at h
      | array rc data => simp [resolveTable] at h
  | spread bits =>
      simp only [resolveTable, Option.some.injEq] at h
      obtain ⟨hext, htab, hids, hl, hrc⟩ := spreadTable_spec bits g
      rw [h] at hext htab hids hl hrc
      exact ⟨hext, htab, hl, hrc, hkept hext hids⟩
  | array arr =>
      cases arr with
      | const c => simp [resolveTable] at h
      | lc terms => simp [resolveTable] at h
      | array rc data =>
          simp only [resolveTable, Option.some.injEq] at h
          obtain ⟨j, hj, heq⟩ | ⟨hnone, heq⟩ := arrayTable_cases rc data g
          · obtain ⟨rfl, rfl⟩ := Prod.mk.inj (heq.symm.trans h)
            obtain ⟨data', hd', ht'⟩ := hinv.named rc j hj
            obtain rfl : data' = data := Option.some.inj (hd'.symm.trans hmade)
            exact ⟨Extends.refl g, ⟨hj, ht'⟩, rfl, rfl, hinv.named⟩
          · obtain ⟨rfl, rfl⟩ := Prod.mk.inj (heq.symm.trans h)
            have hnew : (g.tables ++ [Table.ofElems (flattenArrayIntoTable data)])[
                g.tables.length]? = some (.ofElems (flattenArrayIntoTable data)) := by simp
            have hext : Extends g { g with
                tables := g.tables ++ [.ofElems (flattenArrayIntoTable data)]
                tableIds := Function.update g.tableIds rc (some g.tables.length) } := by
              refine ⟨List.prefix_append _ _, fun rc' k' hk' => ?_⟩
              have hne : rc' ≠ rc := by
                rintro rfl
                rw [hnone] at hk'
                exact absurd hk' (by simp)
              exact (Function.update_of_ne hne _ _).trans hk'
            refine ⟨hext, ⟨Function.update_self _ _ _, hnew⟩, rfl, rfl, fun rc' k' hk' => ?_⟩
            by_cases hrc : rc' = rc
            · subst hrc
              have hself :
                  Function.update g.tableIds rc' (some g.tables.length) rc' = some k' := hk'
              rw [Function.update_self, Option.some.injEq] at hself
              subst hself
              exact ⟨data, hmade, hnew⟩
            · obtain ⟨data', hd', ht'⟩ := hinv.named rc' k'
                ((Function.update_of_ne hrc _ _).symm.trans hk')
              exact ⟨data', hd', hext.getElem? ht'⟩

/-! ## The invariant of a run -/

/-- Only labels not handed out yet lose their table, and those have none. -/
theorem RunInv.mkArray {calls : List LookupCall} {made : List (List Value)} {g : R1CGen}
    (hinv : RunInv calls made g) (data : List Value) :
    RunInv calls (made ++ [data]) (g.mkArray data).2 := by
  have hold : ∀ rc k, g.tableIds rc = some k → rc ≠ g.nextRc := by
    rintro rc k hk rfl
    obtain ⟨data', hd', -⟩ := hinv.named _ _ hk
    rw [hinv.nextRc, List.getElem?_eq_none (Nat.le_refl _)] at hd'
    exact absurd hd' (by simp)
  have hext : Extends g (g.mkArray data).2 :=
    ⟨List.prefix_rfl, fun rc k hk => (Function.update_of_ne (hold rc k hk) _ _).trans hk⟩
  refine ⟨?_, fun rc k hk => ?_, hinv.answers.imp fun _ _ ha => hext.answers ha⟩
  · show g.nextRc + 1 = _
    rw [hinv.nextRc, List.length_append, List.length_singleton]
  · have hk' : Function.update g.tableIds g.nextRc none rc = some k := hk
    by_cases hrc : rc = g.nextRc
    · subst hrc
      rw [Function.update_self] at hk'
      exact absurd hk' (by simp)
    · rw [Function.update_of_ne hrc] at hk'
      obtain ⟨data', hd', ht'⟩ := hinv.named rc k hk'
      refine ⟨data', ?_, ht'⟩
      rw [List.getElem?_append_left (List.getElem?_eq_some_iff.mp hd').1, hd']

/-- The invariant reads tables, table ids, lookups and labels only. -/
theorem RunInv.frame {calls : List LookupCall} {made : List (List Value)} {g g' : R1CGen}
    (hinv : RunInv calls made g) (htables : g'.tables = g.tables)
    (hids : g'.tableIds = g.tableIds) (hl : g'.lookups = g.lookups)
    (hrc : g'.nextRc = g.nextRc) : RunInv calls made g' := by
  have hext : Extends g g' :=
    ⟨htables ▸ List.prefix_rfl, fun rc k hk => by rw [hids]; exact hk⟩
  refine ⟨hrc.trans hinv.nextRc, fun rc k hk => ?_, ?_⟩
  · obtain ⟨data, hd, ht⟩ := hinv.named rc k (by rw [← hids]; exact hk)
    exact ⟨data, hd, hext.getElem? ht⟩
  · rw [hl]
    exact hinv.answers.imp fun _ _ ha => hext.answers ha

theorem arraySet_cases {g g' : R1CGen} {rc index : Nat} {data : List Value}
    {value arr : Value} (h : g.arraySet (.array rc data) index value = some (arr, g')) :
    index < data.length ∧ g.mkArray (data.set index value) = (arr, g') := by
  simp only [arraySet] at h
  split at h
  · rename_i hlt
    exact ⟨hlt, Option.some.inj h⟩
  · exact absurd h (by simp)

theorem RunInv.lookup {calls : List LookupCall} {made : List (List Value)} {g g' : R1CGen}
    (hinv : RunInv calls made g) {target : LookupTarget} {args : List Value} {flag : Value}
    (hmade : LookupTarget.Made made target) (h : g.lookup target args flag = some g') :
    RunInv (calls ++ [⟨target, args, flag⟩]) made g' := by
  simp only [R1CGen.lookup, Option.bind_eq_bind, Option.bind_eq_some_iff] at h
  obtain ⟨flagLc, hflag, els, hels, ⟨k, g₁⟩, hres, h⟩ := h
  obtain rfl := Option.some.inj h
  obtain ⟨hext, htab, hl, hrc, hnamed⟩ := resolveTable_spec hinv hmade hres
  refine ⟨hrc.trans hinv.nextRc, hnamed, ?_⟩
  have hext' : Extends g { g₁ with lookups := g₁.lookups ++ [⟨k, els, flagLc⟩] } :=
    ⟨hext.tables, hext.tableIds⟩
  have hnew : Answers { g₁ with lookups := g₁.lookups ++ [⟨k, els, flagLc⟩] }
      ⟨target, args, flag⟩ ⟨k, els, flagLc⟩ :=
    ⟨hels, hflag, Extends.tableOf (g := g₁) ⟨List.prefix_rfl, fun _ _ h => h⟩ htab⟩
  have hold := hinv.answers.imp fun _ _ ha => hext'.answers ha
  rw [← hl] at hold
  exact List.rel_append hold (.cons hnew .nil)

theorem Run.inv {calls : List LookupCall} {made : List (List Value)} {g : R1CGen}
    (h : Run calls made g) : RunInv calls made g := by
  induction h with
  | new => exact ⟨rfl, fun _ _ hk => (nomatch hk), .nil⟩
  | freshWitness _ ih => exact ih.frame rfl rfl rfl rfl
  | constrain a b c _ hg ih =>
      simp only [R1CGen.constrain, Option.bind_eq_bind, Option.bind_eq_some_iff] at hg
      obtain ⟨_, _, _, _, _, _, hg⟩ := hg
      obtain rfl := Option.some.inj hg
      exact ih.frame rfl rfl rfl rfl
  | mkArray data _ ih => exact ih.mkArray data
  | @arraySet _ _ _ data rc index value arr _ _ _ hg ih =>
      obtain ⟨-, hmk⟩ := arraySet_cases hg
      have hinv := ih.mkArray (data.set index value)
      rw [hmk] at hinv
      exact hinv
  | lookup target args flag _ hmade hg ih => exact ih.lookup hmade hg

theorem TableOf.lt {g : R1CGen} {target : LookupTarget} {k : Nat} (h : g.TableOf target k) :
    k < g.tables.length := by
  cases target with
  | rangecheck i => exact (List.getElem?_eq_some_iff.mp h.2.2).1
  | dynRangecheck v => exact (List.getElem?_eq_some_iff.mp h.2).1
  | spread bits => exact (List.getElem?_eq_some_iff.mp (show _ = _ from h)).1
  | array arr =>
      cases arr with
      | array rc data => exact (List.getElem?_eq_some_iff.mp h.2).1
      | const c => exact h.elim
      | lc terms => exact h.elim

end R1CGen

end Mavros
