/-
# `Mavros.R1CGen.Scope` — combinations are over witnesses that exist

Whatever a symbolic run records or binds is over the witnesses it has allotted.  So
two assignments that agree on those agree on every row, table and lookup, and what
is written to the witness later does not matter to them.

## What is proved

* `Program.symbolic_scoped`: what a program records and binds is over the witnesses allotted by its
  end (`R1CGen.Scoped`, `SymState.Scoped`).
* `Program.entry_scoped`: from the entry point on there is a witness for the constants.

## How it goes

`Below n` is a property of values, arrays included, that every operation keeps and that grows with
`n`; it is proved of the arithmetic, of a table's leaves, and of each method of the generator, and
a run is an induction over its instructions.

The use of it is the second phase of a witness: challenges and inverses are written after the
algebraic part, and rows recorded by the program do not see them.
-/
import Mavros.R1CGen.ExecSpec

namespace Mavros

open Lib

namespace Value

/-- Over the first `n` witnesses. -/
inductive Below (n : Nat) : Value → Prop
  | const {c : Fr} (h : 0 < n) : Below n (const c)
  | lc {terms : LC} (h : terms.Below n) : Below n (lc terms)
  | array {rc : Nat} {data : List Value} (h : ∀ v ∈ data, Below n v) : Below n (array rc data)

variable {n : Nat} {v a b : Value} {lc : LC}

theorem Below.mono {m : Nat} (h : v.Below n) (hnm : n ≤ m) : v.Below m := by
  induction h with
  | const h => exact .const (Nat.lt_of_lt_of_le h hnm)
  | lc h => exact .lc (h.mono hnm)
  | array _ ih => exact .array ih

theorem Below.expect (h : v.Below n) (hv : v.expectLinearCombination = some lc) :
    lc.Below n := by
  cases h with
  | const h =>
      obtain rfl := Option.some.inj hv
      intro t ht
      rw [List.mem_singleton.mp ht]
      exact h
  | lc h =>
      obtain rfl := Option.some.inj hv
      exact h
  | array h => exact absurd hv (by simp [expectLinearCombination])

theorem below_mergeTerms : ∀ {lhs rhs : LC}, lhs.Below n → rhs.Below n →
    LC.Below n (mergeTerms lhs rhs)
  | [], rhs, _, hr => by simpa [mergeTerms] using hr
  | t :: lhs, [], hl, _ => by simpa [mergeTerms] using hl
  | (i, x) :: lhs, (j, y) :: rhs, hl, hr => by
      have hi : i < n := hl (i, x) List.mem_cons_self
      have hj : j < n := hr (j, y) List.mem_cons_self
      have hl' : LC.Below n lhs := fun t ht => hl t (List.mem_cons_of_mem _ ht)
      have hr' : LC.Below n rhs := fun t ht => hr t (List.mem_cons_of_mem _ ht)
      have hcons : ∀ {k z} {ts : LC}, k < n → ts.Below n → LC.Below n ((k, z) :: ts) :=
        fun hk hts => List.forall_mem_cons.mpr ⟨hk, hts⟩
      rw [mergeTerms]
      split_ifs
      · exact hcons hi (below_mergeTerms hl' hr')
      · exact below_mergeTerms hl' hr'
      · exact hcons hi (below_mergeTerms hl' hr)
      · exact hcons hj (below_mergeTerms hl hr')
termination_by lhs rhs => lhs.length + rhs.length

theorem Below.add (ha : a.Below n) (hb : b.Below n) (hv : a.add b = some v) : v.Below n := by
  have hmerge : ∀ {lhs rhs : LC}, a.expectLinearCombination = some lhs →
      b.expectLinearCombination = some rhs → v = .lc (mergeTerms lhs rhs) → v.Below n := by
    rintro lhs rhs hl hr rfl
    exact .lc (below_mergeTerms (ha.expect hl) (hb.expect hr))
  cases ha with
  | const h =>
      cases hb with
      | const _ =>
          obtain rfl := Option.some.inj hv
          exact .const h
      | lc _ => exact hmerge rfl rfl (Option.some.inj hv).symm
      | array _ => exact absurd hv (by simp [Value.add, expectLinearCombination])
  | lc _ =>
      cases hb with
      | const _ => exact hmerge rfl rfl (Option.some.inj hv).symm
      | lc _ => exact hmerge rfl rfl (Option.some.inj hv).symm
      | array _ => exact absurd hv (by simp [Value.add, expectLinearCombination])
  | array _ => exact absurd hv (by simp [Value.add, expectLinearCombination])

theorem Below.mulConst {c : Fr} (hn : 0 < n) (ha : a.Below n)
    (hv : (Value.const c).mul a = some v) :
    v.Below n := by
  cases ha with
  | const _ =>
      obtain rfl := Option.some.inj hv
      exact .const hn
  | @lc terms h =>
      simp only [mul] at hv
      split_ifs at hv
      · obtain rfl := Option.some.inj hv
        exact .const hn
      · obtain rfl := Option.some.inj hv
        refine .lc fun t ht => ?_
        obtain ⟨u, hu, rfl⟩ := List.mem_map.mp ht
        exact h u hu
  | array _ => exact absurd hv (by simp [mul])

theorem flattenArrayIntoTable_eq (data : List Value) :
    flattenArrayIntoTable data = data.flatMap flatten := by
  induction data with
  | nil => rfl
  | cons v data ih => rw [flattenArrayIntoTable, ih, List.flatMap_cons]

theorem Below.flatten (h : v.Below n) : ∀ lc ∈ v.flatten, LC.Below n lc := by
  induction h with
  | const h =>
      intro lc hlc
      rw [Value.flatten, List.mem_singleton] at hlc
      subst hlc
      exact (Below.const h).expect rfl
  | lc h =>
      intro lc hlc
      rw [Value.flatten, List.mem_singleton] at hlc
      exact hlc ▸ h
  | array _ ih =>
      intro lc hlc
      rw [Value.flatten, flattenArrayIntoTable_eq, List.mem_flatMap] at hlc
      obtain ⟨v, hv, hlc⟩ := hlc
      exact ih v hv lc hlc

end Value

/-! ## The generator

A record keeps its scope when witnesses are added.
-/

/-- Everything recorded is over the witnesses allotted so far. -/
structure R1CGen.Scoped (g : R1CGen) : Prop where
  one : 0 < g.nextWitness
  constraints : ∀ r ∈ g.constraints,
    r.a.Below g.nextWitness ∧ r.b.Below g.nextWitness ∧ r.c.Below g.nextWitness
  tables : ∀ t ∈ g.tables, ∀ i, (t.value i).Below g.nextWitness
  lookups : ∀ l ∈ g.lookups, l.flag.Below g.nextWitness ∧ ∀ lc ∈ l.elements, lc.Below g.nextWitness

/-- And so is everything bound. -/
structure SymState.Scoped (s : SymState) : Prop where
  gen : s.gen.Scoped
  env : s.env.All fun tv => tv.2.Below s.gen.nextWitness

namespace R1CGen

variable {g g' : R1CGen} {n : Nat}

theorem Scoped.frame (h : Scoped g) (hc : g'.constraints = g.constraints)
    (ht : g'.tables = g.tables) (hl : g'.lookups = g.lookups)
    (hn : g.nextWitness ≤ g'.nextWitness) : Scoped g' := by
  refine ⟨Nat.lt_of_lt_of_le h.one hn, ?_, ?_, ?_⟩
  · rw [hc]
    intro r hr
    obtain ⟨ha, hb, hc⟩ := h.constraints r hr
    exact ⟨ha.mono hn, hb.mono hn, hc.mono hn⟩
  · rw [ht]
    exact fun t ht i => (h.tables t ht i).mono hn
  · rw [hl]
    intro l hl
    obtain ⟨hf, he⟩ := h.lookups l hl
    exact ⟨hf.mono hn, fun lc hlc => (he lc hlc).mono hn⟩

/-- A value read off a table of leaves. -/
theorem below_ofElems {els : List LC} (h : ∀ lc ∈ els, LC.Below n lc) (i : Nat) :
    ((Table.ofElems els).value i).Below n := by
  simp only [Table.value, List.getD_eq_getElem?_getD]
  cases hi : els[i]? with
  | none => exact fun t ht => absurd ht List.not_mem_nil
  | some lc => exact h lc (List.mem_of_getElem? hi)

theorem Scoped.pushTable (h : Scoped g) {t : Table} (ht : ∀ i, (t.value i).Below g.nextWitness)
    (ids : Nat → Option Nat) :
    Scoped { g with tables := g.tables ++ [t], tableIds := ids } where
  one := h.one
  constraints := h.constraints
  tables := fun u hu => by
    rcases List.mem_append.mp hu with hu | hu
    · exact h.tables u hu
    · rw [List.mem_singleton.mp hu]
      exact ht
  lookups := h.lookups

theorem Scoped.resolveTable (h : Scoped g) {target : LookupTarget} {k : Nat}
    (htarget : ∀ arr, target = .array arr → arr.Below g.nextWitness)
    (hres : g.resolveTable target = some (k, g')) :
    Scoped g' ∧ g'.nextWitness = g.nextWitness := by
  have hrange : ∀ {k g'}, g.rangeTable.map (fun g' => (0, g')) = some (k, g') →
      Scoped g' ∧ g'.nextWitness = g.nextWitness := by
    intro k g' hk
    obtain ⟨g₂, h₂, heq⟩ := Option.map_eq_some_iff.mp hk
    obtain ⟨rfl, rfl⟩ := Prod.mk.inj heq
    obtain ⟨hnil, rfl⟩ | ⟨rfl, -⟩ := rangeTable_cases h₂
    · have hpush := h.pushTable (t := .range 8) (fun i t ht => absurd ht List.not_mem_nil)
        g.tableIds
      rw [hnil] at hpush
      exact ⟨hpush, rfl⟩
    · exact ⟨h, rfl⟩
  cases target with
  | rangecheck i =>
      simp only [R1CGen.resolveTable] at hres
      split at hres
      · exact hrange hres
      · exact absurd hres (by simp)
  | dynRangecheck v =>
      cases v with
      | const c =>
          simp only [R1CGen.resolveTable] at hres
          split at hres
          · exact hrange hres
          · exact absurd hres (by simp)
      | lc terms => simp [R1CGen.resolveTable] at hres
      | array rc data => simp [R1CGen.resolveTable] at hres
  | spread bits =>
      simp only [R1CGen.resolveTable, Option.some.injEq, spreadTable] at hres
      split at hres
      · obtain ⟨rfl, rfl⟩ := Prod.mk.inj hres
        exact ⟨h, rfl⟩
      · obtain ⟨rfl, rfl⟩ := Prod.mk.inj hres
        refine ⟨h.pushTable (t := .spread bits) (fun i t ht => ?_) g.tableIds, rfl⟩
        rw [List.mem_singleton.mp ht]
        exact h.one
  | array arr =>
      have harr := htarget arr rfl
      cases arr with
      | const c => simp [R1CGen.resolveTable] at hres
      | lc terms => simp [R1CGen.resolveTable] at hres
      | array rc data =>
          simp only [R1CGen.resolveTable, Option.some.injEq] at hres
          obtain ⟨j, -, heq⟩ | ⟨-, heq⟩ := arrayTable_cases rc data g
          · obtain ⟨rfl, rfl⟩ := Prod.mk.inj (heq.symm.trans hres)
            exact ⟨h, rfl⟩
          · obtain ⟨rfl, rfl⟩ := Prod.mk.inj (heq.symm.trans hres)
            exact ⟨h.pushTable (below_ofElems harr.flatten) _, rfl⟩

theorem Scoped.lookup (h : Scoped g) {target : LookupTarget} {args : List Value} {flag : Value}
    (htarget : ∀ arr, target = .array arr → arr.Below g.nextWitness)
    (hargs : ∀ v ∈ args, v.Below g.nextWitness) (hflag : flag.Below g.nextWitness)
    (hg : g.lookup target args flag = some g') :
    Scoped g' ∧ g'.nextWitness = g.nextWitness := by
  obtain ⟨flagLc, els, k, g₁, hf, hels, hres, rfl⟩ := lookup_eq_some hg
  obtain ⟨hscoped, hn⟩ := h.resolveTable htarget hres
  refine ⟨⟨hscoped.one, hscoped.constraints, hscoped.tables, fun l hl => ?_⟩, hn⟩
  rcases List.mem_append.mp hl with hl | hl
  · exact hscoped.lookups l hl
  · rw [List.mem_singleton.mp hl]
    show LC.Below g₁.nextWitness flagLc ∧ ∀ lc ∈ els, LC.Below g₁.nextWitness lc
    rw [hn]
    refine ⟨hflag.expect hf, fun lc hlc => ?_⟩
    obtain ⟨i, hi, rfl⟩ := List.getElem_of_mem hlc
    have hall := Lib.mapM_eq_some.mp hels
    have hi' : i < args.length := hall.length_eq ▸ hi
    exact (hargs _ (List.getElem_mem hi')).expect ((List.forall₂_iff_get.mp hall).2 i hi' hi)

theorem Scoped.constrain (h : Scoped g) {a b c : Value} (ha : a.Below g.nextWitness)
    (hb : b.Below g.nextWitness) (hc : c.Below g.nextWitness)
    (hg : g.constrain a b c = some g') : Scoped g' ∧ g'.nextWitness = g.nextWitness := by
  obtain ⟨la, lb, lc, hla, hlb, hlc, rfl⟩ := constrain_eq_some hg
  refine ⟨⟨h.one, fun r hr => ?_, h.tables, h.lookups⟩, rfl⟩
  rcases List.mem_append.mp hr with hr | hr
  · exact h.constraints r hr
  · rw [List.mem_singleton.mp hr]
    exact ⟨ha.expect hla, hb.expect hlb, hc.expect hlc⟩

end R1CGen

/-! ## One instruction at a time

Variables are bound to values over the witnesses there are.
-/

/-- A new variable and, beside it, a generator with the same records. -/
theorem SymState.scoped_push {s : SymState} {env : Env (Ty × Value)} {t : Ty}
    {v : Value} {g : R1CGen} (henv : env.All fun tv => tv.2.Below s.gen.nextWitness)
    (hg : g.Scoped) (hn : s.gen.nextWitness ≤ g.nextWitness) (hv : v.Below g.nextWitness) :
    SymState.Scoped { env := env.push (t, v), gen := g } :=
  ⟨hg, (henv.imp fun _ htv => htv.mono hn).push hv⟩

theorem Instr.symbolic_scoped {s s' : SymState} {instr : Instr} (h : s.Scoped)
    (hs : instr.symbolic s = some s') : s'.Scoped := by
  have hrefl := Nat.le_refl s.gen.nextWitness
  have hmk : ∀ data, (s.gen.mkArray data).2.Scoped := fun _ => h.gen.frame rfl rfl rfl hrefl
  -- a lookup leaves the variables alone
  have hlookup : ∀ {target args flag g}, (∀ arr, target = .array arr →
        arr.Below s.gen.nextWitness) → (∀ v ∈ args, v.Below s.gen.nextWitness) →
      flag.Below s.gen.nextWitness → s.gen.lookup target args flag = some g →
      SymState.Scoped { s with gen := g } := by
    intro target args flag g htarget hargs hflag hg
    obtain ⟨hscoped, hn⟩ := h.gen.lookup htarget hargs hflag hg
    exact ⟨hscoped, h.env.imp fun _ htv => htv.mono (Nat.le_of_eq hn.symm)⟩
  cases instr with
  | const c =>
      obtain rfl := Option.some.inj hs
      exact SymState.scoped_push h.env h.gen hrefl (.const h.gen.one)
  | writeWitness val =>
      obtain rfl := Option.some.inj hs
      have hle : s.gen.nextWitness ≤ s.gen.nextWitness + 1 := Nat.le_succ _
      refine SymState.scoped_push h.env (h.gen.frame rfl rfl rfl hle) hle (.lc fun t ht => ?_)
      rw [List.mem_singleton.mp ht]
      exact Nat.lt_succ_self _
  | add x y =>
      obtain ⟨a, b, v, env₁, env₂, hx, hy, hv, rfl⟩ := symbolic_add hs
      obtain ⟨ha, henv₁⟩ := h.env.take hx
      obtain ⟨hb, henv₂⟩ := henv₁.take hy
      exact SymState.scoped_push henv₂ h.gen hrefl (ha.add hb hv)
  | mulConst c x =>
      obtain ⟨a, v, env₁, hx, hv, rfl⟩ := symbolic_mulConst hs
      obtain ⟨ha, henv₁⟩ := h.env.take hx
      exact SymState.scoped_push henv₁ h.gen hrefl (ha.mulConst h.gen.one hv)
  | mkPure e elems =>
      obtain ⟨-, rfl⟩ := symbolic_mkPure hs
      refine SymState.scoped_push h.env (hmk _) hrefl (.array fun v hv => ?_)
      obtain ⟨p, -, rfl⟩ := List.mem_map.mp hv
      exact .const h.gen.one
  | mkArray e xs =>
      obtain ⟨t, vs, env₁, -, hxs, rfl⟩ := symbolic_mkArray hs
      obtain ⟨hvs, henv₁⟩ := h.env.takeAll hxs
      exact SymState.scoped_push henv₁ (hmk vs) hrefl
        (.array fun v hv => hvs (t, v) (List.mem_map.mpr ⟨v, hv, rfl⟩))
  | arrayGet e arr index =>
      obtain ⟨t, a, v, -, harr, hget, rfl⟩ := symbolic_arrayGet hs
      have ha := h.env.read harr
      cases ha with
      | const _ => exact absurd hget (by simp [R1CGen.arrayGet])
      | lc _ => exact absurd hget (by simp [R1CGen.arrayGet])
      | array hdata =>
        exact SymState.scoped_push h.env h.gen hrefl (hdata v (List.mem_of_getElem? hget))
  | arraySet e arr index x =>
      obtain ⟨t, a, v, r, g, env₁, env₂, -, harr, hx, hr, rfl⟩ := symbolic_arraySet hs
      obtain ⟨ha, henv₁⟩ := h.env.take harr
      obtain ⟨hv, henv₂⟩ := henv₁.take hx
      obtain ⟨rc, data, rfl, -, rfl, rfl⟩ := R1CGen.arraySet_eq_some hr
      cases ha with
      | array hdata =>
          refine SymState.scoped_push henv₂ (hmk _) hrefl (.array fun u hu => ?_)
          rcases List.mem_or_eq_of_mem_set hu with hu | rfl
          · exact hdata u hu
          · exact hv
  | arraySetPure e arr index elem =>
      obtain ⟨a, r, g, env₁, -, harr, hr, rfl⟩ := symbolic_arraySetPure hs
      obtain ⟨ha, henv₁⟩ := h.env.take harr
      obtain ⟨rc, data, rfl, -, rfl, rfl⟩ := R1CGen.arraySet_eq_some hr
      cases ha with
      | array hdata =>
          refine SymState.scoped_push henv₁ (hmk _) hrefl (.array fun u hu => ?_)
          rcases List.mem_or_eq_of_mem_set hu with hu | rfl
          · exact hdata u hu
          · exact .const h.gen.one
  | dup x =>
      obtain ⟨tv, hx, rfl⟩ := symbolic_dup hs
      exact SymState.scoped_push h.env h.gen hrefl (h.env.read hx)
  | drop x =>
      obtain ⟨tv, env₁, hx, rfl⟩ := symbolic_drop hs
      exact ⟨h.gen, (h.env.take hx).2⟩
  | constrain a b c =>
      obtain ⟨va, vb, vc, g, ha, hb, hc, hg, rfl⟩ := symbolic_constrain hs
      obtain ⟨hscoped, hn⟩ := h.gen.constrain (h.env.read ha) (h.env.read hb) (h.env.read hc) hg
      exact ⟨hscoped, h.env.imp fun _ htv => htv.mono (Nat.le_of_eq hn.symm)⟩
  | rangecheck x flag =>
      obtain ⟨vx, vf, g, hx, hf, hg, rfl⟩ := symbolic_rangecheck hs
      exact hlookup (fun _ h => absurd h (by simp)) (by simpa using h.env.read hx)
        (h.env.read hf) hg
  | spreadLookup bits x result flag =>
      obtain ⟨vx, vr, vf, g, hx, hr, hf, hg, rfl⟩ := symbolic_spreadLookup hs
      exact hlookup (fun _ h => absurd h (by simp))
        (by simpa using ⟨h.env.read hx, h.env.read hr⟩) (h.env.read hf) hg
  | arrayLookup e arr index result flag =>
      obtain ⟨va, vi, vr, vf, g, ha, hi, hr, hf, hg, rfl⟩ := symbolic_arrayLookup hs
      refine hlookup (fun arr' harr => ?_) (by simpa using ⟨h.env.read hi, h.env.read hr⟩)
        (h.env.read hf) hg
      obtain rfl := LookupTarget.array.inj harr
      exact h.env.read ha

/-- What a program records is over the witnesses it allots. -/
theorem Program.symbolic_scoped {s' : SymState} : ∀ {prog : Program} {s : SymState}, s.Scoped →
    prog.symbolic s = some s' → s'.Scoped := by
  intro prog
  induction prog with
  | nil =>
      intro s hs h
      obtain rfl := Option.some.inj h
      exact hs
  | cons instr prog ih =>
      intro s hs h
      simp only [Program.symbolic, Option.bind_eq_some_iff] at h
      obtain ⟨s₁, h₁, h⟩ := h
      exact ih (Instr.symbolic_scoped hs h₁) h

/-- From the entry point on there is a witness for the constants. -/
theorem Program.entry_scoped {prog : Program} {s : SymState}
    (h : prog.entry.symbolic .new = some s) : s.Scoped := by
  have hone : SymState.Scoped (SymState.new.push .scalar R1CGen.new.freshWitness.1
      R1CGen.new.freshWitness.2) := by
    refine ⟨⟨Nat.one_pos, ?_, ?_, ?_⟩, ?_⟩
    · exact fun r hr => absurd hr List.not_mem_nil
    · exact fun t ht => absurd ht List.not_mem_nil
    · exact fun l hl => absurd hl List.not_mem_nil
    · refine Env.All.push (fun a ha => absurd ha List.not_mem_nil) (.lc fun t ht => ?_)
      rw [List.mem_singleton.mp ht]
      exact Nat.one_pos
  exact Program.symbolic_scoped hone h

end Mavros
