/-
# `Mavros.PassManager` — the cache of analyses

A pass names the analyses it needs and those it preserves.  Before it runs the manager
computes what is missing, dependencies first; after it the store keeps what the pass
preserves, and of that only what still has its dependencies.  So an analysis a pass reads
was computed from the program as it is, or as it was before passes that preserved it and
all it was computed from.

## What is modelled

`AnalysisStore` as the list of its entries, each with the dependencies noted when it was stored;
`applyPreserved` with its loop, which removes what has lost a dependency until there is no more of
it; `prepare`, which computes what is missing in the order of `Mavros.Lib.Toposort`; and `run` over
any list of passes.  The analyses are a parameter: an acyclic graph of dependencies, and a function
that computes each from the program and from what it depends on.

## What is proved

`analyses_never_stale`: whatever passes ran before, a pass is handed every analysis it needs, and
only analyses that are `Fresh`.  Fresh is inductive: the analysis was computed after some of the
passes, from the program as it was then and from a store of fresh analyses, and every pass since
preserves it with all it depends on.

`analyses_never_stale_rewriteJumps` is the theorem at the compiler's own graph of analyses.  A pass
says that it preserves the types and not the flow of control they depend on; they do not
survive it, and the next pass reads those of the new program.

## How it goes

The invariant (`UpToDate`) has three parts: what the store holds is fresh, it holds the
dependencies of what it holds, and the dependencies it has noted are those of the graph.  The last
two make `applyPreserved` keep just what is preserved with all it depends on
(`applyPreserved_spec`), and that is what keeps the first.
-/
import Mathlib.Data.List.AList
import Mathlib.Data.Fintype.EquivFin
import Mavros.Lib.Toposort

namespace Mavros.PassManager

open Lib

variable {Id : Type} [DecidableEq Id] {Val : Id → Type} {SSA : Type}

/-! ## The store

A map from the analysis to its value and dependencies.
-/

/-- `AnalysisStore`: an analysis and its dependencies under its type's identifier. -/
structure AnalysisStore (Val : Id → Type) where
  data : AList Val
  deps : AList fun _ : Id => List Id

namespace AnalysisStore

def new : AnalysisStore Val := ⟨∅, ∅⟩

/-- `try_get`. -/
def tryGet (s : AnalysisStore Val) (a : Id) : Option (Val a) := s.data.lookup a

def containsType (s : AnalysisStore Val) (a : Id) : Bool := a ∈ s.data

def insertWithDeps (a : Id) (val : Val a) (depIds : List Id) (s : AnalysisStore Val) :
    AnalysisStore Val :=
  { data := s.data.insert a val
    deps := if depIds.isEmpty then s.deps else s.deps.insert a depIds }

/-- The filter of `apply_preserved`. -/
def stale (preserved : List Id) (s : AnalysisStore Val) (a : Id) : Bool :=
  if !preserved.contains a then true
  else ((s.deps.lookup a).map fun deps => deps.any fun d => !s.containsType d).getD false

def removeAll (ids : List Id) (s : AnalysisStore Val) : AnalysisStore Val :=
  ids.foldl (fun s a => ⟨s.data.erase a, s.deps.erase a⟩) s

theorem lookup_removeAll (a : Id) : ∀ (ids : List Id) (s : AnalysisStore Val),
    (s.removeAll ids).data.lookup a = (if a ∈ ids then none else s.data.lookup a) ∧
      (s.removeAll ids).deps.lookup a = if a ∈ ids then none else s.deps.lookup a
  | [], s => by simp [removeAll]
  | b :: ids, s => by
    obtain ⟨hdata, hdeps⟩ := lookup_removeAll a ids ⟨s.data.erase b, s.deps.erase b⟩
    rw [removeAll, List.foldl_cons, ← removeAll, hdata, hdeps]
    by_cases hab : a = b
    · subst hab
      simp
    · simp [hab, AList.lookup_erase_ne hab]

theorem length_removeAll_le : ∀ (ids : List Id) (s : AnalysisStore Val),
    (s.removeAll ids).data.keys.length ≤ s.data.keys.length
  | [], _ => le_rfl
  | b :: ids, s => by
    refine (length_removeAll_le ids ⟨s.data.erase b, s.deps.erase b⟩).trans ?_
    rw [AList.keys_erase]
    exact List.length_erase_le

theorem length_removeAll_lt {ids : List Id} {s : AnalysisStore Val} (hne : ids ≠ [])
    (hids : ids ⊆ s.data.keys) : (s.removeAll ids).data.keys.length < s.data.keys.length := by
  cases ids with
  | nil => exact absurd rfl hne
  | cons b ids =>
    have hb : b ∈ s.data.keys := hids List.mem_cons_self
    refine (length_removeAll_le ids ⟨s.data.erase b, s.deps.erase b⟩).trans_lt ?_
    rw [AList.keys_erase, List.length_erase_of_mem hb]
    exact Nat.sub_lt (List.length_pos_of_mem hb) Nat.one_pos

/-- `apply_preserved`: remove what is not preserved and what lost a dependency, until
there is no more of it. -/
def applyPreserved (preserved : List Id) (s : AnalysisStore Val) : AnalysisStore Val :=
  if _h : s.data.keys.filter (s.stale preserved) = [] then s
  else applyPreserved preserved (s.removeAll (s.data.keys.filter (s.stale preserved)))
termination_by s.data.keys.length
decreasing_by exact length_removeAll_lt _h (List.filter_subset_self _)

end AnalysisStore

/-! ## Passes

What a pass declares, what it does, and the manager around it.
-/

/-- The analyses: what each depends on, and how it is computed. -/
structure Analyses (Val : Id → Type) (SSA : Type) extends DepGraph Id where
  compute : (a : Id) → SSA → AnalysisStore Val → Val a

structure Pass (Val : Id → Type) (SSA : Type) where
  needs : List Id
  run : SSA → AnalysisStore Val → SSA
  preserves : List Id

/-- The program, and the manager's store. -/
structure State (Val : Id → Type) (SSA : Type) where
  ssa : SSA
  analyses : AnalysisStore Val

namespace Analyses

variable (g : Analyses Val SSA)

/-- `AnalysisId::compute_and_store`. -/
def computeAndStore (ssa : SSA) (s : AnalysisStore Val) (a : Id) : AnalysisStore Val :=
  if s.containsType a then s else s.insertWithDeps a (g.compute a ssa s) (g.dependencies a)

/-- The store `run_pass` hands to the pass. -/
def prepare (needs : List Id) (st : State Val SSA) : AnalysisStore Val :=
  (g.topoSort st.analyses.containsType needs).foldl (g.computeAndStore st.ssa) st.analyses

def runPass (st : State Val SSA) (pass : Pass Val SSA) : State Val SSA :=
  let analyses := g.prepare pass.needs st
  { ssa := pass.run st.ssa analyses
    analyses := analyses.applyPreserved pass.preserves }

/-- `PassManager::run` on a program. -/
def run (passes : List (Pass Val SSA)) (ssa : SSA) : State Val SSA :=
  passes.foldl g.runPass ⟨ssa, .new⟩

/-! ## Fresh analyses

What is to be shown of a store, and how removal keeps it.
-/

/-- After `n` passes the value of an analysis is up to date: it was computed after `j` of
them, from that program and a store of analyses up to date then, and the passes since
preserved it and all it depends on. -/
inductive Fresh (passes : List (Pass Val SSA)) (ssa : SSA) : Nat → (a : Id) → Val a → Prop
  | intro {n j : Nat} {a : Id} {s : AnalysisStore Val} (hjn : j ≤ n)
      (hstore : ∀ d v, s.tryGet d = some v → Fresh passes ssa j d v)
      (hdeps : ∀ d ∈ g.dependencies a, (s.tryGet d).isSome)
      (hkept : ∀ i p, j ≤ i → i < n → passes[i]? = some p → ∀ d, g.Uses a d → d ∈ p.preserves) :
      Fresh passes ssa n a (g.compute a (g.run (passes.take j) ssa).ssa s)

/-- The store holds the dependencies of what it holds. -/
def Closed (s : AnalysisStore Val) : Prop :=
  ∀ a ∈ s.data, ∀ d ∈ g.dependencies a, d ∈ s.data

/-- The dependencies in the store are those of the analyses it holds. -/
def Recorded (s : AnalysisStore Val) : Prop :=
  ∀ a, s.deps.lookup a =
    if a ∈ s.data ∧ g.dependencies a ≠ [] then some (g.dependencies a) else none

variable {g} {s s' : AnalysisStore Val} {a d : Id}

omit [DecidableEq Id] in
theorem Closed.uses (h : g.Closed s) (ha : a ∈ s.data) (hd : g.Uses a d) : d ∈ s.data := by
  induction hd with
  | refl => exact ha
  | tail _ hdep ih => exact h _ ih _ hdep

theorem mem_removeAll {ids : List Id} : a ∈ (s.removeAll ids).data ↔ a ∉ ids ∧ a ∈ s.data := by
  rw [← AList.lookup_isSome, (AnalysisStore.lookup_removeAll a ids s).1, ← AList.lookup_isSome]
  split <;> simp_all

theorem Recorded.removeAll (h : g.Recorded s) (ids : List Id) :
    g.Recorded (s.removeAll ids) := by
  intro a
  rw [(AnalysisStore.lookup_removeAll a ids s).2, h a]
  by_cases ha : a ∈ ids <;> simp [mem_removeAll, ha]

theorem Recorded.insert (h : g.Recorded s) (hnew : a ∉ s.data) (v : Val a) :
    g.Recorded (s.insertWithDeps a v (g.dependencies a)) := by
  intro b
  have hold := h b
  simp only [AnalysisStore.insertWithDeps, List.isEmpty_iff, AList.mem_insert]
  by_cases hba : b = a
  · subst hba
    split
    · next hnone => simp [hold, hnone]
    · next hsome => simp [hsome]
  · split
    · simp [hba, hold]
    · simp [hba, hold, AList.lookup_insert_ne hba]

theorem stale_iff (h : g.Recorded s) (ha : a ∈ s.data) {preserved : List Id} :
    s.stale preserved a = true ↔ a ∉ preserved ∨ ∃ d ∈ g.dependencies a, d ∉ s.data := by
  by_cases hpres : a ∈ preserved
  · rw [AnalysisStore.stale, h a]
    by_cases hdeps : g.dependencies a = []
    · simp [hpres, hdeps]
    · simp [hpres, hdeps, ha, AnalysisStore.containsType]
  · simp [AnalysisStore.stale, hpres]

/-- The analysis and all it depends on are preserved. -/
def Kept (g : Analyses Val SSA) (preserved : List Id) (a : Id) : Prop :=
  ∀ d, g.Uses a d → d ∈ preserved

/-- What a store loses on the way from another is not kept. -/
structure Within (g : Analyses Val SSA) (preserved : List Id) (s₀ s : AnalysisStore Val) :
    Prop where
  recorded : g.Recorded s
  old : ∀ a v, s.tryGet a = some v → s₀.tryGet a = some v
  kept : ∀ a v, g.Kept preserved a → s₀.tryGet a = some v → s.tryGet a = some v

theorem mem_of_tryGet {v : Val a} (h : s.tryGet a = some v) : a ∈ s.data :=
  AList.lookup_isSome.mp (Option.isSome_of_eq_some h)

theorem tryGet_of_mem (h : a ∈ s.data) : ∃ v, s.tryGet a = some v :=
  Option.isSome_iff_exists.mp (AList.lookup_isSome.mpr h)

/-- One round of `apply_preserved`. -/
theorem Within.round {preserved : List Id} {s₀ : AnalysisStore Val} (hclosed : g.Closed s₀)
    (h : g.Within preserved s₀ s) :
    g.Within preserved s₀ (s.removeAll (s.data.keys.filter (s.stale preserved))) := by
  refine ⟨h.recorded.removeAll _, ?_, ?_⟩
  · intro a v hv
    rw [AnalysisStore.tryGet, (AnalysisStore.lookup_removeAll a _ s).1] at hv
    split at hv
    · cases hv
    · exact h.old a v hv
  · intro a v hkept hv
    have hmem : ∀ {d}, g.Uses a d → d ∈ s.data := by
      intro d hd
      obtain ⟨w, hw⟩ := tryGet_of_mem (hclosed.uses (mem_of_tryGet hv) hd)
      exact mem_of_tryGet (h.kept d w (fun b hb => hkept b (hd.trans hb)) hw)
    have hfresh : ¬ s.stale preserved a = true := by
      rw [stale_iff h.recorded (hmem .refl), not_or, not_not, not_exists]
      refine ⟨hkept a .refl, fun d hd => hd.2 (hmem (.single hd.1))⟩
    rw [AnalysisStore.tryGet, (AnalysisStore.lookup_removeAll a _ s).1, if_neg ?_]
    · exact h.kept a v hkept hv
    · exact fun hstale => hfresh (List.mem_filter.mp hstale).2

/-- Nothing is stale in the store `apply_preserved` stops at. -/
theorem Within.applyPreserved {preserved : List Id} {s₀ : AnalysisStore Val}
    (hclosed : g.Closed s₀) : ∀ {s : AnalysisStore Val}, g.Within preserved s₀ s →
      g.Within preserved s₀ (s.applyPreserved preserved) ∧
        ∀ a ∈ (s.applyPreserved preserved).data,
          ¬ (s.applyPreserved preserved).stale preserved a = true := by
  intro s h
  induction s using AnalysisStore.applyPreserved.induct preserved with
  | case1 s hnone =>
    rw [AnalysisStore.applyPreserved, dif_pos hnone]
    exact ⟨h, fun a ha => List.filter_eq_nil_iff.mp hnone a ha⟩
  | case2 s hsome ih =>
    rw [AnalysisStore.applyPreserved, dif_neg hsome]
    exact ih (h.round hclosed)

/-- `apply_preserved` keeps the analyses that are preserved with all they depend on. -/
theorem applyPreserved_spec (preserved : List Id) (hrec : g.Recorded s) (hclosed : g.Closed s) :
    g.Recorded (s.applyPreserved preserved) ∧ g.Closed (s.applyPreserved preserved) ∧
      ∀ a v, (s.applyPreserved preserved).tryGet a = some v ↔
        s.tryGet a = some v ∧ g.Kept preserved a := by
  obtain ⟨hwithin, hstale⟩ := Within.applyPreserved hclosed
    (⟨hrec, fun _ _ hv => hv, fun _ _ _ hv => hv⟩ : g.Within preserved s s)
  have hfresh : ∀ a ∈ (s.applyPreserved preserved).data, a ∈ preserved ∧
      ∀ d ∈ g.dependencies a, d ∈ (s.applyPreserved preserved).data := by
    intro a ha
    have hnot := hstale a ha
    rw [stale_iff hwithin.recorded ha, not_or, not_not] at hnot
    refine ⟨hnot.1, fun d hd => ?_⟩
    by_contra hlost
    exact hnot.2 ⟨d, hd, hlost⟩
  have hclosed' : g.Closed (s.applyPreserved preserved) := fun a ha => (hfresh a ha).2
  refine ⟨hwithin.recorded, hclosed', fun a v => ⟨fun hv => ?_, fun hv => ?_⟩⟩
  · exact ⟨hwithin.old a v hv, fun d hd => (hfresh d (hclosed'.uses (mem_of_tryGet hv) hd)).1⟩
  · exact hwithin.kept a v hv.2 hv.1

/-! ## Runs -/

variable {passes : List (Pass Val SSA)} {ssa : SSA} {n : Nat}

/-- The store after `n` passes. -/
structure UpToDate (g : Analyses Val SSA) (passes : List (Pass Val SSA)) (ssa : SSA) (n : Nat)
    (s : AnalysisStore Val) : Prop where
  recorded : g.Recorded s
  closed : g.Closed s
  fresh : ∀ a v, s.tryGet a = some v → g.Fresh passes ssa n a v

theorem UpToDate.new : g.UpToDate passes ssa 0 .new := by
  refine ⟨fun a => ?_, fun a ha => absurd ha (AList.notMem_empty a), fun a v hv => ?_⟩
  · simp [AnalysisStore.new]
  · cases hv

theorem tryGet_insert_self (v : Val a) (ids : List Id) :
    (s.insertWithDeps a v ids).tryGet a = some v := AList.lookup_insert _

theorem tryGet_insert_ne {b : Id} (h : b ≠ a) (v : Val a) (ids : List Id) :
    (s.insertWithDeps a v ids).tryGet b = s.tryGet b := AList.lookup_insert_ne h

/-- An analysis whose dependencies are there. -/
theorem UpToDate.computeAndStore (h : g.UpToDate passes ssa n s)
    (hdeps : ∀ d ∈ g.dependencies a, d ∈ s.data) :
    g.UpToDate passes ssa n (g.computeAndStore (g.run (passes.take n) ssa).ssa s a) ∧
      (∀ b ∈ s.data, b ∈ (g.computeAndStore (g.run (passes.take n) ssa).ssa s a).data) ∧
      a ∈ (g.computeAndStore (g.run (passes.take n) ssa).ssa s a).data := by
  rw [Analyses.computeAndStore]
  split
  · next hhas => exact ⟨h, fun _ hb => hb, of_decide_eq_true hhas⟩
  · next hnew =>
    have hnew : a ∉ s.data := fun ha => hnew (decide_eq_true ha)
    refine ⟨⟨h.recorded.insert hnew _, ?_, ?_⟩, ?_, ?_⟩
    · intro b hb d hd
      rw [AnalysisStore.insertWithDeps, AList.mem_insert] at hb ⊢
      rcases hb with rfl | hb
      · exact .inr (hdeps d hd)
      · exact .inr (h.closed b hb d hd)
    · intro b v hv
      by_cases hba : b = a
      · subst hba
        rw [tryGet_insert_self] at hv
        obtain rfl := Option.some.inj hv
        refine .intro le_rfl h.fresh (fun d hd => AList.lookup_isSome.mpr (hdeps d hd)) ?_
        intro i p hni hin
        exact absurd hin (Nat.not_lt.mpr hni)
      · rw [tryGet_insert_ne hba] at hv
        exact h.fresh b v hv
    · intro b hb
      exact AList.mem_insert _ |>.mpr (.inr hb)
    · exact AList.mem_insert _ |>.mpr (.inl rfl)

/-- Analyses in the order of their dependencies. -/
theorem UpToDate.foldl_computeAndStore (h : g.UpToDate passes ssa n s) {known : Id → Bool}
    (hknown : ∀ d, known d = true → d ∈ s.data) {ids : List Id}
    (hids : g.Ordered known ids) :
    g.UpToDate passes ssa n (ids.foldl (g.computeAndStore (g.run (passes.take n) ssa).ssa) s) ∧
      (∀ b ∈ s.data,
        b ∈ (ids.foldl (g.computeAndStore (g.run (passes.take n) ssa).ssa) s).data) ∧
      ∀ b ∈ ids, b ∈ (ids.foldl (g.computeAndStore (g.run (passes.take n) ssa).ssa) s).data := by
  induction hids with
  | nil => exact ⟨h, fun _ hb => hb, fun _ hb => absurd hb List.not_mem_nil⟩
  | @snoc ids a _ hdeps ih =>
    obtain ⟨hdate, hkeep, hhas⟩ := ih
    rw [List.foldl_append, List.foldl_cons, List.foldl_nil]
    obtain ⟨hdate', hkeep', hhas'⟩ := hdate.computeAndStore (a := a) fun d hd =>
      (hdeps d hd).elim (fun hd => hkeep d (hknown d hd)) (hhas d)
    refine ⟨hdate', fun b hb => hkeep' b (hkeep b hb), fun b hb => ?_⟩
    rcases List.mem_append.mp hb with hb | hb
    · exact hkeep' b (hhas b hb)
    · obtain rfl := List.mem_singleton.mp hb
      exact hhas'

/-- What a pass is handed. -/
theorem UpToDate.prepare (needs : List Id)
    (h : g.UpToDate passes ssa n (g.run (passes.take n) ssa).analyses) :
    g.UpToDate passes ssa n (g.prepare needs (g.run (passes.take n) ssa)) ∧
      ∀ a ∈ needs, a ∈ (g.prepare needs (g.run (passes.take n) ssa)).data := by
  have hknown : ∀ d, (g.run (passes.take n) ssa).analyses.containsType d = true →
      d ∈ (g.run (passes.take n) ssa).analyses.data := fun d hd => of_decide_eq_true hd
  obtain ⟨hdate, hkeep, hhas⟩ := h.foldl_computeAndStore hknown (g.topoSort_ordered needs)
  refine ⟨hdate, fun a ha => ?_⟩
  rcases g.mem_topoSort ha with hin | hin
  · exact hkeep a (hknown a hin)
  · exact hhas a hin

/-- A pass that keeps an analysis leaves it fresh. -/
theorem Fresh.step {pass : Pass Val SSA} {v : Val a} (h : g.Fresh passes ssa n a v)
    (hpass : passes[n]? = some pass) (hkept : g.Kept pass.preserves a) :
    g.Fresh passes ssa (n + 1) a v := by
  cases h with
  | intro hjn hstore hdeps hsince =>
    refine .intro (Nat.le_succ_of_le hjn) hstore hdeps ?_
    intro i p hji hin hp
    rcases Nat.lt_succ_iff_lt_or_eq.mp hin with hin | rfl
    · exact hsince i p hji hin hp
    · obtain rfl := Option.some.inj (hpass.symm.trans hp)
      exact hkept

theorem run_take_succ {pass : Pass Val SSA} (hpass : passes[n]? = some pass) :
    g.run (passes.take (n + 1)) ssa = g.runPass (g.run (passes.take n) ssa) pass := by
  rw [run, run, List.take_add_one, hpass, Option.toList_some, List.foldl_append]
  rfl

/-- Every store of a run is up to date. -/
theorem upToDate_run : ∀ n ≤ passes.length,
    g.UpToDate passes ssa n (g.run (passes.take n) ssa).analyses := by
  intro n hn
  induction n with
  | zero => exact UpToDate.new
  | succ n ih =>
    have hpass : passes[n]? = some passes[n] := List.getElem?_eq_getElem hn
    obtain ⟨hdate, _⟩ := (ih (Nat.le_of_succ_le hn)).prepare passes[n].needs
    obtain ⟨hrec, hclosed, hspec⟩ :=
      applyPreserved_spec passes[n].preserves hdate.recorded hdate.closed
    rw [run_take_succ hpass]
    refine ⟨hrec, hclosed, fun a v hv => ?_⟩
    obtain ⟨hold, hkept⟩ := (hspec a v).mp hv
    exact (hdate.fresh a v hold).step hpass hkept

end Analyses

/-- Whatever passes ran before, a pass is handed every analysis it needs, and only
analyses that are up to date.  Of them the store keeps those that the pass preserves with
all they depend on, so that nothing stays without what it depends on. -/
theorem analyses_never_stale (g : Analyses Val SSA) (before : List (Pass Val SSA))
    (pass : Pass Val SSA) (ssa : SSA) :
    (∀ a ∈ pass.needs, ((g.prepare pass.needs (g.run before ssa)).tryGet a).isSome) ∧
    (∀ a v, (g.prepare pass.needs (g.run before ssa)).tryGet a = some v →
      g.Fresh before ssa before.length a v) ∧
    (∀ a v, (g.run (before ++ [pass]) ssa).analyses.tryGet a = some v ↔
      (g.prepare pass.needs (g.run before ssa)).tryGet a = some v ∧
        ∀ d, g.Uses a d → d ∈ pass.preserves) ∧
    ∀ a d, ((g.run (before ++ [pass]) ssa).analyses.tryGet a).isSome → g.Uses a d →
      ((g.run (before ++ [pass]) ssa).analyses.tryGet d).isSome := by
  have hrun : g.UpToDate before ssa before.length
      (g.run (before.take before.length) ssa).analyses :=
    Analyses.upToDate_run before.length le_rfl
  obtain ⟨hdate, hneeds⟩ := hrun.prepare pass.needs
  rw [List.take_length] at hdate hneeds
  obtain ⟨_, hclosed, hspec⟩ :=
    Analyses.applyPreserved_spec pass.preserves hdate.recorded hdate.closed
  have hlast : (g.run (before ++ [pass]) ssa).analyses
      = (g.prepare pass.needs (g.run before ssa)).applyPreserved pass.preserves := by
    rw [Analyses.run, List.foldl_append]
    rfl
  rw [hlast]
  refine ⟨fun a ha => AList.lookup_isSome.mpr (hneeds a ha), hdate.fresh, hspec, ?_⟩
  intro a d ha hd
  exact AList.lookup_isSome.mpr (hclosed.uses (AList.lookup_isSome.mp ha) hd)

/-! ## The analyses of the compiler

What the passes over `HLSSA` read.  They stand in a graph of four nodes, in which everything but
the flow of control depends on it. -/

inductive HlssaAnalysis where
  | flowAnalysis
  | typeInfo
  | valueRanges
  | summary
deriving DecidableEq

namespace HlssaAnalysis

def dependencies : HlssaAnalysis → List HlssaAnalysis
  | flowAnalysis => []
  | typeInfo => [flowAnalysis]
  | valueRanges => [flowAnalysis, typeInfo]
  | summary => [typeInfo]

/-- What is computed before has the lower rank. -/
def rank : HlssaAnalysis → Nat
  | flowAnalysis => 0
  | typeInfo => 1
  | valueRanges | summary => 2

theorem rank_lt {d a : HlssaAnalysis} (h : d ∈ a.dependencies) : d.rank < a.rank := by
  cases a <;> cases d <;> simp [dependencies] at h <;> decide

theorem rank_lt_of_transGen {d a : HlssaAnalysis}
    (h : Relation.TransGen (fun d a => d ∈ dependencies a) d a) : d.rank < a.rank := by
  induction h with
  | single h => exact rank_lt h
  | tail _ h ih => exact ih.trans (rank_lt h)

theorem finite : Finite HlssaAnalysis := by
  refine .of_surjective
    (fun i : Fin 4 => [flowAnalysis, typeInfo, valueRanges, summary].get i) fun a => ?_
  cases a
  exacts [⟨0, rfl⟩, ⟨1, rfl⟩, ⟨2, rfl⟩, ⟨3, rfl⟩]

def graph : DepGraph HlssaAnalysis :=
  haveI := finite
  .ofIrrefl dependencies fun _ h => Nat.lt_irrefl _ (rank_lt_of_transGen h)

end HlssaAnalysis

/-- Each analysis tells which version of the program it was computed from. -/
def versions : Analyses (fun _ : HlssaAnalysis => Nat) Nat where
  toDepGraph := HlssaAnalysis.graph
  compute _ version _ := version

/-- A pass that preserves types and ranges, it says, but not the flow of control they depend on. -/
def rewriteJumps : Pass (fun _ : HlssaAnalysis => Nat) Nat where
  needs := [.valueRanges]
  run version _ := version + 1
  preserves := [.typeInfo, .valueRanges]

def readTypes : Pass (fun _ : HlssaAnalysis => Nat) Nat where
  needs := [.typeInfo]
  run version _ := version
  preserves := [.flowAnalysis, .typeInfo, .valueRanges, .summary]

/-- The types do not survive the flow of control they were computed from, and the next pass reads
those of the new program. -/
theorem analyses_never_stale_rewriteJumps :
    (versions.run ([] ++ [rewriteJumps]) 0).analyses.tryGet .typeInfo = none ∧
      (versions.prepare readTypes.needs (versions.run [rewriteJumps] 0)).tryGet .typeInfo
        = some 1 := by
  have hdep : .flowAnalysis ∈ HlssaAnalysis.dependencies .typeInfo := by decide
  have huses : versions.Uses .typeInfo .flowAnalysis := .single hdep
  have hlost : HlssaAnalysis.flowAnalysis ∉ rewriteJumps.preserves := by decide
  obtain ⟨-, -, hkept, -⟩ := analyses_never_stale versions [] rewriteJumps 0
  obtain ⟨hneeds, hfresh, -, -⟩ := analyses_never_stale versions [rewriteJumps] readTypes 0
  constructor
  · rw [Option.eq_none_iff_forall_ne_some]
    intro v hv
    exact hlost (((hkept .typeInfo v).mp hv).2 _ huses)
  · obtain ⟨v, hv⟩ := Option.isSome_iff_exists.mp (hneeds .typeInfo List.mem_cons_self)
    rw [hv]
    obtain ⟨hjn, -, -, hsince⟩ := hfresh .typeInfo v hv
    rename_i j s
    rcases Nat.le_one_iff_eq_zero_or_eq_one.mp hjn with rfl | rfl
    · exact absurd (hsince 0 rewriteJumps le_rfl Nat.one_pos rfl _ huses) hlost
    · rfl

end Mavros.PassManager
