/-
# `Mavros.Passes.SimplifierWalk` — one walk of the simplifier

An alias is sound when, wherever its result is available, the target is available too and
reads the same.  Sound aliases chain, so at each instruction the operands brought up to
date read what the original operands read, and the rules apply there.  A walk all of whose
rewritings meet the condition gives a rewritten function.

## What is proved

* `Links.reads`, `Links.available`: following sound aliases to the end gives an available value
  that reads the same and has no alias itself.
* `Running.known`: at each instruction the rules have what they need to know of its operands.
* `Running.link`: the alias made by a rule that keeps the value is sound.
* `Running.walked`, `Running.blocksWalked`: a block, and all blocks, whose rewritings meet the
  condition.

## How it goes

The walk sees blocks in domination pre-order and the proof follows it, with the invariant that
all aliases so far are sound.  A fact about values that holds when an instruction has run holds
wherever its result is available, by `Reached.persists`; without it an alias found in a loop
would be known for one turn only.

What is written for an instruction depends on the aliases at that moment, so `Walked` relates the
instruction to what was written together with the aliases of the end.
-/
import Mavros.Hlssa.Rewriting
import Mavros.Lib.Lists
import Mavros.Passes.SimplifierSound

namespace Mavros.Simplifier

open Hlssa
open Lib (Reachable mem_of_lookup_eq_some lookup_of_mem mapM_eq_some)

/-! ## Setting

A typed function and its runs from one initial state.
-/

/-- A function that is in strict single-assignment form over constants that have been
interned, with ids handed out so far. -/
structure FunctionOk (f : Function) (c : Constants) : Prop where
  keys : (f.blocks.map Prod.fst).Nodup
  ssa : f.SingleAssignment c.table
  strict : f.Strict c.table
  below : ∀ b v, f.DefinedIn b v → v < c.nextValueId
  terminated : ∀ b block, f.block b = some block → ∃ t, block.terminator = some t

section Extend

variable {f : Function} {c c' : Constants}

theorem available_extend (hwf : c.WF) (hext : c.Extends c') {b : BlockId} {pre : List OpCode}
    {v : ValueId} (h : f.Available c.table b pre v) : f.Available c'.table b pre v := by
  cases h with
  | constant h =>
    obtain ⟨k, hk⟩ := Option.isSome_iff_exists.mp h
    exact .constant (by rw [hext.some hwf hk]; rfl)
  | param h hv => exact .param h hv
  | result hv => exact .result hv
  | dominated hne hdom hdef => exact .dominated hne hdom hdef

theorem available_lt (hwf : c.WF) (hok : FunctionOk f c) {b : BlockId} {block : Block}
    {pre post : List OpCode} (hblock : f.block b = some block)
    (hsplit : block.instructions = pre ++ post) {v : ValueId}
    (h : f.Available c.table b pre v) : v < c.nextValueId := by
  cases h with
  | constant h =>
    obtain ⟨k, hk⟩ := Option.isSome_iff_exists.mp h
    exact hwf.lt hk
  | param h hv => exact hok.below b v ⟨_, h, List.mem_append_left _ hv⟩
  | result hv =>
    refine hok.below b v ⟨block, hblock, List.mem_append_right _ ?_⟩
    rw [hsplit, List.flatMap_append]
    exact List.mem_append_left _ hv
  | @dominated d hne hdom hdef => exact hok.below d v hdef

theorem FunctionOk.extend (hok : FunctionOk f c) (hwf : c.WF) (hext : c.Extends c') :
    FunctionOk f c' where
  keys := hok.keys
  ssa := ⟨hok.ssa.once, hok.ssa.block, fun b v hv => by
    rw [hext.lookup v (hok.below b v hv)]
    exact hok.ssa.noConstant b v hv⟩
  strict := ⟨fun b block pre op post hb hblock hsplit v hv =>
    available_extend hwf hext (hok.strict.instruction b block pre op post hb hblock hsplit v hv),
    fun b block t hb hblock ht v hv =>
      available_extend hwf hext (hok.strict.terminator b block t hb hblock ht v hv)⟩
  below b v hv := (hok.below b v hv).trans_le hext.le
  terminated := hok.terminated

end Extend

theorem read_lt {V W : Type} {S : Sem V W} {c c' : Constants} (hext : c.Extends c') {v : ValueId}
    (hv : v < c.nextValueId) (env : Env V) :
    Env.read (S.table c'.table) env v = Env.read (S.table c.table) env v := by
  rw [Env.read, Env.read, Sem.table, Sem.table, hext.lookup v hv]

section Running

variable {A W : Type} [DecidableEq (Value A)]

/-- Runs of a typed function from one initial state. -/
structure Running (C : Completion A W)
    (signatures : FunctionId → Option (List TypeExpr × List TypeExpr)) (f : Function)
    (c : Constants) (types : ValueId → Option TypeExpr) (init : State (Value A) W) : Prop where
  completion : C.Typed signatures
  wf : c.WF
  ok : FunctionOk f c
  typing : f.Typing signatures c.table types
  initial : f.Initial init
  entry : ∀ s older, Run (valueSem C) ((valueSem C).table c.table) f init (s :: older) →
    ParamsTyped f s

variable {C : Completion A W}
  {signatures : FunctionId → Option (List TypeExpr × List TypeExpr)} {f : Function}
  {c c' : Constants} {types : ValueId → Option TypeExpr} {init s : State (Value A) W}
  {older : List (State (Value A) W)} {block : Block} {pre post : List OpCode}
  {env : Env (Value A)} {w : W}

theorem Running.bound (h : Running C signatures f c types init) : ParamsBound f init := by
  intro block hblock v hv
  obtain ⟨p, hp, rfl⟩ := List.mem_map.mp hv
  obtain ⟨x, hx, -⟩ := h.entry init [] .start block hblock p hp
  exact ⟨x, hx⟩

theorem Running.hasTypes (h : Running C signatures f c types init)
    (hreached : Reached (valueSem C) ((valueSem C).table c.table) f init s older block pre post
      env w) : HasTypes types env :=
  hreached.hasTypes h.completion h.typing h.initial h.entry

/-- What the run reads where an instruction stands. -/
theorem Running.read_inputs (h : Running C signatures f c types init) (hext : c.Extends c')
    {op : OpCode}
    (hreached : Reached (valueSem C) ((valueSem C).table c.table) f init s older block pre
      (op :: post) env w) : ∀ v ∈ op.inputs, ∃ x,
        Env.read ((valueSem C).table c.table) env v = some x ∧
          Env.read ((valueSem C).table c'.table) env v = some x ∧ types v = some x.type := by
  intro v hv
  have havail := h.ok.strict.instruction _ block pre op post (hreached.reachable h.initial)
    hreached.atBlock hreached.split v hv
  have hlt := available_lt h.wf h.ok hreached.atBlock hreached.split havail
  obtain ⟨x, hx⟩ := hreached.bound h.initial h.bound havail
  exact ⟨x, hx, (read_lt hext hlt env).trans hx, (h.hasTypes hreached).read h.typing hx⟩

theorem mapM_bindAll {V : Type} {vs : List ValueId} {xs : List V} (hnodup : vs.Nodup)
    (hlen : xs.length = vs.length) (env : Env V) : vs.mapM (env.bindAll vs xs) = some xs := by
  induction vs generalizing env xs with
  | nil =>
    obtain rfl := List.length_eq_zero_iff.mp hlen
    rfl
  | cons v vs ih =>
    cases xs with
    | nil => simp at hlen
    | cons x xs =>
      rw [List.nodup_cons] at hnodup
      have hv : env.bindAll (v :: vs) (x :: xs) v = some x :=
        (Env.bindAll_of_notMem hnodup.1 _ _).trans (Function.update_self ..)
      have hvs : vs.mapM (env.bindAll (v :: vs) (x :: xs)) = some xs :=
        ih hnodup.2 (Nat.succ.inj hlen) _
      rw [List.mapM_cons, hv, hvs]
      rfl

theorem mapM_congr_left {α β : Type} {g g' : α → Option β} {vs : List α}
    (h : ∀ v ∈ vs, g' v = g v) : vs.mapM g' = vs.mapM g := by
  induction vs with
  | nil => rfl
  | cons v vs ih =>
    rw [List.forall_mem_cons] at h
    rw [List.mapM_cons, List.mapM_cons, h.1, ih h.2]

theorem mapM_eq_some_mem {α β : Type} {g : α → Option β} {vs : List α} {xs : List β}
    (h : vs.mapM g = some xs) {v : α} (hv : v ∈ vs) : ∃ x, g v = some x := by
  induction vs generalizing xs with
  | nil => simp at hv
  | cons u vs ih =>
    simp only [List.mapM_cons, Option.bind_eq_bind, Option.bind_eq_some_iff, Option.pure_def,
      Option.some.injEq] at h
    obtain ⟨x, hx, ys, hys, -⟩ := h
    rcases List.mem_cons.mp hv with rfl | hv
    · exact ⟨x, hx⟩
    · exact ih hys hv

omit [DecidableEq (Value A)] in
/-- An equation speaks about the values of its instruction. -/
theorem Equation.congr {g g' : ValueId → Option (Value A)} {d : OpCode}
    (hg : ∀ v ∈ d.inputs ++ d.results, g' v = g v) (h : Equation C signatures g d) :
    Equation C signatures g' d := by
  obtain ⟨xs, ys, w, w', rs, hxs, hop, hys, hrs⟩ := h
  refine ⟨xs, ys, w, w', rs, ?_, hop, ?_, ?_⟩
  · rw [mapM_congr_left fun v hv => hg v (List.mem_append_left _ hv), hxs]
  · rw [mapM_congr_left fun v hv => hg v (List.mem_append_right _ hv), hys]
  · refine OpCode.resultTypes_mono (fun v hv t ht => ?_) hrs
    rwa [hg v (List.mem_append_left _ hv)]

omit [DecidableEq (Value A)] in
/-- A result that is not a constant reads as it is bound. -/
theorem read_defined {S : Sem (Value A) W} {b : BlockId} (hok : FunctionOk f c)
    (hext : c.Extends c')
    {v : ValueId} (hv : f.DefinedIn b v) : Env.read (S.table c'.table) env v = env v := by
  rw [read_lt hext (hok.below b v hv), Env.read, Sem.table, hok.ssa.noConstant b v hv]
  rfl

/-- Right after an instruction its equation holds. -/
theorem Running.equation_after (h : Running C signatures f c types init) (hext : c.Extends c')
    {d : OpCode} (hreached : Reached (valueSem C) ((valueSem C).table c.table) f init s older block
      (pre ++ [d]) post env w) :
    Equation C signatures (Env.read ((valueSem C).table c'.table) env) d := by
  obtain ⟨env₀, w₀, hreached₀, -⟩ := hreached.earlier
  have hexec := hreached.exec
  rw [execInstructions_append, hreached₀.exec] at hexec
  simp only [execInstructions] at hexec
  split at hexec
  · simp at hexec
  · next w₁ env₁ h₁ =>
    obtain rfl := Option.some.inj (Prod.mk.inj hexec).2
    obtain ⟨xs, ys, hxs, hop, hlen, henv⟩ := execInstruction_eq_some h₁
    have hdefs : ∀ v ∈ d.results, f.DefinedIn s.block v := fun v hv =>
      ⟨block, hreached.atBlock, List.mem_append_right _ (by rw [hreached.split]; simp [hv])⟩
    have hnodup : d.results.Nodup := by
      have honce := (List.nodup_append.mp (h.ok.ssa.once _ block hreached.atBlock)).2.1
      rw [hreached.split, List.flatMap_append, List.flatMap_append, List.nodup_append,
        List.nodup_append] at honce
      simpa using honce.1.2.1
    -- an input is not a result: it is available before
    have hkeep : ∀ v ∈ d.inputs, Env.read ((valueSem C).table c'.table) env₁ v
        = Env.read ((valueSem C).table c.table) env₀ v := by
      intro v hv
      have hsplit₀ : block.instructions = pre ++ d :: post := by simpa using hreached₀.split
      have havail := h.ok.strict.instruction _ block pre d post (hreached.reachable h.initial)
        hreached.atBlock hsplit₀ v hv
      have hnot := havail.notMem_later h.ok.ssa hreached.atBlock hsplit₀
      rw [read_lt hext (available_lt h.wf h.ok hreached.atBlock hsplit₀ havail), Env.read, Env.read,
        execInstruction_frame h₁ fun hmem => hnot (by simp [hmem])]
    obtain ⟨rs, hrs, -⟩ := h.typing.instruction _ block (hreached.reachable h.initial)
      hreached.atBlock d (by rw [hreached.split]; simp)
    refine ⟨xs, ys, w₀, w₁, rs, ?_, hop, ?_, ?_⟩
    · rw [mapM_congr_left hkeep, hxs]
    · rw [mapM_congr_left fun v hv => read_defined h.ok hext (hdefs v hv), henv]
      exact mapM_bindAll hnodup hlen env₀
    · refine OpCode.resultTypes_mono (fun v hv t ht => ?_) hrs
      obtain ⟨x, hx⟩ := mapM_eq_some_mem hxs hv
      have htype := (h.hasTypes hreached₀).read h.typing hx
      rw [hkeep v hv, hx]
      exact htype.symm.trans ht

/-- The definition of an available value holds. -/
theorem Running.equation (h : Running C signatures f c types init) (hext : c.Extends c')
    (hreached : Reached (valueSem C) ((valueSem C).table c.table) f init s older block pre post
      env w) {v : ValueId} (hv : f.Available c'.table s.block pre v) {d : BlockId} {dblock : Block}
    {dpre dpost : List OpCode} {op : OpCode} (hd : f.block d = some dblock)
    (hdsplit : dblock.instructions = dpre ++ op :: dpost) (hres : v ∈ op.results) :
    f.After d (dpre ++ [op]) s.block pre ∧
      Equation C signatures (Env.read ((valueSem C).table c'.table) env) op := by
  have hok' := h.ok.extend h.wf hext
  have hafter := hv.after hok'.ssa hreached.atBlock hreached.split hd hdsplit hres
  have hdreach : Reachable f.entryBlock f.Edge d := by
    rcases hafter with ⟨rfl, -⟩ | ⟨-, hdom⟩
    · exact hreached.reachable h.initial
    · exact hdom.reachable (hreached.reachable h.initial)
  have hdsplit' : dblock.instructions = (dpre ++ [op]) ++ dpost := by rw [hdsplit]; simp
  have hvs : ∀ u ∈ op.inputs ++ op.results, f.Available c'.table d (dpre ++ [op]) u := by
    intro u hu
    rcases List.mem_append.mp hu with hu | hu
    · exact (hok'.strict.instruction d dblock dpre op dpost hdreach hd hdsplit u hu).append _
    · exact .result (by simp [hu])
  have hpersists : (fun e : Env (Value A) =>
      Equation C signatures (Env.read ((valueSem C).table c'.table) e) op) env := by
    refine hreached.persists hok'.ssa h.initial hd hdsplit' hvs (fun e e' hsame heq => ?_)
      (fun t rest e w' ht hr => h.equation_after hext hr) hafter
    exact Equation.congr (fun u hu => by rw [Env.read, Env.read, hsame u hu]) heq
  exact ⟨hafter, hpersists⟩

/-! ## Sound aliases -/

variable (C f c c' init) in
/-- Wherever `r` is available `t` is available as well, and reads the same. -/
structure Link (r t : ValueId) : Prop where
  available : ∀ b block pre post, Reachable f.entryBlock f.Edge b → f.block b = some block →
    block.instructions = pre ++ post → f.Available c'.table b pre r →
      f.Available c'.table b pre t ∧ t ≠ r
  reads : ∀ s older block pre post env w,
    Reached (valueSem C) ((valueSem C).table c.table) f init s older block pre post env w →
      f.Available c'.table s.block pre r →
        Env.read ((valueSem C).table c'.table) env t = Env.read ((valueSem C).table c'.table) env r

variable (C f c c' init) in
def Links (aliases : ValueReplacements) : Prop :=
  ∀ r t, aliases.lookup r = some t → Link C f c c' init r t

theorem Links.insert {aliases : ValueReplacements} (h : Links C f c c' init aliases)
    {r t : ValueId} (hrt : Link C f c c' init r t) : Links C f c c' init (aliases.insert r t) := by
  intro r' t' hlookup
  rw [ValueReplacements.lookup_insert] at hlookup
  split at hlookup
  · next heq =>
    subst heq
    exact Option.some.inj hlookup ▸ hrt
  · exact h r' t' hlookup

theorem next_of_lookup {aliases : ValueReplacements} {v t : ValueId}
    (h : aliases.lookup v = some t) : aliases.next v = t := by
  rw [ValueReplacements.next, h]
  rfl

section Chains

variable {aliases : ValueReplacements} {b : BlockId} {u v : ValueId}

theorem Links.available_next (h : Links C f c c' init aliases)
    (hb : Reachable f.entryBlock f.Edge b) (hblock : f.block b = some block)
    (hsplit : block.instructions = pre ++ post) (hv : f.Available c'.table b pre v) :
    f.Available c'.table b pre (aliases.next v) := by
  unfold ValueReplacements.next
  cases hl : aliases.lookup v with
  | none => exact hv
  | some t => exact ((h v t hl).available b block pre post hb hblock hsplit hv).1

theorem Links.available_iterate (h : Links C f c c' init aliases)
    (hb : Reachable f.entryBlock f.Edge b) (hblock : f.block b = some block)
    (hsplit : block.instructions = pre ++ post) (hv : f.Available c'.table b pre v) (n : Nat) :
    f.Available c'.table b pre (aliases.next^[n] v) := by
  induction n generalizing v with
  | zero => exact hv
  | succ n ih => exact ih (h.available_next hb hblock hsplit hv)

/-- What an available value is replaced by is available, and is not replaced itself. -/
theorem Links.available (h : Links C f c c' init aliases)
    (hb : Reachable f.entryBlock f.Edge b) (hblock : f.block b = some block)
    (hsplit : block.instructions = pre ++ post) (hv : f.Available c'.table b pre v)
    (hu : aliases.getReplacement v = some u) :
    f.Available c'.table b pre u ∧ aliases.lookup u = none := by
  obtain ⟨hend, n, rfl⟩ := ValueReplacements.getReplacement_eq_some_iff.mp hu
  have havail := h.available_iterate hb hblock hsplit hv n
  refine ⟨havail, ?_⟩
  cases hl : aliases.lookup (aliases.next^[n] v) with
  | none => rfl
  | some t =>
    have hne := ((h _ t hl).available b block pre post hb hblock hsplit havail).2
    exact absurd ((next_of_lookup hl).symm.trans hend) hne

/-- It reads the same. -/
theorem Links.reads (h : Links C f c c' init aliases) (hinit : f.Initial init)
    (hreached : Reached (valueSem C) ((valueSem C).table c.table) f init s older block pre post
      env w) (hv : f.Available c'.table s.block pre v)
    (hu : aliases.getReplacement v = some u) :
    Env.read ((valueSem C).table c'.table) env u
      = Env.read ((valueSem C).table c'.table) env v := by
  obtain ⟨-, n, rfl⟩ := ValueReplacements.getReplacement_eq_some_iff.mp hu
  clear hu
  have hb := hreached.reachable hinit
  induction n generalizing v with
  | zero => rfl
  | succ n ih =>
    rw [Function.iterate_succ_apply, ih (h.available_next hb hreached.atBlock hreached.split hv)]
    unfold ValueReplacements.next
    cases hl : aliases.lookup v with
    | none => rfl
    | some t => exact (h v t hl).reads s older block pre post env w hreached hv

end Chains

/-- An instruction brought up to date. -/
theorem replaceInputs_eq_some {aliases : ValueReplacements} {op op' : OpCode} :
    aliases.replaceInputs op = some op' ↔
      (∀ v ∈ op.inputs, aliases.getReplacement v = some (aliases.apply v)) ∧
        op' = op.mapInputs aliases.apply := by
  have happly : ∀ v, (aliases.getReplacement v).isSome ↔
      aliases.getReplacement v = some (aliases.apply v) := by
    intro v
    unfold ValueReplacements.apply
    cases aliases.getReplacement v <;> simp
  unfold ValueReplacements.replaceInputs
  simp only [happly]
  split
  · next h =>
    rw [Option.some.injEq, eq_comm]
    exact ⟨fun heq => ⟨h, heq⟩, fun heq => heq.2⟩
  · next h => simp [h]

/-! ## One instruction

From the walk's state to the hypotheses of the rules and back.
-/

/-- The values that stand for the inputs of an instruction: available, and reading the
same. -/
structure Good (C : Completion A W) (f : Function) (c c' : Constants) (init : State (Value A) W)
    (b : BlockId) (pre : List OpCode) (op : OpCode) (ρ : ValueId → ValueId) : Prop where
  available : Reachable f.entryBlock f.Edge b → ∀ v ∈ op.inputs, f.Available c'.table b pre (ρ v)
  reads : ∀ s older block post env w, s.block = b →
    Reached (valueSem C) ((valueSem C).table c.table) f init s older block pre (op :: post) env w →
      ∀ v ∈ op.inputs, Env.read ((valueSem C).table c'.table) env (ρ v)
        = Env.read ((valueSem C).table c.table) env v

theorem Links.good {aliases : ValueReplacements} (h : Links C f c c' init aliases)
    (hr : Running C signatures f c types init)
    (hext : c.Extends c') {b : BlockId} {op : OpCode} (hblock : f.block b = some block)
    (hsplit : block.instructions = pre ++ op :: post)
    (hop : ∀ v ∈ op.inputs, aliases.getReplacement v = some (aliases.apply v)) :
    Good C f c c' init b pre op aliases.apply where
  available hb v hv :=
    (h.available hb hblock hsplit (available_extend hr.wf hext
      (hr.ok.strict.instruction b block pre op post hb hblock hsplit v hv)) (hop v hv)).1
  reads s older block' post' env w hs hreached v hv := by
    have havail := hr.ok.strict.instruction _ block' pre op post' (hreached.reachable hr.initial)
      hreached.atBlock hreached.split v hv
    rw [h.reads hr.initial hreached (available_extend hr.wf hext havail) (hop v hv)]
    exact read_lt hext (available_lt hr.wf hr.ok hreached.atBlock hreached.split havail) env

omit [DecidableEq (Value A)] in
theorem definition_eq_some (hok : FunctionOk f c) {v : ValueId} {d : OpCode}
    (h : definition f v = some d) : ∃ b block pre post, f.block b = some block ∧
      block.instructions = pre ++ d :: post ∧ v ∈ d.results := by
  obtain ⟨⟨b, block⟩, hb, hd⟩ := List.mem_flatMap.mp (List.mem_of_find?_eq_some h)
  obtain ⟨pre, post, hsplit⟩ := List.append_of_mem hd
  exact ⟨b, block, pre, post, lookup_of_mem hok.keys hb, hsplit, by
    simpa using List.find?_some h⟩

/-- What the rules need to know about the operands. -/
theorem Running.known (hr : Running C signatures f c types init) (hext : c.Extends c')
    {cs : Constants} (hcs : cs.WF) (hcs' : cs.Extends c') {op : OpCode} {ρ : ValueId → ValueId}
    (hreached : Reached (valueSem C) ((valueSem C).table c.table) f init s older block pre
      (op :: post) env w) (hgood : Good C f c c' init s.block pre op ρ) :
    Known C signatures types (definition f) cs (Env.read ((valueSem C).table c'.table) env)
      (op.mapInputs ρ) where
  const v k hk := by
    rw [Env.read, Sem.table, hcs'.some hcs hk]
    rfl
  typed u hu x t hx ht := by
    have hok' := hr.ok.extend hr.wf hext
    cases hk : c'.table.lookup u with
    | some k =>
      rw [Env.read, Sem.table, hk] at hx
      obtain rfl := Option.some.inj hx
      rcases hr.typing.named u t ht with hconst | ⟨b, hdef⟩
      · obtain ⟨k', hk'⟩ := Option.isSome_iff_exists.mp hconst
        obtain rfl := Option.some.inj ((hext.some hr.wf hk').symm.trans hk)
        rw [hr.typing.constant u k' hk'] at ht
        exact (constVal_type k').trans (Option.some.inj ht)
      · rw [hok'.ssa.noConstant b u hdef] at hk
        simp at hk
    | none =>
      rw [Env.read, Sem.table, hk] at hx
      have htype := hr.hasTypes hreached u x hx
      exact Option.some.inj (htype.symm.trans ht)
  defined u hu d hd := by
    obtain ⟨b, dblock, dpre, dpost, hblock, hsplit, hres⟩ := definition_eq_some hr.ok hd
    rw [OpCode.inputs_mapInputs] at hu
    obtain ⟨v, hv, rfl⟩ := List.mem_map.mp hu
    have havail := hgood.available (hreached.reachable hr.initial) v hv
    exact ⟨hres, (hr.equation hext hreached havail hblock hsplit hres).2⟩
  result := by
    obtain ⟨rs, hrs, htypes⟩ := hr.typing.instruction _ block (hreached.reachable hr.initial)
      hreached.atBlock op (by rw [hreached.split]; simp)
    refine ⟨rs, ?_, htypes⟩
    rw [OpCode.resultTypes_mapInputs]
    refine OpCode.resultTypes_mono (fun v hv t ht => ?_) hrs
    obtain ⟨x, hx, -, htype⟩ := hr.read_inputs hext hreached v hv
    rw [hgood.reads s older block post env w rfl hreached v hv, hx]
    exact htype.symm.trans ht

/-- What the instruction reads, and what its up-to-date form reads. -/
theorem Good.mapM {b : BlockId} {op : OpCode} {ρ : ValueId → ValueId}
    (h : Good C f c c' init b pre op ρ) (hs : s.block = b)
    (hreached : Reached (valueSem C) ((valueSem C).table c.table) f init s older block pre
      (op :: post) env w) :
    (op.mapInputs ρ).inputs.mapM (Env.read ((valueSem C).table c'.table) env)
      = op.inputs.mapM (Env.read ((valueSem C).table c.table) env) := by
  rw [OpCode.inputs_mapInputs]
  exact mapM_read_congr (h.reads s older block post env w hs hreached)

theorem Running.mapM_inputs (hr : Running C signatures f c types init) {op : OpCode}
    (hreached : Reached (valueSem C) ((valueSem C).table c.table) f init s older block pre
      (op :: post) env w) :
    ∃ xs, op.inputs.mapM (Env.read ((valueSem C).table c.table) env) = some xs := by
  have hread := hr.read_inputs (.refl c) hreached
  clear hreached
  generalize op.inputs = vs at hread
  induction vs with
  | nil => exact ⟨[], rfl⟩
  | cons v vs ih =>
    rw [List.forall_mem_cons] at hread
    obtain ⟨x, hx, -⟩ := hread.1
    obtain ⟨xs, hxs⟩ := ih hread.2
    exact ⟨x :: xs, by rw [List.mapM_cons, hx, hxs]; rfl⟩

/-- What the rules say where the instruction is reached. -/
theorem Running.keeps (hr : Running C signatures f c types init) (hext : c.Extends c')
    {cs cs' : Constants} (hcs : cs.WF) (hcs' : cs'.Extends c') {op : OpCode}
    {ρ : ValueId → ValueId} {rewrite : Rewrite}
    (hreached : Reached (valueSem C) ((valueSem C).table c.table) f init s older block pre
      (op :: post) env w) (hgood : Good C f c c' init s.block pre op ρ)
    (hok : RuleOk (typeOf types cs) cs (op.mapInputs ρ))
    (hfire : tryAlgebraic types (definition f) cs (op.mapInputs ρ) = some (some rewrite, cs')) :
    ∃ xs, op.inputs.mapM (Env.read ((valueSem C).table c.table) env) = some xs ∧
      Keeps C (Env.read ((valueSem C).table c'.table) env) (op.mapInputs ρ) xs rewrite := by
  obtain ⟨xs, hxs⟩ := hr.mapM_inputs hreached
  have hconst := tryAlgebraic_constants hcs hfire
  refine ⟨xs, hxs, tryAlgebraic_keeps hr.completion
    (hr.known hext hconst.1 hcs' hreached hgood) hcs ?_ hok hfire⟩
  rw [hgood.mapM rfl hreached, hxs]

/-- The two values read the same. -/
def SameReading {V : Type} (K : Env V) (t r : ValueId) (e : Env V) : Prop :=
  Env.read K e t = Env.read K e r

/-- The alias of a rule is sound. -/
theorem Running.link (hr : Running C signatures f c types init) (hext : c.Extends c')
    {cs cs' : Constants} (hcs : cs.WF) (hcs' : cs'.Extends c') {op : OpCode} {b : BlockId}
    {ρ : ValueId → ValueId} {r t : ValueId} (hblock : f.block b = some block)
    (hsplit : block.instructions = pre ++ op :: post) (hgood : Good C f c c' init b pre op ρ)
    (hok : RuleOk (typeOf types cs) cs (op.mapInputs ρ))
    (hfire : tryAlgebraic types (definition f) cs (op.mapInputs ρ)
      = some (some (.alias r t), cs')) :
    Link C f c c' init r t := by
  have hok' := hr.ok.extend hr.wf hext
  obtain ⟨hwf', -⟩ := tryAlgebraic_constants hcs hfire
  obtain ⟨hresults, hfrom⟩ := tryAlgebraic_fired hcs hfire
  rw [OpCode.results_mapInputs] at hresults
  have hres : r ∈ op.results := by simp [hresults]
  have hdef : f.DefinedIn b r := ⟨block, hblock, List.mem_append_right _ (by simp [hsplit, hres])⟩
  -- the target is available right before the instruction
  have havail : Reachable f.entryBlock f.Edge b → f.Available c'.table b pre t := by
    intro hb
    rcases hfrom with ht | ⟨u, hu, d, hd, ht⟩ | ht
    · rw [OpCode.inputs_mapInputs] at ht
      obtain ⟨v, hv, rfl⟩ := List.mem_map.mp ht
      exact hgood.available hb v hv
    · rw [OpCode.inputs_mapInputs] at hu
      obtain ⟨v, hv, rfl⟩ := List.mem_map.mp hu
      obtain ⟨db, dblock, dpre, dpost, hdblock, hdsplit, hdres⟩ := definition_eq_some hr.ok hd
      have hafter := (hgood.available hb v hv).after hok'.ssa hblock hsplit hdblock hdsplit hdres
      have hdreach : Reachable f.entryBlock f.Edge db := by
        rcases hafter with ⟨rfl, -⟩ | ⟨-, hdom⟩
        · exact hb
        · exact hdom.reachable hb
      have hinner := hok'.strict.instruction db dblock dpre d dpost hdreach hdblock hdsplit t ht
      have hdsplit' : dblock.instructions = (dpre ++ [d]) ++ dpost := by rw [hdsplit]; simp
      exact Function.Available.of_after hb (hinner.append [d]) hafter hdblock hdsplit'
    · obtain ⟨k, hk⟩ := Option.isSome_iff_exists.mp ht
      exact .constant (by rw [hcs'.some hwf' hk]; rfl)
  have hne : Reachable f.entryBlock f.Edge b → t ≠ r := by
    rintro hb rfl
    exact (havail hb).notMem_later hok'.ssa hblock hsplit (by simp [hres])
  have hsplit' : block.instructions = (pre ++ [op]) ++ post := by rw [hsplit]; simp
  constructor
  · intro b₂ block₂ pre₂ post₂ hb₂ hblock₂ hsplit₂ hr₂
    have hafter := hr₂.after hok'.ssa hblock₂ hsplit₂ hblock hsplit hres
    have hb : Reachable f.entryBlock f.Edge b := by
      rcases hafter with ⟨rfl, -⟩ | ⟨-, hdom⟩
      · exact hb₂
      · exact hdom.reachable hb₂
    exact ⟨Function.Available.of_after hb₂ ((havail hb).append [op]) hafter hblock hsplit', hne hb⟩
  · intro s older block₂ pre₂ post₂ env w hreached hr₂
    have hafter := hr₂.after hok'.ssa hreached.atBlock hreached.split hblock hsplit hres
    have hb : Reachable f.entryBlock f.Edge b := by
      rcases hafter with ⟨rfl, -⟩ | ⟨-, hdom⟩
      · exact hreached.reachable hr.initial
      · exact hdom.reachable (hreached.reachable hr.initial)
    have hvs : ∀ u ∈ [t, r], f.Available c'.table b (pre ++ [op]) u := by
      intro u hu
      rcases List.mem_pair.mp hu with rfl | rfl
      · exact (havail hb).append _
      · exact .result (by simp [hres])
    suffices hpersists : SameReading ((valueSem C).table c'.table) t r env from hpersists
    refine hreached.persists hok'.ssa hr.initial hblock hsplit' hvs (fun e e' hsame heq => ?_)
      (fun s₁ rest e w' hs₁ hreached₁ => ?_) hafter
    · show Env.read _ e' t = Env.read _ e' r
      rw [Env.read, Env.read, hsame t (by simp), hsame r (by simp)]
      exact heq
    · -- right after the instruction both are its value
      subst hs₁
      obtain ⟨e₀, w₀, hreached₀, -⟩ := hreached₁.earlier
      obtain ⟨xs, hxs, y, hy, hop⟩ := hr.keeps hext hcs hcs' hreached₀ hgood hok hfire
      rw [shape_mapInputs] at hop
      have hexec := hreached₁.exec
      rw [execInstructions_append, hreached₀.exec] at hexec
      have hstep : execInstruction (valueSem C) ((valueSem C).table c.table) op e₀ w₀
          = (w₀, some (e₀.bindAll op.results [y])) := by
        unfold execInstruction
        rw [hxs]
        simp only [hop w₀, hresults]
        rfl
      simp only [execInstructions, hstep, Prod.mk.injEq, Option.some.injEq] at hexec
      obtain ⟨-, rfl⟩ := hexec
      have ht : Env.read ((valueSem C).table c'.table) (e₀.bindAll op.results [y]) t = some y := by
        rw [Env.read, Env.bindAll_of_notMem (by rw [hresults]; simpa using hne hb)]
        exact hy
      have hr₁ : Env.read ((valueSem C).table c'.table) (e₀.bindAll op.results [y]) r = some y := by
        rw [read_defined hr.ok hext hdef, hresults]
        exact Function.update_self ..
      exact ht.trans hr₁.symm

end Running

/-! ## The whole walk

What a step may add to constants and aliases, then the induction.
-/

section Walk

section Conditions

variable (types : ValueId → Option TypeExpr) (defs : ValueId → Option OpCode)

/-- If the instruction is rewritten, the condition holds. -/
def StepOk (s : WalkState) (op : OpCode) : Prop :=
  ∀ op', s.aliases.replaceInputs op = some op' → ∀ rewrite c',
    tryAlgebraic types defs s.constants op' = some (some rewrite, c') →
      RuleOk (typeOf types s.constants) s.constants op'

def InstructionsOk : List OpCode → WalkState → Prop
  | [], _ => True
  | op :: ops, s => StepOk types defs s op ∧
      ∀ s', processInstruction types defs s op = some s' → InstructionsOk ops s'

/-- Every rewriting of the walk meets the condition. -/
def BlocksOk : List (BlockId × Block) → WalkState → Prop
  | [], _ => True
  | (_, block) :: blocks, s =>
      InstructionsOk types defs block.instructions { s with newInstructions := [] } ∧
        ∀ s', block.instructions.foldlM (processInstruction types defs)
            { s with newInstructions := [] } = some s' → BlocksOk blocks s'

end Conditions

variable {types : ValueId → Option TypeExpr} {defs : ValueId → Option OpCode} {s s' s₁ : WalkState}
  {op : OpCode}

/-- What one step of the walk can do. -/
theorem processInstruction_cases (h : processInstruction types defs s op = some s₁) :
    ∃ op₁, s.aliases.replaceInputs op = some op₁ ∧
      ((∃ r t, tryAlgebraic types defs s.constants op₁ = some (some (.alias r t), s₁.constants) ∧
          s₁.aliases = s.aliases.insert r t ∧ s₁.newInstructions = s.newInstructions) ∨
        (∃ ops, tryAlgebraic types defs s.constants op₁
            = some (some (.replace ops), s₁.constants) ∧
          s₁.aliases = s.aliases ∧ s₁.newInstructions = s.newInstructions ++ ops) ∨
        (tryAlgebraic types defs s.constants op₁ = some (none, s₁.constants) ∧
          s₁.aliases = s.aliases ∧ s₁.newInstructions = s.newInstructions ++ [op₁])) := by
  unfold processInstruction at h
  simp only [Option.bind_eq_bind, Option.bind_eq_some_iff] at h
  obtain ⟨op₁, hop, ⟨rewrite, c'⟩, htry, h⟩ := h
  refine ⟨op₁, hop, ?_⟩
  cases rewrite with
  | none =>
    obtain rfl := Option.some.inj h
    exact .inr (.inr ⟨htry, rfl, rfl⟩)
  | some rewrite =>
    cases rewrite with
    | «alias» r t =>
      obtain rfl := Option.some.inj h
      exact .inl ⟨r, t, htry, rfl, rfl⟩
    | replace ops =>
      obtain rfl := Option.some.inj h
      exact .inr (.inl ⟨ops, htry, rfl, rfl⟩)

/-- Constants are added, and aliases for some of the results `vs`. -/
structure Grows (s s' : WalkState) (vs : List ValueId) : Prop where
  wf : s'.constants.WF
  ext : s.constants.Extends s'.constants
  keeps : ∀ v, (s.aliases.lookup v).isSome → (s'.aliases.lookup v).isSome
  fresh : ∀ v, (s'.aliases.lookup v).isSome → (s.aliases.lookup v).isSome ∨ v ∈ vs

theorem Grows.trans {vs vs' : List ValueId} (h : Grows s s₁ vs) (h' : Grows s₁ s' vs') :
    Grows s s' (vs ++ vs') where
  wf := h'.wf
  ext := h.ext.trans h'.ext
  keeps v hv := h'.keeps v (h.keeps v hv)
  fresh v hv := by
    rcases h'.fresh v hv with hv | hv
    · rcases h.fresh v hv with hv | hv
      · exact .inl hv
      · exact .inr (List.mem_append_left _ hv)
    · exact .inr (List.mem_append_right _ hv)

theorem processInstruction_grows (hwf : s.constants.WF)
    (h : processInstruction types defs s op = some s₁) : Grows s s₁ op.results := by
  obtain ⟨op₁, hop, hcases⟩ := processInstruction_cases h
  obtain ⟨-, rfl⟩ := replaceInputs_eq_some.mp hop
  rcases hcases with ⟨r, t, htry, halias, -⟩ | ⟨ops, htry, halias, -⟩ | ⟨htry, halias, -⟩
  · obtain ⟨hwf', hext⟩ := tryAlgebraic_constants hwf htry
    have hres := (tryAlgebraic_fired hwf htry).1
    rw [OpCode.results_mapInputs] at hres
    refine ⟨hwf', hext, fun v hv => ?_, fun v hv => ?_⟩
    · rw [halias, ValueReplacements.lookup_insert]
      split
      · rfl
      · exact hv
    · rw [halias, ValueReplacements.lookup_insert] at hv
      split at hv
      · next heq => exact .inr (by simp [hres, heq])
      · exact .inl hv
  all_goals
    obtain ⟨hwf', hext⟩ := tryAlgebraic_constants hwf htry
    exact ⟨hwf', hext, fun v hv => halias.symm ▸ hv, fun v hv => .inl (halias ▸ hv)⟩

theorem instructions_grow {ops : List OpCode} (hwf : s.constants.WF)
    (h : ops.foldlM (processInstruction types defs) s = some s') :
    Grows s s' (ops.flatMap OpCode.results) := by
  induction ops generalizing s with
  | nil =>
    obtain rfl := Option.some.inj h
    exact ⟨hwf, .refl _, fun _ hv => hv, fun _ hv => .inl hv⟩
  | cons op ops ih =>
    rw [List.foldlM_cons, Option.bind_eq_bind, Option.bind_eq_some_iff] at h
    obtain ⟨s₁, h₁, h⟩ := h
    have hstep := processInstruction_grows hwf h₁
    exact hstep.trans (ih hstep.wf h)

/-- The results of the instructions of some blocks. -/
def blockResults (blocks : List (BlockId × Block)) : List ValueId :=
  blocks.flatMap fun p => p.2.instructions.flatMap OpCode.results

theorem processBlocks_cons {b : BlockId} {block : Block} {blocks blocks' : List (BlockId × Block)}
    (h : processBlocks types defs ((b, block) :: blocks) s = some (blocks', s')) :
    ∃ s₁ rest, block.instructions.foldlM (processInstruction types defs)
        { s with newInstructions := [] } = some s₁ ∧
      processBlocks types defs blocks s₁ = some (rest, s') ∧
        blocks' = (b, { block with instructions := s₁.newInstructions }) :: rest := by
  simp only [processBlocks, Option.bind_eq_bind, Option.bind_eq_some_iff, Option.pure_def,
    Option.some.injEq] at h
  obtain ⟨s₁, h₁, ⟨rest, s''⟩, h₂, h⟩ := h
  obtain ⟨rfl, rfl⟩ := Prod.mk.inj h
  exact ⟨s₁, rest, h₁, h₂, rfl⟩

theorem blocks_grow {blocks blocks' : List (BlockId × Block)} (hwf : s.constants.WF)
    (h : processBlocks types defs blocks s = some (blocks', s')) :
    Grows s s' (blockResults blocks) := by
  induction blocks generalizing s blocks' with
  | nil =>
    obtain ⟨-, rfl⟩ := Prod.mk.inj (Option.some.inj h)
    exact ⟨hwf, .refl _, fun _ hv => hv, fun _ hv => .inl hv⟩
  | cons p blocks ih =>
    obtain ⟨b, block⟩ := p
    obtain ⟨s₁, rest, h₁, h₂, -⟩ := processBlocks_cons h
    have hblock : Grows s s₁ (block.instructions.flatMap OpCode.results) :=
      let hgrow := @instructions_grow types defs { s with newInstructions := [] } _ _ hwf h₁
      ⟨hgrow.wf, hgrow.ext, hgrow.keeps, hgrow.fresh⟩
    exact hblock.trans (ih hblock.wf h₂)

/-! ### What the walk leaves -/

section Leaves

variable {A W : Type} [DecidableEq (Value A)] {C : Completion A W}
  {signatures : FunctionId → Option (List TypeExpr × List TypeExpr)} {f : Function}
  {c c' : Constants} {init : State (Value A) W} {final : ValueReplacements}

variable (C f c c' init) in
/-- The instruction the walk writes: its operands are available, and it reads and gives what
the instruction did. -/
structure Written (b : BlockId) (pre : List OpCode) (op op₁ : OpCode) : Prop where
  results : op₁.results = op.results
  inputs : Reachable f.entryBlock f.Edge b → ∀ v ∈ op₁.inputs, f.Available c'.table b pre v
  exec : ∀ s older block post env w, s.block = b →
    Reached (valueSem C) ((valueSem C).table c.table) f init s older block pre (op :: post) env w →
      SameUse (valueSem C) ((valueSem C).table c.table) ((valueSem C).table c'.table) Swaps
        op op₁ env

variable (C f c c' init final) in
/-- The instructions of a block, and what the walk writes for them; `final` are the aliases
at the end of the walk. -/
inductive Walked (b : BlockId) : List OpCode → List OpCode → List OpCode → Prop
  | nil (pre : List OpCode) : Walked b pre [] []
  | drop {pre : List OpCode} {op : OpCode} {ops ops₁ : List OpCode}
      (h : Dropped (valueSem C) ((valueSem C).table c.table) f init
        (fun v => (final.lookup v).isSome) b pre op)
      (rest : Walked b (pre ++ [op]) ops ops₁) : Walked b pre (op :: ops) ops₁
  | keep {pre : List OpCode} {op op₁ : OpCode} {ops ops₁ : List OpCode}
      (h : Written C f c c' init b pre op op₁)
      (remain : ∀ v ∈ op.results, final.lookup v = none)
      (rest : Walked b (pre ++ [op]) ops ops₁) : Walked b pre (op :: ops) (op₁ :: ops₁)

variable {b : BlockId} {block : Block} {pre post : List OpCode}

/-- An instruction that no rule applies to. -/
theorem Good.written {ρ : ValueId → ValueId} (h : Good C f c c' init b pre op ρ) :
    Written C f c c' init b pre op (op.mapInputs ρ) where
  results := OpCode.results_mapInputs ρ op
  inputs hb v hv := by
    rw [OpCode.inputs_mapInputs] at hv
    obtain ⟨u, hu, rfl⟩ := List.mem_map.mp hv
    exact h.available hb u hu
  exec s older block post env w hs hreached := .inl ⟨shape_mapInputs op, h.mapM hs hreached⟩

/-- An instruction that is replaced. -/
theorem Running.replaced (hr : Running C signatures f c types init) (hext : c.Extends c')
    {cs cs' : Constants} (hcs : cs.WF) (hcs' : cs'.Extends c') {ρ : ValueId → ValueId}
    {ops : List OpCode} (hgood : Good C f c c' init b pre op ρ)
    (hok : RuleOk (typeOf types cs) cs (op.mapInputs ρ))
    (hfire : tryAlgebraic types (definition f) cs (op.mapInputs ρ)
      = some (some (.replace ops), cs')) :
    ∃ op₁, ops = [op₁] ∧ Written C f c c' init b pre op op₁ := by
  obtain ⟨r, op₁, rfl, hres, hres₁, hswaps, hinputs⟩ := tryAlgebraic_fired hcs hfire
  obtain ⟨hwf', -⟩ := tryAlgebraic_constants hcs hfire
  rw [OpCode.results_mapInputs] at hres
  rw [shape_mapInputs] at hswaps
  refine ⟨op₁, rfl, hres₁.trans hres.symm, fun hb v hv => ?_, ?_⟩
  · rcases hinputs v hv with hv | hv
    · rw [OpCode.inputs_mapInputs] at hv
      obtain ⟨u, hu, rfl⟩ := List.mem_map.mp hv
      exact hgood.available hb u hu
    · obtain ⟨k, hk⟩ := Option.isSome_iff_exists.mp hv
      exact .constant (by rw [hcs'.some hwf' hk]; rfl)
  · intro s older block post env w hs hreached
    subst hs
    obtain ⟨xs, hxs, hkeeps⟩ := hr.keeps hext hcs hcs' hreached hgood hok hfire
    obtain ⟨ys, hys, hsame⟩ := hkeeps op₁ List.mem_cons_self
    rw [shape_mapInputs] at hsame
    exact .inr ⟨hswaps, xs, ys, hxs, hys, hsame⟩

/-- An instruction whose result is an alias. -/
theorem Running.dropped (hr : Running C signatures f c types init) (hext : c.Extends c')
    {cs cs' : Constants} (hcs : cs.WF) (hcs' : cs'.Extends c') {ρ : ValueId → ValueId}
    {r t : ValueId} (hgood : Good C f c c' init b pre op ρ)
    (hok : RuleOk (typeOf types cs) cs (op.mapInputs ρ))
    (hfire : tryAlgebraic types (definition f) cs (op.mapInputs ρ)
      = some (some (.alias r t), cs')) (hr' : (final.lookup r).isSome) :
    Dropped (valueSem C) ((valueSem C).table c.table) f init
      (fun v => (final.lookup v).isSome) b pre op := by
  obtain ⟨hres, -⟩ := tryAlgebraic_fired hcs hfire
  rw [OpCode.results_mapInputs] at hres
  refine ⟨fun v hv => ?_, fun s older block post env w hs hreached => ?_⟩
  · rw [hres] at hv
    obtain rfl := List.mem_singleton.mp hv
    exact hr'
  · subst hs
    obtain ⟨xs, hxs, y, hy, hop⟩ := hr.keeps hext hcs hcs' hreached hgood hok hfire
    rw [shape_mapInputs] at hop
    refine ⟨env.bindAll op.results [y], ?_⟩
    unfold execInstruction
    rw [hxs]
    simp only [hop w, hres]
    rfl

/-- One block: every rewriting is sound if those before it were. -/
theorem Running.walked (hr : Running C signatures f c types init) (hext : c.Extends c')
    {ops : List OpCode} {done later : List ValueId} (hblock : f.block b = some block)
    (hsplit : block.instructions = pre ++ ops)
    (h : ops.foldlM (processInstruction types (definition f)) s = some s')
    (hok : InstructionsOk types (definition f) ops s) (hwf : s.constants.WF)
    (hend : s'.constants.Extends c') (hlinks : Links C f c c' init s.aliases)
    (hdone : ∀ v, (s.aliases.lookup v).isSome → v ∈ done)
    (hnodup : (done ++ (ops.flatMap OpCode.results ++ later)).Nodup)
    (hfinal : ∀ v, (s'.aliases.lookup v).isSome → (final.lookup v).isSome)
    (hlater : ∀ v, (final.lookup v).isSome → (s'.aliases.lookup v).isSome ∨ v ∈ later) :
    ∃ ops₁, s'.newInstructions = s.newInstructions ++ ops₁ ∧
      Walked C f c c' init final b pre ops ops₁ ∧ Links C f c c' init s'.aliases := by
  induction ops generalizing s pre done with
  | nil =>
    obtain rfl := Option.some.inj h
    exact ⟨[], (List.append_nil _).symm, .nil pre, hlinks⟩
  | cons op ops ih =>
    rw [List.foldlM_cons, Option.bind_eq_bind, Option.bind_eq_some_iff] at h
    obtain ⟨s₁, h₁, h⟩ := h
    have hgrow₁ := processInstruction_grows hwf h₁
    have hgrow := instructions_grow hgrow₁.wf h
    have hend₁ : s₁.constants.Extends c' := hgrow.ext.trans hend
    obtain ⟨hstep, hrest⟩ := hok
    have hsplit' : block.instructions = (pre ++ [op]) ++ ops := by rw [hsplit]; simp
    rw [List.flatMap_cons, List.append_assoc] at hnodup
    obtain ⟨op₁, hop, hcases⟩ := processInstruction_cases h₁
    obtain ⟨hrep, rfl⟩ := replaceInputs_eq_some.mp hop
    have hgood := hlinks.good hr hext hblock hsplit hrep
    have hdone₁ : ∀ v, (s₁.aliases.lookup v).isSome → v ∈ done ++ op.results := fun v hv => by
      rcases hgrow₁.fresh v hv with hv | hv
      · exact List.mem_append_left _ (hdone v hv)
      · exact List.mem_append_right _ hv
    have hnodup₁ : ((done ++ op.results) ++ (ops.flatMap OpCode.results ++ later)).Nodup := by
      rwa [List.append_assoc]
    -- the rest of the block
    have hgo : Links C f c c' init s₁.aliases → ∃ ops₁,
        s'.newInstructions = s₁.newInstructions ++ ops₁ ∧
          Walked C f c c' init final b (pre ++ [op]) ops ops₁ ∧ Links C f c c' init s'.aliases :=
      fun hlinks₁ => ih hsplit' h (hrest s₁ h₁) hgrow₁.wf hlinks₁ hdone₁ hnodup₁
    -- a result that stays is no alias, now or later
    have hremain : s₁.aliases = s.aliases → ∀ v ∈ op.results, final.lookup v = none := by
      intro halias v hv
      rw [← Option.not_isSome_iff_eq_none]
      intro hsome
      obtain ⟨-, htail, hdisj⟩ := List.nodup_append.mp hnodup
      obtain ⟨-, -, hdisj'⟩ := List.nodup_append.mp htail
      rcases hlater v hsome with hv' | hv'
      · rcases hgrow.fresh v hv' with hv' | hv'
        · exact hdisj v (hdone v (halias ▸ hv')) v (List.mem_append_left _ hv) rfl
        · exact hdisj' v hv v (List.mem_append_left _ hv') rfl
      · exact hdisj' v hv v (List.mem_append_right _ hv') rfl
    rcases hcases with ⟨r, t, htry, halias, hnew⟩ | ⟨new, htry, halias, hnew⟩ | ⟨htry, halias, hnew⟩
    · have hrule := hstep _ hop _ _ htry
      have hlink := hr.link hext hwf hend₁ hblock hsplit hgood hrule htry
      obtain ⟨ops₁, heq, hwalked, hlinks'⟩ := hgo (halias ▸ hlinks.insert hlink)
      have hsome : (final.lookup r).isSome := by
        refine hfinal r (hgrow.keeps r ?_)
        rw [halias, ValueReplacements.lookup_insert, if_pos rfl]
        rfl
      refine ⟨ops₁, hnew ▸ heq, .drop ?_ hwalked, hlinks'⟩
      exact hr.dropped hext hwf hend₁ hgood hrule htry hsome
    · have hrule := hstep _ hop _ _ htry
      obtain ⟨op₁, rfl, hwritten⟩ := hr.replaced hext hwf hend₁ hgood hrule htry
      obtain ⟨ops₁, heq, hwalked, hlinks'⟩ := hgo (halias ▸ hlinks)
      refine ⟨op₁ :: ops₁, ?_, .keep hwritten (hremain halias) hwalked, hlinks'⟩
      rw [heq, hnew, List.append_assoc, List.singleton_append]
    · obtain ⟨ops₁, heq, hwalked, hlinks'⟩ := hgo (halias ▸ hlinks)
      refine ⟨_ :: ops₁, ?_, .keep hgood.written (hremain halias) hwalked, hlinks'⟩
      rw [heq, hnew, List.append_assoc, List.singleton_append]

variable (C f c c' init final) in
/-- A block and what the walk makes of it. -/
def BlockWalked (p q : BlockId × Block) : Prop :=
  q.1 = p.1 ∧ ∃ ops₁, q.2 = { p.2 with instructions := ops₁ } ∧
    Walked C f c c' init final p.1 [] p.2.instructions ops₁

/-- All blocks. -/
theorem Running.blocksWalked (hr : Running C signatures f c types init) (hext : c.Extends c')
    {blocks blocks' : List (BlockId × Block)} {done : List ValueId}
    (hblocks : ∀ p ∈ blocks, f.block p.1 = some p.2)
    (h : processBlocks types (definition f) blocks s = some (blocks', s'))
    (hok : BlocksOk types (definition f) blocks s) (hwf : s.constants.WF)
    (hend : s'.constants.Extends c') (hlinks : Links C f c c' init s.aliases)
    (hdone : ∀ v, (s.aliases.lookup v).isSome → v ∈ done)
    (hnodup : (done ++ blockResults blocks).Nodup)
    (hfinal : ∀ v, (s'.aliases.lookup v).isSome ↔ (final.lookup v).isSome) :
    List.Forall₂ (BlockWalked C f c c' init final) blocks blocks' ∧
      Links C f c c' init s'.aliases := by
  induction blocks generalizing s blocks' done with
  | nil =>
    obtain ⟨rfl, rfl⟩ := Prod.mk.inj (Option.some.inj h)
    exact ⟨.nil, hlinks⟩
  | cons p blocks ih =>
    obtain ⟨b, block⟩ := p
    rw [List.forall_mem_cons] at hblocks
    obtain ⟨s₁, rest, h₁, h₂, rfl⟩ := processBlocks_cons h
    obtain ⟨hok₁, hok⟩ := hok
    have hgrow₁ := @instructions_grow types (definition f)
      { s with newInstructions := [] } _ _ hwf h₁
    have hgrow := blocks_grow hgrow₁.wf h₂
    have hnodup' :
      (done ++ (block.instructions.flatMap OpCode.results ++ blockResults blocks)).Nodup :=
      hnodup
    have hsplit : block.instructions = [] ++ block.instructions := rfl
    obtain ⟨ops₁, hnew, hwalked, hlinks₁⟩ := hr.walked hext hblocks.1 hsplit h₁ hok₁ hwf
      (hgrow.ext.trans hend) hlinks hdone hnodup'
      (fun v hv => (hfinal v).mp (hgrow.keeps v hv))
      (fun v hv => hgrow.fresh v ((hfinal v).mpr hv))
    rw [List.nil_append] at hnew
    have hdone₁ : ∀ v, (s₁.aliases.lookup v).isSome →
        v ∈ done ++ block.instructions.flatMap OpCode.results := fun v hv => by
      rcases hgrow₁.fresh v hv with hv | hv
      · exact List.mem_append_left _ (hdone v hv)
      · exact List.mem_append_right _ hv
    rw [← List.append_assoc] at hnodup'
    obtain ⟨hwalkedRest, hlinks'⟩ := ih hblocks.2 h₂ (hok s₁ h₁) hgrow₁.wf hlinks₁ hdone₁ hnodup'
    exact ⟨.cons ⟨rfl, ops₁, by rw [hnew], hwalked⟩ hwalkedRest, hlinks'⟩

end Leaves

end Walk

end Mavros.Simplifier
