/-
# `Mavros.Passes.ThreadedJumps` — all merges of the pass

The replacements are collected over all merges and applied at the end.  After every merge
the function that applying them at once would give (`Merging.current`) is the one before
with one more block merged, so the whole pass is a chain of single merges, and what is
left of the list of jumps still names redundant jumps.

## What is proved

`mergeJumps_spec`: for a well-formed function and any list of redundant jumps, no two of them into
one block, the pass succeeds, what it leaves is well formed, and it runs as the function does from
every state in which the function is entered (`RunsAs`).  The order of the list does not matter.

## How it goes

`Pending` is the invariant between two rounds: the function that is meant is well formed, and the
jumps left are redundant in it, each from the part its source is in by now.  `Pending.merge` is
one round, which uses the single merge of `Mavros.Passes.MergedRuns`; `Pending.mergeAll` is the
loop.

Replacements are chains as soon as an argument is itself a parameter that was merged away, and
`getReplacement_insertAll` says that adding the newest at the end composes the two renamings.
-/
import Mavros.Passes.MergedRuns

namespace Mavros.FixDoubleJumps

open Hlssa
open Lib (Follows Rejoined Rejoins mapM_eq_some)

/-! ## Replacements

Both maps of the pass, that of values and that of blocks.
-/

section Replacements

variable {r : ValueReplacements} {params args : List ValueId}

theorem lookup_insertAll (hnodup : params.Nodup) (hlen : args.length = params.length)
    (v : ValueId) : (insertAll r params args).lookup v =
      if v ∈ params then (params.zip args).lookup v else r.lookup v := by
  induction params generalizing r args with
  | nil => rfl
  | cons p params ih =>
    obtain ⟨a, args, rfl⟩ := List.exists_cons_of_length_eq_add_one hlen
    rw [List.nodup_cons] at hnodup
    have hfold : insertAll r (p :: params) (a :: args) = insertAll (r.insert p a) params args := rfl
    rw [hfold, ih hnodup.2 (Nat.succ.inj hlen), ValueReplacements.lookup_insert, List.zip_cons_cons,
      List.lookup_cons]
    by_cases hp : v = p
    · rw [hp, BEq.rfl, if_neg hnodup.1, if_pos rfl, if_pos List.mem_cons_self]
    · rw [beq_false_of_ne hp, if_neg hp]
      simp [hp]

theorem next_insertAll (hnodup : params.Nodup) (hlen : args.length = params.length)
    (v : ValueId) : (insertAll r params args).next v =
      if v ∈ params then substitution params args v else r.next v := by
  rw [ValueReplacements.next, lookup_insertAll hnodup hlen]
  split <;> rfl

theorem substitution_map (ρ : ValueId → ValueId) (hlen : args.length = params.length)
    {v : ValueId} (hv : v ∈ params) :
    substitution params (args.map ρ) v = ρ (substitution params args v) := by
  induction params generalizing args with
  | nil => exact absurd hv List.not_mem_nil
  | cons p params ih =>
    obtain ⟨a, args, rfl⟩ := List.exists_cons_of_length_eq_add_one hlen
    rw [substitution, substitution, List.map_cons, List.zip_cons_cons, List.zip_cons_cons,
      List.lookup_cons, List.lookup_cons]
    by_cases hp : v = p
    · rw [hp, BEq.rfl]
      rfl
    · rw [beq_false_of_ne hp]
      exact ih (Nat.succ.inj hlen) ((List.mem_cons.mp hv).resolve_left hp)

/-- New replacements are applied after the old ones, if what they replace was final and
what they replace it with is final too. -/
theorem getReplacement_insertAll (htotal : ∀ v, (r.getReplacement v).isSome)
    (hnodup : params.Nodup) (hlen : args.length = params.length)
    (hkeys : ∀ p ∈ params, r.lookup p = none) (hargs : ∀ a ∈ args, r.apply a ∉ params)
    (v : ValueId) : (insertAll r params args).getReplacement v =
      some (substitution params (args.map r.apply) (r.apply v)) := by
  have hfinal (v : ValueId) : r.next (r.apply v) = r.apply v ∧ ∃ n, r.next^[n] v = r.apply v := by
    obtain ⟨w, hw⟩ := Option.isSome_iff_exists.mp (htotal v)
    have happly : r.apply v = w := by rw [ValueReplacements.apply, hw]; rfl
    rw [happly]
    exact ValueReplacements.getReplacement_eq_some_iff.mp hw
  have hnext {v : ValueId} (hv : v ∉ params) : (insertAll r params args).next v = r.next v := by
    rw [next_insertAll hnodup hlen, if_neg hv]
  -- the new chain passes through the end of the old one
  have hold (v : ValueId) : ∃ n, (insertAll r params args).next^[n] v = r.apply v := by
    obtain ⟨hend, n, hn⟩ := hfinal v
    have hchain (n : Nat) (v w : ValueId) (hn : r.next^[n] v = w) :
        ∃ m, (insertAll r params args).next^[m] v = w := by
      induction n generalizing v with
      | zero => exact ⟨0, hn⟩
      | succ n ih =>
        by_cases hv : v ∈ params
        · have hfix : r.next v = v := by rw [ValueReplacements.next, hkeys v hv]; rfl
          rw [Function.iterate_fixed hfix] at hn
          exact ⟨0, hn⟩
        · rw [Function.iterate_succ_apply] at hn
          obtain ⟨m, hm⟩ := ih (r.next v) hn
          refine ⟨m + 1, ?_⟩
          rw [Function.iterate_succ_apply, hnext hv, hm]
    exact hchain n v _ hn
  rw [ValueReplacements.getReplacement_eq_some_iff]
  obtain ⟨n, hn⟩ := hold v
  by_cases hmem : r.apply v ∈ params
  · rw [substitution_map r.apply hlen hmem]
    have harg := substitution_mem hlen hmem
    obtain ⟨m, hm⟩ := hold (substitution params args (r.apply v))
    refine ⟨?_, m + 1 + n, ?_⟩
    · rw [hnext (hargs _ harg)]
      exact (hfinal _).1
    · rw [Function.iterate_add_apply, hn, Function.iterate_succ_apply, next_insertAll hnodup hlen,
        if_pos hmem, hm]
  · rw [substitution_of_notMem hmem]
    refine ⟨?_, n, hn⟩
    rw [hnext hmem]
    exact (hfinal v).1

end Replacements

/-- The end of a chain of merged blocks is not merged. -/
theorem lookup_of_resolve {replacements : List (BlockId × BlockId)} {n : Nat} {b c : BlockId}
    (h : resolve replacements n b = some c) : replacements.lookup c = none := by
  induction n generalizing b with
  | zero => simp [resolve] at h
  | succ n ih =>
    rw [resolve] at h
    split at h
    · exact ih h
    · next hb =>
      obtain rfl := Option.some.inj h
      exact hb

/-- After a merge the blocks that were part of the target are part of the source. -/
theorem resolve_cons {replacements : List (BlockId × BlockId)} {r t : BlockId}
    (ht : replacements.lookup t = none) (hr : replacements.lookup r = none) (hrt : r ≠ t) {n : Nat}
    {b c : BlockId} (h : resolve replacements n b = some c) :
    resolve ((t, r) :: replacements) (n + 1) b = some (part r t c) := by
  induction n generalizing b with
  | zero => simp [resolve] at h
  | succ n ih =>
    rw [resolve] at h
    rw [resolve, List.lookup_cons]
    cases hb : replacements.lookup b with
    | some b' =>
      have hbt : b ≠ t := by
        rintro rfl
        exact absurd (hb.symm.trans ht) (by simp)
      rw [hb] at h
      rw [beq_false_of_ne hbt]
      exact ih h
    | none =>
      rw [hb] at h
      obtain rfl := Option.some.inj h
      by_cases hbt : b = t
      · rw [hbt, BEq.rfl, part_target]
        simp only
        rw [resolve, List.lookup_cons, beq_false_of_ne hrt]
        simp only [hr]
      · rw [beq_false_of_ne hbt, part_of_ne hbt]

/-! ## The function that is meant

The function in the map has its values not yet renamed.
-/

def renamedFunction (ρ : ValueId → ValueId) (f : Function) : Function :=
  { f with blocks := f.blocks.map fun p => (p.1, renamed ρ p.2) }

theorem block_renamedFunction (ρ : ValueId → ValueId) (f : Function) (b : BlockId) :
    (renamedFunction ρ f).block b = (f.block b).map (renamed ρ) := by
  unfold renamedFunction Function.block
  induction f.blocks with
  | nil => rfl
  | cons p blocks ih =>
    rw [List.map_cons, List.lookup_cons, List.lookup_cons, ih]
    cases b == p.1 <;> rfl

theorem keys_renamedFunction (ρ : ValueId → ValueId) (f : Function) :
    (renamedFunction ρ f).blocks.map Prod.fst = f.blocks.map Prod.fst := by
  rw [renamedFunction, List.map_map]
  rfl

theorem renamed_renamed (ρ σ : ValueId → ValueId) (block : Block) :
    renamed σ (renamed ρ block) = renamed (σ ∘ ρ) block := by
  have hops : OpCode.mapOperands σ ∘ OpCode.mapOperands ρ = OpCode.mapOperands (σ ∘ ρ) :=
    funext (mapOperands_mapOperands ρ σ)
  have hterms : Terminator.map σ ∘ Terminator.map ρ = Terminator.map (σ ∘ ρ) :=
    funext (Terminator.map_map ρ σ)
  simp only [renamed, List.map_map, Option.map_map, hops, hterms]

theorem renamed_joined (ρ : ValueId → ValueId) (a b : Block) :
    renamed ρ (joined a b) = joined (renamed ρ a) (renamed ρ b) := by
  simp only [renamed, joined, List.map_append]

theorem renamed_id (block : Block) : renamed id block = block := by
  have hop (op : OpCode) : op.mapOperands id = op := by
    have hinputs : op.mapInputs id = op := by
      induction op with
      | guard condition inner ih => simp [OpCode.mapInputs, ih]
      | call rs target args uncon => cases target <;> simp [OpCode.mapInputs, CallTarget.map]
      | lookup target args flag => cases target <;> simp [OpCode.mapInputs, LookupTarget.map]
      | dlookup target args flag => cases target <;> simp [OpCode.mapInputs, LookupTarget.map]
      | toRadix r v radix e n => cases radix <;> simp [OpCode.mapInputs, Radix.map]
      | _ => simp [OpCode.mapInputs]
    rw [OpCode.mapOperands, hinputs]
    exact OpCode.mapResults_eq_self fun _ _ => rfl
  have hterm (term : Terminator) : term.map id = term := by
    cases term <;> simp [Terminator.map]
  simp [renamed, funext hop, funext hterm]

/-- The function with the replacements collected so far. -/
def Merging.current (m : Merging) : Function :=
  renamedFunction m.valueReplacements.apply m.function

theorem current_start (f : Function) : Merging.current { function := f } = f := by
  have hid : ValueReplacements.apply [] = id := rfl
  have hpair : (fun p : BlockId × Block => (p.1, renamed id p.2)) = id := by
    funext p
    rw [renamed_id]
    rfl
  rw [Merging.current, hid, renamedFunction, hpair, List.map_id]

/-! ## A merge of the loop

A redundant jump survives the merge of another one.
-/

/-- Between two rounds: the jumps left are redundant. -/
structure Pending (constants : List (ValueId × Constant)) (m : Merging)
    (rest : List (BlockId × BlockId)) : Prop where
  total : ∀ v, (m.valueReplacements.getReplacement v).isSome
  keys : ∀ v w, m.valueReplacements.lookup v = some w → ∀ b, ¬m.current.DefinedIn b v
  wellFormed : m.current.WellFormed constants
  targets : (rest.map Prod.snd).Nodup
  redundant : ∀ j ∈ rest, ∃ r rblock tblock args, m.resolve j.1 = some r ∧
    m.resolve j.2 = some j.2 ∧ RedundantJump m.current r j.2 rblock tblock args

/-- A redundant jump into another block stays redundant, from the part its source is in. -/
theorem Merged.redundant {f f' : Function} {r t : BlockId} {rblock tblock : Block}
    {args : List ValueId} {σ : ValueId → ValueId}
    (hj : RedundantJump f r t rblock tblock args) (hm : Merged f f' r t rblock tblock σ)
    {r₁ t₁ : BlockId} {rblock₁ tblock₁ : Block}
    {args₁ : List ValueId} (hj₁ : RedundantJump f r₁ t₁ rblock₁ tblock₁ args₁) (hne : t₁ ≠ t) :
    ∃ rblock' tblock' args', RedundantJump f' (part r t r₁) t₁ rblock' tblock' args' := by
  obtain ⟨tblock', ht', -⟩ : ∃ block, f'.block t₁ = some block ∧ True := by
    by_cases htr : t₁ = r
    · exact ⟨_, htr ▸ hm.source, trivial⟩
    · refine ⟨renamed σ tblock₁, ?_, trivial⟩
      rw [hm.other t₁ htr hne, hj₁.target]
      rfl
  have honly : ∀ a, f'.Edge a t₁ → a = part r t r₁ := by
    intro a hedge
    have hat : a ≠ t := by
      rintro rfl
      obtain ⟨block, -, hblock, -⟩ := hedge
      exact absurd (hm.target.symm.trans hblock) (by simp)
    rcases (hm.edge_iff hj hat).mp hedge with ⟨-, ha⟩ | ⟨rfl, ht⟩
    · rw [← hj₁.only a ha, part_of_ne hat]
    · rw [← hj₁.only t ht, part_target]
  have hentry : t₁ ≠ f'.entryBlock := by
    rw [hm.entryBlock]
    exact hj₁.ne_entry
  by_cases hrt : r₁ = t
  · subst hrt
    obtain rfl := Option.some.inj (hj₁.source.symm.trans hj.target)
    refine ⟨renamed σ (joined rblock rblock₁), tblock', args₁.map σ, ?_, ht', ?_, honly, hentry⟩
    · rw [part_target]
      exact hm.source
    · rw [renamed, joined, hj₁.jump]
      rfl
  · have hrr : r₁ ≠ r := by
      rintro rfl
      obtain rfl := Option.some.inj (hj₁.source.symm.trans hj.source)
      exact hne (Terminator.jmp.inj (Option.some.inj (hj₁.jump.symm.trans hj.jump))).1
    refine ⟨renamed σ rblock₁, tblock', args₁.map σ, ?_, ht', ?_, honly, hentry⟩
    · rw [part_of_ne hrt, hm.other r₁ hrr hrt, hj₁.source]
      rfl
    · rw [renamed, hj₁.jump]
      rfl

theorem Pending.merge {constants : List (ValueId × Constant)} {m : Merging} {j : BlockId × BlockId}
    {rest : List (BlockId × BlockId)} (h : Pending constants m (j :: rest)) :
    ∃ m' r rblock tblock args, FixDoubleJumps.merge m j = some m' ∧ Pending constants m' rest ∧
      RedundantJump m.current r j.2 rblock tblock args ∧
      Merged m.current m'.current r j.2 rblock tblock (newName tblock args) := by
  obtain ⟨r, rblock, tblock, args, hr, ht, hj⟩ := h.redundant j List.mem_cons_self
  have hf := h.wellFormed
  have hrt := hj.ne hf
  -- the blocks before the replacements
  obtain ⟨rG, hrG, rfl⟩ := Option.map_eq_some_iff.mp
    ((block_renamedFunction _ m.function r).symm.trans hj.source)
  obtain ⟨tG, htG, rfl⟩ := Option.map_eq_some_iff.mp
    ((block_renamedFunction _ m.function j.2).symm.trans hj.target)
  obtain ⟨term, hterm, hjmp⟩ := Option.map_eq_some_iff.mp hj.jump
  obtain ⟨argsG, rfl, rfl⟩ : ∃ as, term = .jmp j.2 as ∧
      args = as.map m.valueReplacements.apply := by
    cases term with
    | jmp target as =>
      obtain ⟨rfl, rfl⟩ := Terminator.jmp.inj hjmp
      exact ⟨as, rfl, rfl⟩
    | jmpIf | «return» => exact absurd hjmp (by simp [Terminator.map])
  obtain ⟨tterm, htterm⟩ : ∃ t, tG.terminator = some t := by
    obtain ⟨t', ht'⟩ := hf.terminated j.2 _ hj.target
    obtain ⟨t, ht, -⟩ := Option.map_eq_some_iff.mp ht'
    exact ⟨t, ht⟩
  let params := tG.parameters.map Prod.fst
  let taken : Function := { m.function with blocks := m.function.blocks.filter (·.1 ≠ j.2) }
  let m' : Merging := {
    function := taken.modifyBlock r fun block => { block with
      instructions := block.instructions ++ tG.instructions
      terminator := some tterm }
    replacements := (j.2, r) :: m.replacements
    valueReplacements := insertAll m.valueReplacements params argsG }
  have htaken (b : BlockId) : taken.block b = if b = j.2 then none else m.function.block b :=
    lookup_filter_key j.2 m.function.blocks b
  have hstep : FixDoubleJumps.merge m j = some m' := by
    have hsource : taken.block r = some rG := by rw [htaken, if_neg hrt, hrG]
    simp only [FixDoubleJumps.merge, hr, ht, Option.bind_eq_bind, Option.bind_some,
      takeBlock_eq_some m.function j.2 htG]
    change (taken.block r).bind _ = _
    rw [hsource, Option.bind_some]
    simp only [hterm, jumpArgs, Option.bind_some, htterm]
    rfl
  -- the replacements afterwards
  have hnodup : params.Nodup := (List.nodup_append.mp (hf.ssa.once j.2 _ hj.target)).1
  have hlen : argsG.length = params.length := by
    rw [← List.length_map (f := m.valueReplacements.apply)]
    exact hj.length_args hf
  have hkeys : ∀ p ∈ params, m.valueReplacements.lookup p = none := by
    intro p hp
    cases hl : m.valueReplacements.lookup p with
    | none => rfl
    | some w => exact absurd (hj.definedIn_param hp) (h.keys p w hl j.2)
  have hget := getReplacement_insertAll h.total hnodup hlen hkeys fun a ha =>
    hj.arg_notMem hf (List.mem_map_of_mem ha)
  have happly : m'.valueReplacements.apply =
      newName (renamed m.valueReplacements.apply tG) (argsG.map m.valueReplacements.apply) ∘
        m.valueReplacements.apply := by
    funext v
    rw [ValueReplacements.apply, hget v]
    rfl
  have hm : Merged m.current m'.current r j.2 (renamed m.valueReplacements.apply rG)
      (renamed m.valueReplacements.apply tG) (newName (renamed m.valueReplacements.apply tG)
        (argsG.map m.valueReplacements.apply)) := by
    have hblock (b : BlockId) : m'.current.block b = _ :=
      block_renamedFunction m'.valueReplacements.apply m'.function b
    have hcurrent (b : BlockId) : m.current.block b = _ :=
      block_renamedFunction m.valueReplacements.apply m.function b
    have hmod (b : BlockId) : m'.function.block b = _ := block_modifyBlock taken r _ b
    refine ⟨?_, rfl, rfl, ?_, ?_, ?_⟩
    · rw [Merging.current, keys_renamedFunction]
      have hkeys' : m'.function.blocks.map Prod.fst = taken.blocks.map Prod.fst :=
        keys_modifyBlock taken r _
      have hall : (m.function.blocks.map Prod.fst).Nodup := by
        rw [← keys_renamedFunction m.valueReplacements.apply]
        exact hf.keys
      rw [hkeys']
      exact hall.sublist (List.filter_sublist.map _)
    · rw [hblock, hmod, if_pos rfl, htaken, if_neg hrt, hrG, happly, ← renamed_joined,
        renamed_renamed, joined, htterm]
      rfl
    · rw [hblock, hmod, if_neg hrt.symm, htaken, if_pos rfl]
      rfl
    · intro b hbr hbt
      rw [hblock, hmod, if_neg hbr, htaken, if_neg hbt, hcurrent, happly, Option.map_map]
      congr 1
      exact funext fun block => (renamed_renamed _ _ block).symm
  have htargets := List.nodup_cons.mp h.targets
  refine ⟨m', r, _, _, _, hstep, ⟨?_, ?_, hm.wellFormed hf hj, htargets.2, ?_⟩, hj, hm⟩
  · intro v
    rw [hget v]
    rfl
  · intro v w hl b hdef
    obtain ⟨b', hdef', -, hparam⟩ := hm.definedIn_back hf hj hdef
    have hl' : m.valueReplacements.lookup v = some w := by
      have hl₁ : (insertAll m.valueReplacements params argsG).lookup v = some w := hl
      have hparam' : v ∉ params := hparam
      rwa [lookup_insertAll hnodup hlen, if_neg hparam'] at hl₁
    exact h.keys v w hl' b' hdef'
  · intro j₁ hj₁
    obtain ⟨r₁, rblock₁, tblock₁, args₁, hr₁, ht₁, hred⟩ :=
      h.redundant j₁ (List.mem_cons_of_mem _ hj₁)
    have hne : j₁.2 ≠ j.2 := fun heq => htargets.1 (heq ▸ List.mem_map_of_mem hj₁)
    obtain ⟨rblock', tblock', args', hred'⟩ := hm.redundant hj hred hne
    have hresolve {b c : BlockId} (hb : m.resolve b = some c) :
        m'.resolve b = some (part r j.2 c) :=
      resolve_cons (lookup_of_resolve ht) (lookup_of_resolve hr) hrt hb
    refine ⟨_, rblock', tblock', args', hresolve hr₁, ?_, hred'⟩
    rw [hresolve ht₁, part_of_ne hne]

/-! ## Runs

Running alike is transitive, so that rounds compose.
-/

/-- From any state in which `f` is entered, `f'` runs as `f` does, whatever instructions
mean. -/
def RunsAs (constants : List (ValueId × Constant)) (f f' : Function) : Prop :=
  ∀ (V W : Type) [DecidableEq V] (S : Sem V W), ∃ R : State V W → State V W → Prop,
    Follows (blockStep S (S.table constants) f) (blockStep S (S.table constants) f') R ∧
    (∀ s s', R s s' → s.world = s'.world) ∧ ∀ s, f.Called s → f'.Called s ∧ R s s

theorem RunsAs.refl (constants : List (ValueId × Constant)) (f : Function) :
    RunsAs constants f f := by
  intro V W _ S
  refine ⟨Eq, ?_, fun s s' h => h ▸ rfl, fun s hs => ⟨hs, rfl⟩⟩
  rintro s _ rfl
  refine ⟨0, ?_⟩
  rw [Lib.iterate_one]
  exact .of_eq rfl fun _ _ => rfl

theorem RunsAs.trans {constants : List (ValueId × Constant)} {f f' f'' : Function}
    (h : RunsAs constants f f') (h' : RunsAs constants f' f'') : RunsAs constants f f'' := by
  intro V W _ S
  obtain ⟨R, hR, hworld, hstart⟩ := h V W S
  obtain ⟨R', hR', hworld', hstart'⟩ := h' V W S
  refine ⟨_, hR.trans hR', ?_, ?_⟩
  · rintro s s'' ⟨s', hs, hs'⟩
    exact (hworld s s' hs).trans (hworld' s' s'' hs')
  · intro s hs
    obtain ⟨hcalled, hrel⟩ := hstart s hs
    obtain ⟨hcalled', hrel'⟩ := hstart' s hcalled
    exact ⟨hcalled', s, hrel, hrel'⟩

theorem RunsAs.sameRuns {constants : List (ValueId × Constant)} {f f' : Function}
    (h : RunsAs constants f f') {V W : Type} [DecidableEq V] (S : Sem V W) {s : State V W}
    (hs : f.Called s) : SameRuns S (S.table constants) f f' s s := by
  obtain ⟨R, hR, hworld, hstart⟩ := h V W S
  intro k
  obtain ⟨m, n, hm, hn, hmeet⟩ := hR.rejoins.forever (hstart s hs).2 k
  exact ⟨m, n, hm, hn, hmeet.mono hworld⟩

/-- When a function is entered, its parameters are bound. -/
theorem agree_of_called {V W : Type} {S : Sem V W} {f : Function}
    {constants : List (ValueId × Constant)} (hf : f.WellFormed constants) {r t : BlockId}
    {rblock tblock : Block} {args : List ValueId}
    (hj : RedundantJump f r t rblock tblock args) {s : State V W} (hs : f.Called s) :
    Agree (S.table constants) f constants (newName tblock args) s.block [] s.env s.env := by
  obtain ⟨hblock, block, xs, hb, hlen, henv⟩ := hs
  intro v hv
  rw [hblock] at hv
  have hname {b : BlockId} (h : ∀ b', f.DefinedIn b' v → b' = b) (hbt : b ≠ t) :
      newName tblock args v = v :=
    newName_of_notMem fun hmem => hbt (h t (hj.definedIn_param hmem)).symm
  cases hv with
  | constant h =>
    obtain ⟨c, hc⟩ := Option.isSome_iff_exists.mp h
    have hread (env : Env V) : Env.read (S.table constants) env v = some (S.const c) := by
      rw [Env.read, Sem.table, hc]
      rfl
    have hname' : newName tblock args v = v := newName_of_notMem fun hmem => by
      rw [hf.ssa.noConstant t v (hj.definedIn_param hmem)] at h
      simp at h
    rw [hname']
    exact ⟨_, hread _, hread _⟩
  | param hb' hmem =>
    obtain rfl := Option.some.inj (hb.symm.trans hb')
    have hdef : f.DefinedIn f.entryBlock v := ⟨block, hb, List.mem_append_left _ hmem⟩
    rw [hname (fun b' h => hf.ssa.block v b' _ h hdef) hj.ne_entry.symm]
    have hK : S.table constants v = none := by
      rw [Sem.table, hf.ssa.noConstant _ v hdef]
      rfl
    obtain ⟨x, hx, -⟩ := @bindAll_congr V (fun _ => none) (fun _ => none) _ _
      (hlen.trans (List.length_map _).symm) v hmem
    have hread : Env.read (S.table constants) s.env v = some x := by
      rw [Env.read, hK, henv, hx]
      rfl
    exact ⟨x, hread, hread⟩
  | result h => exact absurd h List.not_mem_nil
  | dominated hne hdom _ =>
    exact absurd (List.mem_singleton.mp (hdom [] .start)) hne

theorem Merged.runsAs {f f' : Function} {constants : List (ValueId × Constant)} {r t : BlockId}
    {rblock tblock : Block} {args : List ValueId} (hf : f.WellFormed constants)
    (hj : RedundantJump f r t rblock tblock args)
    (hm : Merged f f' r t rblock tblock (newName tblock args)) : RunsAs constants f f' := by
  intro V W _ S
  refine ⟨_, hm.follows hf hj (S := S), fun s s' h => h.world, ?_⟩
  intro s hs
  have hag := agree_of_called (S := S) hf hj hs
  obtain ⟨hblock, block, xs, hb, hlen, henv⟩ := hs
  obtain ⟨block', hb', hparams⟩ := hm.exists_block hj hb hj.ne_entry.symm
  refine ⟨⟨?_, block', xs, ?_, ?_, ?_⟩, rfl, ?_, ?_, rfl, hag⟩
  · rw [hblock, hm.entryBlock]
  · rw [hm.entryBlock, hb']
  · rw [hparams, hlen]
  · rw [hparams, henv]
  · rw [hblock]
    exact hj.ne_entry.symm
  · rw [hblock]
    exact Function.hasBlock_of_eq hb

/-- All merges of the loop, in any order of the jumps. -/
theorem Pending.mergeAll {constants : List (ValueId × Constant)} {m : Merging}
    {rest : List (BlockId × BlockId)} (h : Pending constants m rest) :
    ∃ m', rest.foldlM FixDoubleJumps.merge m = some m' ∧ Pending constants m' [] ∧
      RunsAs constants m.current m'.current := by
  induction rest generalizing m with
  | nil => exact ⟨m, rfl, h, .refl constants m.current⟩
  | cons j rest ih =>
    obtain ⟨m₁, r, rblock, tblock, args, hstep, h₁, hj, hm⟩ := h.merge
    obtain ⟨m', hrest, h', hruns⟩ := ih h₁
    refine ⟨m', ?_, h', (hm.runsAs h.wellFormed hj).trans hruns⟩
    rw [List.foldlM_cons, hstep]
    exact hrest

/-- The replacements are applied without meeting a cycle. -/
theorem applyToFunction_eq {r : ValueReplacements} {f : Function}
    (htotal : ∀ v, (r.getReplacement v).isSome)
    (hterm : ∀ p ∈ f.blocks, ∃ t, p.2.terminator = some t) :
    applyToFunction r f = some (renamedFunction r.apply f) := by
  have hblocks : (f.blocks.mapM fun p => do
      let instructions ← p.2.instructions.mapM r.replaceInstruction
      let terminator ← p.2.terminator
      let terminator ← r.replaceTerminator terminator
      return (p.1, { p.2 with instructions, terminator := some terminator })) =
        some (f.blocks.map fun p => (p.1, renamed r.apply p.2)) := by
    rw [mapM_eq_some, List.forall₂_map_right_iff, List.forall₂_same]
    intro p hp
    obtain ⟨t, ht⟩ := hterm p hp
    have hops : p.2.instructions.mapM r.replaceInstruction
        = some (p.2.instructions.map (OpCode.mapOperands r.apply)) := by
      rw [mapM_eq_some, List.forall₂_map_right_iff, List.forall₂_same]
      intro op _
      exact if_pos fun v _ => htotal v
    have ht' : r.replaceTerminator t = some (t.map r.apply) := if_pos fun v _ => htotal v
    simp only [hops, ht, ht', Option.bind_eq_bind, Option.bind_some, renamed, Option.map_some,
      Option.pure_def]
  rw [applyToFunction, hblocks]
  rfl

/-- The jumps of a list are redundant, and no two lead into one block. -/
structure Redundant (f : Function) (jumps : List (BlockId × BlockId)) : Prop where
  targets : (jumps.map Prod.snd).Nodup
  jump : ∀ j ∈ jumps, ∃ rblock tblock args, RedundantJump f j.1 j.2 rblock tblock args

/-- Merging along any list of redundant jumps, in any order. -/
theorem mergeJumps_spec {f : Function} {constants : List (ValueId × Constant)}
    (hf : f.WellFormed constants) {jumps : List (BlockId × BlockId)} (hj : Redundant f jumps) :
    ∃ f', mergeJumps jumps f = some f' ∧ f'.WellFormed constants ∧ RunsAs constants f f' := by
  have hcurrent := current_start f
  have hstart : Pending constants { function := f } jumps := by
    refine ⟨fun _ => rfl, fun v w h => ?_, hcurrent.symm ▸ hf, hj.targets, fun j hmem => ?_⟩
    · exact absurd h (by simp)
    · obtain ⟨rblock, tblock, args, hred⟩ := hj.jump j hmem
      exact ⟨j.1, rblock, tblock, args, rfl, rfl, hcurrent.symm ▸ hred⟩
  obtain ⟨m, hfold, hend, hruns⟩ := hstart.mergeAll
  refine ⟨m.current, ?_, hend.wellFormed, hcurrent ▸ hruns⟩
  rw [mergeJumps, hfold]
  refine applyToFunction_eq hend.total ?_
  intro p hp
  have hkeys : (m.function.blocks.map Prod.fst).Nodup := by
    rw [← keys_renamedFunction m.valueReplacements.apply]
    exact hend.wellFormed.keys
  have hblock : m.current.block p.1 = some (renamed m.valueReplacements.apply p.2) := by
    rw [Merging.current, block_renamedFunction]
    have hlook : m.function.block p.1 = some p.2 := Lib.lookup_of_mem hkeys hp
    rw [hlook]
    rfl
  obtain ⟨t, ht⟩ := hend.wellFormed.terminated _ _ hblock
  obtain ⟨t', ht', -⟩ := Option.map_eq_some_iff.mp ht
  exact ⟨t', ht'⟩

end Mavros.FixDoubleJumps
