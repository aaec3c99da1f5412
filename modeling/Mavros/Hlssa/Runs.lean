/-
# `Mavros.Hlssa.Runs` — what a run keeps

A block changes the environment at the values it defines and nowhere else, the blocks
of a run form a walk in the control-flow graph, and a value is bound only where a
block that defines it was visited.

## What is proved

* `stepBlock_eq_jumped`, `stepBlock_frame`: what a block that jumps does to the environment.
* `Run.walk`: the blocks of a run are a walk, so that dominance speaks about runs.
* `Run.defined`, `Run.stable`, `Run.ended`: where a value comes from, and that it stays what it
  is until a block is visited that defines it.
* `execInstructions_mapInputs`: renaming what instructions read changes nothing when every value
  read is the one its new name reads.

The first three are consequences of the step function and use nothing of a function's form;
single assignment makes them useful, since then one block defines the value.
-/
import Mavros.Hlssa.Semantics
import Mavros.Lib.Flow

namespace Mavros.Hlssa

open Lib (Walk)

/-! ## The environment -/

section Env

variable {V : Type}

theorem Env.bindAll_of_notMem {v : ValueId} {vs : List ValueId} (hv : v ∉ vs) (env : Env V)
    (xs : List V) : env.bindAll vs xs v = env v := by
  induction vs generalizing env xs with
  | nil => rfl
  | cons u vs ih =>
    simp only [List.mem_cons, not_or] at hv
    cases xs with
    | nil => rfl
    | cons x xs => rw [Env.bindAll, ih hv.2, Function.update_of_ne hv.1]

theorem Env.mem_of_bindAll {v : ValueId} {vs : List ValueId} {env : Env V} {xs : List V} {y : V}
    (h : env.bindAll vs xs v = some y) (henv : env v = none) : v ∈ vs := by
  by_contra hv
  rw [Env.bindAll_of_notMem hv, henv] at h
  exact absurd h (by simp)

end Env

/-! ## One block

A step lemma for an instruction, for the instructions and for the jump, in this order.
-/

section Step

variable {V W : Type} {S : Sem V W} {K : Env V}

theorem execInstruction_frame {op : OpCode} {env env' : Env V} {w w' : W}
    (h : execInstruction S K op env w = (w', some env')) {v : ValueId} (hv : v ∉ op.results) :
    env' v = env v := by
  unfold execInstruction at h
  split at h
  · simp at h
  · split at h
    · simp at h
    · split at h
      · obtain ⟨-, rfl⟩ := Prod.mk.inj h |>.imp id Option.some.inj
        exact Env.bindAll_of_notMem hv env _
      · simp at h

theorem execInstructions_frame {ops : List OpCode} {env env' : Env V} {w w' : W}
    (h : execInstructions S K ops env w = (w', some env')) {v : ValueId}
    (hv : v ∉ ops.flatMap OpCode.results) : env' v = env v := by
  induction ops generalizing env w with
  | nil =>
    obtain ⟨-, rfl⟩ := Prod.mk.inj h |>.imp id Option.some.inj
    rfl
  | cons op ops ih =>
    simp only [List.flatMap_cons, List.mem_append, not_or] at hv
    rw [execInstructions] at h
    split at h
    · simp at h
    · next w₁ env₁ h₁ => exact (ih h hv.2).trans (execInstruction_frame h₁ hv.1)

theorem enter_eq_jumped {f : Function} {target : BlockId} {args : List V} {env : Env V} {w : W}
    {s' : State V W} (h : enter f target args env w = .jumped s') :
    ∃ b, f.block target = some b ∧ args.length = b.parameters.length ∧
      s' = ⟨target, env.bindAll (b.parameters.map Prod.fst) args, w⟩ := by
  unfold enter at h
  split at h
  · next b hb =>
    split at h
    · next hlen => exact ⟨b, hb, hlen, (Outcome.jumped.inj h).symm⟩
    · simp at h
  · simp at h

variable [DecidableEq V]

theorem execTerminator_eq_jumped {f : Function} {env : Env V} {w : W} {t : Terminator}
    {s' : State V W} (h : execTerminator S K f env w t = .jumped s') :
    ∃ target args, target ∈ t.targets ∧ enter f target args env w = .jumped s' := by
  cases t with
  | jmp target args =>
    simp only [execTerminator] at h
    split at h
    · exact ⟨target, _, by simp [Terminator.targets], h⟩
    · simp at h
  | jmpIf cond ifT ifF =>
    simp only [execTerminator] at h
    split at h
    · split at h
      · exact ⟨ifT, [], by simp [Terminator.targets], h⟩
      · split at h
        · exact ⟨ifF, [], by simp [Terminator.targets], h⟩
        · simp at h
    · simp at h
  | «return» vals =>
    simp only [execTerminator] at h
    split at h <;> simp at h

/-- What a block that jumps does: its instructions run, then the target's parameters are
bound. -/
theorem stepBlock_eq_jumped {f : Function} {s s' : State V W}
    (h : stepBlock S K f s = .jumped s') :
    ∃ b env w target args b', f.block s.block = some b ∧
      execInstructions S K b.instructions s.env s.world = (w, some env) ∧
      f.Edge s.block target ∧ f.block target = some b' ∧
      s' = ⟨target, env.bindAll (b'.parameters.map Prod.fst) args, w⟩ := by
  unfold stepBlock at h
  split at h
  · simp at h
  · next b hb =>
    split at h
    · simp at h
    · next w env hops =>
      split at h
      · simp at h
      · next t ht =>
        obtain ⟨target, args, htarget, henter⟩ := execTerminator_eq_jumped h
        obtain ⟨b', hb', -, rfl⟩ := enter_eq_jumped henter
        exact ⟨b, env, w, target, args, b', hb, hops, ⟨b, t, hb, ht, htarget⟩, hb', rfl⟩

theorem stepBlock_frame {f : Function} {s s' : State V W} (h : stepBlock S K f s = .jumped s')
    {v : ValueId}
    (hfrom : ∀ b, f.block s.block = some b → v ∉ b.instructions.flatMap OpCode.results)
    (hto : ∀ b, f.block s'.block = some b → v ∉ b.parameters.map Prod.fst) :
    s'.env v = s.env v := by
  obtain ⟨b, env, w, target, args, b', hb, hops, -, hb', rfl⟩ := stepBlock_eq_jumped h
  exact (Env.bindAll_of_notMem (hto b' hb') env args).trans
    (execInstructions_frame hops (hfrom b hb))

end Step

/-! ## Whole runs

By induction along the run, which lists its states from the latest back.
-/

section Run

variable {V W : Type} [DecidableEq V] {S : Sem V W} {K : Env V} {f : Function} {init : State V W}

theorem Run.tail {s s' : State V W} {hist : List (State V W)}
    (h : Run S K f init (s' :: s :: hist)) : Run S K f init (s :: hist) := by
  cases h with
  | step h _ => exact h

theorem Run.suffix {recent older : List (State V W)} {t : State V W}
    (h : Run S K f init (recent ++ t :: older)) : Run S K f init (t :: older) := by
  induction recent with
  | nil => exact h
  | cons s recent ih =>
    refine ih ?_
    cases hrest : recent ++ t :: older with
    | nil => simp at hrest
    | cons s' rest =>
      rw [List.cons_append, hrest] at h
      exact h.tail

/-- The blocks of a run are a walk. -/
theorem Run.walk {hist : List (State V W)} (h : Run S K f init hist)
    (hinit : init.block = f.entryBlock) :
    Walk f.entryBlock f.Edge (hist.map State.block) := by
  induction h with
  | start => simpa [hinit] using Walk.start
  | step _ hstep ih =>
    obtain ⟨b, env, w, target, args, b', -, -, hedge, -, rfl⟩ := stepBlock_eq_jumped hstep
    exact ih.step hedge

/-- A bound value is a parameter of the current block or was defined by an earlier one. -/
theorem Run.defined {s : State V W} {hist : List (State V W)} (h : Run S K f init (s :: hist))
    (hinit : f.Initial init) {v : ValueId} {x : V} (hx : s.env v = some x) :
    (∃ b, f.block s.block = some b ∧ v ∈ b.parameters.map Prod.fst) ∨
      ∃ t ∈ hist, f.DefinedIn t.block v := by
  generalize hall : s :: hist = all at h
  induction h generalizing s hist x with
  | start =>
    obtain ⟨rfl, rfl⟩ := List.cons.inj hall
    obtain ⟨hentry, b, args, hb, henv⟩ := hinit
    rw [henv] at hx
    exact .inl ⟨b, hentry ▸ hb, Env.mem_of_bindAll hx rfl⟩
  | @step s₁ s' older _ hstep ih =>
    obtain ⟨rfl, rfl⟩ := List.cons.inj hall
    obtain ⟨b, env, w, target, args, b', hb, hops, -, hb', rfl⟩ := stepBlock_eq_jumped hstep
    by_cases hparam : v ∈ b'.parameters.map Prod.fst
    · exact .inl ⟨b', hb', hparam⟩
    · right
      by_cases hres : v ∈ b.instructions.flatMap OpCode.results
      · exact ⟨s₁, List.mem_cons_self, b, hb, List.mem_append_right _ hres⟩
      · have henv : s₁.env v = some x := (execInstructions_frame hops hres).symm.trans
          ((Env.bindAll_of_notMem hparam env args).symm.trans hx)
        rcases ih henv rfl with ⟨b₁, hb₁, hv⟩ | ⟨t, ht, hdef⟩
        · exact ⟨s₁, List.mem_cons_self, b₁, hb₁, List.mem_append_left _ hv⟩
        · exact ⟨t, List.mem_cons_of_mem _ ht, hdef⟩

/-- A value that no block defines since `t` was entered has the value it had there. -/
theorem Run.stable {recent older : List (State V W)} {t : State V W}
    (h : Run S K f init (recent ++ t :: older)) {v : ValueId}
    (ht : ∀ b, f.block t.block = some b → v ∉ b.instructions.flatMap OpCode.results)
    (hrecent : ∀ s ∈ recent, ¬f.DefinedIn s.block v) :
    ∀ s, (recent ++ t :: older).head? = some s → s.env v = t.env v := by
  induction recent with
  | nil =>
    intro s hs
    obtain rfl : t = s := by simpa using hs
    rfl
  | cons s' recent ih =>
    intro s hs
    obtain rfl : s' = s := by simpa using hs
    obtain ⟨s₁, rest, hrest⟩ : ∃ s₁ rest, recent ++ t :: older = s₁ :: rest := by
      cases recent with
      | nil => exact ⟨t, older, rfl⟩
      | cons s₁ recent => exact ⟨s₁, recent ++ t :: older, rfl⟩
    rw [List.cons_append, hrest] at h
    have hs₁ := ih (hrest ▸ h.tail) (fun s hs => hrecent s (List.mem_cons_of_mem _ hs)) s₁
      (by rw [hrest]; rfl)
    refine Eq.trans ?_ hs₁
    have hto : ∀ b, f.block s'.block = some b → v ∉ b.parameters.map Prod.fst :=
      fun b hb hv => hrecent s' List.mem_cons_self ⟨b, hb, List.mem_append_left _ hv⟩
    cases h with
    | step _ hstep =>
      refine stepBlock_frame hstep (fun b hb hv => ?_) hto
      cases recent with
      | nil =>
        obtain ⟨rfl, -⟩ := List.cons.inj hrest
        exact ht b hb hv
      | cons s₂ recent =>
        obtain ⟨rfl, -⟩ := List.cons.inj hrest
        exact hrecent s₂ (by simp) ⟨b, hb, List.mem_append_right _ hv⟩

end Run

/-- The environment at the end of `t`'s block, and what is left of it later: all values
that no block has defined since. -/
theorem Run.ended [DecidableEq V] {S : Sem V W} {K : Env V} {f : Function} {init t s : State V W}
    {recent older : List (State V W)} (h : Run S K f init (recent ++ t :: older))
    (hne : recent ≠ []) (hs : (recent ++ t :: older).head? = some s) :
    ∃ block w env, f.block t.block = some block ∧
      execInstructions S K block.instructions t.env t.world = (w, some env) ∧
      ∀ v, (∀ s' ∈ recent, ¬f.DefinedIn s'.block v) → s.env v = env v := by
  induction recent generalizing s with
  | nil => exact absurd rfl hne
  | cons s' recent ih =>
    obtain rfl : s' = s := by simpa using hs
    cases recent with
    | nil =>
      cases h with
      | step _ hstep =>
        obtain ⟨b, env, w, target, args, b', hb, hops, -, hb', rfl⟩ := stepBlock_eq_jumped hstep
        refine ⟨b, w, env, hb, hops, fun v hv => Env.bindAll_of_notMem (fun hparam => ?_) env args⟩
        exact hv _ List.mem_cons_self ⟨b', hb', List.mem_append_left _ hparam⟩
    | cons s₁ recent =>
      obtain ⟨block, w, env, hblock, hexec, hkeep⟩ := ih h.tail (by simp) rfl
      refine ⟨block, w, env, hblock, hexec, fun v hv => ?_⟩
      rw [← hkeep v fun s hs => hv s (List.mem_cons_of_mem _ hs)]
      cases h with
      | step _ hstep =>
        refine stepBlock_frame hstep (fun b hb hres => ?_) fun b hb hparam => ?_
        · exact hv s₁ (by simp) ⟨b, hb, List.mem_append_right _ hres⟩
        · exact hv _ List.mem_cons_self ⟨b, hb, List.mem_append_left _ hparam⟩

/-! ## Renaming what a block reads -/

section Rename

variable {V W : Type} {S : Sem V W} {K K' : Env V} {ρ : ValueId → ValueId}

theorem mapM_read_congr {env : Env V} {vs : List ValueId}
    (h : ∀ v ∈ vs, Env.read K' env (ρ v) = Env.read K env v) :
    (vs.map ρ).mapM (Env.read K' env) = vs.mapM (Env.read K env) := by
  induction vs with
  | nil => rfl
  | cons v vs ih =>
    rw [List.forall_mem_cons] at h
    simp [h.1, ih h.2]

theorem shape_mapInputs (op : OpCode) : (op.mapInputs ρ).shape = op.shape := by
  rw [OpCode.shape, OpCode.mapOperands, OpCode.mapInputs_mapInputs]
  rfl

theorem execInstruction_mapInputs {op : OpCode} {env : Env V} {w : W}
    (h : ∀ v ∈ op.inputs, Env.read K' env (ρ v) = Env.read K env v) :
    execInstruction S K' (op.mapInputs ρ) env w = execInstruction S K op env w := by
  simp only [execInstruction, OpCode.inputs_mapInputs, OpCode.results_mapInputs, shape_mapInputs,
    mapM_read_congr h]

/-- Instructions that read renamed values do the same when every value read is the one
its new name reads, in all environments that differ at the defined values alone. -/
theorem execInstructions_mapInputs {ops : List OpCode} {env : Env V} {w : W}
    (h : ∀ env', (∀ v, v ∉ ops.flatMap OpCode.results → env' v = env v) →
      ∀ v ∈ ops.flatMap OpCode.inputs, Env.read K' env' (ρ v) = Env.read K env' v) :
    execInstructions S K' (ops.map (OpCode.mapInputs ρ)) env w
      = execInstructions S K ops env w := by
  induction ops generalizing env w with
  | nil => rfl
  | cons op ops ih =>
    have hop : ∀ v ∈ op.inputs, Env.read K' env (ρ v) = Env.read K env v := fun v hv =>
      h env (fun _ _ => rfl) v (by simp [hv])
    rw [List.map_cons, execInstructions, execInstructions, execInstruction_mapInputs hop]
    split
    · rfl
    · next w₁ env₁ h₁ =>
      refine ih fun env' henv' v hv => h env' (fun u hu => ?_) v (by
        rw [List.flatMap_cons]
        exact List.mem_append_right _ hv)
      simp only [List.flatMap_cons, List.mem_append, not_or] at hu
      exact (henv' u hu.2).trans (execInstruction_frame h₁ hu.1)

variable [DecidableEq V]

theorem execTerminator_map {f : Function} {env : Env V} {w : W} {t : Terminator}
    (h : ∀ v ∈ t.inputs, Env.read K' env (ρ v) = Env.read K env v) :
    execTerminator S K' f env w (t.map ρ) = execTerminator S K f env w t := by
  cases t with
  | jmp target args =>
    have hargs : (args.map ρ).mapM (Env.read K' env) = args.mapM (Env.read K env) :=
      mapM_read_congr h
    simp only [Terminator.map, execTerminator, hargs]
  | jmpIf cond ifT ifF =>
    have hc : Env.read K' env (ρ cond) = Env.read K env cond := h cond (by simp [Terminator.inputs])
    simp only [Terminator.map, execTerminator, hc]
  | «return» vals =>
    have hvals : (vals.map ρ).mapM (Env.read K' env) = vals.mapM (Env.read K env) :=
      mapM_read_congr h
    simp only [Terminator.map, execTerminator, hvals]

end Rename

end Mavros.Hlssa
