/-
# `Mavros.Passes.ReconstructedParams` — the arguments of `main` come back

The rebuilt entry is one array and one call for each parameter that is not a field.  Run on
the fields laid out for an input map it binds every parameter to its argument again, and on a
field outside the range of its leaf it does not run.  Where a parameter has more than
`2 ^ 32` fields an index wraps, and the argument is lost.

## What is proved

* `rebuildMainParams_inverse`: for parameters of at most `2 ^ 32` fields, from the input map over
  the flattened fields and the rebuilt entry, every parameter is bound to its argument
  (`RoundTrips`), and fields out of range have no run (`RejectsOutOfRange`).
* `wide_not_roundTrips`: the last of `65537` rows of `65536` fields starts at the index `2 ^ 32`,
  and the first row is read in its place.

## How it goes

`Rebuilds` is the shape of the new parameters and instructions, and `Rebuilds.exec` what running
them on bound fields does, parameter by parameter; `rebuildMainParams_rebuilds` says that the pass
makes this shape and that every call finds the function of its type.  The input side is
`Mavros.AbiHelpers`, whose flattening is compared with the fields a type counts.
-/
import Mavros.Hlssa.Runs
import Mavros.Lib.Lists
import Mavros.Passes.ReconstructedFields

namespace Mavros.PrepareEntryPoint

open Hlssa Hlssa.Emit AbiHelpers
open Lib (mapM_forall₂ forall₂_append_split forall₂_congr_left forall₂_replicate lookup_map_if)

/-! ## The reconstruct functions are found

A function once made is found again, and making others does not hide it.
-/

section Functions

/-- The functions made so far have ids of their own. -/
structure ReconstructFns.WF (fns : ReconstructFns) : Prop where
  below : ∀ entry ∈ fns.entries, entry.fnId < fns.nextFunctionId
  nodup : (fns.entries.map ReconstructFnEntry.fnId).Nodup

variable {fns : ReconstructFns} {t : TypeExpr}

theorem findReconstructFn_append {l l' : List ReconstructFnEntry}
    (h : (findReconstructFn t l).isSome) : (findReconstructFn t (l ++ l')).isSome := by
  simp only [findReconstructFn, Option.isSome_map, List.find?_append, Option.isSome_or] at h ⊢
  rw [h, Bool.true_or]

theorem ReconstructFns.WF.add (h : fns.WF) (t : TypeExpr) : (fns.add t).WF where
  below := by
    intro entry hentry
    rcases List.mem_append.mp hentry with hentry | hentry
    · exact Nat.lt_succ_of_lt (h.below entry hentry)
    · rw [List.mem_singleton.mp hentry]
      exact Nat.lt_succ_self _
  nodup := by
    rw [ReconstructFns.add, List.map_append, List.nodup_append]
    refine ⟨h.nodup, by simp, fun a ha b hb => ?_⟩
    obtain ⟨entry, hentry, rfl⟩ := List.mem_map.mp ha
    obtain rfl : b = fns.nextFunctionId := by simpa using hb
    exact (h.below entry hentry).ne

theorem findReconstructFn_add (fns : ReconstructFns) (t : TypeExpr) :
    (findReconstructFn t (fns.add t).entries).isSome := by
  simp [findReconstructFn, ReconstructFns.add]

/-- What making the function of a type does. -/
structure MadeFrom (fns fns' : ReconstructFns) : Prop where
  wf : fns.WF → fns'.WF
  kept : fns.entries <+: fns'.entries

theorem MadeFrom.refl (fns : ReconstructFns) : MadeFrom fns fns := ⟨id, List.prefix_rfl⟩

theorem MadeFrom.trans {a b c : ReconstructFns} (h : MadeFrom a b) (h' : MadeFrom b c) :
    MadeFrom a c := ⟨h'.wf ∘ h.wf, h.kept.trans h'.kept⟩

theorem MadeFrom.add (fns : ReconstructFns) (t : TypeExpr) : MadeFrom fns (fns.add t) :=
  ⟨fun h => h.add t, List.prefix_append ..⟩

theorem MadeFrom.found {fns' : ReconstructFns} (h : MadeFrom fns fns')
    (hfound : (findReconstructFn t fns.entries).isSome) :
    (findReconstructFn t fns'.entries).isSome := by
  obtain ⟨rest, heq⟩ := h.kept
  rw [← heq]
  exact findReconstructFn_append hfound

/-- A type whose children are made first. -/
theorem madeFrom_ite {fns' : ReconstructFns} (h : MadeFrom fns fns') :
    MadeFrom fns (if (findReconstructFn t fns.entries).isSome then fns else fns'.add t) ∧
      (findReconstructFn t (if (findReconstructFn t fns.entries).isSome then fns
        else fns'.add t).entries).isSome := by
  split
  · next hfound => exact ⟨.refl fns, hfound⟩
  · exact ⟨h.trans (.add fns' t), findReconstructFn_add fns' t⟩

mutual

theorem getOrCreateReconstructFn_made : ∀ (t : TypeExpr) (fns : ReconstructFns),
    MadeFrom fns (getOrCreateReconstructFn t fns) ∧
      (findReconstructFn t (getOrCreateReconstructFn t fns).entries).isSome
  | .array inner size, fns | .witnessOf inner, fns => by
    rw [getOrCreateReconstructFn]
    exact madeFrom_ite (getOrCreateReconstructFn_made inner fns).1
  | .tuple elementTypes, fns => by
    rw [getOrCreateReconstructFn]
    exact madeFrom_ite (getOrCreateReconstructFns_made elementTypes fns).1
  | .field, fns | .u _, fns | .i _, fns | .slice _, fns | .ref _, fns | .function, fns => by
    rw [getOrCreateReconstructFn]
    · exact madeFrom_ite (.refl fns)
    all_goals simp

theorem getOrCreateReconstructFns_made : ∀ (ts : List TypeExpr) (fns : ReconstructFns),
    MadeFrom fns (getOrCreateReconstructFns ts fns) ∧
      ∀ t ∈ ts, (findReconstructFn t (getOrCreateReconstructFns ts fns).entries).isSome
  | [], fns => by
    rw [getOrCreateReconstructFns]
    exact ⟨.refl fns, by simp⟩
  | t :: ts, fns => by
    obtain ⟨hmade, hfound⟩ := getOrCreateReconstructFn_made t fns
    obtain ⟨hmade', hfound'⟩ := getOrCreateReconstructFns_made ts (getOrCreateReconstructFn t fns)
    rw [getOrCreateReconstructFns]
    exact ⟨hmade.trans hmade', List.forall_mem_cons.mpr ⟨hmade'.found hfound, hfound'⟩⟩

end

/-- The function found for a type is the one that reconstructs it. -/
theorem find_entry_of_findReconstructFn {l : List ReconstructFnEntry} {fnId : FunctionId}
    (hnodup : (l.map ReconstructFnEntry.fnId).Nodup) (h : findReconstructFn t l = some fnId) :
    l.find? (fun entry => entry.fnId = fnId) = some ⟨t, fnId⟩ := by
  obtain ⟨entry, hfind, rfl⟩ := Option.map_eq_some_iff.mp h
  obtain rfl : entry.hlssaType = t := by simpa using List.find?_some hfind
  have hmem := List.mem_of_find?_eq_some hfind
  clear h hfind
  induction l with
  | nil => simp at hmem
  | cons first rest ih =>
    rw [List.map_cons, List.nodup_cons] at hnodup
    rcases List.mem_cons.mp hmem with rfl | hrest
    · rw [List.find?_cons_of_pos (by simp)]
    · have hne : first.fnId ≠ entry.fnId := fun heq =>
        hnodup.1 (heq ▸ List.mem_map_of_mem hrest)
      rw [List.find?_cons_of_neg (by simpa using hne)]
      exact ih hnodup.2 hrest

end Functions

/-! ## The rebuilt entry -/

section Entry

variable {fns : List ReconstructFnEntry} {n n' : ValueId} {ps P : List (ValueId × TypeExpr)}
  {I : List OpCode}

variable (fns) in
/-- The new parameters `P` and the instructions `I` for the parameters `ps`, with new values
from `n` on. -/
inductive Rebuilds : ValueId → List (ValueId × TypeExpr) → ValueId →
    List (ValueId × TypeExpr) → List OpCode → Prop
  | nil (n : ValueId) : Rebuilds n [] n [] []
  | field {n n' id : ValueId} {ps P I} : Rebuilds n ps n' P I →
      Rebuilds n ((id, .field) :: ps) n' ((id, .field) :: P) I
  | other {n n' id m : ValueId} {t : TypeExpr} {fnId : FunctionId} {ps P I} :
      flattenedFieldCount t = some m → findReconstructFn t fns = some fnId →
      Rebuilds (n + m + 1) ps n' P I →
      Rebuilds n ((id, t) :: ps) n' ((List.range' n m).map (fun field => (field, .field)) ++ P)
        (.mkSeq (n + m) (List.range' n m) (.array m) .field ::
          .call [id] (.static fnId) [n + m] false :: I)

/-- The types of the parameters of `main`. -/
def IsParamType : TypeExpr → Prop
  | .field | .u _ | .i _ | .array _ _ | .tuple _ => True
  | _ => False

theorem reconstructParam_other {t : TypeExpr} (ht : IsParamType t) (hfield : t ≠ .field)
    {m : Nat} (hm : flattenedFieldCount t = some m) {fnId : FunctionId}
    (hfn : findReconstructFn t fns = some fnId) (s : RebuiltParams) (id : ValueId) :
    reconstructParam fns s (id, t) = some {
      nextValueId := s.nextValueId + m + 1
      parameters := s.parameters ++ (List.range' s.nextValueId m).map fun field => (field, .field)
      instructions := s.instructions ++
        [.mkSeq (s.nextValueId + m) (List.range' s.nextValueId m) (.array m) .field,
          .call [id] (.static fnId) [s.nextValueId + m] false] } := by
  cases t with
  | field => exact absurd rfl hfield
  | u size | i size | array inner size | tuple ts => simp [reconstructParam, hm, hfn]
  | _ => exact ht.elim

/-- The pass rebuilds every parameter of a type that is counted. -/
theorem foldlM_reconstructParam (hps : ∀ p ∈ ps, IsParamType p.2 ∧
      (∃ m, flattenedFieldCount p.2 = some m) ∧ (findReconstructFn p.2 fns).isSome)
    (s : RebuiltParams) : ∃ n' P I, Rebuilds fns s.nextValueId ps n' P I ∧
      ps.foldlM (reconstructParam fns) s = some ⟨n', s.parameters ++ P, s.instructions ++ I⟩ := by
  induction ps generalizing s with
  | nil => exact ⟨s.nextValueId, [], [], .nil _, by simp⟩
  | cons p ps ih =>
    obtain ⟨id, t⟩ := p
    obtain ⟨⟨ht, ⟨m, hm⟩, hfn⟩, hrest⟩ := List.forall_mem_cons.mp hps
    obtain ⟨fnId, hfn⟩ := Option.isSome_iff_exists.mp hfn
    rw [List.foldlM_cons]
    by_cases hfield : t = .field
    · subst hfield
      obtain ⟨n', P, I, hrebuilds, hrun⟩ :=
        ih hrest { s with parameters := s.parameters ++ [(id, .field)] }
      refine ⟨n', (id, .field) :: P, I, .field hrebuilds, ?_⟩
      simpa [reconstructParam] using hrun
    · rw [reconstructParam_other ht hfield hm hfn, Option.bind_eq_bind, Option.bind_some]
      obtain ⟨n', P, I, hrebuilds, hrun⟩ := ih hrest _
      refine ⟨n', _, _, .other hm hfn hrebuilds, hrun.trans ?_⟩
      simp

/-- The new parameters are fields, as many as are counted. -/
theorem Rebuilds.parameters (h : Rebuilds fns n ps n' P I) :
    flattenedFieldCounts (ps.map Prod.snd) = some P.length ∧ ∀ p ∈ P, p.2 = .field := by
  induction h with
  | nil n => exact ⟨rfl, by simp⟩
  | field _ ih =>
    refine ⟨?_, List.forall_mem_cons.mpr ⟨rfl, ih.2⟩⟩
    rw [List.map_cons, flattenedFieldCounts, flattenedFieldCount, Option.bind_some, ih.1]
    exact congrArg some (Nat.add_comm ..)
  | other hm _ _ ih =>
    refine ⟨?_, List.forall_mem_append.mpr ⟨List.forall_mem_map.mpr fun _ _ => rfl, ih.2⟩⟩
    rw [List.map_cons, flattenedFieldCounts, hm, Option.bind_some, ih.1]
    simp

/-- New parameters are parameters of `main` or new. -/
theorem Rebuilds.mem_parameters (h : Rebuilds fns n ps n' P I) :
    ∀ p ∈ P, p.1 ∈ ps.map Prod.fst ∨ n ≤ p.1 := by
  induction h with
  | nil n => simp
  | field _ ih =>
    refine List.forall_mem_cons.mpr ⟨by simp, fun p hp => ?_⟩
    exact (ih p hp).imp_left (List.mem_cons_of_mem _)
  | other _ _ _ ih =>
    refine List.forall_mem_append.mpr ⟨fun p hp => ?_, fun p hp => ?_⟩
    · obtain ⟨field, hfield, rfl⟩ := List.mem_map.mp hp
      exact .inr (List.mem_range'_1.mp hfield).1
    · exact (ih p hp).imp (List.mem_cons_of_mem _) fun hle =>
        (Nat.le_add_right _ (_ + 1)).trans hle

theorem Rebuilds.mem_results (h : Rebuilds fns n ps n' P I) :
    ∀ v ∈ I.flatMap OpCode.results, v ∈ ps.map Prod.fst ∨ n ≤ v := by
  induction h with
  | nil n => simp
  | field _ ih => exact fun v hv => (ih v hv).imp_left (List.mem_cons_of_mem _)
  | @other n _ id m t fnId ps P I _ _ _ ih =>
    intro v hv
    simp only [List.flatMap_cons, OpCode.results, List.singleton_append, List.mem_cons] at hv
    rcases hv with rfl | rfl | hv
    · exact .inr (Nat.le_add_right ..)
    · exact .inl (by simp)
    · exact (ih v hv).imp (List.mem_cons_of_mem _) fun hle =>
        (Nat.le_add_right _ (_ + 1)).trans hle

section Run

variable {K env : Env Val} {fields : List Fr}

theorem mapM_read_range {m : Nat} (hK : ∀ v, n ≤ v → K v = none)
    (henv : List.Forall₂ (fun p x => env p.1 = some (Val.scalar x))
      ((List.range' n m).map fun field => (field, TypeExpr.field)) fields) :
    (List.range' n m).mapM (Env.read K env) = some (fields.map .scalar) := by
  rw [List.forall₂_map_left_iff] at henv
  have hle : ∀ v ∈ List.range' n m, n ≤ v := fun v hv => (List.mem_range'_1.mp hv).1
  generalize List.range' n m = vs at henv hle
  induction henv with
  | nil => rfl
  | @cons v x vs xs hv _ ih =>
    rw [List.forall_mem_cons] at hle
    have hread : Env.read K env v = some (.scalar x) := by
      rw [Env.read, hK v hle.1, Option.none_or, hv]
    rw [List.mapM_cons, hread, ih hle.2]
    rfl

/-- The array and the call of one parameter. -/
theorem exec_reconstruct (hnodup : (fns.map ReconstructFnEntry.fnId).Nodup) {m : Nat}
    {t : TypeExpr} {id : ValueId} {fnId : FunctionId} (hfn : findReconstructFn t fns = some fnId)
    (hK : ∀ v, n ≤ v → K v = none)
    (henv : List.Forall₂ (fun p x => env p.1 = some (Val.scalar x))
      ((List.range' n m).map fun field => (field, TypeExpr.field)) fields) :
    execInstructions (entrySem fns) K (.mkSeq (n + m) (List.range' n m) (.array m) .field ::
        .call [id] (.static fnId) [n + m] false :: I) env () =
      match (emitReconstructBody t (fieldArray fields) : Emit Unit Val) () with
      | some (v, _) => execInstructions (entrySem fns) K I
          (Function.update (Function.update env (n + m) (some (fieldArray fields))) id (some v)) ()
      | none => ((), none) := by
  have hseq : execInstruction (entrySem fns) K
      (.mkSeq (n + m) (List.range' n m) (.array m) .field) env ()
        = ((), some (Function.update env (n + m) (some (fieldArray fields)))) := by
    simp only [execInstruction, OpCode.inputs, mapM_read_range hK henv]
    rfl
  have hread : Env.read K (Function.update env (n + m) (some (fieldArray fields))) (n + m)
      = some (fieldArray fields) := by
    rw [Env.read, hK _ (Nat.le_add_right ..), Option.none_or, Function.update_self]
  have hfind := find_entry_of_findReconstructFn hnodup hfn
  rw [execInstructions, hseq]
  simp only [execInstructions, execInstruction, OpCode.inputs, CallTarget.inputs, List.nil_append,
    List.mapM_cons, List.mapM_nil, hread, Option.pure_def, Option.bind_eq_bind, Option.bind_some,
    entrySem, OpCode.shape, OpCode.mapOperands, OpCode.mapInputs, OpCode.mapResults, CallTarget.map,
    hfind, ReconstructFnEntry.run]
  cases (emitReconstructBody t (fieldArray fields) : Emit Unit Val) () with
  | none => rfl
  | some r => rfl

/-- Running the new instructions on bound fields: the parameters are bound to the arguments
these are the fields of, and there is no run on other fields. -/
theorem Rebuilds.exec (hnodup : (fns.map ReconstructFnEntry.fnId).Nodup)
    (h : Rebuilds fns n ps n' P I)
    (hcount : ∀ p ∈ ps, ∀ m, flattenedFieldCount p.2 = some m → m ≤ 2 ^ 32)
    (hbelow : ∀ v ∈ ps.map Prod.fst, v < n) (hids : (ps.map Prod.fst).Nodup)
    (hK : ∀ v, n ≤ v → K v = none)
    (henv : List.Forall₂ (fun p x => env p.1 = some (Val.scalar x)) P fields) :
    (∀ args, OfTypes (ps.map Prod.snd) args → flattenAll args = fields →
      ∃ env', execInstructions (entrySem fns) K I env () = ((), some env') ∧
        List.Forall₂ (fun p v => env' p.1 = some v) ps args) ∧
    (∀ env', execInstructions (entrySem fns) K I env () = ((), some env') →
      ∃ args, OfTypes (ps.map Prod.snd) args ∧ flattenAll args = fields) := by
  induction h generalizing env fields with
  | nil n =>
    cases henv
    refine ⟨fun args hargs _ => ?_, fun env' _ => ⟨[], trivial, rfl⟩⟩
    cases args with
    | nil => exact ⟨env, rfl, .nil⟩
    | cons v vs => exact hargs.elim
  | @field n n' id ps P I hrebuilds ih =>
    rw [List.forall_mem_cons] at hcount
    rw [List.map_cons, List.nodup_cons] at hids
    rw [List.map_cons, List.forall_mem_cons] at hbelow
    cases henv with
    | @cons _ x _ fields hid hrest =>
      obtain ⟨hforward, hbackward⟩ := ih hcount.2 hbelow.2 hids.2 hK hrest
      constructor
      · intro args hargs hflat
        cases args with
        | nil => exact hargs.elim
        | cons v vs =>
          obtain ⟨hv, hvs⟩ := hargs
          cases v with
          | seq elems => exact hv.elim
          | scalar y =>
            obtain ⟨rfl, rfl⟩ := List.cons.inj hflat
            obtain ⟨env', hexec, hbound⟩ := hforward vs hvs rfl
            refine ⟨env', hexec, .cons ?_ hbound⟩
            -- the other instructions leave the field alone
            rw [execInstructions_frame hexec fun hres => ?_]
            · exact hid
            · rcases hrebuilds.mem_results id hres with hmem | hle
              · exact hids.1 hmem
              · exact absurd hbelow.1 (Nat.not_lt.mpr hle)
      · intro env' hexec
        obtain ⟨args, hargs, rfl⟩ := hbackward env' hexec
        exact ⟨.scalar x :: args, ⟨trivial, hargs⟩, rfl⟩
  | @other n n' id m t fnId ps P I hm hfn hrebuilds ih =>
    rw [List.forall_mem_cons] at hcount
    rw [List.map_cons, List.nodup_cons] at hids
    rw [List.map_cons, List.forall_mem_cons] at hbelow
    obtain ⟨own, rest, rfl, hown, hrest⟩ := forall₂_append_split henv
    have hlen : own.length = m := by simpa using hown.length_eq.symm
    have hgives := emitReconstructBody_gives (σ := Unit) hm (hcount.1 m hm) hlen ()
    have hbelow' : ∀ v ∈ ps.map Prod.fst, v < n + m + 1 := fun v hv =>
      (hbelow.2 v hv).trans_le (Nat.le_add_right _ (m + 1))
    have hK' : ∀ v, n + m + 1 ≤ v → K v = none := fun v hv =>
      hK v ((Nat.le_add_right _ (m + 1)).trans hv)
    -- the fields of the other parameters are still bound
    have hlater : ∀ v : Val, List.Forall₂ (fun p x => Function.update (Function.update env (n + m)
        (some (fieldArray own))) id (some v) p.1 = some (Val.scalar x)) P rest := by
      intro v
      refine forall₂_congr_left hrest fun p hp x hpx => ?_
      have hne : p.1 ≠ id ∧ p.1 ≠ n + m := by
        rcases hrebuilds.mem_parameters p hp with hmem | hle
        · exact ⟨fun heq => hids.1 (heq ▸ hmem),
            ((hbelow.2 _ hmem).trans_le (Nat.le_add_right n m)).ne⟩
        · refine ⟨?_, (Nat.lt_of_succ_le hle).ne'⟩
          exact ((hbelow.1.trans_le (Nat.le_add_right n m)).trans (Nat.lt_of_succ_le hle)).ne'
      rw [Function.update_of_ne hne.1, Function.update_of_ne hne.2, hpx]
    rw [exec_reconstruct hnodup hfn hK hown]
    constructor
    · intro args hargs hflat
      cases args with
      | nil => exact hargs.elim
      | cons v vs =>
        obtain ⟨hv, hvs⟩ := hargs
        obtain ⟨hflatv, hflatvs⟩ := List.append_inj hflat ((OfType.length hv hm).trans hlen.symm)
        rw [(hgives v ()).mpr ⟨rfl, hv, hflatv⟩]
        obtain ⟨env', hexec, hbound⟩ :=
          (ih hcount.2 hbelow' hids.2 hK' (hlater v)).1 vs hvs hflatvs
        refine ⟨env', hexec, .cons ?_ hbound⟩
        rw [execInstructions_frame hexec fun hres => ?_]
        · exact Function.update_self ..
        · rcases hrebuilds.mem_results id hres with hmem | hle
          · exact hids.1 hmem
          · exact absurd (hbelow.1.trans_le ((Nat.le_add_right n (m + 1)).trans hle)) (lt_irrefl _)
    · intro env' hexec
      cases hrun : (emitReconstructBody t (fieldArray own) : Emit Unit Val) () with
      | none =>
        rw [hrun] at hexec
        simp at hexec
      | some r =>
        rw [hrun] at hexec
        obtain ⟨-, hv, hflatv⟩ := (hgives r.1 ()).mp hrun
        obtain ⟨vs, hvs, hflatvs⟩ :=
          (ih hcount.2 hbelow' hids.2 hK' (hlater r.1)).2 env' hexec
        exact ⟨r.1 :: vs, ⟨hv, hvs⟩, by rw [flattenAll, hflatv, hflatvs]⟩

end Run

end Entry

/-! ## The pass

The program before and after, and the four things the round trip is put together from.
-/

section Pass

/-- `main`, its entry block and the types of its parameters, which have ids of their own. -/
structure EntryParams (ssa : SSA) (main : Function) (entry : Block) (types : List TypeExpr) :
    Prop where
  hmain : ssa.function ssa.mainId = some main
  hentry : main.block main.entryBlock = some entry
  types : entry.parameters.map Prod.snd = types
  nodup : (entry.parameters.map Prod.fst).Nodup
  below : ∀ v ∈ entry.parameters.map Prod.fst, v < ssa.nextValueId
  constants : ∀ v, ssa.nextValueId ≤ v → ssa.constants.lookup v = none

/-- The program after the pass, with `P` and `I` at its entry. -/
structure Rebuilt (ssa : SSA) (entry : Block) (ssa' : SSA) (fns : List ReconstructFnEntry)
    (P : List (ValueId × TypeExpr)) (I : List OpCode) : Prop where
  run : rebuildMainParams ssa = some (ssa', fns)
  main : ∃ main', ssa'.function ssa'.mainId = some main' ∧ main'.block main'.entryBlock
    = some { entry with parameters := P, instructions := I ++ entry.instructions }

theorem Rebuilt.unique {ssa ssa₁ ssa₂ : SSA} {entry : Block} {fns₁ fns₂ : List ReconstructFnEntry}
    {P₁ P₂ : List (ValueId × TypeExpr)} {I₁ I₂ : List OpCode}
    (h₁ : Rebuilt ssa entry ssa₁ fns₁ P₁ I₁) (h₂ : Rebuilt ssa entry ssa₂ fns₂ P₂ I₂) :
    fns₁ = fns₂ ∧ P₁ = P₂ ∧ I₁ = I₂ := by
  obtain ⟨rfl, rfl⟩ := Prod.mk.inj (Option.some.inj (h₁.run.symm.trans h₂.run))
  obtain ⟨m₁, hm₁, hentry₁⟩ := h₁.main
  obtain ⟨m₂, hm₂, hentry₂⟩ := h₂.main
  obtain rfl := Option.some.inj (hm₁.symm.trans hm₂)
  have heq := Option.some.inj (hentry₁.symm.trans hentry₂)
  exact ⟨rfl, congrArg Block.parameters heq,
    List.append_cancel_right (congrArg Block.instructions heq)⟩

theorem rebuildMainParams_rebuilds {ssa : SSA} {main : Function} {entry : Block}
    {types : List TypeExpr} (h : EntryParams ssa main entry types)
    (htypes : ∀ t ∈ types, IsParamType t ∧ ∃ m, flattenedFieldCount t = some m) :
    ∃ ssa' fns n' P I, Rebuilt ssa entry ssa' fns P I ∧
      (fns.map ReconstructFnEntry.fnId).Nodup ∧
        Rebuilds fns ssa.nextValueId entry.parameters n' P I := by
  obtain ⟨hmade, hfound⟩ := getOrCreateReconstructFns_made (entry.parameters.map Prod.snd)
    { nextFunctionId := ssa.nextFunctionId }
  have hwf := hmade.wf ⟨by simp, by simp⟩
  have hps : ∀ p ∈ entry.parameters, IsParamType p.2 ∧ (∃ m, flattenedFieldCount p.2 = some m) ∧
      (findReconstructFn p.2 (getOrCreateReconstructFns (entry.parameters.map Prod.snd)
        { nextFunctionId := ssa.nextFunctionId }).entries).isSome := by
    intro p hp
    have hmem : p.2 ∈ entry.parameters.map Prod.snd := List.mem_map_of_mem hp
    obtain ⟨hparam, hcount⟩ := htypes p.2 (h.types ▸ hmem)
    exact ⟨hparam, hcount, hfound p.2 hmem⟩
  obtain ⟨n', P, I, hrebuilds, hrun⟩ :=
    foldlM_reconstructParam hps { nextValueId := ssa.nextValueId }
  let entry' : Block := { entry with parameters := P, instructions := I ++ entry.instructions }
  let main' : Function := { main with blocks := main.blocks.map fun b =>
    if b.1 = main.entryBlock then (b.1, entry') else b }
  let ssa' : SSA := { ssa with
    functions := ssa.functions.map fun f => if f.1 = ssa.mainId then (f.1, main') else f
    nextValueId := n'
    nextFunctionId := (getOrCreateReconstructFns (entry.parameters.map Prod.snd)
      { nextFunctionId := ssa.nextFunctionId }).nextFunctionId }
  refine ⟨ssa', _, n', P, I, ⟨?_, main', lookup_map_if h.hmain main',
    lookup_map_if h.hentry entry'⟩, hwf.nodup, hrebuilds⟩
  simp only [rebuildMainParams, h.hmain, h.hentry, hrun, Option.bind_eq_bind, Option.bind_some]
  rfl

/-! ### The arguments of an ABI -/

mutual

/-- The type `main` has for a parameter of an ABI type. -/
def typeExpr : AbiType → TypeExpr
  | .field => .field
  | .boolean => .u 1
  | .integer signed width => if signed then .i width else .u width
  | .array length typ => .array (typeExpr typ) length.toNat
  | .string length => .array (.u 8) length.toNat
  | .tuple fields => .tuple (typeExprs fields)
  | .struct fields => .tuple (typeExprsOf fields)

def typeExprs : List AbiType → List TypeExpr
  | [] => []
  | t :: ts => typeExpr t :: typeExprs ts

def typeExprsOf : List (String × AbiType) → List TypeExpr
  | [] => []
  | (_, t) :: ts => typeExpr t :: typeExprsOf ts

end

theorem isParamType_typeExpr (t : AbiType) : IsParamType (typeExpr t) := by
  cases t with
  | integer signed width => cases signed <;> trivial
  | _ => trivial

mutual

theorem flattenedFieldCount_typeExpr : ∀ t : AbiType, ∃ m, flattenedFieldCount (typeExpr t) = some m
  | .field | .boolean => ⟨1, rfl⟩
  | .integer signed width => ⟨1, by cases signed <;> rfl⟩
  | .string length => ⟨1 * length.toNat, rfl⟩
  | .array length t => by
    obtain ⟨m, hm⟩ := flattenedFieldCount_typeExpr t
    exact ⟨m * length.toNat, by rw [typeExpr, flattenedFieldCount, hm]; rfl⟩
  | .tuple ts => flattenedFieldCounts_typeExprs ts
  | .struct ts => flattenedFieldCounts_typeExprsOf ts

theorem flattenedFieldCounts_typeExprs : ∀ ts : List AbiType,
    ∃ m, flattenedFieldCounts (typeExprs ts) = some m
  | [] => ⟨0, rfl⟩
  | t :: ts => by
    obtain ⟨m, hm⟩ := flattenedFieldCount_typeExpr t
    obtain ⟨n, hn⟩ := flattenedFieldCounts_typeExprs ts
    exact ⟨m + n, by rw [typeExprs, flattenedFieldCounts, hm, Option.bind_some, hn]; rfl⟩

theorem flattenedFieldCounts_typeExprsOf : ∀ ts : List (String × AbiType),
    ∃ m, flattenedFieldCounts (typeExprsOf ts) = some m
  | [] => ⟨0, rfl⟩
  | (name, t) :: ts => by
    obtain ⟨m, hm⟩ := flattenedFieldCount_typeExpr t
    obtain ⟨n, hn⟩ := flattenedFieldCounts_typeExprsOf ts
    exact ⟨m + n, by rw [typeExprsOf, flattenedFieldCounts, hm, Option.bind_some, hn]; rfl⟩

end

theorem byte_lt {s : String} {x : Fr} (hx : x ∈ stringBytes s) : x.val < 2 ^ 8 := by
  obtain ⟨byte, -, rfl⟩ := List.mem_map.mp hx
  have hlt : byte.toNat < 2 ^ 8 := byte.toNat_lt
  rwa [val_natCast (by omega)]

mutual

/-- What an input value stands for is a value of the parameter's type. -/
theorem ofType_of_represents : ∀ {t : AbiType} {value : InputValue} {v : Val},
    Represents t value v → OfType (typeExpr t) v
  | .field, .field _, .scalar _, _ => trivial
  | .boolean, .field _, .scalar _, h => h.2
  | .integer signed _, .field _, .scalar _, h => by
    cases signed <;> exact h.2
  | .array length t, .vec elements, .seq vs, h => by
    refine ⟨h.2.length_eq.symm.trans h.1, fun v hv => ?_⟩
    obtain ⟨i, hi⟩ := List.mem_iff_getElem?.mp hv
    obtain ⟨hlt, rfl⟩ := List.getElem?_eq_some_iff.mp hi
    exact ofType_of_represents (h.2.get (h.2.length_eq ▸ hlt) hlt)
  | .string length, .string s, .seq vs, h => by
    obtain ⟨hlen, rfl⟩ := h
    refine ⟨by rw [List.length_map, hlen], fun v hv => ?_⟩
    obtain ⟨x, hx, rfl⟩ := List.mem_map.mp hv
    exact byte_lt hx
  | .tuple fields, .vec elements, .seq vs, h => ofTypes_of_representsElements h
  | .struct fields, .struct object, .seq vs, h => ofTypes_of_representsFields h

theorem ofTypes_of_representsElements : ∀ {ts : List AbiType} {elements : List InputValue}
    {vs : List Val}, RepresentsElements ts elements vs → OfTypes (typeExprs ts) vs
  | [], [], [], _ => trivial
  | _ :: _, _ :: _, _ :: _, h =>
    ⟨ofType_of_represents h.1, ofTypes_of_representsElements h.2⟩

theorem ofTypes_of_representsFields : ∀ {ts : List (String × AbiType)}
    {object : List (String × InputValue)} {vs : List Val}, RepresentsFields ts object vs →
      OfTypes (typeExprsOf ts) vs
  | [], _, [], _ => trivial
  | (_, _) :: _, _, _ :: _, h => by
    obtain ⟨⟨value, -, hvalue⟩, hrest⟩ := h
    exact ⟨ofType_of_represents hvalue, ofTypes_of_representsFields hrest⟩

end

/-! ### Leaves -/

mutual

/-- The types of the fields of a type, in order. -/
def leaves : TypeExpr → List TypeExpr
  | .array inner size => (List.replicate size (leaves inner)).flatten
  | .tuple ts => leavesAll ts
  | .witnessOf inner => leaves inner
  | t => [t]

def leavesAll : List TypeExpr → List TypeExpr
  | [] => []
  | t :: ts => leaves t ++ leavesAll ts

end

/-- The field is in the range of an integer leaf. -/
def InLeaf : TypeExpr → Fr → Prop
  | .u size, x | .i size, x => x.val < 2 ^ size
  | _, _ => True

theorem forall₂_replicate_flatten {α : Type} {R : α → Fr → Prop} {as : List α} {vs : List Val}
    (h : ∀ v ∈ vs, List.Forall₂ R as (flatten v)) :
    List.Forall₂ R (List.replicate vs.length as).flatten (flattenAll vs) := by
  induction vs with
  | nil => exact .nil
  | cons v vs ih =>
    rw [List.forall_mem_cons] at h
    rw [List.length_cons, List.replicate_succ, List.flatten_cons, flattenAll]
    exact List.rel_append h.1 (ih h.2)

mutual

theorem OfType.leaves : ∀ {t : TypeExpr} {v : Val}, OfType t v →
    List.Forall₂ InLeaf (leaves t) (flatten v)
  | .field, .scalar _, _ => .cons trivial .nil
  | .u _, .scalar _, h | .i _, .scalar _, h => .cons h .nil
  | .array inner size, .seq vs, h => by
    obtain ⟨rfl, hall⟩ := h
    exact forall₂_replicate_flatten fun v hv => OfType.leaves (hall v hv)
  | .tuple ts, .seq vs, h => OfTypes.leaves h
  | .witnessOf inner, v, h => by
    rw [OfType] at h
    show List.Forall₂ InLeaf (PrepareEntryPoint.leaves inner) (flatten v)
    exact OfType.leaves h

theorem OfTypes.leaves : ∀ {ts : List TypeExpr} {vs : List Val}, OfTypes ts vs →
    List.Forall₂ InLeaf (leavesAll ts) (flattenAll vs)
  | [], [], _ => .nil
  | _ :: _, _ :: _, h => List.rel_append (OfType.leaves h.1) (OfTypes.leaves h.2)

end

/-! ### The input map -/

/-- The named parameters and the return value. -/
def slots (abi : Abi) : List (String × AbiType) :=
  abi.parameters ++ (abi.returnType.map (Prod.mk mainReturnName)).toList

/-- The input map holds every argument, under the name of its parameter. -/
def Inputs (abi : Abi) (inputs : List (String × InputValue)) (args : List Val) : Prop :=
  List.Forall₂ (fun slot arg => ∃ value, inputs.lookup slot.1 = some value ∧
    Represents slot.2 value arg) (slots abi) args

theorem orderedParamsFromBtreemap_inputs {abi : Abi} {inputs : List (String × InputValue)}
    {args : List Val} (h : Inputs abi inputs args) :
    ∃ ordered, orderedParamsFromBtreemap abi inputs = some ordered ∧
      flattenParamVec ordered = some (flattenAll args) := by
  obtain ⟨args₁, args₂, rfl, h₁, h₂⟩ := forall₂_append_split h
  obtain ⟨ordered, hordered, hlaid⟩ := mapM_forall₂ (Q := LaidOut)
    (f := fun param => (inputs.lookup param.1).bind (orderedParam param.2))
      (fun slot arg hslot => by
      obtain ⟨value, hvalue, hrep⟩ := hslot
      obtain ⟨o, ho, hov⟩ := orderedParam_represents slot.2 value arg hrep
      exact ⟨o, by rw [hvalue, Option.bind_some, ho], hov⟩) h₁
  rw [orderedParamsFromBtreemap, Option.bind_eq_bind, hordered, Option.bind_some]
  cases hreturn : abi.returnType with
  | none =>
    rw [hreturn] at h₂
    cases h₂
    exact ⟨ordered, rfl, by rw [List.append_nil, flattenParamVec_laidOut hlaid]⟩
  | some t =>
    rw [hreturn] at h₂
    cases h₂ with
    | cons hslot hnil =>
      cases hnil
      obtain ⟨value, hvalue, hrep⟩ := hslot
      obtain ⟨o, ho, hov⟩ := orderedParam_represents t value _ hrep
      have hvalue : inputs.lookup mainReturnName = some value := hvalue
      have hall : List.Forall₂ LaidOut (ordered ++ [o]) (args₁ ++ [_]) :=
        List.rel_append hlaid (.cons hov .nil)
      refine ⟨ordered ++ [o], ?_, flattenParamVec_laidOut hall⟩
      rw [hvalue]
      simp only [ho, Option.bind_eq_bind, Option.bind_some]
      rfl

theorem ofTypes_of_inputs {abi : Abi} {inputs : List (String × InputValue)} {args : List Val}
    (h : Inputs abi inputs args) : OfTypes ((slots abi).map fun slot => typeExpr slot.2) args := by
  unfold Inputs at h
  generalize slots abi = l at h
  induction h with
  | nil => trivial
  | cons hslot _ ih =>
    obtain ⟨value, -, hrep⟩ := hslot
    exact ⟨ofType_of_represents hrep, ih⟩

/-! ### The round trip -/

/-- The entry block is entered with the fields. -/
def fieldEnv (P : List (ValueId × TypeExpr)) (fields : List Fr) : Env Val :=
  Env.bindAll (fun _ => none) (P.map Prod.fst) (fields.map .scalar)

/-- The instructions that rebuild the parameters, run on fields. -/
def runRebuilt (ssa : SSA) (fns : List ReconstructFnEntry) (P : List (ValueId × TypeExpr))
    (I : List OpCode) (fields : List Fr) : Option (Env Val) :=
  (execInstructions (entrySem fns) ((entrySem fns).table ssa.constants) I (fieldEnv P fields) ()).2

/-- From the input map over the fields back to the parameters of `main`: they are bound to the
arguments again, and there are as many fields as are counted. -/
def RoundTrips (abi : Abi) (inputs : List (String × InputValue)) (args : List Val) (ssa : SSA)
    (entry : Block) : Prop :=
  ∃ ordered fields ssa' fns P I, orderedParamsFromBtreemap abi inputs = some ordered ∧
    flattenParamVec ordered = some fields ∧
    flattenedFieldCounts (entry.parameters.map Prod.snd) = some fields.length ∧
    Rebuilt ssa entry ssa' fns P I ∧ P.map Prod.snd = List.replicate fields.length .field ∧
    ∃ env, runRebuilt ssa fns P I fields = some env ∧
      List.Forall₂ (fun p v => env p.1 = some v) entry.parameters args

/-- On a field outside the range of its integer leaf the rebuilt entry has no run. -/
def RejectsOutOfRange (ssa : SSA) (entry : Block) : Prop :=
  ∀ ssa' fns P I, Rebuilt ssa entry ssa' fns P I → ∀ fields : List Fr, fields.length = P.length →
    ∀ (i : Nat) (leaf : TypeExpr) (x : Fr),
      (leavesAll (entry.parameters.map Prod.snd))[i]? = some leaf → fields[i]? = some x →
        ¬InLeaf leaf x → runRebuilt ssa fns P I fields = none

theorem Rebuilds.nodup {fns : List ReconstructFnEntry} {n n' : ValueId}
    {ps P : List (ValueId × TypeExpr)} {I : List OpCode} (h : Rebuilds fns n ps n' P I)
    (hbelow : ∀ v ∈ ps.map Prod.fst, v < n) (hids : (ps.map Prod.fst).Nodup) :
    (P.map Prod.fst).Nodup := by
  induction h with
  | nil n => exact List.nodup_nil
  | @field n n' id ps P I hrebuilds ih =>
    rw [List.map_cons, List.nodup_cons] at hids ⊢
    rw [List.map_cons, List.forall_mem_cons] at hbelow
    refine ⟨fun hmem => ?_, ih hbelow.2 hids.2⟩
    obtain ⟨p, hp, rfl⟩ := List.mem_map.mp hmem
    rcases hrebuilds.mem_parameters p hp with hmem | hle
    · exact hids.1 hmem
    · exact absurd hbelow.1 (Nat.not_lt.mpr hle)
  | @other n n' id m t fnId ps P I hm hfn hrebuilds ih =>
    rw [List.map_cons, List.nodup_cons] at hids
    rw [List.map_cons, List.forall_mem_cons] at hbelow
    rw [List.map_append, List.map_map, List.nodup_append]
    refine ⟨?_, ih (fun v hv => (hbelow.2 v hv).trans_le (Nat.le_add_right _ (m + 1))) hids.2, ?_⟩
    · exact (List.map_id' (List.range' n m)).symm ▸ List.nodup_range'
    · intro a ha b hb
      obtain ⟨field, hfield, rfl⟩ := List.mem_map.mp ha
      obtain ⟨p, hp, rfl⟩ := List.mem_map.mp hb
      obtain ⟨hge, hlt⟩ := List.mem_range'_1.mp hfield
      rcases hrebuilds.mem_parameters p hp with hmem | hle
      · exact ((hbelow.2 _ hmem).trans_le hge).ne'
      · exact (hlt.trans (Nat.lt_of_succ_le hle)).ne

theorem fieldEnv_bound {P : List (ValueId × TypeExpr)} {fields : List Fr}
    (hnodup : (P.map Prod.fst).Nodup) (hlen : fields.length = P.length) :
    List.Forall₂ (fun p x => fieldEnv P fields p.1 = some (.scalar x)) P fields := by
  unfold fieldEnv
  generalize (fun _ => none : Env Val) = env
  induction P generalizing fields env with
  | nil =>
    rw [List.length_eq_zero_iff.mp hlen]
    exact .nil
  | cons p P ih =>
    cases fields with
    | nil => simp at hlen
    | cons x fields =>
      rw [List.map_cons, List.nodup_cons] at hnodup
      refine .cons ?_ (ih hnodup.2 (Nat.succ.inj hlen) _)
      exact (Env.bindAll_of_notMem hnodup.1 _ _).trans (Function.update_self ..)

variable {ssa : SSA} {main : Function} {entry : Block} {types : List TypeExpr}

/-- What a run of the rebuilt entry gives on any list of fields. -/
theorem EntryParams.run (h : EntryParams ssa main entry types)
    (htypes : ∀ t ∈ types, IsParamType t ∧ ∃ m, flattenedFieldCount t = some m ∧ m ≤ 2 ^ 32) :
    ∃ ssa' fns P I, Rebuilt ssa entry ssa' fns P I ∧ flattenedFieldCounts types = some P.length ∧
      (∀ p ∈ P, p.2 = .field) ∧ ∀ fields : List Fr, fields.length = P.length →
        (∀ args, OfTypes types args → flattenAll args = fields → ∃ env,
          runRebuilt ssa fns P I fields = some env ∧
            List.Forall₂ (fun p v => env p.1 = some v) entry.parameters args) ∧
        (∀ env, runRebuilt ssa fns P I fields = some env →
          ∃ args, OfTypes types args ∧ flattenAll args = fields) := by
  obtain ⟨ssa', fns, n', P, I, hrebuilt, hnodup, hrebuilds⟩ := rebuildMainParams_rebuilds h
    fun t ht => ⟨(htypes t ht).1, (htypes t ht).2.imp fun _ hm => hm.1⟩
  obtain ⟨hcounts, hfields⟩ := hrebuilds.parameters
  refine ⟨ssa', fns, P, I, hrebuilt, h.types ▸ hcounts, hfields, fun fields hlen => ?_⟩
  have hK : ∀ v, ssa.nextValueId ≤ v → (entrySem fns).table ssa.constants v = none := by
    intro v hv
    rw [Sem.table, h.constants v hv]
    rfl
  have hle : ∀ p ∈ entry.parameters, ∀ m, flattenedFieldCount p.2 = some m → m ≤ 2 ^ 32 := by
    intro p hp m hm
    obtain ⟨-, k, hk, hbound⟩ := htypes p.2 (h.types ▸ List.mem_map_of_mem hp)
    exact Option.some.inj (hm.symm.trans hk) ▸ hbound
  obtain ⟨hforward, hbackward⟩ := hrebuilds.exec hnodup hle h.below h.nodup hK
    (fieldEnv_bound (hrebuilds.nodup h.below h.nodup) hlen)
  rw [h.types] at hforward hbackward
  constructor
  · intro args hargs hflat
    obtain ⟨env, hexec, hbound⟩ := hforward args hargs hflat
    exact ⟨env, by rw [runRebuilt, hexec], hbound⟩
  · intro env henv
    exact hbackward env (Prod.ext rfl henv)

/-- Flattening and reconstruction are inverse, for parameters of at most `2 ^ 32` fields. -/
theorem rebuildMainParams_inverse (abi : Abi) (inputs : List (String × InputValue))
    (args : List Val) (ssa : SSA) (main : Function) (entry : Block)
    (hmain : EntryParams ssa main entry ((slots abi).map fun slot => typeExpr slot.2))
    (hinputs : Inputs abi inputs args)
    (hcount : ∀ slot ∈ slots abi, ∀ m, flattenedFieldCount (typeExpr slot.2) = some m →
      m ≤ 2 ^ 32) :
    RoundTrips abi inputs args ssa entry ∧ RejectsOutOfRange ssa entry := by
  have htypes : ∀ t ∈ (slots abi).map (fun slot => typeExpr slot.2), IsParamType t ∧
      ∃ m, flattenedFieldCount t = some m ∧ m ≤ 2 ^ 32 := by
    intro t ht
    obtain ⟨slot, hslot, rfl⟩ := List.mem_map.mp ht
    obtain ⟨m, hm⟩ := flattenedFieldCount_typeExpr slot.2
    exact ⟨isParamType_typeExpr slot.2, m, hm, hcount slot hslot m hm⟩
  obtain ⟨ssa', fns, P, I, hrebuilt, hcounts, hfields, hrun⟩ := hmain.run htypes
  constructor
  · obtain ⟨ordered, hordered, hflat⟩ := orderedParamsFromBtreemap_inputs hinputs
    have hargs := ofTypes_of_inputs hinputs
    have hlen : (flattenAll args).length = P.length := OfTypes.length hargs hcounts
    refine ⟨ordered, flattenAll args, ssa', fns, P, I, hordered, hflat, ?_, hrebuilt, ?_,
      (hrun _ hlen).1 args hargs rfl⟩
    · rw [hmain.types, hlen, hcounts]
    · rw [hlen, ← List.length_map (f := Prod.snd), List.eq_replicate_length]
      exact List.forall_mem_map.mpr hfields
  · intro ssa₁ fns₁ P₁ I₁ hrebuilt₁ fields hlen i leaf x hleaf hx hout
    obtain ⟨rfl, rfl, rfl⟩ := hrebuilt₁.unique hrebuilt
    cases henv : runRebuilt ssa fns₁ P₁ I₁ fields with
    | none => rfl
    | some env =>
      obtain ⟨args', hargs', rfl⟩ := (hrun fields hlen).2 env henv
      have hleaves := OfTypes.leaves hargs'
      rw [hmain.types] at hleaf
      obtain ⟨hlt, rfl⟩ := List.getElem?_eq_some_iff.mp hleaf
      obtain ⟨hlt', rfl⟩ := List.getElem?_eq_some_iff.mp hx
      exact absurd (hleaves.get hlt hlt') hout

/-! ### One parameter -/

def paramBlock (t : TypeExpr) : Block where
  parameters := [(0, t)]
  instructions := []
  terminator := some (.return [])

def paramMain (t : TypeExpr) : Function where
  blocks := [(0, paramBlock t)]
  returns := []

/-- A program whose `main` has one parameter. -/
def paramProgram (t : TypeExpr) : SSA where
  functions := [(0, paramMain t)]
  mainId := 0
  nextFunctionId := 1
  nextValueId := 1
  constants := []

theorem paramProgram_params (t : TypeExpr) :
    EntryParams (paramProgram t) (paramMain t) (paramBlock t) [t] where
  hmain := rfl
  hentry := rfl
  types := rfl
  nodup := by simp [paramBlock]
  below := by simp [paramBlock, paramProgram]
  constants _ _ := rfl

/-- A pair of a bit and two bytes. -/
def pairAbi : Abi where
  parameters := [("x", .tuple [.boolean, .array 2 (.integer false 8)])]

/-- The round trip of a pair, and a third bit value that is rejected. -/
theorem rebuildMainParams_inverse_pair :
    RoundTrips pairAbi [("x", .vec [.field 1, .vec [.field 7, .field 255]])]
      [.seq [.scalar 1, .seq [.scalar 7, .scalar 255]]]
      (paramProgram (.tuple [.u 1, .array (.u 8) 2]))
        (paramBlock (.tuple [.u 1, .array (.u 8) 2])) ∧
    RejectsOutOfRange (paramProgram (.tuple [.u 1, .array (.u 8) 2]))
      (paramBlock (.tuple [.u 1, .array (.u 8) 2])) := by
  refine rebuildMainParams_inverse pairAbi _ _ _ _ _ (paramProgram_params _) ?_ ?_
  · refine .cons ⟨_, rfl, ⟨rfl, by decide⟩, ⟨rfl, ?_⟩, trivial⟩ .nil
    exact .cons ⟨rfl, by decide⟩ (.cons ⟨rfl, by decide⟩ .nil)
  · intro slot hslot m hm
    obtain rfl : slot = ("x", .tuple [.boolean, .array 2 (.integer false 8)]) := by
      simpa [slots, pairAbi] using hslot
    obtain rfl : 3 = m := Option.some.inj hm
    decide

/-! ### An index that wraps -/

section Wide

def wideType : AbiType := .array 65537 (.array 65536 .field)

def wideAbi : Abi where
  parameters := [("x", wideType)]

def wideRow (c : Fr) : Val := .seq (List.replicate 65536 (.scalar c))

def wideInputRow (c : Fr) : InputValue := .vec (List.replicate 65536 (.field c))

/-- All rows but the last are zero. -/
def wideArg : Val := .seq (List.replicate 65536 (wideRow 0) ++ [wideRow 1])

def wideInput : InputValue :=
  .vec (List.replicate 65536 (wideInputRow 0) ++ [wideInputRow 1])

theorem wideRow_represents (c : Fr) : Represents (.array 65536 .field) (wideInputRow c)
    (wideRow c) := by
  have hscalar : Represents .field (.field c) (.scalar c) := rfl
  refine ⟨?_, forall₂_replicate hscalar 65536⟩
  rw [List.length_replicate]
  rfl

theorem wide_inputs : Inputs wideAbi [("x", wideInput)] [wideArg] := by
  refine .cons ⟨wideInput, rfl, ?_, ?_⟩ .nil
  · rw [List.length_append, List.length_replicate]
    rfl
  · exact List.rel_append (forall₂_replicate (wideRow_represents 0) 65536)
      (.cons (wideRow_represents 1) .nil)

theorem flatten_wideRow (c : Fr) : flatten (wideRow c) = List.replicate 65536 c := by
  rw [wideRow, flatten, ← List.map_replicate, flattenAll_map_scalar]

theorem flatten_wideArg_take : (flatten wideArg).take 65536 = List.replicate 65536 0 := by
  rw [wideArg, flatten, List.replicate_succ (n := 65535), List.cons_append, flattenAll,
    flatten_wideRow, List.take_left' List.length_replicate]

/-- The reconstruct function reads the first row's fields for the last row. -/
theorem emitReconstructBody_wide {fields : List Fr} (hlen : fields.length = 65536 * 65537)
    {v : Val} (h : (emitReconstructBody (typeExpr wideType) (fieldArray fields) : Emit Unit Val) ()
      = some (v, ())) :
    ∃ vs, v = .seq vs ∧ ∀ u, vs[65536]? = some u → flatten u = fields.take 65536 := by
  have hwidth : flattenedFieldCount (.array .field 65536) = some 65536 := rfl
  have hstart : ∀ i < 65537, childStart i 65536 + 65536 ≤ 2 ^ 32 := by
    intro i hi
    unfold childStart
    rw [if_neg (by decide)]
    omega
  have hchild : ∀ i : Nat, i < 65537 → ∀ s : Unit,
      emitReconstructChildInputArrayAtIndex (fieldArray fields) (.scalar (i : Fr)) 65536 s
        = some (fieldArray ((fields.drop (childStart i 65536)).take 65536), s) := by
    intro i hi s
    have hle := hstart i hi
    exact emitReconstructChildInputArrayAtIndex_eq (by omega) (by omega) hle
  have hinner : ∀ i < 65537, Gives (emitReconstructBody (.array .field 65536)
      (fieldArray ((fields.drop (childStart i 65536)).take 65536)) : Emit Unit Val)
      (.array .field 65536) ((fields.drop (childStart i 65536)).take 65536) := by
    intro i hi
    have hle := hstart i hi
    refine emitReconstructBody_gives hwidth (by decide) ?_
    rw [List.length_take, List.length_drop]
    omega
  obtain ⟨-, vs, -, rfl, hall⟩ := (emitReconstructArray_iff hwidth hchild hinner () v ()).mp h
  refine ⟨vs, rfl, fun u hu => ?_⟩
  have hwrap : childStart 65536 65536 = 0 := rfl
  rw [(hall 65536 u hu).2, hwrap, List.drop_zero]

/-- The last row of `65537` rows of `65536` fields starts at index `2 ^ 32`, which wraps to the
first: the argument does not come back. -/
theorem wide_not_roundTrips : EntryParams (paramProgram (typeExpr wideType))
      (paramMain (typeExpr wideType)) (paramBlock (typeExpr wideType))
      ((slots wideAbi).map fun slot => typeExpr slot.2) ∧
    Inputs wideAbi [("x", wideInput)] [wideArg] ∧
    ¬RoundTrips wideAbi [("x", wideInput)] [wideArg] (paramProgram (typeExpr wideType))
      (paramBlock (typeExpr wideType)) := by
  refine ⟨paramProgram_params _, wide_inputs, ?_⟩
  rintro ⟨ordered, fields, ssa₁, fns₁, P₁, I₁, hordered, hflat, hcount, hrebuilt₁, hP, env, henv,
    hargs⟩
  -- the fields are those of the argument
  obtain ⟨ordered', hordered', hflat'⟩ := orderedParamsFromBtreemap_inputs wide_inputs
  obtain rfl := Option.some.inj (hordered.symm.trans hordered')
  obtain rfl := Option.some.inj (hflat.symm.trans hflat')
  have hflatten : flattenAll [wideArg] = flatten wideArg := by
    rw [flattenAll, flattenAll, List.append_nil]
  rw [hflatten] at hcount hP henv
  have hlen : (flatten wideArg).length = 65536 * 65537 := (Option.some.inj hcount).symm
  -- the rebuilt entry is one array and one call
  obtain ⟨ssa', fns, n', P, I, hrebuilt, hnodup, hrebuilds⟩ :=
    rebuildMainParams_rebuilds (paramProgram_params (typeExpr wideType)) (by
      intro t ht
      rw [List.mem_singleton.mp ht]
      exact ⟨isParamType_typeExpr _, flattenedFieldCount_typeExpr _⟩)
  obtain ⟨rfl, rfl, rfl⟩ := hrebuilt₁.unique hrebuilt
  have hids : ((paramBlock (typeExpr wideType)).parameters.map Prod.fst).Nodup :=
    (paramProgram_params (typeExpr wideType)).nodup
  have hPlen : P₁.length = (flatten wideArg).length := by
    rw [← List.length_map (f := Prod.snd), hP, List.length_replicate]
  have hbound := fieldEnv_bound (hrebuilds.nodup (paramProgram_params _).below hids) hPlen.symm
  cases hrebuilds with
  | other hm hfn hnil =>
    cases hnil
    have hK : ∀ v, (paramProgram (typeExpr wideType)).nextValueId ≤ v →
        (entrySem fns₁).table (paramProgram (typeExpr wideType)).constants v = none :=
      fun _ _ => rfl
    rw [List.append_nil] at hbound henv
    rw [runRebuilt, exec_reconstruct hnodup hfn hK hbound] at henv
    cases hrun : (emitReconstructBody (typeExpr wideType) (fieldArray (flatten wideArg)) :
        Emit Unit Val) () with
    | none =>
      rw [hrun] at henv
      simp at henv
    | some r =>
      rw [hrun] at henv
      obtain rfl := (Option.some.inj henv).symm
      cases hargs with
      | cons harg _ =>
        -- the call would have given the argument back
        rw [Function.update_self, Option.some.injEq] at harg
        obtain ⟨vs, hvs, hlast⟩ := emitReconstructBody_wide hlen hrun
        have hrow := hlast (wideRow 1) (by
          obtain rfl := Val.seq.inj (harg.symm.trans hvs)
          rw [List.getElem?_append_right (by rw [List.length_replicate]), List.length_replicate]
          rfl)
        rw [flatten_wideRow, flatten_wideArg_take, List.replicate_right_inj (by decide)] at hrow
        exact one_ne_zero hrow

end Wide

end Pass

end Mavros.PrepareEntryPoint
