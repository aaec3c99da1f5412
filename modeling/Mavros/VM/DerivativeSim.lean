/-
# `Mavros.VM.DerivativeSim` — the derivative program computes the matrix derivative

Run the same program symbolically and on the derivative machine.  Every variable points
to the block of the value the generator has for it, and the totals follow the generator's
rows.  A program that drops every variable it makes leaves an empty heap behind, so that
nothing is pending any more: what the outputs hold then is `compute_derivatives` of the
sealed system, for every vector of coefficients.

## What is proved

`Program.computesDerivatives`: every program that the generator takes to its end and can seal has a
derivative run on any coefficients; where it has used up its variables the outputs are, entry by
entry, those of `compute_derivatives` on the sealed system, and `check_ad_output` accepts them.

## What is asked of the program

Two things, both of which the generator does not ask: spread tables of at most 16 bits, and no
array that has a table overwritten in place (`Program.ReusesUntabledAd`, decidable along the run).

## How it goes

`AdSim` relates the two states in the middle of a run, with the references that operands have
brought along and that are not bound again yet (`flying`), so that an instruction is a few moves:
take the operands, operate, push the result.  `step` is one instruction, `run` the
induction.  The final state is fixed in advance, since the machine's offsets are those of the
system that it leads to.
-/
import Mavros.VM.DerivativeRel
import Mavros.VM.ForwardSpec

namespace Mavros

open Lib Lib.Store

/-! ## Conditions -/

/-- An array with a single reference to it has no table. -/
def Ad.SoleUntabled (v : Ad) (arr : Var) : Prop :=
  ∀ p ∈ v.env.read arr, ∀ c ∈ v.vm.mem.heap.get? p, c.rc = 1 → c.val.tableId = none

instance (v : Ad) : DecidablePred v.SoleUntabled := fun arr =>
  inferInstanceAs (Decidable
    (∀ p ∈ v.env.read arr, ∀ c ∈ v.vm.mem.heap.get? p, c.rc = 1 → c.val.tableId = none))

/-- `array_set` does not overwrite an array that has a table. -/
def Instr.ReusesUntabledAd (v : Ad) : Instr → Prop
  | arraySet _ arr _ _ => v.SoleUntabled arr
  | arraySetPure _ arr _ _ => v.SoleUntabled arr
  | _ => True

instance (v : Ad) : DecidablePred (Instr.ReusesUntabledAd v)
  | .arraySet _ arr _ _ => inferInstanceAs (Decidable (v.SoleUntabled arr))
  | .arraySetPure _ arr _ _ => inferInstanceAs (Decidable (v.SoleUntabled arr))
  | .const _ => .isTrue trivial
  | .writeWitness _ => .isTrue trivial
  | .add _ _ => .isTrue trivial
  | .mulConst _ _ => .isTrue trivial
  | .mkPure _ _ => .isTrue trivial
  | .mkArray _ _ => .isTrue trivial
  | .arrayGet _ _ _ => .isTrue trivial
  | .dup _ => .isTrue trivial
  | .drop _ => .isTrue trivial
  | .constrain _ _ _ => .isTrue trivial
  | .rangecheck _ _ => .isTrue trivial
  | .spreadLookup _ _ _ _ => .isTrue trivial
  | .arrayLookup _ _ _ _ _ => .isTrue trivial

/-- The same along a run. -/
def Program.ReusesUntabledAd : Program → Ad → Prop
  | [], _ => True
  | instr :: prog, v =>
      instr.ReusesUntabledAd v ∧ ∀ v' ∈ instr.derivative v, Program.ReusesUntabledAd prog v'

instance Program.decidableReusesUntabledAd : ∀ (prog : Program) (v : Ad),
    Decidable (prog.ReusesUntabledAd v)
  | [], _ => inferInstanceAs (Decidable True)
  | instr :: prog, v =>
      have := fun v' => Program.decidableReusesUntabledAd prog v'
      inferInstanceAs
        (Decidable (instr.ReusesUntabledAd v ∧ ∀ v' ∈ instr.derivative v, ReusesUntabledAd prog v'))

theorem Program.ReusesUntabledAd.left {pre post : Program} {v : Ad}
    (h : Program.ReusesUntabledAd (pre ++ post) v) : pre.ReusesUntabledAd v := by
  induction pre generalizing v with
  | nil => trivial
  | cons instr pre ih => exact ⟨h.1, fun v' hv => ih (h.2 v' hv)⟩

/-- Every variable has been used up. -/
def SymState.Dropped (s : SymState) : Prop := ∀ o ∈ s.env, o.isNone = true

instance (s : SymState) : Decidable s.Dropped := List.decidableBAll _ _

/-! ## The relation -/

/-- The two states after the same part of a program that ends in `G`; `flying` counts the
references that operands hold while an operation is under way. -/
structure AdSim (coeffs : Nat → Fr) (wl : WitnessLayout) (cl : ConstraintsLayout) (G : R1CGen)
    (flying : Ptr → Nat) (s : SymState) (v : Ad) (ghost : Ghost) (rank : Ptr → Nat) : Prop where
  env : Env.Rel (fun tv p => ghost p = tv) s.env v.env
  on : AdOn coeffs wl cl G s.gen (fun p => v.env.held p + flying p) v.vm ghost rank
  cnst : v.currentCnstOff = s.gen.constraints.length

variable {coeffs : Nat → Fr} {wl : WitnessLayout} {cl : ConstraintsLayout} {G : R1CGen}
  {flying flying' : Ptr → Nat} {s s' : SymState} {v : Ad} {ghost ghost' : Ghost}
  {rank : Ptr → Nat}

/-- No reference is under way. -/
abbrev AtRest : Ptr → Nat := fun _ => 0

/-- One reference is. -/
abbrev Flying (p : Ptr) : Ptr → Nat := fun q => if q = p then 1 else 0

theorem count_singleton (p q : Ptr) : [p].count q = Flying p q := by
  simp only [List.count_singleton, beq_iff_eq, Flying, eq_comm (a := q)]

theorem count_pair (p p' q : Ptr) : [p, p'].count q = Flying p q + Flying p' q := by
  rw [← List.singleton_append, List.count_append, count_singleton, count_singleton]

theorem AdOn.held_congr {g : R1CGen} {held held' : Ptr → Nat} {vm : AdVm}
    (h : AdOn coeffs wl cl G g held vm ghost rank) (heq : ∀ q, held q = held' q) :
    AdOn coeffs wl cl G g held' vm ghost rank :=
  ⟨h.heap.held_congr heq, h.vm, h.total⟩

/-- Only the ghosts of addresses that variables hold matter to them. -/
theorem ghostEnv_congr {env : Env (Ty × Value)} {env' : Env Ptr}
    (h : Env.Rel (fun tv p => ghost p = tv) env env')
    (hg : ∀ p, 0 < env'.held p → ghost' p = ghost p) :
    Env.Rel (fun tv p => ghost' p = tv) env env' :=
  h.imp_of_mem fun _ p hp hrel => (hg p (Env.held_pos.mpr hp)).trans hrel

namespace AdSim

theorem flying_congr (h : AdSim coeffs wl cl G flying s v ghost rank)
    (heq : ∀ q, flying q = flying' q) : AdSim coeffs wl cl G flying' s v ghost rank :=
  ⟨h.env, h.on.held_congr fun q => by rw [heq], h.cnst⟩

/-! ## Operands

An operand that is used up leaves its reference behind.
-/

theorem read (h : AdSim coeffs wl cl G flying s v ghost rank) {x : Var} {tv : Ty × Value}
    (hx : s.env.read x = some tv) :
    ∃ p, v.env.read x = some p ∧ ghost p = tv ∧ 0 < v.env.held p := by
  obtain ⟨p, hp, hg⟩ := h.env.read hx
  exact ⟨p, hp, hg, Env.held_pos_of_read hp⟩

theorem readScalar (h : AdSim coeffs wl cl G flying s v ghost rank) {x : Var} {u : Value} {lc : LC}
    (hx : s.env.read x = some (.scalar, u)) (hu : u.expectLinearCombination = some lc) :
    ∃ p, v.env.read x = some p ∧ AdScalar (fun q => v.env.held q + flying q) ghost p lc := by
  obtain ⟨p, hp, hg, hpos⟩ := h.read hx
  exact ⟨p, hp, Nat.add_pos_left hpos _, u, hg, hu⟩

/-- The reference of an operand that is used up is under way. -/
theorem take (h : AdSim coeffs wl cl G flying s v ghost rank) {x : Var} {tv : Ty × Value}
    {env₁ : Env (Ty × Value)} (hx : s.env.take x = some (tv, env₁)) :
    ∃ p env₁', v.env.take x = some (p, env₁') ∧ ghost p = tv ∧
      AdSim coeffs wl cl G (fun q => flying q + Flying p q) { s with env := env₁ }
        { v with env := env₁' } ghost rank := by
  obtain ⟨p, env₁', hp, hg, henv⟩ := h.env.take hx
  refine ⟨p, env₁', hp, hg, henv, h.on.held_congr fun q => ?_, h.cnst⟩
  rw [Env.held_take hp q, Nat.add_right_comm, Nat.add_assoc]
  simp only [Flying, eq_comm]

theorem takeAll (h : AdSim coeffs wl cl G AtRest s v ghost rank) {xs : List Var}
    {tvs : List (Ty × Value)} {env₁ : Env (Ty × Value)}
    (hxs : s.env.takeAll xs = some (tvs, env₁)) :
    ∃ ps env₁', v.env.takeAll xs = some (ps, env₁') ∧
      List.Forall₂ (fun tv p => ghost p = tv) tvs ps ∧
      AdSim coeffs wl cl G (fun q => ps.count q) { s with env := env₁ } { v with env := env₁' }
        ghost rank := by
  obtain ⟨ps, env₁', hps, hall, henv⟩ := h.env.takeAll hxs
  refine ⟨ps, env₁', hps, hall, henv, h.on.held_congr fun q => ?_, h.cnst⟩
  rw [Env.held_takeAll hps q, Nat.add_zero]

/-- A reference under way is bound to a variable. -/
theorem push {p : Ptr} {tv : Ty × Value}
    (h : AdSim coeffs wl cl G (Flying p) s v ghost rank) (hp : ghost p = tv) :
    AdSim coeffs wl cl G AtRest { s with env := s.env.push tv } (v.push p) ghost rank :=
  ⟨h.env.push hp, h.on.held_congr fun q => by
    simp only [Ad.push, Env.held_push, Flying, eq_comm, Nat.add_zero], h.cnst⟩

end AdSim

/-! ## New blocks

The block stands for the value the generator has made.
-/

/-- Sums and multiples of scalars are scalars. -/
theorem Value.expect_of_add {a b u : Value} (h : a.add b = some u) :
    ∃ lc, u.expectLinearCombination = some lc := by
  cases a <;> cases b <;>
    simp only [add, expectLinearCombination, Option.bind_eq_bind, Option.bind_some,
      Option.bind_none, Option.some.injEq, Option.pure_def, reduceCtorEq] at h <;> subst h
  all_goals exact ⟨_, rfl⟩

theorem Value.expect_of_mul_const {c : Fr} {a u : Value} (h : (const c).mul a = some u) :
    ∃ lc, u.expectLinearCombination = some lc := by
  cases a with
  | const d =>
      obtain rfl := Option.some.inj h
      exact ⟨_, rfl⟩
  | lc terms =>
      simp only [mul] at h
      split_ifs at h with hc
      · obtain rfl := Option.some.inj h
        exact ⟨_, rfl⟩
      · obtain rfl := Option.some.inj h
        exact ⟨_, rfl⟩
  | array rc data => cases h

/-- Two states with the same rows stand for the same. -/
theorem R1CGen.partialGrad_congr {g g' : R1CGen} (hc : g'.constraints = g.constraints)
    (ht : g'.tables = g.tables) (hl : g'.lookups = g.lookups) (ps : List TablePlace) (side : Side) :
    g'.partialGrad coeffs ps wl cl side = g.partialGrad coeffs ps wl cl side := by
  rw [partialGrad, partialGrad, hc, ht, hl]

/-- Of the generator's state the machine's offsets see the rows and the witnesses. -/
theorem AdRel.congr {g g' : R1CGen} {vm : AdVm} (h : AdRel coeffs wl cl g vm)
    (ht : g'.tables = g.tables) (hl : g'.lookups = g.lookups)
    (hw : g'.nextWitness = g.nextWitness) (mem : Mem) :
    AdRel coeffs wl cl g' { vm with mem := mem } := by
  obtain ⟨h₁, h₂, h₃, h₄, h₅, h₆, h₇, h₈, h₉, h₁₀, h₁₁⟩ := h
  rw [← ht] at h₄ h₅ h₇ h₉ h₁₀
  rw [← hl] at h₆ h₈
  simp only [← ht] at h₁₁
  exact ⟨h₁, h₂.trans hw.symm, h₃, h₄, h₅, h₆, h₇, h₈, h₉, h₁₀, h₁₁⟩

/-- A new block for a value, the references in it being those under way. -/
theorem AdSim.pushAlloc {g' : R1CGen} {tv : Ty × Value} {pay : Payload}
    (h : AdSim coeffs wl cl G (fun q => pay.kids.count q) s v ghost rank)
    (hblock : BlockRel .ad ghost tv pay) (hnew : HeapRel.NewLabel s.gen g' tv)
    (hpend : ∀ side, pay.pending side = 0) (hc : g'.constraints = s.gen.constraints)
    (ht : g'.tables = s.gen.tables) (hl : g'.lookups = s.gen.lookups)
    (hw : g'.nextWitness = s.gen.nextWitness) :
    ∃ ghost' rank', AdSim coeffs wl cl G AtRest { env := s.env.push tv, gen := g' }
      (v.pushAlloc pay) ghost' rank' := by
  obtain ⟨rank', hheap, htotal⟩ := HeapRel.alloc (fun q => v.env.held q) h.on.heap hblock hnew hpend
  have hlive : ∀ p, 0 < v.env.held p → p ≠ v.vm.mem.heap.length := by
    rintro p hp rfl
    obtain ⟨c, hcell⟩ := h.on.heap.balanced.get?_of_held (p := v.vm.mem.heap.length)
      (Nat.add_pos_left hp _)
    exact Nat.lt_irrefl _ (Store.lt_length_of_get? hcell)
  have hflying : AdSim coeffs wl cl G (Flying v.vm.mem.heap.length) { s with gen := g' }
      (v.setMem (v.vm.mem.alloc pay).2) (Function.update ghost v.vm.mem.heap.length tv) rank' := by
    refine ⟨ghostEnv_congr h.env fun p hp => Function.update_of_ne (hlive p hp) _ _,
      ⟨hheap, h.on.vm.congr ht hl hw _, fun side i => ?_⟩, ?_⟩
    · refine (htotal side i).trans ((h.on.total side i).trans ?_)
      exact (congrFun (R1CGen.partialGrad_congr hc ht hl _ side) i).symm
    · rw [hc]
      exact h.cnst
  exact ⟨_, rank', hflying.push (Function.update_self _ _ _)⟩

namespace AdSim

/-- A gradient node. -/
theorem pushNode {u : Value} {lc : LC} {pay : Payload}
    (h : AdSim coeffs wl cl G (fun q => pay.kids.count q) s v ghost rank)
    (hu : u.expectLinearCombination = some lc) (hnode : NodeRel ghost u pay)
    (hpend : ∀ side, pay.pending side = 0) :
    ∃ ghost' rank', AdSim coeffs wl cl G AtRest { s with env := s.env.push (.scalar, u) }
      (v.pushAlloc pay) ghost' rank' :=
  h.pushAlloc ⟨rfl, ⟨lc, hu⟩, hnode⟩ (.scalar s.gen u) hpend rfl rfl rfl rfl

/-- An array. -/
theorem pushArray {e : Elem} {vs : List Value} {pay : Payload} {els : List (PrimElem ⊕ Ptr)}
    (h : AdSim coeffs wl cl G (fun q => pay.kids.count q) s v ghost rank)
    (hels : pay.elems = some els) (hall : List.Forall₂ (ElemRel .ad ghost e) els vs) :
    ∃ ghost' rank', AdSim coeffs wl cl G AtRest
      (s.push (.array e) (s.gen.mkArray vs).1 (s.gen.mkArray vs).2) (v.pushAlloc pay) ghost'
        rank' :=
  h.pushAlloc ⟨els, hels, hall⟩ (.mkArray s.gen e vs)
    (fun side => HeapRel.pending_of_elems hels side) rfl rfl rfl rfl

/-! ## References -/

/-- `inc_rc` of a live block. -/
theorem incRc (h : AdSim coeffs wl cl G AtRest s v ghost rank) {p : Ptr} {c : Counted Obj}
    (hc : Store.get? v.vm.mem.heap p = some c) :
    ∃ mem, v.vm.mem.incRc p 1 = some mem ∧
      AdSim coeffs wl cl G (Flying p) s (v.setMem mem) ghost rank := by
  obtain ⟨mem, hrun, hheap, -, htotal⟩ := h.on.heap.incRc hc 1
  exact ⟨mem, hrun, h.env, ⟨hheap.held_congr fun q => by rw [Nat.add_zero]; rfl,
    h.on.vm.congr rfl rfl rfl mem, fun side i => (htotal side i).trans (h.on.total side i)⟩, h.cnst⟩

theorem dup (h : AdSim coeffs wl cl G AtRest s v ghost rank) {x : Var} {tv : Ty × Value}
    (hx : s.env.read x = some tv) :
    ∃ v', v.dup x = some v' ∧
      AdSim coeffs wl cl G AtRest { s with env := s.env.push tv } v' ghost rank := by
  obtain ⟨p, hp, hg, hpos⟩ := h.read hx
  obtain ⟨c, hc⟩ := h.on.heap.balanced.get?_of_held (p := p) (Nat.add_pos_left hpos _)
  obtain ⟨mem, hrun, hsim⟩ := h.incRc hc
  exact ⟨_, by simp [Ad.dup, hp, hrun], hsim.push hg⟩

theorem drop (h : AdSim coeffs wl cl G AtRest s v ghost rank) {x : Var} {tv : Ty × Value}
    {env₁ : Env (Ty × Value)} (hx : s.env.take x = some (tv, env₁)) :
    ∃ v', v.drop x = some v' ∧
      AdSim coeffs wl cl G AtRest { s with env := env₁ } v' ghost rank := by
  obtain ⟨p, env₁', hp, -, hsim⟩ := h.take hx
  obtain ⟨mem, hrun, hheap, htotal⟩ := hsim.on.heap.decRc (p := p) (by simp [Flying])
  refine ⟨Ad.setMem mem { v with env := env₁' }, by simp [Ad.drop, Ad.take, hp, hrun], hsim.env,
    ⟨hheap.held_congr fun q => ?_, hsim.on.vm.congr rfl rfl rfl mem,
      fun side i => (htotal side i).trans (hsim.on.total side i)⟩, hsim.cnst⟩
  by_cases hq : q = p
  · subst hq
    simp [dropHeld, Flying, Ad.setMem]
  · simp [dropHeld, Flying, Ad.setMem, hq]

/-! ## Arrays

From `Mavros.VM.ArrayRel`, with the references of the operands.
-/

theorem arrayGet (h : AdSim coeffs wl cl G AtRest s v ghost rank) {e : Elem} {t : Ty}
    {a u : Value} {p : Ptr} {index : Nat} (ht : e.ty = some t) (hp : ghost p = (.array e, a))
    (hpos : 0 < v.env.held p) (hget : R1CGen.arrayGet a index = some u) :
    ∃ v', v.arrayGet p index = some v' ∧
      AdSim coeffs wl cl G AtRest { s with env := s.env.push (t, u) } v' ghost rank := by
  obtain ⟨c, hc⟩ := h.on.heap.balanced.get?_of_held (p := p) (Nat.add_pos_left hpos _)
  obtain ⟨rc, data, rfl⟩ := h.on.heap.array_of_ghost hc hp
  obtain ⟨els, hels, hall⟩ := h.on.heap.array_elems hp hc
  obtain ⟨el, hel, hrel⟩ := getElem?_forall₂ hall hget
  have hcell : v.vm.mem.heap.get? p = some c := hc
  cases hpay : c.val.payload with
  | primArray xs =>
      -- words and constants are no variables, witnesses are not stored in place
      rw [hpay] at hels
      obtain rfl := Option.some.inj hels
      rw [List.getElem?_map, Option.map_eq_some_iff] at hel
      obtain ⟨x, -, rfl⟩ := hel
      cases e with
      | word => cases ht
      | field => cases ht
      | witness =>
          cases x with
          | word n => exact hrel.elim
          | field y =>
              obtain ⟨w, hw, -⟩ := hrel
              cases hw
      | array e => cases x <;> exact hrel.elim
  | boxedArray qs =>
      rw [hpay] at hels
      obtain rfl := Option.some.inj hels
      rw [List.getElem?_map, Option.map_eq_some_iff] at hel
      obtain ⟨q, hq, rfl⟩ := hel
      have hkid : q ∈ c.val.kids := by
        rw [Obj.kids, hpay]
        exact List.mem_of_getElem? hq
      have hg : ghost q = (t, u) := by
        cases e with
        | word => cases ht
        | field => cases ht
        | witness =>
            obtain rfl := Option.some.inj ht
            exact hrel.2
        | array e =>
            obtain rfl := Option.some.inj ht
            exact hrel
      obtain ⟨d, hd⟩ := h.on.heap.kid_live hc hkid
      obtain ⟨mem, hrun, hsim⟩ := h.incRc hd
      exact ⟨_, by simp [Ad.arrayGet, hcell, hpay, hq, hrun], hsim.push hg⟩
  | _ => rw [hpay] at hels; cases hels

/-- `array_set`, the references of its operands being under way. -/
theorem arraySet {e : Elem} {a r u : Value} {p : Ptr} {index : Nat} {g : R1CGen}
    {source : PrimElem ⊕ Ptr}
    (h : AdSim coeffs wl cl G (fun q => Flying p q + (elemKids source).count q) s v ghost rank)
    (hp : ghost p = (.array e, a)) (hsrc : ElemRel .ad ghost e source u)
    (hset : s.gen.arraySet a index u = some (r, g))
    (hfresh : ∀ c, Store.get? v.vm.mem.heap p = some c → c.rc = 1 → c.val.tableId = none) :
    ∃ v' ghost' rank', v.arraySet p index source = some v' ∧
      AdSim coeffs wl cl G AtRest { env := s.env.push (.array e, r), gen := g } v' ghost'
        rank' := by
  obtain ⟨rc, data, rfl, hidx, rfl, rfl⟩ := R1CGen.arraySet_eq_some hset
  obtain ⟨q, mem, ghost', rank', hrun, hheap, hq, hsame, htotal⟩ :=
    HeapRel.arraySet h.on.heap hp hsrc hidx hfresh
  have hvm : AdRel coeffs wl cl (s.gen.mkArray (data.set index u)).2 { v.vm with mem := mem } :=
    by refine h.on.vm.congr ?_ ?_ ?_ mem <;> rfl
  have hsim : AdSim coeffs wl cl G (Flying q)
      { s with gen := (s.gen.mkArray (data.set index u)).2 } (v.setMem mem) ghost' rank' :=
    ⟨ghostEnv_congr h.env hsame,
      ⟨hheap, hvm, fun side i => (htotal side i).trans (h.on.total side i)⟩, h.cnst⟩
  exact ⟨_, ghost', rank', by simp [Ad.arraySet, hrun], hsim.push hq⟩

/-! ## Rows -/

/-- A constraint hands its coefficient to its operands. -/
theorem constrain (h : AdSim coeffs wl cl G AtRest s v ghost rank) {a b c : Ptr} {la lb lc : LC}
    (ha : AdScalar (fun q => v.env.held q + AtRest q) ghost a la)
    (hb : AdScalar (fun q => v.env.held q + AtRest q) ghost b lb)
    (hc : AdScalar (fun q => v.env.held q + AtRest q) ghost c lc) :
    ∃ v', v.constrain a b c = some v' ∧
      AdSim coeffs wl cl G AtRest
        { s with gen := { s.gen with constraints := s.gen.constraints ++ [⟨la, lb, lc⟩] } } v' ghost
        rank := by
  let x := v.vm.adCoeffs v.currentCnstOff
  have hlive : ∀ bump ∈ [Bump.node .a a x, .node .b b x, .node .c c x],
      bump.Live v.vm.mem.heap := by
    intro bump hbump
    simp only [List.mem_cons, List.not_mem_nil, or_false] at hbump
    rcases hbump with rfl | rfl | rfl
    · exact ha.live h.on.heap _ _
    · exact hb.live h.on.heap _ _
    · exact hc.live h.on.heap _ _
  obtain ⟨mem, hrun, hheap, -, htotal⟩ := h.on.heap.bumps _ hlive
  have hgrad : ∀ side, bumpsGrad (gradOf ghost) side [.node .a a x, .node .b b x, .node .c c x]
      = rowsGrad coeffs side (0 + s.gen.constraints.length) [⟨la, lb, lc⟩] := by
    intro side
    have hx : x = coeffs s.gen.constraints.length := by rw [← h.on.vm.adCoeffs, ← h.cnst]
    rw [rowsGrad_singleton, Nat.zero_add, ← hx]
    simp only [bumpsGrad_cons, bumpsGrad_nil, Bump.grad_node, ha.grad, hb.grad, hc.grad]
    cases side <;> simp [R1C.side]
  have hvm : AdRel coeffs wl cl
      { s.gen with constraints := s.gen.constraints ++ [⟨la, lb, lc⟩] } { v.vm with mem := mem } :=
    by refine h.on.vm.congr ?_ ?_ ?_ mem <;> rfl
  refine ⟨Ad.setMem mem { v with currentCnstOff := v.currentCnstOff + 1 }, ?_, h.env,
    ⟨hheap.gen_congr (Nat.le_refl _) fun _ _ => rfl, hvm, fun side i => ?_⟩, ?_⟩
  · simp only [Ad.constrain, Ad.nextDCoeff, Option.bind_eq_bind, Option.pure_def]
    rw [hrun]
    rfl
  · have hrow : R1CGen.partialGrad coeffs (adPlaces wl cl G.tables) wl cl
          { s.gen with constraints := s.gen.constraints ++ [⟨la, lb, lc⟩] } side
        = s.gen.partialGrad coeffs (adPlaces wl cl G.tables) wl cl side
          + rowsGrad coeffs side (0 + s.gen.constraints.length) [⟨la, lb, lc⟩] := by
      rw [R1CGen.partialGrad, R1CGen.partialGrad, rowsGrad_append]
      module
    rw [hrow, Pi.add_apply, ← h.on.total, ← hgrad]
    exact htotal side i
  · simp only [Ad.setMem, List.length_append, List.length_singleton, h.cnst]

/-- A table and a lookup in it leave the variables alone. -/
theorem ofOn {g : R1CGen} {vm : AdVm} (h : AdSim coeffs wl cl G AtRest s v ghost rank)
    (hon : AdOn coeffs wl cl G g (fun p => v.env.held p + AtRest p) vm ghost rank)
    (hc : g.constraints = s.gen.constraints) :
    AdSim coeffs wl cl G AtRest { s with gen := g } { v with vm := vm } ghost rank :=
  ⟨h.env, hon, h.cnst.trans (by rw [hc])⟩

end AdSim

/-- A lookup that is recorded on the way to `G`. -/
theorem R1CGen.Grows.lookup {g g' : R1CGen} {target : LookupTarget} {args : List Value}
    {flag : Value} (hgrow : g'.Grows G) (h : g.lookup target args flag = some g') :
    ∃ flagLc els k g₁, flag.expectLinearCombination = some flagLc ∧
      args.mapM Value.expectLinearCombination = some els ∧
      g.resolveTable target = some (k, g₁) ∧ g₁.constraints = g.constraints ∧
      g' = { g₁ with lookups := g₁.lookups ++ [⟨k, els, flagLc⟩] } ∧ g₁.tables <+: G.tables := by
  obtain ⟨flagLc, els, k, g₁, hflag, hels, hres, rfl⟩ := R1CGen.lookup_eq_some h
  refine ⟨flagLc, els, k, g₁, hflag, hels, hres, ?_, rfl, hgrow.tables⟩
  cases R1CGen.resolveTable_cases hres <;> rfl

namespace AdSim

theorem rangecheck (h : AdSim coeffs wl cl G AtRest s v ghost rank) {x flag : Var}
    (hstep : (Instr.rangecheck x flag).symbolic s = some s') (hgrow : s'.gen.Grows G) :
    ∃ v', (Instr.rangecheck x flag).derivative v = some v' ∧
      AdSim coeffs wl cl G AtRest s' v' ghost rank := by
  obtain ⟨vx, vf, g, hx, hf, hg, rfl⟩ := Instr.symbolic_rangecheck hstep
  obtain ⟨flagLc, els, k, g₁, hflag, hels, hres, hc, rfl, hpre⟩ := hgrow.lookup hg
  obtain ⟨key, rfl, hkey⟩ := expect_one hels
  obtain ⟨p, hp, hval⟩ := h.readScalar hx hkey
  obtain ⟨q, hq, hflags⟩ := h.readScalar hf hflag
  obtain ⟨g₂, hrange, heq⟩ := Option.map_eq_some_iff.mp hres
  obtain ⟨rfl, rfl⟩ := Prod.mk.inj heq
  obtain ⟨vm₁, htable, hon⟩ := h.on.drngchk8Table hrange
  obtain ⟨vm₂, hemit, hon⟩ := hon.drngchk8Emit hpre (R1CGen.rangeTable_spec hrange).2.1 hval hflags
  exact ⟨_, by simp [Instr.derivative, hp, hq, AdVm.drngchk8Field, htable, hemit], h.ofOn hon hc⟩

theorem spreadLookup (h : AdSim coeffs wl cl G AtRest s v ghost rank) {bits : Nat}
    {x result flag : Var} (hbits : bits ≤ 16)
    (hstep : (Instr.spreadLookup bits x result flag).symbolic s = some s')
    (hgrow : s'.gen.Grows G) :
    ∃ v', (Instr.spreadLookup bits x result flag).derivative v = some v' ∧
      AdSim coeffs wl cl G AtRest s' v' ghost rank := by
  obtain ⟨vx, vr, vf, g, hx, hr, hf, hg, rfl⟩ := Instr.symbolic_spreadLookup hstep
  obtain ⟨flagLc, els, k, g₁, hflag, hels, hres, hc, rfl, hpre⟩ := hgrow.lookup hg
  obtain ⟨key, value, rfl, hkey, hvalue⟩ := expect_two hels
  obtain ⟨p, hp, hkeys⟩ := h.readScalar hx hkey
  obtain ⟨q, hq, hvalues⟩ := h.readScalar hr hvalue
  obtain ⟨o, ho, hflags⟩ := h.readScalar hf hflag
  have hspec := (R1CGen.spreadTable_spec bits s.gen).2.1
  simp only [R1CGen.resolveTable, Option.some.injEq] at hres
  obtain ⟨vm₁, htable, hon⟩ := h.on.dspreadTable (Nat.lt_succ_of_le hbits)
  rw [hres] at hspec htable hon
  obtain ⟨vm₂, hemit, hon⟩ := hon.adKvLookupEmit hpre hspec rfl hkeys hvalues hflags
  exact ⟨_, by simp [Instr.derivative, hp, hq, ho, AdVm.dspreadLookupField, htable, hemit],
    h.ofOn hon hc⟩

theorem arrayLookup (h : AdSim coeffs wl cl G AtRest s v ghost rank) (hwf : s.gen.WellFormed)
    {e : Elem} {arr index result flag : Var}
    (hstep : (Instr.arrayLookup e arr index result flag).symbolic s = some s')
    (hgrow : s'.gen.Grows G) :
    ∃ v', (Instr.arrayLookup e arr index result flag).derivative v = some v' ∧
      AdSim coeffs wl cl G AtRest s' v' ghost rank := by
  obtain ⟨va, vi, vr, vf, g, harr, hi, hr, hf, hg, rfl⟩ := Instr.symbolic_arrayLookup hstep
  obtain ⟨flagLc, els, k, g₁, hflag, hels, hres, hc, rfl, hpre⟩ := hgrow.lookup hg
  obtain ⟨key, value, rfl, hkey, hvalue⟩ := expect_two hels
  obtain ⟨a, ha, hghost, hpos⟩ := h.read harr
  obtain ⟨p, hp, hkeys⟩ := h.readScalar hi hkey
  obtain ⟨q, hq, hvalues⟩ := h.readScalar hr hvalue
  obtain ⟨o, ho, hflags⟩ := h.readScalar hf hflag
  obtain ⟨c, hcell⟩ := h.on.heap.balanced.get?_of_held (p := a) (Nat.add_pos_left hpos _)
  obtain ⟨rc, data, rfl⟩ := h.on.heap.array_of_ghost hcell hghost
  obtain ⟨-, t, ht, hw⟩ := hwf.resolveTable hres
  simp only [R1CGen.resolveTable, Option.some.injEq] at hres
  obtain ⟨vm₁, htable, hon⟩ := h.on.darrayTable hghost (Nat.add_pos_left hpos _)
  rw [hres] at htable hon
  obtain ⟨vm₂, hemit, hon⟩ := hon.adKvLookupEmit hpre ht hw hkeys hvalues hflags
  exact ⟨_, by simp [Instr.derivative, ha, hp, hq, ho, AdVm.darrayLookupField, htable, hemit],
    h.ofOn hon hc⟩

/-! ## Runs -/

/-- Elements of an array are the operands they were made of. -/
theorem elems_of_operands {e : Elem} {t : Ty} (ht : e.ty = some t) {vs : List Value}
    {ps : List Ptr}
    (h : List.Forall₂ (fun tv p => ghost p = tv) (vs.map fun u => (t, u)) ps) :
    List.Forall₂ (ElemRel .ad ghost e) (ps.map .inr) vs := by
  rw [List.forall₂_map_left_iff] at h ⊢
  refine h.flip.imp fun p u hp => ?_
  cases e with
  | word => cases ht
  | field => cases ht
  | witness =>
      obtain rfl := Option.some.inj ht
      exact ⟨rfl, hp⟩
  | array e =>
      obtain rfl := Option.some.inj ht
      exact hp

/-- Where the generator makes a step, so does the machine. -/
theorem step (h : AdSim coeffs wl cl G AtRest s v ghost rank) (hwf : s.gen.WellFormed)
    {instr : Instr} (hstep : instr.symbolic s = some s') (hgrow : s'.gen.Grows G)
    (hspread : instr.SpreadFits) (hreuse : instr.ReusesUntabledAd v) :
    ∃ v' ghost' rank', instr.derivative v = some v' ∧
      AdSim coeffs wl cl G AtRest s' v' ghost' rank' := by
  cases instr with
  | const c =>
      obtain rfl := Option.some.inj hstep
      have hnode : NodeRel ghost (.const c) (.adConst c) := by
        simp [NodeRel, Value.coeffs, Value.expectLinearCombination]
      obtain ⟨ghost', rank', hsim⟩ := h.pushNode rfl hnode fun _ => rfl
      exact ⟨_, ghost', rank', rfl, hsim⟩
  | writeWitness val =>
      obtain rfl := Option.some.inj hstep
      have hgen : AdSim coeffs wl cl G AtRest { s with gen := s.gen.freshWitness.2 }
          { v with vm := { v.vm with currentWitOff := v.vm.currentWitOff + 1 } } ghost rank :=
        ⟨h.env, ⟨h.on.heap.gen_congr (Nat.le_refl _) fun _ _ => rfl,
          ⟨h.on.vm.adCoeffs, congrArg (· + 1) h.on.vm.witness, h.on.vm.challenge, h.on.vm.mults,
            h.on.vm.tableWits, h.on.vm.lookupWits, h.on.vm.tableCnsts, h.on.vm.lookupCnsts,
            h.on.vm.tables, h.on.vm.rgchk8, h.on.vm.spreadTables⟩, h.on.total⟩, h.cnst⟩
      have hnode : NodeRel ghost s.gen.freshWitness.1 (.adWitness v.vm.currentWitOff) := by
        simp [NodeRel, R1CGen.freshWitness, Value.coeffs, Value.expectLinearCombination,
          h.on.vm.witness]
      obtain ⟨ghost', rank', hsim⟩ := hgen.pushNode rfl hnode fun _ => rfl
      exact ⟨_, ghost', rank', rfl, hsim⟩
  | add x y =>
      obtain ⟨a, b, u, env₁, env₂, hx, hy, hu, rfl⟩ := Instr.symbolic_add hstep
      obtain ⟨p, env₁', hp, hga, h₁⟩ := h.take hx
      obtain ⟨q, env₂', hq, hgb, h₂⟩ := h₁.take hy
      obtain ⟨lc, hlc⟩ := Value.expect_of_add hu
      have hnode : NodeRel ghost u (.adSum p q fun _ => 0) := by
        rw [NodeRel, hga, hgb]
        exact ⟨rfl, rfl, Value.coeffs_add hu⟩
      obtain ⟨ghost', rank', hsim⟩ := (h₂.flying_congr fun r => by
        rw [Payload.kids, count_pair, Nat.zero_add]).pushNode hlc hnode fun _ => rfl
      exact ⟨_, ghost', rank', by simp [Instr.derivative, Ad.take, hp, hq]; rfl, hsim⟩
  | mulConst c x =>
      obtain ⟨a, u, env₁, hx, hu, rfl⟩ := Instr.symbolic_mulConst hstep
      obtain ⟨p, env₁', hp, hga, h₁⟩ := h.take hx
      obtain ⟨lc, hlc⟩ := Value.expect_of_mul_const hu
      have hnode : NodeRel ghost u (.adMulConst c p fun _ => 0) := by
        rw [NodeRel, hga]
        exact ⟨rfl, Value.coeffs_mul_const hu⟩
      obtain ⟨ghost', rank', hsim⟩ := (h₁.flying_congr fun r => by
        rw [Payload.kids, count_singleton, Nat.zero_add]).pushNode hlc hnode fun _ => rfl
      exact ⟨_, ghost', rank', by simp [Instr.derivative, Ad.take, hp]; rfl, hsim⟩
  | mkPure e elems =>
      obtain ⟨hall, rfl⟩ := Instr.symbolic_mkPure hstep
      have helems : List.Forall₂ (ElemRel .ad ghost e) (elems.map .inl)
          (elems.map PrimElem.value) := by
        rw [List.forall₂_map_left_iff, List.forall₂_map_right_iff, List.forall₂_same]
        intro p hp
        obtain rfl := hall p hp
        cases p <;> rfl
      have hpayload : Payload.elems (.primArray elems) = some (elems.map .inl) := rfl
      obtain ⟨ghost', rank', hsim⟩ := AdSim.pushArray h hpayload helems
      exact ⟨_, ghost', rank', rfl, hsim⟩
  | mkArray e xs =>
      obtain ⟨t, vs, env₁, ht, hxs, rfl⟩ := Instr.symbolic_mkArray hstep
      obtain ⟨ps, env₁', hps, hall, h₁⟩ := h.takeAll hxs
      have hpayload : Payload.elems (.boxedArray ps) = some (ps.map .inr) := rfl
      obtain ⟨ghost', rank', hsim⟩ := AdSim.pushArray h₁ hpayload (elems_of_operands ht hall)
      exact ⟨_, ghost', rank', by simp [Instr.derivative, ht, hps], hsim⟩
  | arrayGet e arr index =>
      obtain ⟨t, a, u, ht, harr, hget, rfl⟩ := Instr.symbolic_arrayGet hstep
      obtain ⟨p, hp, hghost, hpos⟩ := h.read harr
      obtain ⟨v', hrun, hsim⟩ := h.arrayGet ht hghost hpos hget
      exact ⟨v', ghost, rank, by simp [Instr.derivative, hp, hrun], hsim⟩
  | arraySet e arr index x =>
      obtain ⟨t, a, u, r, g, env₁, env₂, ht, harr, hx, hset, rfl⟩ := Instr.symbolic_arraySet hstep
      obtain ⟨p, env₁', hp, hga, h₁⟩ := h.take harr
      obtain ⟨q, env₂', hq, hgu, h₂⟩ := h₁.take hx
      have hsrc : ElemRel .ad ghost e (.inr q) u := by
        cases e with
        | word => cases ht
        | field => cases ht
        | witness =>
            obtain rfl := Option.some.inj ht
            exact ⟨rfl, hgu⟩
        | array e =>
            obtain rfl := Option.some.inj ht
            exact hgu
      obtain ⟨v', ghost', rank', hrun, hsim⟩ := (h₂.flying_congr fun r => by
        rw [elemKids, count_singleton, Nat.zero_add]).arraySet hga hsrc hset
          fun c hc => hreuse p (Env.take_eq_some.mp hp).1 c hc
      exact ⟨v', ghost', rank', by simp [Instr.derivative, Ad.take, hp, hq, hrun], hsim⟩
  | arraySetPure e arr index elem =>
      obtain ⟨a, r, g, env₁, he, harr, hset, rfl⟩ := Instr.symbolic_arraySetPure hstep
      obtain ⟨p, env₁', hp, hga, h₁⟩ := h.take harr
      have hsrc : ElemRel .ad ghost e (.inl elem) elem.value := by
        subst he
        cases elem <;> rfl
      obtain ⟨v', ghost', rank', hrun, hsim⟩ := (h₁.flying_congr fun r => by
        simp [Flying, elemKids]).arraySet hga hsrc hset
          fun c hc => hreuse p (Env.take_eq_some.mp hp).1 c hc
      exact ⟨v', ghost', rank', by simp [Instr.derivative, Ad.take, hp, hrun], hsim⟩
  | dup x =>
      obtain ⟨tv, hx, rfl⟩ := Instr.symbolic_dup hstep
      obtain ⟨v', hrun, hsim⟩ := h.dup hx
      exact ⟨v', ghost, rank, hrun, hsim⟩
  | drop x =>
      obtain ⟨tv, env₁, hx, rfl⟩ := Instr.symbolic_drop hstep
      obtain ⟨v', hrun, hsim⟩ := h.drop hx
      exact ⟨v', ghost, rank, hrun, hsim⟩
  | constrain a b c =>
      obtain ⟨va, vb, vc, g, ha, hb, hc, hg, rfl⟩ := Instr.symbolic_constrain hstep
      obtain ⟨la, lb, lc, hla, hlb, hlc, rfl⟩ := R1CGen.constrain_eq_some hg
      obtain ⟨p, hp, hsp⟩ := h.readScalar ha hla
      obtain ⟨q, hq, hsq⟩ := h.readScalar hb hlb
      obtain ⟨o, ho, hso⟩ := h.readScalar hc hlc
      obtain ⟨v', hrun, hsim⟩ := h.constrain hsp hsq hso
      exact ⟨v', ghost, rank, by simp [Instr.derivative, hp, hq, ho, hrun], hsim⟩
  | rangecheck x flag =>
      obtain ⟨v', hrun, hsim⟩ := h.rangecheck hstep hgrow
      exact ⟨v', ghost, rank, hrun, hsim⟩
  | spreadLookup bits x result flag =>
      obtain ⟨v', hrun, hsim⟩ := h.spreadLookup hspread hstep hgrow
      exact ⟨v', ghost, rank, hrun, hsim⟩
  | arrayLookup e arr index result flag =>
      obtain ⟨v', hrun, hsim⟩ := h.arrayLookup hwf hstep hgrow
      exact ⟨v', ghost, rank, hrun, hsim⟩

/-- Along a whole run. -/
theorem run {prog : Program} :
    ∀ {s : SymState} {v : Ad} {ghost : Ghost} {rank : Ptr → Nat},
      AdSim coeffs wl cl G AtRest s v ghost rank → s.gen.WellFormed →
      prog.symbolic s = some s' → s'.gen.Grows G → (∀ instr ∈ prog, instr.SpreadFits) →
      prog.ReusesUntabledAd v →
      ∃ v' ghost' rank', prog.derivative v = some v' ∧
        AdSim coeffs wl cl G AtRest s' v' ghost' rank' := by
  induction prog with
  | nil =>
      intro s v ghost rank h _ hrun _ _ _
      obtain rfl := Option.some.inj hrun
      exact ⟨v, ghost, rank, rfl, h⟩
  | cons instr prog ih =>
      intro s v ghost rank h hwf hrun hgrow hspread hreuse
      simp only [Program.symbolic, Option.bind_eq_some_iff] at hrun
      obtain ⟨s₁, hstep, hrun⟩ := hrun
      obtain ⟨-, hwf₁⟩ := Instr.symbolic_gen hstep
      obtain ⟨v₁, ghost₁, rank₁, hv₁, h₁⟩ := h.step hwf hstep
        ((Program.symbolic_gen hrun).1.trans hgrow) (hspread instr List.mem_cons_self) hreuse.1
      obtain ⟨v', ghost', rank', hv', h'⟩ := ih h₁ (hwf₁ hwf) hrun hgrow
        (fun i hi => hspread i (List.mem_cons_of_mem _ hi)) (hreuse.2 v₁ hv₁)
      refine ⟨v', ghost', rank', ?_, h'⟩
      rw [Program.derivative, hv₁]
      exact hv'

/-- The machine starts out as the generator does. -/
theorem start (coeffs : Nat → Fr) {r : R1CS} (G : R1CGen) (ghost : Ghost) (rank : Ptr → Nat) :
    AdSim coeffs r.witnessLayout r.constraintsLayout G AtRest .new
      (.newAd coeffs r.witnessLayout r.constraintsLayout) ghost rank where
  env := .nil
  on := {
    heap := HeapRel.empty .ad R1CGen.new ghost rank
    vm := {
      adCoeffs := rfl
      witness := rfl
      challenge := rfl
      mults := rfl
      tableWits := rfl
      lookupWits := rfl
      tableCnsts := rfl
      lookupCnsts := rfl
      tables := rfl
      rgchk8 := rfl
      spreadTables := fun bits => by
        simp only [Ad.newAd, AdVm.newAd, R1CGen.new, SymState.new, List.getElem?_replicate,
          List.findIdx?_nil] }
    total := fun side i => by
      simp [Ad.newAd, AdVm.newAd, Mem.total, Store.sumLive, SymState.new, R1CGen.new,
        R1CGen.partialGrad, rowsGrad, tablesGrad, lookupsGrad, placeTables] }
  cnst := rfl

/-- Where every variable has been used up, no block is left. -/
theorem get?_eq_none (h : AdSim coeffs wl cl G AtRest s v ghost rank) (hdrop : s.Dropped)
    (p : Ptr) : Store.get? v.vm.mem.heap p = none :=
  h.on.heap.get?_eq_none (fun q => Env.held_eq_zero (h.env.isNone hdrop) q) p

end AdSim

/-! ## The run -/

/-- A part of a run, from the start. -/
theorem Program.derivative_prefix {prog pre : Program} {s : SymState} {r : R1CS}
    (coeffs : Nat → Fr) (hpre : pre <+: prog) (hsym : prog.symbolic .new = some s)
    (hspread : ∀ instr ∈ prog, instr.SpreadFits)
    (hreuse : prog.ReusesUntabledAd (.newAd coeffs r.witnessLayout r.constraintsLayout)) :
    ∃ s₁ v ghost rank, pre.symbolic .new = some s₁ ∧
      pre.derivative (.newAd coeffs r.witnessLayout r.constraintsLayout) = some v ∧
        AdSim coeffs r.witnessLayout r.constraintsLayout s.gen AtRest s₁ v ghost rank := by
  obtain ⟨post, rfl⟩ := hpre
  rw [Program.symbolic_append, Option.bind_eq_some_iff] at hsym
  obtain ⟨s₁, hs₁, hrest⟩ := hsym
  obtain ⟨v, ghost, rank, hrun, hsim⟩ :=
    (AdSim.start coeffs s.gen (fun _ => (.scalar, .const 0)) fun _ => 0).run .new hs₁
      (Program.symbolic_gen hrest).1 (fun instr hi => hspread instr (List.mem_append_left _ hi))
      hreuse.left
  exact ⟨s₁, v, ghost, rank, hs₁, hrun, hsim⟩

/-- What `run_ad` hands out is what `compute_derivatives` computes from the sealed system,
and `check_ad_output` finds no wrong entry. -/
def Program.ComputesDerivatives (prog : Program) (coeffs : Nat → Fr) : Prop :=
  ∃ s r out, prog.symbolic .new = some s ∧ s.gen.seal = some r ∧
    runAd prog coeffs r.witnessLayout r.constraintsLayout = some out ∧
    (∀ side, out side = r.computeDerivatives coeffs (fun _ _ => 0) side) ∧
    r.checkAdOutput coeffs out = true

/-- Every program the generator can seal has a derivative program that runs to its end on
any coefficients, and where no variable is left its outputs are the derivatives of the
system, entry by entry. -/
theorem Program.computesDerivatives {prog : Program} {s : SymState} {r : R1CS}
    (coeffs : Nat → Fr) (hsym : prog.symbolic .new = some s) (hseal : s.gen.seal = some r)
    (hspread : ∀ instr ∈ prog, instr.SpreadFits)
    (hreuse : prog.ReusesUntabledAd (.newAd coeffs r.witnessLayout r.constraintsLayout))
    (hdrop : s.Dropped) : prog.ComputesDerivatives coeffs := by
  have hwf := Program.symbolic_wellFormed hsym
  obtain ⟨s₁, v, ghost, rank, hs₁, hrun, hsim⟩ :=
    derivative_prefix coeffs List.prefix_rfl hsym hspread hreuse
  obtain rfl := Option.some.inj (hs₁.symm.trans hsym)
  have hout : ∀ side, v.vm.mem.out side = r.computeDerivatives coeffs (fun _ _ => 0) side := by
    intro side
    funext i
    have htotal := hsim.on.total side i
    rw [Mem.total, Store.sumLive_eq_zero (hsim.get?_eq_none hdrop), add_zero] at htotal
    rw [htotal, R1CS.computeDerivatives_eq, (sealedSizes hwf hseal).rowsGrad_eq hwf]
    simp [adPlaces]
  refine ⟨s₁, r, v.vm.mem.out, hsym, hseal, ?_, hout, r.checkAdOutput_of_eq coeffs hout⟩
  rw [runAd, hrun]
  rfl

/-- Two witnesses, their sum and a multiple of it in a row; an array of them, set at one
place, that is looked up; a range check; and nothing left at the end. -/
def derived : Program :=
  [.writeWitness 2, .dup 0, .add 2 1, .dup 3, .mulConst 2 4, .constrain 5 3 0,
    .mkArray .witness [3, 5], .const 1, .arraySet .witness 6 0 7, .const 1,
    .arrayGet .witness 8 1, .rangecheck 10 9, .arrayLookup .witness 8 9 10 0, .drop 0, .drop 8,
    .drop 9, .drop 10]

theorem computesDerivatives_derived : derived.entry.ComputesDerivatives fun i => (i : Fr) :=
  @Program.computesDerivatives derived.entry _ _ _ rfl rfl (by decide) (by decide +kernel)
    (by decide +kernel)

end Mavros
