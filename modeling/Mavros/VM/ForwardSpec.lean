/-
# `Mavros.VM.ForwardSpec` — the forward program follows the generator

Run the same program symbolically and on the machine.  `Sim` relates the two
states: variable by variable, block by block, and the vectors as `VmRel` has them.
Every instruction keeps it, so the machine does not get stuck where the generator
did not, and builds the tables the generator builds.

Three things the machine does not share with the generator are conditions: widths
of spread tables, counters of keys, and the reuse of an array that has a table.

## What is proved

* `Sim.step`: where the generator makes a step, so does the machine, and they are related again.
* `Sim.run`: along a whole run, for the witness that the program writes.

## How it goes

The state of the generator is known to go on to a final state `G` that can be sealed, and the
machine runs in the layout of `G`; everything about offsets is said relative to `G`.  The
three parts of the relation are independent of each other.  An array instruction is about
variables and the heap (`Mavros.VM.HeapRel`, `Mavros.VM.ArrayRel`), a row or a lookup about the
vectors (`Mavros.VM.Tape`), and only the table of an array is about both.

`Runnable` says what the machine asks of `G`, once, so that each lookup on the way finds its
part of it.
-/
import Mavros.VM.ArrayRel
import Mavros.VM.Tape

namespace Mavros

open Lib Lib.Store

/-! ## Conditions

A width, and a property of a run that can be decided along it.
-/

/-- The machine has room for spread tables of width at most 16. -/
def Instr.SpreadFits : Instr → Prop
  | spreadLookup bits _ _ _ => bits ≤ 16
  | _ => True

instance : DecidablePred Instr.SpreadFits := fun instr => by
  cases instr <;> (simp only [Instr.SpreadFits]; infer_instance)

/-- `array_set` does not find, at the only reference to it, an array that has a table. -/
def Instr.ReusesUntabled (v : Fwd) : Instr → Prop
  | arraySet _ arr _ _ | arraySetPure _ arr _ _ =>
      ∀ p ∈ v.readPtr arr, ∀ c ∈ v.mem.heap.get? p, c.rc = 1 → c.val.tableId = none
  | _ => True

instance (v : Fwd) : DecidablePred (Instr.ReusesUntabled v) := fun instr => by
  cases instr <;> (simp only [Instr.ReusesUntabled]; infer_instance)

/-- The same along a run. -/
def Program.ReusesUntabled : Program → Fwd → Prop
  | [], _ => True
  | instr :: prog, v =>
      instr.ReusesUntabled v ∧ ∀ v' ∈ instr.forward v, Program.ReusesUntabled prog v'

instance Program.decidableReusesUntabled : ∀ (prog : Program) (v : Fwd),
    Decidable (prog.ReusesUntabled v)
  | [], _ => inferInstanceAs (Decidable True)
  | instr :: prog, v =>
      have := fun v' => Program.decidableReusesUntabled prog v'
      inferInstanceAs
        (Decidable (instr.ReusesUntabled v ∧ ∀ v' ∈ instr.forward v, ReusesUntabled prog v'))

theorem Program.ReusesUntabled.left {pre post : Program} {v : Fwd}
    (h : Program.ReusesUntabled (pre ++ post) v) : pre.ReusesUntabled v := by
  induction pre generalizing v with
  | nil => trivial
  | cons instr pre ih => exact ⟨h.1, fun v' hv => ih (h.2 v' hv)⟩

/-! ## The relation -/

/-- A variable of the machine stands for a symbolic value. -/
def SlotRel (w : Nat → Fr) (ghost : Ghost) : Ty × Value → Slot → Prop
  | (.scalar, u), .felt a => u.Denotes w a
  | (.array e, u), .ptr p => ghost p = (.array e, u)
  | _, _ => False

/-- The two states after the same part of a program. -/
structure Sim (w : Nat → Fr) (G : R1CGen) (cs : Nat) (s : SymState) (v : Fwd) (ghost : Ghost)
    (rank : Ptr → Nat) : Prop where
  env : Env.Rel (SlotRel w ghost) s.env v.env
  heap : HeapRel (.witgen w) s.gen (fun p => v.env.held (.ptr p)) v.mem.heap ghost rank
  vm : VmRel.Synced w G cs s.gen v.vm

variable {w : Nat → Fr} {G : R1CGen} {cs : Nat} {ghost ghost' : Ghost} {rank : Ptr → Nat}

/-- Only the ghosts of addresses that are held matter to the variables. -/
theorem SlotRel.congr_env {env : Env (Ty × Value)} {env' : Env Slot}
    (h : Env.Rel (SlotRel w ghost) env env')
    (hg : ∀ p, 0 < env'.held (.ptr p) → ghost' p = ghost p) :
    Env.Rel (SlotRel w ghost') env env' := by
  refine h.imp_of_mem fun tv b hb hrel => ?_
  obtain ⟨t, u⟩ := tv
  cases b with
  | felt a => cases t <;> exact hrel
  | ptr p =>
      cases t with
      | scalar => exact hrel
      | array e => exact (hg p (Env.held_pos.mpr hb)).trans hrel

/-! ## Operands

An operand of the generator is one of the machine.
-/

section Operands

variable {env env₁ : Env (Ty × Value)} {env' : Env Slot} {x : Var} {u : Value} {e : Elem}

theorem read_scalar (h : Env.Rel (SlotRel w ghost) env env')
    (hx : env.read x = some (.scalar, u)) :
    ∃ a, env'.read x = some (.felt a) ∧ u.Denotes w a := by
  obtain ⟨b, hb, hrel⟩ := h.read hx
  cases b with
  | felt a => exact ⟨a, hb, hrel⟩
  | ptr p => exact hrel.elim

theorem read_array (h : Env.Rel (SlotRel w ghost) env env')
    (hx : env.read x = some (.array e, u)) :
    ∃ p, env'.read x = some (.ptr p) ∧ ghost p = (.array e, u) := by
  obtain ⟨b, hb, hrel⟩ := h.read hx
  cases b with
  | felt a => exact hrel.elim
  | ptr p => exact ⟨p, hb, hrel⟩

theorem take_scalar (h : Env.Rel (SlotRel w ghost) env env')
    (hx : env.take x = some ((.scalar, u), env₁)) :
    ∃ a env₁', env'.take x = some (.felt a, env₁') ∧ u.Denotes w a ∧
      Env.Rel (SlotRel w ghost) env₁ env₁' ∧
      ∀ q, env'.held (.ptr q) = env₁'.held (.ptr q) := by
  obtain ⟨b, env₁', hb, hrel, henv⟩ := h.take hx
  cases b with
  | felt a => exact ⟨a, env₁', hb, hrel, henv, fun q => by simpa using Env.held_take hb (.ptr q)⟩
  | ptr p => exact hrel.elim

theorem take_array (h : Env.Rel (SlotRel w ghost) env env')
    (hx : env.take x = some ((.array e, u), env₁)) :
    ∃ p env₁', env'.take x = some (.ptr p, env₁') ∧ ghost p = (.array e, u) ∧
      Env.Rel (SlotRel w ghost) env₁ env₁' ∧
      ∀ q, env'.held (.ptr q) = env₁'.held (.ptr q) + if q = p then 1 else 0 := by
  obtain ⟨b, env₁', hb, hrel, henv⟩ := h.take hx
  cases b with
  | felt a => exact hrel.elim
  | ptr p =>
      refine ⟨p, env₁', hb, hrel, henv, fun q => ?_⟩
      simpa [eq_comm] using Env.held_take hb (.ptr q)

end Operands

namespace Sim

variable {s : SymState} {v : Fwd}

theorem readFelt (hsim : Sim w G cs s v ghost rank) {x : Var} {u : Value}
    (hx : s.env.read x = some (.scalar, u)) : ∃ a, v.readFelt x = some a ∧ u.Denotes w a := by
  obtain ⟨a, ha, hd⟩ := read_scalar hsim.env hx
  exact ⟨a, by simp [Fwd.readFelt, ha], hd⟩

theorem readPtr (hsim : Sim w G cs s v ghost rank) {x : Var} {e : Elem} {u : Value}
    (hx : s.env.read x = some (.array e, u)) :
    ∃ p, v.readPtr x = some p ∧ ghost p = (.array e, u) ∧ 0 < v.env.held (.ptr p) := by
  obtain ⟨p, hp, hg⟩ := read_array hsim.env hx
  exact ⟨p, by simp [Fwd.readPtr, hp], hg, Env.held_pos_of_read hp⟩

end Sim

/-- A live array block stands for an array. -/
theorem HeapRel.array_of_ghost {mode : Mode} {g : R1CGen} {held : Ptr → Nat} {h : Heap}
    (hrel : HeapRel mode g held h ghost rank) {p : Ptr} {c : Counted Obj} {e : Elem} {u : Value}
    (hc : Store.get? h p = some c) (hp : ghost p = (.array e, u)) :
    ∃ rc data, u = .array rc data := by
  have hblock := hrel.blocks p c hc
  rw [hp] at hblock
  cases u with
  | const a => exact hblock.elim
  | lc terms => exact hblock.elim
  | array rc data => exact ⟨rc, data, rfl⟩

theorem Sim.pushFelt {s : SymState} {v : Fwd} (hsim : Sim w G cs s v ghost rank) {u : Value}
    {a : Fr} (hd : u.Denotes w a) :
    Sim w G cs { s with env := s.env.push (.scalar, u) } (v.push (.felt a)) ghost rank where
  env := hsim.env.push hd
  heap := hsim.heap.held_congr fun q => by simp [Fwd.push, Env.held_push]
  vm := hsim.vm

/-- A new variable over a heap that has a reference for it. -/
theorem Sim.pushPtr {s : SymState} {v : Fwd} {e : Elem} {u : Value} {p : Ptr}
    (henv : Env.Rel (SlotRel w ghost) s.env v.env)
    (hheap : HeapRel (.witgen w) s.gen
      (fun q => v.env.held (.ptr q) + if q = p then 1 else 0) v.mem.heap ghost rank)
    (hvm : VmRel.Synced w G cs s.gen v.vm) (hp : ghost p = (.array e, u)) :
    Sim w G cs { s with env := s.env.push (.array e, u) } (v.push (.ptr p)) ghost rank where
  env := henv.push hp
  heap := hheap.held_congr fun q => by
    simp only [Fwd.push, Env.held_push, Slot.ptr.injEq]
    exact congrArg _ (if_congr eq_comm rfl rfl)
  vm := hvm

/-! ## Arrays -/

/-- An element of a related list has its partner. -/
theorem getElem?_forall₂ {α β : Type} {R : α → β → Prop} {xs : List α} {ys : List β}
    (h : List.Forall₂ R xs ys) {i : Nat} {y : β} (hy : ys[i]? = some y) :
    ∃ x, xs[i]? = some x ∧ R x y := by
  obtain ⟨hi, rfl⟩ := List.getElem?_eq_some_iff.mp hy
  have hi' : i < xs.length := h.length_eq ▸ hi
  exact ⟨xs[i], List.getElem?_eq_getElem hi', (List.forall₂_iff_get.mp h).2 i hi' hi⟩

/-- Slots of an element type make a payload of that type. -/
theorem newPayload_spec {e : Elem} {t : Ty} (ht : e.ty = some t) {vs : List Value}
    {slots : List Slot}
    (h : List.Forall₂ (SlotRel w ghost) (vs.map fun u => (t, u)) slots) :
    ∃ pay els, Fwd.newPayload e slots = some pay ∧ pay.elems = some els ∧
      List.Forall₂ (ElemRel (.witgen w) ghost e) els vs ∧
      ∀ q, pay.kids.count q = slots.count (.ptr q) := by
  rw [List.forall₂_map_left_iff] at h
  cases e with
  | word => exact absurd ht (by simp [Elem.ty])
  | field => exact absurd ht (by simp [Elem.ty])
  | witness =>
      obtain rfl := Option.some.inj ht
      have hxs : ∃ xs : List Fr, slots = xs.map .felt ∧
          List.Forall₂ (fun x u => u.Denotes w x) xs vs := by
        induction h with
        | nil => exact ⟨[], rfl, .nil⟩
        | @cons u b us bs hu _ ih =>
            obtain ⟨xs, rfl, hall⟩ := ih
            cases b with
            | felt a => exact ⟨a :: xs, rfl, .cons hu hall⟩
            | ptr p => exact hu.elim
      obtain ⟨xs, rfl, hall⟩ := hxs
      refine ⟨.primArray (xs.map .field), (xs.map .field).map .inl, ?_, rfl, ?_, fun q => ?_⟩
      · have hfelts : List.Forall₂ (fun x b => b = Slot.felt x) xs (xs.map .felt) :=
          List.forall₂_map_right_iff.mpr (List.forall₂_same.mpr fun _ _ => rfl)
        rw [Fwd.newPayload, Lib.mapM_of_forall₂ _ _ PrimElem.field xs hfelts
          (by rintro x _ rfl; rfl)]
        rfl
      · rw [List.map_map, List.forall₂_map_left_iff]
        exact hall.imp fun x u hu => ⟨w, rfl, hu⟩
      · have hnot : Slot.ptr q ∉ xs.map Slot.felt := by simp
        exact (List.count_eq_zero_of_not_mem hnot).symm
  | array e =>
      obtain rfl := Option.some.inj ht
      have hps : ∃ ps : List Ptr, slots = ps.map .ptr ∧
          List.Forall₂ (fun p u => ghost p = (.array e, u)) ps vs := by
        induction h with
        | nil => exact ⟨[], rfl, .nil⟩
        | @cons u b us bs hu _ ih =>
            obtain ⟨ps, rfl, hall⟩ := ih
            cases b with
            | felt a => exact hu.elim
            | ptr p => exact ⟨p :: ps, rfl, .cons hu hall⟩
      obtain ⟨ps, rfl, hall⟩ := hps
      refine ⟨.boxedArray ps, ps.map .inr, ?_, rfl, ?_, fun q => ?_⟩
      · have hptrs : List.Forall₂ (fun p b => b = Slot.ptr p) ps (ps.map .ptr) :=
          List.forall₂_map_right_iff.mpr (List.forall₂_same.mpr fun _ _ => rfl)
        rw [Fwd.newPayload, Lib.mapM_of_forall₂ _ _ id ps hptrs (by rintro x _ rfl; rfl),
          List.map_id]
        rfl
      · rw [List.forall₂_map_left_iff]
        exact hall
      · exact (List.count_map_of_injective ps _ (fun _ _ h => Slot.ptr.inj h) q).symm

/-- A new array, its elements handed over. -/
theorem Sim.pushAlloc {s : SymState} {v : Fwd} {e : Elem} {vs : List Value} {pay : Payload}
    {els : List (PrimElem ⊕ Ptr)} (henv : Env.Rel (SlotRel w ghost) s.env v.env)
    (hheap : HeapRel (.witgen w) s.gen
      (fun q => v.env.held (.ptr q) + pay.kids.count q) v.mem.heap ghost rank)
    (hvm : VmRel.Synced w G cs s.gen v.vm) (hels : pay.elems = some els)
    (hall : List.Forall₂ (ElemRel (.witgen w) ghost e) els vs) :
    ∃ ghost' rank', Sim w G cs (s.push (.array e) (s.gen.mkArray vs).1 (s.gen.mkArray vs).2)
      (v.pushAlloc pay) ghost' rank' := by
  have hblock : BlockRel (.witgen w) ghost (.array e, (s.gen.mkArray vs).1) pay :=
    ⟨els, hels, hall⟩
  obtain ⟨rank', hheap', -⟩ := hheap.alloc _ hblock (.mkArray s.gen e vs)
    fun s => HeapRel.pending_of_elems hels s
  have hlive : ∀ p, 0 < v.env.held (.ptr p) → p ≠ v.mem.heap.length := by
    rintro p hp rfl
    obtain ⟨c, hc⟩ := hheap.balanced.get?_of_held (p := v.mem.heap.length)
      (Nat.add_pos_left hp _)
    exact Nat.lt_irrefl _ (Store.lt_length_of_get? hc)
  refine ⟨_, rank', Sim.pushPtr (s := { s with gen := (s.gen.mkArray vs).2 })
    (v := { v with mem := (v.mem.alloc pay).2 }) ?_ hheap' (hvm.gen_congr rfl rfl rfl)
    (Function.update_self _ _ _)⟩
  exact SlotRel.congr_env henv fun p hp => Function.update_of_ne (hlive p hp) _ _

namespace Sim

variable {s : SymState} {v : Fwd}

/-- `inc_rc` of a live block, for a new variable. -/
theorem pushCopy (hsim : Sim w G cs s v ghost rank) {e : Elem} {u : Value} {p : Ptr}
    (hp : ghost p = (.array e, u)) {c : Counted Obj} (hc : Store.get? v.mem.heap p = some c) :
    ∃ m', v.mem.incRc p 1 = some m' ∧
      Sim w G cs { s with env := s.env.push (.array e, u) }
        (Fwd.push { v with mem := m' } (.ptr p)) ghost rank := by
  obtain ⟨m', hrun, hheap, -⟩ := hsim.heap.incRc hc 1
  exact ⟨m', hrun, Sim.pushPtr (v := { v with mem := m' }) hsim.env hheap hsim.vm hp⟩

theorem dup (hsim : Sim w G cs s v ghost rank) {x : Var} {tv : Ty × Value}
    (hx : s.env.read x = some tv) :
    ∃ v', v.dup x = some v' ∧ Sim w G cs { s with env := s.env.push tv } v' ghost rank := by
  obtain ⟨t, u⟩ := tv
  cases t with
  | scalar =>
      obtain ⟨a, ha, hd⟩ := read_scalar hsim.env hx
      exact ⟨_, by simp [Fwd.dup, ha], hsim.pushFelt hd⟩
  | array e =>
      obtain ⟨p, hp, hg⟩ := read_array hsim.env hx
      obtain ⟨c, hc⟩ := hsim.heap.balanced.get?_of_held (p := p) (Env.held_pos_of_read hp)
      obtain ⟨m', hrun, hsim'⟩ := hsim.pushCopy hg hc
      exact ⟨_, by simp [Fwd.dup, hp, hrun], hsim'⟩

theorem drop (hsim : Sim w G cs s v ghost rank) {x : Var} {tv : Ty × Value}
    {env₁ : Env (Ty × Value)} (hx : s.env.take x = some (tv, env₁)) :
    ∃ v', v.drop x = some v' ∧ Sim w G cs { s with env := env₁ } v' ghost rank := by
  obtain ⟨t, u⟩ := tv
  cases t with
  | scalar =>
      obtain ⟨a, env₁', ha, -, henv, hheld⟩ := take_scalar hsim.env hx
      exact ⟨{ v with env := env₁' }, by simp [Fwd.drop, ha], henv,
        hsim.heap.held_congr hheld, hsim.vm⟩
  | array e =>
      obtain ⟨p, env₁', hp, -, henv, hheld⟩ := take_array hsim.env hx
      have hpos : 0 < v.env.held (.ptr p) := by
        rw [hheld, if_pos rfl]
        exact Nat.succ_pos _
      obtain ⟨m', hrun, hheap, -⟩ := hsim.heap.decRc hpos
      refine ⟨{ v with env := env₁', mem := m' }, by simp [Fwd.drop, hp, hrun], henv,
        hheap.held_congr fun q => ?_, hsim.vm⟩
      by_cases hq : q = p
      · subst hq
        rw [dropHeld, Function.update_self, hheld, if_pos rfl, Nat.add_sub_cancel]
      · rw [dropHeld, Function.update_of_ne hq, hheld, if_neg hq, Nat.add_zero]

theorem arrayGet (hsim : Sim w G cs s v ghost rank) {e : Elem} {t : Ty} {a u : Value} {p : Ptr}
    {index : Nat} (ht : e.ty = some t) (hp : ghost p = (.array e, a))
    (hpos : 0 < v.env.held (.ptr p)) (hget : R1CGen.arrayGet a index = some u) :
    ∃ v', v.arrayGet p index = some v' ∧
      Sim w G cs { s with env := s.env.push (t, u) } v' ghost rank := by
  obtain ⟨c, hc⟩ := hsim.heap.balanced.get?_of_held (p := p) hpos
  obtain ⟨rc, data, rfl⟩ := hsim.heap.array_of_ghost hc hp
  obtain ⟨els, hels, hall⟩ := hsim.heap.array_elems hp hc
  obtain ⟨el, hel, hrel⟩ := getElem?_forall₂ hall hget
  have hcell : v.mem.heap.get? p = some c := hc
  cases hpay : c.val.payload with
  | primArray xs =>
      rw [hpay] at hels
      obtain rfl := Option.some.inj hels
      rw [List.getElem?_map, Option.map_eq_some_iff] at hel
      obtain ⟨x, hx, rfl⟩ := hel
      cases e with
      | word => exact absurd ht (by simp [Elem.ty])
      | field => exact absurd ht (by simp [Elem.ty])
      | array e => cases x <;> exact hrel.elim
      | witness =>
          obtain rfl := Option.some.inj ht
          cases x with
          | word n => exact hrel.elim
          | field y =>
              obtain ⟨w', hw, hd⟩ := hrel
              obtain rfl := Mode.witgen.inj hw
              exact ⟨_, by simp [Fwd.arrayGet, hcell, hpay, hx], hsim.pushFelt hd⟩
  | boxedArray qs =>
      rw [hpay] at hels
      obtain rfl := Option.some.inj hels
      rw [List.getElem?_map, Option.map_eq_some_iff] at hel
      obtain ⟨q, hq, rfl⟩ := hel
      cases e with
      | word => exact hrel.elim
      | field => exact hrel.elim
      | witness => exact absurd hrel.1 (by simp)
      | array e =>
          obtain rfl := Option.some.inj ht
          have hkid : q ∈ c.val.kids := by
            rw [Obj.kids, hpay]
            exact List.mem_of_getElem? hq
          obtain ⟨d, hd⟩ := hsim.heap.kid_live hc hkid
          obtain ⟨m', hrun, hsim'⟩ := hsim.pushCopy hrel hd
          exact ⟨_, by simp [Fwd.arrayGet, hcell, hpay, hq, hrun], hsim'⟩
  | _ => rw [hpay] at hels; exact absurd hels (by simp [Payload.elems])

/-- The operand of `array_set`, whichever way its elements are stored. -/
theorem takeElem {env env₁ : Env (Ty × Value)} {v : Fwd} {e : Elem} {t : Ty} {x : Var}
    {u : Value} (henv : Env.Rel (SlotRel w ghost) env v.env) (ht : e.ty = some t)
    (hx : env.take x = some ((t, u), env₁)) :
    ∃ source env₁', v.takeElem e x = some (source, { v with env := env₁' }) ∧
      ElemRel (.witgen w) ghost e source u ∧ Env.Rel (SlotRel w ghost) env₁ env₁' ∧
      ∀ q, v.env.held (.ptr q) = env₁'.held (.ptr q) + (elemKids source).count q := by
  cases e with
  | word => exact absurd ht (by simp [Elem.ty])
  | field => exact absurd ht (by simp [Elem.ty])
  | witness =>
      obtain rfl := Option.some.inj ht
      obtain ⟨a, env₁', ha, hd, hrel, hheld⟩ := take_scalar henv hx
      exact ⟨.inl (.field a), env₁', by simp [Fwd.takeElem, Fwd.takeFelt, ha], ⟨w, rfl, hd⟩, hrel,
        hheld⟩
  | array e =>
      obtain rfl := Option.some.inj ht
      obtain ⟨p, env₁', hp, hg, hrel, hheld⟩ := take_array henv hx
      refine ⟨.inr p, env₁', by simp [Fwd.takeElem, Fwd.takePtr, hp], hg, hrel, fun q => ?_⟩
      rw [hheld, elemKids, List.count_singleton]
      exact congrArg _ (if_congr (eq_comm.trans beq_iff_eq.symm) rfl rfl)

/-- `array_set`, the operands being used up. -/
theorem arraySet {s : SymState} {v : Fwd} {e : Elem} {a r u : Value} {p : Ptr} {index : Nat}
    {g : R1CGen} {source : PrimElem ⊕ Ptr} (henv : Env.Rel (SlotRel w ghost) s.env v.env)
    (hheap : HeapRel (.witgen w) s.gen
      (fun q => v.env.held (.ptr q) + ((if q = p then 1 else 0) + (elemKids source).count q))
      v.mem.heap ghost rank)
    (hvm : VmRel.Synced w G cs s.gen v.vm) (hp : ghost p = (.array e, a))
    (hsrc : ElemRel (.witgen w) ghost e source u)
    (hset : s.gen.arraySet a index u = some (r, g))
    (hfresh : ∀ c, Store.get? v.mem.heap p = some c → c.rc = 1 → c.val.tableId = none) :
    ∃ v' ghost' rank', v.arraySet p index source = some v' ∧
      Sim w G cs { env := s.env.push (.array e, r), gen := g } v' ghost' rank' := by
  obtain ⟨rc, data, rfl, hidx, rfl, rfl⟩ := R1CGen.arraySet_eq_some hset
  obtain ⟨q, m', ghost', rank', hrun, hheap', hq, hsame, -⟩ :=
    HeapRel.arraySet hheap hp hsrc hidx hfresh
  exact ⟨_, ghost', rank', by simp [Fwd.arraySet, hrun],
    Sim.pushPtr (s := { s with gen := (s.gen.mkArray (data.set index u)).2 })
      (v := { v with mem := m' }) (SlotRel.congr_env henv hsame) hheap'
      (hvm.gen_congr rfl rfl rfl) hq⟩

/-! ## Lookups

The table of an array, whose leaves both sides flatten.
-/

/-- The leaves of an array are field elements: the values of its table. -/
theorem leafValues {ls : List (PrimElem ⊕ Ptr)} {els : List LC} (hw : w 0 = 1)
    (h : List.Forall₂ (HeapRel.LeafRel (.witgen w) ghost) ls els) :
    ∃ values, Fwd.leafValues ls = some values ∧
      List.Forall₂ (fun lc x => lc.eval w = x) els values := by
  induction h with
  | nil => exact ⟨[], rfl, .nil⟩
  | @cons l lc ls els hl _ ih =>
      obtain ⟨values, hvalues, hall⟩ := ih
      cases l with
      | inl el =>
          refine ⟨el.toFr :: values, ?_, .cons ?_ hall⟩
          · simp only [Fwd.leafValues, List.mapM_cons, Option.bind_eq_bind, Option.bind_some,
              Option.pure_def] at hvalues ⊢
            rw [hvalues]
            rfl
          · rcases hl with rfl | ⟨w', hw', hl⟩
            · simp [hw]
            · obtain rfl := Mode.witgen.inj hw'
              exact hl
      | inr q => exact absurd hl.1 (by simp)

/-- The table of an array, on either side. -/
theorem arrayTable (hsim : Sim w G cs s v ghost rank) (hw : w 0 = 1) {e : Elem} {rc : Nat}
    {data : List Value} {p : Ptr} (hp : ghost p = (.array e, .array rc data))
    (hpos : 0 < v.env.held (.ptr p))
    (hpre : (s.gen.arrayTable rc data).2.tables <+: G.tables) :
    ∃ v', v.arrayTable p = some ((s.gen.arrayTable rc data).1, v') ∧
      Sim w G cs { s with gen := (s.gen.arrayTable rc data).2 } v' ghost rank := by
  obtain ⟨c, hc⟩ := hsim.heap.balanced.get?_of_held (p := p) hpos
  have hcell : v.mem.heap.get? p = some c := hc
  have hl : label (ghost p) = some rc := by rw [hp]; rfl
  have hid := (hsim.heap.labels p c rc hc hl).2
  obtain ⟨k, hk, heq⟩ | ⟨hnone, heq⟩ := R1CGen.arrayTable_cases rc data s.gen
  · rw [heq]
    exact ⟨v, by simp [Fwd.arrayTable, hcell, ← hid, hk], hsim⟩
  · rw [heq] at hpre ⊢
    obtain ⟨ls, hls, hleaves⟩ := hsim.heap.leaves hp hc
      (Store.below_lt_length rank (Store.lt_length_of_get? hc))
    obtain ⟨values, hvalues, hall⟩ := leafValues hw hleaves
    obtain ⟨m', hrun, hheap, -⟩ := HeapRel.setTableId
      { s.gen with
        tables := s.gen.tables ++ [.ofElems (flattenArrayIntoTable data)]
        tableIds := Function.update s.gen.tableIds rc (some s.gen.tables.length) }
      hsim.heap hc hl s.gen.tables.length rfl rfl
    have hvm := VmRel.arrayTable hsim.vm hall hpre
    refine ⟨{ v with mem := m', vm := (v.vm.dumpValues values).pushTable 1 values.length }, ?_,
      hsim.env, hheap, hvm.gen_congr rfl rfl rfl⟩
    simp only [Fwd.arrayTable, hcell, ← hid, hnone, hls, hvalues, hsim.vm.length_tables,
      hrun, Option.bind_eq_bind, Option.bind_some, Option.pure_def]

end Sim

/-! ## One instruction -/

/-- What the machine asks of the generator's final state: that every lookup can be
counted, and that numbers of tables and lookups fit a word. -/
structure Runnable (w : Nat → Fr) (G : R1CGen) : Prop where
  one : w 0 = 1
  countable : ∀ l ∈ G.lookups, l.Countable w G
  tables_lt : G.tables.length < 2 ^ 64
  lookups_lt : G.lookups.length < 2 ^ 64

/-- A lookup that was recorded on the way to `G`. -/
theorem Runnable.lookup (hok : Runnable w G) {g g' : R1CGen} {target : LookupTarget}
    {args : List Value} {flag : Value} (hwf : g.WellFormed)
    (hargs : args.length = target.columns) (hgrow : g'.Grows G)
    (h : g.lookup target args flag = some g') :
    ∃ flagLc els k g₁, flag.expectLinearCombination = some flagLc ∧
      args.mapM Value.expectLinearCombination = some els ∧
      g.resolveTable target = some (k, g₁) ∧
      g' = { g₁ with lookups := g₁.lookups ++ [⟨k, els, flagLc⟩] } ∧
      g₁.tables <+: G.tables ∧ k < g₁.tables.length ∧ k < 2 ^ 64 ∧
      g₁.lookups.length + 1 < 2 ^ 64 ∧ LookupConstraint.Countable w G ⟨k, els, flagLc⟩ := by
  obtain ⟨flagLc, els, k, g₁, hflag, hels, hres, rfl⟩ := R1CGen.lookup_eq_some h
  have hwf' := hwf.lookup hargs h
  have hmem : (⟨k, els, flagLc⟩ : LookupConstraint) ∈ g₁.lookups ++ [⟨k, els, flagLc⟩] :=
    List.mem_append_right _ List.mem_cons_self
  have hk : k < g₁.tables.length := hwf'.inRange _ hmem
  have htables := hgrow.tables.length_le
  have hlookups := hgrow.lookups.length_le
  rw [List.length_append, List.length_singleton] at hlookups
  exact ⟨flagLc, els, k, g₁, hflag, hels, hres, rfl, hgrow.tables, hk,
    Nat.lt_of_lt_of_le hk (Nat.le_of_lt (Nat.lt_of_le_of_lt htables hok.tables_lt)),
    Nat.lt_of_le_of_lt hlookups hok.lookups_lt, hok.countable _ (hgrow.lookups.subset hmem)⟩

/-- A scalar that is also a combination has the combination's value. -/
theorem Value.Denotes.eval_eq {u : Value} {a : Fr} {lc : LC} (h : u.Denotes w a)
    (hlc : u.expectLinearCombination = some lc) : lc.eval w = a := by
  obtain ⟨terms, hterms, rfl⟩ := h
  rw [Option.some.inj (hlc.symm.trans hterms)]

theorem expect_one {u : Value} {els : List LC}
    (h : [u].mapM Value.expectLinearCombination = some els) :
    ∃ key, els = [key] ∧ u.expectLinearCombination = some key := by
  cases Lib.mapM_eq_some.mp h with
  | cons hkey htail => cases htail; exact ⟨_, rfl, hkey⟩

theorem expect_two {u u' : Value} {els : List LC}
    (h : [u, u'].mapM Value.expectLinearCombination = some els) :
    ∃ key value, els = [key, value] ∧ u.expectLinearCombination = some key ∧
      u'.expectLinearCombination = some value := by
  cases Lib.mapM_eq_some.mp h with
  | cons hkey htail =>
      cases htail with
      | cons hvalue htail => cases htail; exact ⟨_, _, rfl, hkey, hvalue⟩

namespace Sim

variable {s s' : SymState} {v : Fwd}

theorem rangecheck (hsim : Sim w G cs s v ghost rank) (hok : Runnable w G)
    (hwf : s.gen.WellFormed) {x flag : Var}
    (hstep : (Instr.rangecheck x flag).symbolic s = some s') (hgrow : s'.gen.Grows G) :
    ∃ v', (Instr.rangecheck x flag).forward v = some v' ∧ Sim w G cs s' v' ghost rank := by
  obtain ⟨vx, vf, g, hx, hf, hg, rfl⟩ := Instr.symbolic_rangecheck hstep
  obtain ⟨a, ha, hda⟩ := hsim.readFelt hx
  obtain ⟨b, hb, hdb⟩ := hsim.readFelt hf
  obtain ⟨flagLc, els, k, g₁, hflag, hels, hres, rfl, hpre, hk, hk64, hlen, hcount⟩ :=
    hok.lookup hwf rfl hgrow hg
  obtain ⟨key, rfl, hkey⟩ := expect_one hels
  obtain ⟨g₂, hrange, heq⟩ := Option.map_eq_some_iff.mp hres
  obtain ⟨rfl, rfl⟩ := Prod.mk.inj heq
  obtain ⟨-, -, hids, hlookups, hrc⟩ := R1CGen.rangeTable_spec hrange
  obtain ⟨hzero, hvm⟩ := VmRel.rngchk8Table hsim.vm hrange
  rw [← hlookups] at hvm
  obtain ⟨vm', hrun, hvm'⟩ := VmRel.lookupKey hvm hpre hk hk64 hlen hcount
  rw [hda.eval_eq hkey, hdb.eval_eq hflag] at hrun
  refine ⟨{ v with vm := vm' }, ?_, hsim.env,
    hsim.heap.gen_congr (Nat.le_of_eq hrc.symm) fun rc _ => congrFun hids rc, hvm'⟩
  simp only [Instr.forward, ha, hb, FwdVm.rngchk8Field, hzero, hrun, Option.bind_eq_bind,
    Option.bind_some, Option.pure_def]

theorem spreadLookup (hsim : Sim w G cs s v ghost rank) (hok : Runnable w G)
    (hwf : s.gen.WellFormed) {bits : Nat} {x result flag : Var} (hbits : bits ≤ 16)
    (hstep : (Instr.spreadLookup bits x result flag).symbolic s = some s')
    (hgrow : s'.gen.Grows G) :
    ∃ v', (Instr.spreadLookup bits x result flag).forward v = some v' ∧
      Sim w G cs s' v' ghost rank := by
  obtain ⟨vx, vr, vf, g, hx, hr, hf, hg, rfl⟩ := Instr.symbolic_spreadLookup hstep
  obtain ⟨a, ha, hda⟩ := hsim.readFelt hx
  obtain ⟨r, hr, hdr⟩ := hsim.readFelt hr
  obtain ⟨b, hb, hdb⟩ := hsim.readFelt hf
  obtain ⟨flagLc, els, k, g₁, hflag, hels, hres, rfl, hpre, hk, hk64, hlen, hcount⟩ :=
    hok.lookup hwf rfl hgrow hg
  obtain ⟨key, value, rfl, hkey, hvalue⟩ := expect_two hels
  obtain ⟨-, -, hids, hlookups, hrc⟩ := R1CGen.spreadTable_spec bits s.gen
  simp only [R1CGen.resolveTable, Option.some.injEq] at hres
  rw [hres] at hids hlookups hrc
  have hfits : bits < 17 := Nat.lt_succ_of_le hbits
  obtain ⟨vm₁, htable, hvm⟩ := VmRel.spreadTable hsim.vm hok.one hfits (by rw [hres]; exact hpre)
  rw [hres] at htable hvm
  simp only at hids hlookups hrc htable hvm
  rw [← hlookups] at hvm
  obtain ⟨vm', hrun, hvm'⟩ := VmRel.lookupKeyValue hvm hpre hk hk64 hlen hcount
  rw [hda.eval_eq hkey, hdr.eval_eq hvalue, hdb.eval_eq hflag] at hrun
  refine ⟨{ v with vm := vm' }, ?_, hsim.env,
    hsim.heap.gen_congr (Nat.le_of_eq hrc.symm) fun rc _ => congrFun hids rc, hvm'⟩
  simp only [Instr.forward, ha, hr, hb, FwdVm.spreadLookupField, htable, hrun,
    Option.bind_eq_bind, Option.bind_some, Option.pure_def]

theorem arrayLookup (hsim : Sim w G cs s v ghost rank) (hok : Runnable w G)
    (hwf : s.gen.WellFormed) {e : Elem} {arr index result flag : Var}
    (hstep : (Instr.arrayLookup e arr index result flag).symbolic s = some s')
    (hgrow : s'.gen.Grows G) :
    ∃ v', (Instr.arrayLookup e arr index result flag).forward v = some v' ∧
      Sim w G cs s' v' ghost rank := by
  obtain ⟨va, vi, vr, vf, g, harr, hi, hr, hf, hg, rfl⟩ := Instr.symbolic_arrayLookup hstep
  obtain ⟨p, hp, hghost, hpos⟩ := hsim.readPtr harr
  obtain ⟨a, ha, hda⟩ := hsim.readFelt hi
  obtain ⟨r, hr, hdr⟩ := hsim.readFelt hr
  obtain ⟨b, hb, hdb⟩ := hsim.readFelt hf
  obtain ⟨c, hc⟩ := hsim.heap.balanced.get?_of_held (p := p) hpos
  obtain ⟨rc, data, rfl⟩ := hsim.heap.array_of_ghost hc hghost
  obtain ⟨flagLc, els, k, g₁, hflag, hels, hres, rfl, hpre, hk, hk64, hlen, hcount⟩ :=
    hok.lookup hwf rfl hgrow hg
  obtain ⟨key, value, rfl, hkey, hvalue⟩ := expect_two hels
  simp only [R1CGen.resolveTable, Option.some.injEq] at hres
  obtain ⟨v₁, htable, hsim₁⟩ := hsim.arrayTable hok.one hghost hpos (by rw [hres]; exact hpre)
  rw [hres] at htable hsim₁
  obtain ⟨vm', hrun, hvm'⟩ := VmRel.lookupKeyValue hsim₁.vm hpre hk hk64 hlen hcount
  rw [hda.eval_eq hkey, hdr.eval_eq hvalue, hdb.eval_eq hflag] at hrun
  refine ⟨{ v₁ with vm := vm' }, ?_, hsim₁.env,
    hsim₁.heap.gen_congr (Nat.le_refl _) fun rc _ => rfl, hvm'⟩
  simp only [Instr.forward, hp, ha, hr, hb, Fwd.arrayLookupField, htable, hrun,
    Option.bind_eq_bind, Option.bind_some, Option.pure_def]

end Sim

namespace Sim

variable {s s' : SymState} {v : Fwd}

/-- Where the generator makes a step, so does the machine. -/
theorem step (hsim : Sim w G cs s v ghost rank) (hok : Runnable w G) (hwf : s.gen.WellFormed)
    {instr : Instr} (hstep : instr.symbolic s = some s') (hgrow : s'.gen.Grows G)
    (hwit : ∀ val, instr = .writeWitness val → w s.gen.nextWitness = val)
    (hspread : instr.SpreadFits) (hreuse : instr.ReusesUntabled v) :
    ∃ v' ghost' rank', instr.forward v = some v' ∧ Sim w G cs s' v' ghost' rank' := by
  cases instr with
  | const c =>
      obtain rfl := Option.some.inj hstep
      exact ⟨_, ghost, rank, rfl, hsim.pushFelt (Value.denotes_const hok.one c)⟩
  | writeWitness val =>
      obtain rfl := Option.some.inj hstep
      obtain rfl := hwit val rfl
      have hvm := VmRel.writeWitness hsim.vm (Nat.lt_of_succ_le hgrow.nextWitness)
      have hsim' : Sim w G cs { s with gen := s.gen.freshWitness.2 }
          { v with vm := v.vm.writeWitness (w s.gen.nextWitness) } ghost rank :=
        ⟨hsim.env, hsim.heap.gen_congr (Nat.le_refl _) fun _ _ => rfl, hvm⟩
      refine ⟨_, ghost, rank, rfl, hsim'.pushFelt ?_⟩
      exact ⟨[(s.gen.nextWitness, 1)], rfl, by simp⟩
  | add x y =>
      obtain ⟨a, b, u, env₁, env₂, hx, hy, hu, rfl⟩ := Instr.symbolic_add hstep
      obtain ⟨x', env₁', hx', hdx, henv₁, hheld₁⟩ := take_scalar hsim.env hx
      obtain ⟨y', env₂', hy', hdy, henv₂, hheld₂⟩ := take_scalar henv₁ hy
      have hsim' : Sim w G cs { s with env := env₂ } { v with env := env₂' } ghost rank :=
        ⟨henv₂, hsim.heap.held_congr fun q => (hheld₁ q).trans (hheld₂ q), hsim.vm⟩
      exact ⟨_, ghost, rank, by simp [Instr.forward, Fwd.takeFelt, hx', hy'],
        hsim'.pushFelt (Value.denotes_add hok.one hdx hdy hu)⟩
  | mulConst c x =>
      obtain ⟨a, u, env₁, hx, hu, rfl⟩ := Instr.symbolic_mulConst hstep
      obtain ⟨x', env₁', hx', hdx, henv₁, hheld₁⟩ := take_scalar hsim.env hx
      have hsim' : Sim w G cs { s with env := env₁ } { v with env := env₁' } ghost rank :=
        ⟨henv₁, hsim.heap.held_congr hheld₁, hsim.vm⟩
      exact ⟨_, ghost, rank, by simp [Instr.forward, Fwd.takeFelt, hx'],
        hsim'.pushFelt (Value.denotes_mul_const hok.one hdx hu)⟩
  | mkPure e elems =>
      obtain ⟨hall, rfl⟩ := Instr.symbolic_mkPure hstep
      have helems : List.Forall₂ (ElemRel (.witgen w) ghost e) (elems.map .inl)
          (elems.map PrimElem.value) := by
        rw [List.forall₂_map_left_iff, List.forall₂_map_right_iff, List.forall₂_same]
        intro p hp
        obtain rfl := hall p hp
        cases p <;> rfl
      obtain ⟨ghost', rank', hsim'⟩ := Sim.pushAlloc hsim.env
        (hsim.heap.held_congr fun q => (Nat.add_zero _).symm) hsim.vm
        (show (Payload.primArray elems).elems = some _ from rfl) helems
      exact ⟨_, ghost', rank', rfl, hsim'⟩
  | mkArray e xs =>
      obtain ⟨t, vs, env₁, ht, hxs, rfl⟩ := Instr.symbolic_mkArray hstep
      obtain ⟨slots, env₁', hxs', hslots, henv₁⟩ := hsim.env.takeAll hxs
      obtain ⟨pay, els, hpay, hels, hall, hkids⟩ := newPayload_spec ht hslots
      obtain ⟨ghost', rank', hsim'⟩ := Sim.pushAlloc (s := { s with env := env₁ })
        (v := { v with env := env₁' }) henv₁
        (hsim.heap.held_congr fun q => by rw [Env.held_takeAll hxs' (.ptr q), hkids]) hsim.vm
        hels hall
      exact ⟨_, ghost', rank', by simp [Instr.forward, hxs', hpay], hsim'⟩
  | arrayGet e arr index =>
      obtain ⟨t, a, u, ht, harr, hget, rfl⟩ := Instr.symbolic_arrayGet hstep
      obtain ⟨p, hp, hghost, hpos⟩ := hsim.readPtr harr
      obtain ⟨v', hrun, hsim'⟩ := hsim.arrayGet ht hghost hpos hget
      exact ⟨v', ghost, rank, by simp [Instr.forward, hp, hrun], hsim'⟩
  | arraySet e arr index x =>
      obtain ⟨t, a, u, r, g, env₁, env₂, ht, harr, hx, hset, rfl⟩ := Instr.symbolic_arraySet hstep
      obtain ⟨p, env₁', hp, hghost, henv₁, hheld₁⟩ := take_array hsim.env harr
      obtain ⟨source, env₂', hsource, hsrc, henv₂, hheld₂⟩ :=
        Sim.takeElem (v := { v with env := env₁' }) henv₁ ht hx
      have hread : v.readPtr arr = some p := by
        simp [Fwd.readPtr, (Env.take_eq_some.mp hp).1]
      obtain ⟨v', ghost', rank', hrun, hsim'⟩ := Sim.arraySet (s := { s with env := env₂ })
        (v := { v with env := env₂' }) henv₂
        (hsim.heap.held_congr fun q => by
          rw [hheld₁, hheld₂ q]
          exact Nat.add_right_comm _ _ _ |>.trans (Nat.add_assoc _ _ _))
        hsim.vm hghost hsrc hset fun c hc => hreuse p hread c hc
      refine ⟨v', ghost', rank', ?_, hsim'⟩
      simp only [Instr.forward, Fwd.takePtr, hp, hsource, hrun, Option.bind_eq_bind,
        Option.bind_some]
  | arraySetPure e arr index elem =>
      obtain ⟨a, r, g, env₁, he, harr, hset, rfl⟩ := Instr.symbolic_arraySetPure hstep
      obtain ⟨p, env₁', hp, hghost, henv₁, hheld₁⟩ := take_array hsim.env harr
      have hread : v.readPtr arr = some p := by
        simp [Fwd.readPtr, (Env.take_eq_some.mp hp).1]
      have hsrc : ElemRel (.witgen w) ghost e (.inl elem) elem.value := by
        subst he
        cases elem <;> rfl
      obtain ⟨v', ghost', rank', hrun, hsim'⟩ := Sim.arraySet (s := { s with env := env₁ })
        (v := { v with env := env₁' }) henv₁ (hsim.heap.held_congr fun q => by exact hheld₁ q)
        hsim.vm hghost hsrc hset fun c hc => hreuse p hread c hc
      refine ⟨v', ghost', rank', ?_, hsim'⟩
      simp only [Instr.forward, Fwd.takePtr, hp, hrun, Option.bind_eq_bind, Option.bind_some]
  | dup x =>
      obtain ⟨tv, hx, rfl⟩ := Instr.symbolic_dup hstep
      obtain ⟨v', hrun, hsim'⟩ := hsim.dup hx
      exact ⟨v', ghost, rank, hrun, hsim'⟩
  | drop x =>
      obtain ⟨tv, env₁, hx, rfl⟩ := Instr.symbolic_drop hstep
      obtain ⟨v', hrun, hsim'⟩ := hsim.drop hx
      exact ⟨v', ghost, rank, hrun, hsim'⟩
  | constrain a b c =>
      obtain ⟨va, vb, vc, g, ha, hb, hc, hg, rfl⟩ := Instr.symbolic_constrain hstep
      obtain ⟨xa, hxa, hda⟩ := hsim.readFelt ha
      obtain ⟨xb, hxb, hdb⟩ := hsim.readFelt hb
      obtain ⟨xc, hxc, hdc⟩ := hsim.readFelt hc
      obtain ⟨la, lb, lc, hla, hlb, hlc, rfl⟩ := R1CGen.constrain_eq_some hg
      have hlt := hgrow.constraints.length_le
      rw [List.length_append, List.length_singleton] at hlt
      have hvm := VmRel.r1c hsim.vm ⟨la, lb, lc⟩ hlt
      simp only [hda.eval_eq hla, hdb.eval_eq hlb, hdc.eval_eq hlc] at hvm
      exact ⟨{ v with vm := v.vm.r1c xa xb xc }, ghost, rank,
        by simp [Instr.forward, hxa, hxb, hxc], hsim.env,
        hsim.heap.gen_congr (Nat.le_refl _) fun _ _ => rfl, hvm⟩
  | rangecheck x flag =>
      obtain ⟨v', hrun, hsim'⟩ := hsim.rangecheck hok hwf hstep hgrow
      exact ⟨v', ghost, rank, hrun, hsim'⟩
  | spreadLookup bits x result flag =>
      obtain ⟨v', hrun, hsim'⟩ := hsim.spreadLookup hok hwf hspread hstep hgrow
      exact ⟨v', ghost, rank, hrun, hsim'⟩
  | arrayLookup e arr index result flag =>
      obtain ⟨v', hrun, hsim'⟩ := hsim.arrayLookup hok hwf hstep hgrow
      exact ⟨v', ghost, rank, hrun, hsim'⟩

/-- Along a whole run.  `w` is the witness the program writes, from where it is. -/
theorem run (hok : Runnable w G) {prog : Program} {s' : SymState} :
    ∀ {s : SymState} {v : Fwd} {ghost : Ghost} {rank : Ptr → Nat},
      Sim w G cs s v ghost rank → s.gen.WellFormed → prog.symbolic s = some s' →
      s'.gen.Grows G →
      (∀ i val, prog.witnessValues[i]? = some val → w (s.gen.nextWitness + i) = val) →
      (∀ instr ∈ prog, instr.SpreadFits) → prog.ReusesUntabled v →
      ∃ v' ghost' rank', prog.forward v = some v' ∧ Sim w G cs s' v' ghost' rank' := by
  induction prog with
  | nil =>
      intro s v ghost rank hsim _ hrun _ _ _ _
      obtain rfl := Option.some.inj hrun
      exact ⟨v, ghost, rank, rfl, hsim⟩
  | cons instr prog ih =>
      intro s v ghost rank hsim hwf hrun hgrow hwit hspread hreuse
      simp only [Program.symbolic, Option.bind_eq_some_iff] at hrun
      obtain ⟨s₁, hstep, hrun⟩ := hrun
      obtain ⟨hgrow₁, hwf₁⟩ := Instr.symbolic_gen hstep
      obtain ⟨v₁, ghost₁, rank₁, hv₁, hsim₁⟩ := hsim.step hok hwf hstep
        ((Program.symbolic_gen hrun).1.trans hgrow)
        (fun val hval => by
          subst hval
          exact hwit 0 val rfl)
        (hspread instr List.mem_cons_self) hreuse.1
      have hwit₁ : ∀ i val, (Program.witnessValues prog)[i]? = some val →
          w (s₁.gen.nextWitness + i) = val := by
        intro i val hi
        rw [Instr.symbolic_nextWitness hstep, Nat.add_assoc]
        refine hwit _ val ?_
        rw [Program.witnessValues_cons, List.getElem?_append_right (Nat.le_add_right _ _),
          Nat.add_sub_cancel_left]
        exact hi
      obtain ⟨v', ghost', rank', hv', hsim'⟩ := ih hsim₁ (hwf₁ hwf) hrun hgrow hwit₁
        (fun i hi => hspread i (List.mem_cons_of_mem _ hi)) (hreuse.2 v₁ hv₁)
      refine ⟨v', ghost', rank', ?_, hsim'⟩
      rw [Program.forward, hv₁]
      exact hv'

end Sim

end Mavros
