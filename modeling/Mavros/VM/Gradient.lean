/-
# `Mavros.VM.Gradient` — lazy accumulation against eager propagation

Derivatives are bumped into the nodes of a graph whose references come and go.
The machine keeps a derivative on an inner node until its last reference is
dropped.  The eager reading sends it at once down every path to a leaf, multiplied
by the coefficients on the way.

`GradDag.lazy_eq_eager` says that the two leave the same outputs.  The invariant
is `Mem.total`: for the functional `GradDag.grad` that eager propagation defines,
outputs and pending derivatives together change by what the eager reading writes,
at every `bump`, and by nothing at `inc_rc` and `dec_rc`.

## What is proved

Two halves in one statement, for any graph and any sequence of uses.

* Whenever the uses go through and leave nothing live, the outputs are those of eager propagation
  and every node has been freed exactly once.  This half needs no discipline of the client.
* Uses that respect the counts (`Disciplined`) do go through: no bump and no drop meets a freed
  node, those inside `dec_rc` included, and in the end nothing is live.

## How it goes

`GradDag.grad` is a sum over paths, which are finite as references go down in rank; that it is a
functional in the sense of `Mavros.VM.HeapSpec` is one unfolding of a node (`gradOf`).  From there
on it is only used through `Mem.total`, which a `bump` changes by its amount times the functional
and the other two uses do not change.  When nothing is live nothing is pending, and the total is
what the outputs hold.
-/
import Mavros.VM.DecRc

namespace Mavros

open Lib Lib.Store

/-! ## The client of a gradient graph -/

/-- One use of a node. -/
inductive GradOp where
  | bump (side : Side) (p : Ptr) (amount : Fr)
  | incRc (p : Ptr) (n : Nat)
  | decRc (p : Ptr)

def GradOp.run : GradOp → Mem → Option Mem
  | bump side p amount, m => m.bump side p amount
  | incRc p n, m => m.incRc p n
  | decRc p, m => m.decRc p

/-- Some uses, one after the other. -/
def runOps : List GradOp → Mem → Option Mem
  | [], m => some m
  | op :: ops, m => (op.run m).bind (runOps ops)

/-- The references the client holds after a use. -/
def GradOp.holds (held : Ptr → Nat) : GradOp → Ptr → Nat
  | bump _ _ _ => held
  | incRc p n => Function.update held p (held p + n)
  | decRc p => dropHeld held p

/-- A use of a node: its count is positive, and a reference that is dropped is one
the client holds. -/
def GradOp.Allowed (held : Ptr → Nat) (m : Mem) : GradOp → Prop
  | bump _ p _ => 0 < Store.rcOf m.heap p
  | incRc p _ => 0 < Store.rcOf m.heap p
  | decRc p => 0 < held p

/-- Every use is allowed in the memory the uses before it left, and in the end the
client holds nothing. -/
def Disciplined : (Ptr → Nat) → Mem → List GradOp → Prop
  | held, _, [] => ∀ p, held p = 0
  | held, m, op :: ops =>
      op.Allowed held m ∧ ∀ m', op.run m = some m' → Disciplined (op.holds held) m' ops

/-- A graph of gradient nodes: its counts are the references between the nodes and
those of the client, nothing is pending, and it has no cycle. -/
structure GradDag where
  mem : Mem
  held : Ptr → Nat
  rank : Ptr → Nat
  nodes : ∀ p c, Store.get? mem.heap p = some c → c.val.payload.IsNode
  balanced : Balanced Obj.kids mem.heap held
  positive : Store.Positive mem.heap
  ranked : Ranked rank mem.heap
  nothing_pending : ∀ p c side, Store.get? mem.heap p = some c → c.val.payload.pending side = 0
  nothing_freed : mem.freed = []

/-! ## Eager propagation

No memory is involved but for the shape of the graph.
-/

/-- The payload at an address. -/
def payloadAt (h : Heap) (p : Ptr) : Option Payload :=
  (Store.get? h p).map fun c => c.val.payload

theorem payloadAt_eq {h : Heap} {p : Ptr} {c : Counted Obj} (hc : Store.get? h p = some c) :
    payloadAt h p = some c.val.payload := by
  rw [payloadAt, hc, Option.map_some]

/-- The paths from a node down to the leaves: the leaf, and the product of the
coefficients on the way. -/
def leafPaths (h : Heap) : (fuel : Nat) → Ptr → List (Ptr × Fr)
  | 0, _ => []
  | fuel + 1, p =>
      match payloadAt h p with
      | some (.adSum a b _) => leafPaths h fuel a ++ leafPaths h fuel b
      | some (.adMulConst coeff value _) =>
          (leafPaths h fuel value).map fun path => (path.1, coeff * path.2)
      | _ => [(p, 1)]

/-- What an amount of one adds to the output when it arrives at a leaf. -/
def leafGrad (h : Heap) (p : Ptr) : Nat → Fr :=
  match payloadAt h p with
  | some (.adConst value) => Pi.single 0 value
  | some (.adWitness index) => Pi.single index 1
  | _ => 0

namespace GradDag

variable (D : GradDag)

/-- The paths from a node, none longer than its rank. -/
def paths (p : Ptr) : List (Ptr × Fr) := leafPaths D.mem.heap (D.rank p + 1) p

/-- What an amount of one adds to the output when sent down all paths at once. -/
def grad (p : Ptr) : Nat → Fr :=
  ((D.paths p).map fun path => path.2 • leafGrad D.mem.heap path.1).sum

/-- The outputs after every bump has been sent down to the leaves at once. -/
def eager : List GradOp → Side → Nat → Fr
  | [], side, i => D.mem.out side i
  | .bump s p amount :: ops, side, i =>
      eager ops side i + if side = s then amount * D.grad p i else 0
  | .incRc _ _ :: ops, side, i => eager ops side i
  | .decRc _ :: ops, side, i => eager ops side i

/-! ## The functional of eager propagation -/

/-- More fuel than the rank finds no other path. -/
theorem leafPaths_fuel : ∀ (fuel : Nat) (p : Ptr), D.rank p < fuel →
    leafPaths D.mem.heap fuel p = D.paths p := by
  have hall : ∀ (n : Nat) (p : Ptr), D.rank p = n → ∀ fuel, D.rank p < fuel →
      leafPaths D.mem.heap fuel p = D.paths p := by
    intro n
    induction n using Nat.strong_induction_on with
    | _ n ih =>
        intro p hp fuel hfuel
        obtain ⟨fuel, rfl⟩ := Nat.exists_eq_add_of_lt (Nat.zero_lt_of_lt hfuel)
        rw [Nat.zero_add] at hfuel ⊢
        cases hc : Store.get? D.mem.heap p with
        | none => simp [paths, leafPaths, payloadAt, hc]
        | some c =>
            have hat := payloadAt_eq hc
            have hkid : ∀ q ∈ c.val.kids,
                leafPaths D.mem.heap fuel q = leafPaths D.mem.heap (D.rank p) q := by
              intro q hq
              have hlt := D.ranked p c q hc hq
              rw [ih (D.rank q) (hp ▸ hlt) q rfl fuel (by omega),
                ih (D.rank q) (hp ▸ hlt) q rfl (D.rank p) hlt]
            cases hpay : c.val.payload with
            | adSum a b d =>
                have ha := hkid a (by simp [Obj.kids, hpay, Payload.kids])
                have hb := hkid b (by simp [Obj.kids, hpay, Payload.kids])
                simp [paths, leafPaths, hat, hpay, ha, hb]
            | adMulConst coeff value d =>
                have hv := hkid value (by simp [Obj.kids, hpay, Payload.kids])
                simp [paths, leafPaths, hat, hpay, hv]
            | _ => simp [paths, leafPaths, hat, hpay]
  exact fun fuel p hfuel => hall _ p rfl fuel hfuel

/-- The functional of a node comes from those of its children. -/
theorem gradOf : GradOf D.grad D.mem.heap := by
  intro p c hc
  have hkid : ∀ q ∈ c.val.kids, leafPaths D.mem.heap (D.rank p) q = D.paths q :=
    fun q hq => D.leafPaths_fuel _ q (D.ranked p c q hc hq)
  have hat := payloadAt_eq hc
  cases hpay : c.val.payload with
  | adConst value =>
      simp [Payload.GradEq, grad, paths, leafPaths, leafGrad, hat, hpay]
  | adWitness index =>
      simp [Payload.GradEq, grad, paths, leafPaths, leafGrad, hat, hpay]
  | adSum a b d =>
      have ha := hkid a (by simp [Obj.kids, hpay, Payload.kids])
      have hb := hkid b (by simp [Obj.kids, hpay, Payload.kids])
      have hp : D.paths p = D.paths a ++ D.paths b := by
        simp [paths, leafPaths, hat, hpay, ha, hb]
      simp [Payload.GradEq, grad, hp]
  | adMulConst coeff value d =>
      have hv := hkid value (by simp [Obj.kids, hpay, Payload.kids])
      have hp : D.paths p = (D.paths value).map fun path => (path.1, coeff * path.2) := by
        simp [paths, leafPaths, hat, hpay, hv]
      simp only [Payload.GradEq, grad, hp, List.map_map, List.smul_sum]
      congr 2
      funext path
      exact mul_smul coeff path.2 _
  | _ => trivial

/-! ## One use -/

theorem total_run {m m' : Mem} {op : GradOp} (hg : GradOf D.grad m.heap)
    (hr : Ranked D.rank m.heap) (h : op.run m = some m') :
    Shrinks m'.heap m.heap ∧ (∀ q, m'.lives q = m.lives q) ∧
      ∀ s i, m'.total D.grad s i + D.eager [] s i = m.total D.grad s i + D.eager [op] s i := by
  cases op with
  | bump side p amount =>
      have hs := Mem.bump_sameShape h
      refine ⟨Shrinks.of_sameShape hs, Mem.lives_of_sameShape hs (Mem.bump_freed h),
        fun s i => ?_⟩
      rw [Mem.bump_total hg h]
      simp only [eager]
      ring
  | incRc p n =>
      simp only [GradOp.run, Mem.incRc, Option.bind_eq_bind, Option.bind_eq_some_iff] at h
      obtain ⟨c, hc, h⟩ := h
      obtain rfl := Option.some.inj h
      obtain ⟨hs, hl, ht⟩ := Mem.countRound_spec D.grad hc (c.rc + n)
      exact ⟨hs, hl, fun s i => by rw [ht]; simp only [eager]⟩
  | decRc p =>
      obtain ⟨hs, hl, ht⟩ := Mem.decRc_spec hg hr h
      exact ⟨hs, hl, fun s i => by rw [ht]; simp only [eager]⟩

theorem eager_cons (op : GradOp) (ops : List GradOp) (s : Side) (i : Nat) :
    D.eager (op :: ops) s i + D.eager [] s i = D.eager [op] s i + D.eager ops s i := by
  cases op with
  | bump side p amount => simp only [eager]; ring
  | incRc p n => simp only [eager]; ring
  | decRc p => simp only [eager]; ring

/-- A use that is allowed goes through and leaves the counts right. -/
theorem run_isSome {m : Mem} {held : Ptr → Nat} {op : GradOp}
    (hb : Balanced Obj.kids m.heap held) (hpos : Store.Positive m.heap)
    (hn : ∀ p c, Store.get? m.heap p = some c → c.val.payload.IsNode)
    (ha : op.Allowed held m) :
    ∃ m', op.run m = some m' ∧ Balanced Obj.kids m'.heap (op.holds held) ∧
      Store.Positive m'.heap := by
  cases op with
  | bump side p amount =>
      obtain ⟨c, hc⟩ := Store.Positive.get?_of_rcOf ha
      obtain ⟨m', h⟩ := Mem.bump_isSome hc (hn p c hc) side amount
      have hs := Mem.bump_sameShape h
      exact ⟨m', h, Balanced.of_sameShape hb hs, Positive.of_sameShape hpos hs⟩
  | incRc p n =>
      obtain ⟨c, hc⟩ := Store.Positive.get?_of_rcOf ha
      have hcpos := hpos p c hc
      refine ⟨_, by simp only [GradOp.run, Mem.incRc, hc]; rfl, hb.inc hc n,
        hpos.set_some ?_⟩
      show 0 < c.rc + n
      omega
  | decRc p =>
      exact Mem.decRc_isSome hb hpos (fun _ _ q d _ _ _ hd => hn q d hd) ha

/-! ## Whole runs -/

theorem total_runOps {m' : Mem} : ∀ {ops : List GradOp} {m : Mem}, GradOf D.grad m.heap →
    Ranked D.rank m.heap → runOps ops m = some m' →
    (∀ q, m'.lives q = m.lives q) ∧
      ∀ s i, m'.total D.grad s i + D.eager [] s i
        = m.total D.grad s i + D.eager ops s i := by
  intro ops
  induction ops with
  | nil =>
      intro m _ _ h
      obtain rfl : m = m' := by simpa only [runOps, Option.some.injEq] using h
      exact ⟨fun _ => rfl, fun _ _ => rfl⟩
  | cons op ops ih =>
      intro m hg hr h
      simp only [runOps, Option.bind_eq_some_iff] at h
      obtain ⟨m₁, h₁, h⟩ := h
      obtain ⟨hs, hl, ht⟩ := D.total_run hg hr h₁
      obtain ⟨hl', ht'⟩ := ih (hg.shrinks hs) (hr.shrinks hs) h
      refine ⟨fun q => (hl' q).trans (hl q), fun s i => ?_⟩
      have hone := ht s i
      have hrest := ht' s i
      have hcons := D.eager_cons op ops s i
      linear_combination hone + hrest - hcons

theorem runOps_isSome : ∀ {ops : List GradOp} {m : Mem} {held : Ptr → Nat},
    Balanced Obj.kids m.heap held → Store.Positive m.heap → GradOf D.grad m.heap →
    Ranked D.rank m.heap → (∀ p c, Store.get? m.heap p = some c → c.val.payload.IsNode) →
    Disciplined held m ops →
    ∃ m', runOps ops m = some m' ∧ ∀ p, Store.get? m'.heap p = none := by
  intro ops
  induction ops with
  | nil =>
      intro m held hb hpos _ hr _ hd
      have hb0 : Balanced Obj.kids m.heap fun _ => 0 := hb.congr hd
      exact ⟨m, rfl, hb0.get?_eq_none hpos D.rank fun p c q hc hq => hr p c q hc hq⟩
  | cons op ops ih =>
      intro m held hb hpos hg hr hn hd
      obtain ⟨m₁, h₁, hb₁, hpos₁⟩ := GradDag.run_isSome hb hpos hn hd.1
      obtain ⟨hs, -, -⟩ := D.total_run hg hr h₁
      have hn₁ : ∀ p c, Store.get? m₁.heap p = some c → c.val.payload.IsNode := by
        intro p c' hc'
        obtain ⟨c, hc, he, -⟩ := hs.payload_erase hc'
        rw [← Payload.isNode_erase, ← he, Payload.isNode_erase]
        exact hn p c hc
      obtain ⟨m', h', hnone⟩ :=
        ih hb₁ hpos₁ (hg.shrinks hs) (hr.shrinks hs) hn₁ (hd.2 m₁ h₁)
      exact ⟨m', by rw [runOps, h₁]; exact h', hnone⟩

theorem total_mem (s : Side) (i : Nat) : D.mem.total D.grad s i = D.mem.out s i := by
  rw [Mem.total, Store.sumLive, Finset.sum_eq_zero, add_zero]
  intro p _
  cases hc : Store.get? D.mem.heap p with
  | none => rfl
  | some c => rw [Option.elim_some, D.nothing_pending p c s hc, zero_mul]

/-- A run after which nothing is live has propagated every bump and has freed every
node once. -/
theorem out_of_runOps {ops : List GradOp} {m' : Mem} (h : runOps ops D.mem = some m')
    (hnone : ∀ p, Store.get? m'.heap p = none) :
    (∀ s i, m'.out s i = D.eager ops s i) ∧
      ∀ p, m'.freed.count p = if (Store.get? D.mem.heap p).isSome then 1 else 0 := by
  obtain ⟨hl, ht⟩ := D.total_runOps D.gradOf D.ranked h
  refine ⟨fun s i => ?_, fun p => ?_⟩
  · have htot := ht s i
    rw [D.total_mem, Mem.total, Store.sumLive_eq_zero hnone, add_zero] at htot
    simp only [eager] at htot
    rw [add_comm (D.mem.out s i)] at htot
    exact add_right_cancel htot
  · have hp := hl p
    rw [Mem.lives, Mem.lives, hnone p, D.nothing_freed] at hp
    simpa using hp

/-- Lazy accumulation is eager propagation.  Whenever the uses of a graph go through
and leave nothing live, the outputs are those of sending every bump down to the
leaves at once, and each node has been freed once; uses that respect the counts do
go through — no bump or drop, those inside `dec_rc` included, meets a freed node —
and leave nothing live. -/
theorem lazy_eq_eager (ops : List GradOp) :
    (∀ m', runOps ops D.mem = some m' → (∀ p, Store.get? m'.heap p = none) →
      (∀ s i, m'.out s i = D.eager ops s i) ∧
        ∀ p, m'.freed.count p = if (Store.get? D.mem.heap p).isSome then 1 else 0) ∧
    (Disciplined D.held D.mem ops →
      ∃ m', runOps ops D.mem = some m' ∧ ∀ p, Store.get? m'.heap p = none) :=
  ⟨fun _ h hnone => D.out_of_runOps h hnone,
    fun hd => D.runOps_isSome D.balanced D.positive D.gradOf D.ranked D.nodes hd⟩

/-- `x + x` under a factor of seven; the client holds the sum and the product. -/
def doubled : GradDag where
  mem :=
    { heap := [some ⟨2, ⟨.adWitness 5, none⟩⟩, some ⟨2, ⟨.adSum 0 0 fun _ => 0, none⟩⟩,
        some ⟨1, ⟨.adMulConst 7 1 fun _ => 0, none⟩⟩]
      out := fun _ _ => 0
      freed := [] }
  held := fun p => if p = 1 ∨ p = 2 then 1 else 0
  rank := id
  nodes := by
    rintro (_ | _ | _ | p) c h <;> simp [Store.get?] at h <;> subst h <;> trivial
  balanced := by
    rintro (_ | _ | _ | p) <;>
      simp [Store.rcOf, Store.get?, Store.refs, Store.cellRefs, Obj.kids, Payload.kids]
  positive := by
    rintro (_ | _ | _ | p) c h <;> simp [Store.get?] at h <;> subst h <;> decide
  ranked := by
    rintro (_ | _ | _ | p) c q h hq <;> simp [Store.get?] at h <;> subst h <;>
      simp [Obj.kids, Payload.kids] at hq <;> simp [hq]
  nothing_pending := by
    rintro (_ | _ | _ | p) c side h <;> simp [Store.get?] at h <;> subst h <;> rfl
  nothing_freed := rfl

/-- Three into `a` through the product, four into `b` through the sum; the sum is
dropped while the product still refers to it. -/
def doubledOps : List GradOp :=
  [.bump .a 2 3, .bump .b 1 4, .decRc 1, .decRc 2]

theorem disciplined_doubledOps : Disciplined doubled.held doubled.mem doubledOps := by
  refine ⟨by show 0 < 1; decide, fun m₁ h₁ => ?_⟩
  obtain rfl := Option.some.inj h₁
  refine ⟨by show 0 < 2; decide, fun m₂ h₂ => ?_⟩
  obtain rfl := Option.some.inj h₂
  refine ⟨by show 0 < 1; decide, fun m₃ h₃ => ?_⟩
  obtain rfl := Option.some.inj h₃
  refine ⟨by show 0 < 1; decide, fun _ _ p => ?_⟩
  simp only [GradOp.holds, dropHeld, doubled, Function.update_apply]
  split_ifs <;> first | rfl | tauto

theorem lazy_eq_eager_doubled :
    ∃ m', runOps doubledOps doubled.mem = some m' ∧ m'.out .a 5 = 42 ∧ m'.out .b 5 = 8 ∧
      ∀ p < 3, m'.freed.count p = 1 := by
  obtain ⟨m', h, hnone⟩ := (lazy_eq_eager doubled doubledOps).2 disciplined_doubledOps
  obtain ⟨hout, hfreed⟩ := (lazy_eq_eager doubled doubledOps).1 m' h hnone
  refine ⟨m', h, ?_, ?_, ?_⟩
  · rw [hout]
    decide +kernel
  · rw [hout]
    decide +kernel
  · intro p hp
    rw [hfreed]
    interval_cases p <;> rfl

end GradDag

end Mavros
