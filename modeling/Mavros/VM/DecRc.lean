/-
# `Mavros.VM.DecRc` — the work list of `dec_rc`

A round of `dec_rc` lowers a count or frees a block, after handing its pending
derivatives down.  Two lemmas about the whole list come out of the two about a
round: a run that ends keeps every total and frees nothing twice
(`Mem.decRcLoop_spec`), and over a balanced heap the run does end
(`Mem.decRcLoop_isSome`).

## What is proved

* `Mem.decRc_spec`: dropping a reference changes no total, and what is freed was live and is freed
  once.
* `Mem.decRc_isSome`: over a heap with exact counts, dropping a reference that is held goes through
  and leaves exact counts.
* `Mem.decRc_overwrite`: a block below which the reference lies may be overwritten before or after.

## How it goes

The work list is a list of references that are held, in the sense of `Mavros.Lib.RefCount`: a block
that is freed hands its references to the list.  So the sum of the counts goes down by one in
every round, which bounds the rounds, and a block with no reference left is not reached again.

That a derivative is not lost when its block is freed is the functional of a node: what is pending
times the functional is what the children are given (`Mem.handDown_total`).
-/
import Mavros.VM.HeapSpec

namespace Mavros

open Lib Lib.Store

/-! ## Heaps with fewer blocks

What is true of live blocks and does not look at counts.
-/

/-- The live blocks of `h'` are live in `h` too, with other counts and pending
derivatives perhaps. -/
def Shrinks (h' h : Heap) : Prop :=
  ∀ p c', Store.get? h' p = some c' →
    ∃ c, Store.get? h p = some c ∧ (eraseCell c).val = (eraseCell c').val

namespace Shrinks

variable {h h' h'' : Heap}

theorem refl (h : Heap) : Shrinks h h := fun _ c hc => ⟨c, hc, rfl⟩

theorem trans (hs' : Shrinks h'' h') (hs : Shrinks h' h) : Shrinks h'' h := by
  intro p c'' hc''
  obtain ⟨c', hc', he'⟩ := hs' p c'' hc''
  obtain ⟨c, hc, he⟩ := hs p c' hc'
  exact ⟨c, hc, he.trans he'⟩

theorem of_sameShape (hs : SameShape h' h) : Shrinks h' h := by
  intro p c' hc'
  have hp := congrArg (fun h => Store.get? h p) hs
  simp only [Heap.get?_erase, hc', Option.map_some] at hp
  obtain ⟨c, hc, he⟩ := Option.map_eq_some_iff.mp hp.symm
  exact ⟨c, hc, congrArg Counted.val he⟩

theorem set_none (h : Heap) (p : Ptr) : Shrinks (h.set p none) h := by
  intro q c hc
  by_cases hq : q = p
  · subst hq
    have hlt := Store.lt_length_of_get? hc
    rw [List.length_set] at hlt
    rw [Store.get?_set_self hlt] at hc
    exact absurd hc (by simp)
  · rw [Store.get?_set_ne hq] at hc
    exact ⟨c, hc, rfl⟩

theorem set_rc {p : Ptr} {c : Counted Obj} (hc : Store.get? h p = some c) (n : Nat) :
    Shrinks (h.set p (some { c with rc := n })) h := by
  intro q d hd
  by_cases hq : q = p
  · subst hq
    rw [Store.get?_set_self (Store.lt_length_of_get? hc)] at hd
    obtain rfl := Option.some.inj hd
    exact ⟨c, hc, rfl⟩
  · rw [Store.get?_set_ne hq] at hd
    exact ⟨d, hd, rfl⟩

/-- What a property of the live blocks must not look at to be kept. -/
theorem payload_erase (hs : Shrinks h' h) {p : Ptr} {c' : Counted Obj}
    (hc' : Store.get? h' p = some c') :
    ∃ c, Store.get? h p = some c ∧ c.val.payload.erase = c'.val.payload.erase ∧
      c.val.tableId = c'.val.tableId := by
  obtain ⟨c, hc, he⟩ := hs p c' hc'
  have hobj := congrArg Obj.payload he
  have hid := congrArg Obj.tableId he
  exact ⟨c, hc, hobj, hid⟩

theorem kids (hs : Shrinks h' h) {p : Ptr} {c' : Counted Obj}
    (hc' : Store.get? h' p = some c') :
    ∃ c, Store.get? h p = some c ∧ c.val.kids = c'.val.kids := by
  obtain ⟨c, hc, he, -⟩ := hs.payload_erase hc'
  exact ⟨c, hc, by rw [Obj.kids, ← Payload.kids_erase, he, Payload.kids_erase, Obj.kids]⟩

end Shrinks

theorem GradOf.shrinks {g : Ptr → Nat → Fr} {h h' : Heap} (hg : GradOf g h)
    (hs : Shrinks h' h) : GradOf g h' := by
  intro p c' hc'
  obtain ⟨c, hc, he, -⟩ := hs.payload_erase hc'
  rw [← Payload.gradEq_erase, ← he, Payload.gradEq_erase]
  exact hg p c hc

/-- References go down in `rank`, so that there is no cycle. -/
def Ranked (rank : Ptr → Nat) (h : Heap) : Prop :=
  ∀ p c q, Store.get? h p = some c → q ∈ c.val.kids → rank q < rank p

theorem Ranked.shrinks {rank : Ptr → Nat} {h h' : Heap} (hr : Ranked rank h)
    (hs : Shrinks h' h) : Ranked rank h' := by
  intro p c' q hc' hq
  obtain ⟨c, hc, hk⟩ := hs.kids hc'
  exact hr p c q hc (hk ▸ hq)

theorem Ranked.not_mem_kids {rank : Ptr → Nat} {h : Heap} (hr : Ranked rank h) {p : Ptr}
    {c : Counted Obj} (hc : Store.get? h p = some c) : p ∉ c.val.kids :=
  fun hp => Nat.lt_irrefl _ (hr p c p hc hp)

/-- The children of a gradient node are gradient nodes. -/
def NodesClosed (h : Heap) : Prop :=
  ∀ p c q d, Store.get? h p = some c → c.val.payload.IsNode → q ∈ c.val.kids →
    Store.get? h q = some d → d.val.payload.IsNode

theorem NodesClosed.shrinks {h h' : Heap} (hn : NodesClosed h) (hs : Shrinks h' h) :
    NodesClosed h' := by
  intro p c' q d' hc' hnode hq hd'
  obtain ⟨c, hc, hk⟩ := hs.kids hc'
  obtain ⟨c₁, hc₁, he, -⟩ := hs.payload_erase hc'
  obtain rfl : c₁ = c := Option.some.inj (hc₁.symm.trans hc)
  obtain ⟨d, hd, hed, -⟩ := hs.payload_erase hd'
  have hcnode : c₁.val.payload.IsNode := by
    rw [← Payload.isNode_erase, he, Payload.isNode_erase]
    exact hnode
  have hdnode := hn p c₁ q d hc hcnode (hk ▸ hq) hd
  rwa [← Payload.isNode_erase, hed, Payload.isNode_erase] at hdnode

/-- How often a block has been freed, plus one while it is live. -/
def Mem.lives (m : Mem) (p : Ptr) : Nat :=
  m.freed.count p + if (Store.get? m.heap p).isSome then 1 else 0

theorem Mem.lives_of_sameShape {m m' : Mem} (hs : SameShape m'.heap m.heap)
    (hf : m'.freed = m.freed) (p : Ptr) : m'.lives p = m.lives p := by
  have hlive : (Store.get? m'.heap p).isSome = (Store.get? m.heap p).isSome := by
    have := hs.get?_none_iff p
    cases h' : Store.get? m'.heap p <;> cases h : Store.get? m.heap p <;> simp_all
  rw [Mem.lives, Mem.lives, hf, hlive]

theorem Mem.lives_free {m : Mem} {p : Ptr} {c : Counted Obj}
    (hc : Store.get? m.heap p = some c) (q : Ptr) : (m.free p).lives q = m.lives q := by
  by_cases hq : q = p
  · subst hq
    simp only [Mem.lives, Mem.free, hc,
      Store.get?_set_self (Store.lt_length_of_get? hc), List.count_append]
    simp
  · simp only [Mem.lives, Mem.free, Store.get?_set_ne hq, List.count_append]
    simp [Ne.symm hq]

/-! ## What a run of the list keeps -/

/-- One block of the list is freed. -/
theorem Mem.freeRound_spec {g : Ptr → Nat → Fr} {rank : Ptr → Nat} {m m₁ : Mem} {p : Ptr}
    {c : Counted Obj} (hg : GradOf g m.heap) (hr : Ranked rank m.heap)
    (hc : Store.get? m.heap p = some c) (h : m.handDown c.val.payload = some m₁) :
    Shrinks (m₁.free p).heap m.heap ∧ (∀ q, (m₁.free p).lives q = m.lives q) ∧
      ∀ s i, (m₁.free p).total g s i = m.total g s i := by
  have hs := Mem.handDown_sameShape h
  have hc₁ : Store.get? m₁.heap p = some c :=
    (Mem.handDown_frame h (hr.not_mem_kids hc)).trans hc
  refine ⟨(Shrinks.set_none m₁.heap p).trans (Shrinks.of_sameShape hs), fun q => ?_,
    fun s i => ?_⟩
  · rw [Mem.lives_free hc₁, Mem.lives_of_sameShape hs (Mem.handDown_freed h)]
  · have hset := Store.sumLive_set (fun q (o : Obj) => o.payload.pending s * g q i) hc₁ none
    have hdown := Mem.handDown_total hg hc h s i
    simp only [Option.elim_none, add_zero] at hset
    simp only [Mem.total, Mem.free] at hdown ⊢
    linear_combination hset + hdown

/-- One count of the list is lowered. -/
theorem Mem.countRound_spec (g : Ptr → Nat → Fr) {m : Mem} {p : Ptr} {c : Counted Obj}
    (hc : Store.get? m.heap p = some c) (n : Nat) :
    Shrinks (m.heap.set p (some { c with rc := n })) m.heap ∧
      (∀ q, Mem.lives { m with heap := m.heap.set p (some { c with rc := n }) } q
        = m.lives q) ∧
      ∀ s i, Mem.total g { m with heap := m.heap.set p (some { c with rc := n }) } s i
        = m.total g s i := by
  refine ⟨Shrinks.set_rc hc n, fun q => ?_, fun s i => ?_⟩
  · by_cases hq : q = p
    · subst hq
      simp only [Mem.lives, hc, Store.get?_set_self (Store.lt_length_of_get? hc),
        Option.isSome_some]
    · simp only [Mem.lives, Store.get?_set_ne hq]
  · have hset := Store.sumLive_set (fun q (o : Obj) => o.payload.pending s * g q i) hc
      (some { c with rc := n })
    simp only [Option.elim_some] at hset
    simp only [Mem.total]
    linear_combination hset

theorem Mem.decRcLoop_spec {g : Ptr → Nat → Fr} {rank : Ptr → Nat} {m' : Mem} :
    ∀ {fuel : Nat} {queue : List Ptr} {m : Mem}, GradOf g m.heap → Ranked rank m.heap →
      m.decRcLoop fuel queue = some m' →
      Shrinks m'.heap m.heap ∧ (∀ q, m'.lives q = m.lives q) ∧
        ∀ s i, m'.total g s i = m.total g s i := by
  intro fuel
  induction fuel with
  | zero =>
      intro queue m hg hr h
      cases queue with
      | nil =>
          obtain rfl : m = m' := by simpa only [Mem.decRcLoop, Option.some.injEq] using h
          exact ⟨Shrinks.refl _, fun _ => rfl, fun _ _ => rfl⟩
      | cons item queue => simp [Mem.decRcLoop] at h
  | succ fuel ih =>
      intro queue m hg hr h
      cases queue with
      | nil =>
          obtain rfl : m = m' := by simpa only [Mem.decRcLoop, Option.some.injEq] using h
          exact ⟨Shrinks.refl _, fun _ => rfl, fun _ _ => rfl⟩
      | cons item queue =>
          simp only [Mem.decRcLoop, Option.bind_eq_bind, Option.bind_eq_some_iff] at h
          obtain ⟨c, hc, h⟩ := h
          by_cases hrc : c.rc = 1
          · rw [if_pos hrc, Option.bind_eq_some_iff] at h
            obtain ⟨m₁, h₁, h⟩ := h
            obtain ⟨hs, hl, ht⟩ := Mem.freeRound_spec hg hr hc h₁
            obtain ⟨hs', hl', ht'⟩ := ih (hg.shrinks hs) (hr.shrinks hs) h
            exact ⟨hs'.trans hs, fun q => (hl' q).trans (hl q),
              fun s i => (ht' s i).trans (ht s i)⟩
          · rw [if_neg hrc] at h
            obtain ⟨hs, hl, ht⟩ := Mem.countRound_spec g hc (c.rc - 1)
            obtain ⟨hs', hl', ht'⟩ := ih (hg.shrinks hs) (hr.shrinks hs) h
            exact ⟨hs'.trans hs, fun q => (hl' q).trans (hl q),
              fun s i => (ht' s i).trans (ht s i)⟩

/-- The blocks that are left are those of before, cycles or not. -/
theorem Mem.decRcLoop_shrinks {m' : Mem} :
    ∀ {fuel : Nat} {queue : List Ptr} {m : Mem}, m.decRcLoop fuel queue = some m' →
      Shrinks m'.heap m.heap := by
  intro fuel
  induction fuel with
  | zero =>
      intro queue m h
      cases queue with
      | nil => exact Option.some.inj h ▸ Shrinks.refl _
      | cons item queue => exact nomatch h
  | succ fuel ih =>
      intro queue m h
      cases queue with
      | nil => exact Option.some.inj h ▸ Shrinks.refl _
      | cons item queue =>
          simp only [Mem.decRcLoop, Option.bind_eq_bind, Option.bind_eq_some_iff] at h
          obtain ⟨c, hc, h⟩ := h
          by_cases hrc : c.rc = 1
          · rw [if_pos hrc, Option.bind_eq_some_iff] at h
            obtain ⟨m₁, h₁, h⟩ := h
            exact (ih h).trans ((Shrinks.set_none _ _).trans
              (Shrinks.of_sameShape (Mem.handDown_sameShape h₁)))
          · rw [if_neg hrc] at h
            exact (ih h).trans (Shrinks.set_rc hc _)

/-! ## The list comes to an end -/

theorem Balanced.of_sameShape {h h' : Heap} {held : Ptr → Nat}
    (hb : Balanced Obj.kids h held) (hs : SameShape h' h) : Balanced Obj.kids h' held := by
  intro p
  rw [hs.rcOf_eq, hs.refs_eq]
  exact hb p

theorem Positive.of_sameShape {h h' : Heap} (hp : Store.Positive h) (hs : SameShape h' h) :
    Store.Positive h' := by
  intro p c' hc'
  obtain ⟨c, hc, hrc, -, -⟩ := hs.get?_some hc'
  rw [← hrc]
  exact hp p c hc

/-- The children of a dying block are there to be bumped. -/
theorem Mem.handDown_isSome {m : Mem} {held : Ptr → Nat} (hb : Balanced Obj.kids m.heap held)
    (hn : NodesClosed m.heap) {p : Ptr} {c : Counted Obj}
    (hc : Store.get? m.heap p = some c) : ∃ m', m.handDown c.val.payload = some m' := by
  have hkid : ∀ q ∈ c.val.kids, c.val.payload.IsNode →
      ∃ d, Store.get? m.heap q = some d ∧ d.val.payload.IsNode := by
    intro q hq hnode
    obtain ⟨d, hd⟩ := hb.get?_of_mem_kids hc hq
    exact ⟨d, hd, hn p c q d hc hnode hq hd⟩
  cases hpay : c.val.payload with
  | adSum a b d =>
      obtain ⟨ca, hca, hna⟩ := hkid a (by simp [Obj.kids, hpay, Payload.kids])
        (by rw [hpay]; trivial)
      obtain ⟨cb, hcb, hnb⟩ := hkid b (by simp [Obj.kids, hpay, Payload.kids])
        (by rw [hpay]; trivial)
      obtain ⟨m₁, h₁⟩ := Mem.bumpAll_isSome hca hna d
      obtain ⟨cb', hcb', hnb'⟩ := (Mem.bumpAll_sameShape h₁).isNode hcb hnb
      obtain ⟨m₂, h₂⟩ := Mem.bumpAll_isSome hcb' hnb' d
      exact ⟨m₂, by simp [Mem.handDown, h₁, h₂]⟩
  | adMulConst coeff value d =>
      obtain ⟨cv, hcv, hnv⟩ := hkid value (by simp [Obj.kids, hpay, Payload.kids])
        (by rw [hpay]; trivial)
      simp only [Mem.handDown]
      exact Mem.bumpAll_isSome hcv hnv _
  | _ => exact ⟨m, by simp only [Mem.handDown]⟩

/-- With every count the number of references, those of the queue included, the
sum of the counts is enough fuel. -/
theorem Mem.decRcLoop_isSome {held : Ptr → Nat} :
    ∀ {fuel : Nat} (queue : List Ptr) (m : Mem),
      Balanced Obj.kids m.heap (fun p => held p + queue.count p) → Store.Positive m.heap →
      NodesClosed m.heap → m.heap.totalRc ≤ fuel →
      ∃ m', m.decRcLoop fuel queue = some m' ∧ Balanced Obj.kids m'.heap held ∧
        Store.Positive m'.heap := by
  intro fuel
  induction fuel with
  | zero =>
      intro queue m hb hpos hn hfuel
      cases queue with
      | nil => exact ⟨m, rfl, hb.congr (by simp), hpos⟩
      | cons item queue =>
          obtain ⟨c, hc⟩ := hb.get?_of_held (p := item) (by simp)
          have := Store.rc_le_totalRc hc
          have := hpos item c hc
          omega
  | succ fuel ih =>
      intro queue m hb hpos hn hfuel
      cases queue with
      | nil => exact ⟨m, rfl, hb.congr (by simp), hpos⟩
      | cons item queue =>
          obtain ⟨c, hc⟩ := hb.get?_of_held (p := item) (by simp)
          have hheld : 0 < held item + (item :: queue).count item := by simp
          by_cases hrc : c.rc = 1
          · obtain ⟨m₁, h₁⟩ := Mem.handDown_isSome hb hn hc
            have hs := Mem.handDown_sameShape h₁
            obtain ⟨c₁, hc₁, hrc₁, hk₁, -⟩ := SameShape.get?_some (Eq.symm hs) hc
            have hb₁ := (Balanced.of_sameShape hb hs).free hc₁ (hrc₁.trans hrc) hheld
            have htot := Store.totalRc_set hc₁ none
            have hsum := hs.totalRc_eq
            simp only [Option.elim_none, hrc₁, hrc] at htot
            obtain ⟨m', h', hb', hpos'⟩ := ih (queue ++ c.val.kids) (m₁.free item)
              (hb₁.congr fun q => by
                rw [hk₁]
                by_cases hq : q = item
                · subst hq
                  simp [dropHeld]
                  omega
                · simp [dropHeld, hq, Ne.symm hq]
                  omega)
              ((Positive.of_sameShape hpos hs).set_none item)
              (hn.shrinks ((Shrinks.set_none _ _).trans (Shrinks.of_sameShape hs)))
              (by simp only [Mem.free]; omega)
            exact ⟨m', by simp [Mem.decRcLoop, hc, hrc, h₁, h'], hb', hpos'⟩
          · have hone := hpos item c hc
            have htot := Store.totalRc_set hc (some { c with rc := c.rc - 1 })
            simp only [Option.elim_some] at htot
            obtain ⟨m', h', hb', hpos'⟩ := ih queue
              ({ m with heap := m.heap.set item (some { c with rc := c.rc - 1 }) })
              ((hb.dec hc hone hheld).congr fun q => by
                by_cases hq : q = item
                · subst hq
                  simp [dropHeld]
                · simp [dropHeld, hq, Ne.symm hq])
              (hpos.set_some (by show 0 < c.rc - 1; omega))
              (hn.shrinks (Shrinks.set_rc hc _))
              (by simp only; omega)
            exact ⟨m', by simp [Mem.decRcLoop, hc, hrc, h'], hb', hpos'⟩

/-! ## `dec_rc` -/

theorem Mem.decRc_spec {g : Ptr → Nat → Fr} {rank : Ptr → Nat} {m m' : Mem} {p : Ptr}
    (hg : GradOf g m.heap) (hr : Ranked rank m.heap) (h : m.decRc p = some m') :
    Shrinks m'.heap m.heap ∧ (∀ q, m'.lives q = m.lives q) ∧
      ∀ s i, m'.total g s i = m.total g s i :=
  Mem.decRcLoop_spec hg hr h

/-- Dropping a reference that is held. -/
theorem Mem.decRc_isSome {m : Mem} {held : Ptr → Nat} (hb : Balanced Obj.kids m.heap held)
    (hpos : Store.Positive m.heap) (hn : NodesClosed m.heap) {p : Ptr} (hp : 0 < held p) :
    ∃ m', m.decRc p = some m' ∧ Balanced Obj.kids m'.heap (dropHeld held p) ∧
      Store.Positive m'.heap := by
  refine Mem.decRcLoop_isSome [p] m (hb.congr fun q => ?_) hpos hn (Nat.le_refl _)
  by_cases hq : q = p
  · subst hq
    simp [dropHeld]
    omega
  · simp [dropHeld, hq, Ne.symm hq]

/-! ## Blocks out of reach

A block that cannot be reached from the list is neither read nor written, so it may be
overwritten before or after. -/

/-- A memory with one cell overwritten. -/
def Mem.overwrite (m : Mem) (p : Ptr) (o : Option (Counted Obj)) : Mem :=
  { m with heap := m.heap.set p o }

section Overwrite

variable {p q : Ptr} {o : Option (Counted Obj)}

theorem Mem.get?_overwrite_ne (m : Mem) (h : q ≠ p) :
    Store.get? (m.overwrite p o).heap q = Store.get? m.heap q :=
  Store.get?_set_ne h o

theorem Mem.bump_overwrite (m : Mem) (side : Side) (amount : Fr) (h : q ≠ p) :
    (m.overwrite p o).bump side q amount = (m.bump side q amount).map (·.overwrite p o) := by
  have hset : ∀ c pay, (m.overwrite p o).setPayload q c pay
      = (m.setPayload q c pay).overwrite p o := by
    intro c pay
    simp only [Mem.overwrite, Mem.setPayload, List.set_comm _ _ h]
  have hout : ∀ i x, (m.overwrite p o).addOut side i x = (m.addOut side i x).overwrite p o :=
    fun _ _ => rfl
  simp only [Mem.bump, Mem.get?_overwrite_ne m h, Option.bind_eq_bind]
  cases hc : Store.get? m.heap q with
  | none => rfl
  | some c =>
      simp only [Option.bind_some]
      cases c.val.payload with
      | adConst value => simp only [hout, Option.map_some]
      | adWitness index => simp only [hout, Option.map_some]
      | adSum a b d => simp only [hset, Option.map_some]
      | adMulConst coeff value d => simp only [hset, Option.map_some]
      | _ => rfl

theorem Mem.bumpAll_overwrite (m : Mem) (d : Side → Fr) (h : q ≠ p) :
    (m.overwrite p o).bumpAll q d = (m.bumpAll q d).map (·.overwrite p o) := by
  simp only [Mem.bumpAll, Option.bind_eq_bind, Mem.bump_overwrite _ _ _ h]
  cases m.bump .a q (d .a) with
  | none => rfl
  | some m₁ =>
      simp only [Option.map_some, Option.bind_some, Mem.bump_overwrite _ _ _ h]
      cases m₁.bump .b q (d .b) with
      | none => rfl
      | some m₂ => simp only [Option.map_some, Option.bind_some, Mem.bump_overwrite _ _ _ h]

theorem Mem.handDown_overwrite (m : Mem) (pay : Payload) (h : p ∉ pay.kids) :
    (m.overwrite p o).handDown pay = (m.handDown pay).map (·.overwrite p o) := by
  cases pay with
  | adSum a b d =>
      simp only [Payload.kids, List.mem_cons, List.not_mem_nil, or_false, not_or] at h
      simp only [Mem.handDown, Option.bind_eq_bind, Mem.bumpAll_overwrite _ _ (Ne.symm h.1)]
      cases m.bumpAll a d with
      | none => rfl
      | some m₁ =>
          simp only [Option.map_some, Option.bind_some, Mem.bumpAll_overwrite _ _ (Ne.symm h.2)]
  | adMulConst coeff value d =>
      simp only [Payload.kids, List.mem_singleton] at h
      simp only [Mem.handDown, Mem.bumpAll_overwrite _ _ (Ne.symm h)]
  | _ => rfl

/-- The references of the blocks in `S` stay in `S`. -/
def ClosedUnder (S : Ptr → Prop) (h : Heap) : Prop :=
  ∀ r c, S r → Store.get? h r = some c → ∀ q ∈ c.val.kids, S q

theorem ClosedUnder.shrinks {S : Ptr → Prop} {h h' : Heap} (hS : ClosedUnder S h)
    (hs : Shrinks h' h) : ClosedUnder S h' := by
  intro r c' hr hc' q hq
  obtain ⟨c, hc, hk⟩ := hs.kids hc'
  exact hS r c hr hc q (hk ▸ hq)

theorem Mem.decRcLoop_overwrite {S : Ptr → Prop} (hnot : ¬ S p) :
    ∀ {fuel : Nat} (queue : List Ptr) (m : Mem), ClosedUnder S m.heap →
      (∀ q ∈ queue, S q) →
      (m.overwrite p o).decRcLoop fuel queue = (m.decRcLoop fuel queue).map (·.overwrite p o) ∧
        ∀ m', m.decRcLoop fuel queue = some m' →
          Store.get? m'.heap p = Store.get? m.heap p := by
  intro fuel
  induction fuel with
  | zero =>
      intro queue m hS hq
      cases queue with
      | nil => exact ⟨rfl, fun m' h => by rw [Option.some.inj h]⟩
      | cons item queue => exact ⟨rfl, fun m' h => nomatch h⟩
  | succ fuel ih =>
      intro queue m hS hq
      cases queue with
      | nil => exact ⟨rfl, fun m' h => by rw [Option.some.inj h]⟩
      | cons item queue =>
          have hitem : item ≠ p := by
            rintro rfl
            exact hnot (hq item List.mem_cons_self)
          have hrest : ∀ q ∈ queue, S q := fun q h => hq q (List.mem_cons_of_mem _ h)
          simp only [Mem.decRcLoop, Mem.get?_overwrite_ne m hitem, Option.bind_eq_bind]
          cases hc : Store.get? m.heap item with
          | none => exact ⟨rfl, fun m' h => nomatch h⟩
          | some c =>
              have hkids : ∀ q ∈ c.val.kids, S q := hS item c (hq item List.mem_cons_self) hc
              have hp : p ∉ c.val.payload.kids := fun hk => hnot (hkids p hk)
              simp only [Option.bind_some]
              by_cases hrc : c.rc = 1
              · simp only [if_pos hrc, Mem.handDown_overwrite m _ hp]
                cases h₁ : m.handDown c.val.payload with
                | none => exact ⟨rfl, fun m' h => nomatch h⟩
                | some m₁ =>
                    have hs := Mem.handDown_sameShape h₁
                    have hfree : (m₁.overwrite p o).free item = (m₁.free item).overwrite p o := by
                      simp only [Mem.overwrite, Mem.free, List.set_comm _ _ hitem]
                    have hS₁ : ClosedUnder S (m₁.free item).heap :=
                      hS.shrinks ((Shrinks.set_none _ _).trans (Shrinks.of_sameShape hs))
                    obtain ⟨hrun, hget⟩ := ih (queue ++ c.val.kids) _ hS₁ (by
                      intro q hqk
                      rcases List.mem_append.mp hqk with h | h
                      · exact hrest q h
                      · exact hkids q h)
                    simp only [Option.map_some, Option.bind_some, hfree]
                    refine ⟨hrun, fun m' h => ?_⟩
                    rw [hget m' h, Mem.free, Store.get?_set_ne (Ne.symm hitem),
                      Mem.handDown_frame h₁ hp]
              · simp only [if_neg hrc]
                have hset : Mem.overwrite
                    { m with heap := m.heap.set item (some { c with rc := c.rc - 1 }) } p o
                    = { m.overwrite p o with
                        heap := (m.overwrite p o).heap.set item
                          (some { c with rc := c.rc - 1 }) } := by
                  simp only [Mem.overwrite, List.set_comm _ _ hitem]
                obtain ⟨hrun, hget⟩ := ih queue
                  ({ m with heap := m.heap.set item (some { c with rc := c.rc - 1 }) })
                  (hS.shrinks (Shrinks.set_rc hc _)) hrest
                rw [← hset]
                refine ⟨hrun, fun m' h => ?_⟩
                rw [hget m' h, Store.get?_set_ne (Ne.symm hitem)]

/-- Dropping a reference from which `p` cannot be reached. -/
theorem Mem.decRc_overwrite_closed {S : Ptr → Prop} {m : Mem} {old : Ptr} {c : Counted Obj}
    (c' : Counted Obj) (hS : ClosedUnder S m.heap) (hold : S old) (hnot : ¬ S p)
    (hc : Store.get? m.heap p = some c) (hrc : c'.rc = c.rc) :
    (m.overwrite p (some c')).decRc old = (m.decRc old).map (·.overwrite p (some c')) ∧
      ∀ m', m.decRc old = some m' → Store.get? m'.heap p = some c := by
  have hfuel : (m.overwrite p (some c')).heap.totalRc = m.heap.totalRc := by
    have htot := Store.totalRc_set hc (some c')
    simp only [Option.elim_some, hrc] at htot
    simp only [Mem.overwrite]
    omega
  obtain ⟨hrun, hget⟩ := Mem.decRcLoop_overwrite (o := some c') hnot [old] m hS (fun q hq => by
    rwa [List.mem_singleton.mp hq])
  refine ⟨?_, fun m' h => (hget m' h).trans hc⟩
  rw [Mem.decRc, hfuel]
  exact hrun

/-- Dropping a reference to a block below `p`. -/
theorem Mem.decRc_overwrite {rank : Ptr → Nat} {m : Mem} {old : Ptr} {c : Counted Obj}
    (c' : Counted Obj) (hr : Ranked rank m.heap) (hold : rank old < rank p)
    (hc : Store.get? m.heap p = some c)
    (hrc : c'.rc = c.rc) :
    (m.overwrite p (some c')).decRc old = (m.decRc old).map (·.overwrite p (some c')) ∧
      ∀ m', m.decRc old = some m' → Store.get? m'.heap p = some c := by
  refine Mem.decRc_overwrite_closed (S := fun q => rank q < rank p) c' ?_ hold
    (Nat.lt_irrefl _) hc hrc
  intro r d hlt hd q hq
  exact Nat.lt_trans (hr r d q hd hq) hlt

end Overwrite

end Mavros
