/-
# `Mavros.Lowering.RangeCheck` — the range check of a witness

`Rangecheck` as `ExplicitWitness` leaves it.  One bit is squared; more bits are written as
bytes, but for the last, which is what the value is above the others.  Where the highest
chunk is not a whole byte its distance from its largest value must be a byte too.  Below
`2^bits` nothing wraps on the way down: a number is no smaller than its residue.

## What is proved

`genWitnessRangecheckBits_exact`: for every width of at least one bit, every value and every flag,
the check can be passed exactly when the flag is off or the value is below `2 ^ bits`, and then the
hints pass it.

## How it goes

The chunks of a run make up a number that is the value in the field and has at most so many bits
(`IsChunks.lt`), so the value, being its residue, has no more.  The last chunk is not written but
computed, and it is looked up like the others (`chunks_concat`).  The check of a highest chunk that
is not a whole byte bounds it from above by its gap (`top_gap_iff`).  Conversely the digits of a
value below the bound are chunks (`isChunks_digitsOf`).

Widths above that of the field are covered, though no value is out of their range.
-/
import Mathlib.Tactic.LinearCombination
import Mavros.Lib.BigEndian
import Mavros.Lowering.Builder

namespace Mavros.Lowering

open Lib Lib.Circuit

/-! ## The gadget -/

/-- The highest chunk and the sum of the chunks so far. -/
structure ChunkSums where
  topChunk : Option Fr
  sum : Fr

def ChunkSums.push (s : ChunkSums) (i : Nat) (byte : Fr) : ChunkSums where
  topChunk := if i = 0 then some byte else s.topChunk
  sum := s.sum * 256 + byte

section Definitions

variable {σ : Type} (P : Prover Fr σ)

/-- `lookup_rngchk_8` with its flag. -/
def lookupRngchk8Flag (x flag : Fr) : Circuit σ Unit := flagged flag (rangecheck 8 x)

/-- One turn of the loop over the upper chunks of `gen_witness_rangecheck_bits`. -/
def writeChunk (value flag : Fr) (totalChunks : Nat) (s : ChunkSums) (i : Nat) :
    Circuit σ ChunkSums := do
  let byteWit ← writeWitness P (some (value.val / 256 ^ (totalChunks - 1 - i) % 256 : Nat))
  lookupRngchk8Flag byteWit flag
  return s.push i byteWit

/-- The check of a highest chunk that is not a whole byte. -/
def lookupTopChunk (topChunk : Option Fr) (leftoverBits : Nat) (flag : Fr) : Circuit σ Unit :=
  if 0 < leftoverBits then
    match topChunk with
    | some top => lookupRngchk8Flag ((2 ^ leftoverBits - 1 : Nat) - top) flag
    | none => failure
  else pure ()

/-- `total_chunks`. -/
def totalChunks (bits : Nat) : Nat := bits / 8 + if 0 < bits % 8 then 1 else 0

/-- `gen_witness_rangecheck_bits`, of at least one bit. -/
def genWitnessRangecheckBits (value : Fr) (bits : Nat) (flag : Fr) : Circuit σ Unit :=
  if bits = 1 then do
    let t ← writeWitness P (some (value * value))
    constrain value value t
    constrain flag (t - value) 0
  else do
    let s ← (List.range (totalChunks bits - 1)).foldlM (writeChunk P value flag (totalChunks bits))
      ⟨none, 0⟩
    let lsb := value - s.sum * 256
    lookupRngchk8Flag lsb flag
    lookupTopChunk (if totalChunks bits = 1 then some lsb else s.topChunk) (bits % 8) flag

end Definitions

/-! ## The chunks -/

/-- The sums of a list of bytes, the highest first. -/
def ChunkSums.of (ns : List Nat) : ChunkSums where
  topChunk := ns.head?.map (Nat.cast : Nat → Fr)
  sum := (bigEndian 256 ns : Nat)

theorem ChunkSums.of_push (ns : List Nat) (n : Nat) :
    (ChunkSums.of ns).push ns.length (n : Fr) = .of (ns ++ [n]) := by
  unfold ChunkSums.push ChunkSums.of
  congr 1
  · cases ns with
    | nil => rfl
    | cons m ns => rfl
  · rw [bigEndian_concat]
    push_cast
    rfl

/-- The chunks of a number: as many bytes as there are, the highest within its bits. -/
structure IsChunks (bits : Nat) (ns : List Nat) : Prop where
  length : ns.length = totalChunks bits
  bytes : ∀ n ∈ ns, n < 256
  top : 0 < bits % 8 → ∀ n ∈ ns.head?, n < 2 ^ (bits % 8)

theorem bits_le_chunks (bits : Nat) : 2 ^ bits ≤ 256 ^ totalChunks bits := by
  rw [show (256 : Nat) = 2 ^ 8 from rfl, ← pow_mul]
  refine Nat.pow_le_pow_right (by norm_num) ?_
  unfold totalChunks
  split <;> omega

theorem two_pow_bits (q r : Nat) : 2 ^ (8 * q + r) = 2 ^ r * 256 ^ q := by
  rw [pow_add, pow_mul, Nat.mul_comm]
  norm_num

/-- Chunks make up a number of so many bits. -/
theorem IsChunks.lt {bits : Nat} {ns : List Nat} (h : IsChunks bits ns) :
    bigEndian 256 ns < 2 ^ bits := by
  have hbits : bits = 8 * (bits / 8) + bits % 8 := (Nat.div_add_mod bits 8).symm
  have hlen := h.length
  unfold totalChunks at hlen
  conv_rhs => rw [hbits, two_pow_bits]
  split at hlen
  · next hpos =>
    cases ns with
    | nil => simp at hlen
    | cons n ns =>
      have htop : n < 2 ^ (bits % 8) := h.top hpos n rfl
      have hrest := bigEndian_lt (by norm_num) fun d hd => h.bytes d (List.mem_cons_of_mem n hd)
      have hlength : ns.length = bits / 8 := Nat.succ.inj hlen
      rw [hlength] at hrest
      calc bigEndian 256 (n :: ns) = n * 256 ^ (bits / 8) + bigEndian 256 ns := by
            rw [bigEndian_cons, hlength]
        _ < n * 256 ^ (bits / 8) + 256 ^ (bits / 8) := by omega
        _ = (n + 1) * 256 ^ (bits / 8) := by ring
        _ ≤ 2 ^ (bits % 8) * 256 ^ (bits / 8) := Nat.mul_le_mul_right _ htop
  · next hzero =>
    rw [Nat.add_zero] at hlen
    rw [Nat.eq_zero_of_not_pos hzero, pow_zero, one_mul, ← hlen]
    exact bigEndian_lt (by norm_num) h.bytes

/-- The digits of a number of so many bits are chunks. -/
theorem isChunks_digitsOf {bits v : Nat} (hv : v < 2 ^ bits) :
    IsChunks bits (digitsOf 256 (totalChunks bits) v) where
  length := digitsOf_length _ v
  bytes := by
    intro n hn
    exact lt_of_mem_digitsOf (by norm_num) hn
  top := by
    intro hpos n hn
    unfold totalChunks at hn
    rw [if_pos hpos, digitsOf_cons, List.head?_cons, Option.mem_some_iff] at hn
    subst hn
    refine (Nat.mod_le _ _).trans_lt (Nat.div_lt_of_lt_mul ?_)
    rwa [Nat.mul_comm, ← two_pow_bits, Nat.div_add_mod]

/-! ## Soundness and completeness -/

section Spec

variable {σ : Type} {P : Prover Fr σ} {value flag : Fr} {bits : Nat}

theorem lookupRngchk8Flag_ensures {x : Fr} (hflag : flag ≠ 0) :
    Ensures (lookupRngchk8Flag x flag : Circuit σ Unit) fun _ => x.val < 256 := by
  rw [lookupRngchk8Flag, flagged_of_ne_zero hflag]
  exact ensures_rangecheck

theorem lookupRngchk8Flag_completes {x : Fr} (h : flag ≠ 0 → x.val < 256) :
    Gadget.Completes (F := Fr) (fun _ _ => lookupRngchk8Flag x flag) () :=
  completes_flagged fun hflag => completes_rangecheck (h hflag)

/-- The loop writes bytes. -/
theorem writeChunks_ensures (hflag : flag ≠ 0) (total n : Nat) :
    Ensures ((List.range n).foldlM (writeChunk P value flag total) ⟨none, 0⟩) fun s =>
      ∃ ns, s = .of ns ∧ ns.length = n ∧ ∀ m ∈ ns, m < 256 := by
  refine Ensures.foldlM_range (I := fun i s => ∃ ns, s = ChunkSums.of ns ∧ ns.length = i ∧
    ∀ m ∈ ns, m < 256) ?_ ⟨[], by simp [ChunkSums.of], rfl, by simp⟩
  intro i _ s hs
  obtain ⟨ns, rfl, rfl, hbytes⟩ := hs
  unfold writeChunk
  refine .bind .any fun byte _ => .bind (lookupRngchk8Flag_ensures hflag) fun _ hbyte => .pure ?_
  refine ⟨ns ++ [byte.val], ?_, by simp, ?_⟩
  · rw [← ChunkSums.of_push, natCast_val]
  · exact List.forall_mem_append.mpr ⟨hbytes, List.forall_mem_singleton.mpr hbyte⟩

/-- The hints are the digits of the value. -/
theorem writeChunks_completes (total : Nat) :
    Gadget.Completes
      (fun _ P => (List.range (total - 1)).foldlM (writeChunk P value flag total) ⟨none, 0⟩)
      (.of (digitsOf 256 (total - 1) (value.val / 256))) := by
  have hstart : (⟨none, 0⟩ : ChunkSums) = .of (digitsOf 256 0 (value.val / 256 ^ (total - 0))) := by
    simp [ChunkSums.of, digitsOf]
  have hloop := Gadget.Completes.foldlM_range (F := Fr) (n := total - 1)
    (c := fun _ P => writeChunk P value flag total)
    (f := fun i => ChunkSums.of (digitsOf 256 i (value.val / 256 ^ (total - i)))) ?_
  · rw [hstart]
    rcases Nat.eq_zero_or_pos total with rfl | hpos
    · exact hloop
    · simpa [Nat.sub_sub_self hpos] using hloop
  · intro i hi
    have hval : ((value.val / 256 ^ (total - 1 - i) % 256 : Nat) : Fr).val < 256 :=
      val_byte (Nat.mod_lt _ (by norm_num))
    have hpush := ChunkSums.of_push (digitsOf 256 i (value.val / 256 ^ (total - i)))
      (value.val / 256 ^ (total - 1 - i) % 256)
    rw [digitsOf_length, digitsOf_step (hi.trans_le (Nat.sub_le total 1))] at hpush
    unfold writeChunk
    refine (completes_writeWitness _).bind ((lookupRngchk8Flag_completes fun _ => hval).bind ?_)
    rw [hpush]
    exact .pure

/-- The chunks in front and what the value is above them. -/
theorem chunks_concat {ns : List Nat} (hlen : ns.length = totalChunks bits - 1)
    (hpos : 0 < totalChunks bits) {n : Nat}
    (hlsb : value - (ChunkSums.of ns).sum * 256 = (n : Fr)) :
    value = (bigEndian 256 (ns ++ [n]) : Nat) ∧ (ns ++ [n]).length = totalChunks bits ∧
      (if totalChunks bits = 1 then some (n : Fr) else (ChunkSums.of ns).topChunk)
        = (ns ++ [n]).head?.map (Nat.cast : Nat → Fr) := by
  refine ⟨?_, ?_, ?_⟩
  · rw [ChunkSums.of] at hlsb
    rw [bigEndian_concat]
    push_cast
    linear_combination hlsb
  · rw [List.length_append, List.length_singleton, hlen]
    omega
  · cases ns with
    | nil =>
      rw [List.length_nil] at hlen
      rw [if_pos (by omega)]
      rfl
    | cons m ns =>
      rw [List.length_cons] at hlen
      rw [if_neg (by omega)]
      rfl

/-- The check of the highest chunk bounds it. -/
theorem top_gap_iff {r n : Nat} (hr : r < 8) (hn : n < 256) :
    (((2 ^ r - 1 : Nat) : Fr) - (n : Nat)).val < 2 ^ 8 ↔ n < 2 ^ r := by
  have hpos : 0 < 2 ^ r := Nat.two_pow_pos r
  have hle : 2 ^ r ≤ 2 ^ 7 := Nat.pow_le_pow_right (by norm_num) (by omega)
  have hcast : ((2 ^ r - 1 : Nat) : Fr) - (n : Nat) = (((2 ^ r - 1 : Nat) - n : Int) : Fr) := by
    push_cast
    rfl
  have hmod : (2 : Int) ^ 8 + 256 ≤ modulus := by norm_num [modulus]
  rw [hcast, val_intCast_lt (by omega) (by omega)]
  omega

theorem lookupTopChunk_ensures (hflag : flag ≠ 0) {ns : List Nat} (hbytes : ∀ n ∈ ns, n < 256) :
    Ensures (lookupTopChunk (ns.head?.map (Nat.cast : Nat → Fr)) (bits % 8) flag : Circuit σ Unit)
      fun _ => 0 < bits % 8 → ∀ n ∈ ns.head?, n < 2 ^ (bits % 8) := by
  unfold lookupTopChunk
  split
  · cases ns with
    | nil => exact Ensures.mono .any fun _ _ _ n hn => by simp at hn
    | cons n ns =>
      refine (lookupRngchk8Flag_ensures hflag).mono fun _ hgap _ m hm => ?_
      obtain rfl := Option.some.inj hm
      exact (top_gap_iff (Nat.mod_lt bits (by norm_num)) (hbytes n List.mem_cons_self)).mp hgap
  · next hzero => exact Ensures.mono .any fun _ _ hpos => absurd hpos hzero

theorem lookupTopChunk_completes {topChunk : Option Fr} (hne : topChunk ≠ none)
    (htop : flag ≠ 0 → 0 < bits % 8 →
      ∀ top ∈ topChunk, (((2 ^ (bits % 8) - 1 : Nat) : Fr) - top).val < 2 ^ 8) :
    Gadget.Completes (F := Fr) (fun _ _ => lookupTopChunk topChunk (bits % 8) flag) () := by
  unfold lookupTopChunk
  split
  · next hpos =>
    cases topChunk with
    | none => exact absurd rfl hne
    | some top => exact lookupRngchk8Flag_completes fun hflag => htop hflag hpos top rfl
  · exact .pure

theorem totalChunks_pos (hbits : 1 ≤ bits) : 0 < totalChunks bits := by
  unfold totalChunks
  split <;> omega

/-- Under a flag the value is below the bound. -/
theorem genWitnessRangecheckBits_ensures (hbits : 1 ≤ bits) (hflag : flag ≠ 0) :
    Ensures (genWitnessRangecheckBits P value bits flag) fun _ => value.val < 2 ^ bits := by
  unfold genWitnessRangecheckBits
  split
  · next hone =>
    refine .bind .any fun t _ => .bind ensures_constrain fun _ ht => ?_
    refine ensures_constrain.mono fun _ hdiff => ?_
    -- the value is a root of `x² - x`
    have hroot : value * (value - 1) = 0 := by
      have hzero := (mul_eq_zero.mp hdiff).resolve_left hflag
      linear_combination ht + hzero
    rw [hone]
    rcases mul_eq_zero.mp hroot with hv | hv
    · rw [hv, ZMod.val_zero]
      norm_num
    · rw [sub_eq_zero.mp hv]
      decide +kernel
  · refine .bind (writeChunks_ensures hflag _ _) fun s hs =>
      .bind (lookupRngchk8Flag_ensures hflag) fun _ hlsb => ?_
    obtain ⟨ns, rfl, hlen, hbytes⟩ := hs
    obtain ⟨n, hn, hnlt⟩ : ∃ n : Nat, value - (ChunkSums.of ns).sum * 256 = (n : Fr) ∧ n < 256 :=
      ⟨_, (natCast_val _).symm, hlsb⟩
    obtain ⟨hvalue, hlength, htop⟩ := chunks_concat hlen (totalChunks_pos hbits) hn
    have hall : ∀ m ∈ ns ++ [n], m < 256 :=
      List.forall_mem_append.mpr ⟨hbytes, List.forall_mem_singleton.mpr hnlt⟩
    rw [hn, htop]
    refine (lookupTopChunk_ensures hflag hall).mono fun _ htop => ?_
    have hlt := IsChunks.lt ⟨hlength, hall, htop⟩
    -- a number is no smaller than its residue
    rw [hvalue, ZMod.val_natCast]
    exact (Nat.mod_le _ _).trans_lt hlt

/-- The hints pass where nothing is checked or the value is below the bound. -/
theorem genWitnessRangecheckBits_completes (hbits : 1 ≤ bits)
    (h : flag = 0 ∨ value.val < 2 ^ bits) :
    Gadget.Completes (fun _ P => genWitnessRangecheckBits P value bits flag) () := by
  unfold genWitnessRangecheckBits
  split
  · next hone =>
    refine (completes_writeWitness _).bind ((completes_constrain rfl).bind (completes_constrain ?_))
    rcases h with hflag | hv
    · rw [hflag, zero_mul]
    · rw [hone] at hv
      rcases eq_zero_or_one_of_val_lt hv with rfl | rfl <;> ring
  · have hpos := totalChunks_pos hbits
    refine (writeChunks_completes _).bind ?_
    generalize hns : digitsOf 256 (totalChunks bits - 1) (value.val / 256) = ns
    have hlen : ns.length = totalChunks bits - 1 := by rw [← hns, digitsOf_length]
    have hne : (if totalChunks bits = 1 then some (value - (ChunkSums.of ns).sum * 256)
        else (ChunkSums.of ns).topChunk) ≠ none := by
      split
      · simp
      · cases ns with
        | nil =>
          rw [List.length_nil] at hlen
          omega
        | cons n ns => simp [ChunkSums.of]
    rcases h with rfl | hv
    · exact (lookupRngchk8Flag_completes fun hzero => absurd rfl hzero).bind
        (lookupTopChunk_completes hne fun hzero => absurd rfl hzero)
    · have hchunks := isChunks_digitsOf hv
      have hsplit : digitsOf 256 (totalChunks bits) value.val = ns ++ [value.val % 256] := by
        rw [← hns]
        conv_lhs => rw [← Nat.sub_add_cancel (show 1 ≤ totalChunks bits from hpos)]
        rfl
      have hvalue : bigEndian 256 (ns ++ [value.val % 256]) = value.val := by
        rw [← hsplit, bigEndian_digitsOf]
        exact Nat.mod_eq_of_lt (hv.trans_le (bits_le_chunks bits))
      have hlsb : value - (ChunkSums.of ns).sum * 256 = ((value.val % 256 : Nat) : Fr) := by
        rw [bigEndian_concat] at hvalue
        conv_lhs => rw [← natCast_val value, ← hvalue, ChunkSums.of]
        push_cast
        ring
      have hlast : value.val % 256 < 256 := Nat.mod_lt _ (by norm_num)
      have htop := (chunks_concat hlen hpos hlsb).2.2
      rw [hlsb, htop] at hne
      simp only [hlsb, htop]
      refine (lookupRngchk8Flag_completes fun _ => ?_).bind
        (lookupTopChunk_completes hne fun _ hleft top htop => ?_)
      · exact val_byte hlast
      · obtain ⟨n, hn, rfl⟩ := Option.map_eq_some_iff.mp htop
        rw [← hsplit] at hn
        refine (top_gap_iff (Nat.mod_lt bits (by norm_num)) ?_).mpr (hchunks.top hleft n hn)
        exact hchunks.bytes n (List.mem_of_mem_head? hn)

/-- The check is the bound, where its flag is on. -/
theorem genWitnessRangecheckBits_exact (value flag : Fr) {bits : Nat} (hbits : 1 ≤ bits) :
    (Gadget.Satisfiable (fun _ P => genWitnessRangecheckBits P value bits flag) ↔
        flag = 0 ∨ value.val < 2 ^ bits) ∧
      (flag = 0 ∨ value.val < 2 ^ bits →
        Gadget.Completes (fun _ P => genWitnessRangecheckBits P value bits flag) ()) := by
  refine ⟨⟨fun h => ?_, fun h => (genWitnessRangecheckBits_completes hbits h).satisfiable⟩,
    genWitnessRangecheckBits_completes hbits⟩
  by_cases hflag : flag = 0
  · exact .inl hflag
  · exact .inr (h.ensures fun _ _ => genWitnessRangecheckBits_ensures hbits hflag)

theorem genWitnessRangecheckBits_exact_word :
    (Gadget.Satisfiable (fun _ P => genWitnessRangecheckBits P 1000 10 1) ↔
        (1 : Fr) = 0 ∨ (1000 : Fr).val < 2 ^ 10) ∧
      ((1 : Fr) = 0 ∨ (1000 : Fr).val < 2 ^ 10 →
        Gadget.Completes (fun _ P => genWitnessRangecheckBits P 1000 10 1) ()) :=
  genWitnessRangecheckBits_exact 1000 1 (by norm_num)

end Spec

end Mavros.Lowering
