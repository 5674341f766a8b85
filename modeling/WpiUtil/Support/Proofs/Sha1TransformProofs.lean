import Mathlib.Data.List.GetD
import WpiUtil.Foundations.SecureHash
import WpiUtil.Support.Sha1

/-!
# The transformation of a block

The rolling schedule of sixteen words and the eighty rounds are those of the standard.
-/

namespace Wpi.Sha1

open Foundations SecureHash

/-! ## Words -/

theorem toNat_or_shiftLeft {x y : UInt32} {n : Nat} (hn : n < 32) (hx : x.toNat < 2 ^ n)
    (hy : y.toNat < 2 ^ (32 - n)) :
    (x ||| y <<< UInt32.ofNat n).toNat = y.toNat * 2 ^ n + x.toNat := by
  have hmod : (UInt32.ofNat n).toNat % 32 = n := by
    rw [UInt32.toNat_ofNat_of_lt' (by rw [UInt32.size]; omega), Nat.mod_eq_of_lt hn]
  have hlt : y.toNat <<< n < 2 ^ 32 := by
    rw [Nat.shiftLeft_eq, ← Nat.sub_add_cancel hn.le, Nat.pow_add]
    exact Nat.mul_lt_mul_of_pos_right hy (Nat.two_pow_pos n)
  rw [UInt32.toNat_or, UInt32.toNat_shiftLeft, hmod, Nat.mod_eq_of_lt hlt, Nat.or_comm,
    ← Nat.shiftLeft_add_eq_or_of_lt hx, Nat.shiftLeft_eq]

/-- Four bytes as a word. -/
theorem or_bytes (a b c d : Byte) :
    d.toUInt32 ||| c.toUInt32 <<< 8 ||| b.toUInt32 <<< 16 ||| a.toUInt32 <<< 24 =
      UInt32.ofNat (ofBigEndian 0 [a, b, c, d]) := by
  have ha := a.toNat_lt
  have hb := b.toNat_lt
  have hc := c.toNat_lt
  have hd := d.toNat_lt
  have h8 : (d.toUInt32 ||| c.toUInt32 <<< 8).toNat = c.toNat * 2 ^ 8 + d.toNat := by
    refine toNat_or_shiftLeft (n := 8) (by decide) ?_ ?_
    · rw [UInt8.toNat_toUInt32]
      omega
    · rw [UInt8.toNat_toUInt32]
      omega
  have h16 : (d.toUInt32 ||| c.toUInt32 <<< 8 ||| b.toUInt32 <<< 16).toNat =
      b.toNat * 2 ^ 16 + (c.toNat * 2 ^ 8 + d.toNat) := by
    rw [← h8]
    refine toNat_or_shiftLeft (n := 16) (by decide) ?_ ?_
    · rw [h8]
      omega
    · rw [UInt8.toNat_toUInt32]
      omega
  have h24 : (d.toUInt32 ||| c.toUInt32 <<< 8 ||| b.toUInt32 <<< 16 ||| a.toUInt32 <<< 24).toNat =
      a.toNat * 2 ^ 24 + (b.toNat * 2 ^ 16 + (c.toNat * 2 ^ 8 + d.toNat)) := by
    rw [← h16]
    refine toNat_or_shiftLeft (n := 24) (by decide) ?_ ?_
    · rw [h16]
      omega
    · rw [UInt8.toNat_toUInt32]
      omega
  have hvalue : ofBigEndian 0 [a, b, c, d] =
      a.toNat * 2 ^ 24 + (b.toNat * 2 ^ 16 + (c.toNat * 2 ^ 8 + d.toNat)) := by
    simp only [ofBigEndian]
    omega
  rw [← UInt32.toNat_inj, h24, hvalue, UInt32.toNat_ofNat_of_lt' (by rw [UInt32.size]; omega)]

theorem take_drop_four {buffer : List Byte} {i : Nat} (h : i + 3 < buffer.length) :
    (buffer.drop i).take 4 = [buffer.getD i 0, buffer.getD (i + 1) 0, buffer.getD (i + 2) 0,
      buffer.getD (i + 3) 0] := by
  rw [List.getD_eq_getElem _ _ (by omega), List.getD_eq_getElem _ _ (by omega),
    List.getD_eq_getElem _ _ (by omega), List.getD_eq_getElem _ _ h,
    List.drop_eq_getElem_cons (by omega), List.drop_eq_getElem_cons (by omega),
    List.drop_eq_getElem_cons (by omega), List.drop_eq_getElem_cons h]
  rfl

theorem bufferToBlock_eq {buffer : List Byte} (h : buffer.length = blockBytes) :
    bufferToBlock buffer = words buffer := by
  rw [blockBytes] at h
  apply List.ext_getElem?
  intro i
  rw [words, List.getElem?_map, getElem?_chunks (by decide), bufferToBlock, List.getElem?_map]
  rcases Nat.lt_or_ge i 16 with hi | hi
  · rw [List.getElem?_range hi, if_pos (by omega), take_drop_four (by omega), Option.map_some,
      Option.map_some, or_bytes]
  · rw [List.getElem?_eq_none (by rwa [List.length_range]), if_neg (by omega)]
    rfl

theorem words_append {v : List Byte} (hv : 4 ∣ v.length) (w : List Byte) :
    words (v ++ w) = words v ++ words w := by
  rw [words, chunks_append (by decide) hv, List.map_append]
  rfl

theorem words_bigEndian (n : Nat) : words (bigEndian 4 n) = [UInt32.ofNat n] := by
  have hlength : (bigEndian 4 n).length = 4 := length_bigEndian 4 n
  have hne : bigEndian 4 n ≠ [] := by
    rw [← List.length_pos_iff, hlength]
    decide
  have hmod : UInt32.ofNat (n % 256 ^ 4) = UInt32.ofNat n := by
    rw [← UInt32.toNat_inj, UInt32.toNat_ofNat', UInt32.toNat_ofNat']
    omega
  rw [words, chunks_of_length_le hne hlength.le, List.map_singleton, ofBigEndian_bigEndian,
    Nat.zero_mul, Nat.zero_add, hmod]

theorem words_replicate (n : Nat) : words (List.replicate (4 * n) 0) = List.replicate n 0 := by
  induction n with
  | zero => rw [Nat.mul_zero, List.replicate_zero, words, chunks_nil, List.map_nil,
      List.replicate_zero]
  | succ n ih =>
    have hfour : List.replicate 4 (0 : Byte) = bigEndian 4 0 := rfl
    rw [Nat.mul_succ, Nat.add_comm, List.replicate_add, words_append (by simp), ih, hfour,
      words_bigEndian]
    rfl

/-- The words that `finalize` puts at the end. -/
theorem words_bitLength (n : Nat) : words (bigEndian 8 n) =
    [(UInt64.ofNat n >>> 32).toUInt32, (UInt64.ofNat n).toUInt32] := by
  have hhigh : UInt32.ofNat (n / 256 ^ 4) = (UInt64.ofNat n >>> 32).toUInt32 := by
    rw [← UInt32.toNat_inj, UInt32.toNat_ofNat', UInt64.toNat_toUInt32, UInt64.toNat_shiftRight,
      UInt64.toNat_ofNat', show (32 : UInt64).toNat % 64 = 32 from rfl, Nat.shiftRight_eq_div_pow]
    omega
  have hlow : UInt32.ofNat n = (UInt64.ofNat n).toUInt32 := by
    rw [← UInt32.toNat_inj, UInt32.toNat_ofNat', UInt64.toNat_toUInt32, UInt64.toNat_ofNat']
    omega
  rw [show 8 = 4 + 4 from rfl, bigEndian_add, words_append (by rw [length_bigEndian]),
    words_bigEndian, words_bigEndian, hhigh, hlow]
  rfl

/-! ## Rounds -/

theorem rol_one (x : UInt32) : rol x 1 = rotl 1 x := rfl

theorem rol_five (x : UInt32) : rol x 5 = rotl 5 x := rfl

theorem rol_thirty (x : UInt32) : rol x 30 = rotl 30 x := rfl

/-- The choice in `R0` and `R1`. -/
theorem and_xor_xor (x y z : UInt32) : (x &&& (y ^^^ z)) ^^^ z = ch x y z := by
  rw [← UInt32.toBitVec_inj]
  apply BitVec.eq_of_getLsbD_eq
  intro i hi
  simp only [ch, UInt32.toBitVec_xor, UInt32.toBitVec_and, UInt32.toBitVec_not, BitVec.getLsbD_xor,
    BitVec.getLsbD_and, BitVec.getLsbD_not, hi, decide_true, Bool.true_and]
  cases x.toBitVec.getLsbD i <;> simp

/-- The majority in `R3`. -/
theorem or_and_or_and (x y z : UInt32) : ((x ||| y) &&& z) ||| (x &&& y) = maj x y z := by
  rw [← UInt32.toBitVec_inj]
  apply BitVec.eq_of_getLsbD_eq
  intro i hi
  simp only [maj, UInt32.toBitVec_xor, UInt32.toBitVec_and, UInt32.toBitVec_or, BitVec.getLsbD_xor,
    BitVec.getLsbD_and, BitVec.getLsbD_or]
  cases x.toBitVec.getLsbD i <;> cases y.toBitVec.getLsbD i <;> simp

/-- The words of a hash value. -/
def Digest.state (d : Digest) : State := ⟨d.d0, d.d1, d.d2, d.d3, d.d4⟩

/-- The working variables. -/
def Work.state (s : Work) : State := ⟨s.v, s.w, s.x, s.y, s.z⟩

/-- After `t` rounds the block holds the last sixteen words of the schedule, or the first ones. -/
structure Rolls (m : Nat → UInt32) (t : Nat) (block : List UInt32) : Prop where
  length_eq : block.length = 16
  word_eq : ∀ i, max t 16 ≤ i + 16 → i < max t 16 → word block (i % 16) = schedule m i

theorem word_set {block : List UInt32} {i j : Nat} (hi : i < block.length) (x : UInt32) :
    word (block.set i x) j = if j = i then x else word block j := by
  rw [word, word, List.getD_eq_getElem?_getD, List.getD_eq_getElem?_getD, List.getElem?_set]
  by_cases h : i = j
  · rw [if_pos h, if_pos hi, if_pos h.symm]
    rfl
  · rw [if_neg h, if_neg (Ne.symm h)]

/-- `blk` is the next word of the schedule. -/
theorem Rolls.blk_eq {m : Nat → UInt32} {t : Nat} {block : List UInt32} (h : Rolls m t block)
    (ht : 16 ≤ t) : blk block (t % 16) = schedule m t := by
  have hword (d : Nat) (hpos : 0 < d) (hle : d ≤ 16) :
      word block ((t % 16 + (16 - d)) % 16) = schedule m (t - d) := by
    rw [← h.word_eq (t - d) (by omega) (by omega)]
    congr 1
    omega
  have hlast : word block (t % 16) = schedule m (t - 16) := by
    rw [← hword 16 (by decide) (by decide), Nat.sub_self, Nat.add_zero, Nat.mod_mod]
  rw [schedule, if_neg (by omega), blk, rol_one, hword 3 (by decide) (by decide),
    hword 8 (by decide) (by decide), hword 14 (by decide) (by decide), hlast]

theorem Rolls.schedule {m : Nat → UInt32} {t : Nat} {block : List UInt32} (h : Rolls m t block)
    (ht : 16 ≤ t) : Rolls m (t + 1) (block.set (t % 16) (blk block (t % 16))) := by
  have hlt : t % 16 < block.length := by
    rw [h.length_eq]
    exact Nat.mod_lt t (by decide)
  refine ⟨by rw [List.length_set, h.length_eq], fun i hle hi => ?_⟩
  rw [word_set hlt, h.blk_eq ht]
  by_cases heq : i = t
  · rw [heq, if_pos rfl]
  · rw [if_neg (by omega)]
    exact h.word_eq i (by omega) (by omega)

/-- The sum of a round, with its parts in another order. -/
theorem add_round {z mix const m w v : UInt32} {t : Nat} {g : UInt32} (hmix : mix = g)
    (hconst : const = k t) (hw : m = w) :
    z + (mix + m + const + rol v 5) = rotl 5 v + g + z + k t + w := by
  rw [hmix, hconst, hw, rol_five]
  generalize rotl 5 v = r
  generalize k t = c
  ac_rfl

theorem state_round {s : Work} {mix const w : UInt32} {i t : Nat} (hmix : mix = f t s.w s.x s.y)
    (hconst : const = k t) (hw : word s.block i = w) :
    (s.round mix const i).state = SecureHash.round s.state t w := by
  have hround : (s.round mix const i).state =
      ⟨s.z + (mix + word s.block i + const + rol s.v 5), s.v, rol s.w 30, s.x, s.y⟩ := rfl
  rw [hround, add_round hmix hconst hw, rol_thirty]
  rfl

@[simp] theorem block_round (s : Work) (mix const : UInt32) (i : Nat) :
    (s.round mix const i).block = s.block := rfl

/-- A round of the first group, which takes the words of the block as they are. -/
theorem step_state_of_lt {m : Nat → UInt32} {t : Nat} {s : Work} (h : Rolls m t s.block)
    (ht : t < 16) : (step s t).state = SecureHash.round s.state t (schedule m t) ∧
      Rolls m (t + 1) (step s t).block := by
  have hf : f t = ch := by rw [f, if_pos (by omega)]
  have hk : k t = 0x5a827999 := by rw [k, if_pos (by omega)]
  have hw : word s.block (t % 16) = schedule m t := h.word_eq t (by omega) (by omega)
  rw [step, if_pos ht, r0, block_round]
  constructor
  · exact state_round (by rw [hf, and_xor_xor]) hk.symm hw
  · exact ⟨h.length_eq, fun i hle hi => h.word_eq i (by omega) (by omega)⟩

/-- Any other round, which replaces the oldest word. -/
theorem step_state_of_ge {m : Nat → UInt32} {t : Nat} {s : Work} (h : Rolls m t s.block)
    (ht : 16 ≤ t) : (step s t).state = SecureHash.round s.state t (schedule m t) ∧
      Rolls m (t + 1) (step s t).block := by
  have hblock : Rolls m (t + 1) (s.schedule (t % 16)).block := h.schedule ht
  have hw : word (s.schedule (t % 16)).block (t % 16) = SecureHash.schedule m t :=
    hblock.word_eq t (by omega) (by omega)
  have hround {mix const : UInt32} (hmix : mix = f t s.w s.x s.y) (hconst : const = k t) :
      ((s.schedule (t % 16)).round mix const (t % 16)).state =
          SecureHash.round s.state t (SecureHash.schedule m t) ∧
        Rolls m (t + 1) ((s.schedule (t % 16)).round mix const (t % 16)).block := by
    rw [block_round]
    exact ⟨state_round hmix hconst hw, hblock⟩
  rw [step, if_neg (by omega)]
  by_cases h20 : t < 20
  · rw [if_pos h20, r1]
    apply hround
    · rw [f, if_pos h20, and_xor_xor]
    · rw [k, if_pos h20]
  · rw [if_neg h20]
    by_cases h40 : t < 40
    · rw [if_pos h40, r2]
      apply hround
      · rw [f, if_neg h20, if_pos h40, parity]
      · rw [k, if_neg h20, if_pos h40]
    · rw [if_neg h40]
      by_cases h60 : t < 60
      · rw [if_pos h60, r3]
        apply hround
        · rw [f, if_neg h20, if_neg h40, if_pos h60, or_and_or_and]
        · rw [k, if_neg h20, if_neg h40, if_pos h60]
      · rw [if_neg h60, r4]
        apply hround
        · rw [f, if_neg h20, if_neg h40, if_neg h60, parity]
        · rw [k, if_neg h20, if_neg h40, if_neg h60]

theorem step_state {m : Nat → UInt32} {t : Nat} {s : Work} (h : Rolls m t s.block) :
    (step s t).state = SecureHash.round s.state t (schedule m t) ∧
      Rolls m (t + 1) (step s t).block := by
  rcases Nat.lt_or_ge t 16 with ht | ht
  · exact step_state_of_lt h ht
  · exact step_state_of_ge h ht

/-- The first `n` rounds. -/
theorem steps_state {m : Nat → UInt32} {s : Work} (h : Rolls m 0 s.block) (n : Nat) :
    ((List.range n).foldl step s).state =
        (List.range n).foldl (fun s t => SecureHash.round s t (schedule m t)) s.state ∧
      Rolls m n ((List.range n).foldl step s).block := by
  induction n with
  | zero => exact ⟨rfl, h⟩
  | succ n ih =>
    obtain ⟨hstate, hblock⟩ := ih
    obtain ⟨hstate', hblock'⟩ := step_state hblock
    rw [List.range_succ, List.foldl_concat, List.foldl_concat, ← hstate]
    exact ⟨hstate', hblock'⟩

theorem transform_state (d : Digest) {block : List UInt32} (h : block.length = 16) :
    (transform d block).state = compress d.state (block.getD · 0) := by
  have hrolls : Rolls (block.getD · 0) 0 block := by
    refine ⟨h, fun i hle hi => ?_⟩
    have hlt : i < 16 := hi
    rw [SecureHash.schedule, if_pos hlt, Nat.mod_eq_of_lt hlt]
    rfl
  have hrounds := (steps_state (s := ⟨d.d0, d.d1, d.d2, d.d3, d.d4, block⟩) hrolls 80).1
  have hinit : (⟨d.d0, d.d1, d.d2, d.d3, d.d4, block⟩ : Work).state = d.state := rfl
  rw [hinit] at hrounds
  rw [transform, compress, ← hrounds]
  generalize (List.range 80).foldl step ⟨d.d0, d.d1, d.d2, d.d3, d.d4, block⟩ = s
  dsimp only [Digest.state, Work.state]
  rw [UInt32.add_comm d.d0, UInt32.add_comm d.d1, UInt32.add_comm d.d2, UInt32.add_comm d.d3,
    UInt32.add_comm d.d4]

end Wpi.Sha1
