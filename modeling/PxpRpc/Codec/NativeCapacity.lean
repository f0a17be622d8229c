import PxpRpc.Codec.Growth
import PxpRpc.Codec.Native

/-!
# The capacity of the C serializer

`_pxprpc_ensure_buf` computes one half more than it needs as an `int`, and `realloc`
takes that as a `size_t`.
-/
namespace PxpRpc.Codec.Native

open PxpRpc.Lib

/-- `newsize+=newsize>>1` -/
def oneHalfMore (newsize : BitVec 32) : BitVec 32 := newsize + newsize.sshiftRight 1

theorem toNat_oneHalfMore {n : BitVec 32} (h : n.toNat + n.toNat / 2 < 2 ^ 31) :
    (oneHalfMore n).toNat = n.toNat + n.toNat / 2 := by
  have hmsb : n.msb = false := by
    rw [BitVec.msb_eq_false_iff_two_mul_lt]
    omega
  rw [oneHalfMore, BitVec.sshiftRight_eq_of_msb_false hmsb, BitVec.toNat_add, BitVec.toNat_ushiftRight,
    Nat.shiftRight_eq_div_pow, Nat.mod_eq_of_lt (by omega)]

/-- Where that is no positive `int` it is negative, or less than what is needed. -/
theorem oneHalfMore_overflows {n : BitVec 32} (h : ¬ n.toNat + n.toNat / 2 < 2 ^ 31) :
    (oneHalfMore n).msb = true ∨ (oneHalfMore n).toNat < n.toNat := by
  have hn := n.isLt
  cases hneg : n.msb with
  | false =>
    left
    have hlt := BitVec.msb_eq_false_iff_two_mul_lt.mp hneg
    rw [BitVec.msb_eq_true_iff_two_mul_ge, oneHalfMore, BitVec.sshiftRight_eq_of_msb_false hneg, BitVec.toNat_add,
      BitVec.toNat_ushiftRight, Nat.shiftRight_eq_div_pow, Nat.mod_eq_of_lt (by omega)]
    omega
  | true =>
    right
    have hge := BitVec.msb_eq_true_iff_two_mul_ge.mp hneg
    rw [oneHalfMore, BitVec.sshiftRight_eq_of_msb_true hneg, BitVec.toNat_add, BitVec.toNat_not,
      BitVec.toNat_ushiftRight, BitVec.toNat_not, Nat.shiftRight_eq_div_pow]
    omega

theorem toNat_sizeT {n : BitVec 32} (hn : n.msb = false) : (sizeT n).toNat = n.toNat := by
  have hlt := n.isLt
  rw [sizeT, BitVec.toNat_signExtend, hn]
  simp
  omega

/-- A negative size is half of the address space or more. -/
theorem toNat_sizeT_neg {n : BitVec 32} (hn : n.msb = true) : 2 ^ 63 ≤ (sizeT n).toNat := by
  have hge := BitVec.msb_eq_true_iff_two_mul_ge.mp hn
  rw [sizeT, BitVec.toNat_signExtend, hn]
  simp only [BitVec.toNat_setWidth, if_true]
  omega

theorem realloc_sizeT {buf : Block} {n : BitVec 32} (hn : n.msb = false) :
    realloc buf (sizeT n) = buf.realloc n.toNat := by
  have hlt := n.isLt
  rw [realloc, toNat_sizeT hn, if_pos (by omega)]

theorem realloc_sizeT_neg {buf : Block} {n : BitVec 32} (hn : n.msb = true) : realloc buf (sizeT n) = [] := by
  have hge := toNat_sizeT_neg hn
  rw [realloc, if_neg (by omega)]

theorem length_realloc_lt (buf : Block) (n : BitVec 32) : (realloc buf (sizeT n)).length < 2 ^ 31 := by
  cases hmsb : n.msb with
  | true =>
    rw [realloc_sizeT_neg hmsb]
    decide
  | false =>
    have hlt := BitVec.msb_eq_false_iff_two_mul_lt.mp hmsb
    rw [realloc_sizeT hmsb, Block.length_realloc]
    omega

/-- What `_pxprpc_ensure_buf` asks `realloc` for. -/
def requested (ser : Serializer) (remain : BitVec 32) : Option (BitVec 64) :=
  if ser.cap - ser.pos < remain then some (sizeT (oneHalfMore (ser.pos + remain))) else none

/-- The capacity is enough, and is what `realloc` has been asked for. -/
structure Grown (ser : Serializer) (remain : BitVec 32) : Prop where
  enough : ser.pos.toNat + remain.toNat ≤ (ensureBuf ser remain).cap.toNat
  requested : ∀ size ∈ requested ser remain, size.toNat = (ensureBuf ser remain).cap.toNat

variable {ser : Serializer} {remain : BitVec 32}

theorem ensureBuf_pos : (ensureBuf ser remain).pos = ser.pos := by
  unfold ensureBuf
  split <;> rfl

theorem room_iff (h : ser.pos.toNat ≤ ser.cap.toNat) :
    ser.cap - ser.pos < remain ↔ ser.cap.toNat < ser.pos.toNat + remain.toNat := by
  rw [BitVec.lt_def, BitVec.toNat_sub_of_le (BitVec.le_def.mpr h)]
  omega

theorem ensureBuf_fits (h : ser.pos.toNat ≤ ser.cap.toNat) (hfit : ser.pos.toNat + remain.toNat ≤ ser.cap.toNat) :
    requested ser remain = none ∧ ensureBuf ser remain = ser := by
  have hroom : ¬ ser.cap - ser.pos < remain := fun hlt => by
    have := (room_iff h).mp hlt
    omega
  exact ⟨if_neg hroom, if_neg hroom⟩

theorem ensureBuf_grows (h : ser.pos.toNat ≤ ser.cap.toNat) (hfull : ser.cap.toNat < ser.pos.toNat + remain.toNat) :
    requested ser remain = some (sizeT (oneHalfMore (ser.pos + remain))) ∧
    ensureBuf ser remain = { ser with
      buf := realloc ser.buf (sizeT (oneHalfMore (ser.pos + remain)))
      cap := oneHalfMore (ser.pos + remain) } :=
  ⟨if_pos ((room_iff h).mpr hfull), if_pos ((room_iff h).mpr hfull)⟩

/-- The capacity grows, and the buffer with it. -/
theorem ensureBuf_some {capacity : Nat} (h : ser.pos.toNat ≤ ser.cap.toNat)
    (hg : grow ser.cap.toNat ser.pos.toNat remain.toNat = some capacity) :
    (ensureBuf ser remain).cap.toNat = capacity ∧ ser.pos.toNat + remain.toNat ≤ capacity ∧
    (∀ size ∈ requested ser remain, size.toNat = capacity) ∧
    ((ensureBuf ser remain).buf = ser.buf ∧ capacity = ser.cap.toNat ∨
      (ensureBuf ser remain).buf = ser.buf.realloc capacity ∧ ser.cap.toNat < capacity ∧ capacity < 2 ^ 31) := by
  unfold grow at hg
  split at hg
  · rename_i hfit
    obtain rfl := Option.some.inj hg
    obtain ⟨hreq, heq⟩ := ensureBuf_fits h hfit
    rw [hreq, heq]
    exact ⟨rfl, hfit, by simp, .inl ⟨rfl, rfl⟩⟩
  · rename_i hfull
    split at hg
    · rename_i hsmall
      obtain rfl := Option.some.inj hg
      obtain ⟨hreq, heq⟩ := ensureBuf_grows h (Nat.lt_of_not_le hfull)
      have hsum : (ser.pos + remain).toNat = ser.pos.toNat + remain.toNat := by
        rw [BitVec.toNat_add, Nat.mod_eq_of_lt (by omega)]
      have hnew := toNat_oneHalfMore (n := ser.pos + remain) (by rw [hsum]; exact hsmall)
      rw [hsum] at hnew
      have hmsb : (oneHalfMore (ser.pos + remain)).msb = false := by
        rw [BitVec.msb_eq_false_iff_two_mul_lt]
        omega
      rw [hreq, heq]
      refine ⟨hnew, by omega, ?_, .inr ⟨?_, by omega, hsmall⟩⟩
      · rintro size ⟨rfl⟩
        rw [toNat_sizeT hmsb, hnew]
      · dsimp only
        rw [realloc_sizeT hmsb, hnew]
    · cases hg

/-- Otherwise there is no room in the buffer. -/
theorem ensureBuf_none (h : ser.pos.toNat ≤ ser.cap.toNat)
    (hg : grow ser.cap.toNat ser.pos.toNat remain.toNat = none) :
    (ensureBuf ser remain).buf.length < ser.pos.toNat + remain.toNat := by
  unfold grow at hg
  split at hg
  · cases hg
  rename_i hfull
  split at hg
  · cases hg
  rename_i hlarge
  rw [(ensureBuf_grows h (Nat.lt_of_not_le hfull)).2]
  dsimp only
  have hlen := length_realloc_lt ser.buf (oneHalfMore (ser.pos + remain))
  by_cases hlt : ser.pos.toNat + remain.toNat < 2 ^ 32
  swap
  · omega
  have hsum : (ser.pos + remain).toNat = ser.pos.toNat + remain.toNat := by
    rw [BitVec.toNat_add, Nat.mod_eq_of_lt hlt]
  rw [← hsum] at hlarge hfull ⊢
  cases hmsb : (oneHalfMore (ser.pos + remain)).msb with
  | true =>
    rw [realloc_sizeT_neg hmsb]
    exact lt_of_le_of_lt (Nat.zero_le _) (Nat.lt_of_not_le hfull)
  | false =>
    rw [realloc_sizeT hmsb, Block.length_realloc]
    exact (oneHalfMore_overflows hlarge).resolve_left (by rw [hmsb]; decide)

/-- The capacity is too small then, or `realloc` has been asked for more. -/
theorem not_grown (h : ser.pos.toNat ≤ ser.cap.toNat)
    (hg : grow ser.cap.toNat ser.pos.toNat remain.toNat = none) : ¬ Grown ser remain := by
  intro hgrown
  have henough := hgrown.enough
  have hfull : ser.cap.toNat < ser.pos.toNat + remain.toNat := by
    unfold grow at hg
    split at hg
    · cases hg
    · omega
  have hnone := ensureBuf_none h hg
  obtain ⟨hreq, heq⟩ := ensureBuf_grows h hfull
  have hsize := hgrown.requested _ hreq
  rw [heq] at henough hsize hnone
  dsimp only at henough hsize hnone
  cases hmsb : (oneHalfMore (ser.pos + remain)).msb with
  | true =>
    have hneg := toNat_sizeT_neg hmsb
    omega
  | false =>
    rw [realloc_sizeT hmsb, Block.length_realloc] at hnone
    omega

/-- The capacity grows as it should where the bytes fit already, or one half more than what is
needed is an `int`. -/
theorem grown_iff (h : ser.pos.toNat ≤ ser.cap.toNat) :
    Grown ser remain ↔ (grow ser.cap.toNat ser.pos.toNat remain.toNat).isSome := by
  cases hg : grow ser.cap.toNat ser.pos.toNat remain.toNat with
  | none => exact iff_of_false (not_grown h hg) (by decide)
  | some capacity =>
    obtain ⟨hcap, henough, hreq, -⟩ := ensureBuf_some h hg
    exact iff_of_true ⟨by rw [hcap]; exact henough, fun size hs => by rw [hcap]; exact hreq size hs⟩ rfl

end PxpRpc.Codec.Native
