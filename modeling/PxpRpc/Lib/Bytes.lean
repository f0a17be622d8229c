import Mathlib

/-!
# Little-endian bytes and blocks of memory

A block is a list of cells, `none` where nothing has been written yet. Reading a
cell that is outside the block or not written has no value.
-/
namespace PxpRpc.Lib

/-- The `n` low bytes of `v`, the lowest first. -/
def leBytes : Nat → Nat → List UInt8
  | 0, _ => []
  | n + 1, v => UInt8.ofNat v :: leBytes n (v / 256)

def leValue : List UInt8 → Nat
  | [] => 0
  | b :: bs => b.toNat + 256 * leValue bs

@[simp] theorem length_leBytes (n v : Nat) : (leBytes n v).length = n := by
  induction n generalizing v with
  | zero => rfl
  | succ n ih => simp [leBytes, ih]

theorem leValue_leBytes (n v : Nat) : leValue (leBytes n v) = v % 256 ^ n := by
  induction n generalizing v with
  | zero => simp [leBytes, leValue, Nat.mod_one]
  | succ n ih =>
    have hb : (UInt8.ofNat v).toNat = v % 256 := by simp
    rw [leBytes, leValue, ih, hb, Nat.pow_succ', Nat.mod_mul]

theorem leValue_leBytes_of_lt {n v : Nat} (h : v < 256 ^ n) : leValue (leBytes n v) = v := by
  rw [leValue_leBytes, Nat.mod_eq_of_lt h]

theorem leValue_lt (bs : List UInt8) : leValue bs < 256 ^ bs.length := by
  induction bs with
  | nil => simp [leValue]
  | cons b bs ih =>
    have hb := b.toNat_lt
    simp only [leValue, List.length_cons, Nat.pow_succ]
    omega

theorem leBytes_leValue (bs : List UInt8) : leBytes bs.length (leValue bs) = bs := by
  induction bs with
  | nil => rfl
  | cons b bs ih =>
    have hb : UInt8.ofNat (b.toNat + 256 * leValue bs) = b := by
      apply UInt8.toNat_inj.mp
      have := b.toNat_lt
      rw [UInt8.toNat_ofNat']
      omega
    have hd : (b.toNat + 256 * leValue bs) / 256 = leValue bs := by
      have := b.toNat_lt
      omega
    rw [List.length_cons, leValue, leBytes, hb, hd, ih]

/-- Only the low bytes count. -/
theorem leBytes_mod (n v : Nat) : leBytes n (v % 256 ^ n) = leBytes n v := by
  have h := leBytes_leValue (leBytes n v)
  rwa [length_leBytes, leValue_leBytes] at h

/-- The first `n` words of `w` bytes each. -/
def leWords (w : Nat) : Nat → List UInt8 → List Nat
  | 0, _ => []
  | n + 1, bs => leValue (bs.take w) :: leWords w n (bs.drop w)

theorem length_flatMap_leBytes (w : Nat) (vs : List Nat) :
    (vs.flatMap (leBytes w)).length = w * vs.length := by
  induction vs with
  | nil => rfl
  | cons v vs ih => rw [List.flatMap_cons, List.length_append, ih, length_leBytes, List.length_cons]; ring

theorem leWords_flatMap {w : Nat} {vs : List Nat} (h : ∀ v ∈ vs, v < 256 ^ w) :
    leWords w vs.length (vs.flatMap (leBytes w)) = vs := by
  induction vs with
  | nil => rfl
  | cons v vs ih =>
    rw [List.length_cons, leWords, List.flatMap_cons, List.take_left' (length_leBytes w v),
      List.drop_left' (length_leBytes w v), ih fun u hu => h u (List.mem_cons_of_mem v hu),
      leValue_leBytes_of_lt (h v List.mem_cons_self)]

/-- The lengths of the pieces of a message, added up in 32 bits. -/
theorem toNat_sum_ofNat (ls : List (List UInt8)) :
    ((ls.map fun l => BitVec.ofNat 32 l.length).sum).toNat = ls.flatten.length % 2 ^ 32 := by
  induction ls with
  | nil => rfl
  | cons l ls ih =>
    rw [List.map_cons, List.sum_cons, BitVec.toNat_add, ih, BitVec.toNat_ofNat, List.flatten_cons,
      List.length_append, Nat.add_mod_mod, Nat.mod_add_mod]

abbrev Block := List (Option UInt8)

namespace Block

def malloc (n : Nat) : Block := List.replicate n none

/-- The old cells as far as they fit, then unwritten ones. -/
def realloc (b : Block) (n : Nat) : Block := b.take n ++ List.replicate (n - b.length) none

def write (b : Block) (off : Nat) (bs : List UInt8) : Option Block :=
  if off + bs.length ≤ b.length then
    some (b.take off ++ bs.map some ++ b.drop (off + bs.length))
  else none

def read (b : Block) (off n : Nat) : Option (List UInt8) :=
  if off + n ≤ b.length then ((b.drop off).take n).mapM id else none

/-- The block holds `bs` from its start, and nothing is written after them. -/
def Holds (b : Block) (bs : List UInt8) : Prop :=
  bs.length ≤ b.length ∧ b = bs.map some ++ List.replicate (b.length - bs.length) none

@[simp] theorem length_malloc (n : Nat) : (malloc n).length = n := List.length_replicate

@[simp] theorem length_realloc (b : Block) (n : Nat) : (realloc b n).length = n := by
  simp [realloc]
  omega

theorem length_write {b b' : Block} {off : Nat} {bs : List UInt8} (h : b.write off bs = some b') :
    b'.length = b.length := by
  unfold write at h
  split at h
  · obtain rfl := Option.some.inj h
    simp
    omega
  · cases h

theorem mapM_id_map_some (bs : List UInt8) : (bs.map some).mapM id = some bs := by
  induction bs with
  | nil => rfl
  | cons b bs ih => simp [List.mapM_cons, ih]

theorem mapM_id_eq_some {b : Block} {bs : List UInt8} (h : b.mapM id = some bs) :
    b = bs.map some := by
  induction b generalizing bs with
  | nil => simp at h; simp [h]
  | cons c b ih =>
    cases c with
    | none => simp [List.mapM_cons] at h
    | some c =>
      simp only [List.mapM_cons, id, Option.pure_def, Option.bind_eq_bind, Option.bind_some,
        Option.bind_eq_some_iff, Option.some.injEq] at h
      obtain ⟨bs', hb, rfl⟩ := h
      simp [← ih hb]

namespace Holds

variable {b b' : Block} {bs cs : List UInt8} {n off : Nat}

theorem malloc (n : Nat) : Holds (Block.malloc n) [] := by simp [Holds, Block.malloc]

theorem realloc (h : Holds b bs) (hn : b.length ≤ n) : Holds (b.realloc n) bs := by
  obtain ⟨hl, he⟩ := h
  refine ⟨by simpa using hl.trans hn, ?_⟩
  rw [length_realloc, Block.realloc, List.take_of_length_le hn]
  conv_lhs => rw [he]
  rw [List.append_assoc, List.replicate_append_replicate]
  congr 2
  simp
  omega

/-- Writing right after the bytes held extends them. -/
theorem write (h : Holds b bs) (hn : bs.length + cs.length ≤ b.length) :
    ∃ b', b.write bs.length cs = some b' ∧ b'.length = b.length ∧ Holds b' (bs ++ cs) := by
  obtain ⟨hl, he⟩ := h
  have hw : b.write bs.length cs = some (bs.map some ++ cs.map some ++
      List.replicate (b.length - (bs.length + cs.length)) none) := by
    rw [Block.write, if_pos hn]
    congr 1
    have ht : b.take bs.length = bs.map some := by
      rw [he]; simp
    have hd : b.drop (bs.length + cs.length) =
        List.replicate (b.length - (bs.length + cs.length)) none := by
      conv_lhs => rw [he]
      rw [List.drop_append, List.drop_eq_nil_of_le (by simp), List.nil_append, List.drop_replicate]
      congr 1
      simp
      omega
    rw [ht, hd]
  have hlen := length_write hw
  refine ⟨_, hw, hlen, by simp, ?_⟩
  rw [hlen, List.map_append, List.length_append]

/-- A block that is full holds nothing else. -/
theorem whole (h : Holds b bs) (hl : b.length = bs.length) : b = bs.map some := by
  rw [h.2, hl, Nat.sub_self, List.replicate_zero, List.append_nil]

/-- What is read inside the bytes held is what they hold there. -/
theorem read (h : Holds b bs) (hn : off + n ≤ bs.length) :
    b.read off n = some ((bs.drop off).take n) := by
  obtain ⟨hl, he⟩ := h
  rw [Block.read, if_pos (hn.trans hl)]
  have : (b.drop off).take n = ((bs.drop off).take n).map some := by
    rw [he, List.drop_append_of_le_length (by simp; omega),
      List.take_append_of_le_length (by simp; omega), List.map_take, List.map_drop]
  rw [this, mapM_id_map_some]

/-- A read that has a value ends inside the bytes held, unless it reads nothing. -/
theorem read_le (h : Holds b bs) (hr : b.read off n = some cs) (hn : 0 < n) :
    off + n ≤ bs.length := by
  by_contra hlt
  rw [Block.read] at hr
  split at hr
  · rename_i hb
    have hm := congrArg (fun l : Block => l[n - 1]?) (mapM_id_eq_some hr)
    have hlen : cs.length = n := by
      have := congrArg List.length (mapM_id_eq_some hr)
      simp at this
      omega
    simp only [List.getElem?_take_of_lt (show n - 1 < n by omega), List.getElem?_drop,
      List.getElem?_map] at hm
    rw [h.2, List.getElem?_append_right (by simp; omega), List.getElem?_replicate,
      if_pos (by simp; omega), List.getElem?_eq_getElem (by omega)] at hm
    simp at hm
  · cases hr

end Holds

end Block

end PxpRpc.Lib
