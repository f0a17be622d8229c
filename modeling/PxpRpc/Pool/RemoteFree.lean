import PxpRpc.Pool.NativeHistory
import PxpRpc.Pool.Managed

/-!
# freeRef requests

The handlers read the indices of a freeRef request from its parameter and
release them in that order. What the pools are for is that no index has two
live owners; the handlers keep it up exactly as long as the peer releases live
references only.
-/
namespace PxpRpc.Pool

open PxpRpc.Lib

/-! ### The parameter of a freeRef request -/

/-- The parameter as the clients' `freeRef` builds it. -/
def encodeIndices (index : List Nat) : List UInt8 := index.flatMap (leBytes 4)

/-- A little-endian unsigned word of the parameter. -/
def getUint32 (parameter : List UInt8) (off : Nat) : Option Nat :=
  if off + 4 ≤ parameter.length then some (leValue ((parameter.drop off).take 4)) else none

/-- The same word read as a signed one. -/
def getInt32 (parameter : List UInt8) (off : Nat) : Option Int :=
  (getUint32 parameter off).map fun v => (BitVec.ofNat 32 v).toInt

namespace Native

/-- `_pxprpc__stepFreeRef1`: `for(int i=0;i<r->parameter.length;i+=4)` -/
def freeRefIndices (parameter : List UInt8) : Option (List Nat) :=
  (List.range ((parameter.length + 3) / 4)).mapM fun t => getUint32 parameter (4 * t)

end Native

namespace TypeScript

/-- `Server.freeRefHandler`: `for(let i=0;i<byteLength;i+=4)` -/
def freeRefIndices (parameter : List UInt8) : Option (List Int) :=
  (List.range ((parameter.length + 3) / 4)).mapM fun t => getInt32 parameter (4 * t)

end TypeScript

namespace Java

/-- `ServerContext.freeRefHandler`: `remaining()>>>2` words. -/
def freeRefIndices (parameter : List UInt8) : Option (List Int) :=
  (List.range (parameter.length / 4)).mapM fun t => getInt32 parameter (4 * t)

end Java

namespace Python

/-- `ServerContext.freeRefHandler`: `range(0,len(req.parameter)>>2,4)`, every
step a slice of four bytes. -/
def freeRefIndices (parameter : List UInt8) : Option (List Int) :=
  (List.range ((parameter.length / 4 + 3) / 4)).mapM fun t => getInt32 parameter (4 * t)

end Python

theorem length_encodeIndices (index : List Nat) : (encodeIndices index).length = 4 * index.length := by
  induction index with
  | nil => rfl
  | cons i index ih => simp [encodeIndices, List.flatMap_cons] at ih ⊢; omega

theorem drop_encodeIndices (index : List Nat) (t : Nat) :
    (encodeIndices index).drop (4 * t) = encodeIndices (index.drop t) := by
  induction t generalizing index with
  | zero => rfl
  | succ t ih =>
    cases index with
    | nil => simp [encodeIndices]
    | cons i index =>
      rw [List.drop_succ_cons, ← ih, encodeIndices, List.flatMap_cons,
        show 4 * (t + 1) = (leBytes 4 i).length + 4 * t from by simp; omega, List.drop_append]
      simp [encodeIndices]

/-- The words of an encoded list are its indices. -/
theorem getUint32_encodeIndices {index : List Nat} {t : Nat} (ht : t < index.length)
    (hlt : ∀ i ∈ index, i < 2 ^ 31) : getUint32 (encodeIndices index) (4 * t) = some index[t] := by
  have hd : index.drop t = index[t] :: index.drop (t + 1) := List.drop_eq_getElem_cons ht
  have hv : index[t] < 2 ^ 31 := hlt _ (List.getElem_mem ht)
  rw [getUint32, if_pos (by rw [length_encodeIndices]; omega), drop_encodeIndices, hd, encodeIndices,
    List.flatMap_cons, List.take_left' (length_leBytes 4 _), leValue_leBytes_of_lt (by omega)]

theorem getInt32_encodeIndices {index : List Nat} {t : Nat} (ht : t < index.length)
    (hlt : ∀ i ∈ index, i < 2 ^ 31) :
    getInt32 (encodeIndices index) (4 * t) = some (index[t] : Int) := by
  have hv : index[t] < 2 ^ 31 := hlt _ (List.getElem_mem ht)
  rw [getInt32, getUint32_encodeIndices ht hlt, Option.map_some, BitVec.toInt_eq_toNat_bmod,
    BitVec.toNat_ofNat, Nat.mod_eq_of_lt (by omega), Int.bmod_eq_of_le (by omega) (by omega)]

private theorem mapM_range {α : Type} {f : Nat → Option α} {xs : List α} {n : Nat}
    (hn : n ≤ xs.length) (hf : ∀ t (ht : t < xs.length), f t = some xs[t]) :
    (List.range n).mapM f = some (xs.take n) := by
  induction n with
  | zero => simp
  | succ n ih =>
    rw [List.range_succ, List.mapM_append, ih (by omega), List.take_succ_eq_append_getElem (by omega)]
    simp [hf n (by omega)]

/-- The C handler releases every index of the list, in order. -/
theorem Native.freeRefIndices_encode {index : List Nat} (hlt : ∀ i ∈ index, i < 2 ^ 31) :
    Native.freeRefIndices (encodeIndices index) = some index := by
  have hn : (4 * index.length + 3) / 4 = index.length := by omega
  rw [Native.freeRefIndices, length_encodeIndices, hn,
    mapM_range le_rfl fun t ht => getUint32_encodeIndices ht hlt, List.take_length]

private theorem mapM_getInt32 {index : List Nat} {n : Nat} (hn : n ≤ index.length)
    (hlt : ∀ i ∈ index, i < 2 ^ 31) :
    (List.range n).mapM (fun t => getInt32 (encodeIndices index) (4 * t)) =
      some ((index.take n).map Int.ofNat) := by
  rw [List.map_take]
  refine mapM_range (by simpa using hn) fun t ht => ?_
  rw [List.getElem_map]
  exact getInt32_encodeIndices (by simpa using ht) hlt

theorem TypeScript.freeRefIndices_encode {index : List Nat} (hlt : ∀ i ∈ index, i < 2 ^ 31) :
    TypeScript.freeRefIndices (encodeIndices index) = some (index.map Int.ofNat) := by
  have hn : (4 * index.length + 3) / 4 = index.length := by omega
  rw [TypeScript.freeRefIndices, length_encodeIndices, hn, mapM_getInt32 le_rfl hlt, List.take_length]

theorem Java.freeRefIndices_encode {index : List Nat} (hlt : ∀ i ∈ index, i < 2 ^ 31) :
    Java.freeRefIndices (encodeIndices index) = some (index.map Int.ofNat) := by
  have hn : 4 * index.length / 4 = index.length := by omega
  rw [Java.freeRefIndices, length_encodeIndices, hn, mapM_getInt32 le_rfl hlt, List.take_length]

/-- The Python handler counts words and steps through them as bytes: it releases
the first quarter of the list only. -/
theorem Python.freeRefIndices_encode {index : List Nat} (hlt : ∀ i ∈ index, i < 2 ^ 31) :
    Python.freeRefIndices (encodeIndices index) =
      some ((index.take ((index.length + 3) / 4)).map Int.ofNat) := by
  have hn : (4 * index.length / 4 + 3) / 4 = (index.length + 3) / 4 := by omega
  rw [Python.freeRefIndices, length_encodeIndices, hn, mapM_getInt32 (by omega) hlt]

/-! ### Requests and owners -/

/-- What happens to the pool of a server: allocations and owners' writes, and
freeRef requests with a list of indices. -/
inductive Request (Write : Type) where
  | alloc
  | write (w : Write)
  | freeRef (index : List Nat)
deriving DecidableEq, Repr

/-- The request as pool operations, its indices as the handler reads them. -/
def Request.toOp {Write : Type} (freeRefIndices : List UInt8 → Option (List Nat)) :
    Request Write → Allocator.Op Write
  | .alloc => .alloc
  | .write w => .write w
  | .freeRef index => .free ((freeRefIndices (encodeIndices index)).getD [])

variable {Obj Hook : Type}

namespace Native

def toOp : Request (SetRef Obj Hook) → Op Obj Hook := Request.toOp freeRefIndices

end Native

namespace Managed

/-- An owner's write to the entry at `index`. -/
structure SetRef (Obj Hook : Type) where
  index : Nat
  object : Option Obj
  onFree : Option Hook
deriving DecidableEq, Repr

def allocator (Obj Hook : Type) (expand : RefPool Obj Hook → RefPool Obj Hook) :
    Allocator (RefPool Obj Hook) (SetRef Obj Hook) where
  alloc := allocRef expand
  free i pool := (freeRef i pool).map Prod.fst
  write w pool := setRef w.index w.object w.onFree pool
  size pool := pool.refPool.length
  FreeList := RefPool.FreeList

/-- A new server, in TypeScript and in Python. -/
def init : Allocator.State (RefPool Obj Hook) := ⟨RefPool.empty, []⟩

theorem lawful {last linked : Nat} (hl : linked ≤ last) :
    (allocator Obj Hook (expandRefPools last linked)).Lawful (fun _ => True) (Sound last linked) where
  nodup h := h.nodup
  live_lt h := h.live_lt
  alloc h _ := by
    obtain ⟨pool', i, ha, hi, hs, -⟩ := allocRef_sound h hl
    exact ⟨pool', i, ha, hi, hs⟩
  alloc_full _ hroom := absurd trivial hroom
  free h hi := by
    obtain ⟨pool', hook, hf, hlen, hs⟩ := freeRef_sound h hi
    exact ⟨pool', by simp [allocator, hf], hlen, hs⟩
  free_dead h hlt _ := by
    obtain ⟨pool', hook, l, hf, hl, hl'⟩ := freeRef_dead h hlt
    exact ⟨pool', l, by simp [allocator, hf], hl, hl'⟩
  write h hw := setRef_sound h hw

/-- Indices that name an entry are not negative. -/
def toOp (freeRefIndices : List UInt8 → Option (List Int)) :
    Request (SetRef Obj Hook) → Allocator.Op (SetRef Obj Hook) :=
  Request.toOp fun parameter => (freeRefIndices parameter).map fun is => is.map Int.toNat

namespace TypeScript

def allocator (Obj Hook : Type) := Managed.allocator Obj Hook expandRefPools

def toOp : Request (SetRef Obj Hook) → Allocator.Op (SetRef Obj Hook) :=
  Managed.toOp Pool.TypeScript.freeRefIndices

theorem lawful : (allocator Obj Hook).Lawful (fun _ => True) (Sound 255 255) := Managed.lawful le_rfl

end TypeScript

namespace Java

def allocator (Obj Hook : Type) := Managed.allocator Obj Hook expandRefPools

/-- `ServerContext.init` makes the first block of entries. -/
def expanded : Allocator.State (RefPool Obj Hook) := ⟨expandRefPools RefPool.empty, []⟩

theorem sound_expanded : Sound 255 255 (expanded : Allocator.State (RefPool Obj Hook)).pool [] :=
  (sound_expandRefPools sound_empty le_rfl (Threads.nil_iff.mpr rfl)).1

def toOp : Request (SetRef Obj Hook) → Allocator.Op (SetRef Obj Hook) :=
  Managed.toOp Pool.Java.freeRefIndices

theorem lawful : (allocator Obj Hook).Lawful (fun _ => True) (Sound 255 255) := Managed.lawful le_rfl

end Java

namespace Python

def allocator (Obj Hook : Type) := Managed.allocator Obj Hook expandRefPools

def toOp : Request (SetRef Obj Hook) → Allocator.Op (SetRef Obj Hook) :=
  Managed.toOp Pool.Python.freeRefIndices

theorem lawful : (allocator Obj Hook).Lawful (fun _ => True) (Sound 256 255) :=
  Managed.lawful (by omega)

end Python

end Managed

/-! ### Indices with two owners -/

section Exclusive

open Allocator (Disciplined)

/-- Over any history of allocations, owners' writes and freeRef requests with
indices of existing entries: releases of indices that are not live leave the
free list alone and no live index is handed out again, if and only if every
released index is live when its turn comes and, in C, every allocation finds
fewer than 65536 live references. -/
theorem freeRef_exclusive_iff :
    (∀ reqs : List (Request (Native.SetRef Obj Hook)),
      let ops := reqs.map Native.toOp
      let A := Native.allocator Obj Hook
      Along A.step A.InRange Native.init ops →
        (Along A.step A.Exclusive Native.init ops ↔
          Along A.step (Disciplined (· < Native.refPoolLimit)) Native.init ops)) ∧
    (∀ reqs : List (Request (Managed.SetRef Obj Hook)),
      let ops := reqs.map Managed.TypeScript.toOp
      let A := Managed.TypeScript.allocator Obj Hook
      Along A.step A.InRange Managed.init ops →
        (Along A.step A.Exclusive Managed.init ops ↔
          Along A.step (Disciplined fun _ => True) Managed.init ops)) ∧
    (∀ reqs : List (Request (Managed.SetRef Obj Hook)),
      let ops := reqs.map Managed.Java.toOp
      let A := Managed.Java.allocator Obj Hook
      Along A.step A.InRange Managed.Java.expanded ops →
        (Along A.step A.Exclusive Managed.Java.expanded ops ↔
          Along A.step (Disciplined fun _ => True) Managed.Java.expanded ops)) ∧
    (∀ reqs : List (Request (Managed.SetRef Obj Hook)),
      let ops := reqs.map Managed.Python.toOp
      let A := Managed.Python.allocator Obj Hook
      Along A.step A.InRange Managed.init ops →
        (Along A.step A.Exclusive Managed.init ops ↔
          Along A.step (Disciplined fun _ => True) Managed.init ops)) :=
  ⟨fun _ => Native.lawful.run_exclusive_iff Native.sound_empty,
    fun _ => Managed.TypeScript.lawful.run_exclusive_iff Managed.sound_empty,
    fun _ => Managed.Java.lawful.run_exclusive_iff Managed.Java.sound_expanded,
    fun _ => Managed.Python.lawful.run_exclusive_iff Managed.sound_empty⟩

/-- Releasing index 0 in two requests puts it on the free list twice in each of
the four pools. -/
theorem freeRef_twice :
    ¬ Along (Native.allocator Unit Unit).step (Native.allocator Unit Unit).Exclusive Native.init
      ([.alloc, .freeRef [0], .freeRef [0]].map Native.toOp) ∧
    ¬ Along (Managed.TypeScript.allocator Unit Unit).step
      (Managed.TypeScript.allocator Unit Unit).Exclusive Managed.init
      ([.alloc, .freeRef [0], .freeRef [0]].map Managed.TypeScript.toOp) ∧
    ¬ Along (Managed.Java.allocator Unit Unit).step
      (Managed.Java.allocator Unit Unit).Exclusive Managed.Java.expanded
      ([.alloc, .freeRef [0], .freeRef [0]].map Managed.Java.toOp) ∧
    ¬ Along (Managed.Python.allocator Unit Unit).step
      (Managed.Python.allocator Unit Unit).Exclusive Managed.init
      ([.alloc, .freeRef [0], .freeRef [0]].map Managed.Python.toOp) :=
  ⟨Native.lawful.not_exclusive_twice Native.sound_empty (by decide) (by decide +kernel),
    Managed.TypeScript.lawful.not_exclusive_twice Managed.sound_empty trivial (by decide +kernel),
    Managed.Java.lawful.not_exclusive_twice Managed.Java.sound_expanded trivial (by decide +kernel),
    Managed.Python.lawful.not_exclusive_twice Managed.sound_empty trivial (by decide +kernel)⟩

/-- An allocation and one freeRef request for it, in each of the four pools. -/
theorem freeRef_exclusive_once :
    (Along (Native.allocator Unit Unit).step (Native.allocator Unit Unit).Exclusive Native.init
        ([.alloc, .freeRef [0]].map Native.toOp) ↔
      Along (Native.allocator Unit Unit).step (Disciplined (· < Native.refPoolLimit)) Native.init
        ([.alloc, .freeRef [0]].map Native.toOp)) ∧
    (Along (Managed.TypeScript.allocator Unit Unit).step
        (Managed.TypeScript.allocator Unit Unit).Exclusive Managed.init
        ([.alloc, .freeRef [0]].map Managed.TypeScript.toOp) ↔
      Along (Managed.TypeScript.allocator Unit Unit).step (Disciplined fun _ => True) Managed.init
        ([.alloc, .freeRef [0]].map Managed.TypeScript.toOp)) ∧
    (Along (Managed.Java.allocator Unit Unit).step
        (Managed.Java.allocator Unit Unit).Exclusive Managed.Java.expanded
        ([.alloc, .freeRef [0]].map Managed.Java.toOp) ↔
      Along (Managed.Java.allocator Unit Unit).step (Disciplined fun _ => True) Managed.Java.expanded
        ([.alloc, .freeRef [0]].map Managed.Java.toOp)) ∧
    (Along (Managed.Python.allocator Unit Unit).step
        (Managed.Python.allocator Unit Unit).Exclusive Managed.init
        ([.alloc, .freeRef [0]].map Managed.Python.toOp) ↔
      Along (Managed.Python.allocator Unit Unit).step (Disciplined fun _ => True) Managed.init
        ([.alloc, .freeRef [0]].map Managed.Python.toOp)) :=
  ⟨freeRef_exclusive_iff.1 _ (by decide +kernel), freeRef_exclusive_iff.2.1 _ (by decide +kernel),
    freeRef_exclusive_iff.2.2.1 _ (by decide +kernel), freeRef_exclusive_iff.2.2.2 _ (by decide +kernel)⟩

end Exclusive

end PxpRpc.Pool
