import PxpRpc.Server.JavaRequest

/-!
# The parameters of a poll in the Java server

Every invocation of a poll reads its arguments from the one buffer of the
request, behind what the invocations before it have read.
-/
namespace PxpRpc.Server.Java

open PxpRpc.Lib
open PxpRpc.Codec.Java

variable {Obj : Type}

/-! ### The invocations of a poll -/

/-- What happens from the start of an invocation to its `done`: the references
there are at its start, where it leaves the position of the buffer if that is
its argument, what it rejects with or returns, and whether its response can
still be sent and the server is running then. -/
structure Invocation (Obj : Type) where
  refPool : List (Option Obj)
  position : Nat
  rejected : Option Throwable
  result : Option (List (Option (List UInt8)))
  isOpen : Bool
  running : Bool
deriving DecidableEq, Repr

/-- The request when the callable calls `done`; a position is at most the limit. -/
def completed (tParam : Utf16) (r : PxpRequest) (buf : ByteBuffer) (inv : Invocation Obj) : PxpRequest :=
  { r with
    parameter := if isRaw tParam then { buf with position := min inv.position buf.limit } else buf
    rejected := inv.rejected
    result := inv.result }

/-- What the invocations read, `none` for an exception. As long as each of them
is followed by another one: `done` calls `callNonbuiltinCallable`, which calls
the callable with the same request. -/
def arguments (tParam : Utf16) : PxpRequest → List (Invocation Obj) → List (Option (List (Argument Obj)))
  | _, [] => []
  | r, inv :: invs =>
    match readParameter inv.refPool tParam r.parameter with
    | none => [none]
    | some (args, buf) =>
      let r := completed tParam r buf inv
      some args :: match r.done inv.isOpen inv.running with
        | .ok done => if done.again then arguments tParam r.cleared invs else []
        | .error _ => []

/-- Every invocation reads what the first one has read. -/
def SameArguments (args : List (Option (List (Argument Obj)))) : Prop :=
  ∀ a ∈ args, args.head? = some a

instance [DecidableEq Obj] (args : List (Option (List (Argument Obj)))) : Decidable (SameArguments args) :=
  inferInstanceAs (Decidable (∀ a ∈ args, args.head? = some a))

/-! ### What a message says -/

/-- The word of `w` bytes at `p`. -/
def WordAt (message : List UInt8) (p w : Nat) (v : BitVec (8 * w)) : Prop :=
  (message.drop p).take w = leBytes w v.toNat

/-- The number from `p` up to `q`, in its short or its long form. -/
inductive VarintAt (message : List UInt8) (p : Nat) : BitVec 32 → Nat → Prop where
  | short {b : UInt8} : message[p]? = some b → b ≠ 0xff → VarintAt message p (BitVec.ofNat 32 b.toNat) (p + 1)
  | long {v : BitVec 32} : message[p]? = some 0xff → WordAt message (p + 1) 4 v → VarintAt message p v (p + 5)

/-- A length and as many bytes, up to `q`; there are no bytes and `q` is further
in front where the length is negative. -/
def BytesAt (message : List UInt8) (p : Nat) (bytes : List UInt8) (q : Nat) : Prop :=
  ∃ len p', VarintAt message p len p' ∧ (q : Int) = p' + len.toInt ∧ q ≤ message.length ∧
    bytes = (message.drop p').take len.toInt.toNat

/-- An argument of the type, from `p` up to `q`. -/
def ArgumentAt (refPool : List (Option Obj)) (message : List UInt8) (p : Nat) :
    ValueType → Argument Obj → Nat → Prop
  | .i, arg, q => ∃ v, arg = .value (.int v) ∧ WordAt message p 4 v ∧ q = p + 4
  | .l, arg, q => ∃ v, arg = .value (.long v) ∧ WordAt message p 8 v ∧ q = p + 8
  | .f, arg, q => ∃ v, arg = .value (.float v) ∧ WordAt message p 4 v ∧ q = p + 4
  | .d, arg, q => ∃ v, arg = .value (.double v) ∧ WordAt message p 8 v ∧ q = p + 8
  | .b, arg, q => ∃ bytes, arg = .value (.bytes bytes) ∧ BytesAt message p bytes q
  | .s, arg, q => ∃ bytes, arg = .value (.string (newString bytes)) ∧ BytesAt message p bytes q
  | .c, arg, q => ∃ v, arg = .value (.boolean (v ≠ 0)) ∧ VarintAt message p v q
  | .o, arg, q => ∃ addr : BitVec 32, WordAt message p 4 addr ∧ q = p + 4 ∧
      (addr = -1 ∧ arg = .object none ∨
        addr ≠ -1 ∧ ∃ object1, getObject refPool addr = some object1 ∧ arg = .object object1)

/-- Arguments of the types of the columns from `i1` on, one behind the other. A
reference is read as the first argument only. -/
def ArgumentsAt (refPool : List (Option Obj)) (message : List UInt8) :
    Nat → Utf16 → Nat → List (Argument Obj) → Nat → Prop
  | _, [], p, args, q => args = [] ∧ q = p
  | i1, ch :: types, p, args, q => ∃ type arg args' p', ValueType.ofChar ch = some type ∧
      (type = .o → i1 = 0) ∧ ArgumentAt refPool message p type arg p' ∧
      ArgumentsAt refPool message (i1 + 1) types p' args' q ∧ args = arg :: args'

/-- The same arguments once for each invocation, one behind the other. -/
def RepeatedAt (tParam : Utf16) (message : List UInt8) (args : List (Argument Obj)) :
    List (Invocation Obj) → Nat → Prop
  | [], _ => True
  | inv :: invs, p => ∃ q, ArgumentsAt inv.refPool message 0 tParam p args q ∧
      RepeatedAt tParam message args invs q

/-! ### Reading what a message says -/

/-- The message with the position `p`. -/
def bufferAt (message : List UInt8) (p : Nat) : ByteBuffer := ⟨message, p, message.length⟩

def serializerAt (message : List UInt8) (p : Nat) : Serializer2 := ⟨bufferAt message p⟩

variable {message : List UInt8} {p q : Nat} {ser : Serializer2}

theorem bufferAt_remaining : (bufferAt message p).remaining = message.drop p := by
  simp [bufferAt, ByteBuffer.remaining]

theorem getRaw_eq_some {n : Nat} {bs : List UInt8} : (serializerAt message p).getRaw n = some (bs, ser) ↔
    p + n ≤ message.length ∧ bs = (message.drop p).take n ∧ ser = serializerAt message (p + n) := by
  unfold Serializer2.getRaw ByteBuffer.get serializerAt
  rw [bufferAt_remaining]
  by_cases hle : p + n ≤ message.length
  · simp [bufferAt, hle, eq_comm]
  · simp [bufferAt, hle]

theorem wordAt_iff {w : Nat} (hw : 0 < w) {v : BitVec (8 * w)} : WordAt message p w v ↔
    p + w ≤ message.length ∧ v = BitVec.ofNat _ (leValue ((message.drop p).take w)) := by
  unfold WordAt
  constructor
  · intro h
    have hlen := congrArg List.length h
    rw [length_leBytes, List.length_take, List.length_drop] at hlen
    have hlt := v.isLt
    rw [Nat.pow_mul] at hlt
    refine ⟨by omega, ?_⟩
    rw [h, leValue_leBytes_of_lt hlt, BitVec.ofNat_toNat, BitVec.setWidth_eq]
  · rintro ⟨hle, rfl⟩
    have hlen : ((message.drop p).take w).length = w := by simp; omega
    have hlt := leValue_lt ((message.drop p).take w)
    rw [hlen] at hlt
    rw [BitVec.toNat_ofNat, Nat.mod_eq_of_lt (by rwa [Nat.pow_mul])]
    have hback := leBytes_leValue ((message.drop p).take w)
    rw [hlen] at hback
    exact hback.symm

theorem getWord_eq_some {w : Nat} (hw : 0 < w) {v : BitVec (8 * w)} :
    (serializerAt message p).getWord w = some (v, ser) ↔
      WordAt message p w v ∧ ser = serializerAt message (p + w) := by
  rw [wordAt_iff hw, Serializer2.getWord, Option.map_eq_some_iff]
  constructor
  · rintro ⟨⟨bs, ser'⟩, hraw, he⟩
    obtain ⟨hle, rfl, rfl⟩ := getRaw_eq_some.mp hraw
    obtain ⟨rfl, rfl⟩ := Prod.mk.inj he
    exact ⟨⟨hle, rfl⟩, rfl⟩
  · rintro ⟨⟨hle, rfl⟩, rfl⟩
    exact ⟨_, getRaw_eq_some.mpr ⟨hle, rfl, rfl⟩, rfl⟩

theorem getVarint_eq_some {v : BitVec 32} : (serializerAt message p).getVarint = some (v, ser) ↔
    ∃ q, VarintAt message p v q ∧ ser = serializerAt message q := by
  rw [Serializer2.getVarint, Option.bind_eq_some_iff]
  constructor
  · rintro ⟨⟨bs, ser'⟩, hraw, he⟩
    obtain ⟨hle, rfl, rfl⟩ := getRaw_eq_some.mp hraw
    have hget : message[p]? = some message[p] := List.getElem?_eq_getElem (by omega)
    have hone : (message.drop p).take 1 = [message[p]] := by
      rw [List.take_one, List.head?_drop, hget]
      rfl
    simp only [hone, leValue, Nat.mul_zero, Nat.add_zero] at he
    split at he
    · rename_i h255
      rw [show message[p] = 0xff from UInt8.toNat_inj.mp h255] at hget
      obtain ⟨hword, rfl⟩ := (getWord_eq_some (by decide)).mp he
      exact ⟨p + 5, .long hget hword, rfl⟩
    · rename_i hne
      obtain ⟨rfl, rfl⟩ := Prod.mk.inj (Option.some.inj he)
      exact ⟨p + 1, .short hget fun h => hne (by rw [h]; rfl), rfl⟩
  · rintro ⟨q, hat, rfl⟩
    have hone : ∀ {b : UInt8}, message[p]? = some b →
        (serializerAt message p).getRaw 1 = some ([b], serializerAt message (p + 1)) := by
      intro b hget
      obtain ⟨hlt, -⟩ := List.getElem?_eq_some_iff.mp hget
      refine getRaw_eq_some.mpr ⟨hlt, ?_, rfl⟩
      rw [List.take_one, List.head?_drop, hget]
      rfl
    cases hat with
    | @short b hget hne =>
      refine ⟨_, hone hget, ?_⟩
      have : leValue [b] ≠ 255 := fun h => hne (UInt8.toNat_inj.mp (by simpa [leValue] using h))
      simp only [if_neg this]
      simp [leValue]
    | long hget hword =>
      exact ⟨_, hone hget, (getWord_eq_some (by decide)).mpr ⟨hword, rfl⟩⟩

theorem getBytes_eq_some {bytes : List UInt8} : (serializerAt message p).getBytes = some (bytes, ser) ↔
    ∃ q, BytesAt message p bytes q ∧ ser = serializerAt message q := by
  rw [Serializer2.getBytes, Option.bind_eq_some_iff]
  constructor
  · rintro ⟨⟨len, ser'⟩, hlen, he⟩
    obtain ⟨p', hat, rfl⟩ := getVarint_eq_some.mp hlen
    simp only at he
    split at he
    · rename_i hin
      obtain ⟨rfl, rfl⟩ := Prod.mk.inj (Option.some.inj he)
      refine ⟨((p' : Int) + len.toInt).toNat, ⟨len, p', hat, Int.toNat_of_nonneg hin.1, ?_, ?_⟩, rfl⟩
      · have := hin.2
        simp only [serializerAt, bufferAt] at this
        omega
      · exact congrArg _ bufferAt_remaining
    · cases he
  · rintro ⟨q, ⟨len, p', hat, hq, hle, rfl⟩, rfl⟩
    refine ⟨⟨len, serializerAt message p'⟩, getVarint_eq_some.mpr ⟨p', hat, rfl⟩, ?_⟩
    have hrem : (serializerAt message p').buf.remaining = message.drop p' := bufferAt_remaining
    have hin : 0 ≤ ((serializerAt message p').buf.position : Int) + len.toInt ∧
        ((serializerAt message p').buf.position : Int) + len.toInt ≤
          (serializerAt message p').buf.limit := by
      simp only [serializerAt, bufferAt]
      omega
    simp only [if_pos hin, hrem]
    have hpos : (((serializerAt message p').buf.position : Int) + len.toInt).toNat = q := by
      simp only [serializerAt, bufferAt]
      omega
    rw [hpos]
    rfl

variable {refPool : List (Option Obj)}

/-- One cell and the argument it stands for. -/
theorem getCell_eq_some {type : ValueType} {arg : Argument Obj} :
    (∃ cell, TableSerializer.getCell type (serializerAt message p) = some (cell, ser) ∧
      argument refPool cell = some arg) ↔
    ∃ q, ArgumentAt refPool message p type arg q ∧ ser = serializerAt message q := by
  cases type with
  | i | f =>
    simp only [TableSerializer.getCell, Serializer2.getInt, Serializer2.getFloat, Option.map_eq_some_iff,
      ArgumentAt]
    constructor
    · rintro ⟨cell, ⟨⟨v, ser'⟩, hw, he⟩, ha⟩
      obtain ⟨rfl, rfl⟩ := Prod.mk.inj he
      obtain ⟨hword, rfl⟩ := (getWord_eq_some (by decide)).mp hw
      exact ⟨p + 4, ⟨v, (Option.some.inj ha).symm, hword, rfl⟩, rfl⟩
    · rintro ⟨q, ⟨v, rfl, hword, rfl⟩, rfl⟩
      exact ⟨_, ⟨_, (getWord_eq_some (by decide)).mpr ⟨hword, rfl⟩, rfl⟩, rfl⟩
  | l | d =>
    simp only [TableSerializer.getCell, Serializer2.getLong, Serializer2.getDouble, Option.map_eq_some_iff,
      ArgumentAt]
    constructor
    · rintro ⟨cell, ⟨⟨v, ser'⟩, hw, he⟩, ha⟩
      obtain ⟨rfl, rfl⟩ := Prod.mk.inj he
      obtain ⟨hword, rfl⟩ := (getWord_eq_some (by decide)).mp hw
      exact ⟨p + 8, ⟨v, (Option.some.inj ha).symm, hword, rfl⟩, rfl⟩
    · rintro ⟨q, ⟨v, rfl, hword, rfl⟩, rfl⟩
      exact ⟨_, ⟨_, (getWord_eq_some (by decide)).mpr ⟨hword, rfl⟩, rfl⟩, rfl⟩
  | b =>
    simp only [TableSerializer.getCell, Option.map_eq_some_iff, ArgumentAt]
    constructor
    · rintro ⟨cell, ⟨⟨bytes, ser'⟩, hb, he⟩, ha⟩
      obtain ⟨rfl, rfl⟩ := Prod.mk.inj he
      obtain ⟨q, hat, rfl⟩ := getBytes_eq_some.mp hb
      exact ⟨q, ⟨bytes, (Option.some.inj ha).symm, hat⟩, rfl⟩
    · rintro ⟨q, ⟨bytes, rfl, hat⟩, rfl⟩
      exact ⟨_, ⟨_, getBytes_eq_some.mpr ⟨q, hat, rfl⟩, rfl⟩, rfl⟩
  | s =>
    simp only [TableSerializer.getCell, Serializer2.getString, Option.map_eq_some_iff, ArgumentAt]
    constructor
    · rintro ⟨cell, ⟨_, ⟨⟨bytes, ser'⟩, hb, rfl⟩, he⟩, ha⟩
      obtain ⟨rfl, rfl⟩ := Prod.mk.inj he
      obtain ⟨q, hat, rfl⟩ := getBytes_eq_some.mp hb
      exact ⟨q, ⟨bytes, (Option.some.inj ha).symm, hat⟩, rfl⟩
    · rintro ⟨q, ⟨bytes, rfl, hat⟩, rfl⟩
      exact ⟨_, ⟨_, ⟨_, getBytes_eq_some.mpr ⟨q, hat, rfl⟩, rfl⟩, rfl⟩, rfl⟩
  | c =>
    simp only [TableSerializer.getCell, Option.map_eq_some_iff, ArgumentAt]
    constructor
    · rintro ⟨cell, ⟨⟨v, ser'⟩, hv, he⟩, ha⟩
      obtain ⟨rfl, rfl⟩ := Prod.mk.inj he
      obtain ⟨q, hat, rfl⟩ := getVarint_eq_some.mp hv
      exact ⟨q, ⟨v, (Option.some.inj ha).symm, hat⟩, rfl⟩
    · rintro ⟨q, ⟨v, rfl, hat⟩, rfl⟩
      exact ⟨_, ⟨_, getVarint_eq_some.mpr ⟨q, hat, rfl⟩, rfl⟩, rfl⟩
  | o =>
    simp only [TableSerializer.getCell, Serializer2.getInt, Option.map_eq_some_iff, ArgumentAt]
    constructor
    · rintro ⟨cell, ⟨⟨addr, ser'⟩, hw, he⟩, ha⟩
      obtain ⟨rfl, rfl⟩ := Prod.mk.inj he
      obtain ⟨hword, rfl⟩ := (getWord_eq_some (by decide)).mp hw
      refine ⟨p + 4, ⟨addr, hword, rfl, ?_⟩, rfl⟩
      by_cases haddr : addr = -1
      · rw [if_neg (not_not.mpr haddr)] at ha
        exact .inl ⟨haddr, (Option.some.inj ha).symm⟩
      · rw [if_pos haddr] at ha
        obtain ⟨object1, ho, rfl⟩ := Option.map_eq_some_iff.mp ha
        exact .inr ⟨haddr, object1, ho, rfl⟩
    · rintro ⟨q, ⟨addr, hword, rfl, hobj⟩, rfl⟩
      refine ⟨_, ⟨_, (getWord_eq_some (by decide)).mpr ⟨hword, rfl⟩, rfl⟩, ?_⟩
      obtain ⟨haddr, rfl⟩ | ⟨haddr, object1, ho, rfl⟩ := hobj
      · rw [if_neg (not_not.mpr haddr)]
        rfl
      · rw [if_pos haddr, argument, ho, Option.map_some]

/-- The cells of the one row, as they are read. -/
def readCells : Nat → Utf16 → Serializer2 → Option (Row (List UInt8) × Serializer2)
  | _, [], ser => some ([], ser)
  | i1, ch :: types, ser => (ValueType.ofChar ch).bind fun type =>
    (TableSerializer.getCell type ser).bind fun (cell, ser) =>
      if type = .o ∧ i1 ≠ 0 then none
      else (readCells (i1 + 1) types ser).map fun (cells, ser) => (cell :: cells, ser)

theorem getColumns_one (types : Utf16) : ∀ {i1 : Nat} {before after : Row (List UInt8)} {ser : Serializer2},
    before.length = i1 → after.length = types.length →
      TableSerializer.getColumns 1 i1 types ([before ++ after], ser) =
        (readCells i1 types ser).map fun (cells, ser) => ([before ++ cells], ser) := by
  induction types with
  | nil =>
    intro i1 before after ser _ ha
    rw [List.eq_nil_of_length_eq_zero ha]
    rfl
  | cons ch types ih =>
    intro i1 before after ser hb ha
    obtain ⟨old, after, rfl⟩ := List.exists_cons_of_length_eq_add_one ha
    rw [TableSerializer.getColumns, readCells]
    cases ValueType.ofChar ch with
    | none => rfl
    | some type =>
      simp only [Option.bind_some, TableSerializer.getCells]
      cases TableSerializer.getCell type ser with
      | none => rfl
      | some out =>
        simp only [Option.bind_some]
        by_cases ho : type = .o ∧ i1 ≠ 0
        · have hnone : [before ++ old :: after][i1]? = none := List.getElem?_eq_none (by simp; omega)
          rw [if_pos ho, if_pos ho.1, TableSerializer.setCell, hnone]
          rfl
        · have hzero : (if type = .o then i1 else 0) = 0 := by
            split <;> rename_i h
            · exact not_not.mp fun h0 => ho ⟨h, h0⟩
            · rfl
          have hset : (before ++ old :: after).set i1 out.1 = (before ++ [out.1]) ++ after := by
            rw [List.set_append_right _ _ (by omega), hb, Nat.sub_self, List.set_cons_zero,
              List.append_assoc, List.singleton_append]
          have hlen : (before ++ [out.1]).length = i1 + 1 := by simp [hb]
          rw [if_neg ho, hzero, TableSerializer.setCell]
          simp only [List.getElem?_cons_zero, Option.map_some, Option.bind_some, List.set_cons_zero, hset]
          rw [ih hlen (by simpa using ha), Option.map_map]
          refine congrArg (fun f => Option.map f _) (funext fun r => ?_)
          simp

theorem readCells_eq_some (types : Utf16) : ∀ {i1 p : Nat} {args : List (Argument Obj)} {ser : Serializer2},
    (∃ cells, readCells i1 types (serializerAt message p) = some (cells, ser) ∧
      cells.mapM (argument refPool) = some args) ↔
    ∃ q, ArgumentsAt refPool message i1 types p args q ∧ ser = serializerAt message q := by
  induction types with
  | nil =>
    intro i1 p args ser
    constructor
    · rintro ⟨cells, hcells, hargs⟩
      obtain ⟨rfl, rfl⟩ := Prod.mk.inj (Option.some.inj hcells)
      exact ⟨p, ⟨(Option.some.inj hargs).symm, rfl⟩, rfl⟩
    · rintro ⟨q, ⟨rfl, rfl⟩, rfl⟩
      exact ⟨[], rfl, rfl⟩
  | cons ch types ih =>
    intro i1 p args ser
    simp only [readCells, ArgumentsAt, Option.bind_eq_some_iff]
    constructor
    · rintro ⟨cells, ⟨type, ht, ⟨cell, ser'⟩, hcell, he⟩, hargs⟩
      simp only at he
      split at he
      · cases he
      · rename_i ho
        obtain ⟨⟨cells', ser''⟩, hcells, he⟩ := Option.map_eq_some_iff.mp he
        obtain ⟨rfl, rfl⟩ := Prod.mk.inj he
        rw [List.mapM_cons, Option.bind_eq_bind, Option.bind_eq_some_iff] at hargs
        obtain ⟨arg, harg, hargs⟩ := hargs
        obtain ⟨args', hargs', hcons⟩ := Option.bind_eq_some_iff.mp hargs
        obtain ⟨p', hat, rfl⟩ := getCell_eq_some.mp ⟨cell, hcell, harg⟩
        obtain ⟨q, hrest, rfl⟩ := ih.mp ⟨cells', hcells, hargs'⟩
        refine ⟨q, ⟨type, arg, args', p', ht, fun h => ?_, hat, hrest, (Option.some.inj hcons).symm⟩, rfl⟩
        exact not_not.mp fun h0 => ho ⟨h, h0⟩
    · rintro ⟨q, ⟨type, arg, args', p', ht, ho, hat, hrest, rfl⟩, rfl⟩
      obtain ⟨cell, hcell, harg⟩ := getCell_eq_some.mpr ⟨p', hat, rfl⟩
      obtain ⟨cells', hcells, hargs'⟩ := ih.mpr ⟨q, hrest, rfl⟩
      refine ⟨cell :: cells', ⟨type, ht, (cell, _), hcell, ?_⟩, ?_⟩
      · rw [if_neg fun h => h.2 (ho h.1), hcells, Option.map_some]
      · rw [List.mapM_cons, harg, hargs']
        rfl

/-- `readParameter` reads the arguments that the message has at the position. -/
theorem readParameter_eq_some {tParam : Utf16} (hraw : isRaw tParam = false) {args : List (Argument Obj)}
    {buf : ByteBuffer} : readParameter refPool tParam (bufferAt message p) = some (args, buf) ↔
      ∃ q, ArgumentsAt refPool message 0 tParam p args q ∧ buf = bufferAt message q := by
  have hrows := @getColumns_one tParam 0 [] (List.replicate tParam.length .null) (serializerAt message p) rfl
    List.length_replicate
  simp only [List.nil_append] at hrows
  have hget : TableSerializer.getRowsData tParam 1 (serializerAt message p) =
      (readCells 0 tParam (serializerAt message p)).map fun (cells, ser) => ([cells], ser) := hrows
  rw [readParameter, hraw, if_neg Bool.false_ne_true, Serializer2.prepareUnserializing]
  change (TableSerializer.getRowsData tParam 1 (serializerAt message p)).bind _ = _ ↔ _
  rw [hget]
  constructor
  · intro h
    obtain ⟨⟨rows, ser⟩, hrow, hmap⟩ := Option.bind_eq_some_iff.mp h
    obtain ⟨⟨cells, ser'⟩, hcells, he⟩ := Option.map_eq_some_iff.mp hrow
    obtain ⟨rfl, rfl⟩ := Prod.mk.inj he
    obtain ⟨args', hargs, hpair⟩ := Option.map_eq_some_iff.mp hmap
    obtain ⟨rfl, rfl⟩ := Prod.mk.inj hpair
    obtain ⟨q, hat, rfl⟩ := (readCells_eq_some tParam).mp ⟨cells, hcells, hargs⟩
    exact ⟨q, hat, rfl⟩
  · rintro ⟨q, hat, rfl⟩
    obtain ⟨cells, hcells, hargs⟩ := (readCells_eq_some tParam).mpr ⟨q, hat, rfl⟩
    rw [hcells]
    change (cells.mapM (argument refPool)).map _ = _
    rw [hargs]
    rfl

/-! ### Invocations that read the same -/

variable {tParam : Utf16} {r : PxpRequest} {inv : Invocation Obj} {invs : List (Invocation Obj)}

/-- After its arguments an invocation that is not the last is followed by the
others. -/
theorem arguments_cons {args : List (Argument Obj)} {buf : ByteBuffer}
    (hread : readParameter inv.refPool tParam r.parameter = some (args, buf))
    (hall : (arguments tParam r (inv :: invs)).length = (inv :: invs).length) :
    ∃ r' : PxpRequest, r'.parameter = (completed tParam r buf inv).parameter ∧
      arguments tParam r (inv :: invs) = some args :: arguments tParam r' invs ∧
      (arguments tParam r' invs).length = invs.length := by
  have hnil : ([] : List (Option (List (Argument Obj)))).length = invs.length →
      arguments tParam (completed tParam r buf inv) invs = [] := by
    intro h
    rw [List.length_eq_zero_iff.mp h.symm]
    rfl
  rw [arguments, hread] at hall ⊢
  simp only [List.length_cons, Nat.add_right_cancel_iff, List.cons.injEq, true_and] at hall ⊢
  split at hall
  · split at hall
    · rename_i hagain
      exact ⟨(completed tParam r buf inv).cleared, rfl, by rw [if_pos hagain], hall⟩
    · rename_i hagain
      exact ⟨_, rfl, by rw [if_neg hagain, hnil hall], by rw [hnil hall]; exact hall⟩
  · exact ⟨_, rfl, by rw [hnil hall], by rw [hnil hall]; exact hall⟩

theorem bufferAt_inj : bufferAt message p = bufferAt message q ↔ p = q :=
  ⟨congrArg ByteBuffer.position, congrArg _⟩

/-- All invocations read these arguments if and only if the message repeats them. -/
theorem arguments_repeated_iff (hraw : isRaw tParam = false) {args : List (Argument Obj)} :
    ∀ {r : PxpRequest} {p : Nat}, r.parameter = bufferAt message p →
      (arguments tParam r invs).length = invs.length →
        ((∀ a ∈ arguments tParam r invs, a = some args) ↔ RepeatedAt tParam message args invs p) := by
  induction invs with
  | nil => exact fun _ _ => iff_of_true (by simp [arguments]) trivial
  | cons inv invs ih =>
    intro r p hp hall
    cases hread : readParameter inv.refPool tParam r.parameter with
    | none =>
      have hnone : arguments tParam r (inv :: invs) = [none] := by rw [arguments, hread]
      rw [hnone]
      refine iff_of_false (by simp) ?_
      rintro ⟨q, hat, -⟩
      rw [hp] at hread
      exact Option.some_ne_none _ (((readParameter_eq_some hraw).mpr ⟨q, hat, rfl⟩).symm.trans hread)
    | some out =>
      obtain ⟨args', buf⟩ := out
      obtain ⟨r', hr', hcons, hlen⟩ := arguments_cons hread hall
      rw [hp] at hread
      obtain ⟨q, hat, rfl⟩ := (readParameter_eq_some hraw).mp hread
      have hnext : r'.parameter = bufferAt message q := by rw [hr', completed, hraw, if_neg Bool.false_ne_true]
      rw [hcons, List.forall_mem_cons, ih hnext hlen, Option.some_inj]
      constructor
      · rintro ⟨rfl, hrest⟩
        exact ⟨q, hat, hrest⟩
      · rintro ⟨q', hat', hrest⟩
        have hread' := (readParameter_eq_some hraw).mpr ⟨q', hat', rfl⟩
        obtain ⟨hargs, hbuf⟩ := Prod.mk.inj (Option.some.inj (hread.symm.trans hread'))
        obtain rfl := bufferAt_inj.mp hbuf
        exact ⟨hargs, hrest⟩

theorem drop_eq_drop_iff (hp : p ≤ message.length) (hq : q ≤ message.length) :
    message.drop p = message.drop q ↔ p = q := by
  refine ⟨fun h => ?_, fun h => by rw [h]⟩
  have hlen := congrArg List.length h
  rw [List.length_drop, List.length_drop] at hlen
  omega

/-- All invocations find the same bytes in the buffer if and only if none but the
last moves its position. -/
theorem arguments_raw_iff (hraw : isRaw tParam = true) (hq : q ≤ message.length) :
    ∀ {r : PxpRequest} {p : Nat}, r.parameter = bufferAt message p → p ≤ message.length →
      (arguments tParam r invs).length = invs.length →
        ((∀ a ∈ arguments tParam r invs, a = some [.buffer (message.drop q)]) ↔
          invs = [] ∨ p = q ∧ ∀ inv ∈ invs.dropLast, min inv.position message.length = q) := by
  induction invs with
  | nil => exact fun _ _ _ => iff_of_true (by simp [arguments]) (.inl rfl)
  | cons inv invs ih =>
    intro r p hp hle hall
    have hread : readParameter inv.refPool tParam r.parameter =
        some ([.buffer (message.drop p)], bufferAt message p) := by
      rw [readParameter, if_pos hraw, hp, bufferAt_remaining]
    obtain ⟨r', hr', hcons, hlen⟩ := arguments_cons hread hall
    have hnext : r'.parameter = bufferAt message (min inv.position message.length) := by
      rw [hr', completed, if_pos hraw]
      rfl
    rw [hcons, List.forall_mem_cons, ih hnext (by omega) hlen]
    simp only [Option.some.injEq, List.cons.injEq, Argument.buffer.injEq, and_true, reduceCtorEq, false_or]
    rw [drop_eq_drop_iff hle hq]
    cases invs with
    | nil => simp
    | cons next invs => simp [List.dropLast]

/-- Two invocations or more read the same if and only if they all read some list
of arguments. -/
theorem sameArguments_iff {args : List (Option (List (Argument Obj)))} (hsome : ∃ a, args.head? = some (some a)) :
    SameArguments args ↔ ∃ a, ∀ a' ∈ args, a' = some a := by
  obtain ⟨a, ha⟩ := hsome
  constructor
  · intro h
    exact ⟨a, fun a' ha' => Option.some.inj ((h a' ha').symm.trans ha)⟩
  · rintro ⟨b, hb⟩ a' ha'
    have hab : some a = some b := hb _ (List.mem_of_head? ha)
    rw [ha, hb a' ha', hab]

theorem getInt_bufferAt {v : BitVec 32} {buf : ByteBuffer} (h : getInt (bufferAt message p) = some (v, buf)) :
    p + 4 ≤ message.length ∧ buf = bufferAt message (p + 4) := by
  obtain ⟨⟨bs, buf'⟩, hget, he⟩ := Option.map_eq_some_iff.mp h
  obtain ⟨-, rfl⟩ := Prod.mk.inj he
  unfold ByteBuffer.get at hget
  split at hget
  · rename_i hle
    exact ⟨hle, (Prod.mk.inj (Option.some.inj hget)).2.symm⟩
  · cases hget

theorem parameter_poll {r : PxpRequest} (hr : (receiveRequest message).bind poll = some r) :
    r.parameter = bufferAt message 12 ∧ 12 ≤ message.length := by
  obtain ⟨r₀, h₀, hp⟩ := Option.bind_eq_some_iff.mp hr
  obtain ⟨⟨session, buf₁⟩, h₁, hrest⟩ := Option.bind_eq_some_iff.mp h₀
  obtain ⟨⟨callableIndex, buf₂⟩, h₂, rfl⟩ := Option.map_eq_some_iff.mp hrest
  obtain ⟨⟨target, buf₃⟩, h₃, rfl⟩ := Option.map_eq_some_iff.mp hp
  obtain ⟨-, rfl⟩ : _ ∧ buf₁ = bufferAt message 4 := @getInt_bufferAt message 0 _ _ h₁
  obtain ⟨-, rfl⟩ := getInt_bufferAt h₂
  obtain ⟨hle, rfl⟩ := getInt_bufferAt h₃
  exact ⟨rfl, hle⟩

/-- However many invocations of a poll there are, they all read the same
arguments if and only if there is at most one of them; or the argument is the
buffer itself, and none but the last moves its position; or the request has the
arguments as often as there are invocations. -/
theorem arguments_same_iff {r : PxpRequest} (hr : (receiveRequest message).bind poll = some r)
    (hall : (arguments tParam r.cleared invs).length = invs.length) :
    SameArguments (arguments tParam r.cleared invs) ↔
      invs.length ≤ 1 ∨
      isRaw tParam = true ∧
        (∀ inv ∈ invs.dropLast, min inv.position r.parameter.limit = r.parameter.position) ∨
      isRaw tParam = false ∧ ∃ args, RepeatedAt tParam message args invs r.parameter.position := by
  obtain ⟨hp, hle⟩ := parameter_poll hr
  have hclear : r.cleared.parameter = bufferAt message 12 := hp
  rw [hp]
  by_cases hone : invs.length ≤ 1
  · refine iff_of_true ?_ (.inl hone)
    rw [← hall] at hone
    generalize arguments tParam r.cleared invs = l at hone
    match l, hone with
    | [], _ => exact List.forall_mem_nil _
    | [a], _ => exact List.forall_mem_singleton.mpr rfl
  · obtain ⟨inv, next, rest, rfl⟩ : ∃ inv next rest, invs = inv :: next :: rest := by
      match invs, hone with
      | [], hone => exact absurd (Nat.zero_le 1) hone
      | [inv], hone => exact absurd le_rfl hone
      | inv :: next :: rest, _ => exact ⟨inv, next, rest, rfl⟩
    -- a first invocation that is followed by another one has read its arguments
    obtain ⟨args, buf, hread⟩ : ∃ args buf, readParameter inv.refPool tParam r.cleared.parameter = some (args, buf) := by
      cases hread : readParameter inv.refPool tParam r.cleared.parameter with
      | none =>
        rw [arguments, hread] at hall
        simp at hall
      | some out => exact ⟨out.1, out.2, rfl⟩
    obtain ⟨r', -, hcons, -⟩ := arguments_cons hread hall
    rw [sameArguments_iff ⟨args, by rw [hcons]; rfl⟩]
    simp only [hone, false_or]
    cases hraw : isRaw tParam with
    | true =>
      simp only [true_and, Bool.true_eq_false, false_and, or_false]
      rw [hclear, readParameter, if_pos hraw, bufferAt_remaining] at hread
      obtain ⟨rfl, -⟩ := Prod.mk.inj (Option.some.inj hread)
      have hiff := arguments_raw_iff hraw hle hclear hle hall
      simp only [reduceCtorEq, false_or, true_and] at hiff
      refine Iff.trans ?_ hiff
      constructor
      · rintro ⟨a, ha⟩
        have hfirst := ha _ (by rw [hcons]; exact List.mem_cons_self)
        rw [Option.some.inj hfirst]
        exact ha
      · exact fun h => ⟨_, h⟩
    | false =>
      simp only [Bool.false_eq_true, false_and, true_and, false_or]
      exact exists_congr fun args => arguments_repeated_iff hraw hclear hall

/-- A poll that gets one `int`, with an accepted invocation and one more. -/
def pollMessage : List UInt8 :=
  List.flatten [leBytes 4 1, leBytes 4 0xfffffffb, leBytes 4 0, leBytes 4 7]

def accepted (position : Nat) : Invocation Unit := ⟨[some ()], position, none, some [some []], true, true⟩

/-- The second invocation finds no bytes. -/
theorem arguments_differ : ∃ r, (receiveRequest pollMessage).bind poll = some r ∧
    arguments [ValueType.i.char] r.cleared [accepted 16, accepted 16] =
      [some [.value (.int 7)], none] ∧
    ¬ SameArguments (arguments [ValueType.i.char] r.cleared [accepted 16, accepted 16]) :=
  ⟨_, rfl, by decide, by decide⟩

/-- Three invocations that get the buffer and leave its position alone. -/
theorem arguments_raw_same : ∃ r, (receiveRequest pollMessage).bind poll = some r ∧
    (SameArguments (arguments [ValueType.b.char] r.cleared [accepted 12, accepted 12, accepted 12]) ↔
      [accepted 12, accepted 12, accepted 12].length ≤ 1 ∨
      isRaw [ValueType.b.char] = true ∧
        (∀ inv ∈ [accepted 12, accepted 12, accepted 12].dropLast,
          min inv.position r.parameter.limit = r.parameter.position) ∨
      isRaw [ValueType.b.char] = false ∧
        ∃ args, RepeatedAt [ValueType.b.char] pollMessage args [accepted 12, accepted 12, accepted 12]
          r.parameter.position) :=
  ⟨_, rfl, arguments_same_iff rfl (by decide)⟩

end PxpRpc.Server.Java
