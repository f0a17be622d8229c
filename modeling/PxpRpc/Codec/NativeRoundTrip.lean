import PxpRpc.Codec.NativeCapacity

/-!
# What the C serializer writes and reads back

`pxprpc_ser_put_varint` writes 255 as the one byte 0xff, which is the escape of
the five-byte form to `pxprpc_ser_get_varint`. Every other item is read back by
the call that matches it.
-/
namespace PxpRpc.Codec.Native

open PxpRpc.Lib

/-- The output is at most one gibibyte. -/
def outputLimit : Nat := 2 ^ 30

/-! ### Encodings -/

def encodeVarint (val : BitVec 32) : List UInt8 :=
  if val ≤ 0xff then [UInt8.ofNat val.toNat] else 0xff :: leBytes 4 val.toNat

/-- The bytes a put call appends. -/
def Item.encode : Item → List UInt8
  | .int val => (val.map BitVec.toNat).flatMap (leBytes 4)
  | .long val => (val.map BitVec.toNat).flatMap (leBytes 8)
  | .float val => (val.map BitVec.toNat).flatMap (leBytes 4)
  | .double val => (val.map BitVec.toNat).flatMap (leBytes 8)
  | .varint val => encodeVarint val
  | .bytes val => encodeVarint (BitVec.ofNat 32 val.length) ++ val

def encodeAll (items : List Item) : List UInt8 := items.flatMap Item.encode

/-- The item is written through the varint 255. -/
def Item.escapes : Item → Prop
  | .varint val => val = 0xff
  | .bytes val => val.length = 0xff
  | _ => False

/-! ### Writing -/

/-- The serializer holds `bs`, and its capacity is the size of its buffer. -/
structure Wrote (ser : Serializer) (bs : List UInt8) : Prop where
  holds : ser.buf.Holds bs
  pos : ser.pos.toNat = bs.length
  cap : ser.cap.toNat = ser.buf.length

theorem wrote_prepareSer {n : BitVec 32} (hn : n.msb = false) : Wrote (prepareSer n) [] := by
  have hb : (prepareSer n).buf = Block.malloc n.toNat := by
    rw [prepareSer, realloc_sizeT hn]
    simp [Block.realloc, Block.malloc]
  exact ⟨hb ▸ Block.Holds.malloc _, rfl, by rw [hb]; simp [prepareSer]⟩

/-- The buffer is large enough then, and has kept what was written. -/
theorem Wrote.ensureBuf {ser : Serializer} {bs : List UInt8} (h : Wrote ser bs) {remain : BitVec 32} {capacity : Nat}
    (hg : grow ser.buf.length bs.length remain.toNat = some capacity) :
    Wrote (ensureBuf ser remain) bs ∧ (ensureBuf ser remain).buf.length = capacity ∧
      bs.length + remain.toNat ≤ capacity := by
  have hpos := h.pos
  have hcap := h.cap
  have hle : ser.pos.toNat ≤ ser.cap.toNat := by rw [hpos, hcap]; exact h.holds.1
  rw [← hpos, ← hcap] at hg
  obtain ⟨hnew, henough, -, hbuf⟩ := ensureBuf_some hle hg
  rw [hpos] at henough
  have hposn : (Native.ensureBuf ser remain).pos.toNat = bs.length := by rw [ensureBuf_pos, hpos]
  rcases hbuf with ⟨hbuf, rfl⟩ | ⟨hbuf, hlt, -⟩
  · exact ⟨⟨by rw [hbuf]; exact h.holds, hposn, by rw [hnew, hbuf, hcap]⟩, by rw [hbuf, hcap], henough⟩
  · refine ⟨⟨?_, hposn, ?_⟩, by rw [hbuf, Block.length_realloc], henough⟩
    · rw [hbuf]
      exact h.holds.realloc (by omega)
    · rw [hnew, hbuf, Block.length_realloc]

/-- Growing the buffer makes room and keeps what was written. -/
theorem wrote_ensureBuf {ser : Serializer} {bs : List UInt8} (h : Wrote ser bs) (remain : BitVec 32)
    (hr : bs.length + remain.toNat ≤ outputLimit) :
    Wrote (ensureBuf ser remain) bs ∧ bs.length + remain.toNat ≤ (ensureBuf ser remain).buf.length := by
  rw [outputLimit] at hr
  obtain ⟨capacity, hg⟩ : ∃ capacity, grow ser.buf.length bs.length remain.toNat = some capacity := by
    unfold grow
    split
    · exact ⟨_, rfl⟩
    · rw [if_pos (by omega)]
      exact ⟨_, rfl⟩
  obtain ⟨hw, hlen, henough⟩ := h.ensureBuf hg
  exact ⟨hw, by rw [hlen]; exact henough⟩

theorem wrote_putRaw {ser : Serializer} {bs : List UInt8} (h : Wrote ser bs) (val : List UInt8)
    (hroom : bs.length + val.length ≤ ser.buf.length) :
    ∃ ser', putRaw ser val = some ser' ∧ Wrote ser' (bs ++ val) ∧ ser'.buf.length = ser.buf.length := by
  obtain ⟨b, hb, hlen, hh⟩ := h.holds.write hroom
  have hcap := h.cap
  have hlt := ser.cap.isLt
  refine ⟨⟨b, ser.cap, ser.pos + BitVec.ofNat 32 val.length⟩, ?_, ⟨hh, ?_, by rw [hlen]; exact h.cap⟩, hlen⟩
  · simp [putRaw, h.pos, hb]
  · rw [BitVec.toNat_add, h.pos, BitVec.toNat_ofNat, List.length_append]
    omega

/-- Making room for `val` and writing it. -/
theorem wrote_append {ser : Serializer} {bs val : List UInt8} (h : Wrote ser bs) {n : BitVec 32}
    (hn : n.toNat = val.length) (hl : (bs ++ val).length ≤ outputLimit) :
    ∃ ser', putRaw (ensureBuf ser n) val = some ser' ∧ Wrote ser' (bs ++ val) := by
  rw [List.length_append] at hl
  obtain ⟨hw, hroom⟩ := wrote_ensureBuf h n (by omega)
  obtain ⟨ser', hp, hw', -⟩ := wrote_putRaw hw val (by omega)
  exact ⟨ser', hp, hw'⟩

theorem wrote_putWords {ser : Serializer} {bs : List UInt8} {width : Nat} {val : List Nat}
    (h : Wrote ser bs) (hl : (bs ++ val.flatMap (leBytes width)).length ≤ outputLimit) :
    ∃ ser', putWords width val ser = some ser' ∧ Wrote ser' (bs ++ val.flatMap (leBytes width)) := by
  have hlen := length_flatMap_leBytes width val
  have hlt : width * val.length < 2 ^ 31 := by
    rw [List.length_append, hlen, outputLimit] at hl
    omega
  rw [putWords, if_pos hlt]
  refine wrote_append h ?_ hl
  rw [BitVec.toNat_ofNat, hlen, Nat.mod_eq_of_lt (by omega)]

theorem wrote_putVarint {ser : Serializer} {bs : List UInt8} (h : Wrote ser bs) (val : BitVec 32)
    (hl : (bs ++ encodeVarint val).length ≤ outputLimit) :
    ∃ ser', putVarint val ser = some ser' ∧ Wrote ser' (bs ++ encodeVarint val) := by
  rw [encodeVarint] at hl ⊢
  rw [putVarint]
  by_cases hv : val ≤ 0xff
  · rw [if_pos hv] at hl ⊢
    rw [if_pos hv]
    exact wrote_append h (by rfl) hl
  · rw [if_neg hv] at hl ⊢
    rw [if_neg hv]
    have hl' : bs.length + 5 ≤ outputLimit := by simpa using hl
    obtain ⟨hw, hroom⟩ := wrote_ensureBuf h 5 hl'
    have h5 : bs.length + 5 ≤ (ensureBuf ser 5).buf.length := hroom
    obtain ⟨ser₁, hp₁, hw₁, hlen₁⟩ := wrote_putRaw hw [0xff] (by simp only [List.length_singleton]; omega)
    obtain ⟨ser₂, hp₂, hw₂, -⟩ := wrote_putRaw hw₁ (leBytes 4 val.toNat)
      (by simp only [List.length_append, List.length_singleton, length_leBytes]; omega)
    refine ⟨ser₂, by rw [hp₁, Option.bind_some, hp₂], ?_⟩
    rw [List.append_assoc] at hw₂
    exact hw₂

/-- Every put call appends the encoding of its item. -/
theorem wrote_put {ser : Serializer} {bs : List UInt8} (h : Wrote ser bs) (it : Item)
    (hl : (bs ++ it.encode).length ≤ outputLimit) :
    ∃ ser', it.put ser = some ser' ∧ Wrote ser' (bs ++ it.encode) := by
  cases it with
  | int val => exact wrote_putWords h hl
  | long val => exact wrote_putWords h hl
  | float val => exact wrote_putWords h hl
  | double val => exact wrote_putWords h hl
  | varint val => exact wrote_putVarint h val hl
  | bytes val =>
    simp only [Item.encode, ← List.append_assoc] at hl ⊢
    have hl' := hl
    rw [List.length_append] at hl'
    obtain ⟨ser₁, hp₁, hw₁⟩ := wrote_putVarint h (BitVec.ofNat 32 val.length) (by omega)
    have hn : (BitVec.ofNat 32 val.length).toNat = val.length := by
      rw [outputLimit] at hl'
      rw [BitVec.toNat_ofNat, Nat.mod_eq_of_lt (by omega)]
    obtain ⟨ser₂, hp₂, hw₂⟩ := wrote_append hw₁ hn hl
    exact ⟨ser₂, by rw [Item.put, putBytes, hp₁, Option.bind_some, hp₂], hw₂⟩

theorem wrote_putAll {items : List Item} :
    ∀ {ser : Serializer} {bs : List UInt8}, Wrote ser bs →
      (bs ++ encodeAll items).length ≤ outputLimit →
      ∃ ser', putAll items ser = some ser' ∧ Wrote ser' (bs ++ encodeAll items) := by
  induction items with
  | nil => exact fun {ser bs} h _ => ⟨ser, rfl, by simpa [encodeAll] using h⟩
  | cons it items ih =>
    intro ser bs h hl
    rw [encodeAll, List.flatMap_cons, ← List.append_assoc] at hl ⊢
    have hl' := hl
    rw [List.length_append] at hl'
    obtain ⟨ser₁, hp₁, hw₁⟩ := wrote_put h it (by omega)
    obtain ⟨ser₂, hp₂, hw₂⟩ := ih hw₁ hl
    exact ⟨ser₂, by rw [putAll, hp₁, Option.bind_some, hp₂], hw₂⟩

/-! ### Reading -/

/-- The serializer reads the block that holds `bs`, and has read `p` of them. -/
structure Reads (ser : Serializer) (bs : List UInt8) (p : Nat) : Prop where
  holds : ser.buf.Holds bs
  limit : bs.length ≤ outputLimit
  pos : ser.pos.toNat = p
  le : p ≤ bs.length

theorem reads_getRaw {ser : Serializer} {bs : List UInt8} {p size : Nat} (h : Reads ser bs p)
    (hs : p + size ≤ bs.length) :
    ∃ ser', getRaw size ser = some ((bs.drop p).take size, ser') ∧ Reads ser' bs (p + size) := by
  have hlim := h.limit
  rw [outputLimit] at hlim
  refine ⟨{ ser with pos := ser.pos + BitVec.ofNat 32 size }, ?_, h.holds, h.limit, ?_, hs⟩
  · rw [getRaw, h.pos, h.holds.read hs, Option.map_some]
  · rw [BitVec.toNat_add, h.pos, BitVec.toNat_ofNat]
    omega

/-- Nothing past the bytes held is ever read. -/
theorem getRaw_reads {ser ser' : Serializer} {bs val : List UInt8} {p size : Nat} (h : Reads ser bs p)
    (hg : getRaw size ser = some (val, ser')) : Reads ser' bs (p + size) ∧ val.length = size := by
  have hs : p + size ≤ bs.length := by
    rcases Nat.eq_zero_or_pos size with rfl | hpos
    · exact h.le
    · rw [getRaw, h.pos] at hg
      obtain ⟨cs, hr, -⟩ := Option.map_eq_some_iff.mp hg
      exact h.holds.read_le hr hpos
  obtain ⟨ser₁, hg₁, hr₁⟩ := reads_getRaw h hs
  obtain ⟨rfl, rfl⟩ := Prod.mk.inj (Option.some.inj (hg₁.symm.trans hg))
  exact ⟨hr₁, by simp; omega⟩

/-- What stands next in the bytes held is read. -/
theorem reads_next {ser : Serializer} {pre mid post : List UInt8}
    (h : Reads ser (pre ++ mid ++ post) pre.length) :
    ∃ ser', getRaw mid.length ser = some (mid, ser') ∧
      Reads ser' (pre ++ mid ++ post) (pre ++ mid).length := by
  obtain ⟨ser', hg, hr⟩ := @reads_getRaw _ _ _ mid.length h (by simp)
  rw [List.append_assoc, List.drop_left, List.take_left] at hg
  exact ⟨ser', hg, by rwa [List.length_append]⟩

theorem reads_getWords {ser : Serializer} {pre post : List UInt8} {width : Nat} {val : List Nat}
    (hval : ∀ v ∈ val, v < 256 ^ width)
    (h : Reads ser (pre ++ val.flatMap (leBytes width) ++ post) pre.length) :
    ∃ ser', getWords width val.length ser = some (val, ser') ∧
      Reads ser' (pre ++ val.flatMap (leBytes width) ++ post)
        (pre ++ val.flatMap (leBytes width)).length := by
  obtain ⟨ser', hg, hr⟩ := reads_next h
  rw [length_flatMap_leBytes] at hg
  exact ⟨ser', by rw [getWords, hg, Option.map_some, leWords_flatMap hval], hr⟩

theorem reads_getVarint {ser : Serializer} {pre post : List UInt8} {val : BitVec 32} (hv : val ≠ 0xff)
    (h : Reads ser (pre ++ encodeVarint val ++ post) pre.length) :
    ∃ ser', getVarint ser = some (val, ser') ∧
      Reads ser' (pre ++ encodeVarint val ++ post) (pre ++ encodeVarint val).length := by
  have hne : val.toNat ≠ 255 := fun he => hv (BitVec.eq_of_toNat_eq he)
  rw [encodeVarint] at h ⊢
  by_cases hle : val ≤ 0xff
  · rw [if_pos hle] at h ⊢
    have hle' : val.toNat ≤ 255 := BitVec.le_def.mp hle
    have hb : leValue [UInt8.ofNat val.toNat] = val.toNat := by
      simp [leValue]
      omega
    obtain ⟨ser', hg, hr⟩ := reads_next h
    refine ⟨ser', ?_, hr⟩
    rw [List.length_singleton] at hg
    rw [getVarint, hg, Option.bind_some]
    dsimp only
    rw [hb, if_neg hne, BitVec.ofNat_toNat, BitVec.setWidth_eq]
  · rw [if_neg hle] at h ⊢
    rw [List.append_cons] at h ⊢
    rw [List.append_assoc (pre ++ [0xff])] at h
    obtain ⟨ser₁, hg₁, hr₁⟩ := reads_next h
    rw [← List.append_assoc] at hr₁
    obtain ⟨ser₂, hg₂, hr₂⟩ := reads_next hr₁
    refine ⟨ser₂, ?_, hr₂⟩
    rw [List.length_singleton] at hg₁
    rw [length_leBytes] at hg₂
    have hff : leValue [(0xff : UInt8)] = 0xff := rfl
    rw [getVarint, hg₁, Option.bind_some]
    dsimp only
    rw [if_pos hff, hg₂, Option.map_some]
    dsimp only
    rw [leValue_leBytes_of_lt val.isLt, BitVec.ofNat_toNat, BitVec.setWidth_eq]

theorem map_ofNat_toNat {w : Nat} (val : List (BitVec w)) :
    (val.map BitVec.toNat).map (BitVec.ofNat w) = val := by
  rw [List.map_map]
  conv_rhs => rw [← List.map_id val]
  exact List.map_congr_left fun v _ => by simp

theorem toNat_mem_lt {w : Nat} (val : List (BitVec (8 * w))) :
    ∀ v ∈ val.map BitVec.toNat, v < 256 ^ w := by
  intro v hv
  obtain ⟨x, -, rfl⟩ := List.mem_map.mp hv
  have hx := x.isLt
  rwa [Nat.pow_mul] at hx

/-- An item that is not written through the varint 255 is read back. -/
theorem reads_get {ser : Serializer} {pre post : List UInt8} {it : Item} (hit : ¬ it.escapes)
    (h : Reads ser (pre ++ it.encode ++ post) pre.length) :
    ∃ ser', it.get ser = some (it, ser') ∧
      Reads ser' (pre ++ it.encode ++ post) (pre ++ it.encode).length := by
  cases it with
  | int val =>
    obtain ⟨ser', hg, hr⟩ := reads_getWords (toNat_mem_lt (w := 4) val) h
    rw [List.length_map] at hg
    exact ⟨ser', by simp only [Item.get, getInt, hg, Option.map_some, map_ofNat_toNat], hr⟩
  | long val =>
    obtain ⟨ser', hg, hr⟩ := reads_getWords (toNat_mem_lt (w := 8) val) h
    rw [List.length_map] at hg
    exact ⟨ser', by simp only [Item.get, getLong, hg, Option.map_some, map_ofNat_toNat], hr⟩
  | float val =>
    obtain ⟨ser', hg, hr⟩ := reads_getWords (toNat_mem_lt (w := 4) val) h
    rw [List.length_map] at hg
    exact ⟨ser', by simp only [Item.get, getFloat, hg, Option.map_some, map_ofNat_toNat], hr⟩
  | double val =>
    obtain ⟨ser', hg, hr⟩ := reads_getWords (toNat_mem_lt (w := 8) val) h
    rw [List.length_map] at hg
    exact ⟨ser', by simp only [Item.get, getDouble, hg, Option.map_some, map_ofNat_toNat], hr⟩
  | varint val =>
    obtain ⟨ser', hg, hr⟩ := reads_getVarint hit h
    exact ⟨ser', by simp only [Item.get, hg, Option.map_some], hr⟩
  | bytes val =>
    simp only [Item.encode] at h ⊢
    have hlim := h.limit
    simp only [List.length_append, outputLimit] at hlim
    have hn : (BitVec.ofNat 32 val.length).toNat = val.length := by
      rw [BitVec.toNat_ofNat, Nat.mod_eq_of_lt (by omega)]
    have hne : BitVec.ofNat 32 val.length ≠ 0xff := fun he => hit (by
      rw [Item.escapes, ← hn, he]
      rfl)
    rw [← List.append_assoc] at h ⊢
    rw [List.append_assoc (pre ++ _)] at h
    obtain ⟨ser₁, hg₁, hr₁⟩ := reads_getVarint hne h
    rw [← List.append_assoc] at hr₁
    obtain ⟨ser₂, hg₂, hr₂⟩ := reads_next hr₁
    refine ⟨ser₂, ?_, hr₂⟩
    simp only [Item.get, getBytes, hg₁, Option.bind_some, hn, hg₂, Option.map_some]

theorem reads_getAll {items : List Item} (hit : ∀ it ∈ items, ¬ it.escapes) :
    ∀ {ser : Serializer} {pre : List UInt8}, Reads ser (pre ++ encodeAll items) pre.length →
      ∃ ser', getAll items ser = some (items, ser') ∧
        Reads ser' (pre ++ encodeAll items) (pre ++ encodeAll items).length := by
  induction items with
  | nil => exact fun {ser pre} h => ⟨ser, rfl, by simpa [encodeAll] using h⟩
  | cons it items ih =>
    intro ser pre h
    rw [encodeAll, List.flatMap_cons, ← List.append_assoc] at h ⊢
    obtain ⟨ser₁, hg₁, hr₁⟩ := reads_get (hit it List.mem_cons_self) h
    obtain ⟨ser₂, hg₂, hr₂⟩ := ih (fun it hm => hit it (List.mem_cons_of_mem _ hm)) hr₁
    exact ⟨ser₂, by rw [getAll, hg₁, Option.bind_some, hg₂, Option.map_some], hr₂⟩

/-! ### What reading an item back consumes -/

theorem length_encodeVarint_le (val : BitVec 32) : (encodeVarint val).length ≤ 5 := by
  rw [encodeVarint]
  split <;> simp

/-- A varint takes at least as many bytes to read as to write, and more for 255. -/
theorem getVarint_reads {ser ser' : Serializer} {bs : List UInt8} {p : Nat} {val : BitVec 32}
    (h : Reads ser bs p) (hg : getVarint ser = some (val, ser')) :
    ∃ p', Reads ser' bs p' ∧ p + (encodeVarint val).length ≤ p' ∧
      (val = 0xff → p + (encodeVarint val).length < p') := by
  obtain ⟨⟨first, ser₁⟩, hg₁, hg'⟩ := Option.bind_eq_some_iff.mp hg
  obtain ⟨hr₁, hl₁⟩ := getRaw_reads h hg₁
  dsimp only at hg'
  split at hg'
  · obtain ⟨⟨rest, ser₂⟩, hg₂, he⟩ := Option.map_eq_some_iff.mp hg'
    obtain ⟨rfl, rfl⟩ := Prod.mk.inj he
    obtain ⟨hr₂, -⟩ := getRaw_reads hr₁ hg₂
    dsimp only
    refine ⟨p + 1 + 4, hr₂, ?_, fun hv => ?_⟩
    · have := length_encodeVarint_le (BitVec.ofNat 32 (leValue rest))
      omega
    · rw [hv]
      have : (encodeVarint 0xff).length = 1 := rfl
      omega
  · rename_i hff
    obtain ⟨rfl, rfl⟩ := Prod.mk.inj (Option.some.inj hg')
    have hlt : leValue first < 256 := by simpa [hl₁] using leValue_lt first
    have hle : BitVec.ofNat 32 (leValue first) ≤ 0xff := by
      rw [BitVec.le_def, BitVec.toNat_ofNat]
      have : (0xff : BitVec 32).toNat = 255 := rfl
      omega
    refine ⟨p + 1, hr₁, ?_, fun hv => absurd ?_ hff⟩
    · rw [encodeVarint, if_pos hle, List.length_singleton]
    · have := congrArg BitVec.toNat hv
      rw [BitVec.toNat_ofNat, Nat.mod_eq_of_lt (by omega)] at this
      exact this

theorem getWords_reads {ser ser' : Serializer} {bs : List UInt8} {p width count : Nat} {val : List Nat}
    (h : Reads ser bs p) (hg : getWords width count ser = some (val, ser')) :
    Reads ser' bs (p + width * count) := by
  obtain ⟨⟨raw, ser₁⟩, hg₁, he⟩ := Option.map_eq_some_iff.mp hg
  obtain ⟨-, rfl⟩ := Prod.mk.inj he
  exact (getRaw_reads h hg₁).1

theorem get_reads {ser ser' : Serializer} {bs : List UInt8} {p : Nat} {it : Item}
    (h : Reads ser bs p) (hg : it.get ser = some (it, ser')) :
    ∃ p', Reads ser' bs p' ∧ p + it.encode.length ≤ p' ∧ (it.escapes → p + it.encode.length < p') := by
  cases it with
  | int val =>
    obtain ⟨⟨v, ser₁⟩, hg₁, he⟩ := Option.map_eq_some_iff.mp hg
    obtain ⟨⟨w, ser₂⟩, hg₂, he₂⟩ := Option.map_eq_some_iff.mp hg₁
    obtain ⟨-, rfl⟩ := Prod.mk.inj he
    obtain ⟨-, rfl⟩ := Prod.mk.inj he₂
    exact ⟨_, getWords_reads h hg₂, by rw [Item.encode, length_flatMap_leBytes, List.length_map], False.elim⟩
  | long val =>
    obtain ⟨⟨v, ser₁⟩, hg₁, he⟩ := Option.map_eq_some_iff.mp hg
    obtain ⟨⟨w, ser₂⟩, hg₂, he₂⟩ := Option.map_eq_some_iff.mp hg₁
    obtain ⟨-, rfl⟩ := Prod.mk.inj he
    obtain ⟨-, rfl⟩ := Prod.mk.inj he₂
    exact ⟨_, getWords_reads h hg₂, by rw [Item.encode, length_flatMap_leBytes, List.length_map], False.elim⟩
  | float val =>
    obtain ⟨⟨v, ser₁⟩, hg₁, he⟩ := Option.map_eq_some_iff.mp hg
    obtain ⟨⟨w, ser₂⟩, hg₂, he₂⟩ := Option.map_eq_some_iff.mp hg₁
    obtain ⟨-, rfl⟩ := Prod.mk.inj he
    obtain ⟨-, rfl⟩ := Prod.mk.inj he₂
    exact ⟨_, getWords_reads h hg₂, by rw [Item.encode, length_flatMap_leBytes, List.length_map], False.elim⟩
  | double val =>
    obtain ⟨⟨v, ser₁⟩, hg₁, he⟩ := Option.map_eq_some_iff.mp hg
    obtain ⟨⟨w, ser₂⟩, hg₂, he₂⟩ := Option.map_eq_some_iff.mp hg₁
    obtain ⟨-, rfl⟩ := Prod.mk.inj he
    obtain ⟨-, rfl⟩ := Prod.mk.inj he₂
    exact ⟨_, getWords_reads h hg₂, by rw [Item.encode, length_flatMap_leBytes, List.length_map], False.elim⟩
  | varint val =>
    obtain ⟨⟨v, ser₁⟩, hg₁, he⟩ := Option.map_eq_some_iff.mp hg
    obtain ⟨hv, rfl⟩ := Prod.mk.inj he
    obtain rfl := Item.varint.inj hv
    exact getVarint_reads h hg₁
  | bytes val =>
    obtain ⟨⟨v, ser₁⟩, hg₁, he⟩ := Option.map_eq_some_iff.mp hg
    obtain ⟨hv, rfl⟩ := Prod.mk.inj he
    dsimp only at hv
    obtain rfl := Item.bytes.inj hv
    obtain ⟨⟨size, ser₂⟩, hg₂, hg₃⟩ := Option.bind_eq_some_iff.mp hg₁
    obtain ⟨p₂, hr₂, hle, hlt⟩ := getVarint_reads h hg₂
    obtain ⟨hr₃, hl₃⟩ := getRaw_reads hr₂ hg₃
    have hl₃ : v.length = size.toNat := hl₃
    have hsize : BitVec.ofNat 32 v.length = size := by
      rw [hl₃, BitVec.ofNat_toNat, BitVec.setWidth_eq]
    refine ⟨_, hr₃, ?_, fun hesc => ?_⟩
    · rw [Item.encode, hsize, List.length_append]
      omega
    · have hff : size = 0xff := by
        rw [← hsize, show v.length = 0xff from hesc]
        rfl
      have := hlt hff
      rw [Item.encode, hsize, List.length_append]
      omega

theorem getAll_reads {items : List Item} :
    ∀ {ser ser' : Serializer} {bs : List UInt8} {p : Nat}, Reads ser bs p →
      getAll items ser = some (items, ser') →
      ∃ p', Reads ser' bs p' ∧ p + (encodeAll items).length ≤ p' ∧
        ((∃ it ∈ items, it.escapes) → p + (encodeAll items).length < p') := by
  induction items with
  | nil =>
    intro ser ser' bs p h hg
    obtain ⟨-, rfl⟩ := Prod.mk.inj (Option.some.inj hg)
    exact ⟨p, h, le_rfl, fun ⟨it, hm, _⟩ => by cases hm⟩
  | cons it items ih =>
    intro ser ser' bs p h hg
    obtain ⟨⟨it₁, ser₁⟩, hg₁, hg₂⟩ := Option.bind_eq_some_iff.mp hg
    obtain ⟨⟨items₂, ser₂⟩, hg₃, he⟩ := Option.map_eq_some_iff.mp hg₂
    obtain ⟨hl, rfl⟩ := Prod.mk.inj he
    obtain ⟨rfl, rfl⟩ := List.cons.inj hl
    obtain ⟨p₁, hr₁, hle₁, hlt₁⟩ := get_reads h hg₁
    obtain ⟨p₂, hr₂, hle₂, hlt₂⟩ := ih hr₁ hg₃
    dsimp only at *
    have hl : (encodeAll (it₁ :: items₂)).length = it₁.encode.length + (encodeAll items₂).length := by
      rw [encodeAll, List.flatMap_cons, List.length_append, encodeAll]
    rw [hl]
    refine ⟨p₂, hr₂, by omega, ?_⟩
    rintro ⟨it', hm, hesc⟩
    rcases List.mem_cons.mp hm with rfl | hm
    · have := hlt₁ hesc
      omega
    · have := hlt₂ ⟨it', hm, hesc⟩
      omega

/-! ### Round trip -/

/-- Writing the items from an empty buffer of `n` bytes, and reading the built
buffer with the matching calls, returns them and ends at the built size. -/
def RoundTrips (n : BitVec 32) (items : List Item) : Prop :=
  ∃ ser, putAll items (prepareSer n) = some ser ∧
    ∃ ser', getAll items (prepareUnser (build ser).1 (build ser).2) = some (items, ser') ∧
      ser'.pos = (build ser).2

/-! A size with its sign bit set gets no buffer, and a capacity that is never
exceeded: only items without any byte can be written. -/

theorem putRaw_null {ser : Serializer} (hb : ser.buf = []) (val : List UInt8) :
    putRaw ser val = if ser.pos.toNat + val.length = 0 then some ser else none := by
  obtain ⟨buf, cap, pos⟩ := ser
  obtain rfl : buf = [] := hb
  rw [putRaw, Block.write]
  dsimp only
  split
  · rename_i h0
    have h0 : pos.toNat + val.length = 0 := by simpa using h0
    obtain rfl : val = [] := List.length_eq_zero_iff.mp (by omega)
    rw [if_pos h0]
    simp
  · rename_i h0
    rw [if_neg (by simpa using h0)]
    rfl

theorem ensureBuf_null {n remain : BitVec 32} (hn : n.msb = true) (hr : remain.toNat ≤ outputLimit) :
    ensureBuf ⟨[], n, 0⟩ remain = ⟨[], n, 0⟩ := by
  have hge := BitVec.msb_eq_true_iff_two_mul_ge.mp hn
  rw [outputLimit] at hr
  refine if_neg fun hlt => ?_
  have hlt : n - 0#32 < remain := hlt
  rw [BitVec.sub_zero, BitVec.lt_def] at hlt
  omega

theorem put_null {n : BitVec 32} (hn : n.msb = true) {it : Item} (hl : it.encode.length ≤ outputLimit) :
    it.put ⟨[], n, 0⟩ = if it.encode = [] then some ⟨[], n, 0⟩ else none := by
  have hwords : ∀ (width : Nat) (val : List Nat),
      (val.flatMap (leBytes width)).length ≤ outputLimit →
      putWords width val ⟨[], n, 0⟩ =
        if val.flatMap (leBytes width) = [] then some ⟨[], n, 0⟩ else none := by
    intro width val hl
    have hlen := length_flatMap_leBytes width val
    rw [outputLimit] at hl
    rw [putWords, if_pos (by omega), ensureBuf_null hn (by
      rw [BitVec.toNat_ofNat, outputLimit]
      omega), putRaw_null rfl]
    exact if_congr (by
      rw [show (0 : BitVec 32).toNat = 0 from rfl, Nat.zero_add, List.length_eq_zero_iff]) rfl rfl
  have hvarint : ∀ val : BitVec 32, putVarint val ⟨[], n, 0⟩ = none := by
    intro val
    rw [putVarint, ensureBuf_null hn (by decide), ensureBuf_null hn (by decide), putRaw_null rfl,
      putRaw_null rfl]
    split <;> rfl
  have hne : ∀ val : BitVec 32, encodeVarint val ≠ [] := by
    intro val
    rw [encodeVarint]
    split <;> exact List.cons_ne_nil _ _
  cases it with
  | int val => exact hwords 4 _ hl
  | long val => exact hwords 8 _ hl
  | float val => exact hwords 4 _ hl
  | double val => exact hwords 8 _ hl
  | varint val => rw [Item.put, hvarint, Item.encode, if_neg (hne val)]
  | bytes val =>
    rw [Item.put, putBytes, hvarint, Item.encode, if_neg fun he => hne _ (List.append_eq_nil_iff.mp he).1]
    rfl

theorem putAll_null {n : BitVec 32} (hn : n.msb = true) {items : List Item}
    (hl : (encodeAll items).length ≤ outputLimit) :
    putAll items ⟨[], n, 0⟩ = if encodeAll items = [] then some ⟨[], n, 0⟩ else none := by
  induction items with
  | nil => rfl
  | cons it items ih =>
    rw [encodeAll, List.flatMap_cons] at hl ⊢
    rw [List.length_append] at hl
    rw [putAll, put_null hn (by omega)]
    by_cases he : it.encode = []
    · rw [if_pos he, Option.bind_some, ih (by rw [encodeAll]; omega), he, List.nil_append, encodeAll]
    · rw [if_neg he, if_neg fun h => he (List.append_eq_nil_iff.mp h).1]
      rfl

theorem prepareSer_null {n : BitVec 32} (hn : n.msb = true) : prepareSer n = ⟨[], n, 0⟩ := by
  have hge := BitVec.msb_eq_true_iff_two_mul_ge.mp hn
  have hsize : ¬ (sizeT n).toNat < 2 ^ 63 := by
    rw [sizeT, BitVec.toNat_signExtend, hn]
    simp only [BitVec.toNat_setWidth, if_true]
    omega
  rw [prepareSer, realloc, if_neg hsize]

/-- The buffer can be written: its size is not negative, or nothing is written. -/
def Writable (n : BitVec 32) (items : List Item) : Prop := n.msb = false ∨ encodeAll items = []

theorem wrote_of_writable {n : BitVec 32} {items : List Item}
    (hl : (encodeAll items).length ≤ outputLimit) (hw : Writable n items) :
    ∃ ser, putAll items (prepareSer n) = some ser ∧
      Reads (prepareUnser (build ser).1 (build ser).2) (encodeAll items) 0 ∧
      (build ser).2.toNat = (encodeAll items).length := by
  cases hn : n.msb with
  | false =>
    obtain ⟨ser, hput, hw⟩ := wrote_putAll (wrote_prepareSer hn) (by simpa using hl)
    rw [List.nil_append] at hw
    exact ⟨ser, hput, ⟨hw.holds, hl, rfl, Nat.zero_le _⟩, hw.pos⟩
  | true =>
    have he := hw.resolve_left (by simp [hn])
    refine ⟨⟨[], n, 0⟩, ?_, ⟨?_, hl, rfl, Nat.zero_le _⟩, ?_⟩
    · rw [prepareSer_null hn, putAll_null hn hl, if_pos he]
    · rw [he]
      exact Block.Holds.malloc 0
    · rw [he]
      rfl

/-- An output of at most one gibibyte is read back exactly when no item of it is
the varint 255 or a byte string of 255 bytes. -/
theorem roundTrips_iff (n : BitVec 32) (items : List Item)
    (hl : (encodeAll items).length ≤ outputLimit) :
    RoundTrips n items ↔ Writable n items ∧ ∀ it ∈ items, ¬ it.escapes := by
  constructor
  · rintro ⟨ser, hput, ser', hget, -⟩
    have hw : Writable n items := by
      by_contra hw
      obtain ⟨hn, he⟩ := not_or.mp hw
      have hn : n.msb = true := by simpa using hn
      rw [prepareSer_null hn, putAll_null hn hl, if_neg he] at hput
      cases hput
    refine ⟨hw, fun it hm hesc => ?_⟩
    obtain ⟨ser₁, hput₁, hr, -⟩ := wrote_of_writable hl hw
    obtain rfl := Option.some.inj (hput₁.symm.trans hput)
    -- the reader would have to go past the end of the output
    obtain ⟨p, hr', -, hlt⟩ := getAll_reads hr hget
    have := hlt ⟨it, hm, hesc⟩
    have := hr'.le
    omega
  · rintro ⟨hw, hit⟩
    obtain ⟨ser, hput, hr, hsize⟩ := wrote_of_writable hl hw
    obtain ⟨ser', hget, hr'⟩ := @reads_getAll items hit _ [] (by simpa using hr)
    refine ⟨ser, hput, ser', hget, BitVec.eq_of_toNat_eq ?_⟩
    rw [hr'.pos, List.nil_append, hsize]

theorem roundTrips_mixed :
    RoundTrips 8 [.varint 254, .bytes [1, 2, 3], .int [7, 8], .varint 256] :=
  (roundTrips_iff 8 _ (by decide)).mpr ⟨.inl rfl, by simp [Item.escapes]⟩

/-- 255 is written as one byte and read as the start of five. -/
theorem not_roundTrips_varint : ¬ RoundTrips 8 [.varint 255] := by
  rintro ⟨ser, hput, ser', hget, -⟩
  obtain rfl := Option.some.inj hput
  cases hget

end PxpRpc.Codec.Native
