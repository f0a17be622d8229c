import PxpRpc.Codec.NativeRoundTrip

/-!
# How far the C serializer can grow

`_pxprpc_ensure_buf` takes one half more than it needs, as an `int`. Where that is
too large, `realloc` fails or gives less than is needed.
-/
namespace PxpRpc.Codec.Native

open PxpRpc.Lib

/-- The bytes that are put behind one call of `_pxprpc_ensure_buf` each. -/
def Item.pieces : Item → List (List UInt8)
  | .int val => [(val.map BitVec.toNat).flatMap (leBytes 4)]
  | .long val => [(val.map BitVec.toNat).flatMap (leBytes 8)]
  | .float val => [(val.map BitVec.toNat).flatMap (leBytes 4)]
  | .double val => [(val.map BitVec.toNat).flatMap (leBytes 8)]
  | .varint val => [encodeVarint val]
  | .bytes val => [encodeVarint (BitVec.ofNat 32 val.length), val]

def allPieces (items : List Item) : List (List UInt8) := items.flatMap Item.pieces

theorem flatten_pieces (item : Item) : item.pieces.flatten = item.encode := by
  cases item <;> simp [Item.pieces, Item.encode]

theorem flatten_allPieces (items : List Item) : (allPieces items).flatten = encodeAll items := by
  unfold allPieces encodeAll
  rw [List.flatMap_def, List.flatMap_def, List.flatten_flatten, List.map_map]
  exact congrArg List.flatten (List.map_congr_left fun item _ => flatten_pieces item)

/-- The capacity is the size of the buffer, and the position is behind as many bytes. -/
structure Located (ser : Serializer) (bs : List UInt8) : Prop where
  cap : ser.cap.toNat = ser.buf.length
  pos : ser.pos.toNat = bs.length
  length_le : bs.length ≤ ser.buf.length

theorem Wrote.located {ser : Serializer} {bs : List UInt8} (h : Wrote ser bs) : Located ser bs :=
  ⟨h.cap, h.pos, h.holds.1⟩

namespace Located

variable {ser : Serializer} {bs : List UInt8}

theorem pos_le (h : Located ser bs) : ser.pos.toNat ≤ ser.cap.toNat := by
  rw [h.pos, h.cap]
  exact h.length_le

theorem ensureBuf_room (h : Located ser bs) {n : BitVec 32} {capacity : Nat}
    (hg : grow ser.buf.length bs.length n.toNat = some capacity) :
    Located (ensureBuf ser n) bs ∧ (Wrote ser bs → Wrote (ensureBuf ser n) bs) ∧
      (ensureBuf ser n).buf.length = capacity ∧ bs.length + n.toNat ≤ capacity := by
  have hgrow := hg
  rw [← h.pos, ← h.cap] at hgrow
  obtain ⟨hcap, henough, -, hbuf⟩ := ensureBuf_some h.pos_le hgrow
  rw [h.pos] at henough
  have hlen : (ensureBuf ser n).buf.length = capacity := by
    rcases hbuf with ⟨hbuf, rfl⟩ | ⟨hbuf, -, -⟩
    · rw [hbuf, h.cap]
    · rw [hbuf, Block.length_realloc]
  refine ⟨⟨by rw [hcap, hlen], by rw [ensureBuf_pos, h.pos], by omega⟩, fun hw => (hw.ensureBuf hg).1, hlen, henough⟩

/-- Otherwise there is no room for the piece. -/
theorem ensureBuf_full (h : Located ser bs) {n : BitVec 32}
    (hg : grow ser.buf.length bs.length n.toNat = none) :
    (ensureBuf ser n).buf.length < bs.length + n.toNat := by
  rw [← h.pos, ← h.cap] at hg
  rw [← h.pos]
  exact ensureBuf_none h.pos_le hg

theorem length_ensureBuf_lt (h : Located ser bs) (n : BitVec 32) : (ensureBuf ser n).buf.length < 2 ^ 32 := by
  have hcap := ser.cap.isLt
  have hlen := h.cap
  unfold ensureBuf
  split
  · have hnew := length_realloc_lt ser.buf (oneHalfMore (ser.pos + n))
    exact hnew.trans (by decide)
  · omega

theorem putRaw (h : Located ser bs) (piece : List UInt8) (hroom : bs.length + piece.length ≤ ser.buf.length) :
    ∃ ser', putRaw ser piece = some ser' ∧ Located ser' (bs ++ piece) ∧
      (Wrote ser bs → Wrote ser' (bs ++ piece)) ∧ ser'.buf.length = ser.buf.length := by
  have hlt := ser.cap.isLt
  have hcap := h.cap
  have hw : ser.buf.write ser.pos.toNat piece = some _ := if_pos (by rw [h.pos]; exact hroom)
  have hlen := Block.length_write hw
  refine ⟨_, by rw [Native.putRaw, hw]; rfl, ⟨?_, ?_, ?_⟩, fun hwrote => ?_, hlen⟩
  · dsimp only
    rw [hlen, hcap]
  · dsimp only
    rw [BitVec.toNat_add, h.pos, BitVec.toNat_ofNat, List.length_append]
    omega
  · dsimp only
    rw [hlen, List.length_append]
    exact hroom
  · obtain ⟨ser', hput, hwrote', -⟩ := wrote_putRaw hwrote piece hroom
    rw [Native.putRaw, hw] at hput
    rwa [← Option.some.inj hput] at hwrote'

end Located

theorem putRaw_full {ser : Serializer} {val : List UInt8} (h : ser.buf.length < ser.pos.toNat + val.length) :
    putRaw ser val = none := by
  rw [putRaw, Block.write, if_neg (Nat.not_le_of_lt h)]
  rfl

/-- The pieces are put where they fit, and otherwise the call fails. -/
def Puts (put : Serializer → Option Serializer) (pieces : List (List UInt8)) : Prop :=
  ∀ (ser : Serializer) (bs : List UInt8), Located ser bs →
    (∃ ser', put ser = some ser' ∧ Located ser' (bs ++ pieces.flatten) ∧
      (Wrote ser bs → Wrote ser' (bs ++ pieces.flatten)) ∧
      ∀ ns, Fits ser.buf.length bs.length (pieces.map List.length ++ ns) ↔
        Fits ser'.buf.length (bs ++ pieces.flatten).length ns) ∨
    (put ser = none ∧ ∀ ns, ¬ Fits ser.buf.length bs.length (pieces.map List.length ++ ns))

namespace Puts

variable {f g : Serializer → Option Serializer} {ps qs : List (List UInt8)}

theorem nil : Puts some [] := by
  intro ser bs h
  rw [List.flatten_nil, List.append_nil]
  exact .inl ⟨ser, rfl, h, id, fun ns => Iff.rfl⟩

theorem append (hf : Puts f ps) (hg : Puts g qs) : Puts (fun ser => (f ser).bind g) (ps ++ qs) := by
  intro ser bs h
  dsimp only
  rcases hf ser bs h with ⟨ser₁, h₁, hl₁, hw₁, hfit₁⟩ | ⟨h₁, hfit₁⟩
  · rw [h₁, Option.bind_some]
    rcases hg ser₁ _ hl₁ with ⟨ser₂, h₂, hl₂, hw₂, hfit₂⟩ | ⟨h₂, hfit₂⟩
    · rw [List.flatten_append, ← List.append_assoc]
      refine .inl ⟨ser₂, h₂, hl₂, fun hw => hw₂ (hw₁ hw), fun ns => ?_⟩
      rw [List.map_append, List.append_assoc, hfit₁, hfit₂]
    · refine .inr ⟨h₂, fun ns => ?_⟩
      rw [List.map_append, List.append_assoc, hfit₁]
      exact hfit₂ ns
  · refine .inr ⟨by rw [h₁, Option.bind_none], fun ns => ?_⟩
    rw [List.map_append, List.append_assoc]
    exact hfit₁ _

/-- Pieces are put one at a time, each where the capacity can grow for it. -/
theorem single {piece : List UInt8}
    (hroom : ∀ {ser bs capacity}, Located ser bs → grow ser.buf.length bs.length piece.length = some capacity →
      ∃ ser', f ser = some ser' ∧ Located ser' (bs ++ piece) ∧ (Wrote ser bs → Wrote ser' (bs ++ piece)) ∧
        ser'.buf.length = capacity)
    (hfull : ∀ {ser bs}, Located ser bs → grow ser.buf.length bs.length piece.length = none → f ser = none) :
    Puts f [piece] := by
  intro ser bs h
  cases hg : grow ser.buf.length bs.length piece.length with
  | none =>
    refine .inr ⟨hfull h hg, fun ns hf => ?_⟩
    obtain ⟨capacity, hc, -⟩ := hf
    rw [hg] at hc
    cases hc
  | some capacity =>
    obtain ⟨ser', hput, hl, hw, hlen⟩ := hroom h hg
    rw [List.flatten_singleton]
    refine .inl ⟨ser', hput, hl, hw, fun ns => ?_⟩
    rw [hlen, List.length_append]
    constructor
    · rintro ⟨capacity', hc, hf⟩
      obtain rfl := Option.some.inj (hg.symm.trans hc)
      exact hf
    · exact fun hf => ⟨capacity, hg, hf⟩

theorem ensured {piece : List UInt8} {n : BitVec 32} (hn : n.toNat = piece.length) :
    Puts (fun ser => putRaw (ensureBuf ser n) piece) [piece] := by
  apply single
  · intro ser bs capacity h hg
    rw [← hn] at hg
    obtain ⟨hl, hw, hlen, hroom⟩ := h.ensureBuf_room hg
    obtain ⟨ser', hput, hl', hw', hlen'⟩ := hl.putRaw piece (by omega)
    exact ⟨ser', hput, hl', fun hwrote => hw' (hw hwrote), hlen'.trans hlen⟩
  · intro ser bs h hg
    rw [← hn] at hg
    refine putRaw_full ?_
    rw [ensureBuf_pos, h.pos, ← hn]
    exact h.ensureBuf_full hg

theorem varint (val : BitVec 32) : Puts (putVarint val) [encodeVarint val] := by
  unfold encodeVarint
  by_cases hv : val ≤ 0xff
  · have heq : putVarint val = fun ser => putRaw (ensureBuf ser 1) [UInt8.ofNat val.toNat] :=
      funext fun ser => if_pos hv
    rw [if_pos hv, heq]
    exact ensured rfl
  · have heq : putVarint val = fun ser =>
        (putRaw (ensureBuf ser 5) [0xff]).bind fun ser => putRaw ser (leBytes 4 val.toNat) :=
      funext fun ser => if_neg hv
    have h5 : (0xff :: leBytes 4 val.toNat).length = (5 : BitVec 32).toNat := by
      rw [List.length_cons, length_leBytes]
      rfl
    rw [if_neg hv, heq]
    apply single
    · intro ser bs capacity h hg
      rw [h5] at hg
      obtain ⟨hl, hw, hlen, hroom⟩ := h.ensureBuf_room hg
      change bs.length + 5 ≤ capacity at hroom
      obtain ⟨ser₁, h₁, hl₁, hw₁, hlen₁⟩ := hl.putRaw [0xff] (by rw [List.length_singleton]; omega)
      obtain ⟨ser₂, h₂, hl₂, hw₂, hlen₂⟩ := hl₁.putRaw (leBytes 4 val.toNat)
        (by rw [List.length_append, List.length_singleton, length_leBytes]; omega)
      rw [List.append_assoc] at hl₂ hw₂
      exact ⟨ser₂, by rw [h₁, Option.bind_some, h₂], hl₂, fun hwrote => hw₂ (hw₁ (hw hwrote)), by omega⟩
    · intro ser bs h hg
      rw [h5] at hg
      have hlt := h.ensureBuf_full hg
      change _ < bs.length + 5 at hlt
      cases hfirst : putRaw (ensureBuf ser 5) [0xff] with
      | none => rfl
      | some ser₁ =>
        -- the first byte may fit where the word does not
        obtain ⟨buf, hwrite, rfl⟩ := Option.map_eq_some_iff.mp hfirst
        have hlen := Block.length_write hwrite
        have hsmall := h.length_ensureBuf_lt 5
        unfold Block.write at hwrite
        split at hwrite
        swap
        · cases hwrite
        rename_i hbyte
        rw [ensureBuf_pos, h.pos, List.length_singleton] at hbyte
        rw [Option.bind_some]
        refine putRaw_full ?_
        simp only [ensureBuf_pos, BitVec.toNat_add, BitVec.toNat_ofNat, h.pos, List.length_singleton,
          length_leBytes, hlen]
        omega

/-- One piece of words. -/
theorem words {width : Nat} {val : List Nat} (h : width * val.length < 2 ^ 31) :
    Puts (putWords width val) [val.flatMap (leBytes width)] := by
  have heq : putWords width val = fun ser =>
      putRaw (ensureBuf ser (BitVec.ofNat 32 (width * val.length))) (val.flatMap (leBytes width)) :=
    funext fun ser => if_pos h
  rw [heq]
  refine ensured ?_
  rw [BitVec.toNat_ofNat, length_flatMap_leBytes]
  omega

theorem bytes {val : List UInt8} (h : val.length < 2 ^ 32) :
    Puts (putBytes val) [encodeVarint (BitVec.ofNat 32 val.length), val] := by
  have hn : (BitVec.ofNat 32 val.length).toNat = val.length := by
    rw [BitVec.toNat_ofNat]
    omega
  exact (varint _).append (ensured hn)

end Puts

/-- Counts of words and lengths whose products and sizes are in range. -/
def Item.Sized : Item → Prop
  | .int val => 4 * val.length < 2 ^ 31
  | .long val => 8 * val.length < 2 ^ 31
  | .float val => 4 * val.length < 2 ^ 31
  | .double val => 8 * val.length < 2 ^ 31
  | .varint _ => True
  | .bytes val => val.length < 2 ^ 32

theorem puts_put {item : Item} (h : item.Sized) : Puts item.put item.pieces := by
  cases item with
  | int val | float val => exact Puts.words (by rw [List.length_map]; exact h)
  | long val | double val => exact Puts.words (by rw [List.length_map]; exact h)
  | varint val => exact Puts.varint val
  | bytes val => exact Puts.bytes h

theorem puts_putAll {items : List Item} (h : ∀ item ∈ items, item.Sized) : Puts (putAll items) (allPieces items) := by
  induction items with
  | nil => exact Puts.nil
  | cons item items ih =>
    have hpieces : allPieces (item :: items) = item.pieces ++ allPieces items := List.flatMap_cons
    rw [hpieces]
    exact (puts_put (h item List.mem_cons_self)).append (ih fun i hi => h i (List.mem_cons_of_mem _ hi))

/-! ### All put calls -/

/-- What is put has a count in range; `size` is 32 bits wide. -/
theorem sized_of_put {item : Item} {ser ser' : Serializer} (h : item.put ser = some ser')
    (hlt : item.encode.length < 2 ^ 32) : item.Sized := by
  have hwords : ∀ {width : Nat} {val : List Nat}, putWords width val ser = some ser' → width * val.length < 2 ^ 31 := by
    intro width val hput
    unfold putWords at hput
    split at hput
    · assumption
    · cases hput
  cases item with
  | int val | long val | float val | double val =>
    have hlen := hwords h
    rwa [List.length_map] at hlen
  | varint val => exact trivial
  | bytes val =>
    rw [Item.encode, List.length_append] at hlt
    change val.length < 2 ^ 32
    omega

theorem sized_of_putAll {items : List Item} : ∀ {ser ser' : Serializer}, putAll items ser = some ser' →
    (encodeAll items).length < 2 ^ 32 → ∀ item ∈ items, item.Sized := by
  induction items with
  | nil => exact fun _ _ item hi => absurd hi List.not_mem_nil
  | cons item items ih =>
    intro ser ser' h hlt
    have hcons : encodeAll (item :: items) = item.encode ++ encodeAll items := List.flatMap_cons
    rw [hcons, List.length_append] at hlt
    obtain ⟨ser₁, hput, hrest⟩ := Option.bind_eq_some_iff.mp h
    exact List.forall_mem_cons.mpr ⟨sized_of_put hput (by omega), ih hrest (by omega)⟩

/-- The put calls write where there is room. -/
theorem putAll_isSome_iff {ser : Serializer} {bs : List UInt8} {items : List Item} (h : Located ser bs)
    (hlt : (encodeAll items).length < 2 ^ 32) : (putAll items ser).isSome ↔ (∀ item ∈ items, item.Sized) ∧
      Fits ser.buf.length bs.length ((allPieces items).map List.length) := by
  constructor
  · intro hsome
    obtain ⟨ser', hput⟩ := Option.isSome_iff_exists.mp hsome
    have hsized := sized_of_putAll hput hlt
    refine ⟨hsized, ?_⟩
    rcases puts_putAll hsized ser bs h with ⟨_, -, -, -, hfit⟩ | ⟨hnone, -⟩
    · rw [← List.append_nil (List.map _ _)]
      exact (hfit []).mpr trivial
    · rw [hnone] at hput
      cases hput
  · rintro ⟨hsized, hfits⟩
    rcases puts_putAll hsized ser bs h with ⟨ser', hput, -⟩ | ⟨-, hfit⟩
    · rw [hput]
      rfl
    · rw [← List.append_nil (List.map _ _)] at hfits
      exact absurd hfits (hfit [])

/-- A serializer gets the capacity that it needs, and `realloc` is asked for that, if and only if
the bytes fit already, or one half more than what is needed is an `int`. The put calls write inside
the buffer if and only if each of them has room so, and its product of width and count is an `int`. -/
theorem ensureBuf_grows_iff (ser : Serializer) :
    (∀ remain : BitVec 32, ser.pos.toNat ≤ ser.cap.toNat → ser.pos.toNat + remain.toNat < 2 ^ 32 →
      (Grown ser remain ↔ (grow ser.cap.toNat ser.pos.toNat remain.toNat).isSome)) ∧
    ∀ items : List Item, ser.cap.toNat = ser.buf.length → ser.pos.toNat ≤ ser.cap.toNat →
      ser.pos.toNat + (encodeAll items).length < 2 ^ 32 →
      ((putAll items ser).isSome ↔ (∀ item ∈ items, item.Sized) ∧
        Fits ser.cap.toNat ser.pos.toNat ((allPieces items).map List.length)) := by
  refine ⟨fun remain h _ => grown_iff h, fun items hcap hpos hlt => ?_⟩
  have hlen : (List.replicate ser.pos.toNat (0 : UInt8)).length = ser.pos.toNat := List.length_replicate
  have hl : Located ser (List.replicate ser.pos.toNat 0) := ⟨hcap, hlen.symm, by rw [hlen, ← hcap]; exact hpos⟩
  rw [putAll_isSome_iff hl (by omega), hlen, ← hcap]

/-- Five words into a buffer of sixteen bytes. -/
theorem ensureBuf_grows_words :
    Grown (prepareSer 16) 20 ∧ (putAll [.int [1, 2, 3, 4, 5]] (prepareSer 16)).isSome := by
  refine ⟨((ensureBuf_grows_iff (prepareSer 16)).1 20 (by decide) (by decide)).mpr (by decide),
    ((ensureBuf_grows_iff (prepareSer 16)).2 [.int [1, 2, 3, 4, 5]] (by decide) (by decide) (by decide)).mpr
      ⟨?_, 30, by decide, trivial⟩⟩
  rintro item (_ | ⟨_, ⟨⟩⟩)
  change 4 * 5 < 2 ^ 31
  decide

/-- For a gibibyte and a half `realloc` is asked for a negative size, and for three gibibytes the
capacity is less than that. -/
theorem ensureBuf_overflows : ¬ Grown (prepareSer 16) 0x60000000 ∧ ¬ Grown (prepareSer 16) 0xc0000000 ∧
    (ensureBuf (prepareSer 16) 0xc0000000).cap.toNat < 0xc0000000 := by
  have hless : (ensureBuf (prepareSer 16) 0xc0000000).cap.toNat < 0xc0000000 := by decide
  refine ⟨fun h => ?_, fun h => ?_, hless⟩
  · have hsize := h.requested (sizeT (oneHalfMore 0x60000000)) (by decide)
    revert hsize
    decide
  · exact absurd h.enough (Nat.not_le_of_lt hless)

end PxpRpc.Codec.Native
