import PxpRpc.Codec.WireTable

/-!
# Reading when the bytes do not suffice

Numbers are not read beyond the end. Byte strings may be, and then the serializer is
past the end, where nothing more is read.
-/
namespace PxpRpc.Codec.Wire

open PxpRpc.Lib
open PxpRpc.Codec.Java (Cell Row RowMatches ValueType columnCells tableCells)

variable {S : Type}

/-- `spill bs n`: what is taken for `n` bytes when fewer, `bs`, are left. -/
structure Reader.Ends (R : Reader S) (Reads : S → List UInt8 → Prop) (Past : S → Prop)
    (spill : List UInt8 → Nat → Option (List UInt8)) : Prop where
  raw : ∀ {ser bs n}, Reads ser bs → bs.length < n → R.getRaw n ser = none
  content : ∀ {ser bs n}, Reads ser bs → bs.length < n →
    ∃ ser', Past ser' ∧ R.getContent n ser = (spill bs n).map (·, ser')
  past : ∀ {ser n}, Past ser → 0 < n → R.getRaw n ser = none
  not_reads : ∀ {ser bs}, Past ser → ¬ Reads ser bs

namespace Item

/-- The bytes behind the length of an item. -/
def content : Item → Option (List UInt8)
  | bytes b => some b
  | string s => some (utf8 s)
  | _ => none

/-- What is taken for the content is accepted. -/
def Takes (R : Reader S) (b : List UInt8) : Item → Prop
  | string _ => (R.decode b).isSome
  | _ => True

/-- The bytes end inside the content of the item, and what is taken for it is accepted. -/
def CutOpen (R : Reader S) (spill : List UInt8 → Nat → Option (List UInt8)) (item : Item) (q : List UInt8) : Prop :=
  ∃ c, item.content = some c ∧ ∃ j < c.length, q = varintBytes c.length ++ c.take j ∧
    ∃ b, spill (c.take j) c.length = some b ∧ item.Takes R b

end Item

/-- The bytes end inside the content of the last item. -/
def CutLast (R : Reader S) (spill : List UInt8 → Nat → Option (List UInt8)) (items : List Item) (q : List UInt8) :
    Prop :=
  ∃ pre item q', items = pre ++ [item] ∧ q = encodeAll pre ++ q' ∧ item.CutOpen R spill q'

/-- The flag and the number of rows. -/
def Table.counts (t : Table) : List Item := [.varint t.flag, .varint t.rows.length]

/-- The bytes end inside the types of the columns, which are taken for a declaration
behind which there is nothing to read. -/
def Table.CutTypes (R : Reader S) (spill : List UInt8 → Nat → Option (List UInt8)) (t : Table) (q : List UInt8) :
    Prop :=
  ∃ j < (utf8 t.columnsType).length,
    q = encodeAll t.counts ++ (varintBytes (utf8 t.columnsType).length ++ (utf8 t.columnsType).take j) ∧
    ∃ b types, spill ((utf8 t.columnsType).take j) (utf8 t.columnsType).length = some b ∧ R.decode b = some types ∧
      none ∉ R.columns types ∧ (R.columns types = [] ∨ t.names = none ∧ t.rows = [])

/-- The bytes, though they end too early, are those of a table. -/
def Table.CutAccepted (R : Reader S) (spill : List UInt8 → Nat → Option (List UInt8)) (t : Table)
    (q : List UInt8) : Prop :=
  t.CutTypes R spill q ∨ ∃ q', q = encodeAll t.header ++ q' ∧ CutLast R spill t.body q'

/-! ### One item -/

namespace Item

variable {R : Reader S} {spill : List UInt8 → Nat → Option (List UInt8)} {item : Item} {c q : List UInt8}

theorem cutOpen_iff (hc : item.content = some c) {j : Nat} (hj : j < c.length) :
    item.CutOpen R spill (varintBytes c.length ++ c.take j) ↔
      ∃ b, spill (c.take j) c.length = some b ∧ item.Takes R b := by
  constructor
  · rintro ⟨c', hc', j', hj', hq, hb⟩
    obtain rfl := Option.some.inj (hc.symm.trans hc')
    rwa [List.append_cancel_left hq]
  · exact fun hb => ⟨c, hc, j, hj, rfl, hb⟩

theorem not_cutOpen (hc : item.content = some c) (hlt : q.length < (varintBytes c.length).length) :
    ¬ item.CutOpen R spill q := by
  rintro ⟨c', hc', j, -, rfl, -⟩
  obtain rfl := Option.some.inj (hc.symm.trans hc')
  rw [List.length_append] at hlt
  omega

end Item

namespace Reader

variable {R : Reader S} {Reads : S → List UInt8 → Prop} {Past : S → Prop} {heard : List Char → Utf16}
  {spill : List UInt8 → Nat → Option (List UInt8)} {ser : S} {q : List UInt8}

theorem getVarint_cut (hR : R.Source Reads heard) (hE : R.Ends Reads Past spill) {n : Nat} (h : Reads ser q)
    (hq : q <+: varintBytes n) (hlt : q.length < (varintBytes n).length) : R.getVarint ser = none := by
  unfold varintBytes at hq hlt
  split at hq
  · rename_i hn
    rw [if_pos hn] at hlt
    rw [Reader.getVarint, hE.raw h (show q.length < 1 from hlt)]
    rfl
  · rename_i hn
    rw [if_neg hn] at hlt
    cases q with
    | nil =>
      rw [Reader.getVarint, hE.raw h (show ([] : List UInt8).length < 1 from Nat.one_pos)]
      rfl
    | cons c q =>
      obtain ⟨rfl, -⟩ := List.cons_prefix_cons.mp hq
      obtain ⟨ser₁, hescape, h₁⟩ := hR.raw (show Reads ser ([0xff] ++ q) from h)
      have hshort : q.length < 4 := by
        rw [List.length_cons, List.length_cons, length_leBytes] at hlt
        omega
      rw [Reader.getVarint, show 1 = [(0xff : UInt8)].length from rfl, hescape, Option.bind_some]
      change (R.getRaw 4 ser₁).map _ = _
      rw [hE.raw h₁ hshort]
      rfl

theorem getBytes_cut (hR : R.Source Reads heard) (hE : R.Ends Reads Past spill) {c : List UInt8}
    (hc : c.length < 2 ^ 32) (h : Reads ser q) (hq : q <+: varintBytes c.length ++ c)
    (hlt : q.length < (varintBytes c.length ++ c).length) :
    (R.getBytes ser = none ∧ q.length < (varintBytes c.length).length) ∨
    ∃ j < c.length, q = varintBytes c.length ++ c.take j ∧
      ∃ ser', Past ser' ∧ R.getBytes ser = (spill (c.take j) c.length).map (·, ser') := by
  by_cases hlen : q.length < (varintBytes c.length).length
  · have hq' : q <+: varintBytes c.length :=
      List.prefix_of_prefix_length_le hq (List.prefix_append _ _) hlen.le
    refine .inl ⟨?_, hlen⟩
    rw [Reader.getBytes, getVarint_cut hR hE h hq' hlen]
    rfl
  · obtain ⟨q', rfl⟩ := List.prefix_of_prefix_length_le (List.prefix_append _ c) hq (Nat.le_of_not_lt hlen)
    have hq' : q' <+: c := (List.prefix_append_right_inj _).mp hq
    rw [List.length_append, List.length_append] at hlt
    obtain ⟨ser₁, hget, h₁⟩ := hR.getVarint hc h
    obtain ⟨ser', hpast, hcontent⟩ := hE.content h₁ (show q'.length < c.length by omega)
    rw [List.prefix_iff_eq_take] at hq'
    refine .inr ⟨q'.length, by omega, by rw [← hq'], ser', hpast, ?_⟩
    rw [Reader.getBytes, hget, Option.bind_some, ← hq']
    exact hcontent

theorem getVarint_past (hE : R.Ends Reads Past spill) (h : Past ser) : R.getVarint ser = none := by
  rw [Reader.getVarint, hE.past h Nat.one_pos]
  rfl

theorem getBytes_past (hE : R.Ends Reads Past spill) (h : Past ser) : R.getBytes ser = none := by
  rw [Reader.getBytes, getVarint_past hE h]
  rfl

theorem getString_past (hE : R.Ends Reads Past spill) (h : Past ser) : R.getString ser = none := by
  rw [Reader.getString, getBytes_past hE h]
  rfl

/-- Behind the end nothing is read. -/
theorem get_past (hE : R.Ends Reads Past spill) (h : Past ser) (item : Item) : R.get item ser = none := by
  cases item with
  | int v | long v | float v | double v =>
    rw [Reader.get]
    simp only [getInt, getLong, getFloat, getDouble, Reader.getWord, hE.past h (show 0 < 4 by decide),
      hE.past h (show 0 < 8 by decide), Option.map_none]
  | varint n => rw [Reader.get, getVarint_past hE h]; rfl
  | bytes b => rw [Reader.get, getBytes_past hE h]; rfl
  | string s => rw [Reader.get, getString_past hE h]; rfl

/-- An item that is cut is read when the cut is open, and the end is then past. -/
theorem get_cut (hR : R.Source Reads heard) (hE : R.Ends Reads Past spill) {item : Item} (hs : item.Short)
    (h : Reads ser q) (hq : q <+: item.encode) (hlt : q.length < item.encode.length) :
    ((R.get item ser).isSome ↔ item.CutOpen R spill q) ∧
      ∀ out ser', R.get item ser = some (out, ser') → Past ser' := by
  have hword : ∀ {w : Nat} {v : BitVec (8 * w)}, q.length < [leBytes w v.toNat].flatten.length →
      R.getWord w ser = none := by
    intro w v hw
    rw [List.flatten_singleton, length_leBytes] at hw
    rw [Reader.getWord, hE.raw h hw]
    rfl
  have hclosed : R.get item ser = none → item.content = none →
      ((R.get item ser).isSome ↔ item.CutOpen R spill q) ∧
        ∀ out ser', R.get item ser = some (out, ser') → Past ser' := by
    intro hget hcont
    rw [hget]
    refine ⟨⟨fun hx => absurd hx (by simp), ?_⟩, fun out ser' hx => by cases hx⟩
    rintro ⟨c, hc, -⟩
    rw [hcont] at hc
    cases hc
  cases item with
  | int v | float v =>
    refine hclosed ?_ rfl
    rw [Reader.get]
    simp only [getInt, getFloat, hword (w := 4) (v := v) hlt, Option.map_none]
  | long v | double v =>
    refine hclosed ?_ rfl
    rw [Reader.get]
    simp only [getLong, getDouble, hword (w := 8) (v := v) hlt, Option.map_none]
  | varint n =>
    refine hclosed ?_ rfl
    rw [Item.encode, Item.pieces, List.flatten_singleton] at hq hlt
    rw [Reader.get, getVarint_cut hR hE h hq hlt]
    rfl
  | bytes b =>
    have henc : (Item.bytes b).encode = varintBytes b.length ++ b := by simp [Item.encode, Item.pieces]
    rw [henc] at hq hlt
    rw [Reader.get]
    rcases getBytes_cut hR hE hs h hq hlt with ⟨hget, hlen⟩ | ⟨j, hj, rfl, ser', hpast, hget⟩
    · rw [hget]
      exact ⟨iff_of_false (by simp) (Item.not_cutOpen rfl hlen), fun out ser' hx => by cases hx⟩
    · rw [hget, Item.cutOpen_iff rfl hj]
      cases spill (b.take j) b.length with
      | none => exact ⟨by simp, fun out ser' hx => by cases hx⟩
      | some b' =>
        refine ⟨iff_of_true rfl ⟨b', rfl, trivial⟩, fun out ser₁ hx => ?_⟩
        obtain ⟨-, rfl⟩ := Prod.mk.inj (Option.some.inj hx)
        exact hpast
  | string s =>
    have henc : (Item.string s).encode = varintBytes (utf8 s).length ++ utf8 s := by simp [Item.encode, Item.pieces]
    rw [henc] at hq hlt
    rw [Reader.get, Reader.getString]
    rcases getBytes_cut hR hE hs h hq hlt with ⟨hget, hlen⟩ | ⟨j, hj, rfl, ser', hpast, hget⟩
    · rw [hget]
      exact ⟨iff_of_false (by simp) (Item.not_cutOpen rfl hlen), fun out ser' hx => by cases hx⟩
    · rw [hget, Item.cutOpen_iff rfl hj]
      cases spill ((utf8 s).take j) (utf8 s).length with
      | none => exact ⟨by simp, fun out ser' hx => by cases hx⟩
      | some b =>
        constructor
        · simp [Item.Takes]
        · intro out ser₁ hx
          obtain ⟨⟨s', ser₂⟩, hx, heq⟩ := Option.map_eq_some_iff.mp hx
          obtain ⟨v, -, hv⟩ := Option.map_eq_some_iff.mp hx
          obtain ⟨-, rfl⟩ := Prod.mk.inj hv
          obtain ⟨-, rfl⟩ := Prod.mk.inj heq
          exact hpast

theorem getAll_past (hE : R.Ends Reads Past spill) (h : Past ser) {items : List Item} (hne : items ≠ []) :
    R.getAll items ser = none := by
  cases items with
  | nil => exact absurd rfl hne
  | cons item items => rw [Reader.getAll, get_past hE h, Option.bind_none]

theorem getAll_cons_isSome {item : Item} {items : List Item} : (R.getAll (item :: items) ser).isSome ↔
    ∃ out ser', R.get item ser = some (out, ser') ∧ (R.getAll items ser').isSome := by
  rw [Reader.getAll]
  rcases R.get item ser with _ | ⟨out, ser'⟩ <;> simp

/-- Items that are cut are read when the cut is open and in the last of them. -/
theorem getAll_cut (hR : R.Source Reads heard) (hE : R.Ends Reads Past spill) {items : List Item}
    (hs : ∀ item ∈ items, item.Short) : ∀ {ser : S} {q : List UInt8}, Reads ser q → q <+: encodeAll items →
      q.length < (encodeAll items).length → ((R.getAll items ser).isSome ↔ CutLast R spill items q) := by
  induction items with
  | nil => exact fun _ _ hlt => absurd hlt (Nat.not_lt_zero _)
  | cons item items ih =>
    intro ser q h hq hlt
    rw [encodeAll_cons] at hq hlt
    rw [getAll_cons_isSome]
    by_cases hin : q.length < item.encode.length
    · have hq' : q <+: item.encode := List.prefix_of_prefix_length_le hq (List.prefix_append _ _) hin.le
      obtain ⟨hiff, hpast⟩ := get_cut hR hE (hs item List.mem_cons_self) h hq' hin
      constructor
      · rintro ⟨out, ser', hget, hrest⟩
        have hnil : items = [] := by
          by_contra hne
          rw [getAll_past hE (hpast out ser' hget) hne] at hrest
          cases hrest
        exact ⟨[], item, q, by rw [hnil]; rfl, rfl, hiff.mp (by rw [hget]; rfl)⟩
      · rintro ⟨pre, last, q', hitems, rfl, hcut⟩
        cases pre with
        | nil =>
          obtain ⟨rfl, rfl⟩ := List.cons.inj hitems
          obtain ⟨⟨out, ser'⟩, hget⟩ := Option.isSome_iff_exists.mp (hiff.mpr hcut)
          exact ⟨out, ser', hget, rfl⟩
        | cons first pre =>
          obtain ⟨rfl, -⟩ := List.cons.inj hitems
          rw [encodeAll_cons, List.length_append, List.length_append] at hin
          omega
    · obtain ⟨q', rfl⟩ := List.prefix_of_prefix_length_le (List.prefix_append _ _) hq (Nat.le_of_not_lt hin)
      have hq' : q' <+: encodeAll items := (List.prefix_append_right_inj _).mp hq
      have hlt' : q'.length < (encodeAll items).length := by
        rw [List.length_append, List.length_append] at hlt
        omega
      obtain ⟨ser₁, hget, h₁⟩ := hR.get (hs item List.mem_cons_self) h
      have hiff := ih (fun i hi => hs i (List.mem_cons_of_mem _ hi)) h₁ hq' hlt'
      constructor
      · rintro ⟨out, ser', hget', hrest⟩
        obtain ⟨rfl, rfl⟩ := Prod.mk.inj (Option.some.inj (hget.symm.trans hget'))
        obtain ⟨pre, last, q'', rfl, rfl, hcut⟩ := hiff.mp hrest
        exact ⟨item :: pre, last, q'', rfl, by rw [encodeAll_cons, List.append_assoc], hcut⟩
      · rintro ⟨pre, last, q'', hitems, hbytes, hcut⟩
        refine ⟨_, ser₁, hget, hiff.mpr ?_⟩
        cases pre with
        | nil =>
          obtain ⟨-, rfl⟩ := List.cons.inj hitems
          exact absurd hlt' (Nat.not_lt_zero _)
        | cons first pre =>
          obtain ⟨rfl, rfl⟩ := List.cons.inj hitems
          rw [encodeAll_cons, List.append_assoc] at hbytes
          exact ⟨pre, last, q'', rfl, List.append_cancel_left hbytes, hcut⟩

/-! ### Any bytes -/

/-- The length in front of the bytes, and the bytes behind it. -/
def lengthAt : List UInt8 → Option (Nat × List UInt8)
  | [] => none
  | c :: rest =>
    if c = 0xff then if 4 ≤ rest.length then some (leValue (rest.take 4), rest.drop 4) else none
    else some (c.toNat, rest)

/-- What is got is taken from the bytes, and the position stays among them. A string
is got as bytes are. -/
structure Contained (R : Reader S) (Reads : S → List UInt8 → Prop) (ser : S) (bs : List UInt8) : Prop where
  raw : ∀ {n b ser'}, R.getRaw n ser = some (b, ser') → ∃ rest, bs = b ++ rest ∧ Reads ser' rest
  varint : ∀ {n ser'}, R.getVarint ser = some (n, ser') → ∃ rest, rest <:+ bs ∧ Reads ser' rest
  bytes : ∀ {b ser'}, R.getBytes ser = some (b, ser') → ∃ rest, b ++ rest <:+ bs ∧ Reads ser' rest

theorem getRaw_reads (hR : R.Source Reads heard) (hE : R.Ends Reads Past spill) {bs : List UInt8} (h : Reads ser bs)
    {n : Nat} {b : List UInt8} {ser' : S} (hget : R.getRaw n ser = some (b, ser')) :
    ∃ rest, bs = b ++ rest ∧ b.length = n ∧ Reads ser' rest := by
  by_cases hn : bs.length < n
  · rw [hE.raw h hn] at hget
    cases hget
  · have hlen : (bs.take n).length = n := by
      rw [List.length_take]
      omega
    obtain ⟨ser₁, hget₁, h₁⟩ := hR.raw (show Reads ser (bs.take n ++ bs.drop n) by rwa [List.take_append_drop])
    rw [hlen] at hget₁
    obtain ⟨rfl, rfl⟩ := Prod.mk.inj (Option.some.inj (hget₁.symm.trans hget))
    exact ⟨bs.drop n, (List.take_append_drop n bs).symm, hlen, h₁⟩

theorem getVarint_reads (hR : R.Source Reads heard) (hE : R.Ends Reads Past spill) {bs : List UInt8}
    (h : Reads ser bs) {n : Nat} {ser' : S} (hget : R.getVarint ser = some (n, ser')) :
    ∃ rest, lengthAt bs = some (n, rest) ∧ rest <:+ bs ∧ Reads ser' rest := by
  obtain ⟨⟨b, ser₁⟩, hb, hrest⟩ := Option.bind_eq_some_iff.mp hget
  obtain ⟨rest, rfl, hlen, h₁⟩ := getRaw_reads hR hE h hb
  obtain ⟨c, rfl⟩ := List.length_eq_one_iff.mp hlen
  have hval : leValue [c] = c.toNat := by simp [leValue]
  simp only [hval] at hrest
  split at hrest
  · rename_i hescape
    have hc : c = 0xff := UInt8.toNat_inj.mp hescape
    obtain ⟨⟨b', ser₂⟩, hb', heq⟩ := Option.map_eq_some_iff.mp hrest
    obtain ⟨rfl, rfl⟩ := Prod.mk.inj heq
    obtain ⟨rest', rfl, hlen', h₂⟩ := getRaw_reads hR hE h₁ hb'
    refine ⟨rest', ?_, ⟨[c] ++ b', by simp⟩, h₂⟩
    change (if c = 0xff then if 4 ≤ (b' ++ rest').length then
        some (leValue ((b' ++ rest').take 4), (b' ++ rest').drop 4) else none
      else some (c.toNat, b' ++ rest')) = _
    rw [if_pos hc, if_pos (by rw [List.length_append]; omega), ← hlen', List.take_left, List.drop_left]
  · rename_i hescape
    have hc : c ≠ 0xff := fun hc => hescape (by rw [hc]; rfl)
    obtain ⟨rfl, rfl⟩ := Prod.mk.inj (Option.some.inj hrest)
    exact ⟨rest, if_neg hc, ⟨[c], rfl⟩, h₁⟩

theorem getVarint_lengthAt (hR : R.Source Reads heard) {bs : List UInt8} (h : Reads ser bs) {n : Nat}
    {rest : List UInt8} (hn : lengthAt bs = some (n, rest)) : ∃ ser', R.getVarint ser = some (n, ser') ∧ Reads ser' rest := by
  cases bs with
  | nil => cases hn
  | cons c bs =>
    obtain ⟨ser₁, hget₁, h₁⟩ := hR.raw (show Reads ser ([c] ++ bs) from h)
    have hval : leValue [c] = c.toNat := by simp [leValue]
    rw [Reader.getVarint, show 1 = [c].length from rfl, hget₁, Option.bind_some]
    simp only [hval]
    rw [lengthAt] at hn
    split at hn
    · rename_i hc
      split at hn
      · rename_i hlen
        obtain ⟨rfl, rfl⟩ := Prod.mk.inj (Option.some.inj hn)
        obtain ⟨ser₂, hget₂, h₂⟩ := hR.raw (show Reads ser₁ (bs.take 4 ++ bs.drop 4) by rwa [List.take_append_drop])
        rw [List.length_take, Nat.min_eq_left hlen] at hget₂
        exact ⟨ser₂, by rw [if_pos (by rw [hc]; rfl), hget₂, Option.map_some], h₂⟩
      · cases hn
    · rename_i hc
      obtain ⟨rfl, rfl⟩ := Prod.mk.inj (Option.some.inj hn)
      exact ⟨ser₁, if_neg fun he => hc (UInt8.toNat_inj.mp he), h₁⟩

/-- The gets keep to the bytes unless a length goes beyond them and there is something
to take for it. -/
theorem contained_iff (hR : R.Source Reads heard) (hE : R.Ends Reads Past spill) {bs : List UInt8}
    (h : Reads ser bs) : R.Contained Reads ser bs ↔
      ∀ n rest, lengthAt bs = some (n, rest) → rest.length < n → spill rest n = none := by
  constructor
  · intro hc n rest hn hlt
    obtain ⟨ser₁, hget₁, h₁⟩ := getVarint_lengthAt hR h hn
    obtain ⟨ser₂, hpast, hcontent⟩ := hE.content h₁ hlt
    cases hs : spill rest n with
    | none => rfl
    | some b =>
      have hbytes : R.getBytes ser = some (b, ser₂) := by
        rw [Reader.getBytes, hget₁, Option.bind_some]
        change R.getContent n ser₁ = _
        rw [hcontent, hs, Option.map_some]
      obtain ⟨rest', -, h₂⟩ := hc.bytes hbytes
      exact absurd h₂ (hE.not_reads hpast)
  · intro hspill
    refine ⟨fun hget => ?_, fun hget => ?_, fun hget => ?_⟩
    · obtain ⟨rest, hbs, -, hr⟩ := getRaw_reads hR hE h hget
      exact ⟨rest, hbs, hr⟩
    · obtain ⟨rest, -, hsuffix, hr⟩ := getVarint_reads hR hE h hget
      exact ⟨rest, hsuffix, hr⟩
    · rename_i b ser'
      obtain ⟨⟨n, ser₁⟩, hvar, hcontent⟩ := Option.bind_eq_some_iff.mp hget
      change R.getContent n ser₁ = some (b, ser') at hcontent
      obtain ⟨rest, hn, hsuffix, h₁⟩ := getVarint_reads hR hE h hvar
      by_cases hlt : rest.length < n
      · obtain ⟨ser₂, -, hover⟩ := hE.content h₁ hlt
        rw [hover, hspill n rest hn hlt] at hcontent
        cases hcontent
      · have hlen : (rest.take n).length = n := by
          rw [List.length_take]
          omega
        obtain ⟨ser₂, htake, h₂⟩ :=
          hR.content (show Reads ser₁ (rest.take n ++ rest.drop n) by rwa [List.take_append_drop])
        rw [hlen] at htake
        obtain ⟨rfl, rfl⟩ := Prod.mk.inj (Option.some.inj (htake.symm.trans hcontent))
        exact ⟨rest.drop n, by rwa [List.take_append_drop], h₂⟩

/-! ### A table -/

theorem getAll_snd_append (items items' : List Item) : (R.getAll (items ++ items') ser).map Prod.snd =
    ((R.getAll items ser).map Prod.snd).bind fun ser => (R.getAll items' ser).map Prod.snd := by
  induction items generalizing ser with
  | nil => rfl
  | cons item items ih =>
    rw [List.cons_append, Reader.getAll, Reader.getAll]
    cases R.get item ser with
    | none => rfl
    | some out =>
      have hstep := @ih out.2
      rw [Option.bind_some, Option.bind_some, Option.map_map, Option.map_map]
      exact hstep

theorem getStrings_snd (ss : List Utf16) :
    (R.getStrings ss.length ser).map Prod.snd = (R.getAll (ss.map Item.string) ser).map Prod.snd := by
  induction ss generalizing ser with
  | nil => rfl
  | cons s ss ih =>
    rw [List.length_cons, Reader.getStrings, List.map_cons, Reader.getAll, Reader.get]
    cases R.getString ser with
    | none => rfl
    | some out =>
      have hstep := @ih out.2
      rw [Option.bind_some, Option.map_some, Option.bind_some, Option.map_map, Option.map_map]
      exact hstep

/-- A cell leaves the serializer as the call for what it was put as does. -/
theorem getCell_snd {type : ValueType} {cell : Cell (List UInt8)} (hm : cell.Matches type) :
    (R.getCell type ser).map Prod.snd = (R.get (cellItem cell) ser).map Prod.snd := by
  cases type <;> cases cell <;> try exact absurd hm id
  all_goals
    rw [getCell, cellItem, Reader.get, Option.map_map, Option.map_map]
    rfl

theorem getCells_snd {type : ValueType} {cells : List (Cell (List UInt8))} (hm : ∀ cell ∈ cells, cell.Matches type) :
    (R.getCells type cells.length ser).map Prod.snd = (R.getAll (cells.map cellItem) ser).map Prod.snd := by
  induction cells generalizing ser with
  | nil => rfl
  | cons cell cells ih =>
    have hcell := @getCell_snd _ R ser type cell (hm cell List.mem_cons_self)
    rw [List.length_cons, Reader.getCells, List.map_cons, Reader.getAll]
    cases hget : R.getCell type ser with
    | none =>
      rw [hget] at hcell
      rw [Option.map_eq_none_iff.mp hcell.symm]
      rfl
    | some out =>
      rw [hget] at hcell
      obtain ⟨out', hget', heq⟩ := Option.map_eq_some_iff.mp hcell.symm
      have hstep := @ih out.2 fun cell hc => hm cell (List.mem_cons_of_mem _ hc)
      rw [hget', Option.bind_some, Option.bind_some, Option.map_map, Option.map_map]
      rw [← heq] at hstep ⊢
      exact hstep

theorem getColumns_snd {rows : List (Row (List UInt8))} {types : List ValueType} :
    ∀ {i1 : Nat} {acc : List (Row (List UInt8))} {ser : S}, (∀ row ∈ rows, RowMatches i1 types row) →
      (R.getColumns rows.length (types.map some) (acc, ser)).map Prod.snd =
        (R.getAll ((tableCells rows i1 types).map cellItem) ser).map Prod.snd := by
  induction types with
  | nil => exact fun _ => rfl
  | cons type types ih =>
    intro i1 acc ser hm
    obtain ⟨hlen, hmatch⟩ := columnCells_match hm
    have hcells := @getCells_snd _ R ser type _ hmatch
    rw [hlen] at hcells
    rw [tableCells, List.map_append, getAll_snd_append, ← hcells, List.map_cons, Reader.getColumns, Option.bind_some]
    cases R.getCells type rows.length ser with
    | none => rfl
    | some out =>
      rw [Option.map_some, Option.bind_some, Option.bind_some]
      refine ih fun row hr => ?_
      obtain ⟨-, -, -, ht⟩ := (hm row hr).head
      exact ht

end Reader

namespace Table

variable {t : Table} {R : Reader S} {Reads : S → List UInt8 → Prop} {Past : S → Prop} {heard : List Char → Utf16}
  {spill : List UInt8 → Nat → Option (List UInt8)}

/-- Behind the types of its columns a table is read as its names and cells are. -/
theorem body_snd (t : Table) (R : Reader S) (ser : S) :
    ((TableSerializer.getNames R t.flag t.types.length ser).bind fun out =>
      (R.getRowsData (t.types.map some) t.rows.length out.2).map Prod.snd) =
        (R.getAll t.body ser).map Prod.snd := by
  have hrows : ∀ ser : S, (R.getRowsData (t.types.map some) t.rows.length ser).map Prod.snd =
      (R.getAll ((tableCells t.rows 0 t.types).map cellItem) ser).map Prod.snd :=
    fun ser => Reader.getColumns_snd t.rows_match
  have hnames : (TableSerializer.getNames R t.flag t.types.length ser).map Prod.snd =
      (R.getAll ((t.names.getD []).map Item.string) ser).map Prod.snd := by
    unfold TableSerializer.getNames flag
    cases hn : t.names with
    | none =>
      rw [if_neg (by decide)]
      rfl
    | some ns =>
      rw [if_pos (by simp), Option.getD_some, ← Reader.getStrings_snd, t.names_length ns hn, Option.map_map]
      rfl
  rw [body, Reader.getAll_snd_append, ← hnames, Option.bind_map]
  exact congrArg _ (funext fun out => hrows out.2)

theorem load_isSome {ser : S} : (TableSerializer.load R ser).isSome ↔
    ∃ flag ser₁ cnt ser₂ types ser₃, R.getVarint ser = some (flag, ser₁) ∧ R.getVarint ser₁ = some (cnt, ser₂) ∧
      R.getString ser₂ = some (types, ser₃) ∧
      ((TableSerializer.getNames R flag (R.columns types).length ser₃).bind fun out =>
        (R.getRowsData (R.columns types) cnt out.2).map Prod.snd).isSome := by
  unfold TableSerializer.load
  rcases R.getVarint ser with _ | ⟨flag, ser₁⟩
  · simp
  rcases hcnt : R.getVarint ser₁ with _ | ⟨cnt, ser₂⟩
  · simp [hcnt]
  rcases htypes : R.getString ser₂ with _ | ⟨types, ser₃⟩
  · simp [hcnt, htypes]
  rcases hnames : TableSerializer.getNames R flag (R.columns types).length ser₃ with _ | ⟨names, ser₄⟩
  · simp [hcnt, htypes, hnames]
  rcases hrows : R.getRowsData (R.columns types) cnt ser₄ with _ | ⟨rows, ser₅⟩
  · simp [hcnt, htypes, hnames, hrows]
  · simp [hcnt, htypes, hnames, hrows]

/-- Behind the end there is a table when there is nothing to read. -/
theorem rest_past (hE : R.Ends Reads Past spill) {ser : S} (h : Past ser) {flag cnt : Nat}
    {columns : List (Option ValueType)} :
    ((TableSerializer.getNames R flag columns.length ser).bind fun out =>
      (R.getRowsData columns cnt out.2).map Prod.snd).isSome ↔
        none ∉ columns ∧ (columns = [] ∨ flag &&& TableSerializer.FLAG_NO_COLUMN_NAME ≠ 0 ∧ cnt = 0) := by
  have hcell : ∀ type, R.getCell type ser = none := by
    intro type
    have hword : ∀ w, 0 < w → R.getWord w ser = none := by
      intro w hw
      rw [Reader.getWord, hE.past h hw]
      rfl
    cases type <;> simp only [Reader.getCell, Reader.getInt, Reader.getLong, Reader.getFloat, Reader.getDouble,
      hword 4 (by decide), hword 8 (by decide), Reader.getBytes_past hE h, Reader.getString_past hE h,
      Reader.getVarint_past hE h, Option.map_none]
  have hcolumns : ∀ (columns : List (Option ValueType)) (acc : List (Row (List UInt8))),
      ((R.getColumns cnt columns (acc, ser)).map Prod.snd).isSome ↔ none ∉ columns ∧ (columns = [] ∨ cnt = 0) := by
    intro columns
    induction columns with
    | nil => exact fun acc => iff_of_true rfl ⟨List.not_mem_nil, .inl rfl⟩
    | cons type columns ih =>
      intro acc
      cases type with
      | none => simp [Reader.getColumns]
      | some type =>
        rw [Reader.getColumns, Option.bind_some]
        cases cnt with
        | zero =>
          rw [Reader.getCells, Option.bind_some, ih]
          simp
        | succ n =>
          rw [Reader.getCells, hcell, Option.bind_none, Option.bind_none]
          simp
  unfold TableSerializer.getNames
  by_cases hf : flag &&& TableSerializer.FLAG_NO_COLUMN_NAME = 0
  · rw [if_pos hf]
    cases columns with
    | nil => exact iff_of_true rfl ⟨List.not_mem_nil, .inl rfl⟩
    | cons type columns =>
      rw [List.length_cons, Reader.getStrings, Reader.getString_past hE h]
      simp [hf]
  · rw [if_neg hf, Option.bind_some, Reader.getRowsData, hcolumns]
    simp [hf]

theorem encodeAll_header (t : Table) : encodeAll t.header =
    encodeAll t.counts ++ (varintBytes (utf8 t.columnsType).length ++ utf8 t.columnsType) := by
  simp [header, counts, Item.encode, Item.pieces, encodeAll]

theorem load_counts (t : Table) (hR : R.Source Reads heard) (hcnt : t.rows.length < 2 ^ 32) {ser : S}
    {q : List UInt8} (h : Reads ser (encodeAll t.counts ++ q)) :
    ∃ ser₂, Reads ser₂ q ∧ ((TableSerializer.load R ser).isSome ↔ ∃ types ser₃, R.getString ser₂ = some (types, ser₃) ∧
      ((TableSerializer.getNames R t.flag (R.columns types).length ser₃).bind fun out =>
        (R.getRowsData (R.columns types) t.rows.length out.2).map Prod.snd).isSome) := by
  have hbytes : encodeAll t.counts ++ q = varintBytes t.flag ++ (varintBytes t.rows.length ++ q) := by
    simp [counts, encodeAll, Item.encode, Item.pieces]
  rw [hbytes] at h
  obtain ⟨ser₁, hget₁, h₁⟩ := hR.getVarint t.flag_lt h
  obtain ⟨ser₂, hget₂, h₂⟩ := hR.getVarint hcnt h₁
  refine ⟨ser₂, h₂, ?_⟩
  rw [load_isSome]
  constructor
  · rintro ⟨flag, ser₁', cnt, ser₂', types, ser₃, hflag, hrows, htypes, hrest⟩
    obtain ⟨rfl, rfl⟩ := Prod.mk.inj (Option.some.inj (hget₁.symm.trans hflag))
    obtain ⟨rfl, rfl⟩ := Prod.mk.inj (Option.some.inj (hget₂.symm.trans hrows))
    exact ⟨types, ser₃, htypes, hrest⟩
  · rintro ⟨types, ser₃, htypes, hrest⟩
    exact ⟨_, _, _, _, types, ser₃, hget₁, hget₂, htypes, hrest⟩

theorem load_counts_cut (t : Table) (hR : R.Source Reads heard) (hE : R.Ends Reads Past spill)
    (hcnt : t.rows.length < 2 ^ 32) {ser : S} {q : List UInt8} (h : Reads ser q) (hq : q <+: encodeAll t.counts)
    (hlt : q.length < (encodeAll t.counts).length) : ¬ (TableSerializer.load R ser).isSome := by
  have hs : ∀ item ∈ t.counts, item.Short := by
    simp only [counts, List.forall_mem_cons, List.not_mem_nil, false_implies, implies_true, and_true]
    exact ⟨t.flag_lt, hcnt⟩
  intro hload
  obtain ⟨flag, ser₁, cnt, ser₂, -, -, hget₁, hget₂, -⟩ := load_isSome.mp hload
  have hall : (R.getAll t.counts ser).isSome := by
    simp [counts, Reader.getAll, Reader.get, hget₁, hget₂]
  obtain ⟨pre, item, q', hitems, -, c, hc, -⟩ := (Reader.getAll_cut hR hE hs h hq hlt).mp hall
  have hmem : item ∈ t.counts := by
    rw [hitems]
    exact List.mem_append_right _ List.mem_cons_self
  simp only [counts, List.mem_cons, List.not_mem_nil, or_false] at hmem
  obtain rfl | rfl := hmem <;> cases hc

/-- The types of the columns are cut. -/
theorem load_types_cut (t : Table) (hR : R.Source Reads heard) (hE : R.Ends Reads Past spill)
    (hcnt : t.rows.length < 2 ^ 32) (htypes : (utf8 t.columnsType).length < 2 ^ 32) {ser : S} {q : List UInt8}
    (h : Reads ser (encodeAll t.counts ++ q))
    (hq : q <+: varintBytes (utf8 t.columnsType).length ++ utf8 t.columnsType)
    (hlt : q.length < (varintBytes (utf8 t.columnsType).length ++ utf8 t.columnsType).length) :
    (TableSerializer.load R ser).isSome ↔ t.CutTypes R spill (encodeAll t.counts ++ q) := by
  obtain ⟨ser₂, h₂, hload⟩ := t.load_counts hR hcnt h
  have hflag : t.flag &&& TableSerializer.FLAG_NO_COLUMN_NAME ≠ 0 ∧ t.rows.length = 0 ↔ t.names = none ∧ t.rows = [] := by
    rw [List.length_eq_zero_iff]
    refine and_congr_left fun _ => ?_
    unfold flag
    cases t.names <;> simp [TableSerializer.FLAG_NO_COLUMN_NAME]
  rw [hload]
  rcases Reader.getBytes_cut hR hE htypes h₂ hq hlt with ⟨hget, hlen⟩ | ⟨j, hj, rfl, ser₃, hpast, hget⟩
  · refine iff_of_false ?_ ?_
    · rintro ⟨types, ser₃, hstring, -⟩
      rw [Reader.getString, hget] at hstring
      cases hstring
    · rintro ⟨j, -, hbytes, -⟩
      rw [List.append_cancel_left hbytes, List.length_append] at hlen
      omega
  · constructor
    · rintro ⟨types, ser₄, hstring, hrest⟩
      rw [Reader.getString, hget] at hstring
      obtain ⟨⟨b, ser'⟩, hspill, hdecode⟩ := Option.bind_eq_some_iff.mp hstring
      obtain ⟨b', hb, heq⟩ := Option.map_eq_some_iff.mp hspill
      obtain ⟨rfl, rfl⟩ := Prod.mk.inj heq
      obtain ⟨types', htypes', heq'⟩ := Option.map_eq_some_iff.mp hdecode
      obtain ⟨rfl, rfl⟩ := Prod.mk.inj heq'
      obtain ⟨hknown, hnothing⟩ := (rest_past hE hpast).mp hrest
      exact ⟨j, hj, rfl, b', types', hb, htypes', hknown, hnothing.imp_right hflag.mp⟩
    · rintro ⟨j', hj', hbytes, b, types, hb, hdecode, hknown, hnothing⟩
      rw [← List.append_cancel_left (List.append_cancel_left hbytes)] at hb
      refine ⟨types, ser₃, ?_, (rest_past hE hpast).mpr ⟨hknown, hnothing.imp_right hflag.mpr⟩⟩
      rw [Reader.getString, hget, hb, Option.map_some, Option.bind_some]
      simp only [hdecode, Option.map_some]

/-- The names or the cells are cut. -/
theorem load_body_cut (t : Table) (hR : R.Source Reads heard) (hE : R.Ends Reads Past spill) (hD : R.Declares heard)
    (hs : ∀ item ∈ t.items, item.Short) {ser : S} {q : List UInt8} (h : Reads ser (encodeAll t.header ++ q))
    (hq : q <+: encodeAll t.body) (hlt : q.length < (encodeAll t.body).length) :
    (TableSerializer.load R ser).isSome ↔ CutLast R spill t.body q := by
  have hcnt : t.rows.length < 2 ^ 32 := hs (.varint t.rows.length) (by simp [items, header])
  have htypes : (utf8 t.columnsType).length < 2 ^ 32 := hs (.string t.columnsType) (by simp [items, header])
  rw [encodeAll_header, List.append_assoc, List.append_assoc] at h
  obtain ⟨ser₂, h₂, hload⟩ := t.load_counts hR hcnt h
  obtain ⟨ser₃, hget, h₃⟩ := hR.getString htypes h₂
  have hdecl : heard (fromUtf16 t.columnsType) = t.types.map ValueType.char := by
    rw [columnsType, fromUtf16_types]
    exact hD.heard t.types
  rw [hdecl] at hget
  rw [hload, ← Reader.getAll_cut hR hE (fun item hi => hs item (List.mem_append_right _ hi)) h₃ hq hlt,
    ← Option.isSome_map (f := Prod.snd), ← t.body_snd R ser₃]
  constructor
  · rintro ⟨types, ser₄, hstring, hrest⟩
    obtain ⟨rfl, rfl⟩ := Prod.mk.inj (Option.some.inj (hget.symm.trans hstring))
    rwa [hD.columns, List.length_map] at hrest
  · intro hrest
    refine ⟨_, ser₃, hget, ?_⟩
    rwa [hD.columns, List.length_map]

/-- A table that is cut is loaded when the cut is open and in the last of its items,
or in a declaration that leaves nothing to read. -/
theorem load_cut (t : Table) (hR : R.Source Reads heard) (hE : R.Ends Reads Past spill) (hD : R.Declares heard)
    (hs : ∀ item ∈ t.items, item.Short) {ser : S} {q : List UInt8} (h : Reads ser q)
    (hq : q <+: encodeAll t.items) (hlt : q.length < (encodeAll t.items).length) :
    (TableSerializer.load R ser).isSome ↔ t.CutAccepted R spill q := by
  have hcnt : t.rows.length < 2 ^ 32 := hs (.varint t.rows.length) (by simp [items, header])
  have htypes : (utf8 t.columnsType).length < 2 ^ 32 := hs (.string t.columnsType) (by simp [items, header])
  have hheader := t.encodeAll_header
  have hbody : (∃ q', q = encodeAll t.header ++ q' ∧ CutLast R spill t.body q') →
      (encodeAll t.header).length ≤ q.length := by
    rintro ⟨q', rfl, -⟩
    simp
  have htypesLen : t.CutTypes R spill q →
      (encodeAll t.counts).length ≤ q.length ∧ q.length < (encodeAll t.header).length := by
    rintro ⟨j, hj, rfl, -⟩
    rw [hheader]
    simp only [List.length_append, List.length_take]
    omega
  rw [items, encodeAll_append] at hq hlt
  by_cases hin : q.length < (encodeAll t.header).length
  · have hq' : q <+: encodeAll t.header := List.prefix_of_prefix_length_le hq (List.prefix_append _ _) hin.le
    have hor : t.CutAccepted R spill q ↔ t.CutTypes R spill q :=
      or_iff_left fun hb => absurd (hbody hb) (Nat.not_le_of_lt hin)
    rw [hor]
    rw [hheader] at hq' hin
    by_cases hin' : q.length < (encodeAll t.counts).length
    · have hq'' : q <+: encodeAll t.counts := List.prefix_of_prefix_length_le hq' (List.prefix_append _ _) hin'.le
      exact iff_of_false (t.load_counts_cut hR hE hcnt h hq'' hin') fun hc =>
        absurd (htypesLen hc).1 (Nat.not_le_of_lt hin')
    · obtain ⟨q', rfl⟩ := List.prefix_of_prefix_length_le (List.prefix_append _ _) hq' (Nat.le_of_not_lt hin')
      rw [List.length_append, List.length_append] at hin
      exact t.load_types_cut hR hE hcnt htypes h ((List.prefix_append_right_inj _).mp hq') (by omega)
  · obtain ⟨q', rfl⟩ := List.prefix_of_prefix_length_le (List.prefix_append _ _) hq (Nat.le_of_not_lt hin)
    rw [List.length_append, List.length_append] at hlt
    rw [t.load_body_cut hR hE hD hs h ((List.prefix_append_right_inj _).mp hq) (by omega)]
    constructor
    · exact fun hc => .inr ⟨q', rfl, hc⟩
    · rintro (hc | ⟨q'', hbytes, hc⟩)
      · exact absurd (htypesLen hc).2 hin
      · rwa [List.append_cancel_left hbytes]

end Table

end PxpRpc.Codec.Wire
