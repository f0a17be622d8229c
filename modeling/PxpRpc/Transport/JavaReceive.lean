import PxpRpc.Transport.JavaSend

/-!
# Receiving on the channels of Java

`Utils.readf` fills a buffer from a channel that gives what it has, part by part.
Its loop ends when the buffer is full, with an exception at the end of the file,
and also when the channel is no longer open.
-/
namespace PxpRpc.Transport.Java

open PxpRpc.Lib PxpRpc.Codec.Java

/-- How a channel breaks, as the loop meets it: `read` returns -1 or throws, or `isOpen` is
false. -/
inductive Break where
  | eof
  | exception
  | closed
deriving DecidableEq, Repr

/-- What a channel gives to the reads. -/
inductive Event where
  | data (bytes : List UInt8)
  | broken (b : Break)
deriving DecidableEq, Repr

inductive Outcome (α : Type) where
  | blocks
  | throws
  | gives (a : α) (source : List Event)
deriving DecidableEq, Repr

def Outcome.bind {α β : Type} (o : Outcome α) (f : α → List Event → Outcome β) : Outcome β :=
  match o with
  | blocks => blocks
  | throws => throws
  | gives a source => f a source

/-- The loop of `Utils.readf`, with how much of the buffer remains and what it holds; where
nothing has been read the buffer holds zeros. -/
def readf : List Event → Nat → List UInt8 → Outcome (List UInt8)
  | source, 0, filled => .gives filled source
  | [], _ + 1, _ => .blocks
  | .broken .closed :: rest, n + 1, filled => .gives (filled ++ List.replicate (n + 1) 0) (.broken .closed :: rest)
  | .broken .eof :: _, _ + 1, _ => .throws
  | .broken .exception :: _, _ + 1, _ => .throws
  | .data bytes :: rest, n + 1, filled =>
    if bytes.length ≤ n + 1 then readf rest (n + 1 - bytes.length) (filled ++ bytes)
    else .gives (filled ++ bytes.take (n + 1)) (.data (bytes.drop (n + 1)) :: rest)

def readInt32 (source : List Event) : Outcome (BitVec 32) :=
  (readf source 4 []).bind fun bytes source => .gives (BitVec.ofNat 32 (leValue bytes)) source

/-- `ByteBuffer.allocate` throws for a negative length. -/
def receiveFrom (source : List Event) : Outcome (List UInt8) :=
  (readInt32 source).bind fun length source =>
    match ByteBuffer.allocate length with
    | none => .throws
    | some buf => readf source buf.remaining.length []

def ChannelIo.receive : List Event → Outcome (List UInt8) := receiveFrom

def ChannelIo2.receive : List Event → Outcome (List UInt8) := receiveFrom

/-! ### Both classes -/

inductive Io where
  | channelIo
  | channelIo2
deriving DecidableEq, Repr

namespace Io

def send : Io → Sink → List ByteBuffer → Option Sink
  | channelIo => ChannelIo.send
  | channelIo2 => fun s buffs => some (ChannelIo2.send s buffs)

def receive : Io → List Event → Outcome (List UInt8)
  | channelIo => ChannelIo.receive
  | channelIo2 => ChannelIo2.receive

def sendAll (io : Io) : List (List ByteBuffer) → Sink → Option Sink
  | [], s => some s
  | buffs :: packets, s => (io.send s buffs).bind (io.sendAll packets)

def receiveAll (io : Io) : Nat → List Event → Outcome (List (List UInt8))
  | 0, source => .gives [] source
  | n + 1, source => (io.receive source).bind fun packet source =>
      (io.receiveAll n source).bind fun packets source => .gives (packet :: packets) source

theorem receive_eq (io : Io) (source : List Event) : io.receive source = receiveFrom source := by
  cases io <;> rfl

theorem send_eq (io : Io) (s : Sink) (buffs : List ByteBuffer) :
    ∃ s', io.send s buffs = some s' ∧ s'.written = s.written ++ frame (content buffs) := by
  cases io with
  | channelIo => exact ChannelIo.send_eq s buffs
  | channelIo2 => exact ⟨_, rfl, ChannelIo2.send_eq s buffs⟩

theorem sendAll_eq (io : Io) (packets : List (List ByteBuffer)) : ∀ s : Sink, ∃ s', io.sendAll packets s = some s' ∧
    s'.written = s.written ++ packets.flatMap fun buffs => frame (content buffs) := by
  induction packets with
  | nil => exact fun s => ⟨s, rfl, (List.append_nil _).symm⟩
  | cons buffs packets ih =>
    intro s
    obtain ⟨s₁, hsend, hw₁⟩ := io.send_eq s buffs
    obtain ⟨s₂, hrest, hw₂⟩ := ih s₁
    refine ⟨s₂, by rw [sendAll, hsend]; exact hrest, ?_⟩
    rw [hw₂, hw₁, List.flatMap_cons, List.append_assoc]

end Io

/-! ### Reading -/

/-- A channel that gives its bytes in some parts, and then something else. -/
def given (parts : List (List UInt8)) (tail : List Event) : List Event := parts.map .data ++ tail

@[simp] theorem given_nil (tail : List Event) : given [] tail = tail := rfl

theorem given_cons (part : List UInt8) (parts : List (List UInt8)) (tail : List Event) :
    given (part :: parts) tail = .data part :: given parts tail := rfl

theorem readf_zero (source : List Event) (filled : List UInt8) : readf source 0 filled = .gives filled source := by
  cases source <;> rfl

/-- A buffer that the channel can fill. -/
theorem readf_given (tail : List Event) {parts : List (List UInt8)} : ∀ {bs rest : List UInt8} (filled : List UInt8),
    parts.flatten = bs ++ rest → ∃ parts', parts'.flatten = rest ∧
      readf (given parts tail) bs.length filled = .gives (filled ++ bs) (given parts' tail) := by
  induction parts with
  | nil =>
    intro bs rest filled h
    obtain ⟨rfl, rfl⟩ := List.append_eq_nil_iff.mp h.symm
    exact ⟨[], rfl, by rw [List.length_nil, readf_zero, List.append_nil]⟩
  | cons part parts ih =>
    intro bs rest filled h
    cases bs with
    | nil => exact ⟨part :: parts, h, by rw [List.length_nil, readf_zero, List.append_nil]⟩
    | cons byte bs =>
      rw [List.flatten_cons] at h
      rw [given_cons, List.length_cons, readf]
      split
      · next hle =>
        -- The whole part fits.
        obtain ⟨bs', hbs⟩ : ∃ bs', byte :: bs = part ++ bs' :=
          List.prefix_of_prefix_length_le ⟨parts.flatten, h⟩ ⟨rest, rfl⟩ hle |>.imp fun _ => Eq.symm
        rw [hbs, List.append_assoc] at h
        obtain ⟨parts', hrest, hread⟩ := ih (filled ++ part) (List.append_cancel_left h)
        have hlen : bs.length + 1 - part.length = bs'.length := by
          have := congrArg List.length hbs
          rw [List.length_append, List.length_cons] at this
          omega
        exact ⟨parts', hrest, by rw [hlen, hread, hbs, List.append_assoc]⟩
      · next hgt =>
        obtain ⟨part', hpart⟩ : ∃ part', part = byte :: bs ++ part' :=
          List.prefix_of_prefix_length_le ⟨rest, h.symm⟩ ⟨parts.flatten, rfl⟩ (by simpa using Nat.le_of_not_le hgt)
            |>.imp fun _ => Eq.symm
        have hlen : (byte :: bs).length = bs.length + 1 := rfl
        rw [hpart, List.append_assoc] at h
        refine ⟨part' :: parts, by rw [List.flatten_cons, List.append_cancel_left h], ?_⟩
        rw [hpart, List.take_left' hlen, List.drop_left' hlen, given_cons]

/-- A buffer for which the channel breaks too early. -/
theorem readf_broken {b : Break} {tail : List Event} {parts : List (List UInt8)} : ∀ {n : Nat} {filled : List UInt8},
    parts.flatten.length < n → readf (given parts (.broken b :: tail)) n filled =
      if b = .closed then
        .gives (filled ++ parts.flatten ++ List.replicate (n - parts.flatten.length) 0) (.broken b :: tail)
      else .throws := by
  induction parts with
  | nil =>
    intro n filled hn
    obtain ⟨n, rfl⟩ := Nat.exists_eq_succ_of_ne_zero (Nat.ne_zero_of_lt hn)
    cases b with
    | closed => simp [given, readf]
    | eof => rfl
    | exception => rfl
  | cons part parts ih =>
    intro n filled hn
    rw [List.flatten_cons, List.length_append] at hn ⊢
    obtain ⟨n, rfl⟩ := Nat.exists_eq_succ_of_ne_zero (Nat.ne_zero_of_lt hn)
    rw [given_cons, readf, if_pos (by omega), ih (by omega)]
    simp only [List.append_assoc, Nat.sub_sub]

/-! ### Packets -/

theorem readInt32_given (tail : List Event) {parts : List (List UInt8)} {n : Nat} {rest : List UInt8}
    (h : parts.flatten = leBytes 4 n ++ rest) : ∃ parts', parts'.flatten = rest ∧
      readInt32 (given parts tail) = .gives (BitVec.ofNat 32 n) (given parts' tail) := by
  obtain ⟨parts', hrest, hread⟩ := readf_given tail [] h
  refine ⟨parts', hrest, ?_⟩
  rw [length_leBytes] at hread
  rw [readInt32, hread, List.nil_append, Outcome.bind, leValue_leBytes]
  congr 1
  apply BitVec.eq_of_toNat_eq
  simp

theorem remaining_wrap (bs : List UInt8) : (ByteBuffer.wrap bs).remaining = bs := by
  simp [ByteBuffer.remaining, ByteBuffer.wrap]

theorem allocate_ofNat {n : Nat} (hn : n < 2 ^ 31) :
    ByteBuffer.allocate (BitVec.ofNat 32 n) = some (ByteBuffer.wrap (List.replicate n 0)) := by
  have hnat : (BitVec.ofNat 32 n).toNat = n := by rw [BitVec.toNat_ofNat, Nat.mod_eq_of_lt (by omega)]
  have hmsb : (BitVec.ofNat 32 n).msb = false := by
    rw [BitVec.msb_eq_false_iff_two_mul_lt, hnat]
    omega
  rw [ByteBuffer.allocate, hmsb, hnat, ByteBuffer.wrap, List.length_replicate]
  rfl

/-- `receive`, when the length has been read. -/
theorem receiveFrom_eq {source source' : List Event} {n : Nat} (hn : n < 2 ^ 31)
    (h : readInt32 source = .gives (BitVec.ofNat 32 n) source') : receiveFrom source = readf source' n [] := by
  rw [receiveFrom, h, Outcome.bind, allocate_ofNat hn]
  change readf source' (ByteBuffer.wrap (List.replicate n 0)).remaining.length [] = _
  rw [remaining_wrap, List.length_replicate]

theorem receive_given (tail : List Event) {bs : List UInt8} (hbs : bs.length < 2 ^ 31) {parts : List (List UInt8)}
    {rest : List UInt8} (h : parts.flatten = frame bs ++ rest) : ∃ parts', parts'.flatten = rest ∧
      receiveFrom (given parts tail) = .gives bs (given parts' tail) := by
  rw [frame, List.append_assoc] at h
  obtain ⟨parts₁, h₁, hlength⟩ := readInt32_given tail h
  obtain ⟨parts₂, h₂, hread⟩ := readf_given tail [] h₁
  exact ⟨parts₂, h₂, by rw [receiveFrom_eq hbs hlength, hread, List.nil_append]⟩

/-- A length of 2^31 or more is negative. -/
theorem receive_long (tail : List Event) {bs : List UInt8} (hmin : 2 ^ 31 ≤ bs.length) (hmax : bs.length < 2 ^ 32)
    {parts : List (List UInt8)} {rest : List UInt8} (h : parts.flatten = frame bs ++ rest) :
    receiveFrom (given parts tail) = .throws := by
  rw [frame, List.append_assoc] at h
  obtain ⟨parts₁, h₁, hlength⟩ := readInt32_given tail h
  have hmsb : (BitVec.ofNat 32 bs.length).msb = true := by
    rw [BitVec.msb_eq_true_iff_two_mul_ge, BitVec.toNat_ofNat, Nat.mod_eq_of_lt hmax]
    omega
  rw [receiveFrom, hlength, Outcome.bind, ByteBuffer.allocate, hmsb]
  rfl

namespace Io

theorem receiveAll_given (io : Io) (tail : List Event) {packets : List (List UInt8)} : (∀ bs ∈ packets, bs.length < 2 ^ 31) →
    ∀ {parts : List (List UInt8)} {rest : List UInt8}, parts.flatten = packets.flatMap frame ++ rest →
    ∃ parts', parts'.flatten = rest ∧
      io.receiveAll packets.length (given parts tail) = .gives packets (given parts' tail) := by
  induction packets with
  | nil => exact fun _ parts _ h => ⟨parts, h, rfl⟩
  | cons bs packets ih =>
    intro hlen parts rest h
    rw [List.flatMap_cons, List.append_assoc] at h
    obtain ⟨parts₁, h₁, hreceive⟩ := receive_given tail (hlen bs List.mem_cons_self) h
    obtain ⟨parts₂, h₂, hrest⟩ := ih (fun bs' hbs' => hlen bs' (List.mem_cons_of_mem _ hbs')) h₁
    refine ⟨parts₂, h₂, ?_⟩
    rw [List.length_cons, receiveAll, receive_eq, hreceive, Outcome.bind, hrest]
    rfl

end Io

/-- The packets are written, one after the other, as their lengths and their bytes; and however
these come in, they are received. -/
def Transfers (sender receiver : Io) (takes : Nat → Nat) (packets : List (List ByteBuffer)) : Prop :=
  ∃ s, sender.sendAll packets ⟨[], takes, 0⟩ = some s ∧
    s.written = packets.flatMap (fun buffs => frame (content buffs)) ∧
    ∀ (parts : List (List UInt8)) (tail : List Event), parts.flatten = s.written → ∃ source,
      receiver.receiveAll packets.length (given parts tail) = .gives (packets.map content) source

/-- Packets whose lengths are positive as `int`s are transferred by either class. -/
theorem channel_transfers (sender receiver : Io) (takes : Nat → Nat) {packets : List (List ByteBuffer)}
    (h : ∀ buffs ∈ packets, (content buffs).length < 2 ^ 31) : Transfers sender receiver takes packets := by
  obtain ⟨s, hsend, hw⟩ := sender.sendAll_eq packets ⟨[], takes, 0⟩
  refine ⟨s, hsend, hw, fun parts tail hparts => ?_⟩
  have hflat : parts.flatten = (packets.map content).flatMap frame ++ [] := by
    rw [hparts, hw, List.nil_append, List.append_nil, List.flatMap_map]
  have hlen : ∀ bs ∈ packets.map content, bs.length < 2 ^ 31 := fun bs hbs => by
    obtain ⟨buffs, hmem, rfl⟩ := List.mem_map.mp hbs
    exact h buffs hmem
  obtain ⟨parts', -, hreceive⟩ := receiver.receiveAll_given tail hlen hflat
  rw [List.length_map] at hreceive
  exact ⟨_, hreceive⟩

/-- An empty packet and one of two buffers. -/
theorem channel_transfers_two : Transfers .channelIo .channelIo2 (fun _ => 0)
    [[], [ByteBuffer.wrap [1], ByteBuffer.wrap [2, 3]]] :=
  channel_transfers _ _ _ (by decide)

theorem long_lost {sender receiver : Io} {takes : Nat → Nat} {buffs : List ByteBuffer}
    (hmin : 2 ^ 31 ≤ (content buffs).length) (hmax : (content buffs).length < 2 ^ 32) :
    ¬ Transfers sender receiver takes [buffs] := by
  intro ⟨s, _, hw, hreceive⟩
  have hparts : [s.written].flatten = frame (content buffs) ++ [] := by simp [hw]
  obtain ⟨source, h⟩ := hreceive [s.written] [] (by simp)
  rw [List.length_singleton, Io.receiveAll, Io.receive_eq, receive_long [] hmin hmax hparts] at h
  cases h

/-- Half of a packet whose length is 2^31. -/
def half : ByteBuffer := ByteBuffer.wrap (List.replicate (2 ^ 30) 0)

theorem length_halves : (content [half, half]).length = 2 ^ 31 := by
  simp only [content, half, List.map_cons, List.map_nil, remaining_wrap, List.flatten_cons, List.flatten_nil,
    List.append_nil, List.length_append, List.length_replicate]
  rfl

theorem channel_transfers_long : ¬ Transfers .channelIo .channelIo (fun _ => 0) [[half, half]] :=
  long_lost length_halves.ge (by rw [length_halves]; omega)

/-! ### Broken channels -/

theorem leValue_zeros (bs : List UInt8) (k : Nat) : leValue (bs ++ List.replicate k 0) = leValue bs := by
  induction bs with
  | nil =>
    rw [List.nil_append]
    induction k with
    | zero => rfl
    | succ k ih =>
      rw [List.replicate_succ]
      simp only [leValue] at ih ⊢
      rw [ih]
      rfl
  | cons b bs ih => rw [List.cons_append, leValue, ih, leValue]

/-- A length of which not all bytes have been read is not negative. -/
theorem readInt32_closed {parts : List (List UInt8)} {tail : List Event} (h : parts.flatten.length < 4) :
    ∃ n < 2 ^ 31, readInt32 (given parts (.broken .closed :: tail)) =
      .gives (BitVec.ofNat 32 n) (.broken .closed :: tail) := by
  have hlt : leValue parts.flatten < 2 ^ 31 :=
    calc leValue parts.flatten < 256 ^ parts.flatten.length := leValue_lt _
      _ ≤ 256 ^ 3 := Nat.pow_le_pow_right (by decide) (by omega)
      _ < 2 ^ 31 := by decide
  refine ⟨_, hlt, ?_⟩
  rw [readInt32, readf_broken h, if_pos rfl, List.nil_append, Outcome.bind, leValue_zeros]

/-- A packet that breaks off. -/
theorem receiveFrom_broken {bs : List UInt8} (hbs : bs.length < 2 ^ 31) {parts : List (List UInt8)}
    {unread : List UInt8} (h : parts.flatten ++ unread = frame bs) (hunread : unread ≠ []) (b : Break)
    (tail : List Event) : (receiveFrom (given parts (.broken b :: tail)) = .throws) ↔ b ≠ .closed := by
  have hpos := List.length_pos_iff.mpr hunread
  rcases Nat.lt_or_ge parts.flatten.length 4 with hshort | hlong
  · -- The channel breaks within the length.
    by_cases hb : b = .closed
    · subst hb
      obtain ⟨n, hn, hlength⟩ := readInt32_closed hshort
      rw [receiveFrom_eq hn hlength]
      refine iff_of_false (fun h => ?_) fun h => h rfl
      cases n <;> cases h
    · refine iff_of_true ?_ hb
      rw [receiveFrom, readInt32, readf_broken hshort, if_neg hb]
      rfl
  · -- It breaks within the body.
    obtain ⟨body, hparts⟩ : ∃ body, parts.flatten = leBytes 4 bs.length ++ body :=
      List.prefix_of_prefix_length_le ⟨bs, rfl⟩ ⟨unread, h⟩ (by rwa [length_leBytes]) |>.imp fun _ => Eq.symm
    rw [hparts, frame, List.append_assoc] at h
    have hbody : body.length < bs.length := by
      rw [← List.append_cancel_left h, List.length_append]
      omega
    obtain ⟨parts', rfl, hlength⟩ := readInt32_given (.broken b :: tail) hparts
    rw [receiveFrom_eq hbs hlength, readf_broken hbody]
    by_cases hb : b = .closed
    · rw [if_pos hb]
      exact iff_of_false (fun h => by cases h) (not_not.mpr hb)
    · rw [if_neg hb]
      exact iff_of_true rfl hb

/-- A packet whose length is an `int`. -/
abbrev Packet := { bs : List UInt8 // bs.length < 2 ^ 31 }

/-- When the channel breaks before a packet has been read, `receive` throws exactly when that
is not met as a channel that is no longer open. -/
theorem receive_throws_iff (io : Io) (packet : Packet) (b : Break) {parts : List (List UInt8)} {unread : List UInt8}
    (h : parts.flatten ++ unread = frame packet.1) (hunread : unread ≠ []) (tail : List Event) :
    io.receive (given parts (.broken b :: tail)) = .throws ↔ b ≠ .closed := by
  rw [io.receive_eq]
  exact receiveFrom_broken packet.2 h hunread b tail

/-- The end of the file after the first byte of the packet 5, 6. -/
theorem receive_throws_eof : Io.receive .channelIo (given [[2, 0], [0, 0, 5]] [.broken .eof]) = .throws :=
  (receive_throws_iff .channelIo ⟨[5, 6], by decide⟩ .eof
    (show [[2, 0], [0, 0, 5]].flatten ++ [6] = frame [5, 6] by decide) (by decide) []).mpr (by decide)

/-- On a channel that is closed there the packet 5, 0 is received. -/
theorem receive_throws_closed : [[2, 0], [0, 0, 5]].flatten ++ [6] = frame [5, 6] ∧
    Io.receive .channelIo (given [[2, 0], [0, 0, 5]] [.broken .closed]) = .gives [5, 0] [.broken .closed] := by
  decide

end PxpRpc.Transport.Java
