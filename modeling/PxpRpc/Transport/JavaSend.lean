import PxpRpc.Codec.JavaSerializer

/-!
# Sending on the channels of Java

A packet is a list of buffers; its length is written before it. `ChannelIo`
collects small buffers in one of 1400 bytes, `ChannelIo2` hands all of them to a
gathering channel until the last one is empty.
-/
namespace PxpRpc.Transport.Java

open PxpRpc.Lib PxpRpc.Codec.Java

/-- A channel that is open: what it has taken, and for each write how many bytes more than
one it takes, if there are as many. -/
structure Sink where
  written : List UInt8
  takes : Nat → Nat
  calls : Nat

namespace Sink

/-- How much of what is offered is taken by the next write. -/
def taken (s : Sink) (bs : List UInt8) : Nat := min bs.length (s.takes s.calls + 1)

/-- The channel after a write. -/
def write (s : Sink) (bs : List UInt8) : Sink :=
  { s with written := s.written ++ bs.take (s.taken bs), calls := s.calls + 1 }

theorem taken_pos (s : Sink) {bs : List UInt8} (h : bs ≠ []) : 0 < s.taken bs := by
  have := List.length_pos_iff.mpr h
  rw [taken]
  omega

/-- The loop of `Utils.writef`. -/
def writeAll (s : Sink) (bs : List UInt8) : Sink :=
  if bs = [] then s else writeAll (s.write bs) (bs.drop (s.taken bs))
termination_by bs.length
decreasing_by
  have hpos := s.taken_pos ‹_›
  have hlen := List.length_pos_iff.mpr ‹_›
  rw [List.length_drop]
  omega

/-- `Utils.writef`; in the end the position is back where it was. -/
def writef (s : Sink) (b : ByteBuffer) : Sink := s.writeAll b.remaining

end Sink

/-- `remaining()` of the buffers, added up as an `int`. -/
def cnt (buffs : List ByteBuffer) : BitVec 32 :=
  (buffs.map fun b => BitVec.ofNat 32 b.remaining.length).sum

/-! ### `ChannelIo` -/

namespace ChannelIo

/-- `Utils.setLimit(concatBuf,concatBuf.capacity())` -/
def unlimited (b : ByteBuffer) : ByteBuffer := { b with limit := b.array.length }

/-- What is done with a buffer: it is collected, behind what is collected already or after
that has been written, or it is written itself. -/
def collect (s : Sink) (concatBuf b : ByteBuffer) : Option (Sink × ByteBuffer) :=
  if concatBuf.remaining.length < b.remaining.length then
    let s := s.writef concatBuf.flip
    let concatBuf := unlimited concatBuf.flip
    if concatBuf.remaining.length < b.remaining.length then some (s.writef b, concatBuf)
    else (concatBuf.put b.remaining).map (s, ·)
  else (concatBuf.put b.remaining).map (s, ·)

def collectAll : List ByteBuffer → Sink × ByteBuffer → Option (Sink × ByteBuffer)
  | [], out => some out
  | b :: buffs, (s, concatBuf) => (collect s concatBuf b).bind (collectAll buffs)

def send (s : Sink) (buffs : List ByteBuffer) : Option Sink := do
  let concatBuf ← ByteBuffer.allocate 1400
  let concatBuf ← concatBuf.put (leBytes 4 (cnt buffs).toNat)
  let (s, concatBuf) ← collectAll buffs (s, concatBuf)
  return s.writef concatBuf.flip

end ChannelIo

/-! ### `ChannelIo2` -/

namespace ChannelIo2

/-- The buffers after a gathering write of some bytes. -/
def consume : Nat → List (List UInt8) → List (List UInt8)
  | _, [] => []
  | n, b :: bs => b.drop n :: consume (n - b.length) bs

theorem flatten_consume (bs : List (List UInt8)) : ∀ n, (consume n bs).flatten = bs.flatten.drop n := by
  induction bs with
  | nil => exact fun n => (List.drop_nil).symm
  | cons b bs ih => exact fun n => by rw [consume, List.flatten_cons, ih, List.flatten_cons, List.drop_append]

/-- What is left of the last buffer. -/
def last (bbarr : List (List UInt8)) : List UInt8 := bbarr.getLast?.getD []

theorem flatten_ne_nil {bbarr : List (List UInt8)} (h : last bbarr ≠ []) : bbarr.flatten ≠ [] := by
  intro hnil
  cases hlast : bbarr.getLast? with
  | none => exact h (by rw [last, hlast]; rfl)
  | some b => exact h (by rw [last, hlast]; exact List.flatten_eq_nil_iff.mp hnil b (List.mem_of_getLast? hlast))

/-- The loop around `w.write(bbarr)`. -/
def writeAll (s : Sink) (bbarr : List (List UInt8)) : Sink :=
  if last bbarr = [] then s else writeAll (s.write bbarr.flatten) (consume (s.taken bbarr.flatten) bbarr)
termination_by bbarr.flatten.length
decreasing_by
  have hne := flatten_ne_nil ‹_›
  have hpos := s.taken_pos hne
  have hlen := List.length_pos_iff.mpr hne
  rw [flatten_consume, List.length_drop]
  omega

/-- Empty buffers are left out. -/
def send (s : Sink) (buffs : List ByteBuffer) : Sink :=
  writeAll s (leBytes 4 (cnt buffs).toNat :: (buffs.map ByteBuffer.remaining).filter (· ≠ []))

end ChannelIo2

/-! ### What is written -/

/-- The bytes of the buffers. -/
def content (buffs : List ByteBuffer) : List UInt8 := (buffs.map ByteBuffer.remaining).flatten

/-- The length, in as many bytes as it takes in an `int`, and the bytes. -/
def frame (bs : List UInt8) : List UInt8 := leBytes 4 bs.length ++ bs

theorem leBytes_cnt (buffs : List ByteBuffer) : leBytes 4 (cnt buffs).toNat = leBytes 4 (content buffs).length := by
  have h := toNat_sum_ofNat (buffs.map ByteBuffer.remaining)
  rw [List.map_map] at h
  exact (congrArg (leBytes 4) h).trans (leBytes_mod 4 _)

namespace Sink

@[simp] theorem written_writeAll (s : Sink) (bs : List UInt8) : (s.writeAll bs).written = s.written ++ bs := by
  fun_induction writeAll s bs with
  | case1 => simp
  | case2 s bs h ih => rw [ih, write, List.append_assoc, List.take_append_drop]

@[simp] theorem written_writef (s : Sink) (b : ByteBuffer) : (s.writef b).written = s.written ++ b.remaining :=
  s.written_writeAll _

end Sink

namespace ChannelIo

/-- The staging buffer holds the bytes. -/
structure Collected (concatBuf : ByteBuffer) (bs : List UInt8) : Prop where
  capacity : concatBuf.array.length = 1400
  limit : concatBuf.limit = 1400
  position : concatBuf.position = bs.length
  bytes : concatBuf.array.take bs.length = bs

namespace Collected

variable {concatBuf : ByteBuffer} {bs : List UInt8}

theorem length_le (h : Collected concatBuf bs) : bs.length ≤ 1400 := by
  rw [← h.bytes, List.length_take, h.capacity]
  exact min_le_right _ _

theorem remaining (h : Collected concatBuf bs) : concatBuf.remaining.length = 1400 - bs.length := by
  rw [ByteBuffer.remaining, List.length_drop, List.length_take, h.capacity, h.limit, h.position, min_self]

theorem flip (h : Collected concatBuf bs) : concatBuf.flip.remaining = bs := by
  rw [ByteBuffer.remaining, ByteBuffer.flip, List.drop_zero, h.position, h.bytes]

theorem unlimited (h : Collected concatBuf bs) : Collected (unlimited concatBuf.flip) [] :=
  ⟨h.capacity, h.capacity, rfl, rfl⟩

theorem put (h : Collected concatBuf bs) (more : List UInt8) (hfit : bs.length + more.length ≤ 1400) :
    ∃ concatBuf', concatBuf.put more = some concatBuf' ∧ Collected concatBuf' (bs ++ more) := by
  refine ⟨_, if_pos (by rw [h.position, h.limit]; exact hfit), ?_, h.limit, ?_, ?_⟩
  · simp only [List.length_append, List.length_take, List.length_drop, h.capacity, h.position]
    omega
  · rw [List.length_append, h.position]
  · rw [h.position, h.bytes]
    exact List.take_left

end Collected

/-- What is written and what is collected go on where they were. -/
theorem collect_eq (s : Sink) {concatBuf : ByteBuffer} {bs : List UInt8} (h : Collected concatBuf bs) (b : ByteBuffer) :
    ∃ s' concatBuf' bs', collect s concatBuf b = some (s', concatBuf') ∧ Collected concatBuf' bs' ∧
      s'.written ++ bs' = s.written ++ bs ++ b.remaining := by
  rw [collect]
  split
  · dsimp only
    split
    · exact ⟨_, _, [], rfl, h.unlimited, by simp [h.flip]⟩
    · next hfit =>
      rw [h.unlimited.remaining] at hfit
      obtain ⟨concatBuf', hput, hc⟩ := h.unlimited.put b.remaining (by simpa using hfit)
      exact ⟨_, _, _, by rw [hput]; rfl, hc, by simp [h.flip]⟩
  · next hfit =>
    rw [h.remaining] at hfit
    have hle := h.length_le
    obtain ⟨concatBuf', hput, hc⟩ := h.put b.remaining (by omega)
    exact ⟨_, _, _, by rw [hput]; rfl, hc, by simp⟩

theorem collectAll_eq (buffs : List ByteBuffer) : ∀ (s : Sink) {concatBuf : ByteBuffer} {bs : List UInt8},
    Collected concatBuf bs → ∃ s' concatBuf' bs', collectAll buffs (s, concatBuf) = some (s', concatBuf') ∧
      Collected concatBuf' bs' ∧ s'.written ++ bs' = s.written ++ bs ++ content buffs := by
  induction buffs with
  | nil => exact fun s concatBuf bs h => ⟨s, concatBuf, bs, rfl, h, by simp [content]⟩
  | cons b buffs ih =>
    intro s concatBuf bs h
    obtain ⟨s₁, concatBuf₁, bs₁, hcollect, hc₁, hw₁⟩ := collect_eq s h b
    obtain ⟨s₂, concatBuf₂, bs₂, hrest, hc₂, hw₂⟩ := ih s₁ hc₁
    refine ⟨s₂, concatBuf₂, bs₂, by rw [collectAll, hcollect]; exact hrest, hc₂, ?_⟩
    rw [hw₂, hw₁, List.append_assoc]
    rfl

theorem send_eq (s : Sink) (buffs : List ByteBuffer) :
    ∃ s', send s buffs = some s' ∧ s'.written = s.written ++ frame (content buffs) := by
  have hnew : Collected ⟨List.replicate 1400 0, 0, 1400⟩ [] := ⟨List.length_replicate, rfl, rfl, rfl⟩
  have hallocate : ByteBuffer.allocate 1400 = some ⟨List.replicate 1400 0, 0, 1400⟩ := rfl
  obtain ⟨concatBuf, hput, hc⟩ := hnew.put (leBytes 4 (cnt buffs).toNat) (by simp)
  obtain ⟨s', concatBuf', bs', hall, hc', hw⟩ := collectAll_eq buffs s hc
  refine ⟨s'.writef concatBuf'.flip, ?_, ?_⟩
  · simp only [send, hallocate, hput, hall, Option.bind_eq_bind, Option.bind_some, pure]
  · rw [Sink.written_writef, hc'.flip, hw, List.nil_append, leBytes_cnt, frame, List.append_assoc]

end ChannelIo

namespace ChannelIo2

/-- When the last buffer is empty all of them are. -/
def InOrder (bbarr : List (List UInt8)) : Prop := last bbarr = [] → bbarr.flatten = []

theorem last_cons (b c : List UInt8) (bs : List (List UInt8)) : last (b :: c :: bs) = last (c :: bs) := rfl

theorem last_consume {bbarr : List (List UInt8)} : ∀ {n : Nat}, InOrder bbarr → last (consume n bbarr) = [] →
    bbarr.flatten.length ≤ n := by
  induction bbarr with
  | nil => exact fun _ _ => Nat.zero_le _
  | cons b bs ih =>
    intro n h hlast
    cases bs with
    | nil =>
      have hdrop : b.drop n = [] := hlast
      simpa using List.drop_eq_nil_iff.mp hdrop
    | cons c bs =>
      have htail : InOrder (c :: bs) := fun hl => (List.append_eq_nil_iff.mp (h hl)).2
      have hle : (c :: bs).flatten.length ≤ n - b.length := ih htail hlast
      rw [List.flatten_cons, List.length_append]
      rcases Nat.eq_zero_or_pos (c :: bs).flatten.length with hzero | hpos
      · -- Then the last one was empty before.
        have hnil : last (c :: bs) = [] := by
          by_contra hne
          exact flatten_ne_nil hne (List.length_eq_zero_iff.mp hzero)
        have hb : b = [] := (List.append_eq_nil_iff.mp (h hnil)).1
        rw [hzero, hb]
        exact Nat.zero_le _
      · omega

theorem inOrder_consume {bbarr : List (List UInt8)} (h : InOrder bbarr) (n : Nat) : InOrder (consume n bbarr) :=
  fun hlast => by rw [flatten_consume, List.drop_eq_nil_iff]; exact last_consume h hlast

theorem written_writeAll {s : Sink} {bbarr : List (List UInt8)} (h : InOrder bbarr) :
    (writeAll s bbarr).written = s.written ++ bbarr.flatten := by
  fun_induction writeAll s bbarr with
  | case1 s bbarr hlast => rw [h hlast, List.append_nil]
  | case2 s bbarr hlast ih =>
    rw [ih (inOrder_consume h _), Sink.write, flatten_consume, List.append_assoc, List.take_append_drop]

/-- No buffer is empty, so the last one is not. -/
theorem inOrder_of_ne {bbarr : List (List UInt8)} (h : ∀ b ∈ bbarr, b ≠ []) : InOrder bbarr := by
  intro hlast
  cases hl : bbarr.getLast? with
  | none => rw [List.getLast?_eq_none_iff.mp hl, List.flatten_nil]
  | some b =>
    have hb : b = [] := by rwa [last, hl] at hlast
    exact absurd hb (h b (List.mem_of_getLast? hl))

theorem flatten_filter (bs : List (List UInt8)) : (bs.filter (· ≠ [])).flatten = bs.flatten := by
  induction bs with
  | nil => rfl
  | cons b bs ih => cases b <;> simp_all

theorem send_eq (s : Sink) (buffs : List ByteBuffer) :
    (send s buffs).written = s.written ++ frame (content buffs) := by
  have hne : ∀ b ∈ leBytes 4 (cnt buffs).toNat :: (buffs.map ByteBuffer.remaining).filter (· ≠ []), b ≠ [] := by
    intro b hb
    rcases List.mem_cons.mp hb with rfl | hb
    · exact List.ne_nil_of_length_pos (by simp)
    · simpa using (List.mem_filter.mp hb).2
  rw [send, written_writeAll (inOrder_of_ne hne), List.flatten_cons, flatten_filter, leBytes_cnt]
  rfl

end ChannelIo2

end PxpRpc.Transport.Java
