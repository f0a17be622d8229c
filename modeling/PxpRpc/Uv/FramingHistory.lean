import PxpRpc.Uv.Framing

/-!
# Runs of the receiving side

The read callback takes whatever part of the length has arrived for the whole of
it, and never completes a body of no bytes. Otherwise every packet is delivered.
-/
namespace PxpRpc.Uv

open PxpRpc.Lib

/-! ### Frames and deliveries -/

theorem length_frame (p : Packet) : (frame p).length = 4 + p.1.length := by
  rw [frame, List.length_append, length_leBytes]

theorem frames_cons (p : Packet) (ps : List Packet) : frames (p :: ps) = leBytes 4 p.1.length ++ (p.1 ++ frames ps) := by
  rw [frames, List.flatMap_cons, frame, List.append_assoc, frames]

theorem deliveries_append (ps qs : List Packet) :
    deliveries (ps ++ qs) = deliveries ps ++ (qs.zipIdx ps.length).map fun (p, i) => delivery p i := by
  rw [deliveries, List.zipIdx_append, List.map_append, Nat.zero_add, deliveries]

theorem deliveries_snoc (ps : List Packet) (p : Packet) :
    deliveries (ps ++ [p]) = deliveries ps ++ [delivery p ps.length] := deliveries_append ps [p]

theorem length_deliveries (ps : List Packet) : (deliveries ps).length = ps.length := by
  rw [deliveries, List.length_map, List.length_zipIdx]

/-! ### Runs that read whole lengths -/

/-- Where a connection stands after `n` deliveries, with the packets `post` still to come. -/
inductive Phase (n : Nat) : List Packet → Conn → Prop
  | idle {post : List Packet} {nextBuf : UvBuf} {error : Option String} {done : List Completion} :
      Phase n post ⟨⟨none, nextBuf, none, false, error⟩, frames post, n, done⟩
  | length {post : List Packet} {done : List Completion} :
      Phase n post ⟨⟨some ⟨none, leBytes 4 0⟩, ⟨.length 0, 4⟩, some n, true, none⟩, frames post, n + 1, done⟩
  | body {p : Packet} {post : List Packet} {base : Block} {off : Nat} {done : List Completion}
      (hlen : base.length = p.1.length) (hholds : base.Holds (p.1.take off)) (hoff : off < p.1.length) :
      Phase n (p :: post) ⟨⟨some ⟨some base, leBytes 4 p.1.length⟩, ⟨.body off, p.1.length - off⟩, some n, true, none⟩,
        p.1.drop off ++ frames post, n + 1, done⟩

/-- The packets before have been delivered, and the connection stands at the next. -/
def Follows (ps : List Packet) (c : Conn) : Prop :=
  ∃ pre post, ps = pre ++ post ∧ c.done = deliveries pre ∧ Phase pre.length post c

theorem follows_connect (ps : List Packet) : Follows ps (connect ps) :=
  ⟨[], ps, rfl, rfl, .idle⟩

theorem follows_step {ps : List Packet} {c c' : Conn} {e : Event} (hne : ∀ p ∈ ps, p.1 ≠ [])
    (h : Follows ps c) (hw : WholeLength c e) (hs : step c e = some c') : Follows ps c' := by
  obtain ⟨pre, post, rfl, hd, hph⟩ := h
  cases hph with
  | @idle post nextBuf error done =>
    cases e with
    | receive =>
      obtain rfl := Option.some.inj hs
      refine ⟨pre, post, rfl, ?_, .length⟩
      exact (List.append_nil _).trans hd
    | read n => cases hs
  | @length post done =>
    cases e with
    | receive => cases hs
    | read n =>
      obtain rfl : n = 4 := hw fun buf hb => by
        obtain rfl := Option.some.inj hb
        rfl
      rw [step] at hs
      split at hs
      · rename_i hc
        cases post with
        | nil => exact absurd hc.2.2.2 (by simp [frames])
        | cons p post =>
          have hp : 0 < p.1.length := List.length_pos_iff.mpr (hne p (by simp))
          have hlen : leValue (leBytes 4 p.1.length) = p.1.length := leValue_leBytes_of_lt p.2
          have htake : (frames (p :: post)).take 4 = leBytes 4 p.1.length := by
            rw [frames_cons, List.take_left' (length_leBytes 4 _)]
          have hdrop : (frames (p :: post)).drop 4 = p.1 ++ frames post := by
            rw [frames_cons, List.drop_left' (length_leBytes 4 _)]
          have hfill : ([] : List UInt8) ++ leBytes 4 p.1.length ++ (leBytes 4 0).drop (0 + 4) =
              leBytes 4 p.1.length := by
            rw [List.nil_append, List.drop_eq_nil_of_le (by simp), List.append_nil]
          simp only [fill, htake, hdrop, Option.bind_some, sockUvReadCb, length_leBytes, List.take_zero,
            hfill, hlen] at hs
          obtain rfl := Option.some.inj hs
          refine ⟨pre, p :: post, rfl, (List.append_nil _).trans hd, ?_⟩
          exact @Phase.body _ p post (Block.malloc p.1.length) 0 _ (Block.length_malloc _)
            (Block.Holds.malloc _) hp
      · cases hs
  | @body p post base off done hlen hholds hoff =>
    cases e with
    | receive => cases hs
    | read n =>
      rw [step] at hs
      split at hs
      · rename_i hc
        obtain ⟨-, hn, hle, -⟩ := hc
        dsimp only at hle
        have htake : (p.1.drop off ++ frames post).take n = (p.1.drop off).take n :=
          List.take_append_of_le_length (by rw [List.length_drop]; omega)
        have hdrop : (p.1.drop off ++ frames post).drop n = p.1.drop (off + n) ++ frames post := by
          rw [List.drop_append_of_le_length (by rw [List.length_drop]; omega), List.drop_drop]
        have hofflen : (p.1.take off).length = off := by
          rw [List.length_take]
          omega
        obtain ⟨base', hwrite, hlen', hholds'⟩ := @Block.Holds.write _ _ ((p.1.drop off).take n) hholds (by
          simp
          omega)
        rw [hofflen] at hwrite
        rw [← List.take_add] at hholds'
        simp only [fill, htake, hdrop, Option.bind_some, hwrite, Option.map_some, sockUvReadCb,
          Nat.cast_pos.mpr hn, if_true, Base.add, Int.toNat_natCast] at hs
        split at hs
        · rename_i hend
          have hall : off + n = p.1.length := by omega
          obtain rfl := Option.some.inj hs
          rw [hall, List.take_length] at hholds'
          have hbase : base' = p.1.map some := hholds'.whole (hlen'.trans hlen)
          refine ⟨pre ++ [p], post, by simp, ?_, ?_⟩
          · rw [deliveries_snoc, ← hd, delivery, ← hbase]
            rfl
          · rw [hall, List.drop_length, List.nil_append, List.length_append, List.length_singleton]
            exact .idle
        · obtain rfl := Option.some.inj hs
          refine ⟨pre, p :: post, rfl, (List.append_nil _).trans hd, ?_⟩
          rw [Nat.sub_sub]
          exact .body (hlen'.trans hlen) hholds' (by omega)
      · cases hs

/-! ### Nothing is stuck -/

theorem sockUvReadCb_isSome {self : SockConn} {buf : PxprpcBytes} (h : self.recvBuf = some buf)
    (strerror : Int → String) (nread : Int) : (sockUvReadCb strerror self nread).isSome := by
  rw [sockUvReadCb, h, Option.bind_some]
  split
  · split
    · rfl
    · dsimp only
      split <;> rfl
  · split <;> rfl

/-- While packets are still to come, the connection can go on. -/
theorem follows_quiet {ps : List Packet} {c : Conn} (h : Follows ps c) (hq : Quiet c) :
    c.done = deliveries ps ∧ c.wire = [] ∧ AtLength c.sock := by
  obtain ⟨pre, post, rfl, hd, hph⟩ := h
  cases hph with
  | idle => cases hq .receive
  | @length post done =>
    cases post with
    | nil => exact ⟨by rw [List.append_nil]; exact hd, rfl, rfl, rfl⟩
    | cons p post =>
      have hs := hq (.read 4)
      have hc : 4 ≤ (frames (p :: post)).length := by
        rw [frames_cons]
        simp
      rw [step, if_pos ⟨rfl, by omega, le_rfl, hc⟩] at hs
      cases hs
  | @body p post base off done hlen hholds hoff =>
    have hs := hq (.read 1)
    have hc : 1 ≤ (p.1.drop off ++ frames post).length := by
      rw [List.length_append, List.length_drop]
      omega
    have hofflen : (p.1.take off).length = off := by
      rw [List.length_take]
      omega
    have hroom : (p.1.take off).length + ((p.1.drop off ++ frames post).take 1).length ≤ base.length := by
      rw [hofflen, List.length_take]
      omega
    obtain ⟨base', hwrite, -⟩ := hholds.write hroom
    rw [hofflen] at hwrite
    have hle : 1 ≤ p.1.length - off := by omega
    rw [step, if_pos ⟨rfl, by omega, hle, hc⟩] at hs
    simp only [fill, Option.bind_some, hwrite, Option.map_some, Option.map_eq_none_iff] at hs
    exact absurd hs (Option.isSome_iff_ne_none.mp (sockUvReadCb_isSome rfl _ _))

theorem follows_delivers {ps : List Packet} {c : Conn} (h : Follows ps c) : Delivers ps c where
  order := by
    obtain ⟨pre, post, rfl, hd, -⟩ := h
    rw [hd, deliveries_append]
    exact List.prefix_append _ _
  once := by
    obtain ⟨pre, post, rfl, hd, hph⟩ := h
    rw [hd, length_deliveries]
    cases hph <;> rfl
  all := follows_quiet h

/-! ### What a run takes from the stream

A delivered packet counts for its length and its body, a receive in progress for
its length and what it has read. A read never takes more than it counts for, and
a read of part of a length takes less. -/

def Completion.weight (d : Completion) : Nat := d.buf.base.elim 0 fun base => 4 + base.length

def SockConn.weight (self : SockConn) : Nat :=
  (self.recvBuf.bind PxprpcBytes.base).elim 0 fun base => 4 + base.length - self.nextBuf.len

def Conn.weight (c : Conn) : Nat := c.wire.length + c.sock.weight + (c.done.map Completion.weight).sum

/-- The states every run goes through. -/
inductive Shape : SockConn → Prop
  | idle {nextBuf : UvBuf} {error : Option String} : Shape ⟨none, nextBuf, none, false, error⟩
  | length {p : Nat} {error : Option String} :
      Shape ⟨some ⟨none, leBytes 4 0⟩, ⟨.length 0, 4⟩, some p, true, error⟩
  | body {base : Block} {length : List UInt8} {off len p : Nat} {error : Option String}
      (hoff : off + len = base.length) :
      Shape ⟨some ⟨some base, length⟩, ⟨.body off, len⟩, some p, true, error⟩

/-- No receive has completed without a body. -/
structure Regular (c : Conn) : Prop where
  shape : Shape c.sock
  bodied : ∀ d ∈ c.done, d.buf.base ≠ some []

theorem regular_connect (ps : List Packet) : Regular (connect ps) := ⟨.idle, fun _ h => by cases h⟩

theorem regular_step {c c' : Conn} {e : Event} (h : Regular c) (hs : step c e = some c') :
    Regular c' ∧ c.weight ≤ c'.weight ∧ (¬ WholeLength c e → c.weight < c'.weight) := by
  obtain ⟨⟨recvBuf, nextBuf, readCb, reading, error⟩, wire, started, done⟩ := c
  obtain ⟨hshape, hbodied⟩ := h
  cases e with
  | receive =>
    cases hshape with
    | idle =>
      obtain rfl := Option.some.inj hs
      exact ⟨⟨.length, by simpa using hbodied⟩, by simp [Conn.weight, SockConn.weight], fun hw => absurd trivial hw⟩
    | length => cases hs
    | body hoff => cases hs
  | read n =>
    rw [step] at hs
    split at hs
    · rename_i hc
      obtain ⟨hr, hn, hle, hwire⟩ := hc
      cases hshape with
      | idle => cases hr
      | length =>
        simp only [fill, Option.bind_some, sockUvReadCb, Nat.cast_pos.mpr hn, if_true, Option.map_some] at hs
        generalize (leBytes 4 0).take 0 ++ wire.take n ++ (leBytes 4 0).drop (0 + (wire.take n).length) =
          length at hs
        obtain rfl := Option.some.inj hs
        dsimp only at hle hwire
        refine ⟨⟨.body (by simp), by simpa using hbodied⟩, ?_, fun hw => ?_⟩
        · simp [Conn.weight, SockConn.weight]
          omega
        · have hne : n ≠ 4 := fun he => hw fun _ => he
          simp [Conn.weight, SockConn.weight]
          omega
      | @body base length off len p _ hoff =>
        dsimp only at hle hwire
        have hpart : WholeLength ⟨⟨some ⟨some base, length⟩, ⟨.body off, len⟩, some p, true, error⟩, wire,
            started, done⟩ (.read n) := fun h => absurd (h _ rfl) (Option.some_ne_none base)
        obtain ⟨sock, hf, hs⟩ := Option.bind_eq_some_iff.mp hs
        obtain ⟨base', hwrite, rfl⟩ := Option.map_eq_some_iff.mp hf
        have hlen := Block.length_write hwrite
        simp only [sockUvReadCb, Option.bind_some, Nat.cast_pos.mpr hn, if_true, Base.add,
          Int.toNat_natCast] at hs
        split at hs
        · obtain rfl := Option.some.inj hs
          have hbase : base' ≠ [] := fun he => by
            rw [he] at hlen
            simp at hlen
            omega
          refine ⟨⟨.idle, ?_⟩, ?_, fun hw => absurd hpart hw⟩
          · simpa [complete, or_imp, forall_and] using ⟨hbodied, hbase⟩
          · simp [Conn.weight, SockConn.weight, complete, Completion.weight]
            omega
        · obtain rfl := Option.some.inj hs
          refine ⟨⟨.body (by omega), by simpa using hbodied⟩, ?_, fun hw => absurd hpart hw⟩
          simp [Conn.weight, SockConn.weight]
          omega
    · cases hs

theorem regular_run {es : List Event} : ∀ {c c' : Conn}, Regular c → run step c es = some c' →
    Regular c' ∧ c.weight ≤ c'.weight ∧ (c'.weight ≤ c.weight → Along step WholeLength c es) := by
  induction es with
  | nil =>
    intro c c' h hr
    obtain rfl := Option.some.inj hr
    exact ⟨h, le_rfl, fun _ => trivial⟩
  | cons e es ih =>
    intro c c' h hr
    obtain ⟨c₁, hs, hr⟩ := run_cons_eq_some.mp hr
    obtain ⟨h₁, hle₁, hlt₁⟩ := regular_step h hs
    obtain ⟨h', hle', hal⟩ := ih h₁ hr
    refine ⟨h', hle₁.trans hle', fun hle => ⟨?_, fun c₂ hs₂ => ?_⟩⟩
    · by_contra hw
      have := hlt₁ hw
      omega
    · obtain rfl := Option.some.inj (hs.symm.trans hs₂)
      exact hal (hle.trans hle₁)

theorem weight_deliveries (ps : List Packet) :
    ((deliveries ps).map Completion.weight).sum = (frames ps).length := by
  induction ps using List.reverseRecOn with
  | nil => rfl
  | append_singleton ps p ih =>
    rw [deliveries_snoc, List.map_append, List.sum_append, ih, frames, frames, List.flatMap_append,
      List.length_append]
    simp [Completion.weight, delivery, length_frame]

/-- Every packet is delivered exactly when none is empty and every read of a length
takes all four bytes. -/
theorem delivers_iff (ps : List Packet) (es : List Event) (c : Conn)
    (hr : run step (connect ps) es = some c) :
    ((∀ p ∈ ps, p.1 ≠ []) ∧ Along step WholeLength (connect ps) es → Delivers ps c) ∧
      (Quiet c → (Delivers ps c ↔ (∀ p ∈ ps, p.1 ≠ []) ∧ Along step WholeLength (connect ps) es)) := by
  have hforward : (∀ p ∈ ps, p.1 ≠ []) ∧ Along step WholeLength (connect ps) es → Delivers ps c :=
    fun ⟨hne, hal⟩ => follows_delivers (run_invariant (J := Follows ps)
      (fun _ _ _ hf hw hs => follows_step hne hf hw hs) (follows_connect ps) hal hr)
  refine ⟨hforward, fun hq => ⟨fun hd => ?_, hforward⟩⟩
  obtain ⟨hdone, hwire, hsock, hnext⟩ := hd.all hq
  obtain ⟨hreg, -, hal⟩ := regular_run (regular_connect ps) hr
  constructor
  · intro p hp he
    obtain ⟨i, hi, hpi⟩ := List.mem_iff_getElem.mp hp
    have hm : delivery p i ∈ c.done := by
      rw [hdone, deliveries, List.mem_map]
      exact ⟨(p, i), by rw [List.mem_zipIdx_iff_getElem?, List.getElem?_eq_getElem hi, hpi], rfl⟩
    exact hreg.bodied _ hm (by rw [delivery, he]; rfl)
  · refine hal (le_of_eq ?_)
    simp only [Conn.weight, SockConn.weight, hdone, hwire, hsock, weight_deliveries]
    simp [connect]

def abc : Packet := ⟨[97, 98, 99], by decide⟩

theorem delivers_abc :
    ∃ c, run step (connect [abc]) [.receive, .read 4, .read 2, .read 1, .receive] = some c ∧
      Delivers [abc] c := by
  obtain ⟨c, hc⟩ := Option.isSome_iff_exists.mp (show (run step (connect [abc])
    [.receive, .read 4, .read 2, .read 1, .receive]).isSome by decide)
  exact ⟨c, hc, (delivers_iff [abc] _ c hc).1 ⟨by decide, by decide⟩⟩

/-- The length of a packet of one byte arrives in two halves: the second half is
taken for the packet. -/
theorem not_delivers_split :
    ∃ c, run step (connect [⟨[7], by decide⟩]) [.receive, .read 2, .read 1] = some c ∧
      ¬ Delivers [⟨[7], by decide⟩] c := by
  obtain ⟨c, hc, hd⟩ : ∃ c, run step (connect [⟨[7], by decide⟩]) [.receive, .read 2, .read 1] = some c ∧
      ¬ c.done <+: deliveries [⟨[7], by decide⟩] := ⟨_, rfl, by decide⟩
  exact ⟨c, hc, fun h => hd h.order⟩

end PxpRpc.Uv
