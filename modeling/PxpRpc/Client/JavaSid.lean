import PxpRpc.Lib.Run
import PxpRpc.Lib.Table

/-!
# Session ids of the Java client

`allocSid` looks for a sid from a cursor on. Its test of the table of used sids
is `ConcurrentHashMap.contains`, which looks among the values of the table.
-/
namespace PxpRpc.Client.Java

open PxpRpc.Lib

def sidStart : Int := 1

def sidEnd : Int := 0xffff

/-- The part of `RpcExtendClient1` that allocates sids; the table is a map from sids to objects. -/
structure RpcExtendClient1 where
  usedSid : Table Int Int
  nextSid : Int
deriving DecidableEq, Repr

/-- `ConcurrentHashMap.contains`: some key is mapped to the value. -/
def contains (table : Table Int Int) (value : Int) : Bool := table.any fun e => e.2 = value

/-- The loop of `allocSid`: the cursor when it stops, or when the exception is thrown. -/
def search (table : Table Int Int) : Nat → Int → Bool → Option (Except Int Int)
  | 0, _, _ => none
  | fuel + 1, nextSid, reachEnd =>
    if contains table nextSid then
      if nextSid + 1 ≥ sidEnd then
        if reachEnd then some (.error (nextSid + 1)) else search table fuel sidStart true
      else search table fuel (nextSid + 1) reachEnd
    else some (.ok nextSid)

/-- The cursor after a sid has been taken. -/
def advance (sid : Int) : Int := if sid + 1 ≥ sidEnd then sidStart else sid + 1

namespace RpcExtendClient1

def init : RpcExtendClient1 := ⟨[], sidStart⟩

def allocSid (client : RpcExtendClient1) : Option (Option Int × RpcExtendClient1) :=
  (search client.usedSid (2 * sidEnd.toNat) client.nextSid false).map fun
    | .ok sid => (some sid, ⟨client.usedSid.put sid 0, advance sid⟩)
    | .error nextSid => (none, { client with nextSid })

def freeSid (client : RpcExtendClient1) (index : Int) : RpcExtendClient1 :=
  { client with usedSid := client.usedSid.remove index }

end RpcExtendClient1

/-! ### Histories -/

inductive SidOp where
  | alloc
  | free (index : Int)
deriving DecidableEq, Repr

/-- A client and the sids that it has given out and that have not been given back. -/
structure History where
  client : RpcExtendClient1
  held : List Int

namespace History

def init : History := ⟨.init, []⟩

def step (h : History) : SidOp → Option History
  | .alloc =>
    h.client.allocSid.map fun
      | (some sid, client) => ⟨client, sid :: h.held⟩
      | (none, client) => ⟨client, h.held⟩
  | .free index => some ⟨h.client.freeSid index, h.held.filter (· ≠ index)⟩

/-- An allocation comes to an end; it returns a sid of the range that is not held, or
it throws when the whole range is held. -/
def Allocates (h : History) : SidOp → Prop
  | .free _ => True
  | .alloc =>
    match h.client.allocSid with
    | none => False
    | some (some sid, _) => sidStart ≤ sid ∧ sid < sidEnd ∧ sid ∉ h.held
    | some (none, _) => ∀ sid, sidStart ≤ sid → sid < sidEnd → sid ∈ h.held

/-- The sid at the cursor has been given back. -/
def CursorFree (h : History) : SidOp → Prop
  | .alloc => h.client.nextSid ∉ h.held
  | .free _ => True

end History

/-! ### The table -/

/-- No used sid is mapped to a sid: all are mapped to 0. -/
def Zeroed (table : Table Int Int) : Prop := ∀ e ∈ table, e.2 = 0

theorem Zeroed.put {table : Table Int Int} (h : Zeroed table) (sid : Int) : Zeroed (table.put sid 0) := by
  intro e he
  rcases Table.mem_put he with rfl | he
  · rfl
  · exact h e he

theorem Zeroed.remove {table : Table Int Int} (h : Zeroed table) (sid : Int) : Zeroed (table.remove sid) :=
  fun e he => h e (Table.mem_remove.mp he).1

theorem contains_zeroed {table : Table Int Int} (h : Zeroed table) {sid : Int} (hs : sidStart ≤ sid) :
    contains table sid = false := by
  rw [contains, List.any_eq_false]
  intro e he heq
  have hz := h e he
  have : e.2 = sid := by simpa using heq
  rw [sidStart] at hs
  omega

theorem search_zeroed {table : Table Int Int} (h : Zeroed table) {sid : Int} (hs : sidStart ≤ sid) (fuel : Nat)
    (reachEnd : Bool) : search table (fuel + 1) sid reachEnd = some (.ok sid) := by
  rw [search, contains_zeroed h hs]
  rfl

theorem advance_range {sid : Int} (hs : sidStart ≤ sid) : sidStart ≤ advance sid ∧ advance sid < sidEnd := by
  rw [advance]
  split
  · exact ⟨le_rfl, by decide⟩
  · exact ⟨by omega, by omega⟩

/-- The sid at the cursor is returned, used or not. -/
theorem allocSid_zeroed {client : RpcExtendClient1} (hz : Zeroed client.usedSid) (hs : sidStart ≤ client.nextSid) :
    client.allocSid = some (some client.nextSid, ⟨client.usedSid.put client.nextSid 0, advance client.nextSid⟩) := by
  rw [RpcExtendClient1.allocSid, show 2 * sidEnd.toNat = 131069 + 1 from rfl, search_zeroed hz hs]
  rfl

/-- The cursor is in the range and the test of the loop always fails. -/
structure Regular (h : History) : Prop where
  zeroed : Zeroed h.client.usedSid
  start : sidStart ≤ h.client.nextSid
  limit : h.client.nextSid < sidEnd

namespace Regular

theorem init : Regular .init := ⟨fun e he => by simp [History.init, RpcExtendClient1.init] at he, le_rfl, by decide⟩

theorem step {h h' : History} {op : SidOp} (hr : Regular h) (hs : h.step op = some h') : Regular h' := by
  cases op with
  | alloc =>
    rw [History.step, allocSid_zeroed hr.zeroed hr.start] at hs
    obtain rfl := Option.some.inj hs
    obtain ⟨hstart, hlimit⟩ := advance_range hr.start
    exact ⟨hr.zeroed.put _, hstart, hlimit⟩
  | free index =>
    obtain rfl := Option.some.inj hs
    exact ⟨hr.zeroed.remove index, hr.start, hr.limit⟩

theorem allocates_iff {h : History} (hr : Regular h) (op : SidOp) : h.Allocates op ↔ h.CursorFree op := by
  cases op with
  | free index => exact Iff.rfl
  | alloc =>
    rw [History.Allocates, allocSid_zeroed hr.zeroed hr.start]
    exact ⟨fun ha => ha.2.2, fun hc => ⟨hr.start, hr.limit, hc⟩⟩

end Regular

/-- A history allocates as it should exactly when at each allocation the sid at the
cursor is not held. -/
theorem history_allocates_iff (ops : List SidOp) :
    Along History.step History.Allocates .init ops ↔ Along History.step History.CursorFree .init ops :=
  along_iff (J := Regular) (L := fun _ _ => True) (fun _ _ _ hr _ _ hs => hr.step hs)
    (fun _ op hr _ => hr.allocates_iff op) Regular.init (Along.of_forall fun _ _ => trivial)

/-! ### The condition on the operations -/

/-- The sid that an allocation returns after `n` others. -/
def cursor (n : Nat) : Int := sidStart + (n % 65534 : Nat)

theorem advance_cursor (n : Nat) : advance (cursor n) = cursor (n + 1) := by
  rw [advance, cursor, cursor, sidStart, sidEnd]
  split <;> omega

def allocs (ops : List SidOp) : Nat := ops.count .alloc

/-- Every sid has been given back when 65534 allocations have been made from the one that
returned it on. -/
def Returned (ops : List SidOp) : Prop :=
  ∀ pre mid post, ops = pre ++ .alloc :: (mid ++ .alloc :: post) → allocs mid + 1 = 65534 →
    .free (cursor (allocs pre)) ∈ mid

section

variable {ops pre mid : List SidOp} {op : SidOp} {h h' : History}

/-- The allocations decide where the cursor is. -/
structure Placed (ops : List SidOp) (h : History) : Prop extends Regular h where
  nextSid : h.client.nextSid = cursor (allocs ops)
  held : ∀ sid, sid ∈ h.held ↔
    ∃ pre mid, ops = pre ++ .alloc :: mid ∧ sid = cursor (allocs pre) ∧ .free sid ∉ mid

/-- Where the last operation of a list is cut off. -/
theorem append_one_eq_append_cons {i : SidOp} :
    ops ++ [op] = pre ++ i :: mid ↔
      mid = [] ∧ ops = pre ∧ op = i ∨ ∃ mid', mid = mid' ++ [op] ∧ ops = pre ++ i :: mid' := by
  constructor
  · intro he
    rcases List.eq_nil_or_concat mid with rfl | ⟨mid', op', rfl⟩
    · obtain ⟨rfl, ho⟩ := List.append_inj' he rfl
      exact .inl ⟨rfl, rfl, (List.cons.inj ho).1⟩
    · rw [List.concat_eq_append, ← List.cons_append, ← List.append_assoc] at he
      obtain ⟨rfl, ho⟩ := List.append_inj' he rfl
      obtain rfl := (List.cons.inj ho).1
      exact .inr ⟨mid', List.concat_eq_append, rfl⟩
  · rintro (⟨rfl, rfl, rfl⟩ | ⟨mid', rfl, rfl⟩)
    · rfl
    · simp

theorem allocs_append : allocs (pre ++ mid) = allocs pre + allocs mid := List.count_append

theorem Placed.init : Placed [] .init where
  toRegular := Regular.init
  nextSid := rfl
  held sid := by simp [History.init]

theorem Placed.step (hp : Placed ops h) (hs : h.step op = some h') : Placed (ops ++ [op]) h' where
  toRegular := hp.toRegular.step hs
  nextSid := by
    cases op with
    | alloc =>
      rw [History.step, allocSid_zeroed hp.zeroed hp.start] at hs
      obtain rfl := Option.some.inj hs
      change advance h.client.nextSid = _
      rw [hp.nextSid, advance_cursor, allocs_append]
      rfl
    | free index =>
      obtain rfl := Option.some.inj hs
      rw [allocs_append]
      exact hp.nextSid
  held sid := by
    simp only [append_one_eq_append_cons]
    cases op with
    | alloc =>
      rw [History.step, allocSid_zeroed hp.zeroed hp.start] at hs
      obtain rfl := Option.some.inj hs
      rw [List.mem_cons, hp.held, hp.nextSid]
      constructor
      · rintro (rfl | ⟨pre, mid, rfl, hsid, hfree⟩)
        · exact ⟨ops, [], .inl ⟨rfl, rfl, rfl⟩, rfl, List.not_mem_nil⟩
        · exact ⟨pre, mid ++ [.alloc], .inr ⟨mid, rfl, rfl⟩, hsid, by simpa using hfree⟩
      · rintro ⟨pre, mid, ⟨rfl, rfl, -⟩ | ⟨mid', rfl, rfl⟩, hsid, hfree⟩
        · exact .inl hsid
        · exact .inr ⟨pre, mid', rfl, hsid, by simpa using hfree⟩
    | free index =>
      obtain rfl := Option.some.inj hs
      rw [List.mem_filter, hp.held]
      constructor
      · rintro ⟨⟨pre, mid, rfl, hsid, hfree⟩, hne⟩
        exact ⟨pre, mid ++ [.free index], .inr ⟨mid, rfl, rfl⟩, hsid, by simpa [hfree] using hne⟩
      · rintro ⟨pre, mid, ⟨-, -, hop⟩ | ⟨mid', rfl, rfl⟩, hsid, hfree⟩
        · cases hop
        · simp only [List.mem_append, List.mem_singleton, SidOp.free.injEq, not_or] at hfree
          exact ⟨⟨pre, mid', rfl, hsid, hfree.1⟩, by simpa using hfree.2⟩

theorem Regular.exists_step (hr : Regular h) (op : SidOp) : ∃ h', h.step op = some h' := by
  cases op with
  | alloc => exact ⟨_, by rw [History.step, allocSid_zeroed hr.zeroed hr.start]; rfl⟩
  | free index => exact ⟨_, rfl⟩

theorem placed_run (ops : List SidOp) : ∃ h, run History.step .init ops = some h ∧ Placed ops h := by
  induction ops using List.reverseRecOn with
  | nil => exact ⟨.init, rfl, Placed.init⟩
  | append_singleton ops op ih =>
    obtain ⟨h, hr, hp⟩ := ih
    obtain ⟨h', hs⟩ := hp.exists_step op
    exact ⟨h', by rw [run_append, hr, Option.bind_some, run_cons, hs]; rfl, hp.step hs⟩

theorem cursor_eq_iff (m n : Nat) : cursor m = cursor n ↔ m % 65534 = n % 65534 := by
  rw [cursor, cursor]
  omega

/-- The allocation that was `n` allocations ago. -/
theorem exists_alloc {n : Nat} (hn : 0 < n) (h : n ≤ allocs ops) :
    ∃ pre mid, ops = pre ++ .alloc :: mid ∧ allocs mid + 1 = n := by
  induction ops with
  | nil => exact absurd (hn.trans_le h) (Nat.lt_irrefl 0)
  | cons op ops ih =>
    by_cases hle : n ≤ allocs ops
    · obtain ⟨pre, mid, rfl, hmid⟩ := ih hle
      exact ⟨op :: pre, mid, rfl, hmid⟩
    · cases op with
      | alloc =>
        have hcount : allocs (.alloc :: ops) = allocs ops + 1 := List.count_cons_self
        exact ⟨[], ops, rfl, by omega⟩
      | free index =>
        have hcount : allocs (.free index :: ops) = allocs ops := List.count_cons_of_ne (by simp)
        omega

theorem Placed.cursorFree_iff (hp : Placed ops h) : h.CursorFree .alloc ↔
    ∀ pre mid, ops = pre ++ .alloc :: mid → allocs mid + 1 = 65534 → .free (cursor (allocs pre)) ∈ mid := by
  have hcount : ∀ pre mid : List SidOp, allocs (pre ++ .alloc :: mid) = allocs pre + (allocs mid + 1) := fun pre mid => by
    rw [allocs_append]
    exact congrArg _ List.count_cons_self
  rw [History.CursorFree, hp.held, hp.nextSid]
  constructor
  · rintro hnone pre mid rfl hround
    by_contra hfree
    have hsame : cursor (allocs (pre ++ .alloc :: mid)) = cursor (allocs pre) := by
      rw [cursor_eq_iff, hcount]
      omega
    exact hnone ⟨pre, mid, rfl, hsame, hsame ▸ hfree⟩
  · rintro hround ⟨pre, mid, rfl, hsid, hfree⟩
    rw [cursor_eq_iff, hcount] at hsid
    have hle : 65534 ≤ allocs (.alloc :: mid) := by
      have : allocs (.alloc :: mid) = allocs mid + 1 := List.count_cons_self
      omega
    -- The last allocation that returned the sid is the one that counts.
    obtain ⟨pre', mid', hsplit, hlast⟩ := exists_alloc (by decide) hle
    have hmem := hround (pre ++ pre') mid' (by rw [hsplit, List.append_assoc]) hlast
    have hsame : cursor (allocs (pre ++ pre')) = cursor (allocs (pre ++ .alloc :: mid)) := by
      rw [hsplit, ← List.append_assoc, hcount, cursor_eq_iff]
      omega
    have hsuffix : .free (cursor (allocs (pre ++ pre'))) ∈ .alloc :: mid := by
      rw [hsplit]
      exact List.mem_append_right _ (List.mem_cons_of_mem _ hmem)
    rw [hsame] at hsuffix
    exact hfree (by simpa using hsuffix)

theorem returned_append_one_iff : Returned (ops ++ [op]) ↔ Returned ops ∧
    (op = .alloc → ∀ pre mid, ops = pre ++ .alloc :: mid → allocs mid + 1 = 65534 → .free (cursor (allocs pre)) ∈ mid) := by
  constructor
  · intro h
    refine ⟨fun pre mid post he hround => h pre mid (post ++ [op]) (by rw [he]; simp) hround, ?_⟩
    rintro rfl pre mid rfl hround
    exact h pre mid [] (by simp) hround
  · rintro ⟨h, hlast⟩ pre mid post he hround
    rw [append_one_eq_append_cons] at he
    obtain ⟨hnil, -⟩ | ⟨mid', hmid, rfl⟩ := he
    · exact absurd hnil (by simp)
    · rcases append_one_eq_append_cons.mp hmid.symm with ⟨rfl, rfl, rfl⟩ | ⟨post', rfl, rfl⟩
      · exact hlast rfl pre _ rfl hround
      · exact h pre mid post' rfl hround

/-- The sid at the cursor is never held exactly when no sid is held while 65534 allocations
are made. -/
theorem along_cursorFree_iff (ops : List SidOp) :
    Along History.step History.CursorFree .init ops ↔ Returned ops := by
  induction ops using List.reverseRecOn with
  | nil => exact iff_of_true trivial fun pre mid post he => absurd he (by simp)
  | append_singleton ops op ih =>
    obtain ⟨h, hr, hp⟩ := placed_run ops
    rw [along_append_iff hr, ih, returned_append_one_iff]
    refine and_congr_right fun _ => ?_
    cases op with
    | alloc => simpa [Along] using hp.cursorFree_iff
    | free index => exact iff_of_true ⟨trivial, fun _ _ => trivial⟩ fun he => by cases he

end

/-! ### A sid held while the cursor goes round -/

/-- A client whose sid 1 is held, with the cursor at a sid. -/
def holding (sid : Int) : History := ⟨⟨[(1, 0)], sid⟩, [1]⟩

/-- Calls that take a sid and give it back. -/
def calls (sid : Int) : Nat → List SidOp
  | 0 => []
  | n + 1 => .alloc :: .free sid :: calls (sid + 1) n

theorem run_call {sid : Int} (hs : 1 < sid) :
    run History.step (holding sid) [.alloc, .free sid] = some (holding (advance sid)) := by
  have hne : (1 : Int) ≠ sid := by omega
  have ha : (holding sid).client.allocSid = some (some sid, ⟨Table.put [(1, 0)] sid 0, advance sid⟩) :=
    allocSid_zeroed (by simp [Zeroed, holding]) (by rw [sidStart]; exact hs.le)
  rw [run_cons, History.step, ha]
  simp [run_cons, History.step, RpcExtendClient1.freeSid, Table.put, Table.remove, Table.keys, holding, hne, hne.symm]

theorem run_calls {n : Nat} : ∀ {sid : Int}, 1 < sid → sid + n < sidEnd →
    run History.step (holding sid) (calls sid n) = some (holding (sid + n)) := by
  induction n with
  | zero => intro sid hs hl; simp [calls]
  | succ n ih =>
    intro sid hs hl
    have hadv : advance sid = sid + 1 := by
      rw [advance, if_neg (by push_cast at hl; omega)]
    rw [calls, show SidOp.alloc :: SidOp.free sid :: calls (sid + 1) n = [.alloc, .free sid] ++ calls (sid + 1) n from rfl,
      run_append, run_call hs, Option.bind_some, hadv, ih (by omega) (by push_cast at hl; omega)]
    congr 2
    push_cast
    omega

/-- A long-running poll holds a sid while 65533 calls are made, and then another one. -/
def pollAndCalls : List SidOp := .alloc :: (calls 2 65532 ++ [.alloc, .free 65534]) ++ [.alloc]

/-- The last call is given the sid of the poll. -/
theorem pollAndCalls_reuses : ¬ Along History.step History.Allocates .init pollAndCalls := by
  intro h
  have hfirst : History.init.step .alloc = some (holding 2) := rfl
  have hcalls : run History.step (holding 2) (calls 2 65532) = some (holding 65534) :=
    run_calls (by decide) (by decide)
  have hlast : run History.step (holding 65534) [.alloc, .free 65534] = some (holding 1) := run_call (by decide)
  have hrun : run History.step .init (.alloc :: (calls 2 65532 ++ [.alloc, .free 65534])) = some (holding 1) := by
    rw [run_cons, hfirst, Option.bind_some, run_append, hcalls, Option.bind_some, hlast]
  have hall := (Along.append h hrun).2.1
  rw [History.Allocates, allocSid_zeroed (by simp [Zeroed, holding]) le_rfl] at hall
  simp [holding] at hall

end PxpRpc.Client.Java
