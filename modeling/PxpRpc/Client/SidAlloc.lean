import PxpRpc.Lib.Run

/-!
# Session ids of the TypeScript and the Python client

The two extended clients allocate sids by the same loop: from a cursor on, it
passes the sids that are in use, and the cursor wraps at `sidEnd`. The second
time it gets there, the call raises.
-/
namespace PxpRpc.Client.Extend

open PxpRpc.Lib

def sidStart : Int := 1

def sidEnd : Int := 0xffff

structure RpcExtendError where
  message : String
deriving DecidableEq, Repr

/-- The part of `RpcExtendClient1` that allocates sids. The used sids are the keys that
TypeScript maps to `true`, and a set in Python. -/
structure RpcExtendClient1 where
  usedSid : Finset Int
  nextSid : Int
deriving DecidableEq

/-- The loop of `allocSid`: the cursor when it stops, or when the exception is raised. -/
def search (usedSid : Finset Int) (nextSid : Int) (reachEnd : Bool) : Except Int Int :=
  if nextSid ∈ usedSid then
    if sidEnd ≤ nextSid + 1 then
      if reachEnd then .error (nextSid + 1) else search usedSid sidStart true
    else search usedSid (nextSid + 1) reachEnd
  else .ok nextSid
-- The cursor wraps once, and otherwise it approaches the end of the range.
termination_by ((!reachEnd).toNat, (sidEnd - nextSid).toNat)
decreasing_by
  · exact .left _ _ (by simp_all)
  · exact .right _ (by omega)

/-- The cursor after a sid has been taken. -/
def advance (sid : Int) : Int := if sidEnd ≤ sid + 1 then sidStart else sid + 1

namespace RpcExtendClient1

def init : RpcExtendClient1 := ⟨∅, sidStart⟩

def allocSid (client : RpcExtendClient1) : Except RpcExtendError Int × RpcExtendClient1 :=
  match search client.usedSid client.nextSid false with
  | .ok sid => (.ok sid, ⟨insert sid client.usedSid, advance sid⟩)
  | .error nextSid => (.error ⟨"No sid available"⟩, { client with nextSid })

/-- A sid that is not in use is passed over. -/
def freeSid (client : RpcExtendClient1) (index : Int) : RpcExtendClient1 :=
  { client with usedSid := client.usedSid.erase index }

end RpcExtendClient1

theorem allocSid_ok {client : RpcExtendClient1} {sid : Int} (h : search client.usedSid client.nextSid false = .ok sid) :
    client.allocSid = (.ok sid, ⟨insert sid client.usedSid, advance sid⟩) := by
  rw [RpcExtendClient1.allocSid, h]

theorem allocSid_error {client : RpcExtendClient1} {cursor : Int}
    (h : search client.usedSid client.nextSid false = .error cursor) :
    client.allocSid = (.error ⟨"No sid available"⟩, { client with nextSid := cursor }) := by
  rw [RpcExtendClient1.allocSid, h]

/-! ### The search -/

/-- Every sid of the range is in use. -/
def Exhausted (usedSid : Finset Int) : Prop := ∀ sid, sidStart ≤ sid → sid < sidEnd → sid ∈ usedSid

theorem search_free {usedSid : Finset Int} {nextSid : Int} {reachEnd : Bool} (h : nextSid ∉ usedSid) :
    search usedSid nextSid reachEnd = .ok nextSid := by
  rw [search, if_neg h]

theorem search_ok {usedSid : Finset Int} {nextSid sid : Int} {reachEnd : Bool} (hstart : sidStart ≤ nextSid)
    (hend : nextSid < sidEnd) (h : search usedSid nextSid reachEnd = .ok sid) :
    sidStart ≤ sid ∧ sid < sidEnd ∧ sid ∉ usedSid := by
  fun_induction search usedSid nextSid reachEnd with
  | case1 nextSid hmem hlast => cases h
  | case2 nextSid hmem hlast _ _ ih => exact ih le_rfl (by decide) h
  | case3 nextSid reachEnd hmem hlast ih => exact ih (by omega) (by omega) h
  | case4 nextSid reachEnd hmem =>
    cases h
    exact ⟨hstart, hend, hmem⟩

/-- The search fails behind the range, when it has met no free sid from the cursor on. -/
theorem search_error {usedSid : Finset Int} {nextSid cursor : Int} {reachEnd : Bool} (hstart : sidStart ≤ nextSid)
    (hend : nextSid < sidEnd) (h : search usedSid nextSid reachEnd = .error cursor) :
    cursor = sidEnd ∧ ∀ sid, nextSid ≤ sid → sid < sidEnd → sid ∈ usedSid := by
  fun_induction search usedSid nextSid reachEnd with
  | case1 nextSid hmem hlast =>
    cases h
    refine ⟨by omega, fun sid hs hl => ?_⟩
    rwa [show sid = nextSid by omega]
  | case2 nextSid hmem hlast _ _ ih =>
    obtain ⟨hc, hall⟩ := ih le_rfl (by decide) h
    exact ⟨hc, fun sid hs => hall sid (by omega)⟩
  | case3 nextSid reachEnd hmem hlast ih =>
    obtain ⟨hc, hall⟩ := ih (by omega) (by omega) h
    refine ⟨hc, fun sid hs hl => ?_⟩
    rcases eq_or_lt_of_le hs with rfl | hs
    · exact hmem
    · exact hall sid (by omega) hl
  | case4 nextSid reachEnd hmem => cases h

/-- Before the exception the cursor has been set back to `sidStart`. -/
theorem search_exhausted {usedSid : Finset Int} {nextSid cursor : Int} {reachEnd : Bool} (hfirst : reachEnd = false)
    (h : search usedSid nextSid reachEnd = .error cursor) : cursor = sidEnd ∧ Exhausted usedSid := by
  fun_induction search usedSid nextSid reachEnd with
  | case1 => cases hfirst
  | case2 => exact search_error le_rfl (by decide) h
  | case3 _ _ _ _ ih => exact ih hfirst h
  | case4 => cases h

/-- From `sidEnd`, where an exception leaves the cursor, the search begins anew when that
sid is in use. -/
theorem search_sidEnd {usedSid : Finset Int} (h : sidEnd ∈ usedSid) :
    search usedSid sidEnd false = search usedSid sidStart true := by
  rw [search, if_pos h, if_pos (by decide)]
  rfl

theorem advance_range {sid : Int} (hs : sidStart ≤ sid) : sidStart ≤ advance sid ∧ advance sid < sidEnd := by
  rw [advance]
  split
  · exact ⟨le_rfl, by decide⟩
  · exact ⟨by omega, by omega⟩

/-! ### Histories -/

inductive SidOp where
  | alloc
  | free (index : Int)
deriving DecidableEq, Repr

namespace RpcExtendClient1

def step (client : RpcExtendClient1) : SidOp → Option RpcExtendClient1
  | .alloc => some client.allocSid.2
  | .free index => some (client.freeSid index)

/-- An allocation returns a sid of the range that was not in use and marks that one; or it
raises, when all sids of the range are in use. -/
def Allocates (client : RpcExtendClient1) : SidOp → Prop
  | .free _ => True
  | .alloc =>
    match client.allocSid with
    | (.ok sid, client') =>
      sidStart ≤ sid ∧ sid < sidEnd ∧ sid ∉ client.usedSid ∧ client'.usedSid = insert sid client.usedSid
    | (.error _, client') => Exhausted client.usedSid ∧ client'.usedSid = client.usedSid

/-- The cursor is not behind the range, or the sid there is in use as well. -/
def CursorValid (client : RpcExtendClient1) : SidOp → Prop
  | .free _ => True
  | .alloc => client.nextSid = sidEnd → sidEnd ∈ client.usedSid

end RpcExtendClient1

/-- Where the cursor can be. -/
structure Regular (client : RpcExtendClient1) : Prop where
  start : sidStart ≤ client.nextSid
  limit : client.nextSid ≤ sidEnd

namespace Regular

variable {client client' : RpcExtendClient1}

theorem init : Regular .init := ⟨le_rfl, by decide⟩

theorem search_ok (hr : Regular client) (hv : client.CursorValid .alloc) {sid : Int}
    (h : search client.usedSid client.nextSid false = .ok sid) :
    sidStart ≤ sid ∧ sid < sidEnd ∧ sid ∉ client.usedSid := by
  rcases eq_or_lt_of_le hr.limit with he | hl
  · rw [he, search_sidEnd (hv he)] at h
    exact Extend.search_ok le_rfl (by decide) h
  · exact Extend.search_ok hr.start hl h

/-- Wherever the search starts, it does not end before the cursor or the range. -/
theorem start_le (hr : Regular client) {sid : Int} (h : search client.usedSid client.nextSid false = .ok sid) :
    sidStart ≤ sid := by
  by_cases hv : client.CursorValid .alloc
  · exact (hr.search_ok hv h).1
  · obtain ⟨he, hm⟩ := Classical.not_imp.mp hv
    rw [he, search_free hm] at h
    cases h
    decide

theorem step {op : SidOp} (hr : Regular client) (hs : client.step op = some client') : Regular client' := by
  cases op with
  | alloc =>
    obtain rfl := Option.some.inj hs
    cases h : search client.usedSid client.nextSid false with
    | ok sid =>
      rw [allocSid_ok h]
      obtain ⟨hstart, hlimit⟩ := advance_range (hr.start_le h)
      exact ⟨hstart, hlimit.le⟩
    | error cursor =>
      rw [allocSid_error h]
      obtain ⟨rfl, -⟩ := search_exhausted rfl h
      exact ⟨(by decide : sidStart ≤ sidEnd), le_rfl⟩
  | free index =>
    obtain rfl := Option.some.inj hs
    exact ⟨hr.start, hr.limit⟩

theorem allocates_iff (hr : Regular client) (op : SidOp) : client.Allocates op ↔ client.CursorValid op := by
  cases op with
  | free index => exact Iff.rfl
  | alloc =>
    rw [RpcExtendClient1.Allocates]
    cases h : search client.usedSid client.nextSid false with
    | ok sid =>
      rw [allocSid_ok h]
      refine ⟨fun ha hc => ?_, fun hv => ?_⟩
      · -- The sid behind the range would be returned.
        by_contra hm
        rw [hc, search_free hm] at h
        cases h
        exact lt_irrefl _ ha.2.1
      · obtain ⟨hstart, hend, hm⟩ := hr.search_ok hv h
        exact ⟨hstart, hend, hm, rfl⟩
    | error cursor =>
      rw [allocSid_error h]
      obtain ⟨-, hall⟩ := search_exhausted rfl h
      refine ⟨fun _ hc => ?_, fun _ => ⟨hall, rfl⟩⟩
      by_contra hm
      rw [hc, search_free hm] at h
      cases h

end Regular

/-- In a history every allocation keeps to the law exactly when the cursor is not left
behind the range with the sid there free. -/
theorem history_law_iff (ops : List SidOp) :
    Along RpcExtendClient1.step RpcExtendClient1.Allocates .init ops ↔
      Along RpcExtendClient1.step RpcExtendClient1.CursorValid .init ops :=
  along_iff (J := Regular) (L := fun _ _ => True) (fun _ _ _ hr _ _ hs => hr.step hs)
    (fun _ op hr _ => hr.allocates_iff op) Regular.init (Along.of_forall fun _ _ => trivial)

/-! ### The call after an exception -/

/-- When all sids are in use, the first call raises and the second one is given `sidEnd`. -/
theorem exhausted_breaks {client : RpcExtendClient1} (hr : Regular client) (hlimit : client.nextSid < sidEnd)
    (hall : Exhausted client.usedSid) (hfree : sidEnd ∉ client.usedSid) :
    ¬ Along RpcExtendClient1.step RpcExtendClient1.Allocates client [.alloc, .alloc] := by
  intro h
  have hraise : search client.usedSid client.nextSid false = .error sidEnd := by
    cases hsearch : search client.usedSid client.nextSid false with
    | ok sid =>
      obtain ⟨hs, hl, hm⟩ := search_ok hr.start hlimit hsearch
      exact absurd (hall sid hs hl) hm
    | error cursor => rw [(search_exhausted rfl hsearch).1]
  have hleft : client.step .alloc = some { client with nextSid := sidEnd } := by
    rw [RpcExtendClient1.step, allocSid_error hraise]
  have hsecond := (h.2 _ hleft).1
  rw [RpcExtendClient1.Allocates, allocSid_ok (search_free hfree)] at hsecond
  exact lt_irrefl _ hsecond.2.1

/-- The client after a number of allocations. -/
def filled : Nat → RpcExtendClient1
  | 0 => .init
  | n + 1 => ⟨insert (n + 1 : Int) (filled n).usedSid, advance (n + 1)⟩

theorem mem_filled {n : Nat} {sid : Int} : sid ∈ (filled n).usedSid ↔ sidStart ≤ sid ∧ sid ≤ n := by
  induction n with
  | zero =>
    simp only [filled, RpcExtendClient1.init, Finset.notMem_empty, sidStart, false_iff]
    omega
  | succ n ih =>
    simp only [filled, Finset.mem_insert, ih, sidStart]
    push_cast
    omega

theorem nextSid_filled {n : Nat} (hn : n < 65534) : (filled n).nextSid = n + 1 := by
  cases n with
  | zero => rfl
  | succ n =>
    rw [filled, advance, if_neg (by rw [sidEnd]; omega)]
    push_cast
    rfl

theorem filled_alloc {n : Nat} (hn : n < 65534) : (filled n).step .alloc = some (filled (n + 1)) := by
  have hfree : (n + 1 : Int) ∉ (filled n).usedSid := fun h => by
    have := (mem_filled.mp h).2
    omega
  have hsearch : search (filled n).usedSid (filled n).nextSid false = .ok (n + 1 : Int) := by
    rw [nextSid_filled hn, search_free hfree]
  rw [RpcExtendClient1.step, allocSid_ok hsearch]
  rfl

theorem run_filled {n : Nat} : ∀ {m : Nat}, m + n ≤ 65534 →
    run RpcExtendClient1.step (filled m) (List.replicate n .alloc) = some (filled (m + n)) := by
  induction n with
  | zero => intro m _; rfl
  | succ n ih =>
    intro m hm
    rw [List.replicate_succ, run_cons, filled_alloc (by omega), Option.bind_some, ih (by omega),
      Nat.add_right_comm, Nat.add_assoc]

/-- All sids are taken, one more is asked for, and another one. -/
def outOfSids : List SidOp := List.replicate 65534 .alloc ++ [.alloc, .alloc]

theorem outOfSids_breaks : ¬ Along RpcExtendClient1.step RpcExtendClient1.Allocates .init outOfSids := by
  intro h
  have hrun : run RpcExtendClient1.step .init (List.replicate 65534 .alloc) = some (filled 65534) :=
    run_filled (m := 0) (by decide)
  have hlast := (Along.append h hrun).2
  have hmem (sid : Int) : sid ∈ (filled 65534).usedSid ↔ sidStart ≤ sid ∧ sid ≤ (65534 : Nat) := mem_filled
  have hnext : (filled 65534).nextSid = sidStart := rfl
  generalize filled 65534 = client at hlast hmem hnext
  refine exhausted_breaks ⟨hnext.ge, ?_⟩ ?_ (fun sid hs hl => (hmem sid).mpr ⟨hs, ?_⟩) (fun hm => ?_) hlast
  · rw [hnext]; decide
  · rw [hnext]; decide
  · rw [sidEnd] at hl
    omega
  · have hle := ((hmem sidEnd).mp hm).2
    rw [sidEnd] at hle
    omega

end PxpRpc.Client.Extend
