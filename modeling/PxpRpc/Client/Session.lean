import PxpRpc.Lib.Bytes

/-!
# Session ids on the client side

The id of an error response is the id of its request with the top bit turned over.
-/
namespace PxpRpc.Client

abbrev Sid := BitVec 32

namespace Sid

/-- The id of a request that is not answered. -/
def signal : Sid := 0xffffffff#32

def errorBit : Sid := 0x80000000#32

def mask : Sid := 0x7fffffff#32

/-- The id at the front of a frame. -/
def read (frame : List UInt8) : Sid := BitVec.ofNat 32 (Lib.leValue (frame.take 4))

/-- The id of the error response. -/
def error (sid : Sid) : Sid := sid ^^^ errorBit

/-- The id is that of an error response. -/
def IsError (sid : Sid) : Prop := sid &&& errorBit ≠ 0#32

instance (sid : Sid) : Decidable sid.IsError := inferInstanceAs (Decidable (_ ≠ _))

theorem error_ne (sid : Sid) : sid.error ≠ sid := by
  intro h
  have := congrArg (fun y => y[31]) h
  simp [error, errorBit] at this

theorem and_mask {sid : Sid} (h : ¬ sid.IsError) : sid &&& mask = sid := by
  have h' : sid[31] = false := by
    have := congrArg (fun y => y[31]) (not_not.mp h)
    simpa [errorBit] using this
  ext i hi
  interval_cases i <;> simp_all [mask]

theorem error_and_mask {sid : Sid} (h : sid.IsError) : error (sid &&& mask) = sid := by
  have h' : sid[31] = true := by
    by_contra hn
    refine h ?_
    ext i hi
    interval_cases i <;> simp_all [errorBit]
  ext i hi
  interval_cases i <;> simp_all [error, mask, errorBit]

theorem isError_signal : signal.IsError := by decide

theorem not_isError_mask (sid : Sid) : ¬ IsError (sid &&& mask) := by
  refine not_not.mpr ?_
  ext i hi
  interval_cases i <;> simp [mask, errorBit]

/-- The response with this id is one to the request with that sid. -/
def Answers (id sid : Sid) : Prop := id = sid ∨ id = sid.error

instance (id sid : Sid) : Decidable (id.Answers sid) := inferInstanceAs (Decidable (_ ∨ _))

theorem answers_mask (id : Sid) : id.Answers (id &&& mask) := by
  by_cases h : id.IsError
  · exact .inr (error_and_mask h).symm
  · exact .inl (and_mask h).symm

theorem isError_error {sid : Sid} (h : ¬ sid.IsError) : sid.error.IsError := by
  have h' : sid[31] = false := by
    have := congrArg (fun y => y[31]) (not_not.mp h)
    simpa [errorBit] using this
  intro hn
  have := congrArg (fun y => y[31]) hn
  simp [error, errorBit, h'] at this

/-- The two ids that answer a request without an error bit are its sid and its sid with one. -/
theorem Answers.mask {id sid : Sid} (h : id.Answers sid) (hs : ¬ sid.IsError) : id &&& Sid.mask = sid := by
  rcases h with rfl | rfl
  · exact and_mask hs
  · have hinj := error_and_mask (isError_error hs)
    have := congrArg error hinj
    simpa [error, BitVec.xor_assoc] using this

theorem Answers.isError_iff {id sid : Sid} (h : id.Answers sid) (hs : ¬ sid.IsError) : id.IsError ↔ sid ≠ id := by
  rcases h with rfl | rfl
  · simp [hs]
  · simp [isError_error hs, (error_ne sid).symm]

end Sid

end PxpRpc.Client
