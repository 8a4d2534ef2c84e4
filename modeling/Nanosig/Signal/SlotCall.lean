import Nanosig.MpscRecordRing.Ring

/-! The record an emit queues for one connection: `ns_slot_call_t`, which is
three words of the width of `size_t`, followed by the payload bytes. -/
namespace Nanosig.Signal
open ByteStore MpscRecordRing

/- What a connection contributes to its records; pointers are words. -/
structure Slot (abi : Abi) where
  slotFn : Nat
  userData : Nat
  fnFits : slotFn < abi.modulus
  userDataFits : userData < abi.modulus

def sizeofSlotCall (abi : Abi) : Nat := 3 * abi.sizeofSizeT

/- The bytes of `call_header`. -/
def slotCall {abi : Abi} (slot : Slot abi) (payloadSize : Nat) : List UInt8 :=
  wordBytes abi.sizeofSizeT slot.slotFn ++ wordBytes abi.sizeofSizeT slot.userData ++
    wordBytes abi.sizeofSizeT payloadSize

theorem slotCallLength {abi : Abi} (slot : Slot abi) (payloadSize : Nat) :
    (slotCall slot payloadSize).length = sizeofSlotCall abi := by
  simp only [slotCall, List.length_append, wordBytesLength, sizeofSlotCall]
  omega

theorem slotCallFits (abi : Abi) : sizeofSlotCall abi < abi.modulus := by
  cases abi <;> decide

/- The argument checks of `ns_signal_emit_raw` against `signal->payload_size`;
`false` is `NS_E_INVAL`. -/
def emitRawAccepts {abi : Abi} (payloadSize : Nat) (payload : Part abi) : Bool :=
  if payloadSize ≠ payload.size then false
  else if payload.size > 0 ∧ payload.data.isNone then false
  else true

/- The two parts `ns_signal_emit_raw` hands to `try_pushv`. -/
def slotCallParts {abi : Abi} (slot : Slot abi) (payload : Part abi) : List (Part abi) :=
  [.ofBytes (slotCall slot payload.size) (by rw [slotCallLength]; exact slotCallFits abi), payload]

/- One call of a slot function: the function, its `user_data` and the bytes
behind its payload pointer, `none` for a NULL pointer. -/
structure SlotInvocation where
  fn : Nat
  userData : Nat
  payload : Option (List UInt8)
  deriving DecidableEq, Repr

/- How `ns_loop_dispatch_pending` reads a record; `none` when it is too short
and no slot is called. -/
def readSlotCall (abi : Abi) (record : List UInt8) : Option SlotInvocation :=
  if record.length ≥ sizeofSlotCall abi then
    let fn := wordValue (record.take abi.sizeofSizeT)
    let userData := wordValue ((record.drop abi.sizeofSizeT).take abi.sizeofSizeT)
    let payloadSize := wordValue ((record.drop (2 * abi.sizeofSizeT)).take abi.sizeofSizeT)
    some ⟨fn, userData,
      if payloadSize > 0 then some ((record.drop (sizeofSlotCall abi)).take payloadSize) else none⟩
  else none

def invocation {abi : Abi} (slot : Slot abi) (payload : Part abi) : SlotInvocation :=
  ⟨slot.slotFn, slot.userData, if payload.size > 0 then some payload.copied else none⟩

theorem wordRoundTrip {abi : Abi} {value : Nat} (fits : value < abi.modulus) :
    wordValue (wordBytes abi.sizeofSizeT value) = value := by
  rw [wordValueBytes, ← Abi.modulusBytes, Nat.mod_eq_of_lt fits]

theorem readSlotCallParts {abi : Abi} (slot : Slot abi) (given : Part abi)
    (readable : given.copied.length = given.size) :
    readSlotCall abi (payload (slotCallParts slot given)) = some (invocation slot given) := by
  have record : payload (slotCallParts slot given) =
      wordBytes abi.sizeofSizeT slot.slotFn ++ (wordBytes abi.sizeofSizeT slot.userData ++
        (wordBytes abi.sizeofSizeT given.size ++ given.copied)) := by
    simp [payload, slotCallParts, Part.ofBytes, Part.copied, slotCall]
  have whole : (payload (slotCallParts slot given)).length = sizeofSlotCall abi + given.size := by
    rw [record]
    simp only [List.length_append, wordBytesLength, readable, sizeofSlotCall]
    omega
  have second : (payload (slotCallParts slot given)).drop abi.sizeofSizeT =
      wordBytes abi.sizeofSizeT slot.userData ++ (wordBytes abi.sizeofSizeT given.size ++ given.copied) := by
    rw [record]
    exact List.drop_left' (wordBytesLength ..)
  have third : (payload (slotCallParts slot given)).drop (2 * abi.sizeofSizeT) =
      wordBytes abi.sizeofSizeT given.size ++ given.copied := by
    rw [Nat.two_mul, ← List.drop_drop, second]
    exact List.drop_left' (wordBytesLength ..)
  have last : (payload (slotCallParts slot given)).drop (sizeofSlotCall abi) = given.copied := by
    rw [sizeofSlotCall, Nat.succ_mul, ← List.drop_drop, third]
    exact List.drop_left' (wordBytesLength ..)
  have first : (payload (slotCallParts slot given)).take abi.sizeofSizeT =
      wordBytes abi.sizeofSizeT slot.slotFn := by
    rw [record]
    exact List.take_left' (wordBytesLength ..)
  unfold readSlotCall
  rw [if_pos (by omega)]
  simp only [first, second, third, last, List.take_left' (wordBytesLength ..), wordRoundTrip slot.fnFits,
    wordRoundTrip slot.userDataFits, wordRoundTrip given.sizeFits]
  rw [List.take_of_length_le (Nat.le_of_eq readable)]
  rfl

end Nanosig.Signal
