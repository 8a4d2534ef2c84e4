import Nanosig.Lib.TransitionSystem
import Nanosig.Ringbuf.Refinement

/-! One writer and one reader on a ring, step by step: every load of `r` or `w`, every byte
copied and every store of an index is one step. Each party alone changes its own index, so
the order of the two loads inside one expression does not matter and is fixed here. -/
namespace Nanosig.Ringbuf.Threads

open ByteStore RingStore TransitionSystem

inductive WriterCall where
  | write (buf : Store) (len : Nat)
  | draftWrite (offset : Nat) (buf : Store) (len : Nat)
  | writeSkip (len : Nat)

inductive ReaderCall where
  | read (len : Nat)
  | readSkip (len : Nat)
  | peekCopy (offset len : Nat)
  | clear
  deriving DecidableEq

/- The writer by its next access. `copy` has stored `done` of `wl` bytes from the cell `start`
on; the bytes to publish are those of the call, or none for what the ring holds. -/
inductive WriterPc where
  | idle
  | loadW (call : WriterCall)
  | loadR (call : WriterCall) (w : Nat)
  | copy (start : Nat) (buf : Store) (done wl : Nat) (draft : Bool)
  | reload (wl : Nat) (bytes : Option (List UInt8))
  | store (w : Nat) (wl : Nat) (bytes : Option (List UInt8))

/- The reader by its next access. `copy` has the bytes `got` of `rl`, and the offset of a peek;
`store` has what the call consumes, each byte read or skipped. -/
inductive ReaderPc where
  | idle
  | loadFirst (call : ReaderCall)
  | loadSecond (call : ReaderCall) (index : Nat)
  | copy (start : Nat) (got : List UInt8) (rl : Nat) (peek : Option Nat)
  | reload (taken : List (Option UInt8))
  | store (r : Nat) (taken : List (Option UInt8))

/- The ring and both parties, with the bytes published and consumed so far; a peek is
recorded with the position of its first byte. -/
structure State where
  ring : RingBuffer
  writer : WriterPc
  reader : ReaderPc
  published : List UInt8
  consumed : List (Option UInt8)
  peeked : List (Nat × List UInt8)

inductive Label where
  | startWriter (call : WriterCall)
  | writer
  | startReader (call : ReaderCall)
  | reader

/- The cell of byte `i` of one or two `memcpy` from the cell `start` on. -/
def copyCell (size start i : Nat) : Nat := if i < sub32 size start then start + i else i - sub32 size start

def writerCopies (size w r : Nat) : WriterCall → WriterPc
  | .write buf len =>
      let wl := clip len (freeSizeOf size w r)
      if wl = 0 then .idle else .copy (w % size) buf 0 wl false
  | .draftWrite offset buf len =>
      let freeSize := freeSizeOf size w r
      if offset ≥ freeSize then .idle
      else
        let wl := clip len (freeSize - offset)
        if wl = 0 then .idle else .copy (add32 w offset % size) buf 0 wl true
  | .writeSkip len =>
      let wl := clip len (freeSizeOf size w r)
      if wl = 0 then .idle else .reload wl none

def WriterCall.len : WriterCall → Nat
  | .write _ len => len
  | .draftWrite _ _ len => len
  | .writeSkip len => len

def writerStep (s : State) : Option State :=
  match s.writer with
  | .idle => none
  | .loadW call => some { s with writer := .loadR call s.ring.w }
  | .loadR call w => some { s with writer := writerCopies s.ring.size w s.ring.r call }
  | .copy start buf done wl draft =>
      let buffer := Function.update s.ring.buf (copyCell s.ring.size start done) (buf done)
      let next :=
        if done + 1 < wl then .copy start buf (done + 1) wl draft
        else if draft then .idle
        else .reload wl (some (ByteStore.read buf 0 wl))
      some { s with ring := { s.ring with buf := buffer }, writer := next }
  | .reload wl bytes => some { s with writer := .store (fix s.ring.size (add32 s.ring.w wl)) wl bytes }
  | .store w wl bytes =>
      some { s with
        ring := { s.ring with w := w }
        writer := .idle
        published := s.published ++ bytes.getD (ringRead s.ring.size s.ring.buf s.ring.w wl) }

def readerCopies (size w r : Nat) : ReaderCall → ReaderPc
  | .read len =>
      let rl := clip len (toUint32 (dataSizeOf size w r))
      if rl = 0 then .idle else .copy (r % size) [] rl none
  | .readSkip len =>
      let rl := clip len (toUint32 (dataSizeOf size w r))
      if rl = 0 then .idle else .reload (List.replicate rl none)
  | .peekCopy offset len =>
      let dataSize := toUint32 (dataSizeOf size w r)
      if offset ≥ dataSize then .idle
      else if dataSize - offset < len then .idle
      else .copy (add32 r offset % size) [] len (some offset)
  | .clear => .store w (List.replicate (toUint32 (dataSizeOf size w r)) none)

/- `ns_ringbuf_read` loads `r` before `w`; the others load `w` first, and `ns_ringbuf_clear` only `w`. -/
def readerStep (s : State) : Option State :=
  match s.reader with
  | .idle => none
  | .loadFirst .clear => some { s with reader := readerCopies s.ring.size s.ring.w s.ring.r .clear }
  | .loadFirst (.read len) => some { s with reader := .loadSecond (.read len) s.ring.r }
  | .loadFirst call => some { s with reader := .loadSecond call s.ring.w }
  | .loadSecond (.read len) r => some { s with reader := readerCopies s.ring.size s.ring.w r (.read len) }
  | .loadSecond call w => some { s with reader := readerCopies s.ring.size w s.ring.r call }
  | .copy start got rl peek =>
      let got := got ++ [s.ring.buf (copyCell s.ring.size start got.length)]
      if got.length < rl then some { s with reader := .copy start got rl peek }
      else
        match peek with
        | some offset => some { s with reader := .idle, peeked := s.peeked ++ [(s.consumed.length + offset, got)] }
        | none => some { s with reader := .reload (got.map some) }
  | .reload taken => some { s with reader := .store (fix s.ring.size (add32 s.ring.r taken.length)) taken }
  | .store r taken => some { s with ring := { s.ring with r := r }, reader := .idle, consumed := s.consumed ++ taken }

/- A call returns at once when its length is 0. -/
def ReaderCall.returnsAtOnce : ReaderCall → Bool
  | .read len => len = 0
  | .readSkip len => len = 0
  | .peekCopy _ len => len = 0
  | .clear => false

def step (s : State) : Label → Option (State × Unit)
  | .startWriter call =>
      match s.writer with
      | .idle => some ({ s with writer := if call.len = 0 then .idle else .loadW call }, ())
      | _ => none
  | .writer => (writerStep s).map fun next => (next, ())
  | .startReader call =>
      match s.reader with
      | .idle => some ({ s with reader := if call.returnsAtOnce then .idle else .loadFirst call }, ())
      | _ => none
  | .reader => (readerStep s).map fun next => (next, ())

/- A ring as `ns_ringbuf_init` leaves it. -/
def Starts (s : State) : Prop :=
  (∃ buf size, init (some buf) size = .ok s.ring) ∧ s.writer = .idle ∧ s.reader = .idle ∧ s.published = [] ∧
    s.consumed = [] ∧ s.peeked = []

abbrev Reached (s : State) : Prop := Reachable Starts step (fun _ _ => True) s

def writerStores (s : State) : Option Nat :=
  match s.writer with
  | .copy start _ done _ _ => some (copyCell s.ring.size start done)
  | _ => none

def readerLoads (s : State) : Option Nat :=
  match s.reader with
  | .copy start got _ _ => some (copyCell s.ring.size start got.length)
  | _ => none

end Nanosig.Ringbuf.Threads
