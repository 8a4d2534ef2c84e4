import Nanosig.Lib.ByteStore

/-! The streams of ns_formatio.c and the byte-wise output all formatting goes
through. The bytes a stream hands to its write callback are kept as chunks. -/
namespace Nanosig.Formatio

abbrev Byte := UInt8

def byte (c : Char) : Byte := c.toNat.toUInt8

/- `struct ns_stream_function`; `stop` is `end`. -/
structure StreamFunction where
  cache : Nat
  pos : Nat
  stop : Nat
  deriving DecidableEq

/- `struct ns_stream_memory` -/
structure StreamMemory where
  buf : Nat
  pos : Nat
  stop : Nat
  deriving DecidableEq

inductive Stream where
  | function (f : StreamFunction)
  | functionNoCache
  | memory (m : StreamMemory)
  | memoryUnbounded (m : StreamMemory)

/- A stream with the memory it points into and the chunks written so far; `finished`
counts the calls of the finish callback. -/
structure Output where
  stream : Stream
  memory : Nat → Byte
  chunks : List (List Byte)
  finished : Nat

def functionInit (memory : Nat → Byte) (cache cacheSize : Nat) : Output :=
  ⟨.function ⟨cache, cache, cache + cacheSize⟩, memory, [], 0⟩

def functionNoCacheInit (memory : Nat → Byte) : Output := ⟨.functionNoCache, memory, [], 0⟩

def memoryInit (memory : Nat → Byte) (buf size : Nat) : Output :=
  ⟨.memory ⟨buf, buf, if size ≠ 0 then buf + size else buf⟩, memory, [], 0⟩

/- `ns_vsprintf` initializes a memory stream of size 0 and changes its type. -/
def memoryUnboundedInit (memory : Nat → Byte) (buf : Nat) : Output :=
  ⟨.memoryUnbounded ⟨buf, buf, buf⟩, memory, [], 0⟩

def store (memory : Nat → Byte) (place : Nat) (ch : Byte) : Nat → Byte := Function.update memory place ch

def writeChunk (o : Output) (chunk : List Byte) : Output := { o with chunks := o.chunks ++ [chunk] }

/- `f->write(stream, f->cache, f->pos - f->cache); f->pos = f->cache;` -/
def flush (o : Output) (f : StreamFunction) : Output :=
  { writeChunk o (ByteStore.read o.memory f.cache (f.pos - f.cache)) with stream := .function { f with pos := f.cache } }

def streamoutInByte (o : Output) (ch : Byte) : Output :=
  match o.stream with
  | .function f =>
      if f.pos < f.stop then
        let o := { o with stream := .function { f with pos := f.pos + 1 }, memory := store o.memory f.pos ch }
        if f.pos + 1 = f.stop ∨ ch = byte '\n' then flush o { f with pos := f.pos + 1 } else o
      else if f.pos = f.stop then flush o f
      else o
  | .functionNoCache => writeChunk o [ch]
  | .memory m =>
      if m.pos < m.stop then
        { o with stream := .memory { m with pos := m.pos + 1 }, memory := store o.memory m.pos ch }
      else o
  | .memoryUnbounded m =>
      { o with stream := .memoryUnbounded { m with pos := m.pos + 1 }, memory := store o.memory m.pos ch }

def streamoutFinish (o : Output) : Output :=
  match o.stream with
  | .function f => if f.pos > f.cache then flush o f else o
  | .functionNoCache => { o with finished := o.finished + 1 }
  | .memory m =>
      if m.stop > m.buf then
        if m.pos < m.stop then { o with memory := store o.memory m.pos 0 }
        else { o with memory := store o.memory (m.stop - 1) 0 }
      else o
  | .memoryUnbounded m => { o with memory := store o.memory m.pos 0 }

/- The bytes passed to `streamout_in_byte` one after the other. -/
def emitAll (o : Output) (text : List Byte) : Output := text.foldl streamoutInByte o

@[simp] theorem emitAllNil (o : Output) : emitAll o [] = o := rfl

@[simp] theorem emitAllSingle (o : Output) (ch : Byte) : emitAll o [ch] = streamoutInByte o ch := rfl

theorem emitAllAppend (o : Output) (first second : List Byte) : emitAll o (first ++ second) = emitAll (emitAll o first) second :=
  List.foldl_append

theorem emitAllCons (o : Output) (ch : Byte) (rest : List Byte) : emitAll o (ch :: rest) = emitAll (streamoutInByte o ch) rest := rfl

def charOf (c : BitVec 32) : Byte := (c.truncate 8).toNat.toUInt8

/- `ns_stream_putc` -/
def streamPutc (o : Output) (c : BitVec 32) : Output := streamoutInByte o (charOf c)

def cString (s : List Byte) : List Byte := s.takeWhile (· ≠ 0)

/- `ns_stream_puts` -/
def streamPuts (o : Output) (s : List Byte) : Output × Int :=
  match o.stream with
  | .functionNoCache => (writeChunk o (cString s), (cString s).length)
  | _ => (emitAll o (cString s), (cString s).length)

end Nanosig.Formatio
