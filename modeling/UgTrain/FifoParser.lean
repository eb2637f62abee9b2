import UgTrain.CfgEntry
import UgTrain.Run

/-!
# The FIFO parser (`fifoparser.cpp`), forward mode

libmemhack writes one message a line into a FIFO. `readDynmemBuf` reads what is there behind the
rest of the last read, and `parseDynmemBuf` takes the complete lines off the front of the buffer
and calls a callback for each.

* `σ` is what the callbacks work on (`cfg` and `argp`).
* A callback cannot change the buffer: `queue_dynmem_addr` ends the message in it, but restores
  the byte. So the scan of a message (`scanMsg`) and the call (`ParseCb.call`) are two functions.
* `read` gives what the FIFO holds at that time, at most `maxRead` bytes of it.
-/

namespace UgTrain

open CLib

/-- `pmask`: the fields of an 'm' message to be scanned (`PARSE_S`, `PARSE_C`, `PARSE_O`). -/
structure PMask where
  s : Bool
  c : Bool
  o : Bool
  deriving DecidableEq, Repr

/-- The mask of the main loop: `PARSE_S | PARSE_C`. -/
def PMask.sc : PMask := ⟨true, true, false⟩

/-- `struct post_parse` without `argp`. -/
structure PostParse where
  ibuf : Str
  ppos : Nat
  msgEnd : Nat
  deriving DecidableEq, Repr

/-- `struct parse_cb`: `none` is a null pointer. -/
structure ParseCb (σ : Type) where
  mf : Option (PostParse → Ptr → SizeT → Ptr → Ptr → Ptr → σ → Except Fault σ)
  ff : Option (Ptr → σ → Except Fault σ)
  lf : Option (Str → σ → Except Fault σ)
  sf : Option (Ptr → σ → Except Fault σ)

/-- What a message makes the parser call, with the arguments. -/
inductive Call where
  | mf (pp : PostParse) (memAddr : Ptr) (memSize : SizeT) (codeOffs codeAddr stackOffs : Ptr)
  | ff (memAddr : Ptr)
  | lf (libName : Str)
  | sf (stackEnd : Ptr)
  /-- No callback: an unknown message, or one without a callback. -/
  | skip
  deriving DecidableEq, Repr

section Parser

variable {σ : Type}

def ParseCb.call (cb : ParseCb σ) : Call → σ → Except Fault σ
  | .mf pp memAddr memSize codeOffs codeAddr stackOffs, a =>
    match cb.mf with
    | some mf => mf pp memAddr memSize codeOffs codeAddr stackOffs a
    | none => .ok a
  | .ff memAddr, a => match cb.ff with | some ff => ff memAddr a | none => .ok a
  | .lf libName, a => match cb.lf with | some lf => lf libName a | none => .ok a
  | .sf stackEnd, a => match cb.sf with | some sf => sf stackEnd a | none => .ok a
  | .skip, a => .ok a

/-- `sscanf(pstart, ..)` for one number; `pstart` is the error position. -/
def scanAt (scan : Str → Option (BitVec 64 × Str)) (ibuf : Str) (pstart : Nat) :
    Except Nat (BitVec 64) :=
  match scan (ibuf.drop pstart) with
  | some (v, _) => .ok v
  | none => .error pstart

/-- The field behind the next `;`, if `pmask` asks for it: its letter and its number. Gives the
position of the number too. -/
def scanField (on : Bool) (ch : Char) (scan : Str → Option (BitVec 64 × Str)) (ibuf : Str)
    (pstart : Nat) : Except Nat (Nat × BitVec 64) :=
  if on then
    match strchr (ibuf.drop pstart) ';' with
    | none => .error pstart
    | some sepPos =>
      let pstart := pstart + sepPos + 1
      if scanChar (ibuf.drop pstart) = some ch then
        (scanAt scan ibuf (pstart + 1)).map fun v => (pstart + 1, v)
      else .error pstart
  else .ok (pstart, 0)

/-- `case 'm'`. -/
def scanMalloc (pmask : PMask) (codeOffs : Ptr) (ibuf : Str) (msgStart msgEnd : Nat) :
    Except Nat Call := do
  let memAddr ← scanAt scanPtr ibuf (msgStart + 1)
  let (pstart, memSize) ← scanField pmask.s 's' (scanULong 10) ibuf (msgStart + 1)
  let (pstart, codeAddr) ← scanField pmask.c 'c' scanPtr ibuf pstart
  let (pstart, stackOffs) ← scanField pmask.o 'o' scanPtr ibuf pstart
  return .mf ⟨ibuf, pstart, msgEnd⟩ memAddr memSize codeOffs codeAddr stackOffs

/-- `case 'l'`. -/
def scanLib (ibuf : Str) (msgStart msgEnd : Nat) : Except Nat Call :=
  let pstart := msgStart + 1
  if ibuf[pstart]? = some ';' then
    .ok (.lf ((ibuf.drop (pstart + 1)).take (msgEnd - (pstart + 1))))
  else .error pstart

/-- `case 'S'`. -/
def scanStackEnd (ibuf : Str) (msgStart : Nat) : Except Nat Call := do
  let stackEnd ← scanAt scanPtr ibuf (msgStart + 1)
  return if stackEnd = 0 then .skip else .sf stackEnd

/-- The `switch` on the first byte of a message: what to call, or the position of a parse
error. -/
def scanMsg (cb : ParseCb σ) (pmask : PMask) (codeOffs : Ptr) (ibuf : Str)
    (msgStart msgEnd : Nat) : Except Nat Call :=
  match scanChar (ibuf.drop msgStart) with
  | none => .error msgStart
  | some 'm' => if cb.mf.isSome then scanMalloc pmask codeOffs ibuf msgStart msgEnd else .ok .skip
  | some 'f' =>
    if cb.ff.isSome then (scanAt scanPtr ibuf (msgStart + 1)).map .ff else .ok .skip
  | some 'l' => if cb.lf.isSome then scanLib ibuf msgStart msgEnd else .ok .skip
  | some 'S' => if cb.sf.isSome then scanStackEnd ibuf msgStart else .ok .skip
  | some _ => .ok .skip

/-- What `parse_dynmem_buf` returns and leaves behind; `err` is the position of a parse error. -/
structure ParseRes (σ : Type) where
  ret : Nat
  ibuf : Str
  ilen : Nat
  err : Option Nat
  acc : σ
  deriving DecidableEq, Repr

/-- The message loop. `tmpIlen` is the number of bytes read, and then the length of the last
message. -/
def parseLoop (cb : ParseCb σ) (pmask : PMask) (codeOffs : Ptr) (ibuf : Str) (ilen tmpIlen : Nat)
    (a : σ) : Except Fault (ParseRes σ) :=
  match strchr ibuf '\n' with
  | none => .ok ⟨tmpIlen, ibuf, ilen, none, a⟩
  | some msgEnd =>
    match scanMsg cb pmask codeOffs ibuf 0 msgEnd with
    | .error ppos => do
      let ibuf ← memset ibuf 0 tmpIlen
      return ⟨0, ibuf, 0, some ppos, a⟩
    | .ok call => do
      let a ← cb.call call a
      if ilen < msgEnd + 1 then
        throw .negativeLength
      else
        -- move the rest to the front, zero what is behind the rest
        let ibuf ← memmove ibuf 0 (msgEnd + 1) (ilen - (msgEnd + 1))
        let ibuf ← memset ibuf (ilen - (msgEnd + 1)) (msgEnd + 1)
        parseLoop cb pmask codeOffs ibuf (ilen - (msgEnd + 1)) (msgEnd + 1) a
  termination_by ilen
  decreasing_by omega

/-- `parse_dynmem_buf` with `reverse = false`. -/
def parseDynmemBuf (cb : ParseCb σ) (ibuf : Str) (ilen tmpIlen : Nat) (pmask : PMask)
    (codeOffs : Ptr) (a : σ) : Except Fault (ParseRes σ) :=
  parseLoop cb pmask codeOffs ibuf (ilen + tmpIlen) tmpIlen a

/-- The static variables of `read_dynmem_buf`. -/
structure ReadBuf where
  ibuf : Str
  ilen : Nat
  deriving DecidableEq, Repr

def ReadBuf.init : ReadBuf := ⟨List.replicate pipeBuf nul, 0⟩

/-- Always `nul` at the end. -/
def ReadBuf.maxRead (b : ReadBuf) : Nat := b.ibuf.length - 1 - b.ilen

/-- `read_dynmem_buf` with `reverse = false`, where `read` gives `input`. -/
def readDynmemBuf (cb : ParseCb σ) (pmask : PMask) (codeOffs : Ptr) (b : ReadBuf) (input : Str)
    (a : σ) : Except Fault (Int × ReadBuf × σ) :=
  if input = [] then
    .ok (-1, b, a)
  else do
    let ibuf ← store b.ibuf b.ilen input
    let res ← parseDynmemBuf cb ibuf b.ilen input.length pmask codeOffs a
    return (res.ret, ⟨res.ibuf, res.ilen⟩, res.acc)

/-! ## Runs of the reader -/

/-- The receive buffer, the bytes still in the FIFO, and what the callbacks work on. -/
structure Reader (σ : Type) where
  buf : ReadBuf
  fifo : Str
  acc : σ
  deriving DecidableEq, Repr

/-- One call while `avail` bytes can be read from the FIFO. -/
def Reader.step (cb : ParseCb σ) (pmask : PMask) (codeOffs : Ptr) (r : Reader σ) (avail : Nat) :
    Except Fault (Reader σ) := do
  let n := min avail r.buf.maxRead
  let (_, buf, acc) ← readDynmemBuf cb pmask codeOffs r.buf (r.fifo.take n) r.acc
  return ⟨buf, r.fifo.drop n, acc⟩

/-- One call after the other. -/
def Reader.run (cb : ParseCb σ) (pmask : PMask) (codeOffs : Ptr) (r : Reader σ)
    (avails : List Nat) : Except Fault (Reader σ) :=
  Run.run (Reader.step cb pmask codeOffs) r avails

end Parser

end UgTrain
