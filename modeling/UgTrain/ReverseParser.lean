import UgTrain.CLib.Search
import UgTrain.FifoParser

/-!
# The FIFO parser (`fifoparser.cpp`), reverse mode

The output of libmemdisc is a file of lines. It is read from its end to its start in windows:
`readReverse` moves the rest of the last window behind the next one, and `parseReverse` takes the
complete lines off the end. The first line cannot be taken off, it has no line break in front of it.

* `file` is what `ifd` refers to. It does not change.
* `fd_offs` is a position, or one of the states `reverseFst` and `reverseEof`, both negative.
* `ilen` is signed in the source, and a message may be longer than what was read: that is the fault
  `negativeLength` here.
-/

namespace UgTrain

open CLib

section Parser

variable {σ : Type}

/-- The message loop of `parse_dynmem_buf` with `reverse = true`. -/
def parseReverse (cb : ParseCb σ) (pmask : PMask) (codeOffs : Ptr) (ibuf : Str) (ilen tmpIlen : Nat)
    (a : σ) : Except Fault (ParseRes σ) :=
  match _ : strrchr ibuf '\n' with
  | none => .ok ⟨tmpIlen, ibuf, ilen, none, a⟩
  | some msgEnd =>
    match _ : strrchr (ibuf.set msgEnd nul) '\n' with
    -- incomplete message, restore message end
    | none => .ok ⟨tmpIlen, ibuf, ilen, none, a⟩
    | some sep =>
      match scanMsg cb pmask codeOffs (ibuf.set msgEnd nul) (sep + 1) msgEnd with
      | .error ppos => do
        let ibuf ← memset (ibuf.set msgEnd nul) 0 tmpIlen
        return ⟨0, ibuf, 0, some ppos, a⟩
      | .ok call =>
        match cb.call call a with
        | .error f => .error f
        | .ok a =>
          -- zero parsed message
          match _ : memset (ibuf.set msgEnd nul) (sep + 1) (msgEnd - (sep + 1) + 1) with
          | .error f => .error f
          | .ok ibuf' =>
            if ilen < msgEnd - (sep + 1) + 1 then .error .negativeLength
            else
              parseReverse cb pmask codeOffs ibuf' (ilen - (msgEnd - (sep + 1) + 1))
                (msgEnd - (sep + 1) + 1) a
  termination_by (cstr ibuf).length
  decreasing_by
    have hend := strrchr_lt (by decide) ‹strrchr ibuf '\n' = some msgEnd›
    have hsep := strrchr_lt (by decide) ‹strrchr (ibuf.set msgEnd nul) '\n' = some sep›
    have hle := memset_cstr_length ‹memset (ibuf.set msgEnd nul) _ _ = .ok ibuf'›
    have hcut : (cstr (ibuf.set msgEnd nul)).length ≤ msgEnd := cstr_set_nul_le
    omega

/-- `REVERSE_FST`: the stack end is not read yet. -/
def reverseFst : Int := -2

/-- `REVERSE_EOF`: the window at the start of the file was read. -/
def reverseEof : Int := -3

structure Window where
  offs : Nat
  len : Nat
  deriving DecidableEq, Repr

/-- `set file offset`: the window of a call and the next `fd_offs`, or `-1`. -/
def seekWindow (fdOffs : Int) (maxRead : Nat) : Option (Window × Int) :=
  -- `(unsigned) fd_offs`
  let offs := (fdOffs % 2 ^ 32).toNat
  if fdOffs ≤ 0 then none
  else if maxRead < offs then some (⟨(fdOffs - maxRead).toNat, maxRead⟩, fdOffs - maxRead)
  else some (⟨0, offs⟩, reverseEof)

/-- `move rest to the end` -/
def moveRest (b : ReadBuf) (maxRead : Nat) : Except Fault Str :=
  if b.ilen = 0 then .ok b.ibuf else memmove b.ibuf maxRead 0 b.ilen

/-- The read of a window, with the rest of the last one moved behind it. -/
def readWindow (cb : ParseCb σ) (pmask : PMask) (codeOffs : Ptr) (file : Str) (w : Window)
    (b : ReadBuf) (a : σ) : Except Fault (Int × ReadBuf × σ) := do
  let ibuf ← moveRest b w.len
  let input := (file.drop w.offs).take w.len
  let ibuf ← store ibuf 0 input
  if input = [] then return (-1, ⟨ibuf, b.ilen⟩, a)
  else
    let res ← parseReverse cb pmask codeOffs ibuf (b.ilen + input.length) input.length a
    return (res.ret, ⟨res.ibuf, res.ilen⟩, res.acc)

/-- The static variables of `read_dynmem_buf`, and the file offset of `ifd`. -/
structure ReverseBuf extends ReadBuf where
  fdOffs : Int
  pos : Nat
  deriving DecidableEq, Repr

def ReverseBuf.init : ReverseBuf := { ReadBuf.init with fdOffs := reverseFst, pos := 0 }

/-- The stack end at the start of the file, 0 without one; `none` is a parse error. -/
def scanFileStart (ibuf : Str) : Option Ptr :=
  match scanChar ibuf with
  | none => none
  | some 'S' => (scanPtr (ibuf.drop 1)).map (·.1)
  | some _ => some 0

/-- `read stack end from file first`; gives the value to be returned, if the call ends there. -/
def readFileStart (cb : ParseCb σ) (argp : Bool) (file : Str) (b : ReverseBuf) (a : σ) :
    Except Fault (Option Int × ReverseBuf × σ) := do
  let input := (file.drop b.pos).take b.maxRead
  let b := { b with pos := b.pos + input.length }
  if input = [] ∧ argp then return (some (-1), b, a)
  else
  let ibuf ← store b.ibuf 0 input
  match scanFileStart ibuf with
  | none => return (some 0, { b with ibuf := List.replicate ibuf.length nul, ilen := 0 }, a)
  | some stackEnd =>
    let a ← cb.call (if stackEnd = 0 then .skip else .sf stackEnd) a
    let ibuf ← memset ibuf 0 input.length
    return (none, { b with ibuf, fdOffs := file.length, pos := file.length }, a)

/-- What a call does before it chooses a window. -/
def readStart (cb : ParseCb σ) (argp : Bool) (file : Str) (b : ReverseBuf) (a : σ) :
    Except Fault (Option Int × ReverseBuf × σ) :=
  if b.fdOffs = reverseFst then readFileStart cb argp file b a else .ok (none, b, a)

/-- `read_dynmem_buf` with `reverse = true`; `argp` is whether it is not null. -/
def readReverse (cb : ParseCb σ) (pmask : PMask) (codeOffs : Ptr) (argp : Bool) (file : Str)
    (b : ReverseBuf) (a : σ) : Except Fault (Int × ReverseBuf × σ) := do
  let maxRead := b.maxRead
  let (ret, b, a) ← readStart cb argp file b a
  match ret with
  | some ret => return (ret, b, a)
  | none =>
    match seekWindow b.fdOffs maxRead with
    | none => return (-1, b, a)
    | some (w, fdOffs) =>
      let (ret, buf, a) ← readWindow cb pmask codeOffs file w b.toReadBuf a
      return (ret, { buf with fdOffs, pos := min (w.offs + w.len) file.length }, a)

end Parser

end UgTrain
