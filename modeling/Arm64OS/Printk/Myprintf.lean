import Arm64OS.Printk.Number

/-!
# `myprintf`

The formatter of `lib/printk.c`.  The format is memory with a cursor into it; what the
function stores is kept as the list of its byte stores, oldest first; an argument is the
64-bit slot that `va_arg` reads.

The strings that `%s` arguments point to are outside the output buffer.  `size` is a
parameter of the source function that its body never reads, so it is none here.
-/

namespace Arm64OS

open CInt

/-- A NUL-terminated string in memory, and what follows it. -/
structure CString where
  byte : Nat → Byte
  length : Nat
  nul : byte length = 0
  ne_nul : ∀ i, i < length → byte i ≠ 0

/-- The argument slots of a call, and the characters in front of the NUL at the addresses
that `%s` is given. -/
structure VaList where
  slot : Nat → U64
  str : U64 → List Byte

/-- The variables of `myprintf` that outlive a directive.  `base` is uninitialised at first. -/
structure Printf where
  pos : U64
  /-- the slot that the next `va_arg` reads -/
  arg : Nat
  base : Int
  /-- the stores so far -/
  stores : List (U64 × Byte)

def Printf.setArg (arg : Nat) (s : Printf) : Printf := { s with arg := arg }

/-- `base = b`. -/
def Printf.setBase (b : Int) (s : Printf) : Printf := { s with base := b }

/-- `*pos++ = b`. -/
def Printf.put (b : Byte) (s : Printf) : Printf :=
  { s with pos := s.pos + 1, stores := s.stores ++ [(s.pos, b)] }

def Printf.puts (text : List Byte) (s : Printf) : Printf := text.foldl (fun s b => s.put b) s

/-- `pos = number(pos, …)`. -/
def Printf.putNumber (text : Option (List Byte)) (s : Printf) : Printf :=
  match text with
  | some text => s.puts text
  | none => { s with pos := 0 }

def Printf.vaArg (args : VaList) (s : Printf) : U64 × Printf :=
  (args.slot s.arg, s.setArg (s.arg + 1))

/-- `va_arg(arg, int)` of a slot. -/
def argInt (v : U64) : Int := (v.setWidth 32).toInt

inductive Qualifier
  | none
  | h
  | l
  /-- `L`, or `ll` -/
  | L
  deriving DecidableEq

/-! ## Reading a directive -/

/-- `repeat`: from the `%`, or from a flag, at `i` to the first character that is no flag. -/
def flagLoop (fmt : Nat → Byte) : (fuel : Nat) → Flags → Nat → Option (Flags × Nat)
  | 0, _, _ => none
  | fuel + 1, flags, i =>
      let i := i + 1
      if fmt i = ch '-' then flagLoop fmt fuel { flags with left := true } i
      else if fmt i = ch '+' then flagLoop fmt fuel { flags with plus := true } i
      else if fmt i = ch ' ' then flagLoop fmt fuel { flags with space := true } i
      else if fmt i = ch '#' then flagLoop fmt fuel { flags with special := true } i
      else if fmt i = ch '0' then flagLoop fmt fuel { flags with zeropad := true } i
      else some (flags, i)

/-- `scan_number`. -/
def scanNumber (fmt : Nat → Byte) : (fuel : Nat) → (tmp : Int) → Nat → Option (Int × Nat)
  | 0, _, _ => none
  | fuel + 1, tmp, i =>
      if isDigit (fmt i) then scanNumber fmt fuel (scanDigit tmp (fmt i)) (i + 1)
      else some (tmp, i)

/-- `field_width`. -/
def scanWidth (fmt : Nat → Byte) (args : VaList) (fuel : Nat) (flags : Flags) (i : Nat)
    (s : Printf) : Option (Int × Flags × Nat × Printf) :=
  if isDigit (fmt i) then do
    let (fieldWidth, i) ← scanNumber fmt fuel 0 i
    some (fieldWidth, flags, i, s)
  else if fmt i = ch '*' then
    let (v, s) := s.vaArg args
    let fieldWidth := argInt v
    if fieldWidth < 0 then some (wrapInt (-fieldWidth), { flags with left := true }, i, s)
    else some (fieldWidth, flags, i, s)
  else some (-1, flags, i, s)

/-- `precision`. -/
def scanPrecision (fmt : Nat → Byte) (args : VaList) (fuel : Nat) (i : Nat) (s : Printf) :
    Option (Int × Nat × Printf) :=
  if fmt i = ch '.' then do
    let i := i + 1
    let (precision, i, s) ←
      if isDigit (fmt i) then do
        let (precision, i) ← scanNumber fmt fuel 0 i
        some (precision, i, s)
      else if fmt i = ch '*' then
        let (v, s) := s.vaArg args
        some (argInt v, i, s)
      else some (-1, i, s)
    some (if precision < 0 then 0 else precision, i, s)
  else some (-1, i, s)

/-- `qualifier`. -/
def scanQualifier (fmt : Nat → Byte) (i : Nat) : Qualifier × Nat :=
  if fmt i = ch 'h' then (.h, i + 1)
  else if fmt i = ch 'l' then
    if fmt (i + 1) = ch 'l' then (.L, i + 2) else (.l, i + 1)
  else if fmt i = ch 'L' then (.L, i + 1)
  else (.none, i)

/-! ## Carrying it out -/

/-- What is left of `field_width` when the padding in front is done, or is not wanted. -/
def padBefore (pad : Int → List Byte × Int) (flags : Flags) (fieldWidth : Int) :
    List Byte × Int :=
  if flags.left then ([], fieldWidth) else pad fieldWidth

/-- `%c`.  Both loops are `while (--field_width > 0) *pos++ = ' '`. -/
def convertChar (args : VaList) (flags : Flags) (fieldWidth : Int) (s : Printf) : Printf :=
  let (before, fieldWidth) := padBefore (padDown (ch ' ')) flags fieldWidth
  let s := s.puts before
  let (v, s) := s.vaArg args
  let s := s.put (v.setWidth 8)
  s.puts (padDown (ch ' ') fieldWidth).1

/-- `"<NULL>"`. -/
def nullText : List Byte := ['<', 'N', 'U', 'L', 'L', '>'].map ch

/-- The string of a `%s`. -/
def argString (args : VaList) (v : U64) : List Byte := if v = 0#64 then nullText else args.str v

/-- `len`: the number of characters that `%s` takes from its string. -/
def stringLen (str : List Byte) (precision : Int) : Int :=
  let len := wrapInt str.length
  if precision < 0 then len else if len > precision then precision else len

/-- `%s`.  Both loops are `while (len < field_width--) *pos++ = ' '`. -/
def convertString (args : VaList) (flags : Flags) (fieldWidth precision : Int) (s : Printf) :
    Printf :=
  let (v, s) := s.vaArg args
  let str := argString args v
  let len := stringLen str precision
  let (before, fieldWidth) := padBefore (pad (ch ' ') len) flags fieldWidth
  let s := s.puts before
  let s := s.puts (str.take len.toNat)
  s.puts (pad (ch ' ') len fieldWidth).1

/-- `%n`: one byte is stored, through a `char *`. -/
def convertCount (args : VaList) (string : U64) (s : Printf) : Printf :=
  let (ip, s) := s.vaArg args
  { s with stores := s.stores ++ [(ip, (s.pos - string).setWidth 8)] }

/-- `%p`. -/
def convertPointer (args : VaList) (flags : Flags) (fieldWidth precision : Int) (s : Printf) :
    Printf :=
  let (v, s) := s.vaArg args
  if fieldWidth = -1 then s.putNumber (number v 16 16 precision { flags with zeropad := true })
  else s.putNumber (number v 16 fieldWidth precision flags)

/-- `num`, as the qualifier and the signedness of the conversion read it from its slot. -/
def integerArg (qualifier : Qualifier) (flags : Flags) (v : U64) : U64 :=
  match qualifier with
  | .L | .l => v
  | .h => if flags.sign then (v.setWidth 16).signExtend 64 else (v.setWidth 16).setWidth 64
  | .none => if flags.sign then (v.setWidth 32).signExtend 64 else (v.setWidth 32).setWidth 64

/-- The code behind the `switch`. -/
def convertInteger (args : VaList) (flags : Flags) (fieldWidth precision : Int)
    (qualifier : Qualifier) (s : Printf) : Printf :=
  let (v, s) := s.vaArg args
  s.putNumber (number (integerArg qualifier flags v) s.base fieldWidth precision flags)

/-- The `switch` on the conversion character `c`, and the code behind it for the cases that
leave it by `break`. -/
def convert (args : VaList) (string : U64) (flags : Flags) (fieldWidth precision : Int)
    (qualifier : Qualifier) (c : Byte) (s : Printf) : Printf :=
  if c = ch 'c' then convertChar args flags fieldWidth s
  else if c = ch 's' then convertString args flags fieldWidth precision s
  else if c = ch 'n' then convertCount args string s
  else if c = ch 'p' then convertPointer args flags fieldWidth precision s
  else if c = ch 'o' then
    convertInteger args flags fieldWidth precision qualifier (s.setBase 8)
  else if c = ch 'x' then
    convertInteger args { flags with small := true } fieldWidth precision qualifier (s.setBase 16)
  else if c = ch 'X' then
    convertInteger args flags fieldWidth precision qualifier (s.setBase 16)
  else if c = ch 'd' ∨ c = ch 'i' then
    convertInteger args { flags with sign := true } fieldWidth precision qualifier (s.setBase 10)
  else if c = ch 'u' then
    convertInteger args flags fieldWidth precision qualifier (s.setBase 10)
  else
    -- `default` ends in `break` too, with whatever `base` holds
    let s := if c ≠ ch '%' then s.put (ch '%') else s
    let s := if c ≠ 0#8 then s.put c else s
    convertInteger args flags fieldWidth precision qualifier s

/-- One directive, from its `%` at `i` to its last character. -/
def directive (fmt : Nat → Byte) (args : VaList) (string : U64) (fuel i : Nat) (s : Printf) :
    Option (Nat × Printf) := do
  let (flags, i) ← flagLoop fmt fuel Flags.zero i
  let (fieldWidth, flags, i, s) ← scanWidth fmt args fuel flags i s
  let (precision, i, s) ← scanPrecision fmt args fuel i s
  let (qualifier, i) := scanQualifier fmt i
  let s := convert args string flags fieldWidth precision qualifier (fmt i) s
  -- `--fmt` where the format ends inside the directive
  some (if fmt i = 0#8 then i - 1 else i, s)

/-- The loop over the format: the place of the cursor at its end, and the variables there. -/
def formatLoop (fmt : Nat → Byte) (args : VaList) (string : U64) :
    (fuel : Nat) → Nat → Printf → Option (Nat × Printf)
  | 0, _, _ => none
  | fuel + 1, i, s =>
      if fmt i = 0#8 then some (i, s)
      else if fmt i ≠ ch '%' then formatLoop fmt args string fuel (i + 1) (s.put (fmt i))
      else do
        let (i, s) ← directive fmt args string fuel i s
        formatLoop fmt args string fuel (i + 1) s

/-- The variables at the start of the loop, with what `base` happens to hold. -/
def Printf.start (string : U64) (base : Int) : Printf := ⟨string, 0, base, []⟩

/-- `myprintf`: the value returned and the variables at the end. -/
def myprintf (fuel : Nat) (string : U64) (fmt : Nat → Byte) (args : VaList) (base : Int) :
    Option (Int × Printf) := do
  let (_, s) ← formatLoop fmt args string fuel 0 (Printf.start string base)
  some (argInt (s.pos - string), { s with stores := s.stores ++ [(s.pos, 0#8)] })

end Arm64OS
