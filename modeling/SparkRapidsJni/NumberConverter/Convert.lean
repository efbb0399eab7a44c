import SparkRapidsJni.Lib.Ascii
import SparkRapidsJni.Lib.Numerals
import SparkRapidsJni.Lib.WhileLoop

/-!
# `number_converter.cu`: numbers in other bases

`convert` reads a number in one base and writes it in another one. It runs twice over a row: without an
output, for the length of the text, and with the row's part of the column's characters. The number is
64 bits wide; a number that is too large is the greatest one, or an overflow in ANSI mode.

A position of a loop over the characters is the list of the characters from there on.
-/

namespace SparkRapids.NumberConverter

open Ascii (chr)

/-- `is_invalid_base_range` -/
def isInvalidBaseRange (fromBase toBase : Int) : Bool :=
  fromBase < 2 || fromBase > 36 || toBase.natAbs < 2 || toBase.natAbs > 36

/-- `trim`: the positions of the first character that is no space, and of the last one. -/
def trim (ptr : List Byte) : Int × Int :=
  let len : Int := ptr.length
  let first : Int := (ptr.takeWhile (· = chr ' ')).length
  -- the loop from the other end stops at `first`
  let spaces : Int := (ptr.reverse.takeWhile (· = chr ' ')).length
  (first, if len - 1 ≤ first then len - 1 else max first (len - 1 - spaces))

/-- `byte_to_char` -/
def byteToChar (byteValue : ℕ) : Byte :=
  if byteValue ≤ 9 then BitVec.ofNat 8 ((chr '0').toNat + byteValue)
  else if 10 ≤ byteValue ∧ byteValue ≤ 35 then BitVec.ofNat 8 ((chr 'A').toNat + (byteValue - 10))
  else 0

/-- `char_to_byte` -/
def charToByte (c : Byte) (base : Int) : Int :=
  let code : Int := c.toNat
  let diff (d : Char) : Int := code - (chr d).toNat
  if chr '0' ≤ c ∧ c ≤ chr '9' ∧ diff '0' < base then diff '0'
  else if chr 'A' ≤ c ∧ c ≤ chr 'Z' ∧ diff 'A' + 10 < base then diff 'A' + 10
  else if chr 'a' ≤ c ∧ c ≤ chr 'z' ∧ diff 'a' + 10 < base then diff 'a' + 10
  else -1

/-- `result_type` -/
inductive ResultType
  | success
  | overflow
  | nullValue
  deriving DecidableEq, Repr

/-- `ansi_mode` -/
inductive AnsiMode
  | off
  | on
  deriving DecidableEq, Repr

/-- The loop of `convert` over the characters; `none` is an overflow. -/
def parse (fromBase : Int) (ansiType : AnsiMode) : List Byte → BitVec 64 → Option (BitVec 64)
  | [], v => some v
  | c :: chars, v =>
    let base := BitVec.ofInt 64 fromBase
    let bound := BitVec.ofInt 64 (-1 - fromBase) / base
    let b := charToByte c fromBase
    -- the suffix from an invalid character on is ignored
    if b < 0 then some v
    -- the highest bit is set, or the next digit does not fit
    else if v.toInt < 0 ∨ (bound ≤ v ∧ BitVec.ofInt 64 (-1 - b) / base < v) then
      if ansiType = .on then none else some (-1)
    else parse fromBase ansiType chars (v * base + BitVec.ofInt 64 b)

/-- The output of `convert`: the next position from the right, and what has been written. -/
structure Output where
  uv : BitVec 64
  outIdx : Int
  writes : List (Int × Byte)
  deriving DecidableEq, Repr

/-- A character is written if there is an output. -/
def Output.put (out : Bool) (c : Byte) (o : Output) : Output :=
  { o with
    outIdx := o.outIdx - 1
    writes := if out then (o.outIdx, c) :: o.writes else o.writes }

/-- A turn of the loop that writes the digits. -/
def writeDigit (out : Bool) (toBaseAbs : BitVec 64) (o : Output) : Option Output :=
  let remainder := o.uv % toBaseAbs
  some { o.put out (byteToChar remainder.toNat) with uv := o.uv / toBaseAbs }

/-- The negation rules: the value that is written, and whether a sign is. -/
def negate (negative : Bool) (toBase : Int) (v : BitVec 64) : BitVec 64 × Bool :=
  let v := if negative ∧ toBase > 0 then if v.toInt < 0 then -1 else -v else v
  if toBase < 0 ∧ v.toInt < 0 then (-v, true) else (v, negative)

/-- The result of `convert`: its type, the length, and the characters with their positions in `out`. -/
structure Converted where
  resultType : ResultType
  length : Int
  writes : List (Int × Byte)
  deriving DecidableEq, Repr

/-- The end of `convert`, which writes the text; `none` where the loop over the digits does not end within
as many turns as a value has bits. -/
def writeOut (toBase : Int) (out : Bool) (outLen : Int) (v : BitVec 64) (negative : Bool) :
    Option Converted :=
  let o : Output := ⟨v, outLen - 1, []⟩
  let digits :=
    if v = 0 then some (o.put out (chr '0'))
    else whileLoop (fun o : Output => o.uv = 0) (writeDigit out (BitVec.ofNat 64 toBase.natAbs)) 64 o
  digits.map fun o =>
    let o := if negative ∧ toBase < 0 then o.put out (chr '-') else o
    ⟨.success, outLen - 1 - o.outIdx, o.writes⟩

/-- `convert` -/
def convert (ptr : List Byte) (fromBase toBase : Int) (out : Bool) (outLen : Int) (ansiType : AnsiMode) :
    Option Converted :=
  let (first, last) := trim ptr
  if last - first < 0 then some ⟨.nullValue, 0, []⟩
  else
    let chars := (ptr.drop first.toNat).take (last + 1 - first).toNat
    let negative : Bool := chars.head? = some (chr '-')
    match parse fromBase ansiType (if negative then chars.tail else chars) 0 with
    | none => some ⟨.overflow, 0, []⟩
    | some v =>
      let (v, negative) := negate negative toBase v
      writeOut toBase out outLen v negative

/-! ### Rows -/

/-- `string_view::length`: the characters, that is the bytes that do not continue one. -/
def length (str : List Byte) : ℕ := (str.filter fun c => c &&& 0xC0 ≠ 0x80).length

/-- A row of the input and the bases, `none` for null. -/
structure ConvertRow where
  input : Option (List Byte)
  fromBase : Option Int
  toBase : Option Int
  deriving DecidableEq, Repr

namespace ConvertRow

/-- The characters that `convert` gets of a string: as many bytes as the string has characters. -/
def chars (str : List Byte) : List Byte := str.take (length str)

/-- `convert_fn`, first phase: the size of the row, and whether it is valid. -/
def sizeOf (constBases : Bool) (row : ConvertRow) : Option (Int × Bool) :=
  match row.input, row.fromBase, row.toBase with
  | some str, some fromBase, some toBase =>
    if !constBases && isInvalidBaseRange fromBase toBase then some (0, false)
    else (convert (chars str) fromBase toBase false (-1) .off).map fun c =>
      (c.length, c.resultType ≠ .nullValue)
  | _, _, _ => some (0, false)

/-- `convert_fn`, second phase: what is written into `d_chars`, for the row's offsets. -/
def fill (row : ConvertRow) (offset offsetEnd : Int) : Option (List (Int × Byte)) :=
  let len := offsetEnd - offset
  match row.input, row.fromBase, row.toBase with
  | some str, some fromBase, some toBase =>
    if len > 0 then
      (convert (chars str) fromBase toBase true len .off).map fun c =>
        c.writes.map fun w => (offset + w.1, w.2)
    else some []
  | _, _, _ => some []

/-- `is_overflow_fn`, with `is_convert_overflow` of a row. -/
def isOverflow (constBases : Bool) (row : ConvertRow) : Option Bool :=
  match row.input, row.fromBase, row.toBase with
  | some str, some fromBase, some toBase =>
    if !constBases && isInvalidBaseRange fromBase toBase then some false
    else (convert (chars str) fromBase toBase false (-1) .on).map fun c => c.resultType = .overflow
  | _, _, _ => some false

end ConvertRow

end SparkRapids.NumberConverter
