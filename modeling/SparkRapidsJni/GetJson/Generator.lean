import SparkRapidsJni.GetJson.Copy

/-!
# `json_generator`

What writes the output of a path: a view of the output buffer, from `offset` on, with the state of
the array that is written. The buffer is a function from positions to bytes.

`copy_current_structure` is embedded as it is in the source here: its loop has no exit at `SUCCESS`,
so it is counted. `copyCurrentStructure` of the module before is the same where that is called
(`copyTurns_eq`).
-/

namespace SparkRapids.GetJson

namespace JsonParser

variable (normalization : List Byte → List Byte)

/-- The loop of `copy_current_structure`, for at most `fuel` turns. -/
@[grind] def copyTurns (backupStackSize : Nat) : (fuel : Nat) → JsonParser → Option Written
  | 0, _ => none
  | fuel + 1, p =>
    let next := p.parseNextToken none
    if next.parser.currentToken = .error then some ⟨false, next.parser, []⟩
    -- `backup_stack_size - 1 == stack_size`
    else if backupStackSize = next.parser.stackSize + 1 then
      some ⟨true, next.parser, next.written normalization⟩
    else
      (copyTurns backupStackSize fuel next.parser).map fun behind =>
        { behind with out := next.written normalization ++ behind.out }

/-- `copy_current_structure`, for at most `fuel` turns of its loop -/
def copyStructure (fuel : Nat) (p : JsonParser) : Option Written :=
  match p.currentToken with
  | .init | .error | .success | .fieldName | .endArray | .endObject => some ⟨false, p, []⟩
  | .valueNumberInt | .valueNumberFloat | .valueString | .valueTrue | .valueFalse | .valueNull =>
    some ⟨true, p, p.writeEscapedText normalization⟩
  | .startArray | .startObject =>
    (p.copyTurns normalization p.stackSize fuel).map fun behind =>
      { behind with out := p.writeEscapedText normalization ++ behind.out }

end JsonParser

/-- The output buffer. -/
abbrev OutBuf := Nat → Byte

namespace OutBuf

/-- Bytes written one after the other from a position on. -/
def write (out : OutBuf) (pos : Nat) : List Byte → OutBuf
  | [] => out
  | c :: cs => write (Function.update out pos c) (pos + 1) cs

/-- `move_forward`: the bytes are copied from the last to the first. -/
def moveForward (out : OutBuf) (start : Nat) : (len forward : Nat) → OutBuf
  | 0, _ => out
  | len + 1, forward =>
    moveForward (Function.update out (start + len + forward) (out (start + len))) start len forward

end OutBuf

/-- `json_generator`. It does not initialize `is_curr_array_empty`, which is read in an array only. -/
structure JsonGenerator where
  offset : Nat := 0
  outputLen : Nat := 0
  arrayDepth : Int := 0
  isCurrArrayEmpty : Bool := false

namespace JsonGenerator

variable (normalization : List Byte → List Byte) (g : JsonGenerator)

/-- `new_child_generator` -/
def newChildGenerator : JsonGenerator := { offset := g.offset + g.outputLen }

/-- `need_comma` -/
def needComma : Bool := 0 < g.arrayDepth && !g.isCurrArrayEmpty

/-- Bytes written behind the output. -/
def append (out : OutBuf) (bs : List Byte) : JsonGenerator × OutBuf :=
  ({ g with outputLen := g.outputLen + bs.length }, out.write (g.offset + g.outputLen) bs)

/-- `try_write_comma` -/
def tryWriteComma (out : OutBuf) : JsonGenerator × OutBuf :=
  if g.needComma then g.append out [chr ','] else (g, out)

/-- `write_first_start_array_without_output` -/
def writeFirstStartArrayWithoutOutput : JsonGenerator :=
  { g with arrayDepth := g.arrayDepth + 1, isCurrArrayEmpty := true }

/-- `write_start_array` -/
def writeStartArray (out : OutBuf) : JsonGenerator × OutBuf :=
  let (g, out) := g.tryWriteComma out
  let (g, out) := g.append out [chr '[']
  ({ g with arrayDepth := g.arrayDepth + 1, isCurrArrayEmpty := true }, out)

/-- `write_end_array` -/
def writeEndArray (out : OutBuf) : JsonGenerator × OutBuf :=
  let (g, out) := g.append out [chr ']']
  ({ g with arrayDepth := g.arrayDepth - 1, isCurrArrayEmpty := false }, out)

/-- `if (array_depth > 0) { is_curr_array_empty = false; }` -/
def setNonEmpty : JsonGenerator :=
  if 0 < g.arrayDepth then { g with isCurrArrayEmpty := false } else g

/-- `write_raw` -/
def writeRaw (p : JsonParser) (out : OutBuf) : JsonGenerator × OutBuf :=
  g.setNonEmpty.append out (p.writeUnescapedText normalization)

/-- `copy_current_structure`: whether it succeeds, with the parser, the generator and the buffer.
What has been written before a failure stays in the buffer, but does not count. -/
def copyCurrentStructure (fuel : Nat) (p : JsonParser) (out : OutBuf) :
    Option (Bool × JsonParser × JsonGenerator × OutBuf) :=
  let (g, out) := g.tryWriteComma out
  let g := g.setNonEmpty
  (p.copyStructure normalization fuel).map fun copy =>
    let (g', out) := g.append out copy.out
    (copy.success, copy.parser, if copy.success then g' else g, out)

/-- `write_child_raw_value`, where the child begins at `start` -/
def writeChildRawValue (out : OutBuf) (start len : Nat) (writeOuterArrayTokens : Bool) :
    JsonGenerator × OutBuf :=
  let insertComma := g.needComma
  let g := g.setNonEmpty
  let out :=
    if writeOuterArrayTokens then
      if insertComma then
        let out : OutBuf := Function.update out (start + len + 2) (chr ']')
        let out := out.moveForward start len 2
        let out := Function.update out (start + 1) (chr '[')
        Function.update out start (chr ',')
      else
        let out : OutBuf := Function.update out (start + len + 1) (chr ']')
        let out := out.moveForward start len 1
        Function.update out start (chr '[')
    else if insertComma then
      let out := out.moveForward start len 1
      Function.update out start (chr ',')
    else out
  let outputLen := if insertComma then g.outputLen + 1 else g.outputLen
  let outputLen := if writeOuterArrayTokens then outputLen + 2 else outputLen
  ({ g with outputLen := outputLen + len }, out)

end JsonGenerator

end SparkRapids.GetJson
