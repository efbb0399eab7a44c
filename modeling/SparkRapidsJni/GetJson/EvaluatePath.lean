import SparkRapidsJni.GetJson.Generator

/-!
# `evaluate_path`

A path is evaluated with a stack of contexts in place of the recursion of the original. The context
on top decides what its turn of the main loop does; a context that is done is popped, and its
results go to the context below it.

The stack is never empty inside of the loop, so that the context on top is a field of its own. The
entries that `push_context` stores at are recorded (`stores`). The loops over the tokens are total
functions, as all but the main loop and the one of `copy_current_structure` take characters in each
turn; these two are counted.
-/

namespace SparkRapids.GetJson

/-- `MAX_JSON_PATH_DEPTH` -/
def maxJsonPathDepth : Nat := 16

/-- `path_instruction_type` -/
inductive PathInstructionType
  | wildcard
  | index
  | named
  deriving DecidableEq, Repr

/-- `path_instruction` -/
structure PathInstruction where
  type : PathInstructionType
  name : List Byte := []
  index : Int := -1

/-- `write_style` -/
inductive WriteStyle
  | raw
  | quoted
  | flatten
  deriving DecidableEq, Repr

/-- `evaluation_case_path` -/
inductive EvaluationCasePath
  | invalid
  | startArrayEmptyPathFlattenStyle
  | startObjectMatchedNamePath
  | startArrayMatchedDoubleWildcard
  | startArrayMatchedWildcardStyleNotQuoted
  | startArrayMatchedWildcard
  | startArrayMatchedIndexAndWildcard
  | startArrayMatchedIndex
  deriving DecidableEq, Repr

/-- `path_match_element` -/
def pathMatchElement (path : List PathInstruction) (type₀ : PathInstructionType) : Bool :=
  match path with
  | [] => false
  | i :: _ => i.type = type₀

/-- `path_match_elements` -/
def pathMatchElements (path : List PathInstruction) (type₀ type₁ : PathInstructionType) : Bool :=
  match path with
  | i :: j :: _ => i.type = type₀ && j.type = type₁
  | _ => false

/-- The name of `path.front()`, or nothing. -/
def frontName (path : List PathInstruction) : List Byte :=
  (path.head?.map PathInstruction.name).getD []

/-- The index of `path.data()[0]`, which `path_match_index` and `path_match_index_wildcard` return if
they match. -/
def frontIndex (path : List PathInstruction) : Int :=
  (path.head?.map PathInstruction.index).getD 0

/-- `context` -/
structure Context where
  g : JsonGenerator
  /-- Only read if `isFirstEnter` is not set any more, which sets it. -/
  childG : JsonGenerator
  path : List PathInstruction
  dirty : Int
  casePath : EvaluationCasePath
  token : JsonToken
  style : WriteStyle
  isFirstEnter : Bool
  taskIsDone : Bool

namespace JsonParser

/-! ### Every call keeps to the text -/

theorem parseNextTokenAt_le (p : JsonParser) (c : Byte) (toMatch : Option (List Byte)) :
    (p.parseNextTokenAt c toMatch).parser.chars.length ≤ p.chars.length := by
  have hclose (t : JsonToken) : (p.closeContext t).chars.length ≤ p.chars.length := by
    show p.chars.tail.length ≤ _
    rw [List.length_tail]
    exact Nat.sub_le _ _
  have hbehind {q : JsonParser} (h : Takes { p with chars := p.chars.tail }.skipWhitespaces q) :
      q.chars.length ≤ p.chars.length := by
    have htail : p.chars.tail.length ≤ p.chars.length := by
      rw [List.length_tail]
      exact Nat.sub_le _ _
    exact (h.le.trans (length_skipWhitespaces _)).trans htail
  unfold parseNextTokenAt
  split_ifs
  · exact (takes_parseFirstTokenInValue p).le
  · exact le_rfl
  · exact hclose _
  · exact (takes_parseFieldName p toMatch).le
  · exact hbehind (takes_parseFirstTokenInValue _)
  · exact le_rfl
  · exact hclose _
  · exact hbehind (takes_parseFieldName _ _)
  · exact le_rfl
  · exact hclose _
  · exact (takes_parseFirstTokenInValue p).le
  · exact hbehind (takes_parseFirstTokenInValue _)
  · exact hclose _
  · exact le_rfl

theorem parseNextToken_le (p : JsonParser) (toMatch : Option (List Byte)) :
    (p.parseNextToken toMatch).parser.chars.length ≤ p.chars.length := by
  have hskip := length_skipWhitespaces p
  unfold parseNextToken
  dsimp only
  split
  · exact (parseNextTokenAt_le _ _ _).trans hskip
  · split
    · exact hskip
    · exact hskip

theorem nextToken_le (p : JsonParser) : p.nextToken.chars.length ≤ p.chars.length :=
  parseNextToken_le p none

/-- Calls of `next_token` lead from `p` to `q`. -/
def Calls : JsonParser → JsonParser → Prop := Relation.ReflTransGen fun p q => q = p.nextToken

variable {p q r : JsonParser}

theorem Calls.refl (p : JsonParser) : Calls p p := Relation.ReflTransGen.refl

theorem Calls.trans (h : Calls p q) (h' : Calls q r) : Calls p r := Relation.ReflTransGen.trans h h'

theorem Calls.next (p : JsonParser) : Calls p p.nextToken := Relation.ReflTransGen.single rfl

theorem Calls.le (h : Calls p q) : q.chars.length ≤ p.chars.length := by
  induction h with
  | refl => exact le_rfl
  | tail _ hnext ih =>
    rw [hnext]
    exact (nextToken_le _).trans ih

theorem calls_skipLoop (n : Nat) (p : JsonParser) : Calls p (p.skipLoop n).2 := by
  induction n, p using skipLoop.induct with
  | case1 n p hfinal =>
    rw [skipLoop, dif_pos hfinal]
    exact .next p
  | case2 n p hfinal hstart ih =>
    rw [skipLoop, dif_neg hfinal, if_pos hstart]
    exact (Calls.next p).trans ih
  | case3 n p hfinal hstart hend hlast =>
    rw [skipLoop, dif_neg hfinal, if_neg hstart, if_pos hend, if_pos hlast]
    exact .next p
  | case4 n p hfinal hstart hend hlast ih =>
    rw [skipLoop, dif_neg hfinal, if_neg hstart, if_pos hend, if_neg hlast]
    exact (Calls.next p).trans ih
  | case5 n p hfinal hstart hend ih =>
    rw [skipLoop, dif_neg hfinal, if_neg hstart, if_neg hend]
    exact (Calls.next p).trans ih

theorem calls_trySkipChildren (p : JsonParser) : Calls p p.trySkipChildren.2 := by
  unfold trySkipChildren
  split_ifs
  · exact .refl p
  · exact .refl p
  · exact calls_skipLoop 1 p

/-- Nothing is skipped at the end of a run. -/
theorem not_isFinal_of_trySkipChildren (h : p.trySkipChildren.1 = true) :
    ¬p.currentToken.IsFinal := by
  intro hfinal
  have hnot : p.trySkipChildren = (false, p) := by
    unfold trySkipChildren
    apply if_pos
    rcases hfinal with h | h
    · exact Or.inr (Or.inr h)
    · exact Or.inl h
  rw [hnot] at h
  exact Bool.false_ne_true h

/-- A token that is skipped has been taken. -/
theorem skipped_lt (h : p.nextToken.trySkipChildren.1 = true) :
    p.nextToken.trySkipChildren.2.chars.length < p.chars.length :=
  (calls_trySkipChildren _).le.trans_lt (nextToken_lt (not_isFinal_of_trySkipChildren h))

/-! ### Loops over the tokens -/

/-- The members behind the one that is expected, up to the end of the object: whether they are
valid. -/
def skipMembers (p : JsonParser) : Bool × JsonParser :=
  let first := p.nextToken
  if first.currentToken = .endObject then (true, first)
  else if first.currentToken = .error then (false, first)
  else
    -- skip FIELD_NAME token
    let value := first.nextToken
    if value.currentToken = .error then (false, value)
    else if _ : value.trySkipChildren.1 = true then skipMembers value.trySkipChildren.2
    else (false, value.trySkipChildren.2)
termination_by p.chars.length
decreasing_by exact (skipped_lt (by assumption)).trans_le (nextToken_le p)

/-- The elements behind the one at the index, up to the end of the array: whether they are valid. -/
def skipElements (p : JsonParser) : Bool × JsonParser :=
  let first := p.nextToken
  if first.currentToken = .endArray then (true, first)
  else if first.currentToken = .error then (false, first)
  else if _ : first.trySkipChildren.1 = true then skipElements first.trySkipChildren.2
  else (false, first.trySkipChildren.2)
termination_by p.chars.length
decreasing_by exact skipped_lt (by assumption)

/-- The elements before the one at the index, where `i` are left: whether there are as many. -/
def skipToIndex : (i : Nat) → JsonParser → Bool × JsonParser
  | 0, p => (true, p)
  | i + 1, p =>
    if p.currentToken = .endArray then (false, p)
    else if p.trySkipChildren.1 = true then
      let next := p.trySkipChildren.2.nextToken
      if next.currentToken = .error then (false, next) else skipToIndex i next
    else (false, p.trySkipChildren.2)

/-- What the scan of an object for a name ends with. -/
inductive Scanned
  | found
  | notFound
  | failed
  deriving DecidableEq, Repr

/-- The first member with the name: the parser is at its value. `matched_field_name` is not
initialized, and not set for a token that is no field name: then it is `garbage`. -/
def scanObject (garbage : Bool) (name : List Byte) (p : JsonParser) : Scanned × JsonParser :=
  let first := (p.parseNextToken (some name)).parser
  let matched :=
    if first.currentToken = .fieldName then (p.parseNextToken (some name)).matchedFieldName
    else garbage
  if first.currentToken = .endObject then (.notFound, first)
  else if first.currentToken = .error then (.failed, first)
  else
    -- skip FIELD_NAME token
    let value := first.nextToken
    if value.currentToken = .error then (.failed, value)
    else if matched then
      -- meets null token, it's not expected
      if value.currentToken = .valueNull then (.failed, value) else (.found, value)
    else if _ : value.trySkipChildren.1 = true then
      scanObject garbage name value.trySkipChildren.2
    else (.failed, value.trySkipChildren.2)
termination_by p.chars.length
decreasing_by exact (skipped_lt (by assumption)).trans_le (parseNextToken_le p _)

end JsonParser

/-! ### Turns of the main loop -/

/-- The state of the main loop. `stack_size` is one more than the number of contexts below the one on
top. -/
structure EvalState where
  parser : JsonParser
  out : OutBuf
  top : Context
  below : List Context
  maxPathDepthExceeded : Bool
  /-- The entries of the stack that contexts have been stored at. -/
  stores : List Nat

/-- What `evaluate_path` returns, with what it leaves behind. -/
structure Evaluated where
  success : Bool
  outputSize : Nat
  parser : JsonParser
  out : OutBuf
  maxPathDepthExceeded : Bool
  stores : List Nat

/-- What a turn of the main loop comes to. -/
inductive Turn
  | outOfFuel
  | returns (result : Evaluated)
  | goesOn (s : EvalState)

namespace EvalState

variable (s : EvalState)

/-- The call returns. -/
def ret (success : Bool) (outputSize : Nat) : Evaluated where
  success := success
  outputSize := outputSize
  parser := s.parser
  out := s.out
  maxPathDepthExceeded := s.maxPathDepthExceeded
  stores := s.stores

/-- `return {false, 0}`, where the parser has got to `p` -/
def fail (p : JsonParser) : Turn := .returns ({ s with parser := p }.ret false 0)

/-- A context that is new on the stack. -/
def newContext (p : JsonParser) (casePath : EvaluationCasePath) (g : JsonGenerator)
    (style : WriteStyle) (path : List PathInstruction) : Context where
  g := g
  childG := {}
  path := path
  dirty := 0
  casePath := casePath
  token := p.currentToken
  style := style
  isFirstEnter := true
  taskIsDone := false

/-- `push_context` -/
def pushContext (casePath : EvaluationCasePath) (g : JsonGenerator) (style : WriteStyle)
    (path : List PathInstruction) : EvalState :=
  if maxJsonPathDepth < s.below.length + 1 then { s with maxPathDepthExceeded := true }
  else
    { s with
      top := newContext s.parser casePath g style path
      below := s.top :: s.below
      stores := s.stores ++ [s.below.length + 1] }

/-- The state with the context on top done. -/
def done : EvalState := { s with top := { s.top with taskIsDone := true } }

variable (normalization : List Byte → List Byte) (garbage : Bool)

/-- Case path 1: emit this string without quotes. -/
def casePath1 : Turn :=
  let (g, out) := s.top.g.writeRaw normalization s.parser s.out
  .goesOn { s with out, top := { s.top with g, dirty := 1, taskIsDone := true } }

/-- Case path 2: flatten this array into the parent. -/
def casePath2 : Turn :=
  let p := s.parser.nextToken
  if p.currentToken ≠ .endArray then
    if p.currentToken = .error then s.fail p
    else
      .goesOn ({ s with parser := p }.pushContext .startArrayEmptyPathFlattenStyle s.top.g
        s.top.style [])
  else .goesOn { s with parser := p }.done

/-- Case path 3: just copy the child tree verbatim. -/
def casePath3 (fuel : Nat) : Turn :=
  match s.top.g.copyCurrentStructure normalization fuel s.parser s.out with
  | none => .outOfFuel
  | some (false, p, g, out) => { s with out, top := { s.top with g } }.fail p
  | some (true, p, g, out) =>
    .goesOn { s with parser := p, out, top := { s.top with g, dirty := 1, taskIsDone := true } }

/-- Case path 4 on the second enter: skip the following children after the expected one. -/
def casePath4Again : Turn :=
  if 0 < s.top.dirty then
    let (valid, p) := s.parser.skipMembers
    if valid then .goesOn { s with parser := p }.done else s.fail p
  else .goesOn s.done

/-- Case path 4 on the first enter: match the first child with the expected name. -/
def casePath4First : Turn :=
  let s := { s with top := { s.top with isFirstEnter := false } }
  match s.parser.scanObject garbage (frontName s.top.path) with
  | (.failed, p) => s.fail p
  | (.found, p) =>
    .goesOn ({ s with parser := p }.pushContext .startObjectMatchedNamePath s.top.g s.top.style
      (s.top.path.drop 1))
  | (.notFound, p) =>
    .goesOn { s with parser := p, top := { s.top with taskIsDone := true, dirty := 0 } }

/-- The first enter of case paths 5 and 7: the array is started. -/
def enterArray : EvalState :=
  if s.top.isFirstEnter then
    let (g, out) := s.top.g.writeStartArray s.out
    { s with out, top := { s.top with isFirstEnter := false, g } }
  else s

/-- The array of case paths 5 and 7 is ended. -/
def leaveArray : EvalState :=
  let (g, out) := s.top.g.writeEndArray s.out
  { s with out, top := { s.top with g, taskIsDone := true } }

/-- Case path 5: the double wildcard does not preserve the structure. -/
def casePath5 : Turn :=
  let s := s.enterArray
  let p := s.parser.nextToken
  if p.currentToken ≠ .endArray then
    if p.currentToken = .error then s.fail p
    else
      .goesOn ({ s with parser := p }.pushContext .startArrayMatchedDoubleWildcard s.top.g .flatten
        (s.top.path.drop 2))
  else .goesOn { s with parser := p }.leaveArray

/-- The style below a wildcard of case path 6: retain `FLATTEN`, otherwise use `QUOTED`. -/
def nextStyle : WriteStyle → WriteStyle
  | .raw => .quoted
  | .flatten => .flatten
  | .quoted => .quoted

/-- The generator for the children of case path 6, which hides the outer array tokens. It is kept in
the context with the pop of a child (`popContext`). -/
def childGenerator : JsonGenerator :=
  if s.top.isFirstEnter then s.top.g.newChildGenerator.writeFirstStartArrayWithoutOutput
  else s.top.childG

/-- The end of the array of case path 6: an outer array is only written around more than one
element. -/
def leaveWildcard (childG : JsonGenerator) : EvalState :=
  if 1 < s.top.dirty then
    let (g, out) := s.top.g.writeChildRawValue s.out childG.offset childG.outputLen true
    { s with out, top := { s.top with g, taskIsDone := true } }
  else if s.top.dirty = 1 then
    let (g, out) := s.top.g.writeChildRawValue s.out childG.offset childG.outputLen false
    { s with out, top := { s.top with g, taskIsDone := true } }
  else s.done

/-- Case path 6: a wildcard whose matches are buffered. -/
def casePath6 : Turn :=
  let childG := s.childGenerator
  let s := { s with top := { s.top with isFirstEnter := false } }
  let p := s.parser.nextToken
  if p.currentToken ≠ .endArray then
    if p.currentToken = .error then s.fail p
    else
      .goesOn ({ s with parser := p }.pushContext .startArrayMatchedWildcardStyleNotQuoted childG
        (nextStyle s.top.style) (s.top.path.drop 1))
  else .goesOn ({ s with parser := p }.leaveWildcard childG)

/-- Case path 7: a wildcard in an array that is written. -/
def casePath7 : Turn :=
  let s := s.enterArray
  let p := s.parser.nextToken
  if p.currentToken ≠ .endArray then
    if p.currentToken = .error then s.fail p
    else
      .goesOn ({ s with parser := p }.pushContext .startArrayMatchedWildcard s.top.g .quoted
        (s.top.path.drop 1))
  else .goesOn { s with parser := p }.leaveArray

/-- Case paths 8 and 9: the element at the index of the path. -/
def casePathIndex (casePath : EvaluationCasePath) (style : WriteStyle) : Turn :=
  let p := s.parser.nextToken
  if p.currentToken = .error then s.fail p
  else
    let (reached, p) := p.skipToIndex (frontIndex s.top.path).toNat
    if reached then
      .goesOn ({ s with parser := p }.pushContext casePath s.top.g style (s.top.path.drop 1))
    else s.fail p

/-- Case path 8: an index with a wildcard behind it. -/
def casePath8 : Turn :=
  { s with top := { s.top with isFirstEnter := false } }.casePathIndex
    .startArrayMatchedIndexAndWildcard .quoted

/-- Case path 9: an index. -/
def casePath9 : Turn := s.casePathIndex .startArrayMatchedIndex s.top.style

/-- Case path 12: the path does not match. -/
def casePath12 : Turn :=
  if s.parser.trySkipChildren.1 then
    .goesOn { s with
      parser := s.parser.trySkipChildren.2, top := { s.top with dirty := 0, taskIsDone := true } }
  else s.fail s.parser.trySkipChildren.2

/-- The turn of a context that is not done. -/
def evaluateTop (fuel : Nat) : Turn :=
  if s.top.token = .valueString ∧ s.top.path.length = 0 ∧ s.top.style = .raw then
    s.casePath1 normalization
  else if s.top.token = .startArray ∧ s.top.path.length = 0 ∧ s.top.style = .flatten then s.casePath2
  else if s.top.path.length = 0 then s.casePath3 normalization fuel
  else if s.top.token = .startObject ∧ pathMatchElement s.top.path .named then
    if ¬s.top.isFirstEnter then s.casePath4Again else s.casePath4First garbage
  else if s.top.token = .startArray ∧ pathMatchElements s.top.path .wildcard .wildcard then
    s.casePath5
  else if s.top.token = .startArray ∧ pathMatchElement s.top.path .wildcard ∧
      s.top.style ≠ .quoted then s.casePath6
  else if s.top.token = .startArray ∧ pathMatchElement s.top.path .wildcard then s.casePath7
  else if s.top.token = .startArray ∧ pathMatchElements s.top.path .index .wildcard then s.casePath8
  else if s.top.token = .startArray ∧ pathMatchElement s.top.path .index then s.casePath9
  else s.casePath12

/-- The parent with the results of a child that has been popped. -/
def collected (child parent : Context) : Context :=
  match child.casePath with
  | .startArrayEmptyPathFlattenStyle | .startArrayMatchedDoubleWildcard
  | .startArrayMatchedWildcard =>
    let dirty := parent.dirty + child.dirty
    { parent with dirty := if 0 < dirty then 1 else dirty, g := child.g }
  | .startObjectMatchedNamePath => { parent with dirty := child.dirty, g := child.g }
  | .startArrayMatchedWildcardStyleNotQuoted =>
    { parent with dirty := parent.dirty + child.dirty, childG := child.g }
  | .startArrayMatchedIndexAndWildcard | .startArrayMatchedIndex =>
    { parent with dirty := parent.dirty + child.dirty, taskIsDone := true, g := child.g }
  | .invalid => parent

/-- The turn of a context that is done: it is popped, and the loop ends with the last one. -/
def popContext : Turn :=
  match s.below with
  | [] =>
    let success : Bool := 0 < s.top.dirty
    .returns (s.ret success (if success then s.top.g.outputLen else 0))
  | parent :: below =>
    let popped := { s with top := collected s.top parent, below }
    if s.top.casePath = .startArrayMatchedIndexAndWildcard ∨
        s.top.casePath = .startArrayMatchedIndex then
      -- post logic: advance the token stream to the end of the array
      let (valid, p) := s.parser.skipElements
      if valid then .goesOn { popped with parser := p } else s.fail p
    else .goesOn popped

/-- A turn of the main loop. -/
def turn (fuel : Nat) : Turn :=
  if ¬s.top.taskIsDone then s.evaluateTop normalization garbage fuel else s.popContext

/-- At most `turns` turns of the main loop, each with `fuel` for the loop of
`copy_current_structure`. -/
def run (fuel : Nat) : (turns : Nat) → EvalState → Option Evaluated
  | 0, _ => none
  | turns + 1, s =>
    match s.turn normalization garbage fuel with
    | .outOfFuel => none
    | .returns result => some result
    | .goesOn s => run fuel turns s

/-- The stack with the context for the whole path. -/
def first (p : JsonParser) (path : List PathInstruction) (out : OutBuf) : EvalState where
  parser := p
  out := out
  top := newContext p .invalid {} .raw path
  below := []
  maxPathDepthExceeded := false
  stores := [0]

end EvalState

/-- `evaluate_path`, where no loop takes more than `fuel` turns -/
def evaluatePath (normalization : List Byte → List Byte) (garbage : Bool) (fuel : Nat)
    (p : JsonParser) (path : List PathInstruction) (out : OutBuf) : Option Evaluated :=
  let p := p.nextToken
  if p.currentToken = .error then some ⟨false, 0, p, out, false, []⟩
  else (EvalState.first p path out).run normalization garbage fuel fuel

end SparkRapids.GetJson
