import SparkRapidsJni.GetJson.Ahead
import SparkRapidsJni.GetJson.EvaluatePath

/-!
# The contexts that the parser is in

The bits of the context stack, read as a list with the innermost context first: the start of an
object or array puts one in front, and an end takes it away (`contexts_nextToken`). So a structure
that is copied leaves the contexts around it as they were, and the copy of one ends.
-/

namespace SparkRapids.GetJson

namespace JsonToken

/-- The contexts that a token enters. -/
def entered (t : JsonToken) : List Bool :=
  if t = .startObject then [true] else if t = .startArray then [false] else []

/-- The contexts that a token leaves. -/
def left (t : JsonToken) : List Bool :=
  if t = .endObject then [true] else if t = .endArray then [false] else []

end JsonToken

namespace JsonParser

variable {p q r : JsonParser}

/-- The first `n` bits of a context stack, the last of them first. -/
@[grind] def contextsBelow (number : BitVec 64) : Nat → List Bool
  | 0 => []
  | n + 1 => number.getLsbD n :: contextsBelow number n

/-- The contexts, the innermost first, where an object is `true`. -/
def contexts (p : JsonParser) : List Bool := contextsBelow p.contextStack p.stackSize

theorem length_contextsBelow (number : BitVec 64) (n : Nat) :
    (contextsBelow number n).length = n := by
  induction n with
  | zero => rfl
  | succ n ih => rw [contextsBelow, List.length_cons, ih]

theorem length_contexts (p : JsonParser) : p.contexts.length = p.stackSize :=
  length_contextsBelow _ _

theorem contextsBelow_congr {a b : BitVec 64} {n : Nat} (h : ∀ i < n, a.getLsbD i = b.getLsbD i) :
    contextsBelow a n = contextsBelow b n := by
  induction n with
  | zero => rfl
  | succ n ih =>
    rw [contextsBelow, contextsBelow, h n (Nat.lt_succ_self n),
      ih fun i hi => h i (Nat.lt_succ_of_lt hi)]

theorem contexts_opened (t : JsonToken) (hdepth : p.stackSize < maxJsonNestingDepth) :
    (p.opened t).contexts = decide (t = .startObject) :: p.contexts := by
  show contextsBelow (setBitValue p.contextStack p.stackSize _) (p.stackSize + 1) = _
  rw [contextsBelow, getLsbD_setBitValue hdepth, if_pos rfl]
  congr 1
  apply contextsBelow_congr
  intro i hi
  rw [getLsbD_setBitValue hdepth, if_neg hi.ne]

theorem contexts_closeContext {isObject : Bool} {t : JsonToken} (hin : p.Inside isObject) :
    isObject :: (p.closeContext t).contexts = p.contexts := by
  obtain ⟨n, hn⟩ : ∃ n, p.stackSize = n + 1 :=
    Nat.exists_eq_succ_of_ne_zero hin.pos.ne'
  have hbit := hin.bit
  rw [hn, Nat.add_sub_cancel] at hbit
  show isObject :: contextsBelow p.contextStack (p.stackSize - 1) = contextsBelow _ p.stackSize
  rw [hn, Nat.add_sub_cancel, contextsBelow, hbit]

/-- The parser `q` is at a token whose start or end the contexts follow, as they were in `p`. -/
structure Follows (p q : JsonParser) : Prop where
  le : q.stackSize ≤ maxJsonNestingDepth
  contexts : q.currentToken.left ++ q.contexts = q.currentToken.entered ++ p.contexts
  /-- The run only ends outside of all contexts. -/
  success : q.currentToken = .success → p.stackSize = 0

theorem Follows.of_same (hle : p.stackSize ≤ maxJsonNestingDepth) (hq : q.contexts = p.contexts)
    (ht : ¬q.currentToken.IsStart ∧ ¬q.currentToken.IsEnd)
    (hsuccess : q.currentToken = .success → p.stackSize = 0) : Follows p q where
  le := by
    rw [← length_contexts, hq, length_contexts]
    exact hle
  contexts := by
    unfold JsonToken.left JsonToken.entered
    rw [if_neg fun h => ht.2 (Or.inl h), if_neg fun h => ht.2 (Or.inr h),
      if_neg fun h => ht.1 (Or.inl h), if_neg fun h => ht.1 (Or.inr h), hq]
  success := hsuccess

theorem follows_closeContext {isObject : Bool} (hin : p.Inside isObject) :
    Follows p (p.closeContext (if isObject then .endObject else .endArray)) where
  le := (Nat.sub_le _ _).trans hin.le
  contexts := by
    rw [← contexts_closeContext (t := if isObject then .endObject else .endArray) hin]
    cases isObject with
    | true => rfl
    | false => rfl
  success h := by
    cases isObject with
    | true => exact absurd h (show JsonToken.endObject ≠ .success by decide)
    | false => exact absurd h (show JsonToken.endArray ≠ .success by decide)

theorem Follows.of_contexts {p' : JsonParser} (h : Follows p' q) (hp : p'.contexts = p.contexts) :
    Follows p q where
  le := h.le
  contexts := by rw [h.contexts, hp]
  success hq := by rw [← length_contexts, ← hp, length_contexts, h.success hq]

section

variable (hle : p.stackSize ≤ maxJsonNestingDepth)
include hle

theorem follows_of_error (hq : q.contexts = p.contexts) (h : q.currentToken = .error) :
    Follows p q := by
  apply Follows.of_same hle hq
  · rw [h]
    decide
  · rw [h]
    intro h'
    exact absurd h' (by decide)

omit hle in
theorem contexts_parseFirst (h : p.parseFirstTokenInValue.currentToken = .error) :
    p.parseFirstTokenInValue.contexts = p.contexts := by
  unfold parseFirstTokenInValue at h ⊢
  dsimp only at h ⊢
  have hstart {t : JsonToken} (ht : t ≠ .error)
      (h : (parseStart { p with tokenStart := p.chars } t).currentToken = .error) :
      (parseStart { p with tokenStart := p.chars } t).contexts = p.contexts := by
    unfold parseStart tryPushContext at h ⊢
    by_cases hdepth : p.stackSize < maxJsonNestingDepth
    · rw [if_pos hdepth] at h
      exact absurd h ht
    · rw [if_neg hdepth]
      rfl
  have hliteral (expected : List Byte) (t : JsonToken) :
      (parseLiteral { p with tokenStart := p.chars, chars := p.chars.tail } expected t).contexts =
        p.contexts := by
    unfold parseLiteral
    split
    · rfl
    · rfl
  split_ifs at h ⊢
  · exact hstart (by decide) h
  · exact hstart (by decide) h
  · unfold parseStringAndSetCurrent
    split
    · rfl
    · rfl
  · exact hliteral _ _
  · exact hliteral _ _
  · exact hliteral _ _
  · unfold parseNumberAndSetCurrent
    split
    · split
      · rfl
      · rfl
    · rfl

theorem follows_parseFirst : Follows p p.parseFirstTokenInValue := by
  have hbegins := begins_parseFirst p
  have herror := contexts_parseFirst (p := p)
  generalize p.parseFirstTokenInValue = q at hbegins herror ⊢
  rcases hbegins with h | ⟨t, ht, hdepth, rfl⟩ | ⟨t, rest, ht, rfl⟩
  · exact follows_of_error hle (herror h) h
  · refine ⟨hdepth, ?_, ?_⟩
    · rw [contexts_opened t hdepth]
      show t.left ++ _ = t.entered ++ _
      rcases ht with rfl | rfl
      · rfl
      · rfl
    · show t = .success → _
      rcases ht with rfl | rfl
      · exact fun h => absurd h (by decide)
      · exact fun h => absurd h (by decide)
  · refine Follows.of_same hle ?_ ⟨ht.not_isStart, ht.not_isEnd⟩ ?_
    · rfl
    · exact fun h => absurd (Or.inl h) ht.not_isFinal

theorem follows_parseFieldName (toMatch : Option (List Byte)) :
    Follows p (p.parseFieldName toMatch).parser := by
  unfold parseFieldName
  split
  · refine Follows.of_same hle ?_ ?_ ?_
    · rfl
    · show ¬JsonToken.fieldName.IsStart ∧ ¬JsonToken.fieldName.IsEnd
      decide
    · exact fun h => absurd h (show JsonToken.fieldName ≠ .success by decide)
  · exact follows_of_error hle rfl rfl

theorem follows_parseNextTokenAt (c : Byte) (toMatch : Option (List Byte)) :
    Follows p (p.parseNextTokenAt c toMatch).parser := by
  have hbehind {q : JsonParser}
      (h : Follows ({ p with chars := p.chars.tail }).skipWhitespaces q) : Follows p q :=
    h.of_contexts rfl
  have herror : Follows p p.setCurrentError := follows_of_error hle rfl rfl
  -- outside every container: the first token, or the end
  by_cases hsize : p.stackSize = 0
  · unfold parseNextTokenAt
    rw [if_pos hsize]
    split_ifs
    · exact follows_parseFirst hle
    · refine Follows.of_same hle ?_ ?_ ?_
      · rfl
      · show ¬JsonToken.success.IsStart ∧ ¬JsonToken.success.IsEnd
        decide
      · exact fun _ => hsize
  have hpos : 0 < p.stackSize := Nat.pos_of_ne_zero hsize
  cases hcontext : p.isObjectContext with
  | true =>
    have hin := inside_of_isObjectContext hpos hle hcontext
    rw [parseNextTokenAt_object hin]
    split_ifs
    · exact follows_closeContext hin
    · exact follows_parseFieldName hle toMatch
    · exact hbehind (follows_parseFirst hle)
    · exact herror
    · exact follows_closeContext hin
    · apply hbehind
      apply follows_parseFieldName
      exact hle
    · exact herror
  | false =>
    have hin := inside_of_isObjectContext hpos hle hcontext
    rw [parseNextTokenAt_array hin]
    split_ifs
    · exact follows_closeContext hin
    · exact follows_parseFirst hle
    · exact hbehind (follows_parseFirst hle)
    · exact follows_closeContext hin
    · exact herror

/-- What a call does to the contexts. -/
theorem follows_nextToken : Follows p p.nextToken := by
  unfold nextToken parseNextToken
  dsimp only
  split
  · have hfollows := follows_parseNextTokenAt (p := p.skipWhitespaces) hle
    exact (hfollows _ none).of_contexts rfl
  · split
    · next hend =>
      refine Follows.of_same hle ?_ ?_ ?_
      · rfl
      · show ¬JsonToken.success.IsStart ∧ ¬JsonToken.success.IsEnd
        decide
      · exact fun _ => hend.1
    · exact follows_of_error hle rfl rfl

end

/-! ### The parser at a token -/

/-- The contexts fit the current token: it is the start of the innermost one, if it is a start. -/
structure Sound (p : JsonParser) : Prop where
  le : p.stackSize ≤ maxJsonNestingDepth
  entered : p.currentToken.entered <+: p.contexts

theorem Follows.sound (h : Follows p q) : q.Sound where
  le := h.le
  entered := by
    have hcontexts := h.contexts
    by_cases hend : q.currentToken.left = []
    · rw [hend, List.nil_append] at hcontexts
      rw [hcontexts]
      exact List.prefix_append _ _
    · have hnone : q.currentToken.entered = [] := by
        generalize q.currentToken = t at hend
        cases t
        all_goals first | rfl | exact absurd rfl hend
      rw [hnone]
      exact List.nil_prefix

theorem Sound.nextToken (h : p.Sound) : p.nextToken.Sound := (follows_nextToken h.le).sound

theorem Sound.calls (h : p.Sound) (hcalls : Calls p q) : q.Sound := by
  induction hcalls with
  | refl => exact h
  | tail _ hnext ih =>
    rw [hnext]
    exact ih.nextToken

theorem sound_nextToken_make (chars : List Byte) (beyond : Byte) :
    (make chars beyond).nextToken.Sound :=
  (follows_nextToken (Nat.zero_le _)).sound

/-! ### Copying a structure -/

theorem Follows.length (h : Follows p q) :
    q.currentToken.left.length + q.stackSize = q.currentToken.entered.length + p.stackSize := by
  have hlen := congrArg List.length h.contexts
  rwa [List.length_append, List.length_append, length_contexts, length_contexts] at hlen

theorem length_left_le (t : JsonToken) : t.left.length ≤ 1 := by
  cases t
  all_goals decide

/-- A call leaves one context at most. -/
theorem Follows.le_succ (h : Follows p q) : p.stackSize ≤ q.stackSize + 1 := by
  have hlen := h.length
  have hleft := length_left_le q.currentToken
  omega

/-- Contexts that are left later on, of those that there were before. -/
theorem Follows.suffix (h : Follows p q) (hr : r.contexts <:+ q.contexts)
    (hle : r.stackSize ≤ p.stackSize) : r.contexts <:+ p.contexts := by
  have hq : r.contexts <:+ q.currentToken.entered ++ p.contexts := by
    rw [← h.contexts]
    exact hr.trans (List.suffix_append _ _)
  apply List.suffix_of_suffix_length_le hq (List.suffix_append _ _)
  rw [length_contexts, length_contexts]
  exact hle

variable (normalization : List Byte → List Byte) {n fuel : Nat}

theorem Sound.not_success (h : p.Sound) (hpos : 0 < p.stackSize) :
    p.nextToken.currentToken ≠ .success :=
  fun hsuccess => hpos.ne' ((follows_nextToken h.le).success hsuccess)

/-- The loop of `copy_current_structure` ends, and it does so before `SUCCESS`. -/
theorem copyTurns_eq (h : p.Sound) (hpos : 0 < n) (hle : n ≤ p.stackSize)
    (hfuel : p.chars.length < fuel) :
    p.copyTurns normalization n fuel = some (p.copyLoop normalization n) := by
  induction fuel generalizing p with
  | zero => exact absurd hfuel (Nat.not_lt_zero _)
  | succ fuel ih =>
    have hnext : (p.parseNextToken none).parser = p.nextToken := rfl
    have hsuccess := h.not_success (hpos.trans_le hle)
    rw [copyTurns, copyLoop]
    dsimp only
    rw [hnext]
    by_cases herror : p.nextToken.currentToken = .error
    · have hfinal : p.nextToken.currentToken.IsFinal := Or.inr herror
      rw [if_pos herror, dif_pos hfinal]
    have hfinal : ¬p.nextToken.currentToken.IsFinal := fun h' => h'.elim hsuccess herror
    rw [if_neg herror, dif_neg hfinal]
    by_cases hlast : n = p.nextToken.stackSize + 1
    · rw [if_pos hlast, if_pos (Nat.sub_eq_of_eq_add hlast)]
    · have hsize := (follows_nextToken h.le).le_succ
      have hshorter := nextToken_lt hfinal
      rw [if_neg hlast, if_neg (by omega),
        ih h.nextToken (by omega) (by omega)]
      rfl

/-- What the loop of `copy_current_structure` leads to. -/
structure Copies (n : Nat) (p : JsonParser) (copy : Written) : Prop where
  calls : Calls p copy.parser
  contexts : copy.success = true → copy.parser.contexts <:+ p.contexts
  stackSize : copy.success = true → copy.parser.stackSize + 1 = n
  final : copy.success = true → ¬copy.parser.currentToken.IsFinal

theorem copies_copyLoop (h : p.Sound) (hpos : 0 < n) (hle : n ≤ p.stackSize) :
    Copies n p (p.copyLoop normalization n) := by
  induction hlen : p.chars.length using Nat.strong_induction_on generalizing p with
  | _ l ih =>
    have hnext : (p.parseNextToken none).parser = p.nextToken := rfl
    have hfollows := follows_nextToken h.le
    rw [copyLoop]
    dsimp only
    rw [hnext]
    by_cases hfinal : p.nextToken.currentToken.IsFinal
    · rw [dif_pos hfinal]
      exact ⟨.next p, fun h' => absurd h' Bool.false_ne_true, fun h' => absurd h' Bool.false_ne_true,
        fun h' => absurd h' Bool.false_ne_true⟩
    rw [dif_neg hfinal]
    by_cases hlast : n - 1 = p.nextToken.stackSize
    · rw [if_pos hlast]
      have hsize : p.nextToken.stackSize + 1 = n := by omega
      refine ⟨.next p, fun _ => ?_, fun _ => hsize, fun _ => hfinal⟩
      apply hfollows.suffix (List.suffix_refl _)
      omega
    · rw [if_neg hlast]
      have hsize := hfollows.le_succ
      have hcopies := ih _ (hlen ▸ nextToken_lt hfinal) h.nextToken (by omega) rfl
      refine ⟨(Calls.next p).trans hcopies.calls, fun h' => ?_, hcopies.stackSize, hcopies.final⟩
      have hlast := hcopies.stackSize h'
      apply hfollows.suffix (hcopies.contexts h')
      show (p.nextToken.copyLoop normalization n).parser.stackSize ≤ _
      omega

end JsonParser

end SparkRapids.GetJson
