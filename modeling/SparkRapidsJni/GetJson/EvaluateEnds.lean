import SparkRapidsJni.GetJson.Contexts

/-!
# The evaluation of a path ends

Each turn of the main loop that goes on lowers a measure: three for a character that is left, and
one or two for a context on the stack. A context that is pushed costs two, and is only pushed at a
token that has been read; a context that is done costs one less, and nothing once it is popped.

Two states would break this. Behind the end of the text `next_token` keeps returning `SUCCESS`, so
that a context could be pushed again and again; but a context at `SUCCESS` returns. And a push that
is refused could leave a context at `SUCCESS` for ever. Only case path 2 can be refused, as any
other shortens its path. Each array that it flattens is one the parser is still inside of, and the
parser does not get to `SUCCESS` inside of an array (`Inv.opens`).
-/

namespace SparkRapids.GetJson

namespace JsonParser

variable {p q r : JsonParser}

/-! ### What the loops over the tokens lead to -/

/-- What the text that is left contributes to the measure. -/
def left (p : JsonParser) : Nat :=
  if p.currentToken = .success then 0 else 3 * p.chars.length + 3

theorem Calls.left_le (h : Calls p q) (hp : p.currentToken ≠ .success) : q.left ≤ p.left := by
  have hle := h.le
  unfold JsonParser.left
  rw [if_neg hp]
  split_ifs
  · exact Nat.zero_le _
  · omega

/-- Calls get from `p` to the token that `q` is at. -/
structure GetsTo (p q : JsonParser) : Prop where
  calls : ∃ r, Calls p r ∧ q = r.nextToken
  error : q.currentToken ≠ .error

theorem GetsTo.next (h : p.nextToken.currentToken ≠ .error) : GetsTo p p.nextToken :=
  ⟨⟨p, .refl p, rfl⟩, h⟩

theorem GetsTo.of_calls (h : Calls p q) (h' : GetsTo q r) : GetsTo p r := by
  obtain ⟨q', hcalls, hr⟩ := h'.calls
  exact ⟨⟨q', h.trans hcalls, hr⟩, h'.error⟩

theorem GetsTo.toCalls (h : GetsTo p q) : Calls p q := by
  obtain ⟨r, hcalls, rfl⟩ := h.calls
  exact hcalls.trans (.next r)

/-- A token that has been read pays for a context. -/
theorem GetsTo.left_le (h : GetsTo p q) (hp : p.currentToken ≠ .success) :
    q.left + 3 ≤ p.left := by
  obtain ⟨r, hcalls, rfl⟩ := h.calls
  have hle := hcalls.le
  unfold JsonParser.left
  rw [if_neg hp]
  by_cases hsucc : r.nextToken.currentToken = .success
  · rw [if_pos hsucc]
    omega
  · have hlt := nextToken_lt (p := r) fun h' => h'.elim hsucc h.error
    rw [if_neg hsucc]
    omega

theorem not_isFinal_skipLoop (n : Nat) (p : JsonParser) (h : (p.skipLoop n).1 = true) :
    ¬(p.skipLoop n).2.currentToken.IsFinal := by
  induction n, p using skipLoop.induct with
  | case1 n p hfinal =>
    rw [skipLoop, dif_pos hfinal] at h
    exact absurd h Bool.false_ne_true
  | case2 n p hfinal hstart ih =>
    rw [skipLoop, dif_neg hfinal, if_pos hstart] at h ⊢
    exact ih h
  | case3 n p hfinal hstart hend hlast =>
    rw [skipLoop, dif_neg hfinal, if_neg hstart, if_pos hend, if_pos hlast]
    exact hfinal
  | case4 n p hfinal hstart hend hlast ih =>
    rw [skipLoop, dif_neg hfinal, if_neg hstart, if_pos hend, if_neg hlast] at h ⊢
    exact ih h
  | case5 n p hfinal hstart hend ih =>
    rw [skipLoop, dif_neg hfinal, if_neg hstart, if_neg hend] at h ⊢
    exact ih h

theorem not_isFinal_skipped (h : p.trySkipChildren.1 = true) :
    ¬p.trySkipChildren.2.currentToken.IsFinal := by
  have hp := not_isFinal_of_trySkipChildren h
  unfold trySkipChildren at h ⊢
  split_ifs at h ⊢
  · exact hp
  · exact not_isFinal_skipLoop 1 p h

/-- What a loop up to the token `t` leads to, if it succeeds. -/
structure SkipsTo (t : JsonToken) (p : JsonParser) (result : Bool × JsonParser) : Prop where
  calls : result.1 = true → Calls p result.2
  token : result.1 = true → result.2.currentToken = t

theorem skipsTo_failed {t : JsonToken} : SkipsTo t p (false, q) :=
  ⟨fun h => absurd h Bool.false_ne_true, fun h => absurd h Bool.false_ne_true⟩

theorem SkipsTo.of_calls {t : JsonToken} {result : Bool × JsonParser} (h : Calls p q)
    (h' : SkipsTo t q result) : SkipsTo t p result :=
  ⟨fun hresult => h.trans (h'.calls hresult), h'.token⟩

theorem skipMembers_skipsTo (p : JsonParser) : SkipsTo .endObject p p.skipMembers := by
  induction p using skipMembers.induct with
  | case1 p first hend =>
    rw [skipMembers, if_pos hend]
    exact ⟨fun _ => .next p, fun _ => hend⟩
  | case2 p first hend herror =>
    rw [skipMembers, if_neg hend, if_pos herror]
    exact skipsTo_failed
  | case3 p first hend herror value herror' =>
    rw [skipMembers, if_neg hend, if_neg herror, if_pos herror']
    exact skipsTo_failed
  | case4 p first hend herror value herror' hskip ih =>
    rw [skipMembers, if_neg hend, if_neg herror, if_neg herror', dif_pos hskip]
    have hvalue : Calls p value := (Calls.next p).trans (.next first)
    exact ih.of_calls (hvalue.trans (calls_trySkipChildren value))
  | case5 p first hend herror value herror' hskip =>
    rw [skipMembers, if_neg hend, if_neg herror, if_neg herror', dif_neg hskip]
    exact skipsTo_failed

theorem skipElements_skipsTo (p : JsonParser) : SkipsTo .endArray p p.skipElements := by
  induction p using skipElements.induct with
  | case1 p first hend =>
    rw [skipElements, if_pos hend]
    exact ⟨fun _ => .next p, fun _ => hend⟩
  | case2 p first hend herror =>
    rw [skipElements, if_neg hend, if_pos herror]
    exact skipsTo_failed
  | case3 p first hend herror hskip ih =>
    rw [skipElements, if_neg hend, if_neg herror, dif_pos hskip]
    exact ih.of_calls ((Calls.next p).trans (calls_trySkipChildren first))
  | case4 p first hend herror hskip =>
    rw [skipElements, if_neg hend, if_neg herror, dif_neg hskip]
    exact skipsTo_failed

theorem GetsTo.skipToIndex (i : Nat) (h : GetsTo p q) (hreached : (q.skipToIndex i).1 = true) :
    GetsTo p (q.skipToIndex i).2 := by
  induction i generalizing q with
  | zero => exact h
  | succ i ih =>
    unfold JsonParser.skipToIndex at hreached ⊢
    dsimp only at hreached ⊢
    split_ifs at hreached ⊢ with hend hskip herror
    have hnext : GetsTo p q.trySkipChildren.2.nextToken :=
      .of_calls (h.toCalls.trans (calls_trySkipChildren q)) (.next herror)
    exact ih hnext hreached

/-- What the scan of an object leads to, if it does not fail. -/
structure Scans (p : JsonParser) (result : Scanned × JsonParser) : Prop where
  found : result.1 = .found → GetsTo p result.2
  notFound : result.1 = .notFound → Calls p result.2 ∧ result.2.currentToken = .endObject

theorem scans_failed : Scans p (.failed, q) :=
  ⟨fun h => absurd h (show Scanned.failed ≠ .found by decide),
    fun h => absurd h (show Scanned.failed ≠ .notFound by decide)⟩

theorem scanObject_scans (garbage : Bool) (name : List Byte) (p : JsonParser) :
    Scans p (p.scanObject garbage name) := by
  induction hn : p.chars.length using Nat.strong_induction_on generalizing p with
  | _ n ih =>
    have hfirst : Calls p (p.parseNextToken (some name)).parser := by
      rw [parser_parseNextToken]
      exact .next p
    rw [scanObject]
    dsimp only
    generalize hmatched : (if (p.parseNextToken (some name)).parser.currentToken = .fieldName then
      (p.parseNextToken (some name)).matchedFieldName else garbage) = matched
    generalize (p.parseNextToken (some name)).parser = first at hfirst ⊢
    have hle := hfirst.le
    by_cases hend : first.currentToken = .endObject
    · rw [if_pos hend]
      exact ⟨fun h => absurd h (show Scanned.notFound ≠ .found by decide), fun _ => ⟨hfirst, hend⟩⟩
    rw [if_neg hend]
    by_cases herror : first.currentToken = .error
    · rw [if_pos herror]
      exact scans_failed
    rw [if_neg herror]
    by_cases herror' : first.nextToken.currentToken = .error
    · rw [if_pos herror']
      exact scans_failed
    rw [if_neg herror']
    have hvalue : GetsTo p first.nextToken := .of_calls hfirst (.next herror')
    split_ifs with hmatched' hnull hskip
    · exact scans_failed
    · exact ⟨fun _ => hvalue, fun h => absurd h (show Scanned.found ≠ .notFound by decide)⟩
    · -- the child is skipped, and the scan goes on behind it
      have hcalls := hvalue.toCalls.trans (calls_trySkipChildren first.nextToken)
      have hscans := ih _ (hn ▸ (skipped_lt hskip).trans_le hle) _ rfl
      refine ⟨fun h => .of_calls hcalls (hscans.found h), fun h => ?_⟩
      obtain ⟨hrest, htoken⟩ := hscans.notFound h
      exact ⟨hcalls.trans hrest, htoken⟩
    · exact scans_failed

/-- An array that starts is one of the contexts. -/
theorem Sound.count_pos (h : p.Sound) (htoken : p.currentToken = .startArray) :
    1 ≤ p.contexts.count false := by
  have hentered := h.entered
  rw [htoken] at hentered
  exact (hentered.sublist.count_le false :)

/-- Only the end of an array leaves one. -/
theorem Follows.count_le (h : Follows p q) (hend : q.currentToken ≠ .endArray) :
    p.contexts.count false + q.currentToken.entered.count false ≤ q.contexts.count false := by
  have hcount := congrArg (List.count false) h.contexts
  rw [List.count_append, List.count_append] at hcount
  have hleft : q.currentToken.left.count false = 0 := by
    generalize q.currentToken = t at hend
    cases t
    all_goals first | rfl | exact absurd rfl hend
  omega

theorem Follows.count_endArray (h : Follows p q) (hend : q.currentToken = .endArray) :
    q.contexts.count false + 1 = p.contexts.count false := by
  have hcount := congrArg (List.count false) h.contexts
  rw [List.count_append, List.count_append, hend] at hcount
  have hleft : JsonToken.endArray.left.count false = 1 := rfl
  have hentered : JsonToken.endArray.entered.count false = 0 := rfl
  omega

theorem stackSize_pos_of_isStart (h : p.Sound) (htoken : p.currentToken.IsStart) :
    0 < p.stackSize := by
  have hlen := h.entered.length_le
  rw [length_contexts] at hlen
  have hentered : p.currentToken.entered.length = 1 := by
    rcases htoken with htoken | htoken
    · rw [htoken]
      rfl
    · rw [htoken]
      rfl
  omega

variable (normal : List Byte → List Byte)

/-- `copy_current_structure` ends, with what the copy without a bound gives. -/
theorem copyStructure_eq (h : p.Sound) {fuel : Nat} (hfuel : p.chars.length < fuel) :
    p.copyStructure normal fuel = some (p.copyCurrentStructure normal) := by
  have hloop (hstart : p.currentToken.IsStart) :=
    copyTurns_eq normal h (stackSize_pos_of_isStart h hstart) le_rfl hfuel
  unfold copyStructure copyCurrentStructure
  generalize p.currentToken = t at hloop
  cases t
  case startArray =>
    dsimp only
    rw [hloop (by decide)]
    rfl
  case startObject =>
    dsimp only
    rw [hloop (by decide)]
    rfl
  all_goals rfl

/-- A copy keeps the arrays around an object, or a value that is no structure. -/
structure Kept (p : JsonParser) (copy : Written) : Prop where
  calls : Calls p copy.parser
  final : ¬copy.parser.currentToken.IsFinal
  count : p.currentToken ≠ .startArray →
    p.contexts.count false ≤ copy.parser.contexts.count false

theorem kept_copyLoop (h : p.Sound) (hstart : p.currentToken.IsStart)
    (hsucc : (p.copyLoop normal p.stackSize).success = true) :
    Kept p (p.copyLoop normal p.stackSize) := by
  have hpos := stackSize_pos_of_isStart h hstart
  have hcopies := copies_copyLoop normal h hpos le_rfl
  refine ⟨hcopies.calls, hcopies.final hsucc, fun harray => ?_⟩
  have hentered := h.entered
  rw [hstart.resolve_right harray] at hentered
  obtain ⟨rest, hrest⟩ : ∃ rest, p.contexts = true :: rest := by
    obtain ⟨rest, hrest⟩ := hentered
    exact ⟨rest, hrest.symm⟩
  have hsize := hcopies.stackSize hsucc
  have hlen := length_contexts p
  rw [hrest, List.length_cons] at hlen
  -- what is left are the contexts around the object
  have hsuffix := hcopies.contexts hsucc
  rw [hrest] at hsuffix ⊢
  rcases List.suffix_cons_iff.1 hsuffix with heq | hsuffix
  · have hcontexts := congrArg List.length heq
    rw [length_contexts, List.length_cons] at hcontexts
    omega
  · rw [hsuffix.eq_of_length (by rw [length_contexts]; omega)]
    exact List.count_cons_of_ne (by decide) |>.le

theorem kept_copyCurrentStructure (h : p.Sound)
    (hsucc : (p.copyCurrentStructure normal).success = true) :
    Kept p (p.copyCurrentStructure normal) := by
  have hscalar (ht : p.currentToken.IsScalar) (out : List Byte) : Kept p ⟨true, p, out⟩ :=
    ⟨.refl p, ht.not_isFinal, fun _ => le_rfl⟩
  have hloop (hstart : p.currentToken.IsStart) (out : List Byte)
      (hs : (p.copyLoop normal p.stackSize).success = true) :
      Kept p { p.copyLoop normal p.stackSize with
        out := out ++ (p.copyLoop normal p.stackSize).out } := by
    have hkept := kept_copyLoop normal h hstart hs
    exact ⟨hkept.calls, hkept.final, hkept.count⟩
  unfold copyCurrentStructure at hsucc ⊢
  generalize p.currentToken = t at hscalar hloop hsucc
  cases t
  case startArray => exact hloop (by decide) _ hsucc
  case startObject => exact hloop (by decide) _ hsucc
  all_goals first
    | exact absurd hsucc Bool.false_ne_true
    | exact hscalar (by decide) _

end JsonParser

/-! ### The stack -/

namespace Context

variable {c d : Context}

/-- A context of case path 2. -/
def IsFlattening (c : Context) : Prop :=
  c.token = .startArray ∧ c.path.length = 0 ∧ c.style = .flatten

instance (c : Context) : Decidable c.IsFlattening := inferInstanceAs (Decidable (_ ∧ _ ∧ _))

/-- What a context contributes to the measure. -/
def weight (c : Context) : Nat := if c.taskIsDone then 1 else 2

/-- The arrays that a context is flattening: one until it is done. -/
def opens (c : Context) : Nat := if c.IsFlattening ∧ c.taskIsDone = false then 1 else 0

/-- Whatever is above a context without a path comes from flattening. -/
def Above (c d : Context) : Prop :=
  d.path.length = 0 → d.IsFlattening ∧ c.path.length = 0 ∧ c.style = .flatten ∧
    c.casePath = .startArrayEmptyPathFlattenStyle

/-- The steps of a path fit on the stack above its context. -/
def Fits : List Context → Prop
  | [] => True
  | c :: below => (c.path.length = 0 ∨ c.path.length + below.length ≤ maxJsonPathDepth) ∧ Fits below

/-- The same task, with whatever has been written for it. -/
structure SameTask (c d : Context) : Prop where
  path : d.path = c.path
  style : d.style = c.style
  token : d.token = c.token
  casePath : d.casePath = c.casePath

variable {below : List Context}

theorem SameTask.isFlattening (h : SameTask c d) : d.IsFlattening ↔ c.IsFlattening := by
  unfold IsFlattening
  rw [h.token, h.path, h.style]

theorem SameTask.above (h : SameTask c d) (hc : (c :: below).Pairwise Above) :
    (d :: below).Pairwise Above := by
  rw [List.pairwise_cons] at hc ⊢
  refine ⟨fun e he => ?_, hc.2⟩
  unfold Above
  rw [h.path, h.style, h.casePath]
  exact hc.1 e he

theorem SameTask.fits (h : SameTask c d) (hc : Fits (c :: below)) : Fits (d :: below) := by
  unfold Fits
  rw [h.path]
  exact hc

/-- Below a context that does not come from flattening nothing is flattened. -/
theorem opens_below (h : (c :: below).Pairwise Above)
    (hc : c.path.length ≠ 0 ∨ c.style ≠ .flatten ∨ c.casePath ≠ .startArrayEmptyPathFlattenStyle) :
    (below.map opens).sum = 0 := by
  apply List.sum_eq_zero
  intro x hx
  obtain ⟨d, hd, rfl⟩ := List.mem_map.1 hx
  unfold opens
  apply if_neg
  rintro ⟨hflat, -⟩
  obtain ⟨-, hpath, hstyle, hcase⟩ := (List.pairwise_cons.1 h).1 d hd hflat.2.1
  rcases hc with h | h | h
  · exact h hpath
  · exact h hstyle
  · exact h hcase

theorem opens_le (c : Context) : c.opens ≤ 1 := by
  unfold opens
  split_ifs
  · exact le_rfl
  · exact Nat.zero_le 1

theorem opens_of_done (h : c.taskIsDone = true) : c.opens = 0 := by
  unfold opens
  apply if_neg
  rw [h]
  exact fun h' => Bool.false_ne_true h'.2.symm

theorem opens_of_not_flattening (h : ¬c.IsFlattening) : c.opens = 0 := if_neg fun h' => h h'.1

end Context

namespace EvalState

open Context JsonParser

/-- What holds in every state of the main loop. -/
structure Inv (s : EvalState) : Prop where
  sound : s.parser.Sound
  above : (s.top :: s.below).Pairwise Above
  fits : Fits (s.top :: s.below)
  /-- The parser is inside of the arrays that are flattened. -/
  opens : ((s.top :: s.below).map Context.opens).sum ≤ s.parser.contexts.count false
  /-- A context that is copied is the one that the parser is at. -/
  token : s.top.taskIsDone = false → s.top.path.length = 0 → ¬s.top.IsFlattening →
    s.parser.currentToken = s.top.token
  /-- The context at `SUCCESS` is not done, and returns in the turn to come. -/
  success : s.parser.currentToken = .success →
    s.top.taskIsDone = false ∧ s.top.token = .success
  stores : ∀ i ∈ s.stores, i ≤ maxJsonPathDepth

/-- What the turns lower. -/
def measure (s : EvalState) : Nat := s.parser.left + ((s.top :: s.below).map weight).sum

/-- A turn returns, or gets on. -/
inductive Progress (s : EvalState) : Turn → Prop
  | returns {result : Evaluated} (h : ∀ i ∈ result.stores, i ≤ maxJsonPathDepth) :
      Progress s (.returns result)
  | goesOn {s' : EvalState} (hinv : s'.Inv) (hmeasure : s'.measure < s.measure)
      (hle : s'.parser.chars.length ≤ s.parser.chars.length) : Progress s (.goesOn s')

variable {s s' : EvalState}

theorem Inv.fail (h : s.Inv) (hstores : s'.stores = s.stores) (p : JsonParser) :
    Progress s (s'.fail p) := by
  apply Progress.returns
  show ∀ i ∈ s'.stores, i ≤ maxJsonPathDepth
  rw [hstores]
  exact h.stores

/-- What a turn has changed besides the parser, while its context is still on top. -/
structure SameStack (s s' : EvalState) : Prop where
  task : SameTask s.top s'.top
  below : s'.below = s.below
  stores : s'.stores = s.stores

/-- The context on top is done. -/
theorem Inv.finish (h : s.Inv) (hsame : SameStack s s') (hundone : s.top.taskIsDone = false)
    (hdone : s'.top.taskIsDone = true) (hcalls : Calls s.parser s'.parser)
    (hp : s.parser.currentToken ≠ .success) (hp' : s'.parser.currentToken ≠ .success)
    (hopens : (s.below.map Context.opens).sum ≤ s'.parser.contexts.count false) :
    Progress s (.goesOn s') := by
  have hleft := hcalls.left_le hp
  refine .goesOn ⟨h.sound.calls hcalls, ?_, ?_, ?_, ?_, ?_, ?_⟩ ?_ hcalls.le
  · rw [hsame.below]
    exact hsame.task.above h.above
  · rw [hsame.below]
    exact hsame.task.fits h.fits
  · rw [List.map_cons, List.sum_cons, opens_of_done hdone, hsame.below, Nat.zero_add]
    exact hopens
  · intro h'
    exact absurd (h'.symm.trans hdone) Bool.false_ne_true
  · exact fun h' => absurd h' hp'
  · rw [hsame.stores]
    exact h.stores
  · have hweight : s'.top.weight = 1 := if_pos hdone
    have hweight' : s.top.weight = 2 := if_neg (by rw [hundone]; exact Bool.false_ne_true)
    unfold measure
    rw [List.map_cons, List.sum_cons, List.map_cons, List.sum_cons, hsame.below, hweight, hweight']
    omega

/-- A context with a shorter path is pushed on the one on top. -/
theorem Inv.push (h : s.Inv) (hsame : SameStack s s') (hundone : s.top.taskIsDone = false)
    (hundone' : s'.top.taskIsDone = false) (hgets : GetsTo s.parser s'.parser)
    (hp : s.parser.currentToken ≠ .success) (casePath : EvaluationCasePath) (g : JsonGenerator)
    (style : WriteStyle) {path : List PathInstruction}
    (hpath : path.length + 1 ≤ s.top.path.length) :
    Progress s (.goesOn (s'.pushContext casePath g style path)) := by
  have hcalls := hgets.toCalls
  have hsound := h.sound.calls hcalls
  have hne : s.top.path.length ≠ 0 := by omega
  have hfits : s.top.path.length + s.below.length ≤ maxJsonPathDepth :=
    h.fits.1.resolve_left hne
  have hlen := congrArg List.length hsame.below
  have habove := hsame.task.above h.above
  have hpath' : s'.top.path.length ≠ 0 := by
    rw [hsame.task.path]
    exact hne
  unfold pushContext
  rw [if_neg (by omega)]
  refine .goesOn ⟨hsound, ?_, ⟨?_, ?_⟩, ?_, fun _ _ _ => rfl, fun hsucc => ⟨rfl, hsucc⟩, ?_⟩
    ?_ hcalls.le
  · -- nothing below the new context is without a path
    rw [List.pairwise_cons]
    refine ⟨fun d hd => ?_, ?_⟩
    · intro hempty
      rcases List.mem_cons.1 hd with rfl | hd
      · exact absurd hempty hpath'
      · rw [hsame.below] at hd
        obtain ⟨-, hempty', -⟩ := (List.pairwise_cons.1 h.above).1 d hd hempty
        exact absurd hempty' hne
    · show (s'.top :: s'.below).Pairwise Above
      rw [hsame.below]
      exact habove
  · refine Or.inr ?_
    show path.length + (s'.below.length + 1) ≤ maxJsonPathDepth
    omega
  · show Fits (s'.top :: s'.below)
    rw [hsame.below]
    exact hsame.task.fits h.fits
  · have hbelow := opens_below h.above (Or.inl hne)
    have htop : s'.top.opens = 0 := opens_of_not_flattening fun h' => hpath' h'.2.1
    show (newContext s'.parser casePath g style path).opens +
      (s'.top.opens + (s'.below.map Context.opens).sum) ≤ s'.parser.contexts.count false
    rw [hsame.below, hbelow, htop]
    by_cases hstart : s'.parser.currentToken = .startArray
    · exact (opens_le _).trans (hsound.count_pos hstart)
    · have hnew : (newContext s'.parser casePath g style path).opens = 0 :=
        opens_of_not_flattening fun h' => hstart h'.1
      rw [hnew]
      exact Nat.zero_le _
  · intro i hi
    rcases List.mem_append.1 hi with hi | hi
    · rw [hsame.stores] at hi
      exact h.stores i hi
    · rw [List.mem_singleton.1 hi]
      omega
  · have hleft := hgets.left_le hp
    have hweight : s'.top.weight = 2 := if_neg (by rw [hundone']; exact Bool.false_ne_true)
    have hweight' : s.top.weight = 2 := if_neg (by rw [hundone]; exact Bool.false_ne_true)
    show s'.parser.left + (2 + (s'.top.weight + (s'.below.map weight).sum)) <
      s.parser.left + (s.top.weight + (s.below.map weight).sum)
    rw [hsame.below, hweight, hweight']
    omega

/-! ### Turns -/

theorem Inv.not_success (h : s.Inv) (htoken : s.top.token ≠ .success) :
    s.parser.currentToken ≠ .success :=
  fun hsucc => htoken (h.success hsucc).2

theorem not_success_of_start (htoken : s.top.token = .startArray ∨ s.top.token = .startObject) :
    s.top.token ≠ .success := by
  rcases htoken with h | h
  · rw [h]
    decide
  · rw [h]
    decide

theorem SameStack.refl (s : EvalState) : SameStack s s := ⟨⟨rfl, rfl, rfl, rfl⟩, rfl, rfl⟩

variable (normal : List Byte → List Byte) (garbage : Bool)

section

variable (h : s.Inv)
include h

section

variable (hundone : s.top.taskIsDone = false)
include hundone

theorem Inv.casePath1 (htoken : s.top.token = .valueString) (hstyle : s.top.style = .raw) :
    Progress s (s.casePath1 normal) := by
  have hp : s.parser.currentToken ≠ .success := h.not_success (by rw [htoken]; decide)
  refine h.finish ⟨⟨rfl, rfl, rfl, rfl⟩, rfl, rfl⟩ hundone rfl (.refl _) hp hp ?_
  rw [opens_below h.above (Or.inr (Or.inl (by rw [hstyle]; decide)))]
  exact Nat.zero_le _

/-- Case path 2 is inside of the array that it flattens, and does not get to `SUCCESS`. -/
theorem Inv.flattening (hflat : s.top.IsFlattening) :
    (s.below.map Context.opens).sum + 1 ≤ s.parser.contexts.count false ∧
      s.parser.nextToken.currentToken ≠ .success := by
  have hopens := h.opens
  have htop : s.top.opens = 1 := if_pos ⟨hflat, hundone⟩
  rw [List.map_cons, List.sum_cons, htop] at hopens
  have hcount := List.count_le_length (a := false) (l := s.parser.contexts)
  rw [length_contexts] at hcount
  exact ⟨by omega, h.sound.not_success (by omega)⟩

/-- Whether the push is refused or not, case path 2 has read a token. -/
theorem Inv.flatten (hflat : s.top.IsFlattening) (herror : s.parser.nextToken.currentToken ≠ .error)
    (hend : s.parser.nextToken.currentToken ≠ .endArray) :
    Progress s (.goesOn ({ s with parser := s.parser.nextToken }.pushContext
      .startArrayEmptyPathFlattenStyle s.top.g s.top.style [])) := by
  obtain ⟨-, hsucc⟩ := h.flattening hundone hflat
  have hfollows := follows_nextToken h.sound.le
  have hcount := hfollows.count_le hend
  have hopens := h.opens
  have hp : s.parser.currentToken ≠ .success :=
    h.not_success (not_success_of_start (Or.inl hflat.1))
  have hleft := (GetsTo.next herror).left_le hp
  have hlt := nextToken_lt fun h' => h'.elim hsucc herror
  unfold pushContext
  split_ifs with hfull
  · refine .goesOn ⟨hfollows.sound, h.above, h.fits, ?_, ?_, ?_, h.stores⟩ ?_ hlt.le
    · exact hopens.trans (le_self_add.trans hcount)
    · exact fun _ _ hnot => absurd hflat hnot
    · exact fun h' => absurd h' hsucc
    · exact Nat.add_lt_add_right (by show s.parser.nextToken.left < _; omega) _
  · refine .goesOn ⟨hfollows.sound, ?_, ⟨Or.inl rfl, h.fits⟩, ?_, fun _ _ _ => rfl,
      fun h' => absurd h' hsucc, ?_⟩ ?_ hlt.le
    · rw [List.pairwise_cons]
      refine ⟨fun d hd hempty => ?_, h.above⟩
      rcases List.mem_cons.1 hd with rfl | hd
      · exact ⟨hflat, rfl, hflat.2.2, rfl⟩
      · obtain ⟨hd', -⟩ := (List.pairwise_cons.1 h.above).1 d hd hempty
        exact ⟨hd', rfl, hflat.2.2, rfl⟩
    · -- the new context only flattens an array that has just been entered
      have hnew : (newContext s.parser.nextToken .startArrayEmptyPathFlattenStyle s.top.g
          s.top.style []).opens ≤ s.parser.nextToken.currentToken.entered.count false := by
        by_cases hstart : s.parser.nextToken.currentToken = .startArray
        · rw [hstart]
          exact opens_le _
        · rw [opens_of_not_flattening fun h' => hstart h'.1]
          exact Nat.zero_le _
      show _ + ((s.top :: s.below).map Context.opens).sum ≤ _
      exact (Nat.add_comm _ _).le.trans ((Nat.add_le_add hopens hnew).trans hcount)
    · intro i hi
      rcases List.mem_append.1 hi with hi | hi
      · exact h.stores i hi
      · rw [List.mem_singleton.1 hi]
        exact Nat.le_of_not_lt hfull
    · show s.parser.nextToken.left + (2 + ((s.top :: s.below).map weight).sum) < _
      unfold measure
      omega

theorem Inv.casePath2 (hflat : s.top.IsFlattening) : Progress s s.casePath2 := by
  unfold EvalState.casePath2
  dsimp only
  split_ifs with hend herror
  · exact h.fail rfl _
  · exact h.flatten hundone hflat herror hend
  · have hend : s.parser.nextToken.currentToken = .endArray := not_not.1 hend
    have hp : s.parser.currentToken ≠ .success :=
      h.not_success (not_success_of_start (Or.inl hflat.1))
    obtain ⟨hopens, hsucc⟩ := h.flattening hundone hflat
    have hcount := (follows_nextToken h.sound.le).count_endArray hend
    refine h.finish ⟨⟨rfl, rfl, rfl, rfl⟩, rfl, rfl⟩ hundone rfl (.next _) hp hsucc ?_
    show _ ≤ s.parser.nextToken.contexts.count false
    omega

end

omit h in
/-- What the generator adds to a copy. -/
theorem exists_copyCurrentStructure (g : JsonGenerator) {fuel : Nat} {p : JsonParser}
    {copy : Written} (out : OutBuf) (hcopy : p.copyStructure normal fuel = some copy) :
    ∃ g' out', g.copyCurrentStructure normal fuel p out =
      some (copy.success, copy.parser, g', out') := by
  unfold JsonGenerator.copyCurrentStructure
  rw [hcopy]
  exact ⟨_, _, rfl⟩

theorem Inv.casePath3 {fuel : Nat} (hfuel : s.parser.chars.length < fuel)
    (hundone : s.top.taskIsDone = false) (hpath : s.top.path.length = 0) (hflat : ¬s.top.IsFlattening) :
    Progress s (s.casePath3 normal fuel) := by
  have htoken := h.token hundone hpath hflat
  obtain ⟨g, out, hcopy⟩ := exists_copyCurrentStructure normal s.top.g s.out
    (copyStructure_eq normal h.sound hfuel)
  unfold EvalState.casePath3
  rw [hcopy]
  cases hsucc : (s.parser.copyCurrentStructure normal).success with
  | false =>
    apply h.fail
    rfl
  | true =>
    have hkept := kept_copyCurrentStructure normal h.sound hsucc
    have hp : s.parser.currentToken ≠ .success := by
      intro h'
      unfold copyCurrentStructure at hsucc
      rw [h'] at hsucc
      exact Bool.false_ne_true hsucc
    refine h.finish ⟨⟨rfl, rfl, rfl, rfl⟩, rfl, rfl⟩ hundone rfl hkept.calls hp
      (fun h' => hkept.final (Or.inl h')) ?_
    by_cases hstyle : s.top.style = .flatten
    · -- the array that would be left is not copied, but flattened
      have harray : s.parser.currentToken ≠ .startArray := by
        rw [htoken]
        exact fun h' => hflat ⟨h', hpath, hstyle⟩
      have hopens := h.opens
      rw [List.map_cons, List.sum_cons] at hopens
      exact (Nat.le_add_left _ _).trans (hopens.trans (hkept.count harray))
    · rw [opens_below h.above (Or.inr (Or.inl hstyle))]
      exact Nat.zero_le _

/-- The context on top is done, and has steps of its path left. -/
theorem Inv.finish_step (hsame : SameStack s s') (hundone : s.top.taskIsDone = false)
    (hdone : s'.top.taskIsDone = true) (hpath : s.top.path.length ≠ 0)
    (hcalls : Calls s.parser s'.parser) (hp : s.parser.currentToken ≠ .success)
    (hp' : s'.parser.currentToken ≠ .success) : Progress s (.goesOn s') := by
  refine h.finish hsame hundone hdone hcalls hp hp' ?_
  rw [opens_below h.above (Or.inl hpath)]
  exact Nat.zero_le _

variable (hundone : s.top.taskIsDone = false)
include hundone

theorem Inv.casePath4Again (htoken : s.top.token = .startObject) (hpath : s.top.path.length ≠ 0) :
    Progress s s.casePath4Again := by
  have hp := h.not_success (not_success_of_start (Or.inr htoken))
  have hskips := skipMembers_skipsTo s.parser
  unfold EvalState.casePath4Again
  split_ifs
  · rcases hresult : s.parser.skipMembers with ⟨valid, p⟩
    rw [hresult] at hskips
    dsimp only
    split_ifs with hvalid
    · refine h.finish_step ⟨⟨rfl, rfl, rfl, rfl⟩, rfl, rfl⟩ hundone rfl hpath (hskips.calls hvalid)
        hp ?_
      show p.currentToken ≠ .success
      rw [show p.currentToken = .endObject from hskips.token hvalid]
      decide
    · exact h.fail rfl p
  · exact h.finish_step ⟨⟨rfl, rfl, rfl, rfl⟩, rfl, rfl⟩ hundone rfl hpath (.refl _) hp hp

theorem Inv.casePath4First (htoken : s.top.token = .startObject) (hpath : s.top.path.length ≠ 0) :
    Progress s (s.casePath4First garbage) := by
  have hp := h.not_success (not_success_of_start (Or.inr htoken))
  have hscans := scanObject_scans garbage (frontName s.top.path) s.parser
  unfold EvalState.casePath4First
  dsimp only
  rcases hresult : s.parser.scanObject garbage (frontName s.top.path) with ⟨scanned, p⟩
  rw [hresult] at hscans
  cases scanned with
  | failed =>
    apply h.fail
    rfl
  | found =>
    refine h.push ?_ hundone ?_ ?_ hp _ _ _ ?_
    · exact ⟨⟨rfl, rfl, rfl, rfl⟩, rfl, rfl⟩
    · exact hundone
    · exact hscans.found rfl
    · rw [List.length_drop]
      omega
  | notFound =>
    obtain ⟨hcalls, hend⟩ := hscans.notFound rfl
    refine h.finish_step ⟨⟨rfl, rfl, rfl, rfl⟩, rfl, rfl⟩ hundone rfl hpath hcalls hp ?_
    show p.currentToken ≠ .success
    rw [show p.currentToken = .endObject from hend]
    decide

/-- Case paths 5, 6 and 7: a context for the next element, or the end of the array. -/
theorem Inv.element (htoken : s.top.token = .startArray) {n : Nat} (hn : 0 < n)
    (hpath : n ≤ s.top.path.length) {s' : EvalState} (hsame : SameStack s s')
    (hundone' : s'.top.taskIsDone = false) (hparser : s'.parser = s.parser)
    (casePath : EvaluationCasePath) (g : JsonGenerator) (style : WriteStyle) (leave : EvalState)
    (hleave : SameStack s leave) (hdone : leave.top.taskIsDone = true)
    (hleaves : leave.parser = s.parser.nextToken) :
    Progress s (if s'.parser.nextToken.currentToken ≠ .endArray then
      if s'.parser.nextToken.currentToken = .error then s'.fail s'.parser.nextToken
      else
        .goesOn ({ s' with parser := s'.parser.nextToken }.pushContext casePath g style
          (s'.top.path.drop n))
    else .goesOn leave) := by
  have hp := h.not_success (not_success_of_start (Or.inl htoken))
  rw [hparser]
  split_ifs with hend herror
  · exact h.fail hsame.stores _
  · refine h.push ?_ hundone ?_ ?_ hp _ _ _ ?_
    · exact ⟨hsame.task, hsame.below, hsame.stores⟩
    · exact hundone'
    · exact .next herror
    · rw [List.length_drop, hsame.task.path]
      omega
  · have hend : s.parser.nextToken.currentToken = .endArray := not_not.1 hend
    refine h.finish_step hleave hundone hdone (by omega) ?_ hp ?_
    · rw [hleaves]
      exact .next _
    · rw [hleaves, hend]
      decide

end

theorem sameStack_enterArray (s : EvalState) : SameStack s s.enterArray := by
  unfold enterArray
  split
  · exact ⟨⟨rfl, rfl, rfl, rfl⟩, rfl, rfl⟩
  · exact .refl s

theorem taskIsDone_enterArray (s : EvalState) : s.enterArray.top.taskIsDone = s.top.taskIsDone := by
  unfold enterArray
  split
  · rfl
  · rfl

theorem parser_enterArray (s : EvalState) : s.enterArray.parser = s.parser := by
  unfold enterArray
  split
  · rfl
  · rfl

theorem sameStack_leaveArray (h : SameStack s s') (p : JsonParser) :
    SameStack s ({ s' with parser := p }.leaveArray) :=
  ⟨⟨h.task.path, h.task.style, h.task.token, h.task.casePath⟩, h.below, h.stores⟩

theorem Inv.casePath5 (h : s.Inv) (hundone : s.top.taskIsDone = false)
    (htoken : s.top.token = .startArray) (hpath : 2 ≤ s.top.path.length) :
    Progress s s.casePath5 := by
  have hsame := sameStack_enterArray s
  have hparser := parser_enterArray s
  exact h.element hundone htoken Nat.two_pos hpath hsame
    ((taskIsDone_enterArray s).trans hundone) hparser _ _ _ _ (sameStack_leaveArray hsame _) rfl
    (congrArg nextToken hparser)

theorem Inv.casePath6 (h : s.Inv) (hundone : s.top.taskIsDone = false)
    (htoken : s.top.token = .startArray) (hpath : 1 ≤ s.top.path.length) :
    Progress s s.casePath6 := by
  refine h.element hundone htoken Nat.one_pos hpath ?_ ?_ ?_ _ _ _ _ ?_ ?_ ?_
  · exact ⟨⟨rfl, rfl, rfl, rfl⟩, rfl, rfl⟩
  · exact hundone
  · rfl
  all_goals unfold leaveWildcard
  · split_ifs
    · exact ⟨⟨rfl, rfl, rfl, rfl⟩, rfl, rfl⟩
    · exact ⟨⟨rfl, rfl, rfl, rfl⟩, rfl, rfl⟩
    · exact ⟨⟨rfl, rfl, rfl, rfl⟩, rfl, rfl⟩
  · split_ifs
    · rfl
    · rfl
    · rfl
  · split_ifs
    · rfl
    · rfl
    · rfl

theorem Inv.casePath7 (h : s.Inv) (hundone : s.top.taskIsDone = false)
    (htoken : s.top.token = .startArray) (hpath : 1 ≤ s.top.path.length) :
    Progress s s.casePath7 := by
  have hsame := sameStack_enterArray s
  have hparser := parser_enterArray s
  exact h.element hundone htoken Nat.one_pos hpath hsame
    ((taskIsDone_enterArray s).trans hundone) hparser _ _ _ _ (sameStack_leaveArray hsame _) rfl
    (congrArg nextToken hparser)

/-- Case paths 8 and 9. -/
theorem Inv.casePathIndex (h : s.Inv) (hsame : SameStack s s') (hundone : s.top.taskIsDone = false)
    (hundone' : s'.top.taskIsDone = false) (hparser : s'.parser = s.parser)
    (htoken : s.top.token = .startArray) (hpath : 1 ≤ s.top.path.length)
    (casePath : EvaluationCasePath) (style : WriteStyle) :
    Progress s (s'.casePathIndex casePath style) := by
  have hp := h.not_success (not_success_of_start (Or.inl htoken))
  unfold EvalState.casePathIndex
  dsimp only
  rw [hparser]
  split_ifs with herror hreached
  · exact h.fail hsame.stores _
  · refine h.push ?_ hundone ?_ ?_ hp _ _ _ ?_
    · exact ⟨hsame.task, hsame.below, hsame.stores⟩
    · exact hundone'
    · exact (GetsTo.next herror).skipToIndex _ hreached
    · rw [List.length_drop, hsame.task.path]
      omega
  · exact h.fail hsame.stores _

theorem Inv.casePath12 (h : s.Inv) (hundone : s.top.taskIsDone = false)
    (hpath : s.top.path.length ≠ 0) : Progress s s.casePath12 := by
  unfold EvalState.casePath12
  split_ifs with hskip
  · have hp : s.parser.currentToken ≠ .success :=
      fun h' => not_isFinal_of_trySkipChildren hskip (Or.inl h')
    refine h.finish_step ⟨⟨rfl, rfl, rfl, rfl⟩, rfl, rfl⟩ hundone rfl hpath
      (calls_trySkipChildren _) hp ?_
    exact fun h' => not_isFinal_skipped hskip (Or.inl h')
  · exact h.fail rfl _

theorem length_of_pathMatchElement {path : List PathInstruction} {t : PathInstructionType}
    (h : pathMatchElement path t = true) : 1 ≤ path.length := by
  cases path with
  | nil => exact absurd h Bool.false_ne_true
  | cons i path => exact Nat.le_add_left 1 _

theorem length_of_pathMatchElements {path : List PathInstruction} {t u : PathInstructionType}
    (h : pathMatchElements path t u = true) : 2 ≤ path.length := by
  rcases path with _ | ⟨i, _ | ⟨j, path⟩⟩
  · exact absurd h Bool.false_ne_true
  · exact absurd h Bool.false_ne_true
  · exact Nat.le_add_left 2 _

theorem Inv.evaluateTop (h : s.Inv) {fuel : Nat} (hfuel : s.parser.chars.length < fuel)
    (hundone : s.top.taskIsDone = false) :
    Progress s (s.evaluateTop normal garbage fuel) := by
  unfold EvalState.evaluateTop
  by_cases h1 : s.top.token = .valueString ∧ s.top.path.length = 0 ∧ s.top.style = .raw
  · rw [if_pos h1]
    exact h.casePath1 normal hundone h1.1 h1.2.2
  rw [if_neg h1]
  by_cases h2 : s.top.token = .startArray ∧ s.top.path.length = 0 ∧ s.top.style = .flatten
  · rw [if_pos h2]
    exact h.casePath2 hundone h2
  rw [if_neg h2]
  by_cases h3 : s.top.path.length = 0
  · rw [if_pos h3]
    exact h.casePath3 normal hfuel hundone h3 h2
  rw [if_neg h3]
  split_ifs with h4 hfirst h5 h6 h7 h8 h9
  · exact h.casePath4First garbage hundone h4.1 h3
  · exact h.casePath4Again hundone h4.1 h3
  · exact h.casePath5 hundone h5.1 (length_of_pathMatchElements h5.2)
  · exact h.casePath6 hundone h6.1 (length_of_pathMatchElement h6.2.1)
  · exact h.casePath7 hundone h7.1 (length_of_pathMatchElement h7.2)
  · refine h.casePathIndex ?_ hundone ?_ ?_ h8.1 ?_ _ _
    · exact ⟨⟨rfl, rfl, rfl, rfl⟩, rfl, rfl⟩
    · exact hundone
    · rfl
    · exact Nat.le_of_succ_le (length_of_pathMatchElements h8.2)
  · exact h.casePathIndex (.refl s) hundone hundone rfl h9.1 (length_of_pathMatchElement h9.2) _ _
  · exact h.casePath12 hundone h3

/-! ### Popping a context -/

theorem sameTask_collected (c d : Context) : SameTask d (collected c d) := by
  unfold collected
  cases c.casePath
  all_goals exact ⟨rfl, rfl, rfl, rfl⟩

/-- A parent may be done with its child, and is not taken up again. -/
theorem taskIsDone_collected (c d : Context) :
    (collected c d).taskIsDone = d.taskIsDone ∨ (collected c d).taskIsDone = true := by
  unfold collected
  cases c.casePath
  all_goals first | exact Or.inl rfl | exact Or.inr rfl

theorem opens_collected (c d : Context) : (collected c d).opens ≤ d.opens := by
  rcases taskIsDone_collected c d with h | h
  · have hflat := (sameTask_collected c d).isFlattening
    unfold Context.opens
    rw [h]
    exact (if_congr (and_congr_left' hflat) rfl rfl).le
  · rw [opens_of_done h]
    exact Nat.zero_le _

theorem weight_collected (c d : Context) : (collected c d).weight ≤ d.weight := by
  unfold weight
  rcases taskIsDone_collected c d with h | h
  · rw [h]
  · rw [if_pos h]
    split_ifs
    · exact le_rfl
    · exact one_le_two

/-- A context is popped, and the text behind it is skipped up to `p`. -/
theorem Inv.popped (h : s.Inv) (hdone : s.top.taskIsDone = true) {parent : Context}
    {below : List Context} (hbelow : s.below = parent :: below) {p : JsonParser}
    (hcalls : Calls s.parser p) (hsucc : s.parser.currentToken ≠ .success)
    (hsuccess' : p.currentToken ≠ .success)
    (hopens : ((parent :: below).map Context.opens).sum ≤ p.contexts.count false) :
    Progress s
      (.goesOn { s with parser := p, top := collected s.top parent, below }) := by
  have hsame := sameTask_collected s.top parent
  have habove := h.above
  have hfits := h.fits
  rw [hbelow] at habove hfits
  obtain ⟨habove, hpairwise⟩ := List.pairwise_cons.1 habove
  refine .goesOn ⟨h.sound.calls hcalls, hsame.above hpairwise, hsame.fits hfits.2, ?_, ?_,
    fun h' => absurd h' hsuccess', h.stores⟩ ?_ hcalls.le
  · exact (Nat.add_le_add_right (opens_collected s.top parent) _).trans hopens
  · -- a parent without a path is flattening
    intro _ hempty hnot
    have hempty' : parent.path.length = 0 := by
      rw [← hsame.path]
      exact hempty
    obtain ⟨hflat, -⟩ := habove parent (List.mem_cons_self ..) hempty'
    exact absurd (hsame.isFlattening.2 hflat) hnot
  · have hleft := hcalls.left_le hsucc
    have hweight := weight_collected s.top parent
    have htop : s.top.weight = 1 := if_pos hdone
    unfold measure
    rw [hbelow]
    show p.left + ((collected s.top parent).weight + (below.map Context.weight).sum) <
      s.parser.left + (s.top.weight + (parent.weight + (below.map Context.weight).sum))
    omega

theorem Inv.popContext (h : s.Inv) (hdone : s.top.taskIsDone = true) : Progress s s.popContext := by
  have hsucc : s.parser.currentToken ≠ .success :=
    fun h' => Bool.false_ne_true ((h.success h').1.symm.trans hdone)
  unfold EvalState.popContext
  split
  · exact .returns h.stores
  · next parent below hbelow =>
    dsimp only
    split_ifs with hindex hvalid
    · -- the parent still has its index as a step, so that no array is flattened
      have hcase : s.top.casePath ≠ .startArrayEmptyPathFlattenStyle := by
        rcases hindex with h' | h'
        · rw [h']
          decide
        · rw [h']
          decide
      have hskips := skipElements_skipsTo s.parser
      refine h.popped hdone hbelow (hskips.calls hvalid) hsucc ?_ ?_
      · rw [hskips.token hvalid]
        decide
      · rw [← hbelow, opens_below h.above (Or.inr (Or.inr hcase))]
        exact Nat.zero_le _
    · exact h.fail rfl _
    · refine h.popped hdone hbelow (.refl _) hsucc hsucc ?_
      have hopens := h.opens
      rw [hbelow, List.map_cons, List.sum_cons] at hopens
      exact (Nat.le_add_left _ _).trans hopens

/-- Every turn returns or gets on. -/
theorem Inv.turn (h : s.Inv) {fuel : Nat} (hfuel : s.parser.chars.length < fuel) :
    Progress s (s.turn normal garbage fuel) := by
  unfold EvalState.turn
  split_ifs with hundone
  · exact h.popContext (by simpa using hundone)
  · exact h.evaluateTop normal garbage hfuel (by simpa using hundone)

/-- A turn does not depend on the bound for the loop of `copy_current_structure`. -/
theorem Inv.turn_eq (h : s.Inv) {fuel fuel' : Nat} (hfuel : s.parser.chars.length < fuel)
    (hfuel' : s.parser.chars.length < fuel') :
    s.turn normal garbage fuel = s.turn normal garbage fuel' := by
  have hcopy : s.casePath3 normal fuel = s.casePath3 normal fuel' := by
    unfold EvalState.casePath3 JsonGenerator.copyCurrentStructure
    rw [copyStructure_eq normal h.sound hfuel, copyStructure_eq normal h.sound hfuel']
  unfold EvalState.turn EvalState.evaluateTop
  rw [hcopy]

/-- The main loop ends within as many turns as the measure tells. -/
theorem Inv.run (h : s.Inv) : ∃ result, (∀ fuel turns, s.parser.chars.length < fuel →
    s.measure < turns → s.run normal garbage fuel turns = some result) ∧
      ∀ i ∈ result.stores, i ≤ maxJsonPathDepth := by
  induction hn : s.measure using Nat.strong_induction_on generalizing s with
  | _ n ih =>
    have hprogress := h.turn normal garbage (Nat.lt_succ_self _)
    have hturn {fuel : Nat} (hfuel : s.parser.chars.length < fuel) :=
      h.turn_eq normal garbage hfuel (Nat.lt_succ_self _)
    have hsucc {turns : Nat} (hturns : n < turns) : ∃ m, turns = m + 1 :=
      Nat.exists_eq_succ_of_ne_zero (Nat.ne_zero_of_lt hturns)
    generalize s.turn normal garbage (s.parser.chars.length + 1) = t at hprogress hturn
    cases hprogress with
    | @returns result hstores =>
      refine ⟨result, fun fuel turns hfuel hturns => ?_, hstores⟩
      obtain ⟨m, rfl⟩ := hsucc hturns
      rw [EvalState.run, hturn hfuel]
    | @goesOn s' hinv hmeasure hle =>
      obtain ⟨result, hrun, hstores⟩ := ih _ (hn ▸ hmeasure) hinv rfl
      refine ⟨result, fun fuel turns hfuel hturns => ?_, hstores⟩
      obtain ⟨m, rfl⟩ := hsucc hturns
      rw [EvalState.run, hturn hfuel]
      exact hrun fuel m (hle.trans_lt hfuel) (by omega)

theorem Inv.first {p : JsonParser} (hp : p.Sound) {path : List PathInstruction}
    (hpath : path.length ≤ maxJsonPathDepth) (out : OutBuf) : (EvalState.first p path out).Inv where
  sound := hp
  above := List.pairwise_singleton _ _
  fits := ⟨Or.inr hpath, trivial⟩
  opens := by
    have hraw : (newContext p .invalid {} .raw path).opens = 0 :=
      opens_of_not_flattening fun h => absurd h.2.2 (show WriteStyle.raw ≠ .flatten by decide)
    show (newContext p .invalid {} .raw path).opens + 0 ≤ _
    rw [hraw]
    exact Nat.zero_le _
  token _ _ _ := rfl
  success h := ⟨rfl, h⟩
  stores i hi := by
    rw [List.mem_singleton.1 hi]
    exact Nat.zero_le _

end EvalState

open JsonParser

/-- The evaluation of a path ends for every text, within three turns for a character and six more,
and every context is stored inside of the stack. -/
theorem evaluatePath_ends (normal : List Byte → List Byte) (garbage : Bool)
    (chars : List Byte) (beyond : Byte) {path : List PathInstruction}
    (hpath : path.length ≤ maxJsonPathDepth) (out : OutBuf) :
    ∃ result, (∀ fuel, 3 * chars.length + 6 ≤ fuel →
      evaluatePath normal garbage fuel (make chars beyond) path out = some result) ∧
      ∀ i ∈ result.stores, i < maxJsonPathDepth + 1 := by
  have hsound := sound_nextToken_make chars beyond
  have hle : (make chars beyond).nextToken.chars.length ≤ chars.length := nextToken_le _
  unfold evaluatePath
  dsimp only
  by_cases herror : (make chars beyond).nextToken.currentToken = .error
  · refine ⟨_, fun fuel _ => if_pos herror, fun i hi => absurd hi List.not_mem_nil⟩
  · obtain ⟨result, hrun, hstores⟩ :=
      (EvalState.Inv.first hsound hpath out).run normal garbage
    refine ⟨result, fun fuel hfuel => ?_, fun i hi => Nat.lt_succ_of_le (hstores i hi)⟩
    rw [if_neg herror]
    have hleft : (make chars beyond).nextToken.left ≤ 3 * chars.length + 3 := by
      unfold JsonParser.left
      split_ifs
      · exact Nat.zero_le _
      · omega
    apply hrun
    · show (make chars beyond).nextToken.chars.length < fuel
      omega
    · show (make chars beyond).nextToken.left + 2 < fuel
      omega

/-- The path `$[*]` on a nested array that is not closed. -/
theorem evaluatePath_ends_unclosed : ∃ result, (∀ fuel, 3 * 3 + 6 ≤ fuel →
    evaluatePath id false fuel (make [chr '[', chr '[', chr ']'] 0) [{ type := .wildcard }]
      (fun _ => 0) = some result) ∧ ∀ i ∈ result.stores, i < maxJsonPathDepth + 1 :=
  evaluatePath_ends id false [chr '[', chr '[', chr ']'] 0 (by decide) (fun _ => 0)

end SparkRapids.GetJson
