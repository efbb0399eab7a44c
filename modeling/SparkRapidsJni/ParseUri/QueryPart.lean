import SparkRapidsJni.Lib.Ascii

/-!
# `parse_uri.cu`: a parameter of a query

`find_query_part` looks for a parameter in a query. It compares the key where a parameter starts, and
otherwise goes on behind the next `&`. It gives up early, where too few bytes are left for the key and a
`=`: then no parameter that is still to come is long enough.

A read outside of the query or the key has no result, and so `findQueryPart_eq` says as well that there
is none.
-/

namespace SparkRapids.ParseUri

open Ascii

/-! ### The code -/

/-- The loop over `jdx`: the bytes from `h` on are those of the needle. -/
def matchNeedle (haystack needle : List Byte) (h jdx : ℕ) : Option Bool :=
  if jdx < needle.length then do
    let a ← haystack[h + jdx]?
    let b ← needle[jdx]?
    if a = b then matchNeedle haystack needle h (jdx + 1) else some false
  else some true
termination_by needle.length - jdx

/-- `match_needle && h[n_bytes] == '='` -/
def matchesAt (haystack needle : List Byte) (h : ℕ) : Option Bool := do
  if ← matchNeedle haystack needle h 0 then
    let a ← haystack[h + needle.length]?
    return a = chr '='
  else return false

/-- `match_len`: the rest of the string until its end or until `&`. -/
def matchLen (haystack : List Byte) (h len : ℕ) : Option ℕ :=
  if h < haystack.length then do
    let a ← haystack[h]?
    if a ≠ chr '&' then matchLen haystack (h + 1) (len + 1) else some len
  else some len
termination_by haystack.length - h

/-- Not a match: skip to the next parameter if possible, which is after a `&`. -/
def skipToNext (haystack : List Byte) (nBytes h : ℕ) : Option ℕ :=
  if h + nBytes < haystack.length then do
    let a ← haystack[h]?
    if a ≠ chr '&' then skipToNext haystack nBytes (h + 1) else some h
  else some h
termination_by haystack.length - h

theorem le_of_skipToNext {haystack : List Byte} {nBytes h h' : ℕ}
    (hskip : skipToNext haystack nBytes h = some h') : h ≤ h' := by
  fun_induction skipToNext haystack nBytes h with
  | case1 h hlt ih =>
    cases ha : haystack[h]? with
    | none =>
      rw [ha] at hskip
      exact nomatch hskip
    | some a =>
      rw [ha, Option.bind_eq_bind, Option.bind_some] at hskip
      by_cases hamp : a ≠ chr '&'
      · rw [if_pos hamp] at hskip
        exact (Nat.le_succ h).trans (ih hskip)
      · rw [if_neg hamp] at hskip
        exact (Option.some.inj hskip).le
  | case2 h hlt => exact (Option.some.inj hskip).le

/-- The loop of `find_query_part`. -/
def findFrom (haystack needle : List Byte) (h : ℕ) : Option (List Byte × Bool) :=
  -- stop matching early after it can no longer contain the string we are searching for
  if h + needle.length < haystack.length then
    match matchesAt haystack needle h with
    | none => none
    | some true => do
      -- we don't care about the matched part, we want the string data after '='
      let start := h + needle.length + 1
      let len ← matchLen haystack start 0
      some (Bytes.slice haystack start len, true)
    | some false =>
      match hskip : skipToNext haystack needle.length h with
      | none => none
      -- skip over the `&` if there is one
      | some h' => findFrom haystack needle (h' + 1)
  else some ([], false)
termination_by haystack.length - h
decreasing_by
  have hle := le_of_skipToNext hskip
  omega

/-- `find_query_part` -/
def findQueryPart (haystack needle : List Byte) : Option (List Byte × Bool) :=
  findFrom haystack needle 0

/-! ### Parameters -/

/-- The value of a component, if it is the one of a key. -/
def parameter (key component : List Byte) : Option (List Byte) :=
  if (key ++ [chr '=']).isPrefixOf component then some (component.drop (key.length + 1)) else none

/-- What is to be found in a query: the value of the first component of the key. -/
def lookup (key query : List Byte) : List Byte × Bool :=
  ((query.splitOn (chr '&')).findSome? (parameter key)).elim ([], false) fun v => (v, true)

/-- The value of the first component of the key is `v`. -/
def FirstParameter (key query v : List Byte) : Prop :=
  ∃ before after, query.splitOn (chr '&') = before ++ (key ++ chr '=' :: v) :: after ∧
    ∀ component ∈ before, ∀ v', component ≠ key ++ chr '=' :: v'

theorem eq_append_cons_iff {key component v : List Byte} :
    component = key ++ chr '=' :: v ↔ parameter key component = some v := by
  have happend : key ++ chr '=' :: v = (key ++ [chr '=']) ++ v := by
    rw [List.append_assoc, List.singleton_append]
  have hlen : (key ++ [chr '=']).length = key.length + 1 := by
    rw [List.length_append, List.length_singleton]
  rw [happend]
  constructor
  · rintro rfl
    have hstarts : (key ++ [chr '=']).isPrefixOf (key ++ [chr '='] ++ v) = true :=
      List.isPrefixOf_iff_prefix.2 (List.prefix_append ..)
    rw [parameter, if_pos hstarts, List.drop_left' hlen]
  · intro h
    unfold parameter at h
    by_cases hstarts : (key ++ [chr '=']).isPrefixOf component = true
    · rw [if_pos hstarts] at h
      obtain ⟨rest, rfl⟩ := List.isPrefixOf_iff_prefix.1 hstarts
      rw [List.drop_left' hlen] at h
      rw [Option.some.inj h]
    · rw [if_neg hstarts] at h
      exact nomatch h

section Lookup

variable {key query first rest : List Byte}

/-- A query is one component, or a component and a query behind a `&`. -/
theorem exists_component (query : List Byte) : ∃ first, chr '&' ∉ first ∧
    (query = first ∨ ∃ rest, query = first ++ chr '&' :: rest) := by
  refine ⟨query.takeWhile (· ≠ chr '&'), ?_, ?_⟩
  · intro hmem
    have hne := List.mem_takeWhile_imp (p := (· ≠ chr '&')) hmem
    exact absurd rfl (of_decide_eq_true hne)
  · have happend := List.takeWhile_append_dropWhile (p := (· ≠ chr '&')) (l := query)
    rcases hdrop : query.dropWhile (· ≠ chr '&') with _ | ⟨c, rest⟩
    · left
      rw [hdrop, List.append_nil] at happend
      exact happend.symm
    · right
      have hc := List.head?_dropWhile_not (· ≠ chr '&') query
      rw [hdrop] at hc
      obtain rfl : c = chr '&' := by simpa using hc
      rw [hdrop] at happend
      exact ⟨rest, happend.symm⟩

theorem lookup_component (h : chr '&' ∉ first) :
    lookup key first = (parameter key first).elim ([], false) fun v => (v, true) := by
  rw [lookup, List.splitOn_eq_singleton h, List.findSome?_singleton]

theorem lookup_append (h : chr '&' ∉ first) : lookup key (first ++ chr '&' :: rest) =
    (parameter key first).elim (lookup key rest) fun v => (v, true) := by
  rw [lookup, List.splitOn_append_cons_self_of_not_mem h, List.findSome?_cons]
  cases parameter key first <;> rfl

theorem parameter_of_length_le (h : query.length ≤ key.length) : parameter key query = none := by
  cases hv : parameter key query with
  | none => rfl
  | some v =>
    rw [eq_append_cons_iff.2 hv, List.length_append, List.length_cons] at h
    omega

/-- A query that is not longer than the key has no value for it. -/
theorem lookup_of_length_le (h : query.length ≤ key.length) : lookup key query = ([], false) := by
  induction hn : query.length using Nat.strong_induction_on generalizing query with
  | _ n ih =>
    obtain ⟨first, hfirst, rfl | ⟨rest, rfl⟩⟩ := exists_component query
    · rw [lookup_component hfirst, parameter_of_length_le h]
      rfl
    · rw [List.length_append, List.length_cons] at h hn
      rw [lookup_append hfirst, parameter_of_length_le (by omega)]
      exact ih rest.length (by omega) (by omega) rfl

end Lookup

/-! ### The loops -/

section Loops

variable {text needle first rest : List Byte} {h jdx n : ℕ}

theorem matchNeedle_eq (hroom : h + needle.length ≤ text.length) :
    matchNeedle text needle h jdx =
      some ((needle.drop jdx).isPrefixOf (text.drop (h + jdx))) := by
  fun_induction matchNeedle text needle h jdx with
  | case1 jdx hlt ih =>
    have hlt' : h + jdx < text.length := by omega
    rw [List.getElem?_eq_getElem hlt', List.getElem?_eq_getElem hlt, List.drop_eq_getElem_cons hlt,
      List.drop_eq_getElem_cons hlt', List.isPrefixOf_cons_cons]
    show (if text[h + jdx] = needle[jdx] then _ else _) = _
    by_cases heq : text[h + jdx] = needle[jdx]
    · rw [if_pos heq, ih, beq_iff_eq.2 heq.symm, Bool.true_and]
      rfl
    · rw [if_neg heq, beq_eq_false_iff_ne.2 (Ne.symm heq), Bool.false_and]
  | case2 jdx hlt =>
    rw [List.drop_of_length_le (Nat.le_of_not_lt hlt)]
    rfl

theorem matchesAt_eq (hroom : h + needle.length < text.length) :
    matchesAt text needle h =
      some ((needle ++ [chr '=']).isPrefixOf (text.drop h)) := by
  unfold matchesAt
  rw [matchNeedle_eq hroom.le, List.drop_zero, Nat.add_zero]
  show (if needle.isPrefixOf (text.drop h) = true then _ else _) = _
  by_cases hstarts : needle.isPrefixOf (text.drop h) = true
  · obtain ⟨rest, hrest⟩ := List.isPrefixOf_iff_prefix.1 hstarts
    -- the byte behind the needle
    have hget : text[h + needle.length]? = rest[0]? := by
      rw [← List.getElem?_drop, ← hrest, List.getElem?_append_right le_rfl, Nat.sub_self]
    cases rest with
    | nil =>
      have hlen := congrArg List.length hrest
      rw [List.append_nil, List.length_drop] at hlen
      omega
    | cons c rest =>
      rw [if_pos hstarts, hget, ← hrest]
      show some (decide (c = chr '=')) = _
      congr 1
      rw [Bool.eq_iff_iff, List.isPrefixOf_iff_prefix, List.prefix_append_right_inj,
        List.cons_prefix_cons, decide_eq_true_iff, eq_comm]
      exact (and_iff_left (List.nil_prefix ..)).symm
  · have hlonger : ¬(needle ++ [chr '=']).isPrefixOf (text.drop h) = true := by
      intro hlong
      apply hstarts
      rw [List.isPrefixOf_iff_prefix] at hlong ⊢
      exact (List.prefix_append ..).trans hlong
    rw [if_neg hstarts, Bool.eq_false_iff.2 hlonger]
    rfl

theorem matchLen_eq (text : List Byte) (h len : ℕ) : matchLen text h len =
    some (len + ((text.drop h).takeWhile (· ≠ chr '&')).length) := by
  fun_induction matchLen text h len with
  | case1 h len hlt ih =>
    rw [List.getElem?_eq_getElem hlt, List.drop_eq_getElem_cons hlt]
    show (if text[h] ≠ chr '&' then _ else _) = _
    by_cases hamp : text[h] ≠ chr '&'
    · rw [if_pos hamp, ih, List.takeWhile_cons, if_pos (decide_eq_true hamp), List.length_cons]
      congr 1
      omega
    · rw [if_neg hamp, List.takeWhile_cons, if_neg fun h => hamp (of_decide_eq_true h)]
      rfl
  | case2 h len hlt =>
    rw [List.drop_of_length_le (Nat.le_of_not_lt hlt)]
    rfl

/-- The skip ends at the `&`, or where too little is left. -/
theorem skipToNext_spec (hdrop : text.drop h = first ++ rest) (hfirst : chr '&' ∉ first)
    (hrest : ∀ c ∈ rest.head?, c = chr '&') :
    ∃ h', skipToNext text n h = some h' ∧ h' ≤ h + first.length ∧
      (text.length ≤ h' + n ∨ h' = h + first.length ∧ rest ≠ []) := by
  induction first generalizing h with
  | nil =>
    refine ⟨h, ?_, le_rfl, ?_⟩
    · rw [skipToNext]
      by_cases hlt : h + n < text.length
      · have hlt' : h < text.length := by omega
        -- a component that is empty: the loop stops at once, on the `&`
        have hamp : text[h] = chr '&' := by
          apply hrest
          rw [← List.nil_append rest, ← hdrop, List.head?_drop, List.getElem?_eq_getElem hlt']
          rfl
        rw [if_pos hlt, List.getElem?_eq_getElem hlt']
        exact if_neg fun hne => hne hamp
      · exact if_neg hlt
    · by_cases hlt : h + n < text.length
      · right
        refine ⟨rfl, ?_⟩
        rintro rfl
        have hlen := congrArg List.length hdrop
        rw [List.length_drop, List.append_nil, List.length_nil] at hlen
        omega
      · exact .inl (Nat.le_of_not_lt hlt)
  | cons c first ih =>
    rw [List.mem_cons, not_or] at hfirst
    by_cases hlt : h + n < text.length
    · have hlt' : h < text.length := by omega
      rw [List.drop_eq_getElem_cons hlt', List.cons_append, List.cons.injEq] at hdrop
      obtain ⟨h', hskip, hle, hend⟩ := ih hdrop.2 hfirst.2
      refine ⟨h', ?_, ?_, ?_⟩
      · rw [skipToNext, if_pos hlt, List.getElem?_eq_getElem hlt', ← hskip]
        exact if_pos fun heq => hfirst.1 (heq.symm.trans hdrop.1)
      · rw [List.length_cons]
        omega
      · rw [List.length_cons]
        exact hend.imp_right fun hh => ⟨by omega, hh.2⟩
    · exact ⟨h, by rw [skipToNext, if_neg hlt], Nat.le_add_right .., .inl (Nat.le_of_not_lt hlt)⟩

/-- A match is the first component: the value ends where the component does. -/
theorem lookup_of_isPrefixOf (hneedle : chr '&' ∉ needle) {query : List Byte}
    (hstarts : (needle ++ [chr '=']).isPrefixOf query = true) :
    lookup needle query =
      ((query.drop (needle.length + 1)).takeWhile (· ≠ chr '&'), true) := by
  obtain ⟨value, hvalue⟩ := List.isPrefixOf_iff_prefix.1 hstarts
  have hlen : (needle ++ [chr '=']).length = needle.length + 1 := by
    rw [List.length_append, List.length_singleton]
  have hkey : chr '&' ∉ needle ++ [chr '='] := by
    rw [List.mem_append, not_or]
    exact ⟨hneedle, by decide⟩
  obtain ⟨v, hv, hquery⟩ := exists_component value
  have hfirst : chr '&' ∉ needle ++ [chr '='] ++ v := by
    rw [List.mem_append, not_or]
    exact ⟨hkey, hv⟩
  have hparameter : parameter needle (needle ++ [chr '='] ++ v) = some v := by
    rw [← eq_append_cons_iff, List.append_assoc, List.singleton_append]
  have htake : ∀ tail, (∀ c ∈ tail.head?, c = chr '&') →
      (v ++ tail).takeWhile (· ≠ chr '&') = v := by
    intro tail htail
    rw [List.takeWhile_append_of_pos]
    · cases tail with
      | nil => rw [List.takeWhile_nil, List.append_nil]
      | cons c tail =>
        obtain rfl : c = chr '&' := htail c rfl
        rw [List.takeWhile_cons, if_neg (by decide), List.append_nil]
    · intro c hc
      refine decide_eq_true ?_
      rintro rfl
      exact hv hc
  rw [← hvalue, List.drop_left' hlen]
  -- the component ends the query, or an `&` follows
  rcases hquery with rfl | ⟨rest, rfl⟩
  · rw [lookup_component hfirst, hparameter, ← List.append_nil value,
      htake [] (by simp), List.append_nil]
    rfl
  · rw [← List.append_assoc, lookup_append hfirst, hparameter, htake _ (by simp)]
    rfl

/-- No parameter is skipped: the first component is not the one, and what is behind the skip is the
rest of the query, or too short for another one. -/
theorem exists_skipToNext (hstarts : ¬(needle ++ [chr '=']).isPrefixOf (text.drop h) = true) :
    ∃ h', skipToNext text needle.length h = some h' ∧
      lookup needle (text.drop (h' + 1)) = lookup needle (text.drop h) := by
  obtain ⟨first, hfirst, hquery⟩ := exists_component (text.drop h)
  have hnone : parameter needle first = none := by
    refine if_neg fun hfirststarts => hstarts ?_
    rw [List.isPrefixOf_iff_prefix] at hfirststarts ⊢
    rcases hquery with hquery | ⟨rest, hquery⟩
    · rwa [hquery]
    · rw [hquery]
      exact hfirststarts.trans (List.prefix_append ..)
  -- too little is left behind a skip that ends early
  have hshort : ∀ h', text.length ≤ h' + needle.length →
      lookup needle (text.drop (h' + 1)) = ([], false) := by
    intro h' hend
    apply lookup_of_length_le
    rw [List.length_drop]
    omega
  rcases hquery with hquery | ⟨rest, hquery⟩
  · have hskips : ∃ h', skipToNext text needle.length h = some h' ∧ h' ≤ h + first.length ∧
        (text.length ≤ h' + needle.length ∨ h' = h + first.length ∧ ([] : List Byte) ≠ []) :=
      skipToNext_spec (hquery.trans (List.append_nil _).symm) hfirst (by simp)
    obtain ⟨h', hskip, _, hend⟩ := hskips
    refine ⟨h', hskip, ?_⟩
    rcases hend with hend | hend
    · rw [hshort h' hend, hquery, lookup_component hfirst, hnone]
      rfl
    · exact absurd rfl hend.2
  · have hskips : ∃ h', skipToNext text needle.length h = some h' ∧ h' ≤ h + first.length ∧
        (text.length ≤ h' + needle.length ∨ h' = h + first.length ∧ chr '&' :: rest ≠ []) :=
      skipToNext_spec hquery hfirst (by simp)
    obtain ⟨h', hskip, hle, hend⟩ := hskips
    refine ⟨h', hskip, ?_⟩
    rw [hquery, lookup_append hfirst, hnone, Option.elim_none]
    have hlen := congrArg List.length hquery
    rw [List.length_drop, List.length_append, List.length_cons] at hlen
    rcases hend with hend | ⟨rfl, _⟩
    · rw [hshort h' hend, lookup_of_length_le]
      omega
    · congr 1
      rw [Nat.add_assoc, ← List.drop_drop, hquery, List.drop_append, Nat.add_sub_cancel_left,
        List.drop_of_length_le (Nat.le_succ _), List.nil_append, List.drop_one, List.tail_cons]

/-- The loop finds what is to be found in the rest of the query. -/
theorem findFrom_eq (hneedle : chr '&' ∉ needle) (text : List Byte) (h : ℕ) :
    findFrom text needle h = some (lookup needle (text.drop h)) := by
  induction hn : text.length - h using Nat.strong_induction_on generalizing h with
  | _ n ih =>
    rw [findFrom]
    by_cases hlt : h + needle.length < text.length
    · rw [if_pos hlt, matchesAt_eq hlt]
      by_cases hstarts : (needle ++ [chr '=']).isPrefixOf (text.drop h) = true
      · rw [hstarts, lookup_of_isPrefixOf hneedle hstarts, List.drop_drop, ← Nat.add_assoc]
        dsimp only
        rw [matchLen_eq, Nat.zero_add, Option.bind_eq_bind, Option.bind_some, Bytes.slice,
          ← List.prefix_iff_eq_take.1 (List.takeWhile_prefix _)]
      · rw [Bool.eq_false_iff.2 hstarts]
        dsimp only
        obtain ⟨h', hskip, hlookup⟩ := exists_skipToNext hstarts
        have hle := le_of_skipToNext hskip
        split
        next hnone => exact absurd (hskip.symm.trans hnone) (Option.some_ne_none h')
        next h'' hskip' =>
          obtain rfl : h' = h'' := Option.some.inj (hskip.symm.trans hskip')
          rw [ih (text.length - (h' + 1)) (by omega) (h' + 1) rfl, hlookup]
    · have hshort : (text.drop h).length ≤ needle.length := by
        rw [List.length_drop]
        omega
      rw [if_neg hlt, lookup_of_length_le hshort]

end Loops

theorem firstParameter_iff {key query v : List Byte} :
    FirstParameter key query v ↔ lookup key query = (v, true) := by
  have hfind : lookup key query = (v, true) ↔
      (query.splitOn (chr '&')).findSome? (parameter key) = some v := by
    unfold lookup
    cases (query.splitOn (chr '&')).findSome? (parameter key) with
    | none => simp
    | some w => simp
  rw [hfind, List.findSome?_eq_some_iff]
  constructor
  · rintro ⟨before, after, hsplit, hbefore⟩
    refine ⟨before, key ++ chr '=' :: v, after, hsplit, eq_append_cons_iff.1 rfl, ?_⟩
    intro component hmem
    rw [Option.eq_none_iff_forall_ne_some]
    exact fun v' hv' => hbefore component hmem v' (eq_append_cons_iff.2 hv')
  · rintro ⟨before, component, after, hsplit, hv, hbefore⟩
    obtain rfl := eq_append_cons_iff.2 hv
    refine ⟨before, after, hsplit, fun component hmem v' heq => ?_⟩
    have hnone := hbefore component hmem
    rw [eq_append_cons_iff.1 heq] at hnone
    exact nomatch hnone

/-- **The lookup of a parameter**: for every query and every key without `&`, `find_query_part` ends
without a read outside of both. It returns a value iff this is the value of the first component of the
key, and nothing if there is no such component. -/
theorem findQueryPart_eq (query key : List Byte) (hkey : chr '&' ∉ key) :
    ∃ result, findQueryPart query key = some result ∧
      (∀ v, result = (v, true) ↔ FirstParameter key query v) ∧
      ((∀ v, ¬FirstParameter key query v) → result = ([], false)) := by
  refine ⟨lookup key query, findFrom_eq hkey query 0, fun v => firstParameter_iff.symm, ?_⟩
  intro hnone
  unfold lookup
  cases hfind : (query.splitOn (chr '&')).findSome? (parameter key) with
  | none => rfl
  | some v =>
    refine absurd (firstParameter_iff.2 ?_) (hnone v)
    rw [lookup, hfind]
    rfl

/-- `a=1&bc=2&b=3&b=4`, the key `b`. -/
theorem findQueryPart_eq_b :
    ∃ result, findQueryPart ("a=1&bc=2&b=3&b=4".toList.map chr) ("b".toList.map chr) = some result ∧
      (∀ v, result = (v, true) ↔ FirstParameter ("b".toList.map chr)
        ("a=1&bc=2&b=3&b=4".toList.map chr) v) ∧
      ((∀ v, ¬FirstParameter ("b".toList.map chr) ("a=1&bc=2&b=3&b=4".toList.map chr) v) →
        result = ([], false)) :=
  findQueryPart_eq _ _ (by decide)

/-! ### The query of a row -/

/-- The limit of the query in `validate_uri`, by the key of the row: the query, or none if the URI is
invalid. -/
def limitQuery (query : List Byte) (queryMatch : Option (List (Option (List Byte)))) (rowIdx : ℕ) :
    Option (Option (List Byte)) :=
  match queryMatch with
  | none => some (some query)
  | some keys =>
    if keys.length > 0 then
      match keys[rowIdx % keys.length]? with
      | some (some inMatch) => do
        let (query, valid) ← findQueryPart query inMatch
        some (if valid then some query else none)
      -- the key is null
      | _ => some none
    else some (some query)

/-- With a column of keys, the query of a row is the value of the first component of the key of the
row, and the URI is invalid if there is none. -/
theorem limitQuery_eq {query key : List Byte} {keys : List (Option (List Byte))} {rowIdx : ℕ}
    (hkey : keys[rowIdx % keys.length]? = some (some key)) (hamp : chr '&' ∉ key) :
    ∃ limited, limitQuery query (some keys) rowIdx = some limited ∧
      ∀ v, limited = some v ↔ FirstParameter key query v := by
  have hpos : keys.length > 0 := by
    apply Nat.pos_of_ne_zero
    intro hzero
    rw [List.length_eq_zero_iff.1 hzero] at hkey
    exact nomatch hkey
  have hfind : findQueryPart query key = some (lookup key query) := findFrom_eq hamp query 0
  refine ⟨if (lookup key query).2 then some (lookup key query).1 else none, ?_, fun v => ?_⟩
  · unfold limitQuery
    dsimp only
    rw [if_pos hpos, hkey]
    dsimp only
    rw [hfind]
    rfl
  · rw [firstParameter_iff, Prod.ext_iff]
    cases (lookup key query).2 <;> simp

/-- The keys `a` and `b`, and the query `b=2&a=1&b=3` of the row 3. -/
theorem limitQuery_eq_secondKey : ∃ limited,
    limitQuery [98, 61, 50, 38, 97, 61, 49, 38, 98, 61, 51] (some [some [97], some [98]]) 3 = some limited ∧
      ∀ v, limited = some v ↔ FirstParameter [98] [98, 61, 50, 38, 97, 61, 49, 38, 98, 61, 51] v :=
  limitQuery_eq rfl (by decide)

end SparkRapids.ParseUri
