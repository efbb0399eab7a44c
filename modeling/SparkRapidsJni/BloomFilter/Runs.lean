import SparkRapidsJni.BloomFilter.Insert

/-!
# Filters that are probed and merged

`Built` are the filters that any sequence of `bloom_filter_create`, `bloom_filter_put` and
`bloom_filter_merge` leaves behind, with the values that were inserted. Each of the three keeps the
layout (`layout_create`, `layout_put`, `exists_merge`), so that the bytes only depend on the set of the
values (`bloomFilter_layout`).
-/

namespace SparkRapids.BloomFilter

open Bytes Checks

variable {hashes numLongs : BitVec 32} {S : Set (BitVec 64)} {filter filter' : List Byte}
  {garbage : Nat → Byte}

/-! ### Probing -/

theorem readWord_eq {memory : List Byte} {address : Nat} (h : address + 4 ≤ memory.length) :
    readWord memory address = .ok (word memory address) :=
  if_pos h

/-- The loop tests the bits of the hashes, up to one that is not set. -/
theorem probeLoop_eq (hlen : filter.length = 12 + 8 * numLongs.toNat)
    (hvalid : ValidLongs numLongs) (x : BitVec 64) (indices : List Nat) :
    probeLoop filter (numLongs * 64) x indices =
      .ok (indices.all fun k => bit filter (96 + bitPlace (bitIndex numLongs x k))) := by
  induction indices with
  | nil => rfl
  | cons k indices ih =>
    have hread := readWord_eq (wordAddress_le hlen (bitIndex_lt hvalid x k))
    have htest := @word_and_mask filter (bitIndex numLongs x k)
    unfold probeLoop
    dsimp only
    rw [getHashMask_eq hvalid, hread]
    show (if _ then pure false else _) = _
    rw [List.all_cons]
    split_ifs with hzero
    · rw [htest.1 hzero]
      rfl
    · rw [Bool.eq_true_of_not_eq_false (mt htest.2 hzero), ih]
      rfl

/-- A filter that was put into is probed without false negatives. -/
theorem Layout.probe (h : Layout hashes numLongs S filter) (hvalid : ValidLongs numLongs)
    (input : List Row) : ∃ results, bloomFilterProbe input filter = .ok results ∧
      List.Forall₂ (fun row result => row.data ∈ S → result = true) input results := by
  refine ⟨input.map fun row => (hashIndices hashes).all fun k =>
    bit filter (96 + bitPlace (bitIndex numLongs row.data k)), ?_, ?_⟩
  · unfold bloomFilterProbe
    rw [h.unpack hvalid]
    refine expects_bind_eq_ok_iff.2 ⟨decide_eq_true h.expects_size, ?_⟩
    simp only [probeLoop_eq h.length hvalid]
    exact List.mapM_pure
  · rw [List.forall₂_map_right_iff, List.forall₂_same]
    intro row _ hrow
    refine List.all_eq_true.2 fun k hk => (h.bit_iff (bitIndex_lt hvalid _ k)).2 ?_
    obtain ⟨hpos, hle⟩ := mem_hashIndices.1 hk
    exact ⟨row.data, hrow, k, hpos, hle, rfl⟩

/-! ### Merging -/

section Merging

variable {buffers : List (List Byte)} {size : Nat}

variable (hsize : ∀ b ∈ buffers, b.length = size)
include hsize

/-- A word of one of the buffers. -/
theorem word_flatten {b : List Byte} {k o : Nat} (hk : buffers[k]? = some b) (ho : o + 4 ≤ size) :
    word buffers.flatten (size * k + o) = word b o := by
  refine word_congr fun i hi => ?_
  rw [← slice_flatten hsize hk, getD_slice, if_pos (by omega), Nat.add_assoc]

/-- The accesses to a word of one of the buffers. -/
theorem readWord_flatten {b : List Byte} {k o : Nat} (hk : buffers[k]? = some b) (ho : o + 4 ≤ size) :
    readWord buffers.flatten (size * k + o) = .ok (word b o) := by
  rw [readWord_eq, word_flatten hsize hk ho]
  have hlt : k < buffers.length := (List.getElem?_eq_some_iff.1 hk).1
  have hle : size * (k + 1) ≤ size * buffers.length := Nat.mul_le_mul_left size hlt
  rw [length_flatten_of_size hsize]
  rw [Nat.mul_succ] at hle
  omega

/-- The loop over the buffers behind the first one. -/
theorem foldlM_readWord {w : Nat} (hw : wordAddress w + 4 ≤ size) {indices : List Nat}
    (hindices : ∀ k ∈ indices, k < buffers.length) (out : BitVec 32) :
    ∃ out', indices.foldlM (fun out idx => do
        let bits ← readWord buffers.flatten (bloomFilterHeaderSize + idx * size + 4 * w)
        return out ||| bits) out = Except.ok out' ∧
      ∀ j < 32, out'.getLsbD j = true ↔ out.getLsbD j = true ∨
        ∃ k ∈ indices, ∃ b, buffers[k]? = some b ∧ bit b (8 * wordAddress w + j) = true := by
  induction indices generalizing out with
  | nil => exact ⟨out, rfl, fun j _ => ⟨Or.inl, fun h => h.resolve_right (by simp)⟩⟩
  | cons k indices ih =>
    have hlt := hindices k (List.mem_cons_self ..)
    have hk := List.getElem?_eq_getElem hlt
    have haddress : bloomFilterHeaderSize + k * size + 4 * w = size * k + wordAddress w := by
      rw [Nat.mul_comm k, wordAddress]
      omega
    obtain ⟨out', hfold, hout'⟩ := ih (fun k hk => hindices k (List.mem_cons_of_mem _ hk))
      (out ||| word buffers[k] (wordAddress w))
    refine ⟨out', ?_, fun j hj => ?_⟩
    · rw [List.foldlM_cons, haddress, readWord_flatten hsize hk hw]
      exact hfold
    · rw [hout' j hj, BitVec.getLsbD_or, Bool.or_eq_true, getLsbD_word hj, or_assoc]
      refine or_congr_right ?_
      rw [List.exists_mem_cons_iff]
      refine or_congr_left ⟨fun h => ⟨_, hk, h⟩, ?_⟩
      rintro ⟨b, hb, h⟩
      obtain rfl := Option.some.inj (hk.symm.trans hb)
      exact h

/-- A word of the merged filter has the bits that are set in one of the buffers. -/
theorem exists_mergeWord {w : Nat} (hw : wordAddress w + 4 ≤ size) (hne : buffers ≠ []) :
    ∃ v, mergeWord buffers.flatten buffers.length size w = .ok v ∧
      ∀ j < 32, v.getLsbD j = true ↔ ∃ b ∈ buffers, bit b (8 * wordAddress w + j) = true := by
  have hpos : 0 < buffers.length := List.length_pos_of_ne_nil hne
  have hfirst := List.getElem?_eq_getElem hpos
  have hread := readWord_flatten hsize hfirst hw
  rw [Nat.mul_zero, Nat.zero_add] at hread
  have hindices : ∀ k ∈ List.range' 1 (buffers.length - 1), k < buffers.length := by
    intro k hk
    rw [List.mem_range'_1] at hk
    omega
  obtain ⟨v, hfold, hv⟩ :=
    foldlM_readWord hsize hw hindices (word buffers[0] (wordAddress w))
  refine ⟨v, ?_, fun j hj => ?_⟩
  · unfold mergeWord
    rw [hread]
    exact hfold
  rw [hv j hj, getLsbD_word hj]
  constructor
  · rintro (h | ⟨k, -, b, hb, h⟩)
    · exact ⟨_, List.getElem_mem hpos, h⟩
    · exact ⟨b, List.mem_of_getElem? hb, h⟩
  · rintro ⟨b, hb, h⟩
    obtain ⟨k, hk⟩ := List.getElem?_of_mem hb
    have hlt : k < buffers.length := (List.getElem?_eq_some_iff.1 hk).1
    -- the first buffer or one of the loop
    by_cases hzero : k = 0
    · subst hzero
      obtain rfl := Option.some.inj (hfirst.symm.trans hk)
      exact Or.inl h
    · exact Or.inr ⟨k, List.mem_range'_1.2 (by omega), b, hk, h⟩

end Merging

/-- A loop that never fails has the results of its steps. -/
theorem exists_mapM {α β ε : Type} {f : α → Except ε β} {P : α → β → Prop} {l : List α}
    (h : ∀ a ∈ l, ∃ b, f a = .ok b ∧ P a b) :
    ∃ bs, l.mapM f = .ok bs ∧ List.Forall₂ P l bs := by
  induction l with
  | nil => exact ⟨[], rfl, .nil⟩
  | cons a l ih =>
    obtain ⟨b, hb, hP⟩ := h a (List.mem_cons_self ..)
    obtain ⟨bs, hbs, hall⟩ := ih fun a ha => h a (List.mem_cons_of_mem _ ha)
    refine ⟨b :: bs, ?_, .cons hP hall⟩
    rw [List.mapM_cons, hb, hbs]
    rfl

theorem sets_iUnion {α : Type} {fs : List α} {T : α → Set (BitVec 64)} {i : Nat} :
    Sets hashes numLongs (⋃ f ∈ fs, T f) i ↔ ∃ f ∈ fs, Sets hashes numLongs (T f) i := by
  constructor
  · rintro ⟨x, hx, h⟩
    simp only [Set.mem_iUnion] at hx
    obtain ⟨f, hf, hx⟩ := hx
    exact ⟨f, hf, x, hx, h⟩
  · rintro ⟨f, hf, x, hx, h⟩
    exact ⟨x, Set.mem_biUnion hf hx, h⟩

theorem ValidLongs.toNat_words (h : ValidLongs numLongs) :
    (numLongs * 2).toNat = 2 * numLongs.toNat := by
  have hmul : (numLongs * 2).toNat = numLongs.toNat * 2 % 2 ^ 32 := BitVec.toNat_mul ..
  obtain ⟨-, hlt⟩ := h
  omega

/-- A header and words that have the bits of all filters. -/
theorem layout_words {filters : List (Set (BitVec 64) × List Byte)} {words : List (BitVec 32)}
    (h : ∀ f ∈ filters, Layout hashes numLongs f.1 f.2)
    (hwords : List.Forall₂ (fun w v => ∀ j < 32, v.getLsbD j = true ↔
        ∃ b ∈ filters.map Prod.snd, bit b (8 * wordAddress w + j) = true)
      (List.range (2 * numLongs.toNat)) words) :
    Layout hashes numLongs (⋃ f ∈ filters, f.1)
      (headerBytes (byteSwapHeader ⟨1, hashes, numLongs⟩) ++ wordsBytes words) := by
  have hlen : words.length = 2 * numLongs.toNat := by
    rw [← hwords.length_eq, List.length_range]
  apply layout_append
  · rw [length_wordsBytes, hlen]
    omega
  intro i hi
  have hplace := bitPlace_lt hi
  have hlt : bitPlace i / 32 < words.length := by omega
  have hword := (List.forall₂_iff_get.1 hwords).2 (bitPlace i / 32)
    (by rw [List.length_range]; omega) hlt (bitPlace i % 32) (Nat.mod_lt _ (by decide))
  rw [List.get_eq_getElem, List.get_eq_getElem, List.getElem_range] at hword
  have haddress : 8 * wordAddress (bitPlace i / 32) + bitPlace i % 32 = 96 + bitPlace i := by
    unfold wordAddress bloomFilterHeaderSize
    omega
  rw [bit_wordsBytes words (by omega), List.getD_eq_getElem _ _ hlt, hword, haddress, sets_iUnion]
  constructor
  · rintro ⟨b, hb, hbit⟩
    obtain ⟨f, hf, rfl⟩ := List.mem_map.1 hb
    exact ⟨f, hf, ((h f hf).bit_iff hi).1 hbit⟩
  · rintro ⟨f, hf, hset⟩
    exact ⟨f.2, List.mem_map_of_mem hf, ((h f hf).bit_iff hi).2 hset⟩

/-- The merged filter has the layout of all values. -/
theorem exists_merge {filters : List (Set (BitVec 64) × List Byte)} (hne : filters ≠ [])
    (hvalid : ValidLongs numLongs) (h : ∀ f ∈ filters, Layout hashes numLongs f.1 f.2)
    (garbage : Nat → Byte) : ∃ filter',
      bloomFilterMerge garbage (filters.map Prod.snd).flatten filters.length = .ok filter' ∧
        Layout hashes numLongs (⋃ f ∈ filters, f.1) filter' := by
  have hnonempty : filters.map Prod.snd ≠ [] := mt List.map_eq_nil_iff.1 hne
  have hsize : ∀ b ∈ filters.map Prod.snd, b.length = 12 + 8 * numLongs.toNat := by
    intro b hb
    obtain ⟨f, hf, rfl⟩ := List.mem_map.1 hb
    exact (h f hf).length
  have hcount : (filters.map Prod.snd).length = filters.length := List.length_map _
  have hlen := length_flatten_of_size hsize
  have hheaders : ∀ k < filters.length,
      slice (filters.map Prod.snd).flatten ((12 + 8 * numLongs.toNat) * k) 12 =
        wordBytesBE 1 ++ wordBytesBE hashes ++ wordBytesBE numLongs := by
    intro k hk
    have hget : (filters.map Prod.snd)[k]? = some filters[k].2 := by simp [hk]
    have hslice := slice_flatten hsize hget
    rw [← (h _ (List.getElem_mem hk)).header, ← hslice, slice, slice, List.take_take,
      min_eq_left (by omega)]
  have hpos : 0 < filters.length := List.length_pos_of_ne_nil hne
  have hle : (12 + 8 * numLongs.toNat) * 1 ≤ (12 + 8 * numLongs.toNat) * filters.length :=
    Nat.mul_le_mul_left _ hpos
  -- the header of the first filter
  have hunpack := (@unpackBloomFilter_eq hashes numLongs (filters.map Prod.snd).flatten 1
    (by rw [hlen, hcount]; omega) (by simpa [slice] using hheaders 0 hpos) _).2 ⟨rfl, hvalid, rfl⟩
  obtain ⟨words, hmap, hwords⟩ := exists_mapM (l := List.range (2 * numLongs.toNat))
    (fun w hw => exists_mergeWord hsize (w := w) (by
      rw [List.mem_range] at hw
      unfold wordAddress bloomFilterHeaderSize
      omega) hnonempty)
  refine ⟨_, ?_, layout_words h hwords⟩
  unfold bloomFilterMerge
  rw [hunpack]
  refine expects_bind_eq_ok_iff.2 ⟨decide_eq_true ?_, expects_bind_eq_ok_iff.2 ⟨?_, ?_⟩⟩
  · rw [hlen, hcount]
    congr 1
    dsimp only [bloomFilterHeaderSize]
    omega
  · refine List.all_eq_true.2 fun k hk => decide_eq_true (headerAt_eq ?_)
    rw [List.mem_range'_1] at hk
    rw [headerBytes_byteSwapHeader, hvalid.stride.2]
    exact hheaders k (by omega)
  · rw [hcount] at hmap
    dsimp only
    rw [hvalid.stride.2, hvalid.toNat_words, hmap]
    refine congrArg Except.ok (overwrite_header (length_headerBytes _) ?_)
    rw [length_deviceBuffer, length_wordsBytes, ← hwords.length_eq, List.length_range]
    omega

/-! ### Runs -/

/-- The filters that runs of the three calls leave behind, with the values that were inserted. -/
inductive Built (numHashes numLongs : BitVec 32) : Set (BitVec 64) → List Byte → Prop
  | create {garbage : Nat → Byte} {filter : List Byte} {unpacked : Unpacked} :
      bloomFilterCreate garbage numHashes numLongs = .ok filter →
      unpackBloomFilter filter = .ok unpacked → Built numHashes numLongs ∅ filter
  | put {S : Set (BitVec 64)} {filter filter' : List Byte} {input : List Row} :
      Built numHashes numLongs S filter → BloomFilterPut filter input filter' →
      Built numHashes numLongs (S ∪ inserted input) filter'
  | merge {garbage : Nat → Byte} {filters : List (Set (BitVec 64) × List Byte)}
      {filter' : List Byte} :
      (∀ f ∈ filters, Built numHashes numLongs f.1 f.2) →
      bloomFilterMerge garbage (filters.map Prod.snd).flatten filters.length = .ok filter' →
      Built numHashes numLongs (⋃ f ∈ filters, f.1) filter'

theorem bloomFilterMerge_nil (garbage : Nat → Byte) : bloomFilterMerge garbage [] 0 =
    .error (.expects "Encountered truncated bloom filter") :=
  rfl

/-- Every call of a run keeps the layout. -/
theorem Built.layout (h : Built hashes numLongs S filter) :
    ValidLongs numLongs ∧ Layout hashes numLongs S filter := by
  induction h with
  | create hcreate hunpack => exact layout_create hcreate hunpack
  | put _ hput ih => exact ⟨ih.1, layout_put ih.2 ih.1 hput⟩
  | @merge garbage filters filter' _ hmerge ih =>
    have hne : filters ≠ [] := by
      rintro rfl
      exact nomatch (bloomFilterMerge_nil garbage).symm.trans hmerge
    obtain ⟨f, hf⟩ := List.exists_mem_of_ne_nil filters hne
    have hvalid := (ih f hf).1
    obtain ⟨filter'', hmerge', hlayout⟩ :=
      exists_merge hne hvalid (fun f hf => (ih f hf).2) garbage
    obtain rfl := Except.ok.inj (hmerge.symm.trans hmerge')
    exact ⟨hvalid, hlayout⟩

/-- The kernel of `bloom_filter_put` only accesses words of the buffer. -/
theorem PutReaches.wordAddress_le (h : Layout hashes numLongs S filter)
    (hvalid : ValidLongs numLongs) {input : List Row} {s : Threads (List Byte) (Nat × BitVec 32)}
    (hs : PutReaches filter input s) {i : Nat} {op : Nat × BitVec 32} {ops : List (Nat × BitVec 32)}
    (hop : s.pending[i]? = some (op :: ops)) : wordAddress op.1 + 4 ≤ s.memory.length := by
  obtain ⟨applied, hperm, hlen, -⟩ := exists_applied h hvalid hs
  have hmem : op ∈ s.pending.flatten :=
    List.mem_flatten.2 ⟨_, List.mem_of_getElem? hop, List.mem_cons_self ..⟩
  obtain ⟨j, hj, rfl⟩ := (mem_ops hvalid).1 (hperm.subset (List.mem_append_right _ hmem))
  exact BloomFilter.wordAddress_le (hlen.trans h.length) (hj.lt hvalid)

/-- A column can be put into a filter. -/
theorem Layout.exists_put (h : Layout hashes numLongs S filter) (hvalid : ValidLongs numLongs)
    (input : List Row) : ∃ filter', BloomFilterPut filter input filter' := by
  have hlaunch := h.launchPut hvalid input
  obtain ⟨s, hs, hdone⟩ := @Threads.exists_done _ _ atomicOr _ _ (fun s hs i op ops hop =>
    ⟨_, if_pos (PutReaches.wordAddress_le h hvalid ⟨_, hlaunch, hs⟩ hop)⟩)
    (Lts.Reachable.init rfl)
  exact ⟨s.memory, s, ⟨_, hlaunch, hs⟩, hdone, rfl⟩

/-- The bytes of a filter are those of the layout for its values, whatever the run was. Probes find
every inserted value. No access is outside of a buffer: the atomic operations are in it, and the probes
and the merges of such filters succeed. -/
theorem bloomFilter_layout (h : Built hashes numLongs S filter) :
    Layout hashes numLongs S filter ∧
      (∀ filter', Built hashes numLongs S filter' → filter' = filter) ∧
      (∀ input, ∃ results, bloomFilterProbe input filter = .ok results ∧
        List.Forall₂ (fun row result => row.data ∈ S → result = true) input results) ∧
      (∀ input, ∃ filter', BloomFilterPut filter input filter') ∧
      (∀ input s, PutReaches filter input s → ∀ (i : Nat) op ops,
        s.pending[i]? = some (op :: ops) → wordAddress op.1 + 4 ≤ s.memory.length) ∧
      ∀ filters : List (Set (BitVec 64) × List Byte), filters ≠ [] →
        (∀ f ∈ filters, Built hashes numLongs f.1 f.2) → ∀ garbage, ∃ filter',
          bloomFilterMerge garbage (filters.map Prod.snd).flatten filters.length = .ok filter' := by
  obtain ⟨hvalid, hlayout⟩ := h.layout
  refine ⟨hlayout, fun filter' h' => h'.layout.2.unique hlayout, hlayout.probe hvalid,
    hlayout.exists_put hvalid,
    fun input s hs i op ops hop => PutReaches.wordAddress_le hlayout hvalid hs hop, ?_⟩
  intro filters hne hfilters garbage
  obtain ⟨filter', hmerge, -⟩ := exists_merge hne hvalid (fun f hf => (hfilters f hf).layout.2) garbage
  exact ⟨filter', hmerge⟩

/-- A value and a null are put into a filter of 3 hashes and one long, on memory that is not clear. -/
theorem bloomFilter_layout_put : ∃ filter,
    BloomFilterPut ([0, 0, 0, 1, 0, 0, 0, 3, 0, 0, 0, 1] ++ List.replicate 8 0)
      [⟨true, 42⟩, ⟨false, 7⟩] filter ∧
    Layout 3 1 (∅ ∪ inserted [⟨true, 42⟩, ⟨false, 7⟩]) filter := by
  have hcreated : Built 3 1 ∅ ([0, 0, 0, 1, 0, 0, 0, 3, 0, 0, 0, 1] ++ List.replicate 8 0) :=
    @Built.create _ _ (fun _ => 0xcd) _ _ rfl rfl
  obtain ⟨filter, hput⟩ := (bloomFilter_layout hcreated).2.2.2.1 [⟨true, 42⟩, ⟨false, 7⟩]
  exact ⟨filter, hput, (bloomFilter_layout (hcreated.put hput)).1⟩

end SparkRapids.BloomFilter
