import Mathlib.Data.List.Nodup
import Mathlib.Data.List.Pairwise
import Mathlib.Data.List.Forall2
import FactCore.Lib.Loop

/-! # Key blocks

`AnalysisPlugin.get_offset_pairs` of `plugins/analysis/crypto_material/code/crypto_material.py`
with the three predicates on consecutive matches that it tries at every index.

`Block` says what a block is, without indices that are looked up; the scan is the
list of all blocks.
-/

namespace FactCore.CryptoMaterial

/-- `Match`. -/
structure Match where
  offset : Nat
  label : String
  matchedString : String
deriving DecidableEq, Repr

/-- What a list raises on an index that is out of range. -/
inductive IndexError where
  | listIndexOutOfRange
deriving DecidableEq, Repr

/-! ## The source's functions -/

/-- `matches[index]`. -/
def item (found : List Match) (index : Nat) : Except IndexError Match :=
  match found[index]? with
  | some m => .ok m
  | none => .error .listIndexOutOfRange

/-- `matches[index].label == label`. -/
def labelIs (found : List Match) (index : Nat) (label : String) : Except IndexError Bool := do
  return decide ((← item found index).label = label)

/-- `_is_consecutive_key_block`. -/
def isConsecutiveKeyBlock (found : List Match) (index : Nat) : Except IndexError Bool :=
  labelIs found index "$start_string" <&&> labelIs found (index + 1) "$end_string"

/-- `_is_consecutive_pgp_block`. -/
def isConsecutivePgpBlock (found : List Match) (index : Nat) : Except IndexError Bool :=
  labelIs found index "$start_string"
    <&&> labelIs found (index + 1) "$gnupg_version_string"
    <&&> pure (decide (index + 2 < found.length))
    <&&> labelIs found (index + 2) "$end_string"

/-- `_is_consecutive_encrypted_key`. -/
def isConsecutiveEncryptedKey (found : List Match) (index : Nat) : Except IndexError Bool :=
  pure (decide (index + 3 < found.length))
    <&&> labelIs found index "$start_string"
    <&&> labelIs found (index + 1) "$proc_type"
    <&&> labelIs found (index + 2) "$dek_info"
    <&&> labelIs found (index + 3) "$end_string"

/-- `_calculate_end_index`. -/
def calculateEndIndex (m : Match) : Nat := m.offset + m.matchedString.length

/-- `(matches[first].offset, _calculate_end_index(matches[last]))`. -/
def offsetPair (found : List Match) (first last : Nat) : Except IndexError (Nat × Nat) := do
  return ((← item found first).offset, calculateEndIndex (← item found last))

/-- The body of the loop of `get_offset_pairs`. -/
def addOffsetPair (found : List Match) (pairs : List (Nat × Nat)) (index : Nat) :
    Except IndexError (List (Nat × Nat)) := do
  if ← isConsecutiveKeyBlock found index then
    return pairs ++ [← offsetPair found index (index + 1)]
  else if ← isConsecutivePgpBlock found index then
    return pairs ++ [← offsetPair found index (index + 2)]
  else if ← isConsecutiveEncryptedKey found index then
    return pairs ++ [← offsetPair found index (index + 3)]
  else
    return pairs

/-- `get_offset_pairs`. -/
def getOffsetPairs (found : List Match) : Except IndexError (List (Nat × Nat)) :=
  (List.range (found.length - 1)).foldlM (addOffsetPair found) []

/-! ## Blocks -/

/-- There is a match at the index, and this is its label. -/
def HasLabel (found : List Match) (index : Nat) (label : String) : Prop :=
  found[index]?.map Match.label = some label
deriving Decidable

/-- A block of directly consecutive matches, by its first and its last index. -/
inductive Block (found : List Match) : Nat → Nat → Prop
  | key {i : Nat} : HasLabel found i "$start_string" → HasLabel found (i + 1) "$end_string" →
      Block found i (i + 1)
  | pgp {i : Nat} : HasLabel found i "$start_string" →
      HasLabel found (i + 1) "$gnupg_version_string" → HasLabel found (i + 2) "$end_string" →
      Block found i (i + 2)
  | encrypted {i : Nat} : HasLabel found i "$start_string" → HasLabel found (i + 1) "$proc_type" →
      HasLabel found (i + 2) "$dek_info" → HasLabel found (i + 3) "$end_string" →
      Block found i (i + 3)

variable {found : List Match} {i j k : Nat} {label label' : String}

theorem HasLabel.lt_length (h : HasLabel found i label) : i < found.length := by
  apply Decidable.byContradiction
  intro hlt
  have hnone : found[i]? = none := List.getElem?_eq_none (by omega)
  rw [HasLabel, hnone] at h
  cases h

/-- A match has one label. -/
theorem HasLabel.unique (h : HasLabel found i label) (h' : HasLabel found i label') :
    label = label' :=
  Option.some.inj (h.symm.trans h')

theorem Block.start (h : Block found i j) : HasLabel found i "$start_string" := by
  cases h <;> assumption

theorem Block.stop (h : Block found i j) : HasLabel found j "$end_string" := by
  cases h <;> assumption

theorem Block.lt (h : Block found i j) : i < j := by
  cases h <;> omega

/-- Behind the first match of a block there is no start up to its end. -/
theorem Block.not_start (h : Block found i j) (hik : i < k) (hkj : k ≤ j) :
    ¬ HasLabel found k "$start_string" := by
  intro hk
  -- `k` is one of the at most three indices behind `i`, and each has another label
  cases h with
  | key _ h1 =>
      obtain rfl : k = i + 1 := by omega
      exact absurd (hk.unique h1) (by decide)
  | pgp _ h1 h2 =>
      rcases (by omega : k = i + 1 ∨ k = i + 2) with rfl | rfl
      · exact absurd (hk.unique h1) (by decide)
      · exact absurd (hk.unique h2) (by decide)
  | encrypted _ h1 h2 h3 =>
      rcases (by omega : k = i + 1 ∨ k = i + 2 ∨ k = i + 3) with rfl | rfl | rfl
      · exact absurd (hk.unique h1) (by decide)
      · exact absurd (hk.unique h2) (by decide)
      · exact absurd (hk.unique h3) (by decide)

/-- Of two blocks the one that starts first also ends before the other starts. -/
theorem Block.lt_of_lt {i' j' : Nat} (h : Block found i j) (h' : Block found i' j') (hlt : i < i') :
    j < i' := by
  apply Decidable.byContradiction
  intro hle
  exact h.not_start hlt (by omega) h'.start

/-- The last index of the block that starts at an index, in the order of the branches. -/
def blockEnd? (found : List Match) (i : Nat) : Option Nat :=
  if HasLabel found i "$start_string" ∧ HasLabel found (i + 1) "$end_string" then some (i + 1)
  else if HasLabel found i "$start_string" ∧ HasLabel found (i + 1) "$gnupg_version_string" ∧
      HasLabel found (i + 2) "$end_string" then some (i + 2)
  else if HasLabel found i "$start_string" ∧ HasLabel found (i + 1) "$proc_type" ∧
      HasLabel found (i + 2) "$dek_info" ∧ HasLabel found (i + 3) "$end_string" then some (i + 3)
  else none

theorem block_of_blockEnd? (h : blockEnd? found i = some j) : Block found i j := by
  unfold blockEnd? at h
  split at h
  next hkey =>
    obtain rfl := Option.some.inj h
    exact .key hkey.1 hkey.2
  next =>
    split at h
    next hpgp =>
      obtain rfl := Option.some.inj h
      exact .pgp hpgp.1 hpgp.2.1 hpgp.2.2
    next =>
      split at h
      next henc =>
        obtain rfl := Option.some.inj h
        exact .encrypted henc.1 henc.2.1 henc.2.2.1 henc.2.2.2
      next => cases h

/-- No earlier branch takes a block: its second match has the label of one pattern only. -/
theorem blockEnd?_of_block (h : Block found i j) : blockEnd? found i = some j := by
  cases h with
  | key h0 h1 => rw [blockEnd?, if_pos ⟨h0, h1⟩]
  | pgp h0 h1 h2 =>
      have hkey : ¬ HasLabel found (i + 1) "$end_string" :=
        fun hk => absurd (hk.unique h1) (by decide)
      rw [blockEnd?, if_neg (fun hk => hkey hk.2), if_pos ⟨h0, h1, h2⟩]
  | encrypted h0 h1 h2 h3 =>
      have hkey : ¬ HasLabel found (i + 1) "$end_string" :=
        fun hk => absurd (hk.unique h1) (by decide)
      have hpgp : ¬ HasLabel found (i + 1) "$gnupg_version_string" :=
        fun hk => absurd (hk.unique h1) (by decide)
      rw [blockEnd?, if_neg (fun hk => hkey hk.2), if_neg (fun hk => hpgp hk.2.1),
        if_pos ⟨h0, h1, h2, h3⟩]

/-! ## No index is out of range -/

theorem item_of_lt (h : i < found.length) : item found i = .ok found[i] := by
  rw [item, List.getElem?_eq_getElem h]

theorem labelIs_eq (h : i < found.length) :
    labelIs found i label = .ok (decide (HasLabel found i label)) := by
  simp [labelIs, item_of_lt h, HasLabel, List.getElem?_eq_getElem h]

/-- `and` evaluates its second operand only where the first holds. -/
theorem ok_and {p q : Prop} [Decidable p] [Decidable q] {x : Except IndexError Bool}
    (h : p → x = .ok (decide q)) :
    ((.ok (decide p) : Except IndexError Bool) <&&> x) = .ok (decide (p ∧ q)) := by
  by_cases hp : p
  · rw [h hp, decide_eq_true hp]
    simp only [hp, true_and]
    rfl
  · rw [decide_eq_false hp]
    simp only [hp, false_and]
    rfl

theorem isConsecutiveKeyBlock_eq (h : i + 1 < found.length) :
    isConsecutiveKeyBlock found i =
      .ok (decide (HasLabel found i "$start_string" ∧ HasLabel found (i + 1) "$end_string")) := by
  rw [isConsecutiveKeyBlock, labelIs_eq (by omega)]
  exact ok_and fun _ => labelIs_eq h

theorem isConsecutivePgpBlock_eq (h : i + 1 < found.length) :
    isConsecutivePgpBlock found i =
      .ok (decide (HasLabel found i "$start_string" ∧
        HasLabel found (i + 1) "$gnupg_version_string" ∧
        HasLabel found (i + 2) "$end_string")) := by
  rw [isConsecutivePgpBlock, labelIs_eq (by omega), labelIs_eq h]
  refine ok_and fun _ => ok_and fun _ => ?_
  refine (ok_and fun hlt => labelIs_eq hlt).trans ?_
  congr 2
  exact propext ⟨fun hk => hk.2, fun hk => ⟨hk.lt_length, hk⟩⟩

theorem isConsecutiveEncryptedKey_eq :
    isConsecutiveEncryptedKey found i =
      .ok (decide (HasLabel found i "$start_string" ∧ HasLabel found (i + 1) "$proc_type" ∧
        HasLabel found (i + 2) "$dek_info" ∧ HasLabel found (i + 3) "$end_string")) := by
  have hrest (hlt : i + 3 < found.length) :
      (labelIs found i "$start_string" <&&> labelIs found (i + 1) "$proc_type"
        <&&> labelIs found (i + 2) "$dek_info" <&&> labelIs found (i + 3) "$end_string") =
      .ok (decide (HasLabel found i "$start_string" ∧ HasLabel found (i + 1) "$proc_type" ∧
        HasLabel found (i + 2) "$dek_info" ∧ HasLabel found (i + 3) "$end_string")) := by
    rw [labelIs_eq (by omega), labelIs_eq (by omega), labelIs_eq (by omega), labelIs_eq hlt]
    exact ok_and fun _ => ok_and fun _ => ok_and fun _ => rfl
  refine (ok_and hrest).trans ?_
  congr 2
  exact propext ⟨fun hk => hk.2, fun hk => ⟨hk.2.2.2.lt_length, hk⟩⟩

/-- The pair of a block; both its matches exist. -/
def span (found : List Match) (block : Nat × Nat) : Nat × Nat :=
  ((found[block.1]?.map Match.offset).getD 0, (found[block.2]?.map calculateEndIndex).getD 0)

theorem Block.offsetPair_eq (h : Block found i j) :
    offsetPair found i j = .ok (span found (i, j)) := by
  have hi := h.start.lt_length
  have hj := h.stop.lt_length
  rw [offsetPair, item_of_lt hi, item_of_lt hj]
  simp only [span, List.getElem?_eq_getElem hi, List.getElem?_eq_getElem hj]
  rfl

/-- One round adds the pair of the block that starts at the index, if there is one. -/
theorem addOffsetPair_eq (pairs : List (Nat × Nat)) (h : i + 1 < found.length) :
    addOffsetPair found pairs i =
      .ok (pairs ++ ((blockEnd? found i).map fun j => span found (i, j)).toList) := by
  have hpair (j : Nat) (hj : blockEnd? found i = some j) :
      offsetPair found i j = .ok (span found (i, j)) :=
    (block_of_blockEnd? hj).offsetPair_eq
  rw [addOffsetPair, isConsecutiveKeyBlock_eq h, isConsecutivePgpBlock_eq h,
    isConsecutiveEncryptedKey_eq]
  -- the branches of the source are those of `blockEnd?`
  unfold blockEnd? at hpair ⊢
  split_ifs at hpair ⊢ with hkey hpgp henc
  · rw [decide_eq_true hkey, hpair _ rfl]
    rfl
  · rw [decide_eq_false hkey, decide_eq_true hpgp, hpair _ rfl]
    rfl
  · rw [decide_eq_false hkey, decide_eq_false hpgp, decide_eq_true henc, hpair _ rfl]
    rfl
  · rw [decide_eq_false hkey, decide_eq_false hpgp, decide_eq_false henc]
    simp [bind, Except.bind, pure, Except.pure]

/-! ## The scan -/

/-- The blocks by their first index. -/
def blocks (found : List Match) : List (Nat × Nat) :=
  (List.range (found.length - 1)).filterMap fun i => (blockEnd? found i).map (Prod.mk i)

theorem mem_blocks : (i, j) ∈ blocks found ↔ Block found i j := by
  simp only [blocks, List.mem_filterMap, List.mem_range, Option.map_eq_some_iff, Prod.mk.injEq]
  constructor
  · rintro ⟨_, -, _, hend, rfl, rfl⟩
    exact block_of_blockEnd? hend
  · intro h
    have hj := h.stop.lt_length
    have hij := h.lt
    exact ⟨i, by omega, j, blockEnd?_of_block h, rfl, rfl⟩

theorem getOffsetPairs_eq (found : List Match) :
    getOffsetPairs found = .ok ((blocks found).map (span found)) := by
  have hstep : ∀ pairs i, i + 1 < found.length → addOffsetPair found pairs i = .ok
      (pairs ++ ((blockEnd? found i).map fun j => span found (i, j)).toList) :=
    fun pairs _ h => addOffsetPair_eq pairs h
  have hrange : ∀ i ∈ List.range (found.length - 1), i + 1 < found.length := by
    intro i hi
    have := List.mem_range.1 hi
    omega
  rw [getOffsetPairs, Loop.foldlM_ok hstep hrange, List.foldl_append_eq_append, List.nil_append,
    ← List.flatMap_def, ← List.filterMap_eq_flatMap_toList, blocks, List.map_filterMap]
  simp only [Option.map_map]
  rfl

/-- A block ends before the next one starts. -/
theorem blocks_pairwise (found : List Match) :
    (blocks found).Pairwise fun b c => b.2 < c.1 := by
  rw [blocks, List.pairwise_filterMap]
  apply List.pairwise_lt_range.imp
  intro i i' hlt b hb c hc
  rcases Option.map_eq_some_iff.1 hb with ⟨j, hj, rfl⟩
  rcases Option.map_eq_some_iff.1 hc with ⟨j', hj', rfl⟩
  exact (block_of_blockEnd? hj).lt_of_lt (block_of_blockEnd? hj') hlt

theorem nodup_starts (found : List Match) : ((blocks found).map Prod.fst).Nodup := by
  apply List.pairwise_map.2
  apply (blocks_pairwise found).imp_of_mem
  intro b c hb _ hlt
  have := (mem_blocks.1 hb).lt
  omega

theorem nodup_stops (found : List Match) : ((blocks found).map Prod.snd).Nodup := by
  apply List.pairwise_map.2
  apply (blocks_pairwise found).imp_of_mem
  intro b c _ hc hlt
  have := (mem_blocks.1 hc).lt
  omega

/-- Sorted matches that do not overlap: each ends before any later one starts. -/
def Separated (found : List Match) : Prop :=
  found.Pairwise fun m m' => calculateEndIndex m ≤ m'.offset
deriving Decidable

/-- The pair goes from the offset of the first match of the block to the end of the last. -/
def Spans (found : List Match) (block pair : Nat × Nat) : Prop :=
  ∃ first last, found[block.1]? = some first ∧ found[block.2]? = some last ∧
    pair = (first.offset, calculateEndIndex last)

theorem Block.spans (h : Block found i j) : Spans found (i, j) (span found (i, j)) := by
  have hi := List.getElem?_eq_getElem h.start.lt_length
  have hj := List.getElem?_eq_getElem h.stop.lt_length
  refine ⟨_, _, hi, hj, ?_⟩
  rw [span, hi, hj]
  rfl

theorem Separated.end_le_offset (h : Separated found) {m m' : Match} (hij : i < j)
    (hi : found[i]? = some m) (hj : found[j]? = some m') : calculateEndIndex m ≤ m'.offset := by
  rcases List.getElem?_eq_some_iff.1 hi with ⟨hilt, rfl⟩
  rcases List.getElem?_eq_some_iff.1 hj with ⟨hjlt, rfl⟩
  exact List.pairwise_iff_getElem.1 h i j hilt hjlt hij

/-- The pair of a block is a range of the file. -/
theorem Block.span_le (hsep : Separated found) (h : Block found i j) :
    (span found (i, j)).1 ≤ (span found (i, j)).2 := by
  rcases h.spans with ⟨first, last, hfirst, hlast, heq⟩
  have hle := hsep.end_le_offset h.lt hfirst hlast
  rw [heq]
  simp only [calculateEndIndex] at hle ⊢
  omega

/-- `get_offset_pairs` gives the pairs of exactly the blocks, in order and disjoint, and
no start and no end belongs to two of them. -/
theorem getOffsetPairs_blocks (found : List Match) (hsep : Separated found) :
    ∃ blocks pairs : List (Nat × Nat),
      (∀ i j, (i, j) ∈ blocks ↔ Block found i j) ∧
      (blocks.map Prod.fst).Nodup ∧ (blocks.map Prod.snd).Nodup ∧
      getOffsetPairs found = .ok pairs ∧ List.Forall₂ (Spans found) blocks pairs ∧
      pairs.Pairwise (fun p q => p.2 ≤ q.1) ∧ ∀ p ∈ pairs, p.1 ≤ p.2 := by
  refine ⟨blocks found, (blocks found).map (span found), fun _ _ => mem_blocks, nodup_starts found,
    nodup_stops found, getOffsetPairs_eq found, ?_, ?_, ?_⟩
  · apply List.forall₂_map_right_iff.2
    apply List.forall₂_same.2
    intro b hb
    exact (mem_blocks.1 hb).spans
  · apply List.pairwise_map.2
    apply (blocks_pairwise found).imp_of_mem
    rintro ⟨i, j⟩ ⟨i', j'⟩ hb hc hlt
    rcases (mem_blocks.1 hb).spans with ⟨_, last, -, hlast, heq⟩
    rcases (mem_blocks.1 hc).spans with ⟨first, _, hfirst, -, heq'⟩
    rw [heq, heq']
    exact hsep.end_le_offset hlt hlast hfirst
  · intro p hp
    rcases List.mem_map.1 hp with ⟨b, hb, rfl⟩
    exact (mem_blocks.1 hb).span_le hsep

/-- A block of each kind, a truncated one in front and behind. -/
def sampleMatches : List Match :=
  [⟨0, "$start_string", "S"⟩, ⟨1, "$proc_type", "P"⟩, ⟨2, "$start_string", "S"⟩,
    ⟨3, "$end_string", "E"⟩, ⟨5, "$start_string", "S"⟩, ⟨6, "$gnupg_version_string", "V"⟩,
    ⟨7, "$end_string", "EE"⟩, ⟨10, "$start_string", "S"⟩, ⟨11, "$proc_type", "P"⟩,
    ⟨12, "$dek_info", "D"⟩, ⟨13, "$end_string", "E"⟩, ⟨14, "$start_string", "S"⟩,
    ⟨15, "$proc_type", "P"⟩, ⟨16, "$dek_info", "D"⟩]

example : getOffsetPairs sampleMatches = .ok [(2, 4), (5, 9), (10, 14)] := by decide

theorem getOffsetPairs_blocks_sample :
    ∃ blocks pairs : List (Nat × Nat),
      (∀ i j, (i, j) ∈ blocks ↔ Block sampleMatches i j) ∧
      (blocks.map Prod.fst).Nodup ∧ (blocks.map Prod.snd).Nodup ∧
      getOffsetPairs sampleMatches = .ok pairs ∧ List.Forall₂ (Spans sampleMatches) blocks pairs ∧
      pairs.Pairwise (fun p q => p.2 ≤ q.1) ∧ ∀ p ∈ pairs, p.1 ≤ p.2 :=
  getOffsetPairs_blocks sampleMatches (by decide)

end FactCore.CryptoMaterial
