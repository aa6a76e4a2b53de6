import Mathlib.Data.List.Sort

/-! # Numbered entries

Lists of entries with a number each, in the order of the numbers. Such a list is
determined by its members. Where the entries say which argument is read and as what,
what they collect for all arguments determines them as well.
-/

namespace Numbered

variable {α : Type*}

/-- The order of the numbers. -/
def Before (a b : ℕ × α) : Prop := a.1 < b.1

instance instAntisymmBefore : Std.Antisymm (Before (α := α)) :=
  ⟨fun _ _ h h' => absurd h (Nat.lt_asymm h')⟩

instance instIrreflBefore : Std.Irrefl (Before (α := α)) := ⟨fun a => Nat.lt_irrefl a.1⟩

variable {l l' : List (ℕ × α)} {a b : ℕ × α} {i j : ℕ}

theorem eq_of_mem_iff (h : l.Pairwise Before) (h' : l'.Pairwise Before) (hmem : ∀ a, a ∈ l ↔ a ∈ l') :
    l = l' :=
  h.eq_of_mem_iff h' hmem

/-- As many entries of another list are all of its entries. -/
theorem eq_of_subset (h : l.Pairwise Before) (h' : l'.Pairwise Before) (hsubset : l ⊆ l')
    (hlength : l.length = l'.length) : l = l' := by
  have hsubperm : l.Subperm l' := List.subperm_of_subset h.nodup hsubset
  have hsublist : l.Sublist l' := List.sublist_of_subperm_of_pairwise hsubperm h h'
  exact hsublist.eq_of_length hlength

theorem before_of_lt (h : l.Pairwise Before) (ha : l[i]? = some a) (hb : l[j]? = some b) (hlt : i < j) :
    a.1 < b.1 := by
  rcases List.getElem?_eq_some_iff.1 ha with ⟨hi, rfl⟩
  rcases List.getElem?_eq_some_iff.1 hb with ⟨hj, rfl⟩
  exact List.pairwise_iff_getElem.1 h i j hi hj hlt

/-- Entries come in the order of their numbers. -/
theorem lt_of_before (h : l.Pairwise Before) (ha : l[i]? = some a) (hb : l[j]? = some b) (hlt : a.1 < b.1) :
    i < j := by
  by_contra hle
  rcases Nat.lt_or_eq_of_le (Nat.le_of_not_lt hle) with hji | rfl
  · exact absurd (before_of_lt h hb ha hji) (Nat.lt_asymm hlt)
  · obtain rfl := Option.some_inj.1 (ha.symm.trans hb)
    exact absurd hlt (Nat.lt_irrefl _)

theorem index_unique (h : l.Pairwise Before) (ha : l[i]? = some a) (hb : l[j]? = some b) (heq : a.1 = b.1) :
    i = j := by
  rcases Nat.lt_trichotomy i j with hij | hij | hij
  · exact absurd heq (Nat.ne_of_lt (before_of_lt h ha hb hij))
  · exact hij
  · exact absurd heq.symm (Nat.ne_of_lt (before_of_lt h hb ha hij))

/-! ## Reading arguments -/

variable {ν γ : Type*} (values : α → List ν → List γ)

/-- What the entries read: each of the argument with its number. -/
def collect (args : List (List ν)) (entries : List (ℕ × α)) : List γ :=
  entries.flatMap fun entry => values entry.2 (args.getD entry.1 [])

variable {values} {entries entries' : List (ℕ × α)} {n : ℕ}

/-- Arguments that are empty but for one. -/
def single (n k : ℕ) (x : ν) : List (List ν) :=
  (List.range (max n (k + 1))).map fun i => if i = k then [x] else []

theorem length_single (n k : ℕ) (x : ν) : n ≤ (single n k x).length := by
  rw [single, List.length_map, List.length_range]
  exact Nat.le_max_left _ _

theorem getD_single (n k i : ℕ) (x : ν) : (single n k x).getD i [] = if i = k then [x] else [] := by
  rw [List.getD_eq_getElem?_getD, single, List.getElem?_map]
  by_cases hi : i < max n (k + 1)
  · rw [List.getElem?_range hi]
    rfl
  · rw [List.getElem?_eq_none (by rw [List.length_range]; exact Nat.le_of_not_lt hi)]
    have hne : i ≠ k := by
      rintro rfl
      exact hi (Nat.lt_of_lt_of_le (Nat.lt_succ_self i) (Nat.le_max_right _ _))
    rw [if_neg hne]
    rfl

/-- If only its own kind reads the sample of a kind, the entries that read it are found. -/
theorem collect_single_ne_nil {sample : α → ν} (hnone : ∀ t, values t [] = [])
    (hsample : ∀ t t', values t [sample t'] ≠ [] ↔ t = t') {k : ℕ} {t : α} :
    collect values (single n k (sample t)) entries ≠ [] ↔ (k, t) ∈ entries := by
  rw [collect, Ne, List.flatMap_eq_nil_iff, not_forall]
  simp only [getD_single, not_forall]
  constructor
  · rintro ⟨⟨i, t'⟩, hentry, hvalues⟩
    by_cases hi : i = k
    · rw [if_pos hi] at hvalues
      obtain rfl := (hsample _ _).1 hvalues
      exact hi ▸ hentry
    · rw [if_neg hi] at hvalues
      exact absurd (hnone t') hvalues
  · intro hentry
    refine ⟨(k, t), hentry, ?_⟩
    rw [if_pos rfl]
    exact (hsample t t).2 rfl

/-- Entries that collect the same of all arguments are the same. -/
theorem eq_of_collect {sample : α → ν} (hnone : ∀ t, values t [] = [])
    (hsample : ∀ t t', values t [sample t'] ≠ [] ↔ t = t') (h : entries.Pairwise Before)
    (h' : entries'.Pairwise Before)
    (hcollect : ∀ args, n ≤ args.length → collect values args entries = collect values args entries') :
    entries = entries' := by
  refine eq_of_mem_iff h h' fun ⟨k, t⟩ => ?_
  rw [← collect_single_ne_nil (n := n) hnone hsample, ← collect_single_ne_nil (n := n) hnone hsample,
    hcollect _ (length_single n k (sample t))]

end Numbered
