import Mathlib.Data.List.Basic
import Mathlib.Tactic.Basic

/-! # Outlines by indentation

A nested mapping is written one entry a line, the entries of a mapping below
its key and with more indentation. A reader keeps the open keys on a stack: a
line closes every key that is not indented less than the line itself.

A text may also contain lines that only look like entries. They do no harm as
long as no value is read while one of them is open.
-/

namespace Outline

variable {κ ν : Type}

/-- A nested mapping. The entries of a nested one are indented by one space more
than `deeper`, counted from their key. -/
inductive Mapping (κ ν : Type) where
  | nil
  | leaf (key : κ) (value : ν) (rest : Mapping κ ν)
  | parent (key : κ) (deeper : ℕ) (children rest : Mapping κ ν)

/-- A line with a key, and a value if the key is not a parent. -/
structure Line (κ ν : Type) where
  indent : ℕ
  key : κ
  value : Option ν
deriving DecidableEq

namespace Mapping

/-- The lines of a mapping whose entries have an indentation. -/
def lines : Mapping κ ν → ℕ → List (Line κ ν)
  | nil, _ => []
  | leaf key value rest, indent => ⟨indent, key, some value⟩ :: rest.lines indent
  | parent key deeper children rest, indent =>
      ⟨indent, key, none⟩ :: (children.lines (indent + deeper + 1) ++ rest.lines indent)

/-- The leaves with their key paths, in the order of the lines. -/
def leaves : Mapping κ ν → List κ → List (List κ × ν)
  | nil, _ => []
  | leaf key value rest, path => (path ++ [key], value) :: rest.leaves path
  | parent key _ children rest, path => children.leaves (path ++ [key]) ++ rest.leaves path

/-- All keys of a mapping. -/
def keys : Mapping κ ν → List κ
  | nil => []
  | leaf key _ rest => key :: rest.keys
  | parent key _ children rest => key :: (children.keys ++ rest.keys)

/-- All values of a mapping. -/
def values : Mapping κ ν → List ν
  | nil => []
  | leaf _ value rest => value :: rest.values
  | parent _ _ children rest => children.values ++ rest.values

end Mapping

/-! ## The reader -/

/-- The open keys, innermost first, with their indentation. -/
abbrev Stack (κ : Type) := List (κ × ℕ)

/-- The keys that stay open for a line with this indentation. -/
def popTo (indent : ℕ) (stack : Stack κ) : Stack κ := stack.dropWhile fun entry => indent ≤ entry.2

/-- The path of the open keys. -/
def path (stack : Stack κ) : List κ := (stack.map Prod.fst).reverse

/-- The entries read so far, and the open keys. -/
structure Reader (κ ν : Type) where
  entries : List (List κ × ν)
  stack : Stack κ

/-- What a line adds. -/
def Reader.readLine (r : Reader κ ν) (line : Line κ ν) : Reader κ ν :=
  { entries := r.entries ++ (line.value.map fun value =>
      (path (popTo line.indent r.stack) ++ [line.key], value)).toList
    stack := (line.key, line.indent) :: popTo line.indent r.stack }

def Reader.read (r : Reader κ ν) (lines : List (Line κ ν)) : Reader κ ν := lines.foldl Reader.readLine r

/-! ## Closing keys -/

theorem popTo_of_lt {indent : ℕ} {entry : κ × ℕ} {stack : Stack κ} (h : entry.2 < indent) :
    popTo indent (entry :: stack) = entry :: stack := by
  have hopen : ¬ indent ≤ entry.2 := by omega
  simp [popTo, hopen]

theorem popTo_of_le {indent : ℕ} {entry : κ × ℕ} {stack : Stack κ} (h : indent ≤ entry.2) :
    popTo indent (entry :: stack) = popTo indent stack := by
  simp [popTo, h]

/-- A line closes what a deeper line would have closed. -/
theorem popTo_popTo {indent indent' : ℕ} (h : indent ≤ indent') (stack : Stack κ) :
    popTo indent (popTo indent' stack) = popTo indent stack := by
  induction stack with
  | nil => rfl
  | cons entry stack ih =>
      by_cases hclosed : indent' ≤ entry.2
      · rw [popTo_of_le hclosed, popTo_of_le (by omega), ih]
      · rw [popTo_of_lt (by omega)]

@[simp] theorem path_cons (key : κ) (indent : ℕ) (stack : Stack κ) :
    path ((key, indent) :: stack) = path stack ++ [key] := by simp [path]

/-- What a line leaves open for the lines that are not deeper. -/
theorem popTo_readLine {r : Reader κ ν} {line : Line κ ν} {indent : ℕ} (h : indent ≤ line.indent) :
    popTo indent (r.readLine line).stack = popTo indent r.stack := by
  unfold Reader.readLine
  rw [popTo_of_le h, popTo_popTo h]

/-- What a line leaves open for the lines that are deeper. -/
theorem popTo_readLine_of_lt {r : Reader κ ν} {line : Line κ ν} {indent : ℕ} (h : line.indent < indent) :
    popTo indent (r.readLine line).stack = (line.key, line.indent) :: popTo line.indent r.stack := by
  unfold Reader.readLine
  rw [popTo_of_lt h]

theorem read_cons (r : Reader κ ν) (line : Line κ ν) (lines : List (Line κ ν)) :
    r.read (line :: lines) = (r.readLine line).read lines := rfl

theorem read_append (r : Reader κ ν) (front back : List (Line κ ν)) :
    r.read (front ++ back) = (r.read front).read back := List.foldl_append

/-! ## The lines of a mapping -/

/-- Reading the lines of a mapping adds its leaves, and leaves the keys around
it open. -/
theorem read_lines (mapping : Mapping κ ν) (indent : ℕ) (r : Reader κ ν) :
    (r.read (mapping.lines indent)).entries =
        r.entries ++ mapping.leaves (path (popTo indent r.stack)) ∧
      ∀ indent' ≤ indent, popTo indent' (r.read (mapping.lines indent)).stack = popTo indent' r.stack := by
  induction mapping generalizing indent r with
  | nil =>
      constructor
      · exact (List.append_nil r.entries).symm
      · intro indent' _
        rfl
  | leaf key value rest ih =>
      obtain ⟨hentries, hstack⟩ := ih indent (r.readLine ⟨indent, key, some value⟩)
      have hrest : popTo indent (r.readLine ⟨indent, key, some value⟩).stack = popTo indent r.stack :=
        popTo_readLine (Nat.le_refl _)
      constructor
      · show ((r.readLine ⟨indent, key, some value⟩).read (rest.lines indent)).entries = _
        rw [hentries, hrest]
        simp [Reader.readLine, Mapping.leaves]
      · intro indent' hle
        exact (hstack indent' hle).trans (popTo_readLine hle)
  | parent key deeper children rest ihchildren ihrest =>
      obtain ⟨hentries, hstack⟩ := ihchildren (indent + deeper + 1) (r.readLine ⟨indent, key, none⟩)
      obtain ⟨hentries', hstack'⟩ :=
        ihrest indent ((r.readLine ⟨indent, key, none⟩).read (children.lines (indent + deeper + 1)))
      -- the key is open for its own entries only
      have hchildren : popTo (indent + deeper + 1) (r.readLine ⟨indent, key, none⟩).stack =
          (key, indent) :: popTo indent r.stack := popTo_readLine_of_lt (by simp only; omega)
      have hrest : ∀ indent' ≤ indent, popTo indent' ((r.readLine ⟨indent, key, none⟩).read
          (children.lines (indent + deeper + 1))).stack = popTo indent' r.stack := by
        intro indent' hle
        rw [hstack indent' (by omega)]
        exact popTo_readLine hle
      have hread : r.read ((Mapping.parent key deeper children rest).lines indent) =
          ((r.readLine ⟨indent, key, none⟩).read (children.lines (indent + deeper + 1))).read
            (rest.lines indent) := read_append (r.readLine ⟨indent, key, none⟩) _ _
      rw [hread]
      constructor
      · rw [hentries', hentries, hchildren, hrest indent (Nat.le_refl _), path_cons]
        simp [Reader.readLine, Mapping.leaves]
      · intro indent' hle
        exact (hstack' indent' hle).trans (hrest indent' hle)

theorem Mapping.mem_keys_of_mem_leaves {mapping : Mapping κ ν} {around : List κ} {entry : List κ × ν}
    (h : entry ∈ mapping.leaves around) {key : κ} (hkey : key ∈ entry.1) :
    key ∈ around ∨ key ∈ mapping.keys := by
  induction mapping generalizing around with
  | nil => cases h
  | leaf key' value rest ih =>
      rcases List.mem_cons.1 h with rfl | hrest
      · rcases List.mem_append.1 hkey with haround | hself
        · exact .inl haround
        · exact .inr (List.mem_cons.2 (.inl (List.mem_singleton.1 hself)))
      · exact (ih hrest).imp_right (List.mem_cons_of_mem key')
  | parent key' deeper children rest ihchildren ihrest =>
      rcases List.mem_append.1 h with hchild | hrest
      · rcases ihchildren hchild with haround | hchildren
        · rcases List.mem_append.1 haround with haround | hself
          · exact .inl haround
          · exact .inr (List.mem_cons.2 (.inl (List.mem_singleton.1 hself)))
        · exact .inr (List.mem_cons_of_mem key' (List.mem_append_left _ hchildren))
      · exact (ihrest hrest).imp_right fun hkeys => List.mem_cons_of_mem key' (List.mem_append_right _ hkeys)

theorem Mapping.mem_of_mem_lines {mapping : Mapping κ ν} {indent : ℕ} {line : Line κ ν}
    (h : line ∈ mapping.lines indent) :
    line.key ∈ mapping.keys ∧ ∀ value ∈ line.value, value ∈ mapping.values := by
  induction mapping generalizing indent with
  | nil => cases h
  | leaf key value rest ih =>
      rcases List.mem_cons.1 h with rfl | hrest
      · refine ⟨List.mem_cons_self, ?_⟩
        intro value' hvalue
        obtain rfl := Option.some.inj hvalue
        exact List.mem_cons_self
      · obtain ⟨hkey, hvalue⟩ := ih hrest
        exact ⟨List.mem_cons_of_mem _ hkey, fun v hv => List.mem_cons_of_mem _ (hvalue v hv)⟩
  | parent key deeper children rest ihchildren ihrest =>
      rcases List.mem_cons.1 h with rfl | hline
      · exact ⟨List.mem_cons_self, fun value hvalue => nomatch hvalue⟩
      · rcases List.mem_append.1 hline with hchild | hrest
        · obtain ⟨hkey, hvalue⟩ := ihchildren hchild
          exact ⟨List.mem_cons_of_mem _ (List.mem_append_left _ hkey),
            fun v hv => List.mem_append_left _ (hvalue v hv)⟩
        · obtain ⟨hkey, hvalue⟩ := ihrest hrest
          exact ⟨List.mem_cons_of_mem _ (List.mem_append_right _ hkey),
            fun v hv => List.mem_append_right _ (hvalue v hv)⟩

/-! ## Lines that only look like entries -/

/-- A line of the mapping, or another one that the reader takes for one. -/
inductive Item (κ ν : Type) where
  | own (line : Line κ ν)
  | stray (line : Line κ ν)

namespace Item

def line : Item κ ν → Line κ ν
  | own line => line
  | stray line => line

def own? : Item κ ν → Option (Line κ ν)
  | own line => some line
  | stray _ => none

end Item

/-- The indentation does not exceed a limit, if there is one. -/
def Within : Option ℕ → ℕ → Prop
  | none, _ => True
  | some limit, indent => indent ≤ limit

instance instDecidableWithin (limit : Option ℕ) (indent : ℕ) : Decidable (Within limit indent) :=
  match limit with
  | none => isTrue trivial
  | some limit => inferInstanceAs (Decidable (indent ≤ limit))

/-- A limit with another one. -/
def lower : Option ℕ → ℕ → Option ℕ
  | none, indent => some indent
  | some limit, indent => some (min limit indent)

theorem within_lower {limit : Option ℕ} {indent indent' : ℕ} :
    Within (lower limit indent) indent' ↔ Within limit indent' ∧ indent' ≤ indent := by
  cases limit with
  | none => exact (iff_of_eq (true_and _)).symm
  | some limit => exact Nat.le_min

theorem Within.of_le {limit : Option ℕ} {indent indent' : ℕ} (h : Within limit indent)
    (hle : indent' ≤ indent) : Within limit indent' := by
  cases limit with
  | none => trivial
  | some limit => exact Nat.le_trans hle h

/-- No stray line has a value, and no line of the mapping that has one is read
while a stray key is open. Lines that are indented more than `limit` are read
below a stray key. -/
def Undisturbed : Option ℕ → List (Item κ ν) → Prop
  | _, [] => True
  | limit, .stray line :: rest => line.value = none ∧ Undisturbed (lower limit line.indent) rest
  | limit, .own line :: rest =>
      if Within limit line.indent then Undisturbed none rest
      else line.value = none ∧ Undisturbed limit rest

/-- The same keys stay open for the lines up to a limit. -/
def Agree (limit : Option ℕ) (stack stack' : Stack κ) : Prop :=
  ∀ indent, Within limit indent → popTo indent stack = popTo indent stack'

variable {r r' : Reader κ ν} {line : Line κ ν} {limit : Option ℕ}

/-- A line within the limit makes the stacks equal. -/
theorem Agree.readLine (h : Agree limit r.stack r'.stack) (hwithin : Within limit line.indent) :
    (r.readLine line).stack = (r'.readLine line).stack := by
  unfold Reader.readLine
  rw [h line.indent hwithin]

/-- A line beyond the limit changes nothing within it. -/
theorem Agree.readLine_of_not (h : Agree limit r.stack r'.stack) (hbeyond : ¬ Within limit line.indent) :
    Agree limit (r.readLine line).stack (r'.readLine line).stack := by
  intro indent hwithin
  have hindent : indent ≤ line.indent := by
    by_contra hdeeper
    exact hbeyond (hwithin.of_le (by omega))
  rw [popTo_readLine hindent, popTo_readLine hindent]
  exact h indent hwithin

/-- A stray line changes nothing up to its own indentation. -/
theorem Agree.readStray (h : Agree limit r.stack r'.stack) :
    Agree (lower limit line.indent) (r.readLine line).stack r'.stack := by
  intro indent hwithin
  obtain ⟨hlimit, hindent⟩ := within_lower.1 hwithin
  rw [popTo_readLine hindent]
  exact h indent hlimit

/-- Undisturbed lines are read as if the stray ones were not there. -/
theorem read_of_undisturbed {items : List (Item κ ν)} (h : Undisturbed limit items)
    (hagree : Agree limit r.stack r'.stack) (hentries : r.entries = r'.entries) :
    (r.read (items.map Item.line)).entries = (r'.read (items.filterMap Item.own?)).entries := by
  induction items generalizing limit r r' with
  | nil => exact hentries
  | cons item rest ih =>
      cases item with
      | stray line =>
          obtain ⟨hvalue, hrest⟩ := h
          apply ih hrest hagree.readStray
          simp [Reader.readLine, hvalue, hentries]
      | own line =>
          unfold Undisturbed at h
          split at h
          · rename_i hwithin
            have hstack : (r.readLine line).stack = (r'.readLine line).stack := hagree.readLine hwithin
            have hpath := hagree line.indent hwithin
            have hline : (r.readLine line).entries = (r'.readLine line).entries := by
              simp only [Reader.readLine, hentries, hpath]
            refine ih h (fun indent _ => ?_) hline
            show popTo indent (r.readLine line).stack = popTo indent (r'.readLine line).stack
            rw [hstack]
          · rename_i hbeyond
            obtain ⟨hvalue, hrest⟩ := h
            apply ih hrest (hagree.readLine_of_not hbeyond)
            simp [Reader.readLine, hvalue, hentries]

theorem mem_entries_read {lines : List (Line κ ν)} {entry : List κ × ν} (h : entry ∈ r.entries) :
    entry ∈ (r.read lines).entries := by
  induction lines generalizing r with
  | nil => exact h
  | cons line lines ih => exact ih (List.mem_append_left _ h)

/-- A value that is read adds an entry with its own key and the open ones. -/
theorem mem_entries_readLine {value : ν} (hvalue : line.value = some value) :
    (path (popTo line.indent r.stack) ++ [line.key], value) ∈ (r.readLine line).entries := by
  simp [Reader.readLine, hvalue]

/-- Of lines that are not undisturbed, an entry is read that has a stray key in
its path. -/
theorem exists_stray_key {strange : κ → Prop} {items : List (Item κ ν)}
    (hstray : ∀ line, Item.stray line ∈ items → strange line.key)
    (hopen : ∀ indent, ¬ Within limit indent → ∃ key ∈ path (popTo indent r.stack), strange key)
    (h : ¬ Undisturbed limit items) :
    ∃ entry ∈ (r.read (items.map Item.line)).entries, ∃ key ∈ entry.1, strange key := by
  induction items generalizing limit r with
  | nil => exact absurd trivial h
  | cons item rest ih =>
      have hrest : ∀ line, Item.stray line ∈ rest → strange line.key := fun line hmem =>
        hstray line (List.mem_cons_of_mem item hmem)
      cases item with
      | stray line =>
          have hkey := hstray line List.mem_cons_self
          rw [List.map_cons, read_cons]
          cases hvalue : line.value with
          | some value =>
              refine ⟨_, mem_entries_read (mem_entries_readLine hvalue), line.key, ?_, hkey⟩
              exact List.mem_append_right _ (List.mem_singleton.2 rfl)
          | none =>
              have hbelow : ∀ indent, ¬ Within (lower limit line.indent) indent →
                  ∃ key ∈ path (popTo indent (r.readLine line).stack), strange key := by
                intro indent hbeyond
                rcases Nat.lt_or_ge line.indent indent with hdeeper | hle
                · refine ⟨line.key, ?_, hkey⟩
                  rw [popTo_readLine_of_lt hdeeper]
                  simp
                · rw [popTo_readLine hle]
                  exact hopen indent fun hwithin => hbeyond (within_lower.2 ⟨hwithin, hle⟩)
              exact ih hrest hbelow fun hundisturbed => h ⟨hvalue, hundisturbed⟩
      | own line =>
          rw [List.map_cons, read_cons]
          unfold Undisturbed at h
          split at h
          · have hnone : ∀ indent, ¬ Within none indent →
                ∃ key ∈ path (popTo indent (r.readLine line).stack), strange key :=
              fun indent hbeyond => absurd trivial hbeyond
            exact ih hrest hnone h
          · rename_i hbeyond
            obtain ⟨key, hmem, hkey⟩ := hopen line.indent hbeyond
            cases hvalue : line.value with
            | some value =>
                refine ⟨_, mem_entries_read (mem_entries_readLine hvalue), key, ?_, hkey⟩
                exact List.mem_append_left _ hmem
            | none =>
                have hbelow : ∀ indent, ¬ Within limit indent →
                    ∃ key ∈ path (popTo indent (r.readLine line).stack), strange key := by
                  intro indent hbeyond'
                  rcases Nat.lt_or_ge line.indent indent with hdeeper | hle
                  · refine ⟨key, ?_, hkey⟩
                    rw [popTo_readLine_of_lt hdeeper, path_cons]
                    exact List.mem_append_left _ hmem
                  · rw [popTo_readLine hle]
                    exact hopen indent hbeyond'
                exact ih hrest hbelow fun hundisturbed => h ⟨hvalue, hundisturbed⟩

end Outline
