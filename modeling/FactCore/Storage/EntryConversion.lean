import FactCore.Lib.Dict
import FactCore.Lib.Text

/-! # Sanitizing analysis results

`sanitize` of `storage/entry_conversion.py` makes the result of an analysis fit
for a JSON column of the database. It works in place: it walks over a snapshot
of the items of a dict, replaces values and renames keys in the dict itself, and
descends into dicts and lists.

A value is modelled as a tree. What the traversal does to an object is what the
object has become afterwards; a change of a nested object is seen through the
dict as long as the dict still holds that object under the key.
-/

namespace FactCore

/-- A Python value as it occurs in analysis results. The items of a dict are in
insertion order. -/
inductive PyValue where
  | none
  | bool (b : Bool)
  | int (n : Int)
  | float (literal : String)
  | str (s : Text)
  | bytes (b : List UInt8)
  | list (elements : List PyValue)
  | tuple (elements : List PyValue)
  | dict (items : List (Text × PyValue))

namespace EntryConversion

/-! ## The traversal -/

/-- `string.replace('\0', '')`. -/
def stripNull (s : Text) : Text := s.filter (· ≠ 0)

/-- `_sanitize_string`. -/
def sanitizeString (s : Text) : Text := (stripNull s).encodeReplace

/-- `value.decode(errors='replace')`. -/
def decodeBytes (b : List UInt8) : Text := Text.decodeReplace (b.map UInt8.toNat)

/-- `_sanitize_key` on the items of a dict. -/
def sanitizeKey (data : List (Text × PyValue)) (key : Text) : List (Text × PyValue) :=
  if 0 ∈ key then
    match Dict.getItem key data with
    | some value => Dict.setItem (stripNull key) value (Dict.eraseItem key data)
    | Option.none => data
  else data

mutual

/-- The loop of `sanitize` over the snapshot of the items. `data` are the items
of the dict so far, `moved` the keys that hold another object than in the
snapshot, because a value was moved there from a key with null bytes. -/
def sanitizeItems : List (Text × PyValue) → List (Text × PyValue) → List Text →
    List (Text × PyValue)
  | [], data, _ => data
  | (key, value) :: rest, data, moved =>
      sanitizeItems rest (sanitizeKey (sanitizeValue data moved key value) key)
        (if 0 ∈ key then stripNull key :: moved else moved)

/-- `_sanitize_value`. -/
def sanitizeValue (data : List (Text × PyValue)) (moved : List Text) (key : Text) :
    PyValue → List (Text × PyValue)
  | .tuple elements => Dict.setItem key (.list (sanitizeList elements)) data
  | .dict items =>
      if key ∈ moved then data else Dict.setItem key (.dict (sanitizeItems items items [])) data
  | .str s => Dict.setItem key (.str (sanitizeString s)) data
  | .list elements =>
      if key ∈ moved then data else Dict.setItem key (.list (sanitizeList elements)) data
  | .bytes b => Dict.setItem key (.str (decodeBytes b)) data
  | _ => data

/-- `_sanitize_list`. -/
def sanitizeList : List PyValue → List PyValue
  | [] => []
  | element :: rest => sanitizeElement element :: sanitizeList rest

/-- One round of the loop of `_sanitize_list`. -/
def sanitizeElement : PyValue → PyValue
  | .tuple elements => .list (sanitizeList elements)
  | .dict items => .dict (sanitizeItems items items [])
  | .list elements => .list (sanitizeList elements)
  | .str s => .str (sanitizeString s)
  | value => value

end

/-- `sanitize` of a dict. -/
def sanitize (items : List (Text × PyValue)) : List (Text × PyValue) := sanitizeItems items items []

/-! ## Well-formed values -/

/-- The keys of a dict. -/
def keys (items : List (Text × PyValue)) : List Text := items.map Prod.fst

mutual

/-- In every dict, at any depth, the keys are distinct. -/
def WellFormed : PyValue → Prop
  | .list elements => WellFormedList elements
  | .tuple elements => WellFormedList elements
  | .dict items => (keys items).Nodup ∧ WellFormedItems items
  | _ => True

def WellFormedList : List PyValue → Prop
  | [] => True
  | element :: rest => WellFormed element ∧ WellFormedList rest

def WellFormedItems : List (Text × PyValue) → Prop
  | [] => True
  | (_, value) :: rest => WellFormed value ∧ WellFormedItems rest

end

/-! ## What becomes of a dict

Of the entries of a dict that have the same key without null bytes only one is
kept. The loop writes such a key for every entry with null bytes in its key, and
for an entry whose value it replaces by another object.
-/

/-- `_sanitize_value` assigns a new object for values of these kinds. -/
def rebinds : PyValue → Bool
  | .str _ => true
  | .tuple _ => true
  | .bytes _ => true
  | _ => false

/-- The loop writes `k` when it comes to this entry. -/
def Writes (k : Text) (e : Text × PyValue) : Prop := stripNull e.1 = k ∧ (0 ∈ e.1 ∨ rebinds e.2 = true)

instance (k : Text) (e : Text × PyValue) : Decidable (Writes k e) :=
  inferInstanceAs (Decidable (_ ∧ _))

/-- The entry that is kept under a key: the last one that is written there, or
the entry with that key if none is. -/
def survivor (items : List (Text × PyValue)) (k : Text) : Option (Text × PyValue) :=
  match (items.filter fun e => Writes k e).getLast? with
  | some e => some e
  | Option.none => items.find? fun e => e.1 = k

/-- What becomes of the value of an entry. -/
def entryValue : PyValue → PyValue
  | .bytes b => .str (decodeBytes b)
  | value => sanitizeElement value

variable {items data rest : List (Text × PyValue)} {moved : List Text} {k key : Text}
  {value : PyValue} {e : Text × PyValue}

theorem zero_notMem_stripNull (s : Text) : 0 ∉ stripNull s := by simp [stripNull]

theorem stripNull_of_notMem {s : Text} (h : 0 ∉ s) : stripNull s = s := by
  rw [stripNull, List.filter_eq_self]
  intro c hc
  have hne : c ≠ 0 := fun h0 => h (h0 ▸ hc)
  simpa using hne

theorem survivor_append (k : Text) (e : Text × PyValue) : survivor (items ++ [e]) k =
    if Writes k e then some e
    else match survivor items k with
      | some e' => some e'
      | Option.none => if e.1 = k then some e else Option.none := by
  unfold survivor
  rw [List.filter_append, List.find?_append]
  by_cases hw : Writes k e
  · simp [hw]
  · simp only [hw, decide_false, Bool.false_eq_true, not_false_eq_true, List.filter_cons_of_neg,
      List.filter_nil, List.append_nil, if_false]
    cases (items.filter fun e => Writes k e).getLast? with
    | some e' => rfl
    | none =>
        cases items.find? fun e => e.1 = k with
        | some e' => rfl
        | none => by_cases hk : e.1 = k <;> simp [hk]

/-- `_sanitize_value` as a lookup: the new value is seen under the key unless
another object is there by now and the value is changed in place. -/
theorem getItem_sanitizeValue (hvalue : key ∉ moved → Dict.getItem key data = some value) :
    Dict.getItem k (sanitizeValue data moved key value) =
      if k = key ∧ (rebinds value = true ∨ key ∉ moved) then some (entryValue value)
      else Dict.getItem k data := by
  have hplace : ∀ w, Dict.getItem k (if key ∈ moved then data else Dict.setItem key w data) =
      if k = key ∧ (False ∨ key ∉ moved) then some w else Dict.getItem k data := by
    intro w
    by_cases hmoved : key ∈ moved
    · simp [hmoved]
    · rw [if_neg hmoved, Dict.getItem_setItem]
      simp [hmoved]
  have hatom : entryValue value = value → sanitizeValue data moved key value = data →
      rebinds value = false → Dict.getItem k (sanitizeValue data moved key value) =
        if k = key ∧ (rebinds value = true ∨ key ∉ moved) then some (entryValue value)
        else Dict.getItem k data := by
    intro hentry hsame hno
    rw [hsame, hentry, hno]
    by_cases hk : k = key ∧ key ∉ moved
    · rw [if_pos ⟨hk.1, .inr hk.2⟩, hk.1, hvalue hk.2]
    · rw [if_neg (by simpa using hk)]
  cases value with
  | none | bool | int | float => exact hatom (by simp [entryValue, sanitizeElement]) (by simp [sanitizeValue]) rfl
  | str | tuple | bytes => simp [sanitizeValue, Dict.getItem_setItem, rebinds, entryValue, sanitizeElement]
  | list elements => simpa [sanitizeValue, rebinds, entryValue, sanitizeElement] using hplace (.list (sanitizeList elements))
  | dict items => simpa [sanitizeValue, rebinds, entryValue, sanitizeElement] using hplace (.dict (sanitizeItems items items []))

/-- What a dict holds under `k` once the entries `items` are done and the
entries `rest` are not. -/
def content (items rest : List (Text × PyValue)) (k : Text) : Option PyValue :=
  if 0 ∈ k then Dict.getItem k rest
  else match survivor items k with
    | some e => some (entryValue e.2)
    | Option.none => Dict.getItem k rest

theorem survivor_key (h : survivor items k = some e) : stripNull e.1 = k ∨ e.1 = k := by
  unfold survivor at h
  split at h
  · rename_i e' hlast
    obtain rfl := Option.some.inj h
    have hmem := List.mem_of_getLast? hlast
    have hwrites : Writes k e' := by simpa using (List.mem_filter.1 hmem).2
    exact .inl hwrites.1
  · have hfound := List.find?_some h
    exact .inr (by simpa using hfound)

theorem survivor_mem (h : survivor items k = some e) : e ∈ items := by
  unfold survivor at h
  split at h
  · rename_i e' hlast
    obtain rfl := Option.some.inj h
    exact (List.mem_filter.1 (List.mem_of_getLast? hlast)).1
  · exact List.mem_of_find?_eq_some h

theorem survivor_eq_none (h : ∀ e ∈ items, stripNull e.1 ≠ k ∧ e.1 ≠ k) : survivor items k = none := by
  cases hs : survivor items k with
  | none => rfl
  | some e =>
      have hne := h e (survivor_mem hs)
      rcases survivor_key hs with hk | hk
      · exact absurd hk hne.1
      · exact absurd hk hne.2

theorem survivor_of_writes (he : e ∈ items) (hw : Writes k e) : ∃ e', survivor items k = some e' := by
  unfold survivor
  cases hlast : (items.filter fun e => Writes k e).getLast? with
  | some e' => exact ⟨e', rfl⟩
  | none =>
      have hnil := List.getLast?_eq_none_iff.1 hlast
      have hmem : e ∈ items.filter fun e => Writes k e := List.mem_filter.2 ⟨he, by simpa using hw⟩
      rw [hnil] at hmem
      cases hmem

/-- The invariant of the loop. -/
theorem getItem_sanitizeItems (done : List (Text × PyValue))
    (hnodup : (keys (done ++ rest)).Nodup)
    (hdata : ∀ k, Dict.getItem k data = content done rest k)
    (hmoved : ∀ k, k ∈ moved ↔ ∃ e ∈ done, 0 ∈ e.1 ∧ stripNull e.1 = k) (k : Text) :
    Dict.getItem k (sanitizeItems rest data moved) = content (done ++ rest) [] k := by
  induction rest generalizing done data moved with
  | nil =>
      rw [sanitizeItems, List.append_nil]
      exact hdata k
  | cons p rest ih =>
      obtain ⟨key, value⟩ := p
      have happend : done ++ (key, value) :: rest = done ++ [(key, value)] ++ rest := by simp
      rw [sanitizeItems, happend]
      -- no other entry has the key
      have hkeys := List.nodup_append.1 (by simpa [keys] using hnodup)
      have hnotDone : ∀ e ∈ done, e.1 ≠ key := fun e he heq => by
        have hdisjoint := hkeys.2.2 e.1 (List.mem_map.2 ⟨e, he, rfl⟩)
        exact hdisjoint key (by simp) heq
      have hnotRest : key ∉ rest.map Prod.fst := (List.nodup_cons.1 hkeys.2.1).1
      have hget : Dict.getItem key ((key, value) :: rest) = some value := by
        rw [Dict.getItem_cons, if_pos rfl]
      have hgetRest : ∀ k, k ≠ key → Dict.getItem k ((key, value) :: rest) = Dict.getItem k rest :=
        fun k hk => by rw [Dict.getItem_cons, if_neg hk]
      have hnone : key ∉ moved → 0 ∉ key → survivor done key = none := fun hnot h0 => by
        refine survivor_eq_none fun e he => ⟨fun hstrip => ?_, hnotDone e he⟩
        by_cases he0 : 0 ∈ e.1
        · exact hnot ((hmoved key).2 ⟨e, he, he0, hstrip⟩)
        · exact hnotDone e he (by rw [← stripNull_of_notMem he0, hstrip])
      have hmovedKey : key ∉ moved → Dict.getItem key data = some value := by
        intro hnot
        rw [hdata, content]
        by_cases h0 : 0 ∈ key
        · rw [if_pos h0, hget]
        · rw [if_neg h0, hnone hnot h0]
          exact hget
      have hvalue : ∀ k, Dict.getItem k (sanitizeValue data moved key value) = _ :=
        fun k => getItem_sanitizeValue hmovedKey
      refine ih (done ++ [(key, value)]) (by rw [← happend]; exact hnodup) ?_ ?_
      · intro k
        by_cases h0 : 0 ∈ key
        · have hnot : key ∉ moved := fun hmem => by
            obtain ⟨e, -, -, hstrip⟩ := (hmoved key).1 hmem
            exact zero_notMem_stripNull e.1 (by rw [hstrip]; exact h0)
          have hkeyValue : Dict.getItem key (sanitizeValue data moved key value) =
              some (entryValue value) := by rw [hvalue, if_pos ⟨rfl, .inr hnot⟩]
          rw [sanitizeKey, if_pos h0, hkeyValue]
          show Dict.getItem k (Dict.setItem _ _ _) = _
          rw [Dict.getItem_setItem, Dict.getItem_eraseItem, hvalue]
          by_cases hk0 : 0 ∈ k
          · have hne : k ≠ stripNull key := fun heq => zero_notMem_stripNull key (heq ▸ hk0)
            rw [if_neg hne, content, if_pos hk0]
            by_cases hk : k = key
            · rw [if_pos hk, hk, Dict.getItem_eq_none hnotRest]
            · rw [if_neg hk, if_neg fun h => hk h.1, hdata, content, if_pos hk0, hgetRest k hk]
          · have hk : k ≠ key := fun heq => hk0 (heq ▸ h0)
            rw [content, if_neg hk0, survivor_append]
            by_cases hstrip : k = stripNull key
            · rw [if_pos hstrip, if_pos ⟨hstrip.symm, .inl h0⟩]
            · rw [if_neg hstrip, if_neg hk, if_neg fun h => hk h.1,
                if_neg fun h : Writes k (key, value) => hstrip h.1.symm, hdata, content, if_neg hk0]
              cases survivor done k with
              | some e => rfl
              | none =>
                  rw [if_neg fun h : key = k => hk h.symm]
                  exact hgetRest k hk
        · rw [sanitizeKey, if_neg h0, hvalue]
          have hstripKey : stripNull key = key := stripNull_of_notMem h0
          by_cases hk : k = key
          · subst hk
            rw [content, if_neg h0, survivor_append]
            by_cases hrebinds : rebinds value = true
            · rw [if_pos ⟨rfl, .inl hrebinds⟩, if_pos ⟨hstripKey, .inr hrebinds⟩]
            · have hnotWrites : ¬ Writes k (k, value) := fun h => h.2.elim h0 hrebinds
              rw [if_neg hnotWrites]
              by_cases hmem : k ∈ moved
              · -- the object of the entry is not in the dict any more
                obtain ⟨e, he, he0, hstrip⟩ := (hmoved k).1 hmem
                obtain ⟨e', he'⟩ := survivor_of_writes he ⟨hstrip, .inl he0⟩
                have hno : ¬ (k = k ∧ (rebinds value = true ∨ k ∉ moved)) :=
                  fun h => h.2.elim hrebinds fun hnot => hnot hmem
                rw [if_neg hno, hdata, content, if_neg h0, he']
              · rw [if_pos ⟨rfl, .inr hmem⟩, hnone hmem h0]
                simp
          · rw [if_neg fun h => hk h.1, hdata, content, content]
            by_cases hk0 : 0 ∈ k
            · rw [if_pos hk0, if_pos hk0, hgetRest k hk]
            · have hnotWrites : ¬ Writes k (key, value) := fun h =>
                hk (by rw [← h.1]; exact hstripKey)
              rw [if_neg hk0, if_neg hk0, survivor_append, if_neg hnotWrites]
              cases survivor done k with
              | some e => rfl
              | none =>
                  rw [if_neg fun h : key = k => hk h.symm]
                  exact hgetRest k hk
      · intro k
        have hmem : (∃ e ∈ done ++ [(key, value)], 0 ∈ e.1 ∧ stripNull e.1 = k) ↔
            (∃ e ∈ done, 0 ∈ e.1 ∧ stripNull e.1 = k) ∨ (0 ∈ key ∧ stripNull key = k) := by
          simp [or_and_right, exists_or]
        rw [hmem, ← hmoved]
        by_cases h0 : 0 ∈ key
        · rw [if_pos h0, List.mem_cons]
          constructor
          · rintro (rfl | h)
            · exact .inr ⟨h0, rfl⟩
            · exact .inl h
          · rintro (h | ⟨-, rfl⟩)
            · exact .inr h
            · exact .inl rfl
        · rw [if_neg h0]
          exact ⟨.inl, fun h => h.resolve_right fun h' => h0 h'.1⟩

/-- What a dict holds in the end: under each key without null bytes the entry
that is kept there, and nothing under other keys. -/
theorem getItem_sanitize (hnodup : (keys items).Nodup) (k : Text) :
    Dict.getItem k (sanitize items) =
      if 0 ∈ k then none else (survivor items k).map fun e => entryValue e.2 := by
  have hstart : ∀ k, Dict.getItem k items = content [] items k := fun k => by
    rw [content]
    have hnone : survivor [] k = none := rfl
    split
    · rfl
    · rw [hnone]
  have hmoved : ∀ k : Text, k ∈ ([] : List Text) ↔
      ∃ e ∈ ([] : List (Text × PyValue)), 0 ∈ e.1 ∧ stripNull e.1 = k := by simp
  have hdone := getItem_sanitizeItems [] hnodup hstart hmoved k
  rw [sanitize, hdone, List.nil_append, content]
  split
  · rfl
  · cases survivor items k <;> rfl

/-- The keys stay distinct. -/
theorem nodup_sanitizeItems (snapshot : List (Text × PyValue)) (hnodup : (keys data).Nodup) :
    (keys (sanitizeItems snapshot data moved)).Nodup := by
  induction snapshot generalizing data moved with
  | nil =>
      rw [sanitizeItems]
      exact hnodup
  | cons p rest ih =>
      obtain ⟨key, value⟩ := p
      rw [sanitizeItems]
      refine ih ?_
      have hvalue : (keys (sanitizeValue data moved key value)).Nodup := by
        cases value with
        | none | bool | int | float => simpa [sanitizeValue] using hnodup
        | str | tuple | bytes =>
            rw [sanitizeValue]
            exact Dict.nodup_setItem hnodup
        | list | dict =>
            rw [sanitizeValue]
            split
            · exact hnodup
            · exact Dict.nodup_setItem hnodup
      unfold sanitizeKey
      split
      · split
        · exact Dict.nodup_setItem (Dict.nodup_eraseItem hvalue)
        · exact hvalue
      · exact hvalue

theorem nodup_sanitize (hnodup : (keys items).Nodup) : (keys (sanitize items)).Nodup :=
  nodup_sanitizeItems items hnodup

/-- The entries in the end are the kept ones, under their keys without null bytes. -/
theorem mem_sanitize (hnodup : (keys items).Nodup) : (k, value) ∈ sanitize items ↔
    0 ∉ k ∧ ∃ e, survivor items k = some e ∧ entryValue e.2 = value := by
  rw [← Dict.getItem_eq_some_iff (nodup_sanitize hnodup), getItem_sanitize hnodup]
  split
  · simp_all
  · simp_all [Option.map_eq_some_iff]

theorem stripNull_of_survivor (hk : 0 ∉ k) (h : survivor items k = some e) : stripNull e.1 = k := by
  rcases survivor_key h with hkey | hkey
  · exact hkey
  · rw [hkey, stripNull_of_notMem hk]

/-! ## What the database accepts -/

/-- A text that can stand in a JSON column: no null byte, and it can be encoded. -/
def Storable (s : Text) : Prop := 0 ∉ s ∧ s.Encodable

mutual

/-- At no depth is there a tuple, a bytes object or a text that is not storable. -/
def Accepted : PyValue → Prop
  | .str s => Storable s
  | .bytes _ => False
  | .tuple _ => False
  | .list elements => AcceptedList elements
  | .dict items => AcceptedItems items
  | _ => True

def AcceptedList : List PyValue → Prop
  | [] => True
  | element :: rest => Accepted element ∧ AcceptedList rest

def AcceptedItems : List (Text × PyValue) → Prop
  | [] => True
  | (key, value) :: rest => Storable key ∧ Accepted value ∧ AcceptedItems rest

end

/-- The entry with this key is the one that is kept under its key without null bytes. -/
def Survives (items : List (Text × PyValue)) (key : Text) : Prop :=
  (survivor items (stripNull key)).map Prod.fst = some key

mutual

/-- The values that `sanitize` makes storable: a bytes object stands in a dict
only, without a null byte, and every key of a dict can be encoded. The entries
that are not kept do not matter. -/
def Fit : PyValue → Prop
  | .bytes b => 0 ∉ b
  | .list elements => FitList elements
  | .tuple elements => FitList elements
  | .dict items => FitItems items items
  | _ => True

def FitList : List PyValue → Prop
  | [] => True
  | element :: rest => (∀ b, element ≠ .bytes b) ∧ Fit element ∧ FitList rest

def FitItems (all : List (Text × PyValue)) : List (Text × PyValue) → Prop
  | [] => True
  | (key, value) :: rest => (Survives all key → key.Encodable ∧ Fit value) ∧ FitItems all rest

end

theorem acceptedItems_iff : AcceptedItems items ↔ ∀ e ∈ items, Storable e.1 ∧ Accepted e.2 := by
  induction items with
  | nil => simp [AcceptedItems]
  | cons p rest ih => simp [AcceptedItems, ih, and_assoc]

theorem wellFormedItems_iff : WellFormedItems items ↔ ∀ e ∈ items, WellFormed e.2 := by
  induction items with
  | nil => simp [WellFormedItems]
  | cons p rest ih => simp [WellFormedItems, ih]

theorem fitItems_iff {all : List (Text × PyValue)} : FitItems all items ↔
    ∀ e ∈ items, Survives all e.1 → e.1.Encodable ∧ Fit e.2 := by
  induction items with
  | nil => simp [FitItems]
  | cons p rest ih => simp [FitItems, ih]

theorem storable_sanitizeString (s : Text) : Storable (sanitizeString s) :=
  ⟨fun h => zero_notMem_stripNull s (Text.zero_mem_encodeReplace.1 h), Text.encodable_encodeReplace⟩

theorem storable_decodeBytes {b : List UInt8} : Storable (decodeBytes b) ↔ 0 ∉ b := by
  have hzero : 0 ∈ b.map UInt8.toNat ↔ 0 ∈ b := by
    rw [List.mem_map]
    constructor
    · rintro ⟨x, hx, hx0⟩
      obtain rfl : x = 0 := UInt8.toNat_inj.1 hx0
      exact hx
    · intro h
      exact ⟨0, h, rfl⟩
  rw [Storable, decodeBytes, Text.zero_mem_decodeReplace, hzero]
  exact ⟨fun h => h.1, fun h => ⟨h, Text.encodable_decodeReplace⟩⟩

theorem encodable_stripNull {s : Text} : (stripNull s).Encodable ↔ s.Encodable := by
  constructor
  · intro h c hc hsurrogate
    have hne : c ≠ 0 := by
      rintro rfl
      exact absurd hsurrogate (by decide)
    exact h c (List.mem_filter.2 ⟨hc, by simpa using hne⟩) hsurrogate
  · exact fun h c hc => h c (List.mem_filter.1 hc).1

/-- A dict is accepted in the end iff the entries that are kept are. -/
theorem accepted_sanitize (hnodup : (keys items).Nodup)
    (hvalues : ∀ e ∈ items, Accepted (entryValue e.2) ↔ Fit e.2) :
    AcceptedItems (sanitize items) ↔ FitItems items items := by
  rw [acceptedItems_iff, fitItems_iff]
  constructor
  · intro h e he hsurvives
    obtain ⟨e', he', hkey⟩ := Option.map_eq_some_iff.1 hsurvives
    -- keys are distinct, so the entry with the key that is kept is this one
    have hsame : e' = e := by
      have hmem := survivor_mem he'
      have hvalue : some e'.2 = some e.2 := by
        rw [← (Dict.getItem_eq_some_iff hnodup).2 (show (e.1, e.2) ∈ items from he),
          ← (Dict.getItem_eq_some_iff hnodup).2 (show (e'.1, e'.2) ∈ items from hmem), hkey]
      exact Prod.ext hkey (Option.some.inj hvalue)
    subst hsame
    have hin : (stripNull e'.1, entryValue e'.2) ∈ sanitize items :=
      (mem_sanitize hnodup).2 ⟨zero_notMem_stripNull _, e', he', rfl⟩
    have haccepted := h _ hin
    exact ⟨encodable_stripNull.1 haccepted.1.2, (hvalues e' he).1 haccepted.2⟩
  · rintro h ⟨k, w⟩ hmem
    obtain ⟨hk, e, he, rfl⟩ := (mem_sanitize hnodup).1 hmem
    have hstrip := stripNull_of_survivor hk he
    have hin := survivor_mem he
    have hsurvives : Survives items e.1 := by rw [Survives, hstrip, he, Option.map_some]
    have hfit := h e hin hsurvives
    refine ⟨⟨hk, ?_⟩, (hvalues e hin).2 hfit.2⟩
    have hencodable := encodable_stripNull.2 hfit.1
    rwa [hstrip] at hencodable

mutual

/-- What becomes of a value is accepted iff the value is fit. -/
theorem accepted_entryValue : ∀ value, WellFormed value → (Accepted (entryValue value) ↔ Fit value)
  | .none, _ => by simp [entryValue, sanitizeElement, Accepted, Fit]
  | .bool _, _ => by simp [entryValue, sanitizeElement, Accepted, Fit]
  | .int _, _ => by simp [entryValue, sanitizeElement, Accepted, Fit]
  | .float _, _ => by simp [entryValue, sanitizeElement, Accepted, Fit]
  | .str s, _ => by simpa [entryValue, sanitizeElement, Accepted, Fit] using storable_sanitizeString s
  | .bytes b, _ => by simpa [entryValue, Accepted, Fit] using storable_decodeBytes
  | .list elements, h => by
      simpa [entryValue, sanitizeElement, Accepted, Fit] using
        accepted_sanitizeList elements (by simpa [WellFormed] using h)
  | .tuple elements, h => by
      simpa [entryValue, sanitizeElement, Accepted, Fit] using
        accepted_sanitizeList elements (by simpa [WellFormed] using h)
  | .dict items, h => by
      have h : (keys items).Nodup ∧ WellFormedItems items := by simpa [WellFormed] using h
      simpa [entryValue, sanitizeElement, Accepted, Fit, sanitize] using
        accepted_sanitize h.1 (accepted_entries items h.2)

theorem accepted_sanitizeList : ∀ elements, WellFormedList elements →
    (AcceptedList (sanitizeList elements) ↔ FitList elements)
  | [], _ => by simp [sanitizeList, AcceptedList, FitList]
  | element :: rest, h => by
      have h : WellFormed element ∧ WellFormedList rest := by simpa [WellFormedList] using h
      have hrest := accepted_sanitizeList rest h.2
      have helement := accepted_entryValue element h.1
      rw [sanitizeList, AcceptedList, FitList, hrest, ← helement]
      cases element with
      | bytes b => simp [sanitizeElement, Accepted]
      | _ => simp [entryValue]

theorem accepted_entries : ∀ items, WellFormedItems items →
    ∀ e ∈ items, Accepted (entryValue e.2) ↔ Fit e.2
  | [], _ => by simp
  | (key, value) :: rest, h => by
      have h : WellFormed value ∧ WellFormedItems rest := by simpa [WellFormedItems] using h
      have hvalue := accepted_entryValue value h.1
      have hrest := accepted_entries rest h.2
      intro e he
      rcases List.mem_cons.1 he with rfl | he
      · exact hvalue
      · exact hrest e he

end

/-- The result of an analysis: a dict that is well formed at every depth. -/
structure Result where
  items : List (Text × PyValue)
  wellFormed : WellFormed (.dict items)

theorem Result.nodup (result : Result) : (keys result.items).Nodup := by
  have h := result.wellFormed
  rw [WellFormed] at h
  exact h.1

theorem Result.wellFormedItems (result : Result) : WellFormedItems result.items := by
  have h := result.wellFormed
  rw [WellFormed] at h
  exact h.2

/-- `sanitize` leaves something the database accepts iff the result is fit for it. -/
theorem sanitize_accepted_iff (result : Result) :
    AcceptedItems (sanitize result.items) ↔ FitItems result.items result.items :=
  accepted_sanitize result.nodup (accepted_entries result.items result.wellFormedItems)

/-- `{'a': [b'x']}` -/
def bytesInList : Result where
  items := [([0x61], .list [.bytes [0x78]])]
  wellFormed := by simp [WellFormed, WellFormedItems, WellFormedList, keys]

/-- A bytes object in a list is not replaced. -/
theorem bytesInList_not_accepted : ¬ AcceptedItems (sanitize bytesInList.items) := by
  have hsame : sanitize bytesInList.items = [([0x61], .list [.bytes [0x78]])] := rfl
  rw [hsame]
  simp [AcceptedItems, Accepted, AcceptedList]

/-! ## Nothing is lost -/

mutual

/-- No bytes object occurs in a value. -/
def BytesFree : PyValue → Prop
  | .bytes _ => False
  | .list elements => BytesFreeList elements
  | .tuple elements => BytesFreeList elements
  | .dict items => BytesFreeItems items
  | _ => True

def BytesFreeList : List PyValue → Prop
  | [] => True
  | element :: rest => BytesFree element ∧ BytesFreeList rest

def BytesFreeItems : List (Text × PyValue) → Prop
  | [] => True
  | (_, value) :: rest => BytesFree value ∧ BytesFreeItems rest

end

mutual

/-- `Kept v w`: the value `w` is the sanitized form of `v`, and every dict in it
has as many entries as the dict it comes from, each with the sanitized form of
the value it had. -/
def Kept : PyValue → PyValue → Prop
  | .str s, w => w = .str (sanitizeString s)
  | .tuple elements, w => ∃ elements', w = .list elements' ∧ KeptList elements elements'
  | .list elements, w => ∃ elements', w = .list elements' ∧ KeptList elements elements'
  | .dict items, w => ∃ items', w = .dict items' ∧ items'.length = items.length ∧ KeptItems items items'
  | v, w => w = v

def KeptList : List PyValue → List PyValue → Prop
  | [], elements' => elements' = []
  | element :: rest, elements' =>
      ∃ element' rest', elements' = element' :: rest' ∧ Kept element element' ∧ KeptList rest rest'

def KeptItems : List (Text × PyValue) → List (Text × PyValue) → Prop
  | [], _ => True
  | (key, value) :: rest, items' =>
      (∃ w, Dict.getItem (stripNull key) items' = some w ∧ Kept value w) ∧ KeptItems rest items'

end

mutual

/-- In every dict, at any depth, the keys are still distinct without their null bytes. -/
def Apart : PyValue → Prop
  | .list elements => ApartList elements
  | .tuple elements => ApartList elements
  | .dict items => ((keys items).map stripNull).Nodup ∧ ApartItems items
  | _ => True

def ApartList : List PyValue → Prop
  | [] => True
  | element :: rest => Apart element ∧ ApartList rest

def ApartItems : List (Text × PyValue) → Prop
  | [] => True
  | (_, value) :: rest => Apart value ∧ ApartItems rest

end

theorem keptItems_iff {items' : List (Text × PyValue)} : KeptItems items items' ↔
    ∀ e ∈ items, ∃ w, Dict.getItem (stripNull e.1) items' = some w ∧ Kept e.2 w := by
  induction items with
  | nil => simp [KeptItems]
  | cons p rest ih => simp [KeptItems, ih]

theorem apartItems_iff : ApartItems items ↔ ∀ e ∈ items, Apart e.2 := by
  induction items with
  | nil => simp [ApartItems]
  | cons p rest ih => simp [ApartItems, ih]

/-- The keys in the end are the keys without their null bytes. -/
theorem mem_keys_sanitize (hnodup : (keys items).Nodup) :
    k ∈ keys (sanitize items) ↔ k ∈ (keys items).map stripNull := by
  constructor
  · intro h
    obtain ⟨⟨k', w⟩, hmem, rfl⟩ := List.mem_map.1 h
    obtain ⟨hk, e, he, -⟩ := (mem_sanitize hnodup).1 hmem
    refine List.mem_map.2 ⟨e.1, List.mem_map.2 ⟨e, survivor_mem he, rfl⟩, ?_⟩
    exact stripNull_of_survivor hk he
  · intro h
    obtain ⟨key, hkey, rfl⟩ := List.mem_map.1 h
    obtain ⟨e, he, rfl⟩ := List.mem_map.1 hkey
    have hsome : ∃ e', survivor items (stripNull e.1) = some e' := by
      by_cases h0 : 0 ∈ e.1
      · exact survivor_of_writes he ⟨rfl, .inl h0⟩
      · rw [stripNull_of_notMem h0]
        unfold survivor
        split
        · exact ⟨_, rfl⟩
        · have hfound : (items.find? fun e' => e'.1 = e.1).isSome = true := by
            rw [List.find?_isSome]
            exact ⟨e, he, by simp⟩
          exact Option.isSome_iff_exists.1 hfound
    obtain ⟨e', he'⟩ := hsome
    exact List.mem_map.2 ⟨(stripNull e.1, entryValue e'.2),
      (mem_sanitize hnodup).2 ⟨zero_notMem_stripNull _, e', he', rfl⟩, rfl⟩

/-- A dict keeps the number of its entries iff no two keys become equal. -/
theorem length_sanitize (hnodup : (keys items).Nodup) :
    (sanitize items).length = items.length ↔ ((keys items).map stripNull).Nodup := by
  have hlen : (sanitize items).length = (keys (sanitize items)).length := by simp [keys]
  have hlen' : items.length = ((keys items).map stripNull).length := by simp [keys]
  have hset : (keys (sanitize items)).toFinset = ((keys items).map stripNull).toFinset := by
    ext k
    rw [List.mem_toFinset, List.mem_toFinset, mem_keys_sanitize hnodup]
  rw [hlen, hlen', ← List.toFinset_card_of_nodup (nodup_sanitize hnodup), hset]
  constructor
  · intro hcard
    rw [List.card_toFinset] at hcard
    rw [← List.dedup_eq_self]
    exact (List.dedup_sublist _).eq_of_length hcard
  · exact List.toFinset_card_of_nodup

/-- If the keys stay distinct, every entry is the one that is kept. -/
theorem survivor_of_nodup (hapart : ((keys items).map stripNull).Nodup)
    (hnodup : (keys items).Nodup) (he : e ∈ items) : survivor items (stripNull e.1) = some e := by
  have hmem : stripNull e.1 ∈ keys (sanitize items) := by
    rw [mem_keys_sanitize hnodup]
    exact List.mem_map.2 ⟨e.1, List.mem_map.2 ⟨e, he, rfl⟩, rfl⟩
  obtain ⟨⟨k, w⟩, hitem, hk⟩ := List.mem_map.1 hmem
  obtain ⟨hk0, e', he', -⟩ := (mem_sanitize hnodup).1 hitem
  have hk : k = stripNull e.1 := hk
  have hinj : Set.InjOn (fun e : Text × PyValue => stripNull e.1) {e | e ∈ items} := by
    have hmap : (items.map fun e => stripNull e.1).Nodup := by
      simpa [keys, Function.comp_def] using hapart
    exact fun a ha b hb heq => List.inj_on_of_nodup_map hmap ha hb heq
  have hstrip := stripNull_of_survivor hk0 he'
  obtain rfl : e' = e := hinj (survivor_mem he') he (hstrip.trans hk)
  rw [← hk]
  exact he'

/-- Every dict keeps its entries iff the keys stay distinct in it. -/
theorem kept_sanitize (hnodup : (keys items).Nodup)
    (hvalues : ∀ e ∈ items, Kept e.2 (entryValue e.2) ↔ Apart e.2) :
    ((sanitize items).length = items.length ∧ KeptItems items (sanitize items)) ↔
      ((keys items).map stripNull).Nodup ∧ ApartItems items := by
  rw [length_sanitize hnodup, keptItems_iff, apartItems_iff]
  refine and_congr_right fun hapart => forall_congr' fun e => forall_congr' fun he => ?_
  rw [getItem_sanitize hnodup, if_neg (zero_notMem_stripNull _), survivor_of_nodup hapart hnodup he,
    Option.map_some, ← hvalues e he]
  constructor
  · rintro ⟨w, hw, hkept⟩
    rwa [Option.some.inj hw]
  · exact fun hkept => ⟨_, rfl, hkept⟩

mutual

theorem kept_entryValue : ∀ value, WellFormed value → BytesFree value →
    (Kept value (entryValue value) ↔ Apart value)
  | .none, _, _ => by simp [entryValue, sanitizeElement, Kept, Apart]
  | .bool _, _, _ => by simp [entryValue, sanitizeElement, Kept, Apart]
  | .int _, _, _ => by simp [entryValue, sanitizeElement, Kept, Apart]
  | .float _, _, _ => by simp [entryValue, sanitizeElement, Kept, Apart]
  | .str s, _, _ => by simp [entryValue, sanitizeElement, Kept, Apart]
  | .bytes b, _, hfree => by simp [BytesFree] at hfree
  | .list elements, h, hfree => by
      simpa [entryValue, sanitizeElement, Kept, Apart] using
        kept_sanitizeList elements (by simpa [WellFormed] using h) (by simpa [BytesFree] using hfree)
  | .tuple elements, h, hfree => by
      simpa [entryValue, sanitizeElement, Kept, Apart] using
        kept_sanitizeList elements (by simpa [WellFormed] using h) (by simpa [BytesFree] using hfree)
  | .dict items, h, hfree => by
      have h : (keys items).Nodup ∧ WellFormedItems items := by simpa [WellFormed] using h
      have hfree : BytesFreeItems items := by simpa [BytesFree] using hfree
      simpa [entryValue, sanitizeElement, Kept, Apart, sanitize] using
        kept_sanitize h.1 (kept_entries items h.2 hfree)

theorem kept_sanitizeList : ∀ elements, WellFormedList elements → BytesFreeList elements →
    (KeptList elements (sanitizeList elements) ↔ ApartList elements)
  | [], _, _ => by simp [sanitizeList, KeptList, ApartList]
  | element :: rest, h, hfree => by
      have h : WellFormed element ∧ WellFormedList rest := by simpa [WellFormedList] using h
      have hfree : BytesFree element ∧ BytesFreeList rest := by simpa [BytesFreeList] using hfree
      have hrest := kept_sanitizeList rest h.2 hfree.2
      have helement := kept_entryValue element h.1 hfree.1
      have hsame : sanitizeElement element = entryValue element := by
        cases element with
        | bytes b => simp [BytesFree] at hfree
        | _ => rfl
      rw [sanitizeList, ApartList, KeptList, ← hrest, ← helement, hsame]
      simp

theorem kept_entries : ∀ items, WellFormedItems items → BytesFreeItems items →
    ∀ e ∈ items, Kept e.2 (entryValue e.2) ↔ Apart e.2
  | [], _, _ => by simp
  | (key, value) :: rest, h, hfree => by
      have h : WellFormed value ∧ WellFormedItems rest := by simpa [WellFormedItems] using h
      have hfree : BytesFree value ∧ BytesFreeItems rest := by simpa [BytesFreeItems] using hfree
      have hvalue := kept_entryValue value h.1 hfree.1
      have hrest := kept_entries rest h.2 hfree.2
      intro e he
      rcases List.mem_cons.1 he with rfl | he
      · exact hvalue
      · exact hrest e he

end

/-! ## What is left unchanged -/

mutual

/-- A value in which there is nothing to sanitize. Keys that cannot be encoded
are not looked at. -/
def Settled : PyValue → Prop
  | .str s => Storable s
  | .bytes _ => False
  | .tuple _ => False
  | .list elements => SettledList elements
  | .dict items => SettledItems items
  | _ => True

def SettledList : List PyValue → Prop
  | [] => True
  | element :: rest => Settled element ∧ SettledList rest

def SettledItems : List (Text × PyValue) → Prop
  | [] => True
  | (key, value) :: rest => 0 ∉ key ∧ Settled value ∧ SettledItems rest

end

theorem settledItems_iff : SettledItems items ↔ ∀ e ∈ items, 0 ∉ e.1 ∧ Settled e.2 := by
  induction items with
  | nil => simp [SettledItems]
  | cons p rest ih => simp [SettledItems, ih, and_assoc]

theorem sanitizeString_of_storable {s : Text} (h : Storable s) : sanitizeString s = s := by
  rw [sanitizeString, stripNull_of_notMem h.1, Text.encodeReplace_of_encodable h.2]

/-- A walk over entries that hold what they would be assigned. -/
theorem sanitizeItems_of_settled (hkeys : ∀ e ∈ rest, 0 ∉ e.1)
    (hvalues : ∀ e ∈ rest, entryValue e.2 = e.2)
    (hdata : ∀ e ∈ rest, Dict.getItem e.1 data = some e.2) :
    sanitizeItems rest data [] = data := by
  induction rest with
  | nil => rw [sanitizeItems]
  | cons p rest ih =>
      obtain ⟨key, value⟩ := p
      have h0 : 0 ∉ key := hkeys _ List.mem_cons_self
      have hentry : entryValue value = value := hvalues _ List.mem_cons_self
      have hget : Dict.getItem key data = some value := hdata _ List.mem_cons_self
      have hvalue : sanitizeValue data [] key value = data := by
        have hset := Dict.setItem_of_getItem hget
        cases value with
        | none | bool | int | float => simp [sanitizeValue]
        | str | tuple | bytes | list | dict =>
            simp only [entryValue, sanitizeElement] at hentry
            simp only [sanitizeValue, List.not_mem_nil, if_false, hentry]
            exact hset
      rw [sanitizeItems, hvalue, if_neg h0, sanitizeKey, if_neg h0]
      exact ih (fun e he => hkeys e (List.mem_cons_of_mem _ he))
        (fun e he => hvalues e (List.mem_cons_of_mem _ he))
        (fun e he => hdata e (List.mem_cons_of_mem _ he))

theorem sanitize_of_settled (hnodup : (keys items).Nodup) (hkeys : ∀ e ∈ items, 0 ∉ e.1)
    (hvalues : ∀ e ∈ items, entryValue e.2 = e.2) : sanitize items = items :=
  sanitizeItems_of_settled hkeys hvalues fun _ he => (Dict.getItem_eq_some_iff hnodup).2 he

mutual

theorem entryValue_of_settled : ∀ value, WellFormed value → Settled value → entryValue value = value
  | .none, _, _ => rfl
  | .bool _, _, _ => rfl
  | .int _, _, _ => rfl
  | .float _, _, _ => rfl
  | .str s, _, hs => by
      rw [entryValue, sanitizeElement, sanitizeString_of_storable (by simpa [Settled] using hs)]
      simp
  | .bytes b, _, hs => by simp [Settled] at hs
  | .tuple elements, _, hs => by simp [Settled] at hs
  | .list elements, h, hs => by
      have hlist := sanitizeList_of_settled elements (by simpa [WellFormed] using h)
        (by simpa [Settled] using hs)
      simp [entryValue, sanitizeElement, hlist]
  | .dict items, h, hs => by
      have h : (keys items).Nodup ∧ WellFormedItems items := by simpa [WellFormed] using h
      have hs : SettledItems items := by simpa [Settled] using hs
      have hvalues := entries_of_settled items h.2 hs
      have hsame := sanitize_of_settled h.1 (fun e he => (settledItems_iff.1 hs e he).1) hvalues
      rw [sanitize] at hsame
      simp [entryValue, sanitizeElement, hsame]

theorem sanitizeList_of_settled : ∀ elements, WellFormedList elements → SettledList elements →
    sanitizeList elements = elements
  | [], _, _ => by rw [sanitizeList]
  | element :: rest, h, hs => by
      have h : WellFormed element ∧ WellFormedList rest := by simpa [WellFormedList] using h
      have hs : Settled element ∧ SettledList rest := by simpa [SettledList] using hs
      have helement := entryValue_of_settled element h.1 hs.1
      have hrest := sanitizeList_of_settled rest h.2 hs.2
      have hsame : sanitizeElement element = entryValue element := by
        cases element with
        | bytes b => simp [Settled] at hs
        | _ => rfl
      rw [sanitizeList, hsame, helement, hrest]

theorem entries_of_settled : ∀ items, WellFormedItems items → SettledItems items →
    ∀ e ∈ items, entryValue e.2 = e.2
  | [], _, _ => by simp
  | (key, value) :: rest, h, hs => by
      have h : WellFormed value ∧ WellFormedItems rest := by simpa [WellFormedItems] using h
      have hs : 0 ∉ key ∧ Settled value ∧ SettledItems rest := by simpa [SettledItems] using hs
      have hvalue := entryValue_of_settled value h.1 hs.2.1
      have hrest := entries_of_settled rest h.2 hs.2.2
      intro e he
      rcases List.mem_cons.1 he with rfl | he
      · exact hvalue
      · exact hrest e he

end

/-- What a dict has become is settled if its values are. -/
theorem settled_sanitize (hnodup : (keys items).Nodup)
    (hvalues : ∀ e ∈ items, WellFormed (entryValue e.2) ∧ Settled (entryValue e.2)) :
    WellFormed (.dict (sanitize items)) ∧ Settled (.dict (sanitize items)) := by
  have hitem : ∀ e ∈ sanitize items, 0 ∉ e.1 ∧ WellFormed e.2 ∧ Settled e.2 := by
    rintro ⟨k, w⟩ hmem
    obtain ⟨hk, e, he, rfl⟩ := (mem_sanitize hnodup).1 hmem
    exact ⟨hk, hvalues e (survivor_mem he)⟩
  rw [WellFormed, Settled, wellFormedItems_iff, settledItems_iff]
  exact ⟨⟨nodup_sanitize hnodup, fun e he => (hitem e he).2.1⟩,
    fun e he => ⟨(hitem e he).1, (hitem e he).2.2⟩⟩

mutual

theorem settled_entryValue : ∀ value, WellFormed value → BytesFree value →
    WellFormed (entryValue value) ∧ Settled (entryValue value)
  | .none, _, _ => by simp [entryValue, sanitizeElement, WellFormed, Settled]
  | .bool _, _, _ => by simp [entryValue, sanitizeElement, WellFormed, Settled]
  | .int _, _, _ => by simp [entryValue, sanitizeElement, WellFormed, Settled]
  | .float _, _, _ => by simp [entryValue, sanitizeElement, WellFormed, Settled]
  | .str s, _, _ => by
      simpa [entryValue, sanitizeElement, WellFormed, Settled] using storable_sanitizeString s
  | .bytes b, _, hfree => by simp [BytesFree] at hfree
  | .list elements, h, hfree => by
      simpa [entryValue, sanitizeElement, WellFormed, Settled] using
        settled_sanitizeList elements (by simpa [WellFormed] using h) (by simpa [BytesFree] using hfree)
  | .tuple elements, h, hfree => by
      simpa [entryValue, sanitizeElement, WellFormed, Settled] using
        settled_sanitizeList elements (by simpa [WellFormed] using h) (by simpa [BytesFree] using hfree)
  | .dict items, h, hfree => by
      have h : (keys items).Nodup ∧ WellFormedItems items := by simpa [WellFormed] using h
      have hfree : BytesFreeItems items := by simpa [BytesFree] using hfree
      simpa [entryValue, sanitizeElement, sanitize] using
        settled_sanitize h.1 (settled_entries items h.2 hfree)

theorem settled_sanitizeList : ∀ elements, WellFormedList elements → BytesFreeList elements →
    WellFormedList (sanitizeList elements) ∧ SettledList (sanitizeList elements)
  | [], _, _ => by simp [sanitizeList, WellFormedList, SettledList]
  | element :: rest, h, hfree => by
      have h : WellFormed element ∧ WellFormedList rest := by simpa [WellFormedList] using h
      have hfree : BytesFree element ∧ BytesFreeList rest := by simpa [BytesFreeList] using hfree
      have helement := settled_entryValue element h.1 hfree.1
      have hrest := settled_sanitizeList rest h.2 hfree.2
      have hsame : sanitizeElement element = entryValue element := by
        cases element with
        | bytes b => simp [BytesFree] at hfree
        | _ => rfl
      rw [sanitizeList, hsame, WellFormedList, SettledList]
      exact ⟨⟨helement.1, hrest.1⟩, helement.2, hrest.2⟩

theorem settled_entries : ∀ items, WellFormedItems items → BytesFreeItems items →
    ∀ e ∈ items, WellFormed (entryValue e.2) ∧ Settled (entryValue e.2)
  | [], _, _ => by simp
  | (key, value) :: rest, h, hfree => by
      have h : WellFormed value ∧ WellFormedItems rest := by simpa [WellFormedItems] using h
      have hfree : BytesFree value ∧ BytesFreeItems rest := by simpa [BytesFreeItems] using hfree
      have hvalue := settled_entryValue value h.1 hfree.1
      have hrest := settled_entries rest h.2 hfree.2
      intro e he
      rcases List.mem_cons.1 he with rfl | he
      · exact hvalue
      · exact hrest e he

end

mutual

theorem settled_of_accepted : ∀ value, Accepted value → Settled value
  | .none, _ => by simp [Settled]
  | .bool _, _ => by simp [Settled]
  | .int _, _ => by simp [Settled]
  | .float _, _ => by simp [Settled]
  | .str s, h => by simpa [Settled, Accepted] using h
  | .bytes b, h => by simp [Accepted] at h
  | .tuple elements, h => by simp [Accepted] at h
  | .list elements, h => by
      simpa [Settled] using settledList_of_accepted elements (by simpa [Accepted] using h)
  | .dict items, h => by
      simpa [Settled] using settledItems_of_accepted items (by simpa [Accepted] using h)

theorem settledList_of_accepted : ∀ elements, AcceptedList elements → SettledList elements
  | [], _ => by simp [SettledList]
  | element :: rest, h => by
      have h : Accepted element ∧ AcceptedList rest := by simpa [AcceptedList] using h
      rw [SettledList]
      exact ⟨settled_of_accepted element h.1, settledList_of_accepted rest h.2⟩

theorem settledItems_of_accepted : ∀ items, AcceptedItems items → SettledItems items
  | [], _ => by simp [SettledItems]
  | (key, value) :: rest, h => by
      have h : Storable key ∧ Accepted value ∧ AcceptedItems rest := by simpa [AcceptedItems] using h
      rw [SettledItems]
      exact ⟨h.1.1, settled_of_accepted value h.2.1, settledItems_of_accepted rest h.2.2⟩

end

/-- On a result without bytes: nothing is lost, an acceptable result is left as
it is and a second call changes nothing, iff no two keys of a dict differ only
in null bytes. -/
theorem sanitize_keeps_iff (result : Result) (hfree : BytesFreeItems result.items) :
    (Kept (.dict result.items) (.dict (sanitize result.items)) ∧
      (AcceptedItems result.items → sanitize result.items = result.items) ∧
      sanitize (sanitize result.items) = sanitize result.items) ↔ Apart (.dict result.items) := by
  have hkept := kept_sanitize result.nodup (kept_entries result.items result.wellFormedItems hfree)
  have hunchanged : ∀ {items}, WellFormed (.dict items) → Settled (.dict items) →
      sanitize items = items := by
    intro items hwf hsettled
    have hsame := entryValue_of_settled (.dict items) hwf hsettled
    simpa [entryValue, sanitizeElement, sanitize] using hsame
  have hagain := settled_sanitize result.nodup
    (settled_entries result.items result.wellFormedItems hfree)
  rw [Apart, ← hkept, Kept]
  constructor
  · rintro ⟨⟨items', heq, hlen, hitems⟩, -⟩
    obtain rfl : sanitize result.items = items' := by simpa using heq
    exact ⟨hlen, hitems⟩
  · rintro ⟨hlen, hitems⟩
    refine ⟨⟨_, rfl, hlen, hitems⟩, fun haccepted => ?_, hunchanged hagain.1 hagain.2⟩
    refine hunchanged result.wellFormed ?_
    rw [Settled]
    exact settledItems_of_accepted result.items haccepted

/-- `{'a\0': 1, 'a': 2}` -/
def collidingKeys : Result where
  items := [([0x61, 0], .int 1), ([0x61], .int 2)]
  wellFormed := by simp [WellFormed, WellFormedItems, keys]

/-- Of two keys that differ in a null byte only one is kept. -/
theorem collidingKeys_loses_entry :
    ¬ Kept (.dict collidingKeys.items) (.dict (sanitize collidingKeys.items)) := by
  have hsame : sanitize collidingKeys.items = [([0x61], .int 1)] := rfl
  rw [hsame, Kept]
  rintro ⟨items', heq, hlen, -⟩
  obtain rfl : [([0x61], PyValue.int 1)] = items' := by simpa using heq
  exact absurd hlen (by decide)

/-- `{'ab': ['x', {'c\0': 1}]}` -/
def nestedResult : Result where
  items := [([0x61, 0x62], .list [.str [0x78], .dict [([0x63, 0], .int 1)]])]
  wellFormed := by simp [WellFormed, WellFormedItems, WellFormedList, keys]

theorem nestedResult_free : BytesFreeItems nestedResult.items := by
  simp [nestedResult, BytesFreeItems, BytesFree, BytesFreeList]

theorem sanitize_keeps_nested :
    (Kept (.dict nestedResult.items) (.dict (sanitize nestedResult.items)) ∧
      (AcceptedItems nestedResult.items → sanitize nestedResult.items = nestedResult.items) ∧
      sanitize (sanitize nestedResult.items) = sanitize nestedResult.items) ↔
        Apart (.dict nestedResult.items) :=
  sanitize_keeps_iff nestedResult nestedResult_free

end EntryConversion

end FactCore
