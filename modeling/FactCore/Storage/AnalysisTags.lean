import FactCore.Storage.AnalysisQueries

/-! # The tags of a firmware

A plugin returns a list of tags. `get_analysis` of `analysis/plugin/plugin.py` stores them
under their names, one list for each file, and `_collect_analysis_tags_from_children` of
`storage/db_interface_common.py` merges what was stored for all files of a firmware. A tag
with a name that is taken gets a key with a number. Both steps may overwrite a tag.

The rows of the query come in any order. What has been merged is compared with the tags
that were processed after every one of them.
-/

namespace FactCore

namespace AnalysisDb

/-! ## From the plugin to the firmware -/

/-- `PLUGINS_WITH_TAG_PROPAGATION`. -/
def pluginsWithTagPropagation : List Plugin :=
  ["crypto_material", "cve_lookup", "known_vulnerabilities", "qemu_exec", "software_components",
    "users_and_passwords"]

/-- The tags of `get_tags`, each with its name, as `get_analysis` puts them into a dictionary. -/
def tagsDict (tags : List (String × Tag)) : Dict String Tag :=
  tags.foldl (fun tagsDict tag => tagsDict.set tag.1 tag.2) ∅

/-- A row of the query: the file, the plugin and the tags. -/
abbrev TagRow := Uid × Plugin × Dict String Tag

/-- The query of `_collect_analysis_tags_from_children`. -/
def tagRows (db : AnalysisDb) (uid : Uid) : List TagRow :=
  let files := db.fileObject.items.filter (db.inFirmware uid)
  let rows := Relation.join (fun fo entry => decide (fo.1 = entry.1.1)) files db.analysis.items
  rows.filterMap fun row =>
    -- a comparison with null is not true
    if row.2.1.2 ∈ pluginsWithTagPropagation then row.2.2.tags.map fun tags => (row.1.1, row.2.1.2, tags)
    else none

/-- `unique_tags`. -/
abbrev UniqueTags := Dict Plugin (Dict String Tag)

/-- The tags that have been collected for a plugin. -/
def collected (uniqueTags : UniqueTags) (plugin : Plugin) : Dict String Tag :=
  (uniqueTags.get? plugin).getD ∅

/-- The key under which a tag is collected. -/
def tagKey (tags : Dict String Tag) (tagType : String) (tag : Tag) : String :=
  if tagType ∈ tags ∧ tag ∉ tags.values then tagType ++ "-" ++ toString tags.items.length else tagType

/-- The body of the inner loop. -/
def addTag (uniqueTags : UniqueTags) (plugin : Plugin) (tagType : String) (tag : Tag) : UniqueTags :=
  if tagType = "root_uid" ∨ tag.propagate = false then uniqueTags
  else
    let tags := collected uniqueTags plugin
    uniqueTags.set plugin (tags.set (tagKey tags tagType tag) tag)

/-- `_collect_analysis_tags_from_children`, over the rows in the order in which they arrive. -/
def collectAnalysisTagsFromChildren (rows : List TagRow) : UniqueTags :=
  rows.foldl (fun uniqueTags row =>
    row.2.2.items.foldl (fun uniqueTags entry => addTag uniqueTags row.2.1 entry.1 entry.2) uniqueTags) ∅

/-! ## One tag after the other -/

/-- A tag that is processed: the plugin, the name and the rest. -/
abbrev TagStep := Plugin × String × Tag

/-- The tags of all rows in their order. -/
def tagSteps (rows : List TagRow) : List TagStep :=
  rows.flatMap fun row => row.2.2.items.map fun entry => (row.2.1, entry)

/-- What has been collected after some tags. -/
def collect (steps : List TagStep) : UniqueTags :=
  steps.foldl (fun uniqueTags step => addTag uniqueTags step.1 step.2.1 step.2.2) ∅

theorem collectAnalysisTagsFromChildren_eq (rows : List TagRow) :
    collectAnalysisTagsFromChildren rows = collect (tagSteps rows) := by
  rw [collectAnalysisTagsFromChildren, collect, tagSteps, List.foldl_flatMap]
  simp only [List.foldl_map]

theorem collect_append (steps : List TagStep) (step : TagStep) :
    collect (steps ++ [step]) = addTag (collect steps) step.1 step.2.1 step.2.2 := by
  rw [collect, List.foldl_append]
  rfl

/-! ## What is collected -/

/-- A key under which a tag with the name may be shown: the name, maybe with a number. -/
def KeyOf (name key : String) : Prop := key = name ∨ ∃ n : Nat, key = name ++ "-" ++ toString n

/-- The entries of a dictionary are the tags of `P`, each of them exactly once, under its
name and maybe a number. -/
def Shows (tags : Dict String Tag) (P : String × Tag → Prop) : Prop :=
  ∃ l : List (String × Tag), l.Nodup ∧ (∀ x, x ∈ l ↔ P x) ∧
    List.Forall₂ (fun entry x => KeyOf x.1 entry.1 ∧ entry.2 = x.2) tags.items l

/-- The propagated tags of a plugin that have been processed. -/
def Processed (steps : List TagStep) (plugin : Plugin) (x : String × Tag) : Prop :=
  (plugin, x) ∈ steps ∧ x.2.propagate = true

variable {steps done rest : List TagStep} {step : TagStep} {plugin plugin' : Plugin} {name : String} {tag : Tag}
  {tags : Dict String Tag} {P Q : String × Tag → Prop} {uniqueTags : UniqueTags}

/-- The condition on one step: the tag is not called `root_uid`, and its name is new, or
the tag is new and so is its key, or it stands under its name already. -/
def GoodStep (done : List TagStep) (step : TagStep) : Prop :=
  step.2.2.propagate = true → step.2.1 ≠ "root_uid" ∧
    let tags := collected (collect done) step.1
    (step.2.1 ∉ tags ∨
      (step.2.2 ∉ tags.values ∧ step.2.1 ++ "-" ++ toString tags.items.length ∉ tags) ∨
      (tags.get? step.2.1 = some step.2.2 ∧ step ∈ done))

/-! ## Comparing entries and tags -/

theorem Shows.congr (h : Shows tags P) (hPQ : ∀ x, P x ↔ Q x) : Shows tags Q := by
  obtain ⟨l, hnodup, hl, hentries⟩ := h
  exact ⟨l, hnodup, fun x => (hl x).trans (hPQ x), hentries⟩

/-- The contents of the entries are those of the tags. -/
theorem values_eq_of_forall₂ {items l : List (String × Tag)}
    (h : List.Forall₂ (fun entry x => KeyOf x.1 entry.1 ∧ entry.2 = x.2) items l) :
    items.map Prod.snd = l.map Prod.snd := by
  induction h with
  | nil => rfl
  | cons hentry _ ih => rw [List.map_cons, List.map_cons, hentry.2, ih]

/-- Nothing but one set of tags is shown. -/
theorem Shows.perm {items items' : Dict String Tag} {l l' : List (String × Tag)} (hnodup : l.Nodup)
    (hnodup' : l'.Nodup) (hsame : ∀ x, x ∈ l ↔ x ∈ l')
    (h : List.Forall₂ (fun entry x => KeyOf x.1 entry.1 ∧ entry.2 = x.2) items.items l)
    (h' : List.Forall₂ (fun entry x => KeyOf x.1 entry.1 ∧ entry.2 = x.2) items'.items l') :
    items.values.Perm items'.values := by
  rw [Dict.values, Dict.values, values_eq_of_forall₂ h, values_eq_of_forall₂ h']
  exact ((List.perm_ext_iff_of_nodup hnodup hnodup').2 hsame).map _

/-- A new tag needs a new entry. -/
theorem Shows.not_of_length {tags' : Dict String Tag} {x : String × Tag} (h : Shows tags P) (hx : ¬P x)
    (hlength : tags'.items.length = tags.items.length) : ¬Shows tags' fun y => P y ∨ y = x := by
  rintro ⟨l', hnodup', hl', hentries'⟩
  obtain ⟨l, hnodup, hl, hentries⟩ := h
  have hsub : (x :: l).Subperm l' := by
    refine List.Nodup.subperm (List.nodup_cons.2 ⟨fun hmem => hx ((hl x).1 hmem), hnodup⟩) ?_
    intro y hy
    rcases List.mem_cons.1 hy with rfl | hy
    · exact (hl' _).2 (Or.inr rfl)
    · exact (hl' y).2 (Or.inl ((hl y).1 hy))
  have hle := hsub.length_le
  have hlen := hentries.length_eq
  have hlen' := hentries'.length_eq
  rw [List.length_cons] at hle
  omega

/-- A new tag under a new key is shown beside the others. -/
theorem Shows.push {key : String} (h : Shows tags P) (hx : ¬P (name, tag)) (hkey : key ∉ tags)
    (hname : KeyOf name key) : Shows (tags.set key tag) fun y => P y ∨ y = (name, tag) := by
  obtain ⟨l, hnodup, hl, hentries⟩ := h
  refine ⟨l ++ [(name, tag)], ?_, fun y => ?_, ?_⟩
  · exact hnodup.append (List.nodup_singleton _) (List.disjoint_singleton.2 fun hmem => hx ((hl _).1 hmem))
  · rw [List.mem_append, hl, List.mem_singleton]
  · rw [Dict.items_set_of_notMem tag hkey]
    exact List.rel_append hentries (List.Forall₂.cons ⟨hname, rfl⟩ List.Forall₂.nil)

/-- Overwriting one tag by another changes what is shown. -/
theorem Shows.eq_of_set {key : String} {other : Tag} (h : Shows tags P) (hget : tags.get? key = some other)
    (h' : Shows (tags.set key tag) P) : other = tag := by
  obtain ⟨l, hnodup, hl, hentries⟩ := h
  obtain ⟨l', hnodup', hl', hentries'⟩ := h'
  have hperm := Shows.perm hnodup hnodup' (fun x => (hl x).trans (hl' x).symm) hentries hentries'
  obtain ⟨before, behind, hitems, hset⟩ := Dict.items_set_of_get? tag hget
  rw [Dict.values, Dict.values, hitems, hset, List.map_append, List.map_append, List.map_cons, List.map_cons,
    List.perm_append_left_iff] at hperm
  by_contra hne
  have hcount := hperm.count_eq tag
  rw [List.count_cons_self, List.count_cons_of_ne hne] at hcount
  omega

/-- A tag that is shown is the value of an entry. -/
theorem Shows.mem_values {x : String × Tag} (h : Shows tags P) (hx : P x) : x.2 ∈ tags.values := by
  obtain ⟨l, -, hl, hentries⟩ := h
  rw [Dict.values, values_eq_of_forall₂ hentries]
  exact List.mem_map_of_mem ((hl x).2 hx)

theorem length_items_set {key : String} (h : key ∈ tags) : (tags.set key tag).items.length = tags.items.length := by
  obtain ⟨other, hget⟩ := Dict.mem_iff.1 h
  obtain ⟨before, behind, hitems, hset⟩ := Dict.items_set_of_get? tag hget
  rw [hitems, hset, List.length_append, List.length_append, List.length_cons, List.length_cons]

/-! ## One step -/

/-- After one more tag exactly the tags so far are shown iff its name is new, or the tag
and its key are new, or it stands under its name already. -/
theorem shows_set_tagKey_iff (h : Shows tags P) (hnamed : P (name, tag) → name ∈ tags) :
    Shows (tags.set (tagKey tags name tag) tag) (fun y => P y ∨ y = (name, tag)) ↔
      name ∉ tags ∨ (tag ∉ tags.values ∧ name ++ "-" ++ toString tags.items.length ∉ tags) ∨
        (tags.get? name = some tag ∧ P (name, tag)) := by
  by_cases hname : name ∈ tags
  · by_cases hvalue : tag ∈ tags.values
    · -- the tag is put under its name, over what stands there
      have hkey : tagKey tags name tag = name := if_neg fun hnew => hnew.2 hvalue
      rw [hkey]
      constructor
      · intro hshows
        have hP : P (name, tag) := by
          by_contra hnot
          exact h.not_of_length hnot (length_items_set hname) hshows
        obtain ⟨other, hget⟩ := Dict.mem_iff.1 hname
        have hshows' : Shows (tags.set name tag) P := hshows.congr fun y => or_iff_left_of_imp fun hy => by
          rw [hy]
          exact hP
        rw [h.eq_of_set hget hshows'] at hget
        exact Or.inr (Or.inr ⟨hget, hP⟩)
      · rintro (hnot | ⟨hnot, -⟩ | ⟨hget, hP⟩)
        · exact absurd hname hnot
        · exact absurd hvalue hnot
        · have hset : tags.set name tag = tags := Dict.set_self hget
          rw [hset]
          refine h.congr fun y => (or_iff_left_of_imp fun hy => ?_).symm
          rw [hy]
          exact hP
    · -- the tag is put under its name and the number of entries
      have hnot : ¬P (name, tag) := fun hP => hvalue (h.mem_values hP)
      have hkey : tagKey tags name tag = name ++ "-" ++ toString tags.items.length := if_pos ⟨hname, hvalue⟩
      rw [hkey]
      constructor
      · intro hshows
        refine Or.inr (Or.inl ⟨hvalue, fun htaken => ?_⟩)
        exact h.not_of_length hnot (length_items_set htaken) hshows
      · rintro (hnew | ⟨-, hfree⟩ | ⟨-, hP⟩)
        · exact absurd hname hnew
        · exact h.push hnot hfree (Or.inr ⟨_, rfl⟩)
        · exact absurd hP hnot
  · have hnot : ¬P (name, tag) := fun hP => hname (hnamed hP)
    have hkey : tagKey tags name tag = name := if_neg fun htaken => hname htaken.1
    rw [hkey]
    exact iff_of_true (h.push hnot hname (Or.inl rfl)) (Or.inl hname)

theorem collected_addTag_of_ne (h : plugin' ≠ plugin) :
    collected (addTag uniqueTags plugin name tag) plugin' = collected uniqueTags plugin' := by
  unfold addTag
  split
  · rfl
  · rw [collected, Dict.get?_set_ne _ _ h, collected]

theorem addTag_skipped (h : name = "root_uid" ∨ tag.propagate = false) :
    addTag uniqueTags plugin name tag = uniqueTags := if_pos h

theorem collected_addTag (hroot : name ≠ "root_uid") (hpropagate : tag.propagate = true) :
    collected (addTag uniqueTags plugin name tag) plugin =
      (collected uniqueTags plugin).set (tagKey (collected uniqueTags plugin) name tag) tag := by
  have hnot : ¬(name = "root_uid" ∨ tag.propagate = false) := by
    rw [hpropagate]
    exact fun h => h.elim hroot fun hfalse => by cases hfalse
  rw [addTag, if_neg hnot, collected, Dict.get?_set_self, Option.getD_some]

theorem processed_append {x : String × Tag} : Processed (done ++ [step]) plugin x ↔
    Processed done plugin x ∨ (plugin = step.1 ∧ x = step.2 ∧ step.2.2.propagate = true) := by
  obtain ⟨p, y⟩ := step
  unfold Processed
  rw [List.mem_append, List.mem_singleton, Prod.mk.injEq, or_and_right]
  refine or_congr_right ⟨?_, ?_⟩
  · rintro ⟨⟨rfl, rfl⟩, hpropagate⟩
    exact ⟨rfl, rfl, hpropagate⟩
  · rintro ⟨rfl, rfl, hpropagate⟩
    exact ⟨⟨rfl, rfl⟩, hpropagate⟩

/-- Exactly the tags that have been processed are collected. -/
def Right (steps : List TagStep) : Prop :=
  ∀ plugin, Shows (collected (collect steps) plugin) (Processed steps plugin)

/-- The names of the processed tags are keys. -/
def Named (steps : List TagStep) : Prop :=
  ∀ plugin x, Processed steps plugin x → x.1 ≠ "root_uid" ∧ x.1 ∈ collected (collect steps) plugin

/-- After a step the collected tags are right iff the step is good. -/
theorem right_append_iff (hright : Right done) (hnamed : Named done) :
    Right (done ++ [step]) ↔ GoodStep done step := by
  obtain ⟨plugin, name, tag⟩ := step
  -- the tags of other plugins are as before
  have hothers : ∀ plugin', plugin' ≠ plugin →
      Shows (collected (collect (done ++ [(plugin, name, tag)])) plugin')
        (Processed (done ++ [(plugin, name, tag)]) plugin') := by
    intro plugin' hne
    rw [collect_append, collected_addTag_of_ne hne]
    refine (hright plugin').congr fun x => ?_
    rw [processed_append, or_iff_left fun h => hne h.1]
  have hone : Right (done ++ [(plugin, name, tag)]) ↔
      Shows (collected (addTag (collect done) plugin name tag) plugin)
        (Processed (done ++ [(plugin, name, tag)]) plugin) := by
    rw [← collect_append done (plugin, name, tag)]
    constructor
    · exact fun h => h plugin
    · intro h plugin'
      by_cases heq : plugin' = plugin
      · rw [heq]
        exact h
      · exact hothers plugin' heq
  rw [hone]
  by_cases hpropagate : tag.propagate = true
  · have hprocessed : ∀ x, Processed done plugin x ∨ x = (name, tag) ↔
        Processed (done ++ [(plugin, name, tag)]) plugin x := by
      intro x
      rw [processed_append]
      exact or_congr_right ⟨fun hx => ⟨rfl, hx, hpropagate⟩, fun hx => hx.2.1⟩
    by_cases hroot : name = "root_uid"
    · rw [addTag_skipped (Or.inl hroot)]
      constructor
      · intro hshows
        have hnot : ¬Processed done plugin (name, tag) := fun hx => (hnamed _ _ hx).1 hroot
        refine absurd (hshows.congr fun x => (hprocessed x).symm) ?_
        exact (hright plugin).not_of_length hnot rfl
      · intro hgood
        exact absurd hroot (hgood hpropagate).1
    · rw [collected_addTag hroot hpropagate]
      have hiff := shows_set_tagKey_iff (hright plugin) fun hx => (hnamed plugin (name, tag) hx).2
      constructor
      · intro hshows _
        refine ⟨hroot, ?_⟩
        rcases hiff.1 (hshows.congr fun x => (hprocessed x).symm) with hnew | hfree | ⟨hget, hx⟩
        · exact Or.inl hnew
        · exact Or.inr (Or.inl hfree)
        · exact Or.inr (Or.inr ⟨hget, hx.1⟩)
      · intro hgood
        refine (hiff.2 ?_).congr hprocessed
        rcases (hgood hpropagate).2 with hnew | hfree | ⟨hget, hx⟩
        · exact Or.inl hnew
        · exact Or.inr (Or.inl hfree)
        · exact Or.inr (Or.inr ⟨hget, hx, hpropagate⟩)
  · have hfalse : tag.propagate = false := by simpa using hpropagate
    rw [addTag_skipped (Or.inr hfalse)]
    refine iff_of_true ((hright plugin).congr fun x => ?_) fun htrue => absurd htrue hpropagate
    rw [processed_append, or_iff_left fun hx => hpropagate hx.2.2]

/-- Keys are not removed. -/
theorem mem_collected_addTag {key : String} (h : key ∈ collected uniqueTags plugin') :
    key ∈ collected (addTag uniqueTags plugin name tag) plugin' := by
  unfold addTag
  split
  · exact h
  · by_cases heq : plugin' = plugin
    · subst heq
      rw [collected, Dict.get?_set_self, Option.getD_some]
      exact Dict.mem_set.2 (Or.inr h)
    · rw [collected, Dict.get?_set_ne _ _ heq]
      exact h

/-- The name of a tag that has been added is a key. -/
theorem name_mem_collected_addTag (hroot : name ≠ "root_uid") (hpropagate : tag.propagate = true) :
    name ∈ collected (addTag uniqueTags plugin name tag) plugin := by
  rw [collected_addTag hroot hpropagate, Dict.mem_set]
  by_cases hname : name ∈ collected uniqueTags plugin
  · exact Or.inr hname
  · exact Or.inl (if_neg fun htaken => hname htaken.1).symm

/-- A good step leaves the names of the processed tags among the keys. -/
theorem named_append (hnamed : Named done) (hgood : GoodStep done step) : Named (done ++ [step]) := by
  intro plugin x hx
  rw [collect_append]
  rcases processed_append.1 hx with hold | ⟨rfl, rfl, hpropagate⟩
  · obtain ⟨hroot, hmem⟩ := hnamed plugin x hold
    exact ⟨hroot, mem_collected_addTag hmem⟩
  · have hroot := (hgood hpropagate).1
    exact ⟨hroot, name_mem_collected_addTag hroot hpropagate⟩

/-! ## All steps -/

/-- If every step from a right state is good, all states are right. -/
theorem right_of_good (h : ∀ done step rest, steps = done ++ step :: rest → Right done → Named done →
    GoodStep done step) : ∀ done rest, steps = done ++ rest → Right done ∧ Named done := by
  intro done
  induction done using List.reverseRecOn with
  | nil =>
      intro rest _
      refine ⟨fun plugin => ⟨[], List.nodup_nil, fun x => ?_, List.Forall₂.nil⟩, fun plugin x hx => ?_⟩
      · exact iff_of_false List.not_mem_nil fun hx => List.not_mem_nil hx.1
      · exact absurd hx.1 List.not_mem_nil
  | append_singleton done step ih =>
      intro rest hsteps
      have hsplit : steps = done ++ step :: rest := by
        rw [hsteps, List.append_assoc]
        rfl
      obtain ⟨hright, hnamed⟩ := ih _ hsplit
      have hgood := h done step rest hsplit hright hnamed
      exact ⟨(right_append_iff hright hnamed).2 hgood, named_append hnamed hgood⟩

/-- All states are right iff all steps are good. -/
theorem right_iff_good (steps : List TagStep) : (∀ done rest, steps = done ++ rest → Right done) ↔
    ∀ done step rest, steps = done ++ step :: rest → GoodStep done step := by
  constructor
  · intro h
    have hgood : ∀ done step rest, steps = done ++ step :: rest → Right done → Named done →
        GoodStep done step := by
      intro done step rest hsteps hright hnamed
      refine (right_append_iff hright hnamed).1 (h _ rest ?_)
      rw [hsteps, List.append_assoc]
      rfl
    intro done step rest hsteps
    obtain ⟨hright, hnamed⟩ := right_of_good hgood done _ hsteps
    exact hgood done step rest hsteps hright hnamed
  · intro h done rest hsteps
    exact (right_of_good (fun done step rest hsteps _ _ => h done step rest hsteps) done rest hsteps).1

/-! ## What the plugins returned -/

section

variable {db : AnalysisDb} {uid file : Uid} {returned : Uid → Plugin → List (String × Tag)} {rows : List TagRow}
  {x : String × Tag}

/-- The file belongs to the firmware and has a result of the plugin. -/
def HasResult (db : AnalysisDb) (uid : Uid) (plugin : Plugin) (file : Uid) : Prop :=
  (uid, file) ∈ db.fwFiles ∧ db.Analyzed file plugin

/-- A plugin with propagation returned a tag to propagate for a file of the firmware. -/
def ReturnedTag (db : AnalysisDb) (uid : Uid) (returned : Uid → Plugin → List (String × Tag)) (plugin : Plugin)
    (x : String × Tag) : Prop :=
  x.2.propagate = true ∧ plugin ∈ pluginsWithTagPropagation ∧
    ∃ file, db.HasResult uid plugin file ∧ x ∈ returned file plugin

/-- No tag is lost: after every tag exactly those that were processed are collected, each
once, and in the end those that were returned. -/
structure TagsKept (db : AnalysisDb) (uid : Uid) (returned : Uid → Plugin → List (String × Tag))
    (rows : List TagRow) : Prop where
  reached : ∀ done rest, tagSteps rows = done ++ rest → Right done
  kept : ∀ plugin, Shows (collected (collectAnalysisTagsFromChildren rows) plugin)
    (db.ReturnedTag uid returned plugin)

/-- The condition: every returned tag is the last one of its name in the list for some
file, and every step is good. -/
structure KeepsTags (db : AnalysisDb) (uid : Uid) (returned : Uid → Plugin → List (String × Tag))
    (rows : List TagRow) : Prop where
  stored : ∀ plugin x, db.ReturnedTag uid returned plugin x →
    ∃ file, db.HasResult uid plugin file ∧ (tagsDict (returned file plugin)).get? x.1 = some x.2
  good : ∀ done step rest, tagSteps rows = done ++ step :: rest → GoodStep done step

theorem mem_tagRows {row : TagRow} : row ∈ db.tagRows uid ↔ row.2.1 ∈ pluginsWithTagPropagation ∧
    (uid, row.1) ∈ db.fwFiles ∧
      ∃ entry, db.analysis.get? (row.1, row.2.1) = some entry ∧ entry.tags = some row.2.2 := by
  obtain ⟨file, plugin, tags⟩ := row
  rw [tagRows, List.mem_filterMap]
  constructor
  · rintro ⟨⟨⟨u, fo⟩, ⟨u', p⟩, entry⟩, hrow, heq⟩
    obtain ⟨hfile, hentry, hon⟩ := Relation.mem_join.1 hrow
    obtain rfl : u = u' := of_decide_eq_true hon
    split at heq
    · rename_i hplugin
      obtain ⟨tags', htags, heq⟩ := Option.map_eq_some_iff.1 heq
      cases heq
      exact ⟨hplugin, of_decide_eq_true (List.mem_filter.1 hfile).2, entry, Dict.get?_eq_some_iff.2 hentry, htags⟩
    · cases heq
  · rintro ⟨hplugin, hroot, entry, hentry, htags⟩
    obtain ⟨fo, hfo⟩ := Dict.mem_iff.1 (db.fwFiles_fk _ hroot).2
    refine ⟨((file, fo), (file, plugin), entry), ?_, ?_⟩
    · refine Relation.mem_join.2 ⟨List.mem_filter.2 ⟨Dict.get?_eq_some_iff.1 hfo, decide_eq_true hroot⟩,
        Dict.get?_eq_some_iff.1 hentry, decide_eq_true rfl⟩
    · have hplugin : plugin ∈ pluginsWithTagPropagation := hplugin
      have htags : entry.tags = some tags := htags
      rw [if_pos hplugin, htags]
      rfl

/-- A dictionary of tags holds tags of the list. -/
theorem mem_of_tagsDict {l : List (String × Tag)} (h : (tagsDict l).get? name = some tag) : (name, tag) ∈ l := by
  have hfold : ∀ d : Dict String Tag, (l.foldl (fun d x => d.set x.1 x.2) d).get? name = some tag →
      (name, tag) ∈ l ∨ d.get? name = some tag := by
    clear h
    induction l with
    | nil => exact fun d hd => Or.inr hd
    | cons y rest ih =>
        intro d hd
        rcases ih _ hd with hmem | hset
        · exact Or.inl (List.mem_cons_of_mem _ hmem)
        · rw [Dict.get?_set] at hset
          split at hset
          · rename_i hname
            cases hset
            rw [hname]
            exact Or.inl List.mem_cons_self
          · exact Or.inr hset
  rcases hfold ∅ h with hmem | hempty
  · exact hmem
  · cases hempty

/-- What is processed in the end are the propagated tags that were stored. -/
theorem processed_tagSteps_iff (hrows : rows.Perm (db.tagRows uid))
    (hstored : ∀ file plugin entry, db.analysis.get? (file, plugin) = some entry →
      entry.tags = some (tagsDict (returned file plugin))) :
    Processed (tagSteps rows) plugin x ↔ x.2.propagate = true ∧ plugin ∈ pluginsWithTagPropagation ∧
      ∃ file, db.HasResult uid plugin file ∧ (tagsDict (returned file plugin)).get? x.1 = some x.2 := by
  unfold Processed tagSteps
  rw [List.mem_flatMap]
  constructor
  · rintro ⟨⟨⟨file, p, tags⟩, hrow, hmem⟩, hpropagate⟩
    obtain ⟨entry, hentry, heq⟩ := List.mem_map.1 hmem
    obtain ⟨rfl, rfl⟩ := Prod.mk.inj heq
    obtain ⟨hplugin, hroot, row, hget, htags⟩ := mem_tagRows.1 (hrows.mem_iff.1 hrow)
    have htags' := hstored file p row hget
    rw [htags, Option.some.injEq] at htags'
    have htags' : tags = tagsDict (returned file p) := htags'
    refine ⟨hpropagate, hplugin, file, ⟨hroot, Dict.mem_of_get? hget⟩, ?_⟩
    rw [← htags']
    exact Dict.get?_eq_some_iff.2 hentry
  · rintro ⟨hpropagate, hplugin, file, ⟨hroot, hanalyzed⟩, hget⟩
    obtain ⟨entry, hentry⟩ := Dict.mem_iff.1 hanalyzed
    refine ⟨⟨(file, plugin, tagsDict (returned file plugin)), ?_, ?_⟩, hpropagate⟩
    · exact hrows.mem_iff.2 (mem_tagRows.2 ⟨hplugin, hroot, entry, hentry, hstored file plugin entry hentry⟩)
    · exact List.mem_map.2 ⟨x, Dict.get?_eq_some_iff.1 hget, rfl⟩

/-- Of two sets of tags of which one contains the other, only one is shown. -/
theorem Shows.of_subset (h : Shows tags P) (h' : Shows tags Q) (hsub : ∀ y, P y → Q y) (y : String × Tag)
    (hy : Q y) : P y := by
  obtain ⟨l, hnodup, hl, hentries⟩ := h
  obtain ⟨l', hnodup', hl', hentries'⟩ := h'
  have hsubperm : l.Subperm l' := hnodup.subperm fun z hz => (hl' z).2 (hsub z ((hl z).1 hz))
  have hlength := hentries.length_eq
  have hlength' := hentries'.length_eq
  have hperm := hsubperm.perm_of_length_le (by omega)
  exact (hl y).1 (hperm.mem_iff.2 ((hl' y).2 hy))

end

/-! ## A tag that is found twice -/

/-- A firmware with three files. -/
def imageWithFiles : Db :=
  ((((Db.empty.putFileObject "w" ⟨"", "fw.img", 0, 1, [], true⟩).putFileObject "a" ⟨"", "a", 1, 1, [], false⟩).putFileObject
    "b" ⟨"", "b", 1, 1, [], false⟩).putFileObject "c" ⟨"", "c", 1, 1, [], false⟩).addFwFiles
      {("w", "a"), ("w", "b"), ("w", "c")}

/-- One file is of an old system, the two others are of a new one. -/
def systems (file : Uid) (_ : Plugin) : List (String × Tag) :=
  [("OS", ⟨if file = "a" then "Linux 4" else "Linux 5", "success", true⟩)]

/-- The row of a file. -/
def systemEntry (file : Uid) : AnalysisEntry := ⟨some (tagsDict (systems file "software_components"))⟩

/-- The analysis table after the three files were analyzed. -/
def systemRows : Dict (Uid × Plugin) AnalysisEntry :=
  ((Dict.empty.set ("a", "software_components") (systemEntry "a")).set ("b", "software_components")
    (systemEntry "b")).set ("c", "software_components") (systemEntry "c")

theorem get?_systemRows {file : Uid} {plugin : Plugin} {entry : AnalysisEntry}
    (h : systemRows.get? (file, plugin) = some entry) :
    (file = "a" ∨ file = "b" ∨ file = "c") ∧ entry.tags = some (tagsDict (systems file plugin)) := by
  rw [systemRows, Dict.get?_set, Dict.get?_set, Dict.get?_set] at h
  split at h
  · rename_i heq
    cases heq
    cases h
    exact ⟨Or.inr (Or.inr rfl), rfl⟩
  · split at h
    · rename_i heq
      cases heq
      cases h
      exact ⟨Or.inr (Or.inl rfl), rfl⟩
    · split at h
      · rename_i heq
        cases heq
        cases h
        exact ⟨Or.inl rfl, rfl⟩
      · cases h

theorem systemRows_fk (e : Uid × Plugin) (h : e ∈ systemRows) : e.1 ∈ imageWithFiles.fileObject := by
  obtain ⟨file, plugin⟩ := e
  obtain ⟨entry, hentry⟩ := Dict.mem_iff.1 h
  have hfiles : "a" ∈ imageWithFiles.fileObject ∧ "b" ∈ imageWithFiles.fileObject ∧
      "c" ∈ imageWithFiles.fileObject := by decide
  rcases (get?_systemRows hentry).1 with rfl | rfl | rfl
  · exact hfiles.1
  · exact hfiles.2.1
  · exact hfiles.2.2

/-- A firmware with files of two systems. -/
def twoSystems : AnalysisDb where
  toDb := imageWithFiles
  analysis := systemRows
  analysis_fk := systemRows_fk

end AnalysisDb

end FactCore
