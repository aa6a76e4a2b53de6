import FactCore.Objects.FileObject

/-! # The analysis table

The rows of the table `analysis` of `storage/schema.py` that belong to one file
object, and the functions of the database interfaces that write and read them.
Of the columns, `summary` and `tags` are left out, because scheduling does not
look at them.
-/

namespace FactCore

/-- A value of a result; only texts are looked into. -/
inductive Value where
  | text (s : String)
  | json (s : String)
deriving DecidableEq

/-- The mapping under the key `result` of an analysis. -/
abbrev Mapping := Dict String Value

/-- Points in time. They are compared, but never computed with. -/
abbrev Time := Int

/-- The dictionary that is stored for an analysis. The result may be `None`. -/
structure Analysis where
  analysisDate : Time
  pluginVersion : String
  systemVersion : Option String
  result : Option Mapping

/-- `key in result`, which is not evaluated for a result that is `None`. -/
def Analysis.hasKey (analysis : Analysis) (key : String) : Bool :=
  match analysis.result with
  | none => false
  | some mapping => decide (key ∈ mapping)

/-- `analysis_entry_to_dict`: a result that is `None` is read back as an empty one. -/
def Analysis.entryToDict (entry : Analysis) : Analysis :=
  { entry with result := some (entry.result.getD ∅) }

/-- The rows of one file object. -/
abbrev AnalysisTable := Dict Plugin Analysis

namespace AnalysisTable

/-- `get_analysis`. -/
def getAnalysis (table : AnalysisTable) (plugin : Plugin) : Option Analysis :=
  (table.get? plugin).map Analysis.entryToDict

/-- `add_analysis`, which inserts or updates the row. -/
def addAnalysis (table : AnalysisTable) (plugin : Plugin) (analysis : Analysis) : AnalysisTable :=
  table.set plugin analysis

variable {table : AnalysisTable} {plugin other : Plugin} {analysis entry : Analysis}

theorem getAnalysis_addAnalysis : (table.addAnalysis plugin analysis).getAnalysis other =
    if other = plugin then some analysis.entryToDict else table.getAnalysis other := by
  unfold getAnalysis addAnalysis
  rw [Dict.get?_set]
  split <;> rfl

@[simp] theorem getAnalysis_addAnalysis_self :
    (table.addAnalysis plugin analysis).getAnalysis plugin = some analysis.entryToDict := by
  rw [getAnalysis_addAnalysis, if_pos rfl]

theorem getAnalysis_addAnalysis_ne (h : other ≠ plugin) :
    (table.addAnalysis plugin analysis).getAnalysis other = table.getAnalysis other := by
  rw [getAnalysis_addAnalysis, if_neg h]

/-- What is read from the table has a mapping. -/
theorem getAnalysis_result (h : table.getAnalysis plugin = some entry) :
    ∃ mapping, entry.result = some mapping := by
  rcases Option.map_eq_some_iff.1 h with ⟨row, -, rfl⟩
  exact ⟨row.result.getD ∅, rfl⟩

end AnalysisTable

end FactCore
