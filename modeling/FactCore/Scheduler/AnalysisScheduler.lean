import FactCore.Lib.Machine
import FactCore.Scheduler.AnalysisWorker
import FactCore.Scheduler.TaskScheduler
import FactCore.Storage.AnalysisTable

/-! # The analysis scheduler

The way of one file object through `scheduler/analysis/scheduler.py`. The object
is a message: it waits in the process queue, from where
`_process_next_analysis_task` takes the next plugin off its schedule and skips
it or hands the object to the runner of the plugin; a worker analyzes it; and
`_handle_collected_result` stores the result and sends it on. So the functions
take turns, and a run is a sequence of their calls and of plugin outcomes.

The log records what is done for each plugin. The scheduler does not see it.
-/

namespace FactCore

/-- What the scheduler gets from its surroundings: the loaded plugins, the lists of
the configuration (empty if there are none), the validation of a result by the
schema of a plugin (the text of the error, if it is rejected), and the
comparisons `>` of `semver` and `packaging` versions, where the second text is
parsed for the first one and both are for the second (`none` if that raises). -/
structure Scheduler where
  plugins : Plugins
  mimeBlacklist : Plugin → List String
  mimeWhitelist : Plugin → List String
  schema : Plugin → Mapping → Option String
  semverNewer : String → String → Option Bool
  packagingNewer : String → String → Option Bool
  /-- `str.lower`. -/
  lower : String → String

namespace AnalysisScheduler

open Tla

/-! ## The object -/

/-- The part of a file object that scheduling reads or writes. An entry of
`processed_analysis` may be `None`, as read from the database. -/
structure ScheduledObject extends AnalysisWorker.AnalyzedObject (Option Analysis) where
  scheduledAnalysis : List Plugin
  forceUpdate : Bool

/-- `processed_analysis[plugin] = analysis`. -/
def ScheduledObject.setAnalysis (fo : ScheduledObject) (plugin : Plugin)
    (analysis : Option Analysis) : ScheduledObject :=
  { fo with processedAnalysis := fo.processedAnalysis.set plugin analysis }

/-- `_add_completed_analysis_results_to_file_object`. -/
def addCompletedAnalysisResultsToFileObject (table : AnalysisTable) (plugin : Plugin)
    (fo : ScheduledObject) : ScheduledObject :=
  fo.setAnalysis plugin (table.getAnalysis plugin)

/-! ## Is the analysis up to date? -/

/-- `_fix_system_version`. -/
def fixSystemVersion : Option String → String
  | none => "0"
  | some version =>
      if version = "" then "0"
      else String.ofList (version.toList.map fun c => if c = '_' then '-' else c)

/-- `_current_version_is_newer`; `none` if parsing a version raises. -/
def currentVersionIsNewer (sch : Scheduler) (metadata : Metadata) (entry : Analysis) : Option Bool :=
  match sch.semverNewer metadata.version entry.pluginVersion with
  | none => none
  | some pluginVersionIsNewer =>
      match sch.packagingNewer (fixSystemVersion metadata.systemVersion)
          (fixSystemVersion entry.systemVersion) with
      | none => none
      | some systemVersionIsNewer => some (pluginVersionIsNewer || systemVersionIsNewer)

/-- `_dependencies_are_up_to_date`: no dependency is newer than the entry. -/
def dependenciesAreUpToDate (table : AnalysisTable) (entry : Analysis)
    (dependencies : List Plugin) : Bool :=
  dependencies.all fun dependency =>
    match table.getAnalysis dependency with
    | none => false
    | some dependencyEntry => !decide (entry.analysisDate < dependencyEntry.analysisDate)

/-- `_analysis_is_up_to_date`. -/
def analysisIsUpToDate (sch : Scheduler) (table : AnalysisTable) (metadata : Metadata)
    (entry : Analysis) : Bool :=
  match currentVersionIsNewer sch metadata entry with
  | none => false
  | some true => false
  | some false => dependenciesAreUpToDate table entry metadata.dependencies

/-- `_analysis_is_already_in_db_and_up_to_date`. The version is not `None`, because
the column must not be. -/
def analysisIsAlreadyInDbAndUpToDate (sch : Scheduler) (table : AnalysisTable) (plugin : Plugin)
    (metadata : Metadata) : Bool :=
  match table.getAnalysis plugin with
  | none => false
  | some entry =>
      if entry.hasKey "failed" then false else analysisIsUpToDate sch table metadata entry

/-! ## Blacklists and whitelists -/

/-- `_get_blacklist_and_whitelist`: the lists of the plugin count if the configuration has none. -/
def getBlacklistAndWhitelist (sch : Scheduler) (plugin : Plugin) (metadata : Metadata) :
    List String × List String :=
  if sch.mimeBlacklist plugin = [] ∧ sch.mimeWhitelist plugin = [] then
    (metadata.mimeBlacklist, metadata.mimeWhitelist)
  else (sch.mimeBlacklist plugin, sch.mimeWhitelist plugin)

/-- `substring_is_in_list`. -/
def substringIsInList (string : String) (substrings : List String) : Bool :=
  substrings.any fun substring => decide (substring.toList <:+: string.toList)

/-- `entry['result']['mime'].lower()`, with what may go wrong on the way. -/
def lowerMime (sch : Scheduler) : Option Analysis → Except PythonError String
  | none => .error .typeError
  | some entry =>
      match entry.result with
      | none => .error .typeError
      | some mapping =>
          match mapping.get? "mime" with
          | none => .error (.keyError "mime")
          | some (.json _) => .error .attributeError
          | some (.text mime) => .ok (sch.lower mime)

/-- The first half of `_get_file_type_from_object_or_db`: the object with an entry
for the file type, if need be that of the table. -/
def withFileType (table : AnalysisTable) (fo : ScheduledObject) : ScheduledObject :=
  if "file_type" ∈ fo.processedAnalysis then fo
  else addCompletedAnalysisResultsToFileObject table "file_type" fo

/-- `_get_file_type_from_object_or_db`. -/
def getFileTypeFromObjectOrDb (sch : Scheduler) (table : AnalysisTable) (fo : ScheduledObject) :
    Except PythonError String :=
  match (withFileType table fo).processedAnalysis.get? "file_type" with
  | none => .error (.keyError "file_type")
  | some entry => lowerMime sch entry

/-- `_next_analysis_is_blacklisted`, with the object as it is afterwards. With both
lists, the blacklist is ignored. -/
def nextAnalysisIsBlacklisted (sch : Scheduler) (table : AnalysisTable) (plugin : Plugin)
    (metadata : Metadata) (fo : ScheduledObject) : Except PythonError (Bool × ScheduledObject) :=
  match getBlacklistAndWhitelist sch plugin metadata with
  | ([], []) => .ok (false, fo)
  | (blacklist, []) =>
      (getFileTypeFromObjectOrDb sch table fo).map fun fileType =>
        (substringIsInList fileType blacklist, withFileType table fo)
  | (_, whitelist) =>
      (getFileTypeFromObjectOrDb sch table fo).map fun fileType =>
        (!substringIsInList fileType whitelist, withFileType table fo)

/-! ## Dependencies -/

/-- `_dependencies_are_unfulfilled`: a dependency has no result, or was skipped, or failed. -/
def dependenciesAreUnfulfilled (fo : ScheduledObject) : List Plugin → Except PythonError Bool
  | [] => .ok false
  | dependency :: rest =>
      match fo.processedAnalysis.get? dependency with
      | none => .ok true
      | some none => .error .typeError
      | some (some analysis) =>
          if analysis.hasKey "skipped" || analysis.hasKey "failed" then .ok true
          else dependenciesAreUnfulfilled fo rest

/-- A `PluginRunner.Task`. A schema instance is represented by the result it was made of. -/
structure Task where
  dependencies : List (Plugin × Mapping)
  unpacker : Option Mapping
  schedulerState : ScheduledObject

/-- How `queue_analysis` may fail: with a `ValidationError`, which is caught, or otherwise. -/
inductive QueueError where
  | validation (error : String)
  | python (error : PythonError)

/-- The loop of `queue_analysis`. -/
def collectDependencies (sch : Scheduler) (fo : ScheduledObject) :
    List Plugin → Except QueueError (List (Plugin × Mapping))
  | [] => .ok []
  | dependency :: rest =>
      if dependency ∈ sch.plugins then
        match fo.processedAnalysis.get? dependency with
        | none => .error (.python (.keyError dependency))
        | some none => .error (.python .typeError)
        | some (some analysis) =>
            match analysis.result with
            | none => .error (.python .typeError)
            | some mapping =>
                match sch.schema dependency mapping with
                | some error => .error (.validation error)
                | none => (collectDependencies sch fo rest).map ((dependency, mapping) :: ·)
      else .error (.python (.keyError dependency))

/-- `processed_analysis.get('unpacker', {}).get('result')`. -/
def unpackerResult (fo : ScheduledObject) : Except PythonError (Option Mapping) :=
  match fo.processedAnalysis.get? "unpacker" with
  | none => .ok none
  | some none => .error .attributeError
  | some (some analysis) => .ok analysis.result

/-- `PluginRunner.queue_analysis`: the task that is put into the queue of the runner. -/
def queueAnalysis (sch : Scheduler) (dependencies : List Plugin) (fo : ScheduledObject) :
    Except QueueError Task :=
  match collectDependencies sch fo dependencies with
  | .error e => .error e
  | .ok collected =>
      match unpackerResult fo with
      | .error e => .error (.python e)
      | .ok unpacker => .ok ⟨collected, unpacker, fo⟩

/-! ## The state -/

/-- What happens to a plugin: it is found up to date, skipped for a reason, put into
the queue of its runner, unscheduled because a dependency failed; a result is stored. -/
inductive Event where
  | found (plugin : Plugin)
  | skipped (plugin : Plugin) (reason : String)
  | queued (plugin : Plugin) (task : Task)
  | unscheduled (plugin : Plugin)
  | stored (plugin : Plugin) (analysis : Analysis)

/-- Where the object is. It is removed if its firmware was cancelled, and lost if
the process that held it crashed. -/
inductive Place where
  | inQueue
  | atPlugin (plugin : Plugin)
  | collected (plugin : Plugin)
  | completed
  | removed
  | crashed (error : PythonError)
deriving DecidableEq

/-- The object, the rows of its analyses, and the log. -/
structure State where
  fo : ScheduledObject
  table : AnalysisTable
  place : Place
  log : List Event

/-- `_check_further_process_or_complete`. The object goes on if it is a firmware,
has no root, or the analysis of its root is in progress. -/
def checkFurtherProcessOrComplete (goesOn : Bool) (s : State) : State :=
  match s.fo.scheduledAnalysis with
  | [] => { s with place := .completed }
  | _ :: _ => { s with place := if goesOn then .inQueue else .removed }

/-- A mapping with one text. -/
def messageOf (key text : String) : Mapping := Dict.set ∅ key (.text text)

/-- `post_analysis` of the entry of a plugin. -/
def postAnalysis (plugin : Plugin) (analysis : Analysis) (s : State) : State :=
  { s with
    table := s.table.addAnalysis plugin analysis
    log := s.log ++ [.stored plugin analysis] }

/-! ## Scheduling -/

/-- `_get_skipped_analysis_result`. -/
def getSkippedAnalysisResult (now : Time) (metadata : Metadata) (reason : String) : Analysis where
  analysisDate := now
  pluginVersion := metadata.version
  systemVersion := none
  result := some (messageOf "skipped" reason)

/-- The end of `_start_or_skip_analysis` for a plugin that is skipped. -/
def skipAnalysis (now : Time) (goesOn : Bool) (plugin : Plugin) (metadata : Metadata)
    (reason : String) (s : State) : State :=
  let result := getSkippedAnalysisResult now metadata reason
  checkFurtherProcessOrComplete goesOn (postAnalysis plugin result { s with
    fo := s.fo.setAnalysis plugin (some result)
    log := s.log ++ [.skipped plugin reason] })

/-- The reasons for skipping a plugin. -/
def blacklistedReason : String := "blacklisted file type"

@[inherit_doc blacklistedReason]
def dependencyReason : String := "dependency is missing (could be skipped)"

@[inherit_doc blacklistedReason]
def validationReason (error : String) : String :=
  "error during dependency collection: could not apply schema to dependency results: " ++ error

/-- The branch of `_start_or_skip_analysis` for a plugin that is up to date. Its
result is loaded if a plugin that is still scheduled depends on it. -/
def useAnalysisInDb (sch : Scheduler) (goesOn : Bool) (plugin : Plugin) (s : State) :
    Except PythonError State :=
  (TaskScheduler.getCumulativeRemainingDependencies sch.plugins s.fo.scheduledAnalysis).map
    fun remaining => checkFurtherProcessOrComplete goesOn { s with
      fo := if plugin ∈ remaining then addCompletedAnalysisResultsToFileObject s.table plugin s.fo
        else s.fo
      log := s.log ++ [.found plugin] }

/-- The branches for a plugin that is not blacklisted. -/
def startIfDependenciesAllow (sch : Scheduler) (now : Time) (goesOn : Bool) (plugin : Plugin)
    (metadata : Metadata) (s : State) : Except PythonError State :=
  match dependenciesAreUnfulfilled s.fo metadata.dependencies with
  | .error e => .error e
  | .ok true => .ok (skipAnalysis now goesOn plugin metadata dependencyReason s)
  | .ok false =>
      match queueAnalysis sch metadata.dependencies s.fo with
      | .error (.python e) => .error e
      | .error (.validation error) =>
          .ok (skipAnalysis now goesOn plugin metadata (validationReason error) s)
      | .ok task => .ok { s with
          place := .atPlugin plugin
          log := s.log ++ [.queued plugin task] }

/-- `analysis_to_do not in MANDATORY_PLUGINS and self._next_analysis_is_blacklisted(…)`. -/
def isBlacklisted (sch : Scheduler) (plugin : Plugin) (metadata : Metadata) (s : State) :
    Except PythonError (Bool × ScheduledObject) :=
  if plugin ∈ mandatoryPlugins then .ok (false, s.fo)
  else nextAnalysisIsBlacklisted sch s.table plugin metadata s.fo

/-- `_start_or_skip_analysis`. -/
def startOrSkipAnalysis (sch : Scheduler) (now : Time) (goesOn : Bool) (plugin : Plugin)
    (metadata : Metadata) (s : State) : Except PythonError State :=
  if s.fo.forceUpdate = false ∧
      analysisIsAlreadyInDbAndUpToDate sch s.table plugin metadata = true then
    useAnalysisInDb sch goesOn plugin s
  else
    match isBlacklisted sch plugin metadata s with
    | .error e => .error e
    | .ok (true, fo) =>
        .ok (skipAnalysis now goesOn plugin metadata blacklistedReason { s with fo := fo })
    | .ok (false, fo) => startIfDependenciesAllow sch now goesOn plugin metadata { s with fo := fo }

/-- The object without the plugin that is taken off its schedule. -/
def ScheduledObject.pop (fo : ScheduledObject) : ScheduledObject :=
  { fo with scheduledAnalysis := fo.scheduledAnalysis.dropLast }

/-- `_process_next_analysis_task`. -/
def processNextAnalysisTask (sch : Scheduler) (now : Time) (goesOn : Bool) (s : State) :
    Except PythonError State :=
  match s.fo.scheduledAnalysis.getLast? with
  | none => .error .indexError
  | some plugin =>
      match sch.plugins.get? plugin with
      | none => .ok (checkFurtherProcessOrComplete goesOn { s with fo := s.fo.pop })
      | some metadata => startOrSkipAnalysis sch now goesOn plugin metadata { s with fo := s.fo.pop }

/-! ## Analysis -/

/-- How a worker is done with a task: the plugin returned what it found (`None` if
that is nothing), an exception was reported, or the time was up. -/
inductive Outcome where
  | returned (startTime : Time) (result : Option Mapping)
  | exception (cause : String)
  | timeout

/-- The dictionary made by `AnalysisPluginV0.get_analysis`. -/
def newAnalysis (metadata : Metadata) (startTime : Time) (result : Option Mapping) : Analysis where
  analysisDate := startTime
  pluginVersion := metadata.version
  systemVersion := metadata.systemVersion
  result := result

/-- The entry with which `Worker.run` leaves its `try` block. -/
def entryOf (plugin : Plugin) (metadata : Metadata) :
    Outcome → AnalysisWorker.Entry (Option Analysis)
  | .returned startTime result => { analysis := some (some (newAnalysis metadata startTime result)) }
  | .exception cause => { exception := some (plugin, cause) }
  | .timeout => AnalysisWorker.timeoutEntry plugin

/-- The end of a round of `Worker.run`. -/
def finishAnalysis (plugin : Plugin) (metadata : Metadata) (outcome : Outcome) (s : State) : State :=
  let entry := entryOf plugin metadata outcome
  let written := AnalysisWorker.writeResultInFileObject plugin entry s.fo.toAnalyzedObject
  { s with
    fo := { s.fo with toAnalyzedObject := written }
    place := .collected plugin }

/-! ## Collecting results -/

/-- `_get_failed_analysis_result`. -/
def getFailedAnalysisResult (now : Time) (metadata : Metadata) (cause : String) : Analysis where
  analysisDate := now
  pluginVersion := metadata.version
  systemVersion := none
  result := some (messageOf "failed" cause)

/-- `scheduled_analysis.remove(plugin)`. -/
def ScheduledObject.unschedule (fo : ScheduledObject) (plugin : Plugin) : ScheduledObject :=
  { fo with scheduledAnalysis := fo.scheduledAnalysis.erase plugin }

/-- The loop of `reschedule_failed_analysis_task`. -/
def unscheduleDependents (plugins : Plugins) (now : Plugin → Time) (failed : Plugin) :
    List Plugin → State → Except PythonError State
  | [], s => .ok s
  | plugin :: rest, s =>
      match plugins.get? plugin with
      | none => .error (.keyError plugin)
      | some metadata =>
          if failed ∈ metadata.dependencies then
            let result := getFailedAnalysisResult (now plugin) metadata
              ("Analysis of dependency " ++ failed ++ " failed")
            unscheduleDependents plugins now failed rest { s with
              fo := (s.fo.unschedule plugin).setAnalysis plugin (some result)
              log := s.log ++ [.unscheduled plugin] }
          else unscheduleDependents plugins now failed rest s

/-- `reschedule_failed_analysis_task`, if there is an exception. -/
def rescheduleFailedAnalysisTask (plugins : Plugins) (now : Plugin → Time) (s : State) :
    Except PythonError State :=
  match s.fo.analysisException with
  | none => .ok s
  | some (failed, cause) =>
      match plugins.get? failed with
      | none => .error (.keyError failed)
      | some metadata =>
          (unscheduleDependents plugins now failed s.fo.scheduledAnalysis { s with
            fo := s.fo.setAnalysis failed
              (some (getFailedAnalysisResult (now failed) metadata cause)) }).map
            fun s' => { s' with fo := { s'.fo with analysisException := none } }

/-- `_handle_collected_result`. -/
def handleCollectedResult (sch : Scheduler) (now : Plugin → Time) (goesOn : Bool) (plugin : Plugin)
    (s : State) : Except PythonError State :=
  match rescheduleFailedAnalysisTask sch.plugins now s with
  | .error e => .error e
  | .ok s' =>
      match s'.fo.processedAnalysis.get? plugin with
      | none => .ok (checkFurtherProcessOrComplete goesOn s')
      | some none => .error .typeError
      | some (some analysis) =>
          .ok (checkFurtherProcessOrComplete goesOn (postAnalysis plugin analysis s'))

/-! ## The machine -/

/-- The calls of the two functions and what happens in between. -/
inductive Action where
  | process (now : Time) (goesOn : Bool)
  | analyze (outcome : Outcome)
  | collect (now : Plugin → Time) (goesOn : Bool)

/-- The state after a call; an exception ends the process that made it. -/
def State.afterCall (s : State) : Except PythonError State → State
  | .error e => { s with place := .crashed e }
  | .ok s' => s'

/-- One step. -/
def step (sch : Scheduler) : Action → State → Option State
  | .process now goesOn, s =>
      match s.place with
      | .inQueue => some (s.afterCall (processNextAnalysisTask sch now goesOn s))
      | _ => none
  | .analyze outcome, s =>
      match s.place with
      | .atPlugin plugin =>
          (sch.plugins.get? plugin).map fun metadata => finishAnalysis plugin metadata outcome s
      | _ => none
  | .collect now goesOn, s =>
      match s.place with
      | .collected plugin => some (s.afterCall (handleCollectedResult sch now goesOn plugin s))
      | _ => none

/-- What a run starts with: the object with its schedule, and the rows of its analyses. -/
structure Start where
  uid : Uid
  schedule : List Plugin
  forceUpdate : Bool
  processedAnalysis : Dict Plugin (Option Analysis)
  table : AnalysisTable

/-- The object is sent to the process queue, or is done if there is nothing to do. -/
def Start.state (start : Start) : State :=
  checkFurtherProcessOrComplete true {
    fo := {
      uid := start.uid
      processedAnalysis := start.processedAnalysis
      analysisException := none
      scheduledAnalysis := start.schedule
      forceUpdate := start.forceUpdate }
    table := start.table
    place := .inQueue
    log := [] }

/-- The runs of one object. -/
def machine (sch : Scheduler) (start : Start) : Machine State Action where
  Init := fun s => s = start.state
  step := step sch

/-! ## Some runs -/

/-- A scheduler with some of the plugins, whose schemas accept everything. -/
def someScheduler : Scheduler where
  plugins := TaskScheduler.somePlugins
  mimeBlacklist := fun _ => []
  mimeWhitelist := fun _ => []
  schema := fun _ _ => none
  semverNewer := fun current stored => some (decide (stored < current))
  packagingNewer := fun current stored => some (decide (stored < current))
  lower := String.toLower

/-- A file that was not analyzed before. -/
def newFile (schedule : List Plugin) : Start := ⟨"a_1", schedule, false, ∅, ∅⟩

/-- A schedule made of `cve_lookup` and the mandatory plugins. -/
def cveSchedule : List Plugin := ["cve_lookup", "file_hashes", "software_components", "file_type"]

/-- A plugin is taken up, returns a result, and the result is collected. -/
def runs (now : Time) (result : Option Mapping) : List Action :=
  [.process now true, .analyze (.returned now result), .collect (fun _ => now) true]

/-- A plugin is taken up and raises an exception, which is collected. -/
def raises (now : Time) (cause : String) : List Action :=
  [.process now true, .analyze (.exception cause), .collect (fun _ => now) true]

end AnalysisScheduler

end FactCore
