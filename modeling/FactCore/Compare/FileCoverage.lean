import FactCore.HelperFunctions.Uid
import FactCore.Lib.Coverage
import FactCore.Scheduler.ComparisonScheduler

/-! # The file coverage comparison

`plugins/compare/file_coverage/code/file_coverage.py` with
`helperFunctions/compare_sets.py`: which files the compared objects have in
common, which files of one are similar to files of another, and the table of the
groups of similar files.

The database is represented by the ssdeep hashes it holds. The entropies of the
common files, the changed text files and the flags that tell the web interface
how to show a table are left out.
-/

namespace FactCore.FileCoverage

open ComparisonScheduler (CompareId convertUidListToCompareId)

/-- What a comparison reads of an object: the files it contains directly, all
files it contains on any level, and the keys of the summary of its
`software_components`. -/
structure ComparedObject where
  uid : Uid
  filesIncluded : Finset Uid
  listOfAllIncludedFiles : Finset Uid
  softwareComponents : Finset String
  isUid : IsUid uid
  areUids : ∀ file ∈ filesIncluded ∪ listOfAllIncludedFiles, IsUid file
deriving DecidableEq

/-- An object whose uid and whose files are made of one digit each; it contains
the files `included` directly and the files `nested` on a deeper level. -/
def uniformObject (n : Nat) (included nested : List Nat) (software : Finset String) :
    ComparedObject where
  uid := uniformUid n
  filesIncluded := (included.map uniformUid).toFinset
  listOfAllIncludedFiles := ((included ++ nested).map uniformUid).toFinset
  softwareComponents := software
  isUid := uniformUid_isUid n
  areUids := by
    intro file hfile
    rw [Finset.mem_union, List.mem_toFinset, List.mem_toFinset, List.mem_map, List.mem_map] at hfile
    rcases hfile with ⟨d, -, rfl⟩ | ⟨d, -, rfl⟩
    · exact uniformUid_isUid d
    · exact uniformUid_isUid d

/-! ## Common and exclusive files -/

/-- `_get_intersection_of_files`: `files_in_common['all']`. -/
def getIntersectionOfFiles (order : IterOrder Uid) (foList : List ComparedObject) : List Uid :=
  Coverage.commonNames order ComparedObject.listOfAllIncludedFiles foList

/-- `_get_exclusive_files`. -/
def getExclusiveFiles (order : IterOrder Uid) (foList : List ComparedObject) :
    Dict Uid (List Uid) :=
  Coverage.exclusiveNames order ComparedObject.uid ComparedObject.listOfAllIncludedFiles foList

/-- `_get_files_in_more_than_one_but_not_in_all`. -/
def getFilesInMoreThanOneButNotInAll (order : IterOrder Uid) (foList : List ComparedObject)
    (all : List Uid) (exclusive : Dict Uid (List Uid)) : Dict Uid (List Uid) :=
  Coverage.sharedNames order ComparedObject.uid ComparedObject.listOfAllIncludedFiles foList all
    exclusive

/-- The part of the result of `compare_function` that classifies the files. -/
def fileClasses (order : IterOrder Uid) (foList : List ComparedObject) :
    Coverage.Classes Uid Uid where
  common := getIntersectionOfFiles order foList
  exclusive := getExclusiveFiles order foList
  shared :=
    if 2 < foList.length then
      some (getFilesInMoreThanOneButNotInAll order foList (getIntersectionOfFiles order foList)
        (getExclusiveFiles order foList))
    else none

/-! ## Similar files -/

/-- What the search for similar files asks others for: the ssdeep hashes that the
database holds, `ssdeep.compare` and the configured `ssdeep_ignore`. -/
structure Ssdeep where
  stored : Uid → Option String
  compare : String → String → Nat
  ignoreThreshold : Nat

/-- `parent:file`, which stands for a file in one of the compared objects. -/
abbrev SimilarFileId := String

/-- `itertools.combinations(l, 2)`. -/
def combinations {α : Type*} : List α → List (α × α)
  | [] => []
  | x :: rest => rest.map (fun y => (x, y)) ++ combinations rest

/-- `_get_similar_file_id`. -/
def getSimilarFileId (fileUid parentUid : Uid) : SimilarFileId := parentUid ++ ":" ++ fileUid

/-- The uids whose hashes are asked for. -/
def allUids (foList : List ComparedObject) : Finset Uid :=
  (foList.map ComparedObject.uid).toFinset ∪
    foList.foldr (fun fo uids => fo.listOfAllIncludedFiles ∪ uids) ∅

/-- `get_ssdeep_hash_for_uid_list`. -/
def getSsdeepHashForUidList (env : Ssdeep) (uidList : Finset Uid) (uid : Uid) : Option String :=
  if uid ∈ uidList then env.stored uid else none

/-- `_find_similar_file_for`. -/
def findSimilarFileFor (env : Ssdeep) (order : IterOrder Uid) (fileUid parentUid : Uid)
    (comparisonFo : ComparedObject) (hashDict : Uid → Option String) :
    List ((SimilarFileId × SimilarFileId) × Nat) :=
  match hashDict fileUid with
  | none => []
  | some hashOne =>
      if hashOne = "" then []
      else (order.list comparisonFo.filesIncluded).filterMap fun potentialMatch =>
        match hashDict potentialMatch with
        | none => none
        | some hashTwo =>
            if env.ignoreThreshold < env.compare hashOne hashTwo then
              some ((getSimilarFileId fileUid parentUid,
                getSimilarFileId potentialMatch comparisonFo.uid), env.compare hashOne hashTwo)
            else none

/-- The pairs that the loops of `_get_similar_files` come to, in their order;
the exclusive files of the first object are compared with the files of the second. -/
def findSimilarFiles (env : Ssdeep) (order : IterOrder Uid) (foList : List ComparedObject)
    (exclusiveFiles : Dict Uid (List Uid)) : List ((SimilarFileId × SimilarFileId) × Nat) :=
  (combinations foList).flatMap fun parents =>
    ((exclusiveFiles.get? parents.1.uid).getD []).flatMap fun fileOne =>
      findSimilarFileFor env order fileOne parents.1.uid parents.2
        (getSsdeepHashForUidList env (allUids foList))

/-- What the loops of `_get_similar_files` collect. -/
structure SimilarFiles where
  similarFiles : List (SimilarFileId × SimilarFileId)
  similarity : Dict CompareId Nat

/-- One pass of the loops: the pair is appended and its value is stored under the
id of the comparison of the two. -/
def SimilarFiles.add (found : SimilarFiles) (entry : (SimilarFileId × SimilarFileId) × Nat) :
    SimilarFiles where
  similarFiles := found.similarFiles ++ [entry.1]
  similarity := found.similarity.set (convertUidListToCompareId [entry.1.1, entry.1.2]) entry.2

/-- The loops of `_get_similar_files`. -/
def collectSimilarFiles (env : Ssdeep) (order : IterOrder Uid) (foList : List ComparedObject)
    (exclusiveFiles : Dict Uid (List Uid)) : SimilarFiles :=
  (findSimilarFiles env order foList exclusiveFiles).foldl SimilarFiles.add ⟨[], ∅⟩

/-- `_get_similar_files`; `findCliques` is `networkx.find_cliques` for the graph
with the given edges. -/
def getSimilarFiles (findCliques : List (SimilarFileId × SimilarFileId) → List (List SimilarFileId))
    (env : Ssdeep) (order : IterOrder Uid) (foList : List ComparedObject)
    (exclusiveFiles : Dict Uid (List Uid)) : List (List SimilarFileId) × Dict CompareId Nat :=
  let found := collectSimilarFiles env order foList exclusiveFiles
  ((findCliques found.similarFiles.dedup).map Join.sorted, found.similarity)

/-! ## The table of similar files -/

/-- What `_get_similarity_value` gives: a text or the one value. -/
inductive SimilarityValue where
  | text (text : String)
  | value (value : Nat)
deriving DecidableEq, Repr

/-- `_get_similarity_value`. -/
def getSimilarityValue (groupOfSimilarFiles : List SimilarFileId) (similarity : Dict CompareId Nat) :
    SimilarityValue :=
  match (combinations groupOfSimilarFiles).filterMap fun pair =>
      similarity.get? (convertUidListToCompareId [pair.1, pair.2]) with
  | [] => .text ""
  | [value] => .value value
  | value :: values =>
      .text (toString (values.foldl min value) ++ " ‒ " ++ toString (values.foldl max value))

/-- `similar_file_id.split(':')`, unpacked into two names. -/
def splitSimilarFileId (similarFileId : SimilarFileId) : Option (Uid × Uid) :=
  match Join.split ':' similarFileId with
  | [parentId, fileId] => some (parentId, fileId)
  | _ => none

/-- The first four characters. -/
def firstFour (s : String) : String := String.ofList (s.toList.take 4)

/-- `_get_similar_file_group_id`. -/
def getSimilarFileGroupId (similarFileGroup : List SimilarFileId) : Option String :=
  similarFileGroup.foldlM (fun groupId similarFileId => do
    let (parentUid, fileUid) ← splitSimilarFileId similarFileId
    pure (groupId ++ firstFour parentUid ++ firstFour fileUid)) ""

/-- An entry of the table: the file of each object, and the similarity. -/
structure MatchDict where
  files : Dict Uid (Option Uid)
  similarity : SimilarityValue

/-- `{fo.uid: None for fo in fo_list}` with the files of a group. -/
def matchFiles (foList : List ComparedObject) (groupOfSimilarFiles : List SimilarFileId) :
    Option (Dict Uid (Option Uid)) :=
  groupOfSimilarFiles.foldlM (fun files similarFileId => do
    let (parentId, fileId) ← splitSimilarFileId similarFileId
    pure (files.set parentId (some fileId)))
    (foList.foldl (fun files fo => files.set fo.uid none) ∅)

/-- `combine_similarity_results`; `none` if an id has not exactly one colon. -/
def combineSimilarityResults (similarFiles : List (List SimilarFileId))
    (foList : List ComparedObject) (similarity : Dict CompareId Nat) : Option (Dict String MatchDict) :=
  similarFiles.foldlM (fun result group => do
    let files ← matchFiles foList group
    let groupId ← getSimilarFileGroupId group
    pure (result.set groupId ⟨files, getSimilarityValue group similarity⟩)) ∅

end FactCore.FileCoverage
