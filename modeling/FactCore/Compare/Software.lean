import FactCore.Compare.FileCoverage

/-! # The software comparison, and what the classifications say

`plugins/compare/software/code/software.py`: the same classification as that of
the files, for the names of the software components. It is shown that both
classify completely and without overlap.
-/

namespace FactCore.FileCoverage

/-- `_get_software_set`. -/
def getSoftwareSet (fo : ComparedObject) : Finset String := fo.softwareComponents

/-- `_get_intersection_of_software`: `software_in_common['all']`. -/
def getIntersectionOfSoftware (order : IterOrder String) (foList : List ComparedObject) :
    List String :=
  Coverage.commonNames order getSoftwareSet foList

/-- `_get_exclusive_software`. -/
def getExclusiveSoftware (order : IterOrder String) (foList : List ComparedObject) :
    Dict Uid (List String) :=
  Coverage.exclusiveNames order ComparedObject.uid getSoftwareSet foList

/-- `_get_software_in_more_than_one_but_not_in_all`. -/
def getSoftwareInMoreThanOneButNotInAll (order : IterOrder String) (foList : List ComparedObject)
    (all : List String) (exclusive : Dict Uid (List String)) : Dict Uid (List String) :=
  Coverage.sharedNames order ComparedObject.uid getSoftwareSet foList all exclusive

/-- `compare_function` of the software comparison. -/
def softwareClasses (order : IterOrder String) (foList : List ComparedObject) :
    Coverage.Classes Uid String where
  common := getIntersectionOfSoftware order foList
  exclusive := getExclusiveSoftware order foList
  shared :=
    if 2 < foList.length then
      some (getSoftwareInMoreThanOneButNotInAll order foList
        (getIntersectionOfSoftware order foList) (getExclusiveSoftware order foList))
    else none

variable {order : IterOrder Uid} {names : IterOrder String} {foList : List ComparedObject}

/-- The files and the software names of two or more objects with distinct uids
are classified completely and without overlap, and for two objects the class
that is left out would be empty. -/
theorem classes_right (hnodup : (foList.map ComparedObject.uid).Nodup) (htwo : 2 ≤ foList.length) :
    Coverage.Right ComparedObject.uid ComparedObject.listOfAllIncludedFiles foList
      (fileClasses order foList) ∧
    Coverage.Right ComparedObject.uid getSoftwareSet foList (softwareClasses names foList) ∧
    (foList.length = 2 → ∀ fo ∈ foList,
      (getFilesInMoreThanOneButNotInAll order foList (getIntersectionOfFiles order foList)
        (getExclusiveFiles order foList)).get? fo.uid = some [] ∧
      (getSoftwareInMoreThanOneButNotInAll names foList (getIntersectionOfSoftware names foList)
        (getExclusiveSoftware names foList)).get? fo.uid = some []) := by
  refine ⟨Coverage.classify_right hnodup htwo, Coverage.classify_right hnodup htwo, ?_⟩
  intro htwo fo hfo
  constructor
  · exact Coverage.get?_sharedNames_two order _ hnodup htwo hfo
  · exact Coverage.get?_sharedNames_two names _ hnodup htwo hfo

/-- Three objects; the first two share a file and a software name. -/
def threeObjects : List ComparedObject :=
  [uniformObject 10 [1, 2] [4] {"busybox", "linux"},
    uniformObject 11 [1, 2] [] {"busybox", "linux"},
    uniformObject 12 [1, 3] [] {"linux"}]

theorem threeObjects_classes_right :
    Coverage.Right ComparedObject.uid ComparedObject.listOfAllIncludedFiles threeObjects
      (fileClasses (IterOrder.sorted Uid) threeObjects) ∧
    Coverage.Right ComparedObject.uid getSoftwareSet threeObjects
      (softwareClasses (IterOrder.sorted String) threeObjects) ∧
    (threeObjects.length = 2 → ∀ fo ∈ threeObjects,
      (getFilesInMoreThanOneButNotInAll (IterOrder.sorted Uid) threeObjects
        (getIntersectionOfFiles (IterOrder.sorted Uid) threeObjects)
        (getExclusiveFiles (IterOrder.sorted Uid) threeObjects)).get? fo.uid = some [] ∧
      (getSoftwareInMoreThanOneButNotInAll (IterOrder.sorted String) threeObjects
        (getIntersectionOfSoftware (IterOrder.sorted String) threeObjects)
        (getExclusiveSoftware (IterOrder.sorted String) threeObjects)).get? fo.uid = some []) :=
  classes_right (by decide +kernel) (by decide +kernel)

end FactCore.FileCoverage
