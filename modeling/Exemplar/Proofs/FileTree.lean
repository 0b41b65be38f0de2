import Exemplar.FileTree.Writing
import Mathlib.Data.List.Basic

/-!
# What writing leaves alone

A directory is only made where nothing was, so to make directories changes no
file and takes no directory away, also where it is refused half-way. To write a
file changes what is at one location, the one that its path text still leads to
afterwards.
-/

namespace Exemplar

namespace FileTree

variable {tree made written : FileTree} {start : Location} {names : List String}
  {path text : String}

/-! ## Making directories -/

/-- A tree that has the same files as another and at least its directories. -/
structure Houses (made tree : FileTree) : Prop where
  file : ∀ location bytes, made.entry location = .file bytes ↔ tree.entry location = .file bytes
  directory : ∀ location, tree.entry location = .directory → made.entry location = .directory

theorem Houses.refl (tree : FileTree) : tree.Houses tree where
  file := fun _ _ => Iff.rfl
  directory := fun _ there => there

theorem Houses.trans {later : FileTree} (second : later.Houses made) (first : made.Houses tree) :
    later.Houses tree where
  file := fun location bytes => (second.file location bytes).trans (first.file location bytes)
  directory := fun location there => second.directory location (first.directory location there)

theorem entry_addDirectory (tree : FileTree) (location other : Location) :
    entry { tree with directories := tree.directories ++ [location] } other =
      if other = location then .directory else tree.entry other := by
  by_cases same : other = location
  · rw [if_pos same, entry]
    simp [same]
  · rw [if_neg same, entry, entry]
    simp [same]

theorem houses_makeDirectory (ok : tree.makeDirectory start names = .ok made) :
    made.Houses tree := by
  rw [makeDirectory] at ok
  split at ok
  · cases ok
  next location _ =>
    split at ok
    next vacant =>
      cases ok
      constructor
      · intro other bytes
        rw [entry_addDirectory]
        by_cases same : other = location
        · simp [same, vacant]
        · rw [if_neg same]
      · intro other there
        rw [entry_addDirectory]
        by_cases same : other = location
        · rw [if_pos same]
        · rwa [if_neg same]
    next => cases ok

theorem houses_ensureDirectory (tree : FileTree) (start : Location) (names : List String) :
    (tree.ensureDirectory start names).2.Houses tree := by
  rw [ensureDirectory]
  split
  next made ok => exact houses_makeDirectory ok
  next =>
    split
    · exact .refl tree
    · exact .refl tree

theorem houses_ensureDirectories (tree : FileTree) (start : Location) (names : List String) :
    (tree.ensureDirectories start names).2.Houses tree := by
  induction names with
  | nil => exact .refl tree
  | cons name rest ih =>
    rw [ensureDirectories]
    split
    · split
      next made above =>
        rw [above] at ih
        exact (houses_ensureDirectory made start _).trans ih
      next => exact ih
    · exact houses_ensureDirectory tree start _

/-- To make a directory and those above it changes no file, even if it is refused. -/
theorem houses_prepare (tree : FileTree) (path : String) : (tree.prepare path).2.Houses tree := by
  rw [prepare]
  split
  · exact .refl tree
  · split
    · exact .refl tree
    · exact houses_ensureDirectories tree _ _

/-! ## Writing a file -/

theorem lookup_setFile (bytes : ByteArray) (location other : Location)
    (files : List (Location × ByteArray)) :
    (setFile bytes location files).lookup other =
      if other = location then some bytes else files.lookup other := by
  induction files with
  | nil =>
    by_cases same : other = location
    · simp [setFile, same]
    · simp [setFile, same, List.lookup_cons, beq_false_of_ne same]
  | cons file rest ih =>
    obtain ⟨place, old⟩ := file
    rw [setFile]
    by_cases here : place = location
    · by_cases same : other = location
      · simp [here, same]
      · simp [here, same, List.lookup_cons, beq_false_of_ne same]
    · by_cases there : other = place
      · simp [there, here]
      · rw [if_neg here, List.lookup_cons, List.lookup_cons, beq_false_of_ne there]
        exact ih

/-- A tree that differs from another in what it holds at one location: a file. -/
structure Holds (written : FileTree) (location : Location) (bytes : ByteArray)
    (tree : FileTree) : Prop where
  file : written.entry location = .file bytes
  notDirectory : tree.entry location ≠ .directory
  other : ∀ other, other ≠ location → written.entry other = tree.entry other

theorem Holds.directory {location : Location} {bytes : ByteArray}
    (holds : written.Holds location bytes tree) {other : Location}
    (there : tree.entry other = .directory) : written.entry other = .directory := by
  by_cases same : other = location
  · exact absurd (same ▸ there) holds.notDirectory
  · rw [holds.other other same, there]

theorem holds_setFile (bytes : ByteArray) {location : Location}
    (notDirectory : tree.entry location ≠ .directory) :
    Holds { tree with files := setFile bytes location tree.files } location bytes tree := by
  have free : (isLandmark location || tree.directories.contains location) = false := by
    by_contra taken
    rw [Bool.not_eq_false] at taken
    rw [entry, if_pos taken] at notDirectory
    exact notDirectory rfl
  constructor
  · rw [entry, lookup_setFile, if_pos rfl, free]
    rfl
  · exact notDirectory
  · intro other differs
    rw [entry, entry, lookup_setFile, if_neg differs]

/-- A path text leads where it led, if no directory is taken away. -/
theorem walk_mono (stays : ∀ location, tree.entry location = .directory →
      made.entry location = .directory) {location : Location}
    (found : tree.walk start names = .ok location) : made.walk start names = .ok location := by
  induction names generalizing start with
  | nil => exact found
  | cons name rest ih =>
    cases rest with
    | nil => exact found
    | cons second rest =>
      rw [walk] at found ⊢
      · cases step : stepTo start name with
        | error error =>
          rw [step] at found
          cases found
        | ok next =>
          rw [step] at found
          dsimp only at found ⊢
          cases there : tree.entry next with
          | directory =>
            rw [there] at found
            rw [stays next there]
            exact ih found
          | file bytes =>
            rw [there] at found
            cases found
          | vacant =>
            rw [there] at found
            cases found
      · simp
      · simp

theorem locate_mono (stays : ∀ location, tree.entry location = .directory →
      made.entry location = .directory) {location : Location}
    (found : tree.locate path = .ok location) : made.locate path = .ok location := by
  rw [locate] at found ⊢
  cases fault : pathFault? path with
  | some error =>
    rw [fault] at found
    cases found
  | none =>
    rw [fault] at found
    exact walk_mono stays found

/-- A text is written to the file that its path text leads to, before and after. -/
theorem exists_holds_of_write (ok : tree.write path text = .ok written) :
    ∃ location, written.locate path = .ok location ∧ written.Holds location text.toUTF8 tree := by
  rw [write] at ok
  split at ok
  · cases ok
  · split at ok
    · cases ok
    · split at ok
      · cases ok
      next location found =>
        split at ok
        · cases ok
        next notDirectory =>
          cases ok
          have holds : Holds { tree with files := setFile text.toUTF8 location tree.files }
              location text.toUTF8 tree :=
            holds_setFile text.toUTF8 notDirectory
          exact ⟨location, locate_mono (fun _ there => holds.directory there) found, holds⟩

end FileTree

end Exemplar
