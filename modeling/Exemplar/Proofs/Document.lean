import Exemplar.Document
import Exemplar.Proofs.Json.Blanks
import Exemplar.Proofs.Text.Layout

/-!
# The values of documents

Where a document came from matters for messages only. The values of the documents
on the lines of some files are those of the lines one after the other, however
the lines are written and wherever one file ends and the next begins.
-/

namespace Exemplar

namespace Document

/-- The values of documents, if there are documents and not an error. -/
def values? (documents : Except InputError (List Document)) : Option (List Json) :=
  documents.toOption.map fun documents => documents.map (·.value)

/-- The values of the documents that a request makes of a value. -/
def valuesOf? (services : Services) (request : Request) (value : Json) : Option (List Json) :=
  values? (prepare services request ⟨"", value⟩)

def valuesOfLine? (services : Services) (request : Request) (line : List Char) :
    Option (List Json) :=
  (Json.ofText (String.ofList line)).toOption.bind (valuesOf? services request)

def valuesOfLines? (services : Services) (request : Request) (lines : List (List Char)) :
    Option (List Json) :=
  (lines.mapM (valuesOfLine? services request)).map List.flatten

variable {services : Services} {request : Request}

theorem toOption_append (first rest : Except InputError (List Document)) :
    (do return (← first) ++ (← rest)).toOption =
      first.toOption.bind fun documents => rest.toOption.map (documents ++ ·) := by
  cases first <;> cases rest <;> rfl

theorem values?_append (first rest : Except InputError (List Document)) :
    values? (do return (← first) ++ (← rest)) =
      (values? first).bind fun values => (values? rest).map (values ++ ·) := by
  rw [values?, toOption_append, values?, values?]
  cases first.toOption with
  | none => rfl
  | some documents =>
    cases rest.toOption with
    | none => rfl
    | some others => exact congrArg some List.map_append

/-- The source of a document has no part in its values. -/
theorem values?_prepare (services : Services) (request : Request) (source : String) (value : Json) :
    values? (prepare services request ⟨source, value⟩) = valuesOf? services request value := by
  have refined : ∀ source value, values? (refine services request.filter ⟨source, value⟩) =
      values? (refine services request.filter ⟨"", value⟩) := by
    intro source value
    simp only [refine]
    split
    · rfl
    · split
      · simp only [values?, Except.toOption, Option.map_some, List.map_map, Function.comp_def]
      · rfl
  simp only [valuesOf?, prepare, select]
  cases request.pointer with
  | none => exact refined source value
  | some pointer =>
    dsimp only
    cases value.find? pointer with
    | none => rfl
    | some part => exact refined source part

theorem values?_prepare_ofLine (path : String) (number : Nat) (line : List Char) :
    values? (do prepare services request (← ofLine path (number, String.ofList line))) =
      valuesOfLine? services request line := by
  rw [valuesOfLine?, ofLine]
  cases Json.ofText (String.ofList line) with
  | error error => rfl
  | ok value => exact values?_prepare services request _ value

/-- The part of the value on a line that a pointer selects. -/
def part? (pointer : Option String) (line : List Char) : Option Json :=
  (Json.ofText (String.ofList line)).toOption.bind fun value =>
    match pointer with
    | none => some value
    | some pointer => value.find? pointer

/-- Without a filter, one document is made of a line. -/
theorem toOption_prepare_ofLine (unfiltered : request.filter = none) (path : String) (number : Nat)
    (line : List Char) :
    (do prepare services request (← ofLine path (number, String.ofList line))).toOption =
      (part? request.pointer line).map fun part => [⟨path ++ ":" ++ toString number, part⟩] := by
  rw [part?, ofLine]
  cases Json.ofText (String.ofList line) with
  | error error => rfl
  | ok value =>
    simp only [bind, Except.bind, prepare, select, refine, unfiltered]
    cases request.pointer with
    | none => rfl
    | some pointer =>
      dsimp only [Except.toOption, Option.bind]
      cases value.find? pointer <;> rfl

theorem toOption_ofLines_cons (unfiltered : request.filter = none) (path : String) (number : Nat)
    (line : List Char) (rest : List (Nat × String)) :
    (ofLines services request path ((number, String.ofList line) :: rest)).toOption =
      (part? request.pointer line).bind fun part =>
        (ofLines services request path rest).toOption.map
          (⟨path ++ ":" ++ toString number, part⟩ :: ·) := by
  have split := toOption_append
    (do prepare services request (← ofLine path (number, String.ofList line)))
    (ofLines services request path rest)
  rw [toOption_prepare_ofLine unfiltered, Option.bind_map] at split
  rw [ofLines]
  refine Eq.trans ?_ split
  cases ofLine path (number, String.ofList line) <;> rfl

theorem ne_nil_of_ofLines (unfiltered : request.filter = none) {path : String}
    {numbered : List (Nat × List Char)} (nonempty : numbered ≠ []) {documents : List Document}
    (ok : (ofLines services request path
      (numbered.map fun line => (line.1, String.ofList line.2))).toOption = some documents) :
    documents ≠ [] := by
  cases numbered with
  | nil => exact (nonempty rfl).elim
  | cons line rest =>
    rw [List.map_cons, toOption_ofLines_cons unfiltered] at ok
    obtain ⟨part, _, ok⟩ := Option.bind_eq_some_iff.mp ok
    obtain ⟨others, _, rfl⟩ := Option.map_eq_some_iff.mp ok
    exact List.cons_ne_nil _ others

theorem valuesOfLine?_of_unfiltered (unfiltered : request.filter = none) (line : List Char) :
    valuesOfLine? services request line = (part? request.pointer line).map fun part => [part] := by
  rw [← values?_prepare_ofLine "" 0 line, values?, toOption_prepare_ofLine unfiltered,
    Option.map_map]
  rfl

theorem valuesOfLines?_nil : valuesOfLines? services request [] = some [] := rfl

theorem valuesOfLines?_append (lines others : List (List Char)) :
    valuesOfLines? services request (lines ++ others) =
      (valuesOfLines? services request lines).bind fun values =>
        (valuesOfLines? services request others).map (values ++ ·) := by
  rw [valuesOfLines?, valuesOfLines?, valuesOfLines?, List.mapM_append]
  cases lines.mapM (valuesOfLine? services request) with
  | none => rfl
  | some values =>
    cases others.mapM (valuesOfLine? services request) with
    | none => rfl
    | some values' => exact congrArg some List.flatten_append

theorem valuesOfLines?_cons (line : List Char) (rest : List (List Char)) :
    valuesOfLines? services request (line :: rest) =
      (valuesOfLine? services request line).bind fun values =>
        (valuesOfLines? services request rest).map (values ++ ·) := by
  rw [← List.singleton_append, valuesOfLines?_append]
  congr 1
  rw [valuesOfLines?, List.mapM_cons, List.mapM_nil]
  cases valuesOfLine? services request line with
  | none => rfl
  | some values => exact congrArg some (List.append_nil values)

/-- A carriage return at the end of a line is a blank of the JSON text. -/
theorem valuesOfLine?_eq_of_readAs {line line' : List Char} (read : Text.ReadAs line line') :
    valuesOfLine? services request line' = valuesOfLine? services request line := by
  rcases read with rfl | rfl
  · rfl
  · rw [valuesOfLine?, valuesOfLine?, Json.ofText_followedBy rfl]

theorem valuesOfLines?_eq_of_readAs {lines lines' : List (List Char)}
    (read : List.Forall₂ Text.ReadAs lines lines') :
    valuesOfLines? services request lines' = valuesOfLines? services request lines := by
  induction read with
  | nil => rfl
  | cons first _ ih =>
    rw [valuesOfLines?_cons, valuesOfLines?_cons, valuesOfLine?_eq_of_readAs first, ih]

theorem values?_ofLines (path : String) (numbered : List (Nat × List Char)) :
    values? (ofLines services request path
        (numbered.map fun line => (line.1, String.ofList line.2))) =
      valuesOfLines? services request (numbered.map (·.2)) := by
  induction numbered with
  | nil => rfl
  | cons line rest ih =>
    rw [List.map_cons, List.map_cons, ofLines, valuesOfLines?_cons, ← ih,
      ← values?_prepare_ofLine path line.1 line.2, ← values?_append]
    cases ofLine path (line.1, String.ofList line.2) <;> rfl

theorem numberedLines_eq (text : String) :
    numberedLines text =
      (Text.numberedSolidLines text.toList).map fun line => (line.1, String.ofList line.2) := by
  rw [numberedLines, Text.numberedSolidLines, List.map_filterMap]
  congr 1
  funext numbered
  obtain ⟨line, number⟩ := numbered
  dsimp only
  cases Text.isBlank line <;> rfl

/-- The values on the lines of a file are those of the lines that its text holds. -/
theorem values?_ofText (byLine : request.lineByLine = true) (path : String) {text : String}
    {lines : List (List Char)} (holds : Text.Holds lines text.toList)
    (proper : ∀ line ∈ lines, Text.IsLine line) :
    values? (ofText services request path text) = valuesOfLines? services request lines := by
  rw [ofText, if_pos byLine, numberedLines_eq, values?_ofLines, Text.map_snd_numberedSolidLines]
  exact valuesOfLines?_eq_of_readAs (holds.solidLines proper)

end Document

/-- A file that can be read and holds some lines. -/
def FileTree.HoldsLines (tree : FileTree) (path : String) (lines : List (List Char)) : Prop :=
  ∃ text, tree.read path = .ok text ∧ Text.Holds lines text.toList

namespace Document

variable {services : Services} {request : Request} {tree : FileTree}

/-- The values on the lines of files are those of all their lines, one after the other. -/
theorem values?_ofFiles (byLine : request.lineByLine = true) {paths : List String}
    {groups : List (List (List Char))} (written : List.Forall₂ tree.HoldsLines paths groups)
    (proper : ∀ group ∈ groups, ∀ line ∈ group, Text.IsLine line) :
    values? (ofFiles services tree request paths) =
      valuesOfLines? services request groups.flatten := by
  induction written with
  | nil => rfl
  | cons first _ ih =>
    rw [List.forall_mem_cons] at proper
    obtain ⟨text, read, holds⟩ := first
    rw [List.flatten_cons, valuesOfLines?_append, ← ih proper.2, ofFiles, read,
      ← values?_ofText byLine _ holds proper.1, ← values?_append]

/-- A path text that is no pattern stands for itself. -/
theorem resolve_of_literal {path : String} (literal : isPattern path = false) :
    resolve services tree path = .ok [path] := by
  rw [resolve, literal]
  rfl

/-- Inputs that each stand for one path stand for these paths together. -/
theorem resolveAll_of_each {inputs paths : List String}
    (each : List.Forall₂ (fun input path => resolve services tree input = .ok [path])
      inputs paths) :
    resolveAll services tree inputs = .ok paths := by
  induction each with
  | nil => rfl
  | cons first _ ih =>
    rw [resolveAll, first, ih]
    rfl

theorem resolveAll_of_literal {paths : List String}
    (literal : ∀ path ∈ paths, isPattern path = false) :
    resolveAll services tree paths = .ok paths :=
  resolveAll_of_each (List.forall₂_same.mpr fun path member =>
    resolve_of_literal (literal path member))

end Document

/-- The values that a request finds line by line in files. -/
theorem Request.values?_documents {services : Services} {tree : FileTree} {request : Request}
    (byLine : request.lineByLine = true) {paths : List String}
    (resolved : Document.resolveAll services tree request.inputs = .ok paths)
    {groups : List (List (List Char))} (written : List.Forall₂ tree.HoldsLines paths groups)
    (proper : ∀ group ∈ groups, ∀ line ∈ group, Text.IsLine line) :
    Document.values? (request.documents services tree) =
      Document.valuesOfLines? services request groups.flatten := by
  rw [documents, resolved]
  exact Document.values?_ofFiles byLine written proper

end Exemplar
