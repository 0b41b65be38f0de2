import Exemplar.Report
import Exemplar.Proofs.Definition.Rendering
import Exemplar.Proofs.Document
import Exemplar.Proofs.Samples.NormalForm

/-!
# What a run prints

A run prints the text that the values of its documents come to, or nothing. So
lines may be spread over files in any way if their documents are described
together. If they are described one by one, the text on each line is the text of
a run on that line alone, below a comment that says where the line stands. A
filter can make any number of documents of a line, so this is said without one.
-/

namespace Exemplar

variable {services : Services} {request : Request} {tree tree' : FileTree} {options : Options}

namespace Report

/-- The text on values together, of which there has to be one at least. -/
def joint? (form : Form) (options : Options) (values : List Json) : Option String :=
  if values.isEmpty then none
  else (definitionsOfSamples options values).toOption.map fun types => text form (.joint types)

theorem toOption_ofDocuments (form : Form) (documents : List Document) :
    (ofDocuments options false documents).toOption.map (text form) =
      joint? form options (documents.map (·.value)) := by
  rw [ofDocuments, joint?, List.isEmpty_map]
  cases documents.isEmpty with
  | true => rfl
  | false =>
    cases definitionsOfSamples options (documents.map (·.value)) with
    | error failure => rfl
    | ok types => rfl

end Report

namespace Request

/-- The request to describe the lines of inputs together and print that. -/
def together (request : Request) (inputs : List String) : Request :=
  { request with inputs := inputs, lineByLine := true, each := false, output := none }

/-- The request to describe each line of an input and print that. -/
def apart (request : Request) (input : String) : Request :=
  { request with inputs := [input], lineByLine := true, each := true, output := none }

theorem toOption_printed (unsaved : request.output = none) :
    (request.runWith services tree).printed.toOption =
      (request.options tree).toOption.bind fun options =>
        (request.documents services tree).toOption.bind fun documents =>
          (Report.ofDocuments options request.each documents).toOption.map
            (Report.text request.form) := by
  have same : (request.runWith services tree).printed.toOption =
      (request.report services tree).toOption := by
    rw [runWith, unsaved]
    cases request.report services tree <;> rfl
  rw [same, report]
  cases request.options tree with
  | error error => rfl
  | ok options =>
    cases request.documents services tree with
    | error error => rfl
    | ok documents =>
      cases reported : Report.ofDocuments options request.each documents <;>
        simp [bind, Except.bind, Except.mapError, Except.toOption, reported, pure, Except.pure]

/-- What a run on lines of files prints, by the lines alone. -/
theorem toOption_printed_together {inputs paths : List String}
    (resolved : Document.resolveAll services tree inputs = .ok paths)
    {groups : List (List (List Char))} (written : List.Forall₂ tree.HoldsLines paths groups)
    (proper : ∀ group ∈ groups, ∀ line ∈ group, Text.IsLine line) :
    ((request.together inputs).runWith services tree).printed.toOption =
      (request.options tree).toOption.bind fun options =>
        (Document.valuesOfLines? services request groups.flatten).bind
          (Report.joint? request.form options) := by
  have values : Document.values? ((request.together inputs).documents services tree) =
      Document.valuesOfLines? services request groups.flatten :=
    values?_documents rfl resolved written proper
  rw [toOption_printed rfl, ← values, Document.values?]
  refine congrArg (Option.bind _) (funext fun options => ?_)
  rw [Option.bind_map]
  refine congrArg (Option.bind _) (funext fun documents => ?_)
  exact Report.toOption_ofDocuments request.form documents

end Request

/-! ## Each line alone -/

namespace Report

/-- The text on the value of one line alone. -/
def alone? (pointer : Option String) (options : Options) (line : List Char) : Option String :=
  (Document.part? pointer line).bind fun part =>
    (definitionsOfSamples options [part]).toOption.map render

/-- A text below a comment with its place: the path of a file and the number of a line. -/
def placed (path : String) (line : Nat × List Char) (text : String) : String :=
  "// " ++ path ++ ":" ++ toString line.1 ++ "\n" ++ text

theorem joint?_single (options : Options) (part : Json) :
    joint? .types options [part] = (definitionsOfSamples options [part]).toOption.map render := rfl

theorem toOption_ofEach_cons (document : Document) (rest : List Document) :
    (ofEach options (document :: rest)).toOption =
      (definitionsOfSamples options [document.value]).toOption.bind fun types =>
        (ofEach options rest).toOption.map ((document.source, types) :: ·) := by
  rw [ofEach]
  cases definitionsOfSamples options [document.value] with
  | error failure => rfl
  | ok types =>
    dsimp only
    cases ofEach options rest <;> rfl

theorem placed_eq_typesText (path : String) (line : Nat × List Char)
    (types : List (Definition String)) :
    placed path line (render types) = typesText (path ++ ":" ++ toString line.1, types) := by
  rw [placed, typesText]
  simp only [String.append_assoc]

/-- The texts on the lines of a file one by one are those of each line alone, with their places. -/
theorem toOption_ofEach_ofLines (unfiltered : request.filter = none) (path : String)
    (numbered : List (Nat × List Char)) :
    ((Document.ofLines services request path
        (numbered.map fun line => (line.1, String.ofList line.2))).toOption.bind fun documents =>
      (ofEach options documents).toOption.map fun groups => groups.map typesText) =
      (numbered.mapM fun line => alone? request.pointer options line.2).map
        (List.zipWith (placed path) numbered) := by
  induction numbered with
  | nil => rfl
  | cons line rest ih =>
    rw [List.map_cons, Document.toOption_ofLines_cons unfiltered, List.mapM_cons, alone?]
    cases Document.part? request.pointer line.2 with
    | none => rfl
    | some part =>
      generalize (Document.ofLines services request path
        (rest.map fun line => (line.1, String.ofList line.2))).toOption = documents at ih ⊢
      generalize (rest.mapM fun line => alone? request.pointer options line.2) = texts at ih ⊢
      simp only [Option.bind_some]
      cases documents with
      | none =>
        cases texts with
        | none => cases definitionsOfSamples options [part] <;> rfl
        | some texts => cases ih
      | some documents =>
        simp only [Option.map_some, Option.bind_some, toOption_ofEach_cons] at ih ⊢
        cases definitionsOfSamples options [part] with
        | error failure => rfl
        | ok types =>
          have found : (Except.ok types : Except Failure _).toOption = some types := rfl
          rw [found, Option.bind_some, Option.map_some]
          generalize (ofEach options documents).toOption = groups at ih ⊢
          cases groups with
          | none =>
            cases texts with
            | none => rfl
            | some texts => cases ih
          | some groups =>
            cases texts with
            | none => cases ih
            | some texts =>
              have head := placed_eq_typesText path line types
              exact congrArg some (List.cons_eq_cons.mpr ⟨head.symm, Option.some.inj ih⟩)

theorem ends_laterText (types : List (Definition String)) (t : Definition String) :
    ∃ body, Render.definitionText t ++ Render.laterText types = body ++ [';', '\n'] := by
  induction types generalizing t with
  | nil =>
    refine ⟨"type ".toList ++ (t.name.toList ++ (' ' :: '=' :: ' ' :: Render.bodyText t.body)), ?_⟩
    rw [Render.laterText, List.flatMap_nil, Render.definitionText_append]
    simp only [List.append_assoc, List.cons_append]
  | cons next rest ih =>
    obtain ⟨body, ends⟩ := ih next
    refine ⟨Render.definitionText t ++ '\n' :: body, ?_⟩
    rw [Render.laterText, List.flatMap_cons, List.cons_append, ← Render.laterText, ends,
      List.append_assoc, List.cons_append]

/-- The text of definitions made from samples ends a line. -/
theorem ends_render {samples : List Json} {types : List (Definition String)}
    (ok : definitionsOfSamples options samples = .ok types) :
    ∃ body, render types = body ++ ";\n" := by
  obtain ⟨⟨_, ⟨front, last, split, _⟩, _, _⟩, _⟩ := definitionsOfSamples_normalForm ok
  cases types with
  | nil => cases front <;> cases split
  | cons t rest =>
    obtain ⟨body, ends⟩ := ends_laterText rest t
    refine ⟨String.ofList body, String.toList_inj.mp ?_⟩
    rw [Render.render_cons, ends, String.toList_append, String.toList_ofList]
    rfl

end Report

theorem toOption_eq_some_iff {ε α : Type} {x : Except ε α} {a : α} :
    x.toOption = some a ↔ x = .ok a := by
  cases x <;> simp [Except.toOption]

theorem mapM_eq_some_iff {α β : Type} {f : α → Option β} {xs : List α} {ys : List β} :
    xs.mapM f = some ys ↔ List.Forall₂ (fun x y => f x = some y) xs ys := by
  induction xs generalizing ys with
  | nil => cases ys <;> simp
  | cons x xs ih =>
    rw [List.mapM_cons]
    cases ys with
    | nil => cases f x <;> cases xs.mapM f <;> simp
    | cons y ys =>
      rw [List.forall₂_cons, ← ih]
      cases f x <;> cases xs.mapM f <;> simp

namespace Request

/-- What a run on each line of a file prints, by the lines alone. -/
theorem toOption_printed_apart (form : request.form = .types) (unfiltered : request.filter = none)
    {input path text : String} (resolved : Document.resolve services tree input = .ok [path])
    (read : tree.read path = .ok text) {numbered : List (Nat × List Char)}
    (lines : Text.numberedSolidLines text.toList = numbered) (nonempty : numbered ≠ []) :
    ((request.apart input).runWith services tree).printed.toOption =
      (request.options tree).toOption.bind fun options =>
        (numbered.mapM fun line => Report.alone? request.pointer options line.2).map fun texts =>
          "\n".intercalate (List.zipWith (Report.placed path) numbered texts) := by
  have documents : (request.apart input).documents services tree =
      Document.ofLines services (request.apart input) path
        (numbered.map fun line => (line.1, String.ofList line.2)) := by
    rw [← lines, ← Document.numberedLines_eq]
    have resolvedAll :
        Document.resolveAll services tree (request.apart input).inputs = .ok [path] :=
      Document.resolveAll_of_each (.cons resolved .nil)
    rw [Request.documents, resolvedAll]
    change Document.ofFiles services tree (request.apart input) [path] = _
    rw [Document.ofFiles, read]
    change (do
      return (← Document.ofLines services (request.apart input) path _) ++ (← Except.ok [])) = _
    cases Document.ofLines services (request.apart input) path (Document.numberedLines text) with
    | error error => rfl
    | ok documents => exact congrArg Except.ok (List.append_nil documents)
  rw [toOption_printed rfl, documents]
  refine congrArg (Option.bind _) (funext fun options => ?_)
  have unfilteredApart : (request.apart input).filter = none := unfiltered
  have texts := @Report.toOption_ofEach_ofLines services _ options unfilteredApart path numbered
  have notEmpty := @Document.ne_nil_of_ofLines services _ unfilteredApart path numbered nonempty
  generalize (Document.ofLines services (request.apart input) path
    (numbered.map fun line => (line.1, String.ofList line.2))).toOption = documents
      at texts notEmpty ⊢
  have written := congrArg (Option.map "\n".intercalate) texts
  rw [Option.map_map] at written
  refine Eq.trans ?_ written
  cases documents with
  | none => rfl
  | some documents =>
    change (Report.ofDocuments options true documents).toOption.map (Report.text request.form) = _
    rw [Report.ofDocuments, List.isEmpty_eq_false_iff.mpr (notEmpty rfl), form]
    cases found : Report.ofEach options documents <;>
      simp [found, Except.toOption, Except.map, Report.text]

/-- What a run on a line alone prints. -/
theorem toOption_printed_alone (form : request.form = .types) (unfiltered : request.filter = none)
    {input path : String} (resolved : Document.resolve services tree input = .ok [path])
    {line : List Char} (written : tree.HoldsLines path [line]) (proper : Text.IsLine line) :
    ((request.together [input]).runWith services tree).printed.toOption =
      (request.options tree).toOption.bind fun options =>
        Report.alone? request.pointer options line := by
  have resolvedAll : Document.resolveAll services tree [input] = .ok [path] :=
    Document.resolveAll_of_each (.cons resolved .nil)
  have values : Document.valuesOfLines? services request [line] =
      (Document.part? request.pointer line).map fun part => [part] := by
    rw [Document.valuesOfLines?_cons, Document.valuesOfLines?_nil,
      Document.valuesOfLine?_of_unfiltered unfiltered]
    cases Document.part? request.pointer line <;> rfl
  have writtenAll : List.Forall₂ tree.HoldsLines [path] [[line]] := .cons written .nil
  rw [toOption_printed_together resolvedAll writtenAll (by simpa)]
  refine congrArg (Option.bind _) (funext fun options => ?_)
  rw [List.flatten_singleton, values, form, Option.bind_map]
  exact congrArg (Option.bind _) (funext fun part => Report.joint?_single options part)

/-- An input in a file tree that stands for a file with just one line, where the same options hold. -/
def StandsAlone (services : Services) (request : Request) (tree : FileTree) (line : List Char)
    (alone : FileTree × String) : Prop :=
  (∃ path, Document.resolve services alone.1 alone.2 = .ok [path] ∧
      alone.1.HoldsLines path [line]) ∧
    request.options alone.1 = request.options tree

theorem StandsAlone.printed_iff {line : List Char} {alone : FileTree × String}
    (stands : request.StandsAlone services tree line alone) (form : request.form = .types)
    (unfiltered : request.filter = none) (proper : Text.IsLine line) (out : String) :
    ((request.options tree).toOption.bind fun options =>
      Report.alone? request.pointer options line) = some out ↔
      ((request.together [alone.2]).runWith services alone.1).printed = .ok out ∧
        ∃ body, out = body ++ ";\n" := by
  obtain ⟨⟨path, resolved, written⟩, sameOptions⟩ := stands
  rw [← sameOptions, ← toOption_printed_alone form unfiltered resolved written proper,
    toOption_eq_some_iff]
  refine ⟨fun printed => ⟨printed, ?_⟩, And.left⟩
  rw [← toOption_eq_some_iff, toOption_printed_alone form unfiltered resolved written proper]
    at printed
  obtain ⟨options, _, printed⟩ := Option.bind_eq_some_iff.mp printed
  obtain ⟨part, _, printed⟩ := Option.bind_eq_some_iff.mp printed
  obtain ⟨types, ok, rfl⟩ := Option.map_eq_some_iff.mp printed
  exact Report.ends_render (toOption_eq_some_iff.mp ok)

end Request

/-- If two lists match, the same lists match either of them wherever members do. -/
theorem forall₂_congr_left {α β γ : Type} {R : α → β → Prop} {P : α → γ → Prop} {Q : β → γ → Prop}
    {xs : List α} {ys : List β} (related : List.Forall₂ R xs ys)
    (same : ∀ x ∈ xs, ∀ y, R x y → ∀ z, P x z ↔ Q y z) (zs : List γ) :
    List.Forall₂ P xs zs ↔ List.Forall₂ Q ys zs := by
  induction related generalizing zs with
  | nil => cases zs <;> simp
  | cons first _ ih =>
    rw [List.forall_mem_cons] at same
    cases zs with
    | nil => simp
    | cons z zs =>
      rw [List.forall₂_cons, List.forall₂_cons, same.1 _ first z, ih same.2 zs]

namespace Request

/-- Lines that are not blank may be cut into files in any way, and written in any way: a run over
the files prints the same as a run over one file with all the lines. -/
theorem printed_together_iff_of_one_file {paths : List String} {path : String}
    {groups : List (List (List Char))} (literal : ∀ path ∈ paths, Document.isPattern path = false)
    (literal' : Document.isPattern path = false)
    (proper : ∀ group ∈ groups, ∀ line ∈ group, Text.IsLine line)
    (written : List.Forall₂ tree.HoldsLines paths groups)
    (written' : tree'.HoldsLines path groups.flatten)
    (sameOptions : request.options tree' = request.options tree) (out : String) :
    ((request.together paths).runWith services tree).printed = .ok out ↔
      ((request.together [path]).runWith services tree').printed = .ok out := by
  have proper' : ∀ line ∈ groups.flatten, Text.IsLine line := by
    intro line member
    obtain ⟨group, hg, member⟩ := List.mem_flatten.mp member
    exact proper group hg line member
  have resolved : Document.resolveAll services tree' [path] = .ok [path] :=
    Document.resolveAll_of_literal (by simpa using literal')
  have writtenAll : List.Forall₂ tree'.HoldsLines [path] [groups.flatten] := .cons written' .nil
  rw [← toOption_eq_some_iff, ← toOption_eq_some_iff,
    toOption_printed_together (Document.resolveAll_of_literal literal) written proper,
    toOption_printed_together resolved writtenAll (by simpa using proper'), sameOptions,
    List.flatten_singleton]

/-- Three files, the second without lines, and one file with all lines. The first has a blank row and
the other line break, the third ends without one. -/
theorem printed_together_iff_of_three_files :
    let line : List Char → List Char := fun inside =>
      ['\x7b', '"', 'a', '"', ':', '\x7b'] ++ inside ++ ['\x7d', '\x7d']
    let full := line ['"', 'b', '"', ':', '1']
    let empty := line []
    let a := String.ofList (' ' :: '\n' :: (full ++ '\r' :: '\n' :: []))
    let b := String.ofList ['\n']
    let c := String.ofList (empty ++ '\n' :: full)
    let d := String.ofList (full ++ '\n' :: (empty ++ '\n' :: (full ++ '\n' :: [])))
    let tree : FileTree :=
      ⟨[], [(["a"], a.toUTF8), (["b"], b.toUTF8), (["c"], c.toUTF8), (["d"], d.toUTF8)]⟩
    let request : Request := { form := .types, inputs := [], pointer := some "/a" }
    let text := "type Root = \x7b\n  b?: number;\n\x7d;\n"
    (∀ out, ((request.together ["a", "b", "c"]).runWith .builtIn tree).printed = .ok out ↔
      ((request.together ["d"]).runWith .builtIn tree).printed = .ok out) ∧
      ((request.together ["a", "b", "c"]).runWith .builtIn tree).printed = .ok text := by
  intro line full empty a b c d tree request text
  have nothing : Text.Holds [] [] := .blankEnd rfl List.not_mem_nil
  have first : tree.HoldsLines "a" [full] := by
    refine ⟨a, by decide +kernel, ?_⟩
    rw [String.toList_ofList]
    exact @Text.Holds.blank [' '] _ _ rfl (by decide) (.lineReturn full nothing)
  have second : tree.HoldsLines "b" [] := by
    refine ⟨b, by decide +kernel, ?_⟩
    rw [String.toList_ofList]
    exact @Text.Holds.blank [] _ _ rfl (by decide) nothing
  have third : tree.HoldsLines "c" [empty, full] := by
    refine ⟨c, by decide +kernel, ?_⟩
    rw [String.toList_ofList]
    exact .line empty (.lineEnd full)
  have all : tree.HoldsLines "d" [full, empty, full] := by
    refine ⟨d, by decide +kernel, ?_⟩
    rw [String.toList_ofList]
    exact .line full (.line empty (.line full nothing))
  have proper : Text.IsLine full ∧ Text.IsLine empty :=
    ⟨⟨by decide, by decide⟩, ⟨by decide, by decide⟩⟩
  have three : List.Forall₂ tree.HoldsLines ["a", "b", "c"] [[full], [], [empty, full]] :=
    .cons first (.cons second (.cons third .nil))
  have same : ∀ out, ((request.together ["a", "b", "c"]).runWith .builtIn tree).printed = .ok out ↔
      ((request.together ["d"]).runWith .builtIn tree).printed = .ok out :=
    printed_together_iff_of_one_file (by decide) (by decide) (by simp [proper]) three all rfl
  have printed : ((request.together ["d"]).runWith .builtIn tree).printed.toOption = some text := by
    decide +kernel
  exact ⟨same, (same text).mpr (toOption_eq_some_iff.mp printed)⟩

/-- A run on each line of a file prints what the runs on the lines alone print, each below a comment
with the path of the file and the number of the line, and with an empty line in between. -/
theorem printed_apart_iff (form : request.form = .types) (unfiltered : request.filter = none)
    {input path text : String} (resolved : Document.resolve services tree input = .ok [path])
    (read : tree.read path = .ok text) (nonempty : Text.numberedSolidLines text.toList ≠ [])
    {alone : List (FileTree × String)}
    (stand : List.Forall₂ (fun line => request.StandsAlone services tree line.2)
      (Text.numberedSolidLines text.toList) alone) (out : String) :
    ((request.apart input).runWith services tree).printed = .ok out ↔
      ∃ outs, List.Forall₂ (fun alone out =>
          ((request.together [alone.2]).runWith services alone.1).printed = .ok out ∧
            ∃ body, out = body ++ ";\n") alone outs ∧
        out = "\n".intercalate
          (List.zipWith (Report.placed path) (Text.numberedSolidLines text.toList) outs) := by
  have proper : ∀ line ∈ Text.numberedSolidLines text.toList, Text.IsLine line.2 := by
    intro line member
    have solid : line.2 ∈ Text.solidLines text.toList := by
      rw [← Text.map_snd_numberedSolidLines]
      exact List.mem_map_of_mem member
    exact Text.isLine_of_mem_solidLines solid
  have texts : ∀ outs, List.Forall₂ (fun line out =>
      ((request.options tree).toOption.bind fun options =>
        Report.alone? request.pointer options line.2) = some out)
        (Text.numberedSolidLines text.toList) outs ↔ _ :=
    forall₂_congr_left stand fun line member alone stands out =>
      stands.printed_iff form unfiltered (proper line member) out
  rw [← toOption_eq_some_iff, toOption_printed_apart form unfiltered resolved read rfl nonempty]
  simp only [← texts]
  generalize Text.numberedSolidLines text.toList = numbered at nonempty ⊢
  cases request.options tree with
  | error error =>
    cases numbered with
    | nil => exact (nonempty rfl).elim
    | cons line rest => simp [Except.toOption, List.forall₂_cons_left_iff]
  | ok options =>
    have found : (Except.ok options : Except RequestError Options).toOption = some options :=
      rfl
    simp only [found, Option.bind_some, Option.map_eq_some_iff, mapM_eq_some_iff,
      eq_comm (b := out)]

/-- Two lines with blank lines before and between them, and a file for each. -/
theorem printed_apart_iff_of_two_lines :
    let first : List Char := ['\x7b', '\x7d']
    let second : List Char := ['[', '1', ']']
    let a := String.ofList ('\n' :: (first ++ '\n' :: ' ' :: '\n' :: second))
    let b := String.ofList first
    let c := String.ofList (second ++ '\n' :: [])
    let tree : FileTree := ⟨[], [(["a"], a.toUTF8), (["b"], b.toUTF8), (["c"], c.toUTF8)]⟩
    let request : Request := { form := .types, inputs := [] }
    ∀ out, ((request.apart "a").runWith .builtIn tree).printed = .ok out ↔
      ∃ outs, List.Forall₂ (fun alone out =>
          ((request.together [alone.2]).runWith .builtIn alone.1).printed = .ok out ∧
            ∃ body, out = body ++ ";\n") [(tree, "b"), (tree, "c")] outs ∧
        out = "\n".intercalate
          (List.zipWith (Report.placed "a") (Text.numberedSolidLines a.toList) outs) := by
  intro first second a b c tree request
  have lines : Text.numberedSolidLines a.toList = [(2, first), (4, second)] := by
    rw [String.toList_ofList]
    decide
  have holdsFirst : tree.HoldsLines "b" [first] := by
    refine ⟨b, by decide +kernel, ?_⟩
    rw [String.toList_ofList]
    exact .lineEnd first
  have holdsSecond : tree.HoldsLines "c" [second] := by
    refine ⟨c, by decide +kernel, ?_⟩
    rw [String.toList_ofList]
    exact .line second (.blankEnd rfl List.not_mem_nil)
  have literal : ∀ path ∈ ["a", "b", "c"], Document.resolve .builtIn tree path = .ok [path] := by
    intro path member
    refine Document.resolve_of_literal ?_
    revert member path
    decide
  refine printed_apart_iff rfl rfl (literal "a" (by simp)) (by decide +kernel)
    (lines ▸ List.cons_ne_nil _ _) ?_
  rw [lines]
  exact .cons ⟨⟨"b", literal "b" (by simp), holdsFirst⟩, rfl⟩
    (.cons ⟨⟨"c", literal "c" (by simp), holdsSecond⟩, rfl⟩ .nil)

end Request

end Exemplar
