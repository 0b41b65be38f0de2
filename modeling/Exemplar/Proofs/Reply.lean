import Exemplar.Proofs.FileTree
import Exemplar.Proofs.Request
import Exemplar.Reply

/-!
# All or nothing

A call prints its text or writes it, and does either only after everything else
has gone well. All files are read before the output is made, so it may be one of
them. Directories that were made for an output that was then refused stay, but no
file is changed.
-/

namespace Exemplar

variable {services : Services} {tree : FileTree} {request : Request} {words : List String}
  {path text : String}

/-! ## The output has no part in the text -/

namespace Document

theorem ofLines_unsaved (services : Services) (request : Request) (path : String)
    (lines : List (Nat × String)) :
    ofLines services { request with output := none } path lines =
      ofLines services request path lines := by
  induction lines with
  | nil => rfl
  | cons line rest ih =>
    rw [ofLines, ofLines, ih]
    rfl

theorem ofText_unsaved (services : Services) (request : Request) (path text : String) :
    ofText services { request with output := none } path text =
      ofText services request path text := by
  rw [ofText, ofText, ofLines_unsaved]
  rfl

theorem ofFiles_unsaved (services : Services) (tree : FileTree) (request : Request)
    (paths : List String) :
    ofFiles services tree { request with output := none } paths =
      ofFiles services tree request paths := by
  induction paths with
  | nil => rfl
  | cons path rest ih =>
    rw [ofFiles, ofFiles, ih]
    simp only [ofText_unsaved]

end Document

namespace Request

theorem report_unsaved (services : Services) (tree : FileTree) (request : Request) :
    { request with output := none }.report services tree = request.report services tree := by
  have documents : { request with output := none }.documents services tree =
      request.documents services tree := by
    simp only [Request.documents, Document.ofFiles_unsaved]
  rw [report, report, documents]
  rfl

/-- The same request without an output prints the text of the report. -/
theorem runWith_unsaved (ok : request.report services tree = .ok text) :
    { request with output := none }.runWith services tree = ⟨tree, .ok text⟩ := by
  rw [runWith, report_unsaved, ok]

/-! ## Saving -/

/-- A tree where the file that a path text leads to holds a text, and where all other files hold
what they held before. -/
structure Saved (after : FileTree) (path text : String) (location : Location)
    (before : FileTree) : Prop where
  found : after.locate path = .ok location
  file : after.entry location = .file text.toUTF8
  other : ∀ other bytes, other ≠ location →
    (after.entry other = .file bytes ↔ before.entry other = .file bytes)

/-- A text that is saved goes to one file. -/
theorem saved_of_save {before : FileTree} (same : tree.Houses before) {printed : String}
    (ok : (save tree path text).printed = .ok printed) :
    printed = "" ∧ ∃ location, Saved (save tree path text).tree path text location before := by
  rw [save] at ok ⊢
  cases wrote : tree.write path text with
  | error error =>
    rw [wrote] at ok
    cases ok
  | ok written =>
    rw [wrote] at ok
    cases ok
    obtain ⟨location, found, holds⟩ := FileTree.exists_holds_of_write wrote
    refine ⟨rfl, location, found, holds.file, fun other bytes differs => ?_⟩
    rw [holds.other other differs]
    exact same.file other bytes

theorem tree_of_save_error {error : RequestError}
    (failed : (save tree path text).printed = .error error) :
    (save tree path text).tree = tree := by
  rw [save] at failed ⊢
  cases wrote : tree.write path text with
  | error error => rfl
  | ok written =>
    rw [wrote] at failed
    cases failed

/-- A text is saved once its directory is there, or refused with the directory. -/
theorem saveHoused_cases (tree : FileTree) (path text : String) :
    ∃ housed : FileTree, housed.Houses tree ∧
      (saveHoused tree path text = save housed path text ∨
        ∃ error, saveHoused tree path text = ⟨housed, .error error⟩) := by
  rw [saveHoused]
  split
  · exact ⟨tree, .refl tree, .inl rfl⟩
  next parent _ =>
    have houses := FileTree.houses_prepare tree parent
    split
    next housed ready =>
      rw [ready] at houses
      exact ⟨housed, houses, .inl rfl⟩
    next error housed refused =>
      rw [refused] at houses
      exact ⟨housed, houses, .inr ⟨_, rfl⟩⟩

theorem saved_of_saveHoused {printed : String}
    (ok : (saveHoused tree path text).printed = .ok printed) :
    printed = "" ∧ ∃ location, Saved (saveHoused tree path text).tree path text location tree := by
  obtain ⟨housed, houses, saved | ⟨error, refused⟩⟩ := saveHoused_cases tree path text
  · rw [saved] at ok ⊢
    exact saved_of_save houses ok
  · rw [refused] at ok
    cases ok

/-- A refusal leaves directories behind at most. -/
theorem houses_of_saveHoused_error {error : RequestError}
    (failed : (saveHoused tree path text).printed = .error error) :
    (saveHoused tree path text).tree.Houses tree := by
  obtain ⟨housed, houses, saved | ⟨_, refused⟩⟩ := saveHoused_cases tree path text
  · rw [saved] at failed ⊢
    rw [tree_of_save_error failed]
    exact houses
  · rw [refused]
    exact houses

/-! ## Running -/

theorem houses_of_runWith_error {error : RequestError}
    (failed : (request.runWith services tree).printed = .error error) :
    (request.runWith services tree).tree.Houses tree := by
  rw [runWith] at failed ⊢
  split
  · exact .refl tree
  next text reported =>
    rw [reported] at failed
    dsimp only at failed ⊢
    split
    · exact .refl tree
    next path output =>
      rw [output] at failed
      exact houses_of_saveHoused_error failed

/-- Without an output, a request only reads. -/
theorem tree_of_runWith_unsaved (output : request.output = none) :
    (request.runWith services tree).tree = tree := by
  rw [runWith]
  split
  · rfl
  · rw [output]

/-- A request whose output is written has got a report, and the output has become that. -/
theorem saved_of_runWith {printed : String} (output : request.output = some path)
    (ok : (request.runWith services tree).printed = .ok printed) :
    printed = "" ∧ ∃ location text,
      Saved (request.runWith services tree).tree path text location tree ∧
      request.report services tree = .ok text := by
  rw [runWith] at ok ⊢
  cases reported : request.report services tree with
  | error error =>
    rw [reported] at ok
    cases ok
  | ok text =>
    rw [reported, output] at ok
    rw [output]
    obtain ⟨silent, location, saved⟩ := saved_of_saveHoused ok
    exact ⟨silent, location, text, saved, rfl⟩

end Request

/-! ## Replying -/

/-- Words that ask for an output make the same request without it, if they are left out. -/
def Services.OmitsOutput (services : Services) : Prop :=
  ∀ {path : String} {asking : List String} (before after : List String) {request : Request},
    Given.OutputWords path asking →
    services.request (before ++ (asking ++ after)) = .ok request →
      request.output = some path ∧
        services.request (before ++ after) = .ok { request with output := none }

theorem Services.omitsOutput_builtIn : builtIn.OmitsOutput := by
  intro path asking before after request asks made
  have made' : Request.ofWords (before ++ (asking ++ after)) = .ok request := by
    cases read : Request.ofWords (before ++ (asking ++ after)) with
    | error error =>
      simp only [builtIn, read] at made
      cases made
    | ok found =>
      simp only [builtIn, read] at made
      cases made
      rfl
  obtain ⟨output, silent⟩ := Request.ofWords_of_output asks made'
  refine ⟨output, ?_⟩
  simp only [builtIn, silent]
  rfl

namespace Reply

theorem printed_of_ofNotice {notice : Notice} (bad : (ofNotice tree notice).code ≠ 0) :
    (ofNotice tree notice).printed = "" := by
  cases notice with
  | answer text => exact absurd rfl bad
  | complaint text => rfl

theorem tree_ofNotice (tree : FileTree) (notice : Notice) : (ofNotice tree notice).tree = tree := by
  cases notice <;> rfl

theorem tree_ofOutcome (outcome : Outcome) : (ofOutcome outcome).tree = outcome.tree := by
  rw [ofOutcome]
  cases outcome.printed with
  | ok text => rfl
  | error error => rfl

theorem error_of_code {outcome : Outcome} (bad : (ofOutcome outcome).code ≠ 0) :
    (ofOutcome outcome).printed = "" ∧ ∃ error, outcome.printed = .error error := by
  rw [ofOutcome] at bad ⊢
  cases printed : outcome.printed with
  | ok text =>
    rw [printed] at bad
    exact absurd rfl bad
  | error error => exact ⟨rfl, error, rfl⟩

theorem ok_of_code {outcome : Outcome} (good : (ofOutcome outcome).code = 0) :
    outcome.printed = .ok (ofOutcome outcome).printed := by
  rw [ofOutcome] at good ⊢
  cases printed : outcome.printed with
  | ok text => rfl
  | error error =>
    rw [printed] at good
    exact absurd (show (1 : UInt32) = 0 from good) (by decide)

theorem ofWords_eq_ofNotice {notice : Notice} (refused : services.request words = .error notice) :
    ofWords services tree words = ofNotice tree notice := by
  rw [ofWords, refused]

theorem ofWords_eq_ofOutcome (ok : services.request words = .ok request) :
    ofWords services tree words = ofOutcome (request.runWith services tree) := by
  rw [ofWords, ok]

/-- The reply to words that ask for a report without an output. -/
theorem ofWords_of_report (ok : services.request words = .ok { request with output := none })
    (reported : request.report services tree = .ok text) :
    ofWords services tree words = { tree, printed := text } := by
  rw [ofWords_eq_ofOutcome ok, Request.runWith_unsaved reported]
  rfl

/-- A refusal changes no file, whether of the words or of what they ask for. -/
theorem houses_of_code (bad : (ofWords services tree words).code ≠ 0) :
    (ofWords services tree words).printed = "" ∧ (ofWords services tree words).tree.Houses tree := by
  cases made : services.request words with
  | error notice =>
    rw [ofWords_eq_ofNotice made] at bad ⊢
    refine ⟨printed_of_ofNotice bad, ?_⟩
    rw [tree_ofNotice]
    exact .refl tree
  | ok request =>
    rw [ofWords_eq_ofOutcome made] at bad ⊢
    obtain ⟨silent, error, failed⟩ := error_of_code bad
    refine ⟨silent, ?_⟩
    rw [tree_ofOutcome]
    exact Request.houses_of_runWith_error failed

/-- A reply that says that an output was written: the output is what is printed without one. -/
theorem saved_of_code (made : services.request words = .ok request)
    (output : request.output = some path) (good : (ofWords services tree words).code = 0) :
    (ofWords services tree words).printed = "" ∧
      ∃ location text, Request.Saved (ofWords services tree words).tree path text location tree ∧
        ∀ silent, services.request silent = .ok { request with output := none } →
          ofWords services tree silent = { tree, printed := text } := by
  rw [ofWords_eq_ofOutcome made] at good ⊢
  rw [tree_ofOutcome]
  obtain ⟨silent, location, text, saved, reported⟩ :=
    Request.saved_of_runWith output (ok_of_code good)
  exact ⟨silent, location, text, saved, fun _ ok => ofWords_of_report ok reported⟩

/-- Whatever words and tree a call begins with, and whatever services it has, it prints and writes
all or nothing. If it fails, it prints nothing, and files hold what they held. If it goes well
without an output, nothing changes at all. If it goes well with one, it prints nothing; the output,
and no other file, has been written, and holds what is printed for the same request without an
output. Words for that are the same words without those for the output, where these can be left
out. The output may be an input, or the file with the options. -/
theorem ofWords_all_or_nothing (services : Services) (tree : FileTree) (words : List String) :
    let reply := ofWords services tree words
    (reply.code ≠ 0 → reply.printed = "" ∧
      ∀ location bytes,
        reply.tree.entry location = .file bytes ↔ tree.entry location = .file bytes) ∧
    (∀ notice, services.request words = .error notice → reply.tree = tree) ∧
    (∀ request, services.request words = .ok request → reply.code = 0 →
      (request.output = none → reply.tree = tree) ∧
      ∀ path, request.output = some path →
        reply.printed = "" ∧
        ∃ location text, reply.tree.locate path = .ok location ∧
          reply.tree.entry location = .file text.toUTF8 ∧
          (∀ other bytes, other ≠ location →
            (reply.tree.entry other = .file bytes ↔ tree.entry other = .file bytes)) ∧
          (∀ silent, services.request silent = .ok { request with output := none } →
            ofWords services tree silent = { tree, printed := text }) ∧
          (services.OmitsOutput → ∀ before asking after, Given.OutputWords path asking →
            words = before ++ (asking ++ after) →
              ofWords services tree (before ++ after) = { tree, printed := text })) := by
  intro reply
  refine ⟨fun bad => ?_, fun notice refused => ?_, fun request made good => ⟨?_, ?_⟩⟩
  · obtain ⟨silent, houses⟩ := houses_of_code bad
    exact ⟨silent, houses.file⟩
  · dsimp only [reply]
    rw [ofWords_eq_ofNotice refused, tree_ofNotice]
  · intro output
    dsimp only [reply]
    rw [ofWords_eq_ofOutcome made, tree_ofOutcome, Request.tree_of_runWith_unsaved output]
  · intro path output
    obtain ⟨silent, location, text, saved, prints⟩ := saved_of_code made output good
    refine ⟨silent, location, text, saved.found, saved.file, saved.other, prints, ?_⟩
    rintro omits before asking after asks rfl
    exact prints _ (omits before after asks made).2

/-- A file may be the input and the output of one call. -/
theorem ofWords_all_or_nothing_of_output_among_inputs :
    let tree : FileTree := ⟨[], [(["a"], "[1]".toUTF8)]⟩
    let reply := ofWords .builtIn tree ["types", "-i", "a", "-o", "a"]
    reply.code = 0 ∧ reply.printed = "" ∧
      ∃ location text, reply.tree.locate "a" = .ok location ∧
        reply.tree.entry location = .file text.toUTF8 ∧
        ofWords .builtIn tree ["types", "-i", "a"] = { tree, printed := text } := by
  intro tree reply
  have good : reply.code = 0 := by decide +kernel
  obtain ⟨silent, location, text, found, holds, _, _, prints⟩ :=
    ((ofWords_all_or_nothing .builtIn tree ["types", "-i", "a", "-o", "a"]).2.2
      { form := .types, inputs := ["a"], output := some "a" } (by rfl) good).2 "a" rfl
  exact ⟨good, silent, location, text, found, holds,
    prints Services.omitsOutput_builtIn ["types", "-i", "a"] ["-o", "a"] [] .letter rfl⟩

end Reply

end Exemplar
