import Exemplar.Request.Words

/-!
# Words without an output

Settings are settled one by one, and no setting but that for inputs is settled
twice. So an output leaves no trace on other settings: words that make a request
make the same request without its output, if the two words for the output are
left out.
-/

namespace Exemplar

namespace Given

variable {given given' less : Given} {setting : Setting} {texts : List String} {path : String}

/-! ## Settling -/

/-- Values that a setting can be settled with. -/
def Fits (setting : Setting) (texts : List String) : Prop :=
  (setting.takesValue && texts.isEmpty) = false ∧ texts.filterMap (fault? setting) = [] ∧
    setting ≠ .help ∧ setting ≠ .version

/-- A setting is settled once its values fit, but only inputs more than once. -/
theorem settle_eq_ok_iff : given.settle setting texts = .ok given' ↔
    Fits setting texts ∧ (setting = .input ∨ given.has setting = false) ∧
      given' = { given with settled := given.settled ++ [(setting, texts)] } := by
  unfold settle Fits
  cases lacks : setting.takesValue && texts.isEmpty with
  | true => simp
  | false =>
    rw [if_neg Bool.false_ne_true]
    by_cases once : setting = .input ∨ given.has setting = false
    · have first : ¬(setting ≠ .input && given.has setting) = true := by
        rcases once with rfl | absent
        · simp
        · simp [absent]
      rw [if_neg first]
      cases texts.filterMap (fault? setting) with
      | cons fault rest => simp
      | nil =>
        dsimp only
        split
        · simp
        · simp
        next help version =>
          constructor
          · intro ok
            exact ⟨⟨rfl, rfl, help, version⟩, once, (Except.ok.inj ok).symm⟩
          · rintro ⟨_, _, rfl⟩
            rfl
    · have again : (setting ≠ .input && given.has setting) = true := by
        rw [not_or, Bool.not_eq_false] at once
        simp [once]
      rw [if_pos again]
      simp [once]

/-! ## Omitting an output -/

/-- Settings with an output, and the same without it. -/
structure Omits (path : String) (given less : Given) : Prop where
  settled : ∃ before after, given.settled = before ++ (.output, [path]) :: after ∧
    less.settled = before ++ after
  absent : less.has .output = false
  waiting : less.waiting = given.waiting

theorem Omits.has_eq (omits : Omits path given less) (other : setting ≠ .output) :
    less.has setting = given.has setting := by
  obtain ⟨before, after, all, rest⟩ := omits.settled
  rw [has, has, all, rest]
  simp [other.symm]

theorem Omits.has_output (omits : Omits path given less) : given.has .output = true := by
  obtain ⟨before, after, all, _⟩ := omits.settled
  rw [has, all]
  simp

theorem Omits.values_eq (omits : Omits path given less) (other : setting ≠ .output) :
    less.values setting = given.values setting := by
  obtain ⟨before, after, all, rest⟩ := omits.settled
  rw [values, values, all, rest]
  simp [other.symm]

theorem values_of_not_has (absent : given.has setting = false) : given.values setting = [] := by
  rw [has, List.any_eq_false] at absent
  rw [values, List.filter_eq_nil_iff.mpr]
  · rfl
  · intro entry he
    simpa using absent entry he

theorem Omits.values_output (omits : Omits path given less) : given.values .output = [path] := by
  obtain ⟨before, after, all, rest⟩ := omits.settled
  have absent := omits.absent
  rw [has, rest, List.any_append, Bool.or_eq_false_iff, List.any_eq_false, List.any_eq_false]
    at absent
  have first : before.filter (·.1 = .output) = [] := List.filter_eq_nil_iff.mpr absent.1
  have last : after.filter (·.1 = .output) = [] := List.filter_eq_nil_iff.mpr absent.2
  rw [values, all, List.filter_append, List.filter_cons_of_pos rfl, first, last]
  rfl

theorem Omits.settle (omits : Omits path given less)
    (ok : given.settle setting texts = .ok given') :
    ∃ less', less.settle setting texts = .ok less' ∧ Omits path given' less' := by
  obtain ⟨fits, once, rfl⟩ := settle_eq_ok_iff.mp ok
  have other : setting ≠ .output := by
    rintro rfl
    rcases once with same | absent
    · cases same
    · rw [omits.has_output] at absent
      cases absent
  refine ⟨_, settle_eq_ok_iff.mpr ⟨fits, ?_, rfl⟩, ?_⟩
  · rwa [omits.has_eq other]
  · obtain ⟨before, after, all, rest⟩ := omits.settled
    constructor
    · refine ⟨before, after ++ [(setting, texts)], ?_, ?_⟩
      · rw [all]
        simp
      · rw [rest]
        simp
    · have absent := omits.absent
      rw [has] at absent ⊢
      rw [List.any_append, absent]
      simp [other]
    · exact omits.waiting

/-! ## Taking words -/

theorem add_eq_ok_iff : given.add setting texts = .ok given' ↔
    ∃ resolved, given.resolve = .ok resolved ∧ resolved.settle setting texts = .ok given' := by
  rw [add]
  cases given.resolve <;> simp [bind, Except.bind]

theorem await_eq_ok_iff : given.await setting = .ok given' ↔
    ∃ resolved, given.resolve = .ok resolved ∧
      { resolved with waiting := some (setting, []) } = given' := by
  rw [await]
  cases given.resolve <;> simp [bind, Except.bind, pure, Except.pure]

theorem waiting_of_resolve (ok : given.resolve = .ok given') : given'.waiting = none := by
  rw [resolve] at ok
  split at ok
  next none =>
    cases ok
    exact none
  next =>
    obtain ⟨_, _, rfl⟩ := settle_eq_ok_iff.mp ok
    rfl

/-- What is waiting can be settled without the output, if it can be with it. -/
def Follows (path : String) (given less : Given) : Prop :=
  ∀ given', given.resolve = .ok given' →
    ∃ less', less.resolve = .ok less' ∧ Omits path given' less'

theorem Omits.follows (omits : Omits path given less) : Follows path given less := by
  intro given' ok
  have waiting := omits.waiting
  rw [resolve] at ok ⊢
  cases waits : given.waiting with
  | none =>
    rw [waits] at ok waiting
    cases ok
    exact ⟨less, by rw [waiting], omits⟩
  | some entry =>
    rw [waits] at ok waiting
    rw [waiting]
    have settled : Omits path { given with waiting := none } { less with waiting := none } :=
      ⟨omits.settled, omits.absent, rfl⟩
    exact settled.settle ok

variable {level : Level}

theorem Follows.add (follows : Follows path given less)
    (ok : given.add setting texts = .ok given') :
    ∃ less', less.add setting texts = .ok less' ∧ Omits path given' less' := by
  obtain ⟨resolved, done, ok⟩ := add_eq_ok_iff.mp ok
  obtain ⟨without, done', omits⟩ := follows resolved done
  obtain ⟨less', ok', omits'⟩ := omits.settle ok
  exact ⟨less', add_eq_ok_iff.mpr ⟨without, done', ok'⟩, omits'⟩

theorem Follows.await (follows : Follows path given less)
    (ok : given.await setting = .ok given') :
    ∃ less', less.await setting = .ok less' ∧ Omits path given' less' := by
  obtain ⟨resolved, done, rfl⟩ := await_eq_ok_iff.mp ok
  obtain ⟨without, done', omits⟩ := follows resolved done
  exact ⟨_, await_eq_ok_iff.mpr ⟨without, done', rfl⟩, omits.settled, omits.absent, rfl⟩

theorem Follows.takeNamed (follows : Follows path given less) {name : String}
    {attached : Option String} (ok : given.takeNamed level name attached = .ok given') :
    ∃ less', less.takeNamed level name attached = .ok less' ∧ Omits path given' less' := by
  rw [Given.takeNamed] at ok ⊢
  generalize Setting.ofName? level name = found at ok ⊢
  cases found with
  | none => cases ok
  | some setting =>
    cases attached with
    | none =>
      dsimp only at ok ⊢
      split at ok
      next takes =>
        rw [if_pos takes]
        exact follows.await ok
      next flag =>
        rw [if_neg flag]
        exact follows.add ok
    | some value =>
      dsimp only at ok ⊢
      split at ok
      next takes =>
        rw [if_pos takes]
        exact follows.add ok
      next => cases ok

theorem takeLetters_follows {letters : List Char} (follows : Follows path given less)
    (some : letters ≠ []) (ok : given.takeLetters level letters = .ok given') :
    ∃ less', less.takeLetters level letters = .ok less' ∧ Omits path given' less' := by
  induction letters generalizing given less with
  | nil => exact absurd rfl some
  | cons letter rest ih =>
    rw [takeLetters] at ok ⊢
    generalize Setting.ofLetter? level letter = found at ok ⊢
    cases found with
    | none => cases ok
    | some setting =>
      dsimp only at ok ⊢
      split at ok
      next takes =>
        rw [if_pos takes]
        split at ok
        · exact follows.await ok
        · exact follows.add ok
        · exact follows.add ok
      next flag =>
        rw [if_neg flag]
        split at ok
        next next added =>
          obtain ⟨less', added', omits⟩ := follows.add added
          rw [added']
          dsimp only
          by_cases last : rest = []
          · subst last
            cases ok
            exact ⟨less', rfl, omits⟩
          · exact ih omits.follows last ok
        next => cases ok

/-- A word that is no value is taken in the same way. -/
theorem take?_follows {word : String} (follows : Follows path given less)
    (ok : given.take? level word = some (.ok given')) :
    ∃ less', less.take? level word = some (.ok less') ∧ Omits path given' less' := by
  rw [take?] at ok ⊢
  split at ok
  · obtain ⟨less', taken, omits⟩ := follows.takeNamed (Option.some.inj ok)
    exact ⟨less', congrArg some taken, omits⟩
  · obtain ⟨less', taken, omits⟩ :=
      takeLetters_follows follows (List.cons_ne_nil _ _) (Option.some.inj ok)
    exact ⟨less', congrArg some taken, omits⟩
  · cases ok

theorem take?_eq_none {word : String} (value : given.take? level word = none) :
    less.take? level word = none := by
  rw [take?] at value ⊢
  split at value
  · cases value
  · cases value
  · rfl

theorem isOpen_eq (same : less.waiting = given.waiting) : less.isOpen = given.isOpen := by
  rw [isOpen, isOpen, same]

theorem Omits.offer (omits : Omits path given less) (word : String) :
    Omits path (given.offer word) (less.offer word) := by
  obtain ⟨settled, absent, waiting⟩ := omits
  rw [Given.offer, Given.offer, waiting]
  split
  · exact ⟨settled, absent, rfl⟩
  · exact ⟨settled, absent, waiting⟩

theorem Omits.takeCommand {words : List String} (omits : Omits path given less)
    (ok : given.takeCommand words = .ok given') :
    ∃ less', less.takeCommand words = .ok less' ∧ Omits path given' less' := by
  induction words generalizing given less with
  | nil => exact omits.follows _ ok
  | cons word rest ih =>
    rw [Given.takeCommand] at ok ⊢
    split at ok
    next separator =>
      rw [if_pos separator]
      split at ok
      next last =>
        rw [if_pos last]
        exact omits.follows _ ok
      next => cases ok
    next notSeparator =>
      rw [if_neg notSeparator]
      split at ok
      next next taken =>
        obtain ⟨next', taken', omits'⟩ := take?_follows omits.follows taken
        rw [taken']
        exact ih omits' ok
      next => cases ok
      next value =>
        rw [take?_eq_none value]
        dsimp only
        split at ok
        next isOpen =>
          rw [if_pos (isOpen_eq omits.waiting ▸ isOpen)]
          exact ih (omits.offer word) ok
        next => cases ok

/-- Where no value can follow, what is waiting is settled before anything else. -/
theorem Follows.takeCommand {words : List String} (follows : Follows path given less)
    (closed : given.isOpen = false) (ok : given.takeCommand words = .ok given') :
    ∃ less', less.takeCommand words = .ok less' ∧ Omits path given' less' := by
  cases words with
  | nil => exact follows _ ok
  | cons word rest =>
    rw [Given.takeCommand] at ok ⊢
    split at ok
    next separator =>
      rw [if_pos separator]
      split at ok
      next last =>
        rw [if_pos last]
        exact follows _ ok
      next => cases ok
    next notSeparator =>
      rw [if_neg notSeparator]
      split at ok
      next next taken =>
        obtain ⟨next', taken', omits⟩ := take?_follows follows taken
        rw [taken']
        exact omits.takeCommand ok
      next => cases ok
      next =>
        rw [closed] at ok
        cases ok

/-! ## Leaving out the words for an output -/

/-- A word that is a setting of the command and not of the program, and how it is taken. -/
structure Takes (word : String) (taken : Given → Except UsageError Given) : Prop where
  notSeparator : word ≠ "--"
  notCommand : word ∉ commandNames
  command : ∀ given : Given, given.take? .command word = some (taken given)
  program : ∀ given : Given, given.take? .program word = some (.error .unknownWord)

/-- The ways to ask for an output. -/
inductive OutputWords (path : String) : List String → Prop
  | letter : OutputWords path ["-o", path]
  | letterJoined (given : path ≠ "") (direct : path.toList.head? ≠ some '=') :
    OutputWords path ["-o" ++ path]
  | letterEquals : OutputWords path ["-o=" ++ path]
  | name : OutputWords path ["--out", path]
  | nameEquals : OutputWords path ["--out=" ++ path]

theorem takes_letter : Takes "-o" (·.await .output) where
  notSeparator := by decide
  notCommand := by decide
  command := fun _ => rfl
  program := fun _ => rfl

theorem takes_name : Takes "--out" (·.await .output) where
  notSeparator := by decide
  notCommand := by decide
  command := fun _ => rfl
  program := fun _ => rfl

/-- A word that begins with a dash and says more is neither the separator nor a command. -/
theorem Takes.ofCharacters {word : String} {c : Char} {text : List Char}
    {taken : Given → Except UsageError Given} (characters : word.toList = '-' :: c :: text)
    (long : text ≠ [])
    (command : ∀ given : Given, given.take? .command word = some (taken given))
    (program : ∀ given : Given, given.take? .program word = some (.error .unknownWord)) :
    Takes word taken where
  notSeparator := by
    rintro rfl
    cases characters
    exact long rfl
  notCommand := by
    simp only [commandNames, List.mem_cons, List.not_mem_nil, or_false]
    rintro (rfl | rfl | rfl) <;> cases characters
  command := command
  program := program

theorem takeLetters_joined {letter : Char} {value : List Char}
    (found : Setting.ofLetter? level letter = some setting) (takes : setting.takesValue = true)
    (attached : value ≠ []) (direct : value.head? ≠ some '=') :
    given.takeLetters level (letter :: value) = given.add setting [String.ofList value] := by
  rw [takeLetters, found]
  dsimp only
  rw [if_pos takes]
  cases value with
  | nil => exact absurd rfl attached
  | cons c rest =>
    split
    next none => cases none
    next equals =>
      cases equals
      exact absurd rfl direct
    next => rfl

theorem take?_attached {word : String} {name value : List Char} (plain : '=' ∉ name)
    (characters : word.toList = '-' :: '-' :: (name ++ '=' :: value)) :
    given.take? level word =
      some (given.takeNamed level (String.ofList name) (some (String.ofList value))) := by
  have before : (name ++ '=' :: value).takeWhile (· ≠ '=') = name := by
    rw [List.takeWhile_append_of_pos fun c hc => by simpa using ne_of_mem_of_not_mem hc plain]
    simp
  have after : (name ++ '=' :: value).drop (name.length + 1) = value := by simp
  have equals : (name ++ '=' :: value).contains '=' = true := by simp
  rw [take?, characters]
  split
  next text dashes =>
    cases dashes
    dsimp only
    rw [before, after, if_pos equals]
  next c text other same =>
    cases same
    exact absurd rfl other
  next other _ => exact (other _ rfl).elim

theorem takes_letterJoined (some : path ≠ "") (direct : path.toList.head? ≠ Option.some '=') :
    Takes ("-o" ++ path) (·.add .output [path]) := by
  have characters : ("-o" ++ path).toList = '-' :: 'o' :: path.toList := String.toList_append
  refine .ofCharacters characters (by simpa using some) (fun given => ?_) (fun given => ?_)
  · have joined : given.takeLetters .command ('o' :: path.toList) =
        given.add .output [String.ofList path.toList] :=
      takeLetters_joined rfl rfl (by simpa using some) direct
    rw [String.ofList_toList] at joined
    rw [take?, characters]
    exact congrArg Option.some joined
  · rw [take?, characters]
    rfl

theorem takes_letterEquals (path : String) :
    Takes ("-o=" ++ path) (·.add .output [path]) := by
  have characters : ("-o=" ++ path).toList = '-' :: 'o' :: '=' :: path.toList :=
    String.toList_append
  refine .ofCharacters characters (by simp) (fun given => ?_) (fun given => ?_)
  · have joined : given.takeLetters .command ('o' :: '=' :: path.toList) =
        given.add .output [String.ofList path.toList] := rfl
    rw [String.ofList_toList] at joined
    rw [take?, characters]
    exact congrArg some joined
  · rw [take?, characters]
    rfl

theorem takes_nameEquals (path : String) :
    Takes ("--out=" ++ path) (·.add .output [path]) := by
  have characters : ("--out=" ++ path).toList =
      '-' :: '-' :: 'o' :: 'u' :: 't' :: '=' :: path.toList := String.toList_append
  refine .ofCharacters characters (by simp) (fun given => ?_) (fun given => ?_)
  · have plain : '=' ∉ ['o', 'u', 't'] := by decide
    rw [take?_attached plain characters, String.ofList_toList]
    rfl
  · rw [take?, characters]
    rfl

/-- The first word that asks for an output is no setting of the program. -/
theorem OutputWords.exists_takes {asking : List String} (asks : OutputWords path asking) :
    ∃ word rest taken, asking = word :: rest ∧ Takes word taken := by
  cases asks with
  | letter => exact ⟨_, _, _, rfl, takes_letter⟩
  | letterJoined given direct => exact ⟨_, _, _, rfl, takes_letterJoined given direct⟩
  | letterEquals => exact ⟨_, _, _, rfl, takes_letterEquals path⟩
  | name => exact ⟨_, _, _, rfl, takes_name⟩
  | nameEquals => exact ⟨_, _, _, rfl, takes_nameEquals path⟩

variable {word : String} {words asking before after : List String}

/-- A setting that lacks its value keeps every other setting from being taken. -/
theorem not_taken_of_lacking (lacking : ∀ resolved, given.resolve ≠ .ok resolved) :
    given.take? level word ≠ some (.ok given') := by
  intro taken
  have follows : Follows "" given given := fun resolved ok => absurd ok (lacking resolved)
  obtain ⟨same, taken', omits⟩ := take?_follows follows taken
  cases taken.symm.trans taken'
  have absent := omits.absent
  rw [omits.has_output] at absent
  cases absent

/-- A setting of the command that goes on is taken. -/
theorem takeCommand_of_takes {taken : Given → Except UsageError Given} (takes : Takes word taken)
    (ok : given.takeCommand (word :: words) = .ok given') :
    ∃ next, taken given = .ok next ∧ next.takeCommand words = .ok given' := by
  rw [takeCommand, if_neg takes.notSeparator, takes.command] at ok
  split at ok
  next next took => exact ⟨next, Option.some.inj took, ok⟩
  next => cases ok
  next none => cases none

/-- To settle an output is all that settings without one lack. -/
theorem omits_of_settle (ok : given.settle .output [path] = .ok given') :
    Omits path given' given := by
  obtain ⟨_, once, rfl⟩ := settle_eq_ok_iff.mp ok
  exact ⟨⟨given.settled, [], rfl, (List.append_nil _).symm⟩, once.resolve_left (by decide), rfl⟩

/-- After a word that lets an output wait comes a path text, and then no further value. -/
theorem exists_asked_of_await (takes : Takes word (·.await .output))
    (ok : given.takeCommand (word :: path :: words) = .ok given') :
    ∃ asked, Follows path asked given ∧ asked.isOpen = false ∧
      asked.takeCommand words = .ok given' := by
  obtain ⟨next, awaits, ok⟩ := takeCommand_of_takes takes ok
  obtain ⟨resolved, done, rfl⟩ := await_eq_ok_iff.mp awaits
  have lacking : ∀ further,
      resolve { resolved with waiting := some (.output, []) } ≠ .ok further := by
    intro further ok
    exact absurd (settle_eq_ok_iff.mp ok).1.1 (by decide)
  rw [takeCommand] at ok
  split at ok
  · split at ok
    · exact absurd ok (lacking _)
    · cases ok
  · split at ok
    next taken => exact absurd taken (not_taken_of_lacking lacking)
    next => cases ok
    next =>
      refine ⟨{ resolved with waiting := some (.output, [path]) }, ?_, rfl, ok⟩
      intro settled ok
      have rest : { resolved with waiting := none } = resolved := by
        rw [← waiting_of_resolve done]
      rw [resolve, rest] at ok
      exact ⟨resolved, done, omits_of_settle ok⟩

/-- After a word with a path text attached comes no further value. -/
theorem exists_asked_of_add (takes : Takes word (·.add .output [path]))
    (ok : given.takeCommand (word :: words) = .ok given') :
    ∃ asked, Follows path asked given ∧ asked.isOpen = false ∧
      asked.takeCommand words = .ok given' := by
  obtain ⟨next, added, ok⟩ := takeCommand_of_takes takes ok
  obtain ⟨resolved, done, settles⟩ := add_eq_ok_iff.mp added
  have omits := omits_of_settle settles
  have waiting : next.waiting = none := by rw [← omits.waiting, waiting_of_resolve done]
  refine ⟨next, fun settled same => ⟨resolved, done, ?_⟩, by rw [isOpen, waiting], ok⟩
  rw [resolve, waiting] at same
  cases same
  exact omits

/-- However an output is asked for, no value can follow. -/
theorem OutputWords.exists_asked (asks : OutputWords path asking)
    (ok : given.takeCommand (asking ++ words) = .ok given') :
    ∃ asked, Follows path asked given ∧ asked.isOpen = false ∧
      asked.takeCommand words = .ok given' := by
  cases asks with
  | letter => exact exists_asked_of_await takes_letter ok
  | letterJoined given direct => exact exists_asked_of_add (takes_letterJoined given direct) ok
  | letterEquals => exact exists_asked_of_add (takes_letterEquals path) ok
  | name => exact exists_asked_of_await takes_name ok
  | nameEquals => exact exists_asked_of_add (takes_nameEquals path) ok

theorem takeCommand_of_output (asks : OutputWords path asking)
    (ok : given.takeCommand (before ++ (asking ++ after)) = .ok given') :
    ∃ less', given.takeCommand (before ++ after) = .ok less' ∧ Omits path given' less' := by
  induction before generalizing given with
  | nil =>
    obtain ⟨asked, follows, closed, ok⟩ := asks.exists_asked ok
    exact follows.takeCommand closed ok
  | cons first rest ih =>
    rw [List.cons_append, takeCommand] at ok ⊢
    split at ok
    next separator =>
      obtain ⟨_, _, _, rfl, _⟩ := asks.exists_takes
      rw [if_neg (by simp)] at ok
      cases ok
    next notSeparator =>
      rw [if_neg notSeparator]
      split at ok
      · exact ih ok
      · cases ok
      · split at ok
        next isOpen =>
          rw [if_pos isOpen]
          exact ih ok
        next => cases ok

end Given

namespace Request

open Given (Omits OutputWords takeCommand_of_output)

variable {given less : Given} {path : String} {form : Form} {request : Request}
  {asking before after : List String}

theorem ofGiven_of_omits (omits : Omits path given less) (ok : ofGiven form given = .ok request) :
    request.output = some path ∧ ofGiven form less = .ok { request with output := none } := by
  have other : ∀ setting, setting ≠ .output → less.values setting = given.values setting :=
    fun setting differs => omits.values_eq differs
  rw [ofGiven, other .input (by decide), other .pointer (by decide), other .filter (by decide),
    other .optionsFile (by decide), other .rootName (by decide), other .maxDepth (by decide),
    omits.has_eq (by decide), omits.has_eq (by decide),
    Given.values_of_not_has omits.absent]
  rw [ofGiven, omits.values_output] at ok
  split at ok
  · cases ok
  next given =>
    cases ok
    rw [if_neg given]
    exact ⟨rfl, rfl⟩

theorem command_of_output (asks : OutputWords path asking)
    (ok : (do ofGiven form (← Given.takeCommand {} (before ++ (asking ++ after)))) =
      .ok request) :
    request.output = some path ∧
      (do ofGiven form (← Given.takeCommand {} (before ++ after))) =
        .ok { request with output := none } := by
  cases taken : Given.takeCommand {} (before ++ (asking ++ after)) with
  | error error =>
    rw [taken] at ok
    cases ok
  | ok given =>
    rw [taken] at ok
    obtain ⟨less, taken', omits⟩ := takeCommand_of_output asks taken
    rw [taken']
    exact ofGiven_of_omits omits ok

theorem ofWordsAfter_of_output (asks : OutputWords path asking)
    (ok : ofWordsAfter given (before ++ (asking ++ after)) = .ok request) :
    request.output = some path ∧
      ofWordsAfter given (before ++ after) = .ok { request with output := none } := by
  induction before generalizing given with
  | nil =>
    obtain ⟨word, rest, _, rfl, notSeparator, notCommand, _, program⟩ := asks.exists_takes
    simp only [commandNames, List.mem_cons, List.not_mem_nil, or_false, not_or] at notCommand
    rw [List.nil_append, List.cons_append] at ok
    unfold ofWordsAfter at ok
    rw [if_neg notCommand.1, if_neg notCommand.2.1, if_neg notCommand.2.2, if_neg notSeparator,
      program] at ok
    cases ok
  | cons first rest ih =>
    rw [List.cons_append] at ok ⊢
    unfold ofWordsAfter at ok ⊢
    by_cases types : first = "types"
    · rw [if_pos types] at ok ⊢
      exact command_of_output asks ok
    · rw [if_neg types] at ok ⊢
      by_cases schema : first = "schema"
      · rw [if_pos schema] at ok ⊢
        exact command_of_output asks ok
      · rw [if_neg schema] at ok ⊢
        split at ok
        · cases ok
        next notHelp =>
          rw [if_neg notHelp]
          split at ok
          · split at ok
            · split at ok <;> cases ok
            · cases ok
          next notSeparator =>
            rw [if_neg notSeparator]
            split at ok
            · exact ih ok
            · cases ok
            · cases ok

/-- Words make the same request without an output, if the words for the output are left out. -/
theorem ofWords_of_output (asks : OutputWords path asking)
    (ok : ofWords (before ++ (asking ++ after)) = .ok request) :
    request.output = some path ∧
      ofWords (before ++ after) = .ok { request with output := none } :=
  ofWordsAfter_of_output asks ok

end Request

end Exemplar
