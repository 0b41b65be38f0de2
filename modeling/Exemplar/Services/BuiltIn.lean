import Exemplar.Filter.Reader
import Exemplar.Glob.Search
import Exemplar.Request.Words
import Exemplar.Services

/-!
# The services at hand

Words are read by `Request.ofWords`, and `Glob` finds what a pattern asks for. Of the
filter language there is a part only: paths, constructions, pipes and a few names.
-/

namespace Exemplar

def UsageError.notice (error : UsageError) : Notice :=
  if error.isAnswer then .answer (error.message ++ "\n") else .complaint (error.message ++ "\n")

namespace Services

def builtIn : Services where
  request words := (Request.ofWords words).mapError UsageError.notice
  paths tree text :=
    match Glob.ofText text with
    | .error error => .error error.message
    | .ok pattern => .ok ((Glob.paths tree pattern).map .ok)
  filter text :=
    match Filter.ofText? text with
    | none => .error (.malformed [("no filter", text)])
    | some filter => .ok filter.outputTexts

end Services

end Exemplar
