import Exemplar.FileTree
import Exemplar.Json
import Exemplar.Request

/-!
# Services

The program leaves three things to others: to make a request of words, to find what
a pattern asks for, and to run a filter. What it does with their answers is the
same whatever they answer, so they are an argument of all that depends on them.

An answer is all there is to a service: it changes no file. A filter that never
ends gives no answer, and a call that runs it gets no reply.
-/

namespace Exemplar

/-- What is said to words that make no request: a text that was asked for, or a complaint. -/
inductive Notice where
  | answer (text : String)
  | complaint (text : String)
deriving DecidableEq, Repr

/-- Why a text is no filter. A fault comes with the text in which it lies. A name that stands for
nothing comes with what it should have stood for, and with the text in which it was met. -/
inductive FilterFault where
  | malformed (faults : List (String × String))
  | undefined (names : List (String × String × String))
deriving DecidableEq, Repr

/-- What the program leaves to others. -/
structure Services where
  /-- The request that words make. -/
  request : List String → Except Notice Request
  /-- The paths that a pattern asks for, in order. One that could not be looked at is an error in
  its place, and a text that is no pattern is an error as a whole. -/
  paths : FileTree → String → Except String (List (Except String String))
  /-- The filter that a text stands for. It puts out texts of values, and a failure in the place
  where it fails. -/
  filter : String → Except FilterFault (Json → List (Except String String))

end Exemplar
