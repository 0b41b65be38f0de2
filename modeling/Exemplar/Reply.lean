import Exemplar.Report

/-!
# Replies

A call of the program gets a reply: it leaves a file tree behind, prints a text,
and ends with a code that is zero if all went well. A complaint is written apart
from what is printed.
-/

namespace Exemplar

/-- What a call of the program comes to. -/
structure Reply where
  tree : FileTree
  printed : String := ""
  complaint : String := ""
  code : UInt32 := 0

namespace Reply

/-- The reply to words that make no request. What was asked for is printed. -/
def ofNotice (tree : FileTree) : Notice → Reply
  | .answer text => { tree, printed := text }
  | .complaint text => { tree, complaint := text, code := 2 }

def ofOutcome (outcome : Outcome) : Reply :=
  match outcome.printed with
  | .ok text => { tree := outcome.tree, printed := text }
  | .error error =>
    { tree := outcome.tree
      complaint := "error: " ++ error.message ++ error.detail ++ "\n"
      code := 1 }

def ofWords (services : Services) (tree : FileTree) (words : List String) : Reply :=
  match services.request words with
  | .error notice => ofNotice tree notice
  | .ok request => ofOutcome (request.runWith services tree)

end Reply

end Exemplar
