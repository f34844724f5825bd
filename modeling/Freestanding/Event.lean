import Freestanding.Path

/-!
# Events

What a resolution or an installation reports while it runs, and how it is
worded.
-/

namespace Freestanding

inductive Level
  | info
  | debug
  deriving DecidableEq

/-- The part of the program that reports an event. -/
inductive Origin
  | program
  | resolution
  | installation

inductive Event
  | resolving (root : Path)
  | substituted (searchName header : String)
  | found (searchName : String) (directory : Path)
  | depends (header dependency : String)
  | installing (root : Path)
  | patched (source destination : Path)
  | copied (source destination : Path)
  | installed (count : Nat)
  deriving DecidableEq

namespace Event

def level : Event → Level
  | .depends .. | .patched .. | .copied .. => .debug
  | _ => .info

def origin : Event → Origin
  | .resolving .. => .program
  | .substituted .. | .found .. | .depends .. => .resolution
  | .installing .. | .patched .. | .copied .. | .installed .. => .installation

def message : Event → String
  | .resolving root => "Resolving freestanding headers under " ++ root.text
  | .substituted searchName header => "subst " ++ searchName ++ " => " ++ header
  | .found searchName directory =>
    "Found instance of " ++ searchName ++ " (" ++ directory.text ++ ")"
  | .depends header dependency => header ++ " depends on " ++ dependency
  | .installing root => "Installing C++ freestanding headers to " ++ root.text
  | .patched source destination => "patched " ++ source.text ++ " -> " ++ destination.text
  | .copied source destination => "copied " ++ source.text ++ " -> " ++ destination.text
  | .installed count => "Installed " ++ toString count ++ " headers"

end Event

end Freestanding
