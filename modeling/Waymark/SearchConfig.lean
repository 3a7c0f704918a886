import Waymark.Frontier

namespace Waymark

/-- In which order edges are explored, and after how many of them to give up. -/
structure SearchConfig where
  frontier : FrontierKind := .fifo
  maxExpansions? : Option Nat := none
  deriving DecidableEq, Repr

namespace SearchConfig

def withFrontier (c : SearchConfig) (kind : FrontierKind) : SearchConfig :=
  { c with frontier := kind }

def withMaxExpansions (c : SearchConfig) (limit : Nat) : SearchConfig :=
  { c with maxExpansions? := some limit }

end SearchConfig

end Waymark
