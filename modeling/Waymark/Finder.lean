import Waymark.Overlay.Mount
import Waymark.Search.Run

namespace Waymark

/-- An overlay kept for repeated searches of one kind. -/
structure Finder (V E κ : Type) where
  overlay : Overlay V E κ
  config : SearchConfig := {}

namespace Finder

variable {V E κ : Type}

def withConfig (f : Finder V E κ) (config : SearchConfig) : Finder V E κ := { f with config }

def find [Cost κ] (f : Finder V E κ) (g : Graph V E) (source destination : VertexId) :
    Except (Failure κ × Finder V E κ) (Path κ × Finder V E κ) :=
  match f.overlay.search g source destination f.config with
  | .ok (path, overlay) => .ok (path, { f with overlay })
  | .error (failure, overlay) => .error (failure, { f with overlay })

end Finder

/-- A single search on an overlay of its own, with the number of channels in use meanwhile. -/
def Graph.searchOnce {V E κ : Type} [Cost κ] (g : Graph V E) (evaluator : Evaluator V E κ)
    (source destination : VertexId) (config : SearchConfig) :
    Except (Failure κ) (Path κ × Nat) × Graph V E :=
  match g.mount evaluator with
  | (.error (failure, _), g) => (.error failure, g)
  | (.ok o, g) =>
    match o.search g source destination config with
    | .ok (path, o) => (.ok (path, g.channelCount), o.unmount g)
    | .error (failure, o) => (.error failure, o.unmount g)

end Waymark
