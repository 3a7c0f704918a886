import Waymark.Overlay.Basic

namespace Waymark.Overlay

variable {V E κ : Type}

def clearHops (o : Overlay V E κ) : Overlay V E κ :=
  { o with vertices := o.vertices.map fun mark => { mark with hop? := none } }

/-- Takes the cost of the edge at a position anew and makes it unexplored. -/
def reprice [Cost κ] (o : Overlay V E κ) (g : Graph V E) (i : Nat) :
    Except (Failure κ × Overlay V E κ) (Overlay V E κ) :=
  match o.edges[i]? with
  | none => .ok o
  | some mark =>
    match g.edges.get? mark.edge with
    | none => .error (.missing (.edge mark.edge), o)
    | some edge =>
      let (priced, appraiser) := o.appraiser.price g edge
      let o := { o with appraiser }
      match priced with
      | .error failure => .error (failure, o)
      | .ok cost => .ok { o with edges := o.edges.setIfInBounds i { edge := mark.edge, cost } }

/-- Forgets the last search and takes all costs anew. What was done before a failure stays done, and
`used` is then as it was. -/
def reset [Cost κ] (o : Overlay V E κ) (g : Graph V E) :
    Except (Failure κ × Overlay V E κ) (Overlay V E κ) := do
  let o ← (List.range o.edges.size).foldlM (fun o i => o.reprice g i) o.clearHops
  return { o with used := false }

/-- Readies the overlay for a search. One without a search since its costs were taken needs no
reset. -/
def beginRun [Cost κ] (o : Overlay V E κ) (g : Graph V E) :
    Except (Failure κ × Overlay V E κ) (Overlay V E κ) := do
  let o ← if o.used then o.reset g else pure o
  return { o with used := true }

end Waymark.Overlay
