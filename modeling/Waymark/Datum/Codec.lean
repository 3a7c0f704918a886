import Waymark.Datum.Basic
import Waymark.Overlay.Basic
import Waymark.SearchConfig

namespace Waymark

open Datum Coded

namespace Datum

/-- A number of 64 bits. -/
def word? : Datum → Option Nat := nat? UInt64.size

end Datum

instance {s : Element} : Coded (ElementId s) where
  encode id := .record [("index", .whole id.index), ("generation", encode id.generation)]
  decode? d := do
    match ← d.fields? ["index", "generation"] with
    | [index, generation] =>
      return ⟨← index >>= nat? UInt32.size, ← required? generation⟩
    | _ => none

instance : Coded Channel where
  encode c := .whole c.index
  decode? d := d.word?.map Channel.mk

def EdgeKind.name : EdgeKind → String
  | directed => "Directed"
  | bidirectional => "Bidirectional"

instance : Coded EdgeKind where
  encode k := .text k.name
  decode? := choice? ([.directed, .bidirectional].map fun k => (k.name, k))

def FrontierKind.name : FrontierKind → String
  | fifo => "fifo"
  | costOrdered => "cost_ordered"

instance : Coded FrontierKind where
  encode k := .text k.name
  decode? := choice? ([.fifo, .costOrdered].map fun k => (k.name, k))

def EdgeState.name : EdgeState → String
  | unexplored => "Unexplored"
  | discovered => "Discovered"
  | excluded => "Excluded"
  | explored => "Explored"

instance : Coded EdgeState where
  encode s := .text s.name
  decode? := choice? ([.unexplored, .discovered, .excluded, .explored].map fun s => (s.name, s))

/-- Absent fields take their defaults. -/
instance : Coded SearchConfig where
  encode c := .record [
    ("frontier", encode c.frontier),
    ("max_expansions", (c.maxExpansions?.map fun n => Datum.whole n).getD .null)]
  decode? d := do
    match ← d.fields? ["frontier", "max_expansions"] with
    | [frontier, limit] =>
      let frontier ← optional? .fifo frontier
      match limit.getD .null with
      | .null => return ⟨frontier, none⟩
      | limit => return ⟨frontier, some (← limit.word?)⟩
    | _ => none

instance {κ : Type} [Coded κ] : Coded (Hop κ) where
  encode h := .record [
    ("from", encode h.origin), ("edge", encode h.edge), ("cost", encode h.cost)]
  decode? d := do
    match ← d.fields? ["from", "edge", "cost"] with
    | [origin, edge, cost] => return ⟨← required? origin, ← required? edge, ← required? cost⟩
    | _ => none

instance {κ : Type} [Coded κ] : Coded (Path κ) where
  encode p := .record [("entries", encode p.hops)]
  decode? d := do
    match ← d.fields? ["entries"] with
    | [entries] => return ⟨← required? entries⟩
    | _ => none

end Waymark
