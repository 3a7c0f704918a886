import Waymark.Graph.Basic

namespace Waymark

/-- Why an overlay could not be mounted or reset, or a search not be run. -/
inductive Failure (κ : Type)
  | missing (element : AnyId)
  | noVertices (channel : Channel)
  | sameEndpoints (v : VertexId)
  | alreadyDecorated (element : AnyId) (channel : Channel)
  | undecorated (element : AnyId) (channel : Channel)
  | cycle (v : VertexId) (channel : Channel)
  | unpriced (edge : EdgeId) (reason : String)
  | invalidCost (edge : EdgeId) (cost : κ)
  | expansionLimit (limit : Nat)
  deriving DecidableEq, Repr

def Missing.message (m : Missing) : String := "Not found: " ++ m.element.description

namespace Failure

variable {κ : Type}

def message (costText : κ → String) : Failure κ → String
  | missing element => Missing.message ⟨element⟩
  | noVertices c =>
    "Invalid state: search on channel " ++ c.text ++ " over a context with no vertices"
  | sameEndpoints v => "Invalid state: search from vertex " ++ v.text ++ " to itself"
  | alreadyDecorated element c =>
    "Invalid state: " ++ element.text ++ " already carries a decoration on channel " ++ c.text
  | undecorated element c =>
    "Invalid state: " ++ element.description ++ " is not decorated on channel " ++ c.text
  | cycle v c =>
    "Invalid state: back-pointer cycle through vertex " ++ v.text ++ " on channel " ++ c.text
  | unpriced e reason => "Cost evaluation failed for edge " ++ e.text ++ ": " ++ reason
  | invalidCost e cost =>
    "Invalid cost " ++ costText cost ++ " for edge " ++ e.text
      ++ ": costs must be finite and non-negative"
  | expansionLimit limit => "Search aborted after " ++ toString limit ++ " expansions"

end Failure

end Waymark
