import Waymark.Evaluator

namespace Waymark

/-- Ways of pricing edges with floating-point payloads in graphs with labelled vertices. -/
inductive Tariff
  | constant (cost : Float)
  | payload
  | affine (factor offset : Float)
  /-- The payload, times `factor` if the edge is declared from a vertex with that label. -/
  | fromLabel (label : String) (factor : Float)
  /-- A fixed cost for bidirectional edges, the payload for others. -/
  | bidirectional (cost : Float)
  | failBelow (least : Float) (reason : String)
  /-- One answer per question, whatever the edge; the last one is repeated. -/
  | sequence (answers : List (Except String Float)) (last : Except String Float)

namespace Tariff

def evaluator : Tariff → Evaluator String Float Float
  | constant cost => .constant cost
  | payload => .payload
  | affine factor offset => ⟨fun _ _ edge => .ok (edge.data * factor + offset)⟩
  | fromLabel label factor =>
    ⟨fun _ g edge =>
      let labelled := (g.vertices.get? edge.tail).any fun vertex => vertex.data == label
      .ok (if labelled then edge.data * factor else edge.data)⟩
  | bidirectional cost =>
    ⟨fun _ _ edge => .ok (if edge.isBidirectional then cost else edge.data)⟩
  | failBelow least reason =>
    ⟨fun _ _ edge => if edge.data < least then .error reason else .ok edge.data⟩
  | sequence answers last => ⟨fun asked _ _ => answers.getD asked last⟩

/-- Every edge costs one. -/
def unit : Tariff := .constant 1

end Tariff

end Waymark
