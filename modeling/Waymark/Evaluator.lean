import Waymark.Cost
import Waymark.Failure

namespace Waymark

/-- Answers what an edge costs, or why it cannot say. The answer may depend on how many questions
were asked before. -/
structure Evaluator (V E κ : Type) where
  answer : Nat → Graph V E → Edge E → Except String κ

namespace Evaluator

variable {V E κ : Type}

def constant (cost : κ) : Evaluator V E κ := ⟨fun _ _ _ => .ok cost⟩

/-- The payload is the cost. -/
def payload : Evaluator V κ κ := ⟨fun _ _ edge => .ok edge.data⟩

end Evaluator

/-- An evaluator with the edges it has been asked about so far. -/
structure Appraiser (V E κ : Type) where
  evaluator : Evaluator V E κ
  asked : Array EdgeId := #[]

namespace Appraiser

variable {V E κ : Type}

def ask (a : Appraiser V E κ) (g : Graph V E) (edge : Edge E) :
    Except String κ × Appraiser V E κ :=
  (a.evaluator.answer a.asked.size g edge, { a with asked := a.asked.push edge.id })

/-- Asks for the cost of an edge and accepts only an admissible one. -/
def price [Cost κ] (a : Appraiser V E κ) (g : Graph V E) (edge : Edge E) :
    Except (Failure κ) κ × Appraiser V E κ :=
  match a.ask g edge with
  | (.ok cost, a) =>
    (if Cost.admissible cost then .ok cost else .error (.invalidCost edge.id cost), a)
  | (.error reason, a) => (.error (.unpriced edge.id reason), a)

end Appraiser

end Waymark
