/-
  Normalization: every operation gets an input and an output record of its own.

  A declared record is copied into a namespace that is set aside for this, a missing one is made
  empty there, and a record that an earlier run made is kept.  Everything is planned before
  anything changes: a plan that cannot be carried out is a fault, and a successful plan is carried
  out without one.
-/
import SchemaSymbols.Graph.Basic
import SchemaSymbols.Text.Uppercase

namespace SchemaSymbols

/-- How the records made for operations are named. -/
structure SyntheticNaming where
  /-- The namespace set aside for made records. -/
  scope : String := "familiar.synthetic"
  inputSuffix : String := "Input"
  outputSuffix : String := "Output"
deriving DecidableEq, Repr, Inhabited

namespace SyntheticNaming

/-- The ending of the names of the records for a side. -/
def suffixFor (naming : SyntheticNaming) : Side → String
  | .input => naming.inputSuffix
  | .output => naming.outputSuffix

/-- The identifier of a record made for an operation: the operation's name, with its first
character in upper case, and an ending. -/
def idFor (naming : SyntheticNaming) (operation : ShapeId) (ending : String) : ShapeId :=
  ⟨naming.scope, String.ofList (Text.upperFirst operation.name.toList) ++ ending, none⟩

end SyntheticNaming

/-- The shape that an operation declares for a side. -/
def Node.declared? (operation : Node) (side : Side) : Option ShapeId :=
  match operation.shape, side with
  | .operation input _ _, .input => input
  | .operation _ output _, .output => output
  | _, _ => none

namespace Normalization

/-- What is to be done for one side of an operation. -/
inductive Action where
  /-- The side has its own record already. -/
  | keep
  /-- A copy of the declared record is added. -/
  | clone (copy : Node)
  /-- An empty record is added. -/
  | create (empty : Node)
deriving DecidableEq, Repr, Inhabited

namespace Action

/-- The node that an action adds. -/
def node? : Action → Option Node
  | keep => none
  | clone n => some n
  | create n => some n

/-- The identifier of the copy that an action adds. -/
def cloned? : Action → Option ShapeId
  | clone n => some n.id
  | _ => none

/-- The identifier of the empty record that an action adds. -/
def created? : Action → Option ShapeId
  | create n => some n.id
  | _ => none

end Action

/-- The plan for an operation: its records, and how each side comes by its own. -/
structure Plan where
  operation : ShapeId
  input : ShapeId
  inputAction : Action
  output : ShapeId
  outputAction : Action
deriving DecidableEq, Repr, Inhabited

namespace Plan

/-- The two actions of a plan, input first. -/
def actions (p : Plan) : List Action := [p.inputAction, p.outputAction]

/-- Whether both sides keep their records. -/
def keepsAll (p : Plan) : Bool := p.inputAction = .keep && p.outputAction = .keep

end Plan

/-- What a normalization did. -/
structure Report where
  /-- The copies that were made. -/
  cloned : List ShapeId := []
  /-- The empty records that were made. -/
  created : List ShapeId := []
  /-- The operations that had their own records. -/
  untouched : List ShapeId := []
deriving DecidableEq, Repr, Inhabited

/-- A copy of a record for one side of an operation. -/
def cloneFor (id : ShapeId) (side : Side) (source : Node) (members : List Member) : Node :=
  let tags := source.tags.insert (.cloneOf source.id)
  let copy : Node := { id, shape := .record members, tags }
  (copy.withTag .synthetic).withTag side.tag

/-- An empty record for one side of an operation. -/
def emptyFor (id : ShapeId) (side : Side) : Node :=
  let empty : Node := { id, shape := .record [] }
  (empty.withTag .synthetic).withTag side.tag

/-- Whether a shape is a record that was made for an operation. -/
def isMadeRecord (g : Graph) (id : ShapeId) : Bool :=
  match g.get? id with
  | some n => n.shape.isRecord && n.tags.contains .synthetic
  | none => false

/-- Plans one side of an operation. -/
def planSide (g : Graph) (naming : SyntheticNaming) (operation : Node) (side : Side) :
    Except Fault Action :=
  let id := naming.idFor operation.id (naming.suffixFor side)
  let declared := operation.declared? side
  if declared = some id ∧ isMadeRecord g id then .ok .keep
  else if g.contains id then .error (.syntheticCollision operation.id id)
  else
    match declared with
    | none => .ok (.create (emptyFor id side))
    | some target => do
      let source ← g.require target
      match source.shape with
      | .record members => .ok (.clone (cloneFor id side source members))
      | other => .error (.operationTargetNotRecord operation.id target side other.word)

/-- Refuses a record that is planned already. -/
def reserve (operation : ShapeId) (taken : List ShapeId) (id : ShapeId) : Except Fault Unit :=
  if id ∈ taken then .error (.syntheticCollision operation id) else .ok ()

/-- Plans an operation, given the records that are planned already. -/
def planOperation (g : Graph) (naming : SyntheticNaming) (taken : List ShapeId) (operation : Node) :
    Except Fault Plan := do
  let input := naming.idFor operation.id naming.inputSuffix
  let output := naming.idFor operation.id naming.outputSuffix
  let inputAction ← planSide g naming operation .input
  reserve operation.id taken input
  let outputAction ← planSide g naming operation .output
  reserve operation.id (taken ++ [input]) output
  return { operation := operation.id, input, inputAction, output, outputAction }

/-- Plans operations one after the other. -/
def planFrom (g : Graph) (naming : SyntheticNaming) (taken : List ShapeId) :
    List Node → Except Fault (List Plan)
  | [] => .ok []
  | operation :: rest => do
    let plan ← planOperation g naming taken operation
    let plans ← planFrom g naming (taken ++ [plan.input, plan.output]) rest
    return plan :: plans

/-- Plans all operations of a graph. -/
def planAll (g : Graph) (naming : SyntheticNaming) : Except Fault (List Plan) :=
  planFrom g naming [] g.operations

/-- Whether a shape is declared where only made records belong. -/
def intrudes (naming : SyntheticNaming) (n : Node) : Bool :=
  n.id.scope = naming.scope && !n.tags.contains .synthetic

/-- Points an operation at its records, unless it keeps both. -/
def rewire (g : Graph) (p : Plan) : Except Fault Graph :=
  if p.keepsAll then .ok g else g.setSides p.operation p.input p.output

/-- Adds the records of the plans, and points the operations at them. -/
def carryOut (g : Graph) (plans : List Plan) : Except Fault Graph := do
  let nodes := plans.flatMap fun p => p.actions.filterMap Action.node?
  let g ← nodes.foldlM Graph.insert g
  plans.foldlM rewire g

/-- The report of carrying out plans. -/
def reportOf (plans : List Plan) : Report where
  cloned := plans.flatMap fun p => p.actions.filterMap Action.cloned?
  created := plans.flatMap fun p => p.actions.filterMap Action.created?
  untouched := (plans.filter Plan.keepsAll).map Plan.operation

end Normalization

open Normalization in
/-- Gives every operation an input and an output record of its own. -/
def Graph.normalize (g : Graph) (naming : SyntheticNaming) : Except Fault (Graph × Report) :=
  match g.nodes.toList.find? (intrudes naming) with
  | some n => .error (.reservedNamespace n.id)
  | none => do
    let plans ← planAll g naming
    return (← carryOut g plans, reportOf plans)

end SchemaSymbols
