import Mathlib
import Tack.Lib.Float64
import Tack.Lib.ParseTime
import Tack.Nodes.Records

/-!
# Validation of node properties

The properties of a node are read against the schema of its organization: each name needs a
definition that applies to the node type and accepts the value.  The complete result of a write is also
checked for required properties, for the targets of references and for the parent.

## Main definitions

* `Nodes.Schema.interpret`, `Nodes.Schema.validateResult` — the two checks.
* `Nodes.hierarchyParent`, `Nodes.livesUnder` — the hierarchy rules.
-/

namespace Tack.Nodes

open Lib

/-! ### Issues -/

inductive PropertyIssueCode
  | undeclared
  | notApplicable
  | invalidValue
  | unknownOption
  | missingRequired
  | invalidReference
  | invalidParent
  deriving DecidableEq

/-- Why a property is rejected, with the values that the message shows. -/
inductive IssueReason
  | noDefinition
  | notApplicableTo (typeKey : String)
  | notJson
  | null
  | notString
  | notNumber
  | notBoolean
  | notStringArray
  | layout (value layout : String)
  | notAbsoluteURL (value : String)
  | notCanonicalUUID (value : String)
  | labelOf (value key : String)
  | notOption (value : String)
  | repeatedOption (value : String)
  | required
  | targetMissing (target : UUID)
  | targetType (target : UUID) (nodeType required : String)
  | edgesWithoutParent (childOf : List UUID)
  | parentRequired (typeKey : String) (canLiveUnder : List String)
  | notNodeID
  | parentDiffers (parent : UUID) (childOf : List UUID)
  | parentMissing (parent : UUID)
  | cannotLiveUnder (typeKey : String) (parent : UUID) (parentType : String)
  deriving DecidableEq

structure PropertyIssue where
  property : String
  code : PropertyIssueCode
  reason : IssueReason
  deriving DecidableEq

/-- A part of the schema that could not be read. -/
structure ReadFailure where
  subject : String
  reason : String
  deriving DecidableEq

structure PropertyResult where
  nodeType : String
  valid : Props
  invalid : List PropertyIssue
  failures : List ReadFailure
  deriving DecidableEq

/-- The result has no error. -/
def PropertyResult.accepted (result : PropertyResult) : Bool :=
  result.failures.isEmpty && result.invalid.isEmpty

/-! ### Values -/

section Values

-- `absoluteURL`: `url.Parse` reads the text and finds a scheme and a host
variable (absoluteURL : String → Bool)

def timeLayoutAccepts (dateOnly : Bool) (value : String) : Bool :=
  if dateOnly then
    match getDate value.toList with
    | some (date, []) => date.valid
    | _ => false
  else (Time.parseRFC3339Nano value.toList).isSome

/-- A value that is an option key has no reason against it. -/
def optionReason (definition : PropertyDef) (value : String) : Option IssueReason :=
  if definition.options.any fun option => option.key == value then none
  else match definition.options.find? fun option => option.label == value with
    | some option => some (.labelOf value option.key)
    | none => some (.notOption value)

/-- The strings of a JSON array; a null element decodes as the empty string. -/
def stringItems : List Json → Option (List String)
  | [] => some []
  | .str text :: rest => (stringItems rest).map (text :: ·)
  | .null :: rest => (stringItems rest).map ("" :: ·)
  | _ :: _ => none

def valueIssue (definition : PropertyDef) (code : PropertyIssueCode) (reason : IssueReason) :
    PropertyIssue :=
  ⟨definition.name, code, reason⟩

/-- The first option key of the list that is repeated or unknown. -/
def optionsIssue (definition : PropertyDef) (seen : List String) : List String → Option PropertyIssue
  | [] => none
  | value :: rest =>
    if value ∈ seen then some (valueIssue definition .unknownOption (.repeatedOption value))
    else match optionReason definition value with
      | some reason => some (valueIssue definition .unknownOption reason)
      | none => optionsIssue definition (value :: seen) rest

def multiSelectIssue (definition : PropertyDef) (value : Json) : Option PropertyIssue :=
  match value with
  | .arr items =>
    match stringItems items with
    | some values => optionsIssue definition [] values
    | none => some (valueIssue definition .invalidValue .notStringArray)
  | _ => some (valueIssue definition .invalidValue .notStringArray)

/-- Requires a JSON string and applies a check to it. -/
def stringValueIssue (definition : PropertyDef) (value : Json) (check : String → Option IssueReason) :
    Option PropertyIssue :=
  match value with
  | .str text =>
    (check text).map (valueIssue definition
      (if definition.type = .select then .unknownOption else .invalidValue))
  | _ => some (valueIssue definition .invalidValue .notString)

/-- What is wrong with a value for the type of its definition. -/
def propertyValueIssue (definition : PropertyDef) (raw : RawMessage) : Option PropertyIssue :=
  match Json.parse raw.toList with
  | none => some (valueIssue definition .invalidValue .notJson)
  | some .null => some (valueIssue definition .invalidValue .null)
  | some value =>
    match definition.type with
    | .text => stringValueIssue definition value fun _ => none
    | .number =>
      match value with
      | .num number =>
        if number.toFloat.isSome then none else some (valueIssue definition .invalidValue .notNumber)
      | _ => some (valueIssue definition .invalidValue .notNumber)
    | .checkbox =>
      match value with
      | .bool _ => none
      | _ => some (valueIssue definition .invalidValue .notBoolean)
    | .date => stringValueIssue definition value fun text =>
        if timeLayoutAccepts true text then none else some (.layout text "2006-01-02")
    | .timestamp => stringValueIssue definition value fun text =>
        if timeLayoutAccepts false text then none else some (.layout text "2006-01-02T15:04:05Z07:00")
    | .url => stringValueIssue definition value fun text =>
        if absoluteURL text then none else some (.notAbsoluteURL text)
    | .uuid => stringValueIssue definition value fun text =>
        if (UUID.parse text).map UUID.text = some text then none else some (.notCanonicalUUID text)
    | .select => stringValueIssue definition value (optionReason definition)
    | .multiSelect => multiSelectIssue definition value
    | .other _ => none

end Values

/-! ### The hierarchy -/

/-- The single target of the child_of edges of a node; a node whose type lists the types it lives under
needs one. -/
def hierarchyParent (kind : Option NodeType) (childOfTargets : List UUID) : Option UUID :=
  match step UUID.nil childOfTargets with
  | none => none
  | some parentId =>
    match kind with
    | some kind => if parentId = UUID.nil ∧ kind.canLiveUnder ≠ [] then none else some parentId
    | none => some parentId
where
  /-- The last target, when no two of them differ. -/
  step (parentId : UUID) : List UUID → Option UUID
    | [] => some parentId
    | targetId :: rest => if parentId ≠ UUID.nil ∧ targetId ≠ parentId then none else step targetId rest

/-- The child's list or the parent's list declares the pair of types. -/
def livesUnder (child parent : NodeType) : Bool :=
  child.canLiveUnder.contains parent.typeKey || parent.canContain.contains child.typeKey

/-! ### The schema -/

structure Schema where
  orgId : UUID
  types : Table String NodeType
  definitions : List PropertyDef

/-- A definition without features applies to every type. -/
def propertyAppliesTo (definition : PropertyDef) (nodeType : NodeType) : Bool :=
  definition.appliesToFeatures.isEmpty ||
    definition.appliesToFeatures.any fun feature => nodeType.features.contains feature

/-- The definition of a reference to a node. -/
def PropertyDef.isReference (definition : PropertyDef) : Bool :=
  definition.type = .uuid && definition.referenceTargetTypeKey ≠ ""

/-- Whether a node has a resolution record, and what it says. -/
structure ResultTarget where
  found : Bool
  orgId : UUID
  nodeType : String
  deriving DecidableEq

def ResultTarget.absent : ResultTarget := ⟨false, UUID.nil, ""⟩

/-- The surroundings of a node that validation looks at. -/
structure ResultGraph where
  orgId : UUID
  childOf : List UUID
  targets : UUID → ResultTarget

namespace Schema

variable (absoluteURL : String → Bool)

/-- The first definition of a name. -/
def definition (schema : Schema) (name : String) : Option PropertyDef :=
  schema.definitions.find? fun definition => definition.name == name

/-- The names that are defined again. -/
def duplicateFailures (seen : List String) : List PropertyDef → List ReadFailure
  | [] => []
  | definition :: rest =>
    if definition.name ∈ seen then
      ⟨"property definition " ++ definition.name, "the schema contains the name more than once"⟩ ::
        duplicateFailures seen rest
    else duplicateFailures (definition.name :: seen) rest

def propertyIssue (schema : Schema) (nodeType : NodeType) (typeKey name : String) (raw : RawMessage) :
    Option PropertyIssue :=
  match schema.definition name with
  | none => some ⟨name, .undeclared, .noDefinition⟩
  | some definition =>
    if propertyAppliesTo definition nodeType then propertyValueIssue absoluteURL definition raw
    else some ⟨name, .notApplicable, .notApplicableTo typeKey⟩

def interpret (schema : Schema) (typeKey : String) (props : Props) : PropertyResult :=
  match schema.types.get typeKey with
  | none => ⟨typeKey, .empty, [], [⟨"node type " ++ typeKey, "the schema does not contain it"⟩]⟩
  | some nodeType =>
    let issue := schema.propertyIssue absoluteURL nodeType typeKey
    { nodeType := typeKey
      valid := props.keep fun name => (issue name ((props.get name).getD "")).isNone
      invalid := props.entries.filterMap fun e => issue e.1 e.2
      failures := duplicateFailures [] schema.definitions }

/-- The ID that a value holds as a JSON string, or the nil ID. -/
def resultReferenceID (raw : RawMessage) : UUID := storedUUID raw

def referenceReason (definition : PropertyDef) (raw : RawMessage) (graph : ResultGraph) :
    Option IssueReason :=
  let targetId := resultReferenceID raw
  let target := graph.targets targetId
  if !target.found || target.orgId ≠ graph.orgId then some (.targetMissing targetId)
  else if target.nodeType ≠ definition.referenceTargetTypeKey then
    some (.targetType targetId target.nodeType definition.referenceTargetTypeKey)
  else none

/-- What is wrong with the parent of a node; an error when the type of the parent is not read. -/
def parentReason (schema : Schema) (nodeType : NodeType) (raw : RawMessage) (graph : ResultGraph) :
    Except ReadFailure (Option IssueReason) :=
  if raw = "" then
    if graph.childOf ≠ [] then .ok (some (.edgesWithoutParent graph.childOf))
    else if nodeType.canLiveUnder ≠ [] then
      .ok (some (.parentRequired nodeType.typeKey nodeType.canLiveUnder))
    else .ok none
  else
    let parentId := resultReferenceID raw
    let parent := graph.targets parentId
    if parentId = UUID.nil then .ok (some .notNodeID)
    else if graph.childOf ≠ [parentId] then .ok (some (.parentDiffers parentId graph.childOf))
    else if !parent.found || parent.orgId ≠ graph.orgId then .ok (some (.parentMissing parentId))
    else match schema.types.get parent.nodeType with
      | none => .error ⟨"node type " ++ parent.nodeType ++ " of parent " ++ parentId.text,
          "the schema does not contain it"⟩
      | some parentType =>
        if livesUnder nodeType parentType then .ok none
        else .ok (some (.cannotLiveUnder nodeType.typeKey parentId parentType.typeKey))

def sortedDefinitions (schema : Schema) : List PropertyDef :=
  schema.definitions.insertionSort fun left right => left.name ≤ right.name

/-- What is wrong with the properties for one definition: a required value is missing, or a reference
has no valid target. -/
def definitionIssue (nodeType : NodeType) (graph : ResultGraph) (valid : Props)
    (definition : PropertyDef) : Option PropertyIssue :=
  if !propertyAppliesTo definition nodeType then none
  else match valid.get definition.name with
    | none =>
      if definition.required then some ⟨definition.name, .missingRequired, .required⟩ else none
    | some raw =>
      if definition.isReference then
        (referenceReason definition raw graph).map fun reason =>
          ⟨definition.name, .invalidReference, reason⟩
      else none

/-- Checks one definition against the complete properties. -/
def checkDefinition (nodeType : NodeType) (rejected : String → Bool) (graph : ResultGraph)
    (result : PropertyResult) (definition : PropertyDef) : PropertyResult :=
  if rejected definition.name then result
  else match definitionIssue nodeType graph result.valid definition with
    | none => result
    | some issue =>
      { result with
        valid := result.valid.erase definition.name
        invalid := result.invalid ++ [issue] }

/-- Adds what is wrong with the parent. -/
def withParent (checked : PropertyResult) : Except ReadFailure (Option IssueReason) → PropertyResult
  | .error failure => { checked with failures := checked.failures ++ [failure] }
  | .ok (some reason) =>
    { checked with
      valid := checked.valid.erase parentIDProperty
      invalid := checked.invalid ++ [⟨parentIDProperty, .invalidParent, reason⟩] }
  | .ok none => checked

def validateResult (schema : Schema) (typeKey : String) (props : Props) (graph : ResultGraph) :
    PropertyResult :=
  let result := schema.interpret absoluteURL typeKey props
  match schema.types.get typeKey with
  | none => result
  | some nodeType =>
    if result.failures ≠ [] then result
    else
      let rejected name := result.invalid.any fun issue => issue.property == name
      let checked := schema.sortedDefinitions.foldl (checkDefinition nodeType rejected graph) result
      if rejected parentIDProperty then checked
      else withParent checked
        (schema.parentReason nodeType ((props.get parentIDProperty).getD "") graph)

/-! ### What the complete check accepts -/

variable {absoluteURL : String → Bool} {schema : Schema} {nodeType : NodeType} {typeKey : String}
  {props : Props} {graph : ResultGraph}

theorem interpret_of_type (h : schema.types.get typeKey = some nodeType) :
    schema.interpret absoluteURL typeKey props =
      { nodeType := typeKey
        valid := props.keep fun name =>
          (schema.propertyIssue absoluteURL nodeType typeKey name ((props.get name).getD "")).isNone
        invalid := props.entries.filterMap fun e =>
          schema.propertyIssue absoluteURL nodeType typeKey e.1 e.2
        failures := duplicateFailures [] schema.definitions } := by
  rw [interpret, h]

end Schema

end Tack.Nodes
