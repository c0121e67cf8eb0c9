import Parametric.Element.Parameter
import Parametric.Issue
import Parametric.Registry.Basic
import Parametric.Template.Collection

/-!
Plans of synchronization: which parameters each element should gain or lose, so that it carries
what its category asks for.
-/

namespace Parametric

structure SyncRequest where
  /-- Whether recommended parameters are added too. -/
  includesRecommended : Bool := false
  /-- The id of a template whose parameters are added too. -/
  template : Option String := none
  /-- Whether parameters that the category does not ask for are removed. -/
  removesOthers : Bool := false
  /-- Whether the plan is only shown. -/
  preview : Bool := false
deriving DecidableEq, Repr, Inhabited

def SyncRequest.ofJson? (value : Json) : Option SyncRequest := do
  let fields ← value.fields?
    ["include_recommended", "template", "remove_non_standard", "preview_only"]
  return {
    includesRecommended := ← fields.withDefault "include_recommended" Json.bool? false
    template := ← fields.optional "template" Json.text?
    removesOthers := ← fields.withDefault "remove_non_standard" Json.bool? false
    preview := ← fields.withDefault "preview_only" Json.bool? false }

inductive SyncPlan.Status where
  | completed
  | completedWithErrors
  | preview
  | cancelled
  /-- The template is not known, and nothing was planned. -/
  | rejected
deriving DecidableEq, Repr, Inhabited

def SyncPlan.Status.name : SyncPlan.Status → String
  | .completed => "completed"
  | .completedWithErrors => "completed_with_errors"
  | .preview => "preview"
  | .cancelled => "cancelled"
  | .rejected => "rejected"

structure ElementTask where
  elementId : String
  category : String
  additions : List String := []
  removals : List String := []
  /-- The numbers of parameters to add and to remove, which are zero in a preview. -/
  added : Nat := 0
  removed : Nat := 0
  error : Option Issue := none
deriving DecidableEq, Repr, Inhabited

structure SyncPlan where
  status : SyncPlan.Status
  tasks : List ElementTask := []
  errors : List Issue := []
  warnings : List Issue := []
deriving DecidableEq, Repr, Inhabited

namespace SyncPlan

def totalAdded (r : SyncPlan) : Nat := (r.tasks.map (·.added)).foldr (· + ·) 0

def totalRemoved (r : SyncPlan) : Nat := (r.tasks.map (·.removed)).foldr (· + ·) 0

def failed (r : SyncPlan) : Nat := (r.tasks.filterMap (·.error)).length

def taskFor? (r : SyncPlan) (id : String) : Option ElementTask :=
  r.tasks.find? (·.elementId == id)

end SyncPlan

def ElementTask.toJson (t : ElementTask) : Json :=
  .obj ([("element_id", .str t.elementId), ("category", .str t.category),
      ("to_add", .ofTexts t.additions), ("to_remove", .ofTexts t.removals),
      ("added", .ofNat t.added), ("removed", .ofNat t.removed)] ++
    Json.optionalMember "error" (t.error.map Issue.toJson))

def SyncPlan.toJson (r : SyncPlan) : Json :=
  .obj [("status", .str r.status.name), ("plans", .arr (r.tasks.map ElementTask.toJson)),
    ("total_added", .ofNat r.totalAdded), ("total_removed", .ofNat r.totalRemoved),
    ("failed", .ofNat r.failed), ("errors", .arr (r.errors.map Issue.toJson)),
    ("warnings", .arr (r.warnings.map Issue.toJson))]

/-! ## Planning -/

def Settings.listedNames (settings : Settings) (options : SyncRequest) (category : String) :
    List String :=
  match settings.needs? category with
  | none => []
  | some needs =>
    needs.required ++ if options.includesRecommended then needs.recommended else []

/-- The names of the parameters that a template has for a category. -/
def Template.namesFor (t : Template) (settings : Settings) (r : Registry) (category : String) :
    List String :=
  let names := (t.proposalsFor category {}).map fun p =>
    let normalized := settings.naming.normalize p.name
    (r.spelling? normalized).getD normalized
  names.filter (· != "")

/-- The names of the parameters that elements of a category should carry. -/
def Registry.wantedNames (r : Registry) (settings : Settings) (options : SyncRequest)
    (template : Option Template) (category : String) : List String :=
  distinctNames ((settings.listedNames options category).filterMap r.spelling? ++
    match template with
    | some t => t.namesFor settings r category
    | none => [])

/-- The warnings about names that a category lists and that are not registered. -/
def Registry.listingWarnings (r : Registry) (settings : Settings) (options : SyncRequest)
    (category : String) : List Issue :=
  let missing := (settings.listedNames options category).filter fun name =>
    (r.spelling? name).isNone
  missing.map fun name => .warning name s!"listed for category '{category}' but not registered"

/-- The categories of captured elements, each in the spelling that comes first. -/
def firstCategories (captures : List Capture) : List (String × String) :=
  captures.foldl (fun found capture =>
    let key := Text.lowercase capture.category
    if (found.lookup key).isSome then found else found ++ [(key, capture.category)]) []

/-- The task for an element that should carry the given names. -/
def Capture.task (c : Capture) (settings : Settings) (options : SyncRequest)
    (wanted : List String) : ElementTask :=
  if Text.isBlankText c.elementId then
    { elementId := c.elementId, category := c.category
      error := some ⟨.item, none, "element has no id"⟩ }
  else
    let additions := wanted.filter (!c.has ·)
    let others := c.parameters.filter fun p =>
      !(wanted.any (keyOf · == p.key)) && !settings.registry.reserves p.name
    let removals := if options.removesOthers then others.map (·.name) else []
    { elementId := c.elementId, category := c.category, additions := additions, removals := removals
      added := if options.preview then 0 else additions.length
      removed := if options.preview then 0 else removals.length }

def SyncPlan.Status.ofPlans (options : SyncRequest) (errors : List Issue) (cancelled : Bool) :
    SyncPlan.Status :=
  if cancelled then .cancelled
  else if options.preview then .preview
  else if errors.isEmpty then .completed
  else .completedWithErrors

/-- The plan for captured elements, with a template that was looked up before. -/
def Registry.syncPlans (r : Registry) (settings : Settings) (options : SyncRequest)
    (template : Option Template) (captures : List Capture) (cancelled : Bool) : SyncPlan :=
  let categories := firstCategories captures
  let wanted := fun category =>
    match categories.lookup (Text.lowercase category) with
    | some first => r.wantedNames settings options template first
    | none => []
  let tasks := if cancelled then []
    else captures.map fun c => c.task settings options (wanted c.category)
  let errors := tasks.filterMap (·.error)
  { status := .ofPlans options errors (cancelled && !captures.isEmpty)
    tasks := tasks
    errors := errors
    warnings := categories.flatMap fun c => r.listingWarnings settings options c.2 }

def Registry.planSync (r : Registry) (settings : Settings) (templates : Templates)
    (options : SyncRequest) (captures : List Capture) (cancelled : Bool) : SyncPlan :=
  match options.template with
  | none => r.syncPlans settings options none captures cancelled
  | some id =>
    match templates.get? id with
    | some template => r.syncPlans settings options (some template) captures cancelled
    | none =>
      { status := .rejected, errors := [.about .notFound id "unknown template"] }

end Parametric
