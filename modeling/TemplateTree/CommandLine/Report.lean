import TemplateTree.View.Query
import TemplateTree.View.Title

/-!
The report on a template: its title, its scopes with their properties, its containers and its
fragments.
-/
namespace TemplateTree.CommandLine.Report

/-- Names with commas between them. -/
def commaSeparated (names : List Text) : Text := [',', ' '].intercalate names

/-- The line of a scope. -/
def scopeLine (depth : Nat) (scope : Scope) : Text :=
  let properties :=
    if scope.properties = [] then []
    else ' ' :: '[' :: commaSeparated (scope.properties.map (·.name)) ++ [']']
  List.replicate (2 * (depth + 1)) ' ' ++ scope.name ++ properties ++ ['\n']

/-- The lines of scopes and of the scopes inside them. -/
def scopeLines (depth : Nat) : Forest Scope → Text
  | .nil => []
  | .cons scope inside rest =>
    scopeLine depth scope ++ scopeLines (depth + 1) inside ++ scopeLines depth rest

/-- The nodes of the scopes that stand directly below a scope of the row. -/
def nested : Forest Scope → List (Option NodeId)
  | .nil => []
  | .cons _ inside rest => inside.roots.map (·.view.focus) ++ nested rest

/-- The lines of the scopes whose nodes are not in `hidden`. -/
def outermost (hidden : List (Option NodeId)) : Forest Scope → Text
  | .nil => []
  | .cons scope inside rest =>
    if scope.view.focus ∈ hidden then outermost hidden rest
    else scopeLine 0 scope ++ scopeLines 1 inside ++ outermost hidden rest

def names (found : NamedViews) : Text := commaSeparated (found.map Prod.fst)

/-- The whole report. -/
def render (v : View) (s : Store) : Text :=
  let scopes := v.scopes s
  "title: ".toList ++ (v.title? s).getD "(none)".toList ++ ['\n'] ++
    "scopes:\n".toList ++ outermost (nested scopes) scopes ++
    "containers: ".toList ++ names (v.named s .container) ++ ['\n'] ++
    "partials: ".toList ++ names (v.named s .fragment) ++ ['\n']

end TemplateTree.CommandLine.Report
