import TemplateTree.Text.Basic

/-!
Text without tags: everything from a `<` through the next `>` goes away. A `<` with no `>` after it
stays.
-/
namespace TemplateTree.Text

def stripTags : Text → Text
  | [] => []
  | c :: r =>
    if c = '<' then
      if '>' ∈ r then stripTags (beyond ['>'] r) else c :: r
    else c :: stripTags r
termination_by t => t.length
decreasing_by
  · have := length_beyond_le ['>'] r
    rw [List.length_cons]
    omega
  · rw [List.length_cons]
    omega

end TemplateTree.Text
