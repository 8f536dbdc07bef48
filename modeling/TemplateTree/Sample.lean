import TemplateTree.Text.Basic

/-!
A page with as many posts as wanted, to try things on.
-/
namespace TemplateTree.Sample

def post : Text :=
  ("<article data-scope=\"post\"><h2 data-prop=\"title\">Title</h2>" ++
    "<p class=meta>by <span data-prop=\"author\">someone</span></p>" ++
    "<div data-prop=\"body\"><p>Body text</p></div></article>").toList

def page (posts : Nat) : Text :=
  "<html><head><title>Posts</title></head><body data-container=\"main\">".toList ++
    (List.replicate posts post).flatten ++ "</body></html>".toList

end TemplateTree.Sample
