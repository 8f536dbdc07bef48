import TemplateTree.Text.Basic

/-!
Titles in a text. A title stands between `<title>` and the nearest `</title>` after it on the same
line; the leftmost one counts.
-/
namespace TemplateTree.Text

def titleOpen : Text := "<title>".toList

def titleClose : Text := "</title>".toList

/-- A title stops at its end tag, or at the end of the line. -/
def stopsTitle (t : Text) : Bool := starts titleClose t || starts ['\n'] t

/-- The title that begins at the head of the text, tags left out. -/
def titleHere? (t : Text) : Option Text :=
  let inner := t.drop titleOpen.length
  if starts titleOpen t && starts titleClose (onward stopsTitle inner) then
    some (upTo stopsTitle inner)
  else none

def titleBegins (t : Text) : Bool := (titleHere? t).isSome

/-- The leftmost title. -/
def title? (t : Text) : Option Text := titleHere? (onward titleBegins t)

/-- The text with its leftmost title replaced, or nothing when it has none. -/
def setTitle? (new t : Text) : Option Text :=
  (title? t).map fun old =>
    upTo titleBegins t ++ titleOpen ++ new ++ titleClose ++
      (onward titleBegins t).drop (titleOpen.length + old.length + titleClose.length)

end TemplateTree.Text
