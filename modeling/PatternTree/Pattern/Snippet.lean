import PatternTree.Pattern.Error
import PatternTree.Snippet.Basic

/-!
# Showing an error

A pattern that does not follow the grammar is shown with a mark at the place
where it went wrong. Flags are not part of the text, so an error in them is
told in words.

What the text and the mark look like is left to a renderer. That of this library
is `Snippet.render?`; any other one is handed the same mark.
-/

namespace PatternTree.ParseError

/-- **An error as it is shown to a reader**, with the text it is about; none if the
error is within a character of that text, or if the renderer breaks down. -/
def renderWith? (render : Snippet.Renderer) (error : ParseError) (source label : String) :
    Option String :=
  match error with
  | .malformed offset _ _ expected =>
    (Snippet.Mark.at? source.toList offset ("expected " ++ expected).toList).bind
      (render source label)
  | .invalidFlags _ => some (s!"Parse error for {label}: " ++ error.message)

/-- An error as this library shows it. -/
def render? (error : ParseError) (source label : String) : Option String :=
  error.renderWith? Snippet.render? source label

end PatternTree.ParseError
