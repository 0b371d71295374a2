/-!
Ends of lines.

A line ends with a carriage return, a line feed, or the two together; all three become a line
feed.
-/
namespace ResourceNames.Text

/-- Makes every end of a line a line feed. -/
def unifyNewlines : List Char → List Char
  | [] => []
  | '\r' :: '\n' :: cs => '\n' :: unifyNewlines cs
  | c :: cs => (if c = '\r' then '\n' else c) :: unifyNewlines cs

end ResourceNames.Text
