import Bookable.Value

/-!
# Folders

The files that a command can read: names with the value that the file's document
has, or with nothing if the file holds no document. Paths are compared and printed
without empty parts and without parts that stand for the folder itself.
-/

namespace Bookable

/-- The files of a folder, and the name of the folder itself. -/
structure Folder where
  path : String := "."
  files : List (String × Option Value) := []

namespace Folder

def plainPath (path : String) : String :=
  let parts := (path.splitOn "/").filter fun part => part != "" && part != "."
  let joined := "/".intercalate parts
  if path.startsWith "/" then "/" ++ joined
  else if parts.isEmpty then "."
  else joined

/-- The document of the file at a path; `none` if there is no such file. -/
def open? (f : Folder) (path : String) : Option (Option Value) :=
  (f.files.find? fun file => plainPath file.1 == plainPath path).map (·.2)

end Folder

end Bookable
