import FluentPlan.Text.Line
import FluentPlan.Text.Quoted

/-!
Files by their names, and why a file cannot be opened. A name is a path from the working directory.
-/

namespace FluentPlan

/-- Why a file cannot be opened: the system's number for the reason, and its words. -/
structure FileProblem where
  code : Nat
  reason : String
deriving DecidableEq, Repr, Inhabited

namespace FileProblem

def missing : FileProblem := ⟨2, "No such file or directory"⟩

def denied : FileProblem := ⟨13, "Permission denied"⟩

def notADirectory : FileProblem := ⟨20, "Not a directory"⟩

def isADirectory : FileProblem := ⟨21, "Is a directory"⟩

def nameTooLong : FileProblem := ⟨36, "File name too long"⟩

/-- The problem with a given number, in the system's own words if it is a usual one. -/
def ofCode (code : Nat) (reason : String) : FileProblem :=
  match [missing, denied, notADirectory, isADirectory, nameTooLong].find? (·.code = code) with
  | some p => p
  | none => ⟨code, reason⟩

/-- The words for a problem with its number and the name of the file. -/
def describe (p : FileProblem) (name : String) : String :=
  "[Errno " ++ toString p.code ++ "] " ++ p.reason ++ ": " ++ Text.quoted name

end FileProblem

/-- The steps of a path, without those that lead nowhere. -/
def pathSteps (name : String) : List String :=
  ((Text.splitAt '/' name.toList).map String.ofList).filter fun s => !s.isEmpty && s ≠ "."

/-- A path written without needless parts. -/
def plainPath (name : String) : String :=
  let root := if name.startsWith "//" && !name.startsWith "///" then "//"
    else if name.startsWith "/" then "/" else ""
  let text := root ++ String.intercalate "/" (pathSteps name)
  if text.isEmpty then "." else text

/-- A working directory: the contents of files by their paths. -/
structure Directory where
  files : List (String × ByteArray)
deriving Inhabited

namespace Directory

/-- What a path leads to. -/
inductive Place where
  | file (path : String)
  | directory
  | nothing (path : String)
  | blocked (problem : FileProblem)
deriving DecidableEq, Repr

def hasFile (d : Directory) (path : String) : Bool := d.files.any (·.1 = path)

def hasDirectory (d : Directory) (path : String) : Bool :=
  d.files.any fun f => (path ++ "/").toList.isPrefixOf f.1.toList

/-- Follows the steps of a path behind those that `walked` holds, the last of them first. -/
def follow (d : Directory) : (walked : List String) → List String → Place
  | _, [] => .directory
  | walked, s :: steps =>
    if s = ".." then follow d walked.tail steps
    else
      let path := String.intercalate "/" (s :: walked).reverse
      if s.utf8ByteSize > 255 then .blocked .nameTooLong
      else if d.hasFile path then if steps.isEmpty then .file path else .blocked .notADirectory
      else if d.hasDirectory path then follow d (s :: walked) steps
      else if steps.isEmpty then .nothing path
      else .blocked .missing

/-- Whether a name can only be that of a directory. -/
def namesDirectory (name : String) : Bool :=
  match (Text.splitAt '/' name.toList).getLast? with
  | some l => l = [] || l = ['.'] || l = ['.', '.']
  | none => false

/-- What a name leads to. -/
def place (d : Directory) (name : String) : Place :=
  if name.isEmpty then .blocked .missing
  else if name.utf8ByteSize > 4095 then .blocked .nameTooLong
  else match name.startsWith "/", pathSteps name with
    | true, [] => .directory
    | true, _ => .blocked .missing
    | false, steps =>
      match d.follow [] steps with
      | .file path => if namesDirectory name then .blocked .notADirectory else .file path
      | p => p

/-- The contents of a file. -/
def read (d : Directory) (name : String) : Except FileProblem ByteArray :=
  match d.place name with
  | .file path => match d.files.lookup path with
    | some contents => .ok contents
    | none => .error .missing
  | .directory => .error .isADirectory
  | .nothing _ => .error .missing
  | .blocked p => .error p

/-- The path under which a file of a given name is written. -/
def target (d : Directory) (name : String) : Except FileProblem String :=
  match d.place name with
  | .file path => .ok path
  | .directory => .error .isADirectory
  | .nothing path => if namesDirectory name then .error .isADirectory else .ok path
  | .blocked p => .error p

/-- Writes a file. -/
def write (d : Directory) (name : String) (contents : ByteArray) : Except FileProblem Directory :=
  (d.target name).map fun path => ⟨(path, contents) :: d.files.filter (·.1 ≠ path)⟩

end Directory

end FluentPlan
