import TreebankGrammar.Table
import TreebankGrammar.Text.Decoding
import TreebankGrammar.Text.Quoted

/-!
# Directories

A directory holds files under plain names and has no subdirectories.  A name is followed from the
left: it may stay in the directory, which is called by a dot, any number of times, and two dots
lead out of it to directories around it, in which no file is known.

Main definitions:

- `Place`: what a name leads to.
- `Directory`: the files and their contents.
- `Directory.read` and `Directory.readText`: the bytes and the text of a file.
- `Directory.readLines`: the lines of a file, which are decoded while they are taken.
- `Directory.write`: puts a text into a file, which is made if it is missing.
-/

namespace TreebankGrammar

/-! ## Errors -/

/-- Why a file cannot be opened. -/
inductive FileError where
  | notFound (name : String)
  | isDirectory (name : String)
  /-- The name goes on after the name of a file. -/
  | notDirectory (name : String)
  | tooLong (name : String)
  /-- The name contains the null character, which ends a name. -/
  | nullCharacter
deriving DecidableEq

/-- The wording of the error. -/
def FileError.message : FileError → String
  | .notFound name => "[Errno 2] No such file or directory: " ++ Text.quoted name
  | .isDirectory name => "[Errno 21] Is a directory: " ++ Text.quoted name
  | .notDirectory name => "[Errno 20] Not a directory: " ++ Text.quoted name
  | .tooLong name => "[Errno 36] File name too long: " ++ Text.quoted name
  | .nullCharacter => "embedded null byte"

/-- Why a file cannot be read as text. -/
inductive TextError where
  | file (cause : FileError)
  | undecodable
deriving DecidableEq

/-! ## Names -/

/-- The parts of a name between its slashes. -/
def splitSlashes (cs : List Char) : List (List Char) :=
  cs.foldr (fun c parts => if c = '/' then [] :: parts else (c :: parts.headD []) :: parts.tail) [[]]

/-- Whether a part of a name leads to the directory in which it stands. -/
def staysHere (part : List Char) : Bool :=
  part.isEmpty || part == ['.']

/-- The part of a name that leads to the directory around. -/
def parentPart : List Char :=
  ['.', '.']

/-- What follows the first part of a name that stands for something in a directory. -/
inductive Ending where
  | nothing
  /-- Slashes alone, as only the name of a directory may have them. -/
  | slashes
  /-- Further parts. -/
  | parts
deriving DecidableEq

/-- What follows, given by the parts. -/
def Ending.ofParts (rest : List (List Char)) : Ending :=
  if rest.isEmpty then .nothing else if rest.all List.isEmpty then .slashes else .parts

/-- What a name leads to. -/
inductive Place where
  /-- The directory itself, or one around it. -/
  | directory
  /-- An entry of the directory, or of one around it. -/
  | entry (inside : Bool) (name : String) (ending : Ending)
deriving DecidableEq

/-- What the parts of a name lead to, from the directory or from one around it. -/
def Place.follow (inside : Bool) : List (List Char) → Place
  | [] => .directory
  | part :: rest =>
    if staysHere part then follow inside rest
    else if part = parentPart then follow false rest
    else .entry inside (String.ofList part) (.ofParts rest)

/-- What a name leads to; a name that begins with a slash starts at the outermost directory. -/
def Place.ofName (name : String) : Place :=
  let parts := splitSlashes name.toList
  follow (parts.head? != some []) parts

example : Place.ofName "././/o" = .entry true "o" .nothing := by decide +kernel

example : Place.ofName "nodir/o" = .entry true "nodir" .parts := by decide +kernel

example : Place.ofName "../o//" = .entry false "o" .slashes := by decide +kernel

/-! ## Lengths -/

/-- The number of bytes in the longest name of an entry. -/
def maxEntryBytes : Nat :=
  255

/-- The number of bytes in the longest name that may be followed. -/
def maxNameBytes : Nat :=
  4095

/-- What a name leads to, if it can be followed at all: it must not be empty or too long as a whole,
nor contain the null character. -/
def Place.find (name : String) : Except FileError Place :=
  if name.toList.contains '\x00' then .error .nullCharacter
  else if name.isEmpty then .error (.notFound name)
  else if maxNameBytes < name.utf8ByteSize then .error (.tooLong name)
  else .ok (.ofName name)

/-! ## Reading and writing -/

/-- The files of a directory. -/
structure Directory where
  files : Table String ByteArray := .empty

namespace Directory

/-- The bytes of an entry, if there is a file with its name. -/
def entry? (d : Directory) (inside : Bool) (part : String) : Option ByteArray :=
  if inside then d.files.get? part else none

/-- Why an entry cannot be opened when it leads to no file.  The whole name is what errors speak of. -/
def obstacle (d : Directory) (name : String) (inside : Bool) (part : String) : FileError :=
  if maxEntryBytes < part.utf8ByteSize then .tooLong name
  else if (d.entry? inside part).isSome then .notDirectory name
  else .notFound name

/-- The bytes of the file that an entry leads to. -/
def readEntry (d : Directory) (name : String) (inside : Bool) (part : String) (ending : Ending) :
    Except FileError ByteArray :=
  match ending, d.entry? inside part with
  | .nothing, some bytes => .ok bytes
  | _, _ => .error (d.obstacle name inside part)

/-- The bytes of a file. -/
def read (d : Directory) (name : String) : Except FileError ByteArray :=
  match Place.find name with
  | .error e => .error e
  | .ok .directory => .error (.isDirectory name)
  | .ok (.entry inside part ending) => d.readEntry name inside part ending

/-- The text of a file, whose bytes must be well-formed UTF-8. -/
def readText (d : Directory) (name : String) : Except TextError String :=
  match d.read name with
  | .error e => .error (.file e)
  | .ok bytes =>
    match String.fromUTF8? bytes with
    | some text => .ok text
    | none => .error .undecodable

/-- The lines of a file, decoded while they are taken. -/
def readLines (d : Directory) (name : String) : Except FileError Text.LineStream :=
  match d.read name with
  | .error e => .error e
  | .ok bytes => .ok (.ofBytes bytes)

/-- The directory with bytes in the file that an entry leads to.  Only a file of the directory itself
can be written. -/
def writeEntry (d : Directory) (name : String) (inside : Bool) (part : String) (ending : Ending)
    (bytes : ByteArray) : Except FileError Directory :=
  match inside, ending with
  | _, .slashes => .error (.isDirectory name)
  | true, .nothing =>
    if maxEntryBytes < part.utf8ByteSize then .error (.tooLong name)
    else .ok { d with files := d.files.insert part bytes }
  | _, _ => .error (d.obstacle name inside part)

/-- The directory after bytes have been written to a file. -/
def writeBytes (d : Directory) (name : String) (bytes : ByteArray) : Except FileError Directory :=
  match Place.find name with
  | .error e => .error e
  | .ok .directory => .error (.isDirectory name)
  | .ok (.entry inside part ending) => d.writeEntry name inside part ending bytes

/-- The directory after a text has been written to a file. -/
def write (d : Directory) (name text : String) : Except FileError Directory :=
  d.writeBytes name text.toUTF8

end Directory
end TreebankGrammar
