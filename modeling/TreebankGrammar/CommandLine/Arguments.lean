import TreebankGrammar.CommandLine.Options
import TreebankGrammar.Number.Reading

/-!
# Arguments of the command line

How a list of arguments is read as options.  An option may be shortened as long as it stays the only
one that begins so, and its value follows as the next argument or after an equality sign.
A lone double hyphen ends the options, and one that is attached to an option gives it no value.

Main definitions:

- `Argument`: what one argument is.
- `Argument.ofText`: how a single argument is understood.
- `Options.parse`: the options that a list of arguments denotes.
-/

namespace TreebankGrammar
namespace CommandLine

/-- Why a run stops before it begins. -/
inductive Stop where
  | help
  | usage
deriving DecidableEq

/-- The exit code of a run that stops before it begins. -/
def Stop.code : Stop → Nat
  | .help => 0
  | .usage => 2

/-! ## Single arguments -/

/-- What one argument is. -/
inductive Argument where
  /-- A file name, or the value of an option. -/
  | value (text : String)
  /-- The end of the options. -/
  | separator
  /-- An option, with the value attached to it. -/
  | option (name : OptionName) (attached : Option String)
  /-- Something that looks like an option and is none. -/
  | unknown
  /-- An option that is shortened too much. -/
  | ambiguous
deriving DecidableEq

/-- The part before the first equality sign, and the part after it if there is one. -/
def splitAttached (cs : List Char) : List Char × Option String :=
  match cs.span (· != '=') with
  | (name, _ :: value) => (name, some (String.ofList value))
  | (name, []) => (name, none)

/-- The options that an argument with two hyphens may mean: the one that is spelled
out, or else all that begin so. -/
def longOptions (name : List Char) : List OptionName :=
  match OptionName.all.find? fun o => o.spelling.toList = name with
  | some o => [o]
  | none => OptionName.all.filter fun o => name.isPrefixOf o.spelling.toList

/-- The value attached to the short form of the help option: none when it only repeats the form. -/
def attachedToHelp (cs : List Char) : Option String :=
  if cs.all (· = 'h') then none else some (String.ofList cs)

/-- The options that an argument may mean, each with its attached value. -/
def candidates : List Char → List (OptionName × Option String)
  | cs@('-' :: '-' :: _) =>
    let (name, attached) := splitAttached cs
    (longOptions name).map fun o => (o, attached)
  | ['-', 'h', '='] => [(.help, some "")]
  | '-' :: 'h' :: '=' :: rest => [(.help, attachedToHelp rest)]
  | '-' :: 'h' :: rest => [(.help, attachedToHelp rest)]
  | _ => []

/-- A text without one line feed at its end. -/
def dropFinalFeed (cs : List Char) : List Char :=
  if cs.getLast? = some '\n' then cs.dropLast else cs

/-- Whether a text is a negative number: a hyphen and digits, perhaps with a point before the last
of them. -/
def isNegativeNumber (cs : List Char) : Bool :=
  match dropFinalFeed cs with
  | '-' :: digits =>
    let (whole, rest) := digits.span Number.isDecimalDigit
    match rest with
    | [] => !whole.isEmpty
    | c :: fraction => c = '.' && !fraction.isEmpty && fraction.all Number.isDecimalDigit
  | _ => false

/-- How an argument before the separator is understood.  What begins with a hyphen is an option,
unless it is the hyphen alone, a negative number, or a text with a blank that no option begins with. -/
def Argument.ofText (s : String) : Argument :=
  let cs := s.toList
  if cs.head? != some '-' || cs.length = 1 then .value s
  else
    match candidates cs with
    | [(o, attached)] => .option o attached
    | _ :: _ :: _ => .ambiguous
    | [] => if isNegativeNumber cs || cs.contains ' ' then .value s else .unknown

/-- The argument that ends the options; attached to an option it stands for no value. -/
def separatorText : String :=
  "--"

/-- How all arguments are understood: after the separator everything is a value. -/
def understand : List String → List Argument
  | [] => []
  | s :: rest =>
    if s = separatorText then .separator :: rest.map .value else .ofText s :: understand rest

/-! ## All arguments -/

/-- What the last argument was, as far as a separator or a file name after it depends on that. -/
inductive Last where
  | file
  /-- A separator that belongs to the file name after it. -/
  | separator
  | other
deriving DecidableEq

/-- What has been read so far: the options, the file names, of which one may lack its value,
whether something is left over, and what the last argument was. -/
structure Progress where
  options : Options := { input := "", output := none }
  files : List (Option String) := []
  leftOver : Bool := false
  last : Last := .other

/-- The number of file names that are asked for. -/
def fileCount : Nat :=
  2

/-- Whether another file name can be taken. -/
def Progress.wantsFile (p : Progress) : Bool :=
  p.files.length < fileCount

/-- Takes a file name, or leaves it over when there are enough.  A second separator in place of a file
name is one only if the first separator belongs to it; otherwise it stands for no value. -/
def Progress.addFile (p : Progress) (name : String) : Progress :=
  let value := if name = separatorText && p.last != .separator then none else some name
  if p.wantsFile then { p with files := p.files ++ [value], last := .file } else
    { p with leftOver := true, last := .other }

/-- Takes a separator.  It belongs to the file name before it, or to the one after it if another one
is wanted; otherwise it is left over. -/
def Progress.addSeparator (p : Progress) (isFinal : Bool) : Progress :=
  if p.last = .file then { p with last := .other }
  else if p.wantsFile && !isFinal then { p with last := .separator }
  else { p with leftOver := true, last := .other }

/-- The stem of new nonterminals when the option for it has no value. -/
def stemOfNothing : String :=
  "[]"

/-- Gives an option no value: a file is then not wanted, and the stem is the one for that case. -/
def Options.clear (o : Options) (name : OptionName) : Except Stop Options :=
  match name with
  | .binary => .ok { o with binary := "" }
  | .shared => .ok { o with shared := "" }
  | .stem => .ok { o with stem := stemOfNothing }
  | .length => .ok { o with length := none }
  | .trees => .ok { o with trees := none }
  | .verbose | .help => .error .usage

/-- Sets an option that needs a value. -/
def Options.set (o : Options) (name : OptionName) (value : String) : Except Stop Options :=
  if value = separatorText then o.clear name else
  match name with
  | .binary => .ok { o with binary := value }
  | .shared => .ok { o with shared := value }
  | .stem => .ok { o with stem := value }
  | .length =>
    match Number.readInt? value with
    | some n => .ok { o with length := some n }
    | none => .error .usage
  | .trees =>
    match Number.readInt? value with
    | some n => .ok { o with trees := some n }
    | none => .error .usage
  | .verbose | .help => .error .usage

/-- Sets an option among what has been read. -/
def Progress.set (p : Progress) (name : OptionName) (value : String) : Except Stop Progress :=
  match p.options.set name value with
  | .ok options => .ok { p with options, last := .other }
  | .error e => .error e

/-- Reads the arguments from left to right. -/
def Progress.read (p : Progress) : List Argument → Except Stop Progress
  | [] => .ok p
  | .ambiguous :: _ => .error .usage
  | .unknown :: rest => { p with leftOver := true, last := .other : Progress }.read rest
  | .separator :: rest => (p.addSeparator rest.isEmpty).read rest
  | .value s :: rest => (p.addFile s).read rest
  | .option .help none :: _ => .error .help
  | .option .verbose none :: rest =>
    { p with options.verbose := true, last := .other : Progress }.read rest
  | .option name (some value) :: rest =>
    match p.set name value with
    | .ok p => p.read rest
    | .error e => .error e
  | .option name none :: .value value :: rest =>
    match p.set name value with
    | .ok p => p.read rest
    | .error e => .error e
  | .option _ none :: _ => .error .usage

/-- The options that a list of arguments denotes: exactly two file names must be given, and nothing
may be left over.  The first of them always has a value. -/
def Options.parse (args : List String) : Except Stop Options :=
  let understood := understand args
  if understood.contains .ambiguous then .error .usage
  else
    match Progress.read {} understood with
    | .error e => .error e
    | .ok p =>
      match p.files, p.leftOver with
      | [some input, output], false => .ok { p.options with input, output }
      | _, _ => .error .usage

end CommandLine
end TreebankGrammar
