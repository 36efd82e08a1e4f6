/-! Arguments of the command line. An option is given by its long name, one of them also by
a letter; its value follows it, or is attached to it. Paths must not be empty, and only start
rules may be given more than once. -/
namespace PegCompiler.Command

inductive Subcommand where
  | generate
  | types
deriving DecidableEq, Repr

inductive Opt where
  | config | source | strictTypes | json | noColor | logLevel
  | package | className | baseClass | startRule | fullNames | output
deriving DecidableEq, Repr

namespace Opt

def all : List Opt :=
  [.config,.source,.strictTypes,.json,.noColor,.logLevel,.package,.className,.baseClass,
    .startRule,.fullNames,.output]

def longName : Opt → String
  | .config => "config"
  | .source => "source"
  | .strictTypes => "strict-types"
  | .json => "json"
  | .noColor => "no-color"
  | .logLevel => "log-level"
  | .package => "package"
  | .className => "class-name"
  | .baseClass => "base-class"
  | .startRule => "start-rule"
  | .fullNames => "full-names"
  | .output => "output"

def letter? : Opt → Option Char
  | .output => some 'o'
  | _ => none

def takesValue : Opt → Bool
  | .strictTypes => false
  | .json => false
  | .noColor => false
  | .fullNames => false
  | _ => true

def isPath : Opt → Bool
  | .config => true
  | .source => true
  | .output => true
  | _ => false

def isRepeatable : Opt → Bool
  | .startRule => true
  | _ => false

def belongsTo : Opt → Subcommand → Bool
  | _, .generate => true
  | .config, .types => true
  | .source, .types => true
  | .strictTypes, .types => true
  | .json, .types => true
  | .noColor, .types => true
  | .logLevel, .types => true
  | _, .types => false

def find (cmd : Subcommand) (name : String) : Option Opt :=
  all.find? fun o => o.longName == name && o.belongsTo cmd

def findLetter (cmd : Subcommand) (c : Char) : Option Opt :=
  all.find? fun o => o.letter? == some c && o.belongsTo cmd

end Opt

inductive Token where
  | escape
  | long (name : String) (value : Option String)
  | short (letter : Char) (attached : String)
  | plain (word : String)
deriving DecidableEq, Repr

namespace Token

def ofWord (word : String) : Token :=
  match word.toList with
  | ['-','-'] => .escape
  | '-' :: '-' :: rest =>
    let name := String.ofList (rest.takeWhile (· != '='))
    match rest.dropWhile (· != '=') with
    | _ :: value => .long name (some (String.ofList value))
    | [] => .long name none
  | '-' :: c :: attached => .short c (String.ofList attached)
  | _ => .plain word

end Token

structure Invocation where
  subcommand : Subcommand
  input : String
  given : List (Opt × String)
deriving DecidableEq, Repr

namespace Invocation

def has (i : Invocation) (o : Opt) : Bool :=
  i.given.any fun g => g.1 == o

def values (i : Invocation) (o : Opt) : List String :=
  (i.given.filter fun g => g.1 == o).map (·.2)

def value? (i : Invocation) (o : Opt) : Option String :=
  (i.values o).head?

end Invocation

inductive Request where
  | run (invocation : Invocation)
  | help
  | version
  | misuse
deriving DecidableEq, Repr

def accept (given : List (Opt × String)) (o : Opt) (value : String) :
    Option (List (Opt × String)) :=
  if o.isPath && value.isEmpty then none
  else if !o.isRepeatable && given.any (fun g => g.1 == o) then none
  else some (given ++ [(o,value)])

def asValue (word : String) : Option String :=
  match Token.ofWord word with
  | .plain w => some w
  | _ => none

def scanInputs (cmd : Subcommand) (given : List (Opt × String)) (input : Option String)
    (words : List String) : Request :=
  match input.toList ++ words with
  | [word] => if word.isEmpty then .misuse else .run ⟨cmd,word,given⟩
  | _ => .misuse

def scan (cmd : Subcommand) (given : List (Opt × String)) (input : Option String) :
    List String → Request
  | [] => scanInputs cmd given input []
  | word :: rest =>
    let option (o : Option Opt) (attached : Option String) : Request :=
      match o with
      | none => .misuse
      | some o =>
        if o.takesValue then
          match attached with
          | some value =>
            match accept given o value with
            | some given => scan cmd given input rest
            | none => .misuse
          | none =>
            match rest with
            | [] => .misuse
            | next :: rest =>
              match asValue next with
              | none => .misuse
              | some value =>
                match accept given o value with
                | some given => scan cmd given input rest
                | none => .misuse
        else if attached.isSome then .misuse
        else
          match accept given o "" with
          | some given => scan cmd given input rest
          | none => .misuse
    match Token.ofWord word with
    | .escape => scanInputs cmd given input rest
    | .long name value =>
      if name = "help" ∧ value = none then .help else option (Opt.find cmd name) value
    | .short c attached =>
      if c = 'h' then .help
      else
        let value := match attached.toList with
          | [] => none
          | '=' :: value => some (String.ofList value)
          | value => some (String.ofList value)
        option (Opt.findLetter cmd c) value
    | .plain w =>
      if input.isSome || w.isEmpty then .misuse else scan cmd given (some w) rest

def Request.ofWords : List String → Request
  | [] => .misuse
  | word :: rest =>
    if word = "generate" then scan .generate [] none rest
    else if word = "types" then scan .types [] none rest
    else if word = "help" then
      match rest with
      | [] => .help
      | [topic] => if ["generate","types","help"].contains topic then .help else .misuse
      | _ => .misuse
    else if word = "--help" ∨ word = "-h" then .help
    else if word = "--version" ∨ word = "-V" then .version
    else .misuse

end PegCompiler.Command
