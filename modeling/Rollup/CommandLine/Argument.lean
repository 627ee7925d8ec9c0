/-! Arguments of a command line.

A flag is written with two dashes and its name, or with one dash and its letter. A value stands
after an equals sign, right after the letter, or as the next argument, which must not look like a
flag. After two dashes alone, nothing is a flag.
-/

set_option autoImplicit false

namespace Rollup.CommandLine

inductive Effect where
  | value (accepts : String → Bool)
  | switch
  | help
  | version

structure Flag where
  name : String
  letter : Option Char
  effect : Effect

structure Grammar where
  flags : List Flag
  /-- Which arguments may stand at each place. -/
  places : List (String → Bool) := []
  commands : List String := []

inductive Argument where
  | option (name value : String)
  | switch (name : String)
  | positional (text : String)
  deriving DecidableEq, Repr

inductive Sense where
  | argument (read : Argument)
  /-- A flag whose value is the next argument. -/
  | awaiting (name : String)
  | word
  | onlyWords
  | help (detailed : Bool)
  | version
  | unknown

inductive Ending where
  | complete
  | command (name : String) (rest : List String)
  | help (detailed : Bool)
  | version
  | misuse

structure Reading where
  arguments : List Argument
  ending : Ending

def Flag.sense (flag : Flag) (detailed : Bool) (value : Option String) : Sense :=
  match flag.effect, value with
  | .value _, some value => .argument (.option flag.name value)
  | .value _, none => .awaiting flag.name
  | .switch, none => .argument (.switch flag.name)
  | .help, none => .help detailed
  | .version, none => .version
  | _, some _ => .unknown

def valueAfterEquals? (text : List Char) : Option String :=
  match text.dropWhile (· != '=') with
  | [] => none
  | _ :: value => some (String.ofList value)

def longSense (flags : List Flag) (text : List Char) : Sense :=
  let name := String.ofList (text.takeWhile (· != '='))
  match flags.find? (·.name == name) with
  | some flag => flag.sense true (valueAfterEquals? text)
  | none => .unknown

def valueAfterLetter? : List Char → Option String
  | [] => none
  | '=' :: value => some (String.ofList value)
  | value => some (String.ofList value)

def shortSense (flags : List Flag) (letter : Char) (text : List Char) : Sense :=
  match flags.find? (·.letter == some letter) with
  | some flag =>
    match flag.effect with
    | .value _ => flag.sense false (valueAfterLetter? text)
    | _ => flag.sense false none
  | none => .unknown

def sense (flags : List Flag) (text : String) : Sense :=
  match text.toList with
  | ['-', '-'] => .onlyWords
  | '-' :: '-' :: long => longSense flags long
  | '-' :: letter :: rest => shortSense flags letter rest
  | _ => .word

-- A dash alone is no flag.
def looksLikeFlag (text : String) : Bool :=
  match text.toList with
  | '-' :: _ :: _ => true
  | _ => false

def Reading.ended (ending : Ending) : Reading := ⟨[], ending⟩

def Reading.after (first : Argument) (reading : Reading) : Reading :=
  { reading with arguments := first :: reading.arguments }

namespace Grammar

def read (grammar : Grammar) : List String → Reading
  | [] => .ended .complete
  | text :: rest =>
    match sense grammar.flags text with
    | .argument first => (grammar.read rest).after first
    | .awaiting name =>
      match rest with
      | [] => .ended .misuse
      | value :: rest =>
        if looksLikeFlag value then .ended .misuse
        else (grammar.read rest).after (.option name value)
    | .word =>
      if grammar.commands.contains text then .ended (.command text rest)
      else (grammar.read rest).after (.positional text)
    | .onlyWords => ⟨rest.map .positional, .complete⟩
    | .help detailed => .ended (.help detailed)
    | .version => .ended .version
    | .unknown => .ended .misuse

def takes (grammar : Grammar) (name value : String) : Bool :=
  grammar.flags.any fun flag =>
    flag.name == name && match flag.effect with
      | .value accepts => accepts value
      | _ => false

end Grammar

def Argument.flag? : Argument → Option String
  | .option name _ => some name
  | .switch name => some name
  | .positional _ => none

def Argument.positional? : Argument → Option String
  | .positional text => some text
  | _ => none

def fitPlaces : List (String → Bool) → List String → Bool
  | _, [] => true
  | [], _ :: _ => false
  | accepts :: places, text :: rest => accepts text && fitPlaces places rest

/-- Whether no flag is given twice, all values are taken and all words have a place. -/
def Grammar.admits (grammar : Grammar) (arguments : List Argument) : Bool :=
  decide (arguments.filterMap (·.flag?)).Nodup &&
    (arguments.all fun argument => match argument with
      | .option name value => grammar.takes name value
      | _ => true) &&
    fitPlaces grammar.places (arguments.filterMap (·.positional?))

def valueOf? (name : String) (arguments : List Argument) : Option String :=
  arguments.findSome? fun argument => match argument with
    | .option other value => if other == name then some value else none
    | _ => none

end Rollup.CommandLine
