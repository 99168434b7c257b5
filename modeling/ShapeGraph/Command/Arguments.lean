/-!
# Command lines

A command line is a verb and settings. A setting has a long name, as in `--graph g.json`, and may
have a letter, as in `-g g.json`; a value can be attached to either. Letters of settings without
a value can be written together.

* `Command` — what is to be done
* `Command.ofWords` — the command that the words of a command line ask for
* `UsageError` — why they ask for none
* `Usage` — what is then shown or told
-/

namespace ShapeGraph

/-- What a command does. -/
inductive Verb
  | check
  | parse
  | schema
  | describe
  | hash
  deriving DecidableEq, Repr

/-- What can be set. -/
inductive Setting
  | graph
  | stringFormat
  | codec
  | ndjson
  | jsonPointer
  | jqExpr
  | input
  | disallowExtraProperties
  | quiet
  | out
  | duplicatesOnly
  | help
  deriving DecidableEq, Repr

/-- How many values belong to one mention of a setting. -/
inductive Arity
  | none
  | one
  | many
  deriving DecidableEq, Repr

namespace Setting

def name : Setting → String
  | .graph => "graph"
  | .stringFormat => "string-format"
  | .codec => "codec"
  | .ndjson => "ndjson"
  | .jsonPointer => "json-pointer"
  | .jqExpr => "jq-expr"
  | .input => "input"
  | .disallowExtraProperties => "disallow-extra-properties"
  | .quiet => "quiet"
  | .out => "out"
  | .duplicatesOnly => "duplicates-only"
  | .help => "help"

def letter? : Setting → Option Char
  | .graph => some 'g'
  | .codec => some 'c'
  | .input => some 'i'
  | .quiet => some 'q'
  | .out => some 'o'
  | .help => some 'h'
  | _ => none

def arity : Setting → Arity
  | .ndjson => .none
  | .disallowExtraProperties => .none
  | .quiet => .none
  | .duplicatesOnly => .none
  | .help => .none
  | .input => .many
  | _ => .one

/-- Whether the setting may be mentioned again. -/
def isRepeatable (s : Setting) : Bool := s = .stringFormat || s = .input

/-- Whether the value names one file, so that it cannot be empty. -/
def isFile (s : Setting) : Bool := s = .graph || s = .out

end Setting

namespace Verb

def all : List Verb := [.check, .parse, .schema, .describe, .hash]

def name : Verb → String
  | .check => "check"
  | .parse => "parse"
  | .schema => "schema"
  | .describe => "describe"
  | .hash => "hash"

/-- The settings without which the verb does nothing. -/
def required : Verb → List Setting
  | .check => [.graph, .codec, .input]
  | .parse => [.graph, .codec, .input]
  | .schema => [.graph, .codec]
  | .describe => [.graph, .codec]
  | .hash => [.graph]

/-- How inputs are taken. -/
def inputSettings : List Setting :=
  [.ndjson, .jsonPointer, .jqExpr, .disallowExtraProperties]

/-- All settings of a verb. -/
def settings (v : Verb) : List Setting :=
  v.required ++ [.stringFormat, .help] ++
    match v with
    | .check => inputSettings ++ [.quiet]
    | .parse => inputSettings ++ [.out]
    | .schema => [.out]
    | .describe => [.out]
    | .hash => [.duplicatesOnly]

end Verb

/-! ## Commands -/

/-- Where a graph and the formats of its strings come from. -/
structure Source where
  graph : String
  /-- Names and patterns, parted by `=`. -/
  formats : List String

/-- Which trees are taken as inputs. -/
structure Selection where
  /-- Names of files, or patterns of names. -/
  names : List String
  /-- Whether each line of a file is an input. -/
  byLine : Bool
  pointer : Option String
  filter : Option String

inductive Command
  | check (source : Source) (codec : String) (inputs : Selection) (strict quiet : Bool)
  | parse (source : Source) (codec : String) (inputs : Selection) (strict : Bool)
    (out : Option String)
  | schema (source : Source) (codec : String) (out : Option String)
  | describe (source : Source) (codec : String) (out : Option String)
  | hash (source : Source) (duplicatesOnly : Bool)

/-! ## Reading words -/

/-- **What becomes of words that ask for no command**: they ask for help, which is shown, or it is
told what is wrong with them. -/
inductive Usage
  | help (text : String)
  | wrong (message : String)

/-- Asking for help is no failure. -/
def Usage.exitCode : Usage → Nat
  | .help _ => 0
  | .wrong _ => 2

/-- Why words ask for no command. -/
inductive UsageError
  /-- There are no words. -/
  | nothing
  /-- Help was asked for. -/
  | help
  | unknownVerb (word : String)
  | unknownWord (word : String)
  | valueMissing (s : Setting)
  | valueNotTaken (s : Setting)
  | repeated (s : Setting)
  | settingsMissing (ss : List Setting)
  deriving DecidableEq, Repr

def UsageError.message : UsageError → String
  | .nothing => summary
  | .help => summary
  | .unknownVerb word => "unrecognized subcommand '" ++ word ++ "'"
  | .unknownWord word => "unexpected argument '" ++ word ++ "' found"
  | .valueMissing s => "a value is required for '--" ++ s.name ++ "'"
  | .valueNotTaken s => "no value is taken by '--" ++ s.name ++ "'"
  | .repeated s => "the argument '--" ++ s.name ++ "' cannot be used multiple times"
  | .settingsMissing ss =>
    "required arguments were not provided: "
      ++ ", ".intercalate (ss.map fun s => "--" ++ s.name)
where
  summary : String := "usage: (" ++ " | ".intercalate (Verb.all.map Verb.name) ++ ") [settings]"

/-- What is shown or told. -/
def UsageError.usage (e : UsageError) : Usage :=
  if e = .help then .help e.message else .wrong ("error: " ++ e.message)

def UsageError.exitCode (e : UsageError) : Nat := e.usage.exitCode

/-- A mentioned setting with its values. -/
abbrev Mention := Setting × List String

/-- What has been read: the complete mentions, and one that may still get values. -/
structure Mentions where
  complete : List Mention := []
  pending : Option Mention := none
  /-- Whether the next word is a value of the pending mention. -/
  takesWord : Bool := false

namespace Mentions

/-- Add a complete mention. -/
def add (ms : Mentions) (s : Setting) (values : List String) : Except UsageError Mentions :=
  if s.arity != .none && values.isEmpty then .error (.valueMissing s)
  else if !s.isRepeatable && ms.complete.any (·.1 = s) then .error (.repeated s)
  else if s.isFile && values.contains "" then .error (.valueMissing s)
  else .ok ⟨ms.complete ++ [(s, values)], none, false⟩

/-- Complete the pending mention. -/
def settle (ms : Mentions) : Except UsageError Mentions :=
  match ms.pending with
  | none => .ok { ms with takesWord := false }
  | some (s, values) => ms.add s values

/-- Mention a setting without a value of its own. -/
def flag (ms : Mentions) (s : Setting) : Except UsageError Mentions := do
  let ms ← ms.settle
  if s = .help then .error .help else ms.add s []

/-- Mention a setting that takes values; one may be attached. -/
def start (ms : Mentions) (s : Setting) (attached : Option String) :
    Except UsageError Mentions := do
  let ms ← ms.settle
  match attached with
  | some value => ms.add s [value]
  | none => return { ms with pending := some (s, []), takesWord := true }

/-- Take a word as a value. -/
def word (ms : Mentions) (w : String) : Except UsageError Mentions :=
  match ms.takesWord, ms.pending with
  | true, some (s, values) =>
    .ok { ms with pending := some (s, values ++ [w]), takesWord := s.arity = .many }
  | _, _ => .error (.unknownWord w)

/-- A setting by its long name. -/
def long (known : List Setting) (ms : Mentions) (name : String) (attached : Option String) :
    Except UsageError Mentions :=
  match known.find? (·.name = name) with
  | none => .error (.unknownWord ("--" ++ name))
  | some s =>
    if s.arity = .none then
      if attached.isSome then .error (.valueNotTaken s) else ms.flag s
    else ms.start s attached

/-- Settings by their letters; the value of the last one may be attached. -/
def letters (known : List Setting) : Mentions → List Char → Except UsageError Mentions
  | ms, [] => .ok ms
  | ms, c :: cs =>
    match known.find? (·.letter? = some c) with
    | none => .error (.unknownWord (String.ofList ['-', c]))
    | some s =>
      if s.arity = .none then do letters known (← ms.flag s) cs
      else
        match cs with
        | [] => ms.start s none
        | '=' :: value => ms.start s (some (String.ofList value))
        | value => ms.start s (some (String.ofList value))

/-- The name of a long setting and the value attached to it. -/
def splitAttached (cs : List Char) : String × Option String :=
  match cs.dropWhile (· ≠ '=') with
  | [] => (String.ofList cs, none)
  | _ :: value => (String.ofList (cs.takeWhile (· ≠ '=')), some (String.ofList value))

/-- Read words. Behind two hyphens that stand alone nothing is a setting. -/
def read (known : List Setting) : Mentions → List String → Except UsageError Mentions
  | ms, [] => ms.settle
  | ms, w :: ws =>
    match w.toList with
    | ['-', '-'] =>
      match ws with
      | [] => ms.settle
      | w :: _ => .error (.unknownWord w)
    | '-' :: '-' :: cs => do
      let (name, attached) := splitAttached cs
      read known (← ms.long known name attached) ws
    | '-' :: c :: cs => do read known (← ms.letters known (c :: cs)) ws
    | _ => do read known (← ms.word w) ws

/-- Whether a setting is mentioned. -/
def has (ms : Mentions) (s : Setting) : Bool := ms.complete.any (·.1 = s)

/-- All values of a setting. -/
def values (ms : Mentions) (s : Setting) : List String :=
  (ms.complete.filter (·.1 = s)).flatMap Prod.snd

def value? (ms : Mentions) (s : Setting) : Option String := (ms.values s).head?

end Mentions

namespace Command

/-- The command of a verb whose settings are all there. -/
def ofMentions (v : Verb) (ms : Mentions) : Command :=
  let value (s : Setting) : String := (ms.value? s).getD ""
  let source : Source := ⟨value .graph, ms.values .stringFormat⟩
  let inputs : Selection :=
    ⟨ms.values .input, ms.has .ndjson, ms.value? .jsonPointer, ms.value? .jqExpr⟩
  let strict := ms.has .disallowExtraProperties
  match v with
  | .check => .check source (value .codec) inputs strict (ms.has .quiet)
  | .parse => .parse source (value .codec) inputs strict (ms.value? .out)
  | .schema => .schema source (value .codec) (ms.value? .out)
  | .describe => .describe source (value .codec) (ms.value? .out)
  | .hash => .hash source (ms.has .duplicatesOnly)

/-- The command of a verb with the words behind it. -/
def ofVerb (v : Verb) (words : List String) : Except UsageError Command := do
  let ms ← Mentions.read v.settings {} words
  match v.required.filter fun s => !ms.has s with
  | [] => return ofMentions v ms
  | missing => .error (.settingsMissing missing)

/-- The word that asks for help on a verb. -/
def helpWord : String := "help"

/-- What asking for help comes to: each word behind it has to be a verb, the last one at that. -/
def helpOn : List String → UsageError
  | [] => .help
  | w :: ws =>
    if w = helpWord || Verb.all.any (·.name = w) then
      match ws with
      | [] => .help
      | w :: _ => .unknownVerb w
    else .unknownVerb w

/-- Words in front of which no verb stands. -/
def withoutVerb (words : List String) : UsageError :=
  match words with
  | [] => .nothing
  | w :: ws =>
    match w.toList with
    | ['-', '-'] =>
      match ws with
      | [] => .nothing
      | w :: _ =>
        if w = helpWord || Verb.all.any (·.name = w) then .unknownWord w else .unknownVerb w
    | '-' :: '-' :: _ => settingsOnly [w]
    | '-' :: _ :: _ => settingsOnly [w]
    | _ => .unknownVerb w
where
  /-- Without a verb there is nothing but help. -/
  settingsOnly (words : List String) : UsageError :=
    match Mentions.read [.help] {} words with
    | .error e => e
    | .ok _ => .nothing

/-- **The command that words ask for.** -/
def ofWords (words : List String) : Except UsageError Command :=
  match words with
  | w :: ws =>
    match Verb.all.find? (·.name = w) with
    | some v => ofVerb v ws
    | none => .error (if w = helpWord then helpOn ws else withoutVerb words)
  | [] => .error (withoutVerb [])

end Command

end ShapeGraph
