/-!
# Command-line arguments

`Reply.ofArguments` says what a list of arguments asks for: a request with all that belongs to
it, the version or the help text, or nothing that makes sense.

The arguments are taken from left to right. An option is long (`--pretty`) or short (`-p`), and
short ones may share a dash. An option with a value takes it from the same argument
(`--context=V`, `-cV`, `-c=V`) or from the next one, unless that starts with a dash itself. After
`--` there are no more options. Options that take effect at once do so in this order too: help
that is asked for after a mistake is not given.
-/

namespace PredicateLang

inductive Task
  | check
  | tokens
  | tree
  deriving DecidableEq, Inhabited

def Task.ofName? (name : String) : Option Task :=
  if name = "check" then some .check
  else if name = "tokens" then some .tokens
  else if name = "ast" then some .tree
  else none

inductive Setting
  | logLevel
  | context
  | contextFile
  deriving DecidableEq, Inhabited

inductive Switch
  | pretty
  | formOnly
  | help
  | version
  deriving DecidableEq, Inhabited

inductive Flag
  | setting (s : Setting)
  | switch (s : Switch)
  deriving DecidableEq, Inhabited

def Flag.ofLongName? (task : Option Task) (name : String) : Option Flag :=
  if name = "log-level" then some (.setting .logLevel)
  else if name = "help" then some (.switch .help)
  else
    match task with
    | none => if name = "version" then some (.switch .version) else none
    | some .check =>
        if name = "context" then some (.setting .context)
        else if name = "context-file" then some (.setting .contextFile)
        else if name = "pretty" then some (.switch .pretty)
        else if name = "syntax-only" then some (.switch .formOnly)
        else none
    | some _ => none

def Flag.ofLetter? (task : Option Task) (letter : Char) : Option Flag :=
  if letter = 'h' then some (.switch .help)
  else
    match task with
    | none => if letter = 'V' then some (.switch .version) else none
    | some .check =>
        if letter = 'c' then some (.setting .context)
        else if letter = 'p' then some (.switch .pretty)
        else none
    | some _ => none

inductive Channel
  /-- There is none. -/
  | absent
  | text (json : String)
  | file (path : String)
  | standardInput
  deriving DecidableEq, Inhabited

inductive Request
  | check (source : String) (channel : Channel) (pretty formOnly : Bool)
  | tokens (source : String)
  | tree (source : String)
  deriving DecidableEq, Inhabited

inductive Reply
  | request (r : Request)
  | help
  | version
  | misuse
  deriving DecidableEq, Inhabited

/-- The arguments read so far. The settings and switches are those given since the command
was named; before, those given in front of it. -/
structure Draft where
  task : Option Task
  source : Option String
  settings : List (Setting × String)
  switches : List Switch

namespace Draft

def empty : Draft :=
  ⟨none, none, [], []⟩

def setting? (d : Draft) (s : Setting) : Option String :=
  d.settings.lookup s

/-- Gives a setting its value. It is given once, and a path is not empty. -/
def set (d : Draft) (s : Setting) (value : String) : Except Reply Draft :=
  if (d.setting? s).isSome ∨ s = .contextFile ∧ value = "" then .error .misuse
  else .ok { d with settings := (s, value) :: d.settings }

/-- Turns a switch on. It is turned on once; help and the version are the answer at once. -/
def turnOn (d : Draft) (s : Switch) : Except Reply Draft :=
  match s with
  | .help => .error .help
  | .version => .error .version
  | s => if s ∈ d.switches then .error .misuse else .ok { d with switches := s :: d.switches }

def positional (d : Draft) (argument : String) : Except Reply Draft :=
  match d.task with
  | none =>
      match Task.ofName? argument with
      | some task => .ok { empty with task := some task }
      | none => .error .misuse
  | some _ =>
      match d.source with
      | none => .ok { d with source := some argument }
      | some _ => .error .misuse

/-- Reads a long option without its dashes. The second part of the result is the setting that
still has to get its value. -/
def long (d : Draft) (argument : List Char) : Except Reply (Draft × Option Setting) :=
  let name := argument.takeWhile (· != '=')
  match Flag.ofLongName? d.task (.ofList name), argument.dropWhile (· != '=') with
  | some (.setting s), [] => .ok (d, some s)
  | some (.setting s), _ :: value => do
      let d ← d.set s (.ofList value)
      pure (d, none)
  | some (.switch s), [] => do
      let d ← d.turnOn s
      pure (d, none)
  | _, _ => .error .misuse

/-- Reads short options without their dash. The first one with a value takes the rest of the
argument, less an equals sign in front. -/
def short (d : Draft) : List Char → Except Reply (Draft × Option Setting)
  | [] => .ok (d, none)
  | letter :: rest =>
      match Flag.ofLetter? d.task letter with
      | none => .error .misuse
      | some (.switch s) => do
          let d ← d.turnOn s
          d.short rest
      | some (.setting s) =>
          match rest with
          | [] => .ok (d, some s)
          | '=' :: value => do
              let d ← d.set s (.ofList value)
              pure (d, none)
          | value => do
              let d ← d.set s (.ofList value)
              pure (d, none)

def operands (d : Draft) : List String → Except Reply Draft
  | [] => .ok d
  | argument :: rest =>
      if d.task.isNone then .error .misuse
      else do
        let d ← d.positional argument
        d.operands rest

def helpAbout : List String → Reply
  | [] => .help
  | [name] => if (Task.ofName? name).isSome ∨ name = "help" then .help else .misuse
  | _ => .misuse

def read (d : Draft) : (pending : Option Setting) → List String → Except Reply Draft
  | none, [] => .ok d
  | some _, [] => .error .misuse
  | pending, argument :: rest =>
      match pending, argument.toList with
      | none, ['-', '-'] => d.operands rest
      | none, '-' :: '-' :: name => do
          let (d, pending) ← d.long name
          d.read pending rest
      | none, '-' :: letter :: letters => do
          let (d, pending) ← d.short (letter :: letters)
          d.read pending rest
      | some _, '-' :: _ :: _ => .error .misuse
      | some s, _ => do
          let d ← d.set s argument
          d.read none rest
      | none, _ =>
          if d.task.isNone ∧ argument = "help" then .error (helpAbout rest)
          else do
            let d ← d.positional argument
            d.read none rest

/-- Where the context comes from: from the option for it, or else from the standard input,
unless only the form of the expression matters. -/
def channel (d : Draft) : Channel :=
  match d.setting? .context, d.setting? .contextFile with
  | some json, _ => .text json
  | none, some path => .file path
  | none, none => if .formOnly ∈ d.switches then .absent else .standardInput

def reply (d : Draft) : Reply :=
  match d.task, d.source with
  | some .check, some source =>
      if (d.setting? .context).isSome ∧ (d.setting? .contextFile).isSome then .misuse
      else
        .request <| .check source d.channel (.pretty ∈ d.switches) (.formOnly ∈ d.switches)
  | some .tokens, some source => .request (.tokens source)
  | some .tree, some source => .request (.tree source)
  | _, _ => .misuse

end Draft

def Reply.ofArguments (arguments : List String) : Reply :=
  match Draft.empty.read none arguments with
  | .ok d => d.reply
  | .error reply => reply

end PredicateLang
