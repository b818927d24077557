import PredicateLang.Command.Arguments
import PredicateLang.Command.Listing
import PredicateLang.Command.Verdict
import PredicateLang.Json.Text
import PredicateLang.Text.Blank

/-!
# Running a command

`respond` answers the arguments of the program with an exit code and the texts for standard
output and standard error. Whatever has to be read for it is asked of its caller, so it says
nothing of how files are opened, and it asks for a file or for the standard input only when
the context comes from there.

A command that succeeds has the code 0 and writes nothing to standard error; one that fails
has the code 1 and writes nothing to standard output. Arguments that make no sense have the
code 2.
-/

namespace PredicateLang

structure Outcome where
  code : Nat
  out : String
  err : String
  deriving DecidableEq, Inhabited

namespace Outcome

def success (out : String) : Outcome :=
  ⟨0, out, ""⟩

def failure (e : Failure) : Outcome :=
  ⟨1, "", e.message ++ "\n"⟩

def misuse (text : String) : Outcome :=
  ⟨2, "", text⟩

def ofExcept : Except Failure String → Outcome
  | .ok out => success out
  | .error e => failure e

end Outcome

inductive Supply
  | file (path : String)
  | standardInput
  deriving DecidableEq, Inhabited

def Channel.supply? : Channel → Option Supply
  | .file path => some (.file path)
  | .standardInput => some .standardInput
  | _ => none

def textOfBytes (bytes : ByteArray) : Except SupplyError String :=
  match String.fromUTF8? bytes with
  | some text => .ok text
  | none => .error .notUtf8

/-- The context of a channel, given the bytes that have been read for it. A standard input of
white space is no context. -/
def Channel.context (channel : Channel) (bytes : ByteArray) :
    Except SupplyError (Option String) :=
  match channel with
  | .absent => .ok none
  | .text json => .ok (some json)
  | .file _ => (textOfBytes bytes).map some
  | .standardInput =>
      (textOfBytes bytes).map fun text => if isAllWhiteSpace text then none else some text

def Verdict.text (pretty : Bool) : Verdict → String
  | .wellFormed => "Syntax is valid\n"
  | .result d => (if pretty then d.pretty else d.compact) ++ "\n"

def Request.supply? : Request → Option Supply
  | .check _ channel _ _ => channel.supply?
  | _ => none

def Request.outcome [Wording] (request : Request) (read : Except SupplyError ByteArray) : Outcome :=
  .ofExcept <|
    match request with
    | .check source channel pretty formOnly => do
        let bytes ← read.mapError .unreadable
        let context ← (channel.context bytes).mapError .unreadable
        let verdict ← Verdict.ofText source context formOnly
        pure (verdict.text pretty)
    | .tokens source => (tokenListing source).mapError fun e => .expression (.read e)
    | .tree source =>
        ((treeListing source).map (· ++ "\n")).mapError fun e => .expression (.read e)

def versionText : String :=
  "sprig 0.1.0\n"

def respond [Wording] {m : Type → Type} [Monad m] (arguments : List String)
    (read : Supply → m (Except SupplyError ByteArray)) : m Outcome :=
  match Reply.ofArguments arguments with
  | .help => pure (.success (Wording.help arguments))
  | .version => pure (.success versionText)
  | .misuse => pure (.misuse (Wording.misuse arguments))
  | .request request =>
      match request.supply? with
      | none => pure (request.outcome (.ok .empty))
      | some supply => do
          let bytes ← read supply
          pure (request.outcome bytes)

end PredicateLang
