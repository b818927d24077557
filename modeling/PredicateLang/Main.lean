import PredicateLang.Command.Outcome

/-!
# The program

Reads what `respond` asks for and writes what it answers.
-/

namespace PredicateLang

def systemErrorTexts : List (Nat × String) :=
  [(2, "No such file or directory"), (13, "Permission denied"), (20, "Not a directory"),
    (21, "Is a directory"), (36, "File name too long"),
    (40, "Too many levels of symbolic links")]

def SupplyError.ofCode (code : UInt32) (text : String) : SupplyError :=
  let number := if code < 0x80000000 then code.toNat else (0 - code).toNat
  .system number ((systemErrorTexts.lookup number).getD text)

def SupplyError.ofSystem (e : IO.Error) : SupplyError :=
  match e with
  | .noFileOrDirectory _ code text
  | .inappropriateType _ code text
  | .permissionDenied _ code text
  | .resourceExhausted _ code text
  | .invalidArgument _ code text
  | .noSuchThing _ code text
  | .otherError code text => .ofCode code text
  | e => .system 0 (toString e)

def Supply.read : Supply → IO (Except SupplyError ByteArray)
  | .file path => do
      try
        return .ok (← IO.FS.readBinFile path)
      catch e =>
        return .error (.ofSystem e)
  | .standardInput => do
      try
        return .ok (← (← IO.getStdin).readBinToEnd)
      catch e =>
        return .error (.ofSystem e)

end PredicateLang

def main (arguments : List String) : IO UInt32 := do
  let outcome ← PredicateLang.respond arguments PredicateLang.Supply.read
  (← IO.getStdout).putStr outcome.out
  (← IO.getStderr).putStr outcome.err
  return .ofNat outcome.code
