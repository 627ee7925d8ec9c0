import Rollup.CommandLine.Run

/-! The program: the command line on the machine that it runs on. -/

set_option autoImplicit false

namespace Rollup

def refusal (reason : String) (code : UInt32) : String := s!"{reason} (os error {code})"

def readingFailure : IO.Error → String
  | .noFileOrDirectory _ code reason => refusal reason code
  | .permissionDenied _ code reason => refusal reason code
  | .inappropriateType _ code reason => refusal reason code
  | .invalidArgument _ code reason => refusal reason code
  | .otherError code reason => refusal reason code
  | failure => toString failure

def isFound (path : String) : IO Bool := do
  try
    discard (IO.FS.realPath path)
    return true
  catch _ => return false

def readText (path : String) : IO (Except String String) := do
  try
    let bytes ← IO.FS.readBinFile path
    return match String.fromUTF8? bytes with
      | some text => .ok text
      | none => .error "stream did not contain valid UTF-8"
  catch failure => return .error (readingFailure failure)

def userConfigDir : IO (Option String) := do
  return configDirectory (← IO.getEnv "XDG_CONFIG_HOME") (← IO.getEnv "HOME")

def machine : Host IO where
  env? := fun name => IO.getEnv name
  contains := isFound
  read := readText
  configDir := userConfigDir

end Rollup

def main (args : List String) : IO UInt32 := do
  let outcome ← Rollup.CommandLine.run Rollup.machine args
  IO.print outcome.output
  IO.eprint outcome.complaint
  return outcome.status.toUInt32
