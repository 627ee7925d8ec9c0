/-! What a program sees of the machine it runs on.

The operations are those of a monad, so that the same program runs against a machine and against a
description of one.
-/

set_option autoImplicit false

namespace Rollup

structure Host (m : Type → Type) where
  env? : String → m (Option String)
  contains : String → m Bool
  read : String → m (Except String String)
  configDir : m (Option String)

/-- A path taken relative to a directory. An absolute path stays as it is. -/
def joinPath (directory path : String) : String :=
  match path.toList with
  | '/' :: _ => path
  | _ =>
    match directory.toList.getLast? with
    | none | some '/' => directory ++ path
    | some _ => directory ++ "/" ++ path

/-- The directory of settings, from the variables for it and for the home directory. A relative
path for it does not count. -/
def configDirectory (configHome home : Option String) : Option String :=
  match configHome.filter (·.startsWith "/") with
  | some dir => some dir
  | none => home.map fun dir => joinPath dir ".config"

end Rollup
