import StyleExpansion.Session

/-! # Log paths of the running program

Where the program cannot create a file: at a path that leads to a directory, or with steps before the last
one that lead to none. Of the absolute directories only those that systems have in common are known; of
the relative ones, those that lead up.
-/
namespace StyleExpansion

namespace LogPath

def steps (path : List Char) : List (List Char) :=
  (splitAt (· == '/') path).filter fun s => !s.isEmpty && s != ['.']

def commonDirectories : List (List String) :=
  [[],["tmp"],["etc"],["usr"],["usr","bin"],["usr","lib"],["usr","local"],["usr","share"],["var"],
   ["var","log"],["var","tmp"],["home"],["root"],["dev"],["proc"],["sys"],["bin"],["sbin"],["lib"],
   ["opt"],["mnt"],["media"],["run"],["srv"],["boot"]]

def isAbsolute (path : List Char) : Bool := ['/'].isPrefixOf path

def isDirectory (absolute : Bool) (steps : List (List Char)) : Bool :=
  if absolute then commonDirectories.contains (steps.map String.ofList)
  else steps.all (· == ['.','.'])

def obstacle? (path : String) : Option FileFault :=
  let cs := path.toList
  let all := steps cs
  if isDirectory (isAbsolute cs) all then some .directory
  else if !isDirectory (isAbsolute cs) all.dropLast then some .missing
  else if cs.getLast? = some '/' then some .directory
  else none

def fault? (path : String) : Option Error :=
  match Session.create obstacle? recogniser {} path with
  | .error e => some e
  | .ok _ => none

end LogPath

def Error.cause? : Error → Option String
  | file fault => some fault.message
  | _ => none

end StyleExpansion
