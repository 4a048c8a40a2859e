import Excerpt.CommandLine.Run

/-!
The program: it reads the files that a request is about into a tree, runs the command line there, and writes
the files that have changed.
-/

namespace Excerpt.CommandLine

/-- The path of a place on the disk. -/
def diskPath (place : Path) : String := "/" ++ shown place.text

/-- The place that an absolute path on the disk names. -/
def placeOf (path : String) : Path := (Path.steps path.toList).filter fun step => ! step.isEmpty

/-- Reads what lies at a place that no link leads to. Also the places to go on with: what lies in a
directory, and what its links lead to. -/
def readPlace (tree : Tree) (place : Path) : IO (Tree × List Path) := do
  let here := (← IO.currentDir) / diskPath place
  match (← here.symlinkMetadata).type with
  | .file => return ((tree.put? place (.file (← IO.FS.readBinFile here))).getD tree, [])
  | .dir =>
    let mut tree := (tree.makeDirectories? [] place).getD tree
    let mut found := []
    for entry in ← here.readDir do
      let inside := place ++ [entry.fileName.toList]
      match (← entry.path.symlinkMetadata).type with
      | .symlink =>
        if ← entry.path.pathExists then
          let target := (← IO.FS.realPath entry.path).toString
          tree := (tree.put? inside (.link target.toList)).getD tree
          found := placeOf target :: found
      | _ => found := inside :: found
    return (tree, found)
  | _ => return (tree, [])

/-- Reads what lies at some places, and everything that can be reached from there. -/
partial def readPlaces (tree : Tree) (seen : List Path) : List Path → IO Tree
  | [] => return tree
  | place :: rest => do
    if seen.contains place then readPlaces tree seen rest
    else
      let (tree, found) ← readPlace tree place
      readPlaces tree (place :: seen) (found ++ rest)

/-- The tree with the link at a place, if there is one. -/
def readLink (tree : Tree) (place : Path) : IO Tree := do
  let here := (← IO.currentDir) / diskPath place
  if place.any (fun step => step = ['.'] || step = ['.', '.']) || ! (← here.pathExists) then return tree
  match (← here.symlinkMetadata).type with
  | .symlink => return (tree.put? place (.link (← IO.FS.realPath here).toString.toList)).getD tree
  | _ => return tree

/-- Reads what the written path names, if there is anything, and the links on the way to it. -/
def readWritten (tree : Tree) (directory : Path) (written : Text) : IO Tree := do
  let path := (← IO.currentDir) / diskPath directory / shown written
  let place := (if Path.isAbsolute written then [] else directory) ++ placeOf (shown written)
  let mut tree := tree
  for n in List.range place.length do
    tree ← readLink tree (place.take (n + 1))
  if ← path.pathExists then readPlaces tree [] [placeOf (← IO.FS.realPath path).toString]
  else return tree

/-- The tree that a request is about: the files of the project, and those of its source root. -/
def treeFor (directory : Path) (request : Request) : IO Tree := do
  let root := request.path.getD []
  let tree := (Tree.empty.makeDirectories? [] directory).getD .empty
  let tree ← readWritten tree directory root
  let p : Project := ⟨tree, directory, root⟩
  match p.settings with
  | .ok settings => readWritten tree directory (p.sourceRoot settings)
  | .error _ => return tree

/-- Runs the command line once: shows what it writes, and writes the files that have changed. -/
def runOnce (directory : Path) (plain : Bool) (arguments : List Text) (tree : Tree) : IO UInt32 := do
  let (outcome, after) := run tree directory plain arguments
  IO.print outcome.output
  IO.eprint outcome.errors
  for ((place, content), (_, old)) in after.files.zip tree.files do
    if content.data ≠ old.data then IO.FS.writeBinFile (diskPath place) content
  return outcome.exit.toUInt32

/-- Runs the command line again whenever the files of its request change. -/
partial def watch (directory : Path) (plain : Bool) (arguments : List Text) (request : Request)
    (seen : Tree) : IO UInt32 := do
  IO.sleep 200
  let tree ← treeFor directory request
  let contents (tree : Tree) := tree.files.map fun file => (file.1, file.2.data)
  if contents tree ≠ contents seen then
    IO.println "\nFile change detected, updating..."
    discard (runOnce directory plain arguments tree)
    watch directory plain arguments request (← treeFor directory request)
  else watch directory plain arguments request seen

end Excerpt.CommandLine

open Excerpt Excerpt.CommandLine in
/-- Runs the command line in the current directory. -/
def main (arguments : List String) : IO UInt32 := do
  let directory := placeOf (← IO.FS.realPath (← IO.currentDir)).toString
  let plain := (← IO.getEnv "NO_COLOR").isSome
  let arguments := arguments.map String.toList
  match Reading.ofArguments arguments with
  | .request request =>
    let exit ← runOnce directory plain arguments (← treeFor directory request)
    match request.command with
    | .update false true =>
      if exit = 2 then return exit
      IO.println "\nWatching for file changes... (press Ctrl+C to stop)"
      watch directory plain arguments request (← treeFor directory request)
    | _ => return exit
  | _ => runOnce directory plain arguments .empty
