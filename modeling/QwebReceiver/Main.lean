import QwebReceiver.CommandLine.Run

/-!
  QwebReceiver.Main — the program.

  The files below the working directory are read into a tree, the program runs
  on it, and what it wrote is written back.
-/

namespace QwebReceiver.Main

open QwebReceiver.Files

/-- The tree with the files of a directory, which lies at the given names below
the working directory. -/
partial def snapshot (tree : FileTree) (names : List Text) (directory : String) : IO FileTree := do
  let mut tree := tree
  for entry in ← (← IO.FS.realPath directory).readDir do
    let below := names ++ [entry.fileName.toList]
    if ← entry.path.isDir then
      tree ← snapshot (tree.add below .directory) below entry.path.toString
    else
      let bytes ← IO.FS.readBinFile entry.path
      tree := tree.add below (.file (.ofBytes bytes.toList))
  return tree

/-- The tree of the working directory. -/
def workingTree : IO FileTree := do
  let working := ((← IO.currentDir).components.filter (· ≠ "")).map String.toList
  let tree : FileTree := { working }
  snapshot (tree.put working .directory) [] "."

end QwebReceiver.Main

def main (args : List String) : IO UInt32 := do
  let result := QwebReceiver.CommandLine.run (← QwebReceiver.Main.workingTree)
    (args.map String.toList)
  for (path, content) in result.writes do
    IO.FS.writeFile path.str content.str
  for note in result.notes do
    IO.eprintln s!"[{note.level.label}] {note.message}"
  IO.print result.output.str
  return result.exitCode.toUInt32
