import ShapeGraph.Command.Arguments
import ShapeGraph.Files.Tree
import ShapeGraph.Filter.Reader
import ShapeGraph.Pattern.Reader

/-!
# Hosts

What a command finds around it: files, and engines for the work that it does not do itself. The
engines read words as commands, texts as patterns and texts as programs. A command is written once
against any host; it runs on a machine and on a tree of files held in memory.

* `Engines` — the engines
* `Host` — files and engines
* `FileTree.system` — a tree of files as a host
-/

namespace ShapeGraph

/-- **The engines that a command leaves work to.** Those of this library are in place of any that
is not given. -/
structure Engines where
  patterns : Pattern.Engine := Pattern.engine
  programs : Program.Engine := Filter.engine
  /-- The command that words ask for. -/
  words : List String → Except Usage Command := fun words =>
    (Command.ofWords words).mapError UsageError.usage

/-- **What a command finds around it.** -/
structure Host (m : Type → Type) extends FileSystem m, Engines

namespace FileTree

/-- A tree of files as a host, with any engines and any way to search for names. -/
def system (search : Search := FileTree.search) (engines : Engines := {}) :
    Host (StateM FileTree) :=
  ⟨fileSystem search, engines⟩

end FileTree

end ShapeGraph
