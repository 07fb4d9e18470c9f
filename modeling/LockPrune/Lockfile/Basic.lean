import LockPrune.Entry
import LockPrune.Metadata
import LockPrune.Ordered.KeySet
import LockPrune.Text.Blank
import LockPrune.Text.Lines

/-!
# Lockfiles

A lockfile is a list of blocks.  A block is an entry under one or more keys, written with
commas between, and all keys of a block share its entry.  Where two blocks have a key in
common the later one has it, and the key stays where it was first.

So a lockfile gives each of its keys a block: the entry of a key is the entry of its block,
and two keys are aliases when their block is the same, not when their entries are equal.

## Main definitions

* `Block` — an entry under its raw key.
* `Lockfile` — the blocks, and the block of every key.
* `Lockfile.ofBlocks` — the lockfile of a list of blocks.
* `Lockfile.entry?`, `Lockfile.keys` — the entry of a key, and the keys in order.
* `Lockfile.restrict` — the lockfile of some of the keys.
-/

namespace LockPrune

/-- An entry under its raw key. -/
structure Block where
  key : String
  entry : Entry

namespace Block

/-- What stands between the keys of a block. -/
def separator : String := ", "

/-- The keys of a block: what stands between the commas, without blanks at the ends. -/
def keys (b : Block) : List String :=
  ((Text.splitOnText separator.toList b.key.toList).map Text.trim).filterMap fun key =>
    if key.isEmpty then none else some (String.ofList key)

end Block

/-- The blocks, and the block of every key. -/
structure Lockfile where
  metadata : Metadata
  blocks : List Block
  directory : Catalog (Fin blocks.length)

namespace Lockfile

/-! ## From blocks -/

/-- Every key of a list of blocks with the number of its block, in order. -/
def assignments (blocks : List Block) : List (String × Fin blocks.length) :=
  (List.finRange blocks.length).flatMap fun i => blocks[i].keys.map fun key => (key, i)

/-- The lockfile of a list of blocks. -/
def ofBlocks (metadata : Metadata) (blocks : List Block) : Lockfile :=
  ⟨metadata, blocks, .ofList (assignments blocks)⟩

/-! ## Views -/

/-- The keys, in order. -/
def keys (l : Lockfile) : List String :=
  l.directory.keys

/-- The number of keys. -/
def size (l : Lockfile) : Nat :=
  l.directory.size

/-- The number of the block of a key. -/
def block? (l : Lockfile) (key : String) : Option (Fin l.blocks.length) :=
  l.directory.get? key

/-- The entry of a block. -/
def entryOf (l : Lockfile) (i : Fin l.blocks.length) : Entry :=
  l.blocks[i].entry

/-- The entry of a key. -/
def entry? (l : Lockfile) (key : String) : Option Entry :=
  (l.block? key).map l.entryOf

/-- The keys with their entries, in order. -/
def entries (l : Lockfile) : List (String × Entry) :=
  l.directory.pairs.map fun p => (p.1, l.entryOf p.2)

/-- What the package under a key depends on. -/
def dependencies? (l : Lockfile) (key : String) : Option Ranges :=
  (l.entry? key).map Entry.allDependencies

/-! ## Some of the keys -/

/-- The given keys that a lockfile has, each with its block. -/
def selected (l : Lockfile) (keys : List String) : List (String × Fin l.blocks.length) :=
  keys.filterMap fun key => (l.block? key).map fun i => (key, i)

/-- The lockfile of the given keys, in the order given.  Keys that the lockfile does not
have are left out. -/
def restrict (l : Lockfile) (keys : List String) : Lockfile :=
  { l with directory := .ofList (l.selected keys) }

/-! ## Aliases -/

/-- The keys that share the block of a key, in order. -/
def aliases (l : Lockfile) (key : String) : List String :=
  match l.block? key with
  | none => []
  | some i => (l.directory.pairs.filter fun p => p.2 = i).map Prod.fst

/-- The given keys that the lockfile has, with all their aliases. -/
def expand (l : Lockfile) (keys : List String) : KeySet :=
  let wanted := keys.filterMap l.block?
  .ofList ((l.directory.pairs.filter fun p => wanted.contains p.2).map Prod.fst)

end Lockfile

end LockPrune
