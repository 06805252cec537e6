import Mathlib.Data.List.Basic
import Lzbench.Basic
import Lzbench.Lib.PackedStrings

/-!
# The recursive list of files

`UTIL_createFileList` packs the names it finds into one buffer that grows by
`LIST_SIZE_INCREASE`, and makes a table of them when the traversal is over, for as many
strings as were counted.  The counts come back through the recursion, the names do not, and
a call that has no memory for a path returns zero.  A directory is counted by an `int`, the
whole by an `unsigned`, and both wrap.

What `UTIL_isDirectory`, `opendir` and `readdir` find is a tree.  Memory is a pattern of
successes and failures, one for the buffer and one for the paths.

## Main definitions

* `Directory`, `Entries`, `InputName` — what the traversal finds.
* `ListMemory`, `Listing` — the memory for the list, and the list being made.
* `appendName`, `prepareFileList`, `createFileList` — the functions of the program.
* `Directory.names`, `inputNames` — the complete list.
-/

namespace Lzbench

open Imperative

/-! ## What the traversal finds -/

mutual
/-- A directory: whether `opendir` opens it, its entries, and whether `readdir` fails behind
the last one. -/
inductive Directory where
  | mk (opens : Bool) (entries : Entries) (readError : Bool)
/-- The entries of a directory, as `readdir` returns them. -/
inductive Entries where
  | nil
  | file (name : CString) (rest : Entries)
  | directory (name : CString) (dir : Directory) (rest : Entries)
end

/-- One of `inputNames`. -/
inductive InputName
  | file (name : CString)
  | directory (name : CString) (dir : Directory)

/-- The path of an entry: the names joined by a slash. -/
def entryPath (dirName name : CString) : CString := dirName.join 47 (by decide) name

/-- The entries `.` and `..`. -/
def isDotName (name : CString) : Prop := name.bytes = [46, 46] ∨ name.bytes = [46]

instance (name : CString) : Decidable (isDotName name) :=
  inferInstanceAs (Decidable (_ ∨ _))

mutual
/-- The paths of the files in a directory and below it; with `all` also those in directories
that cannot be opened. -/
def Directory.names (all : Bool) (dirName : CString) : Directory → List CString
  | .mk opens entries _ => if opens || all then entries.names all dirName else []
def Entries.names (all : Bool) (dirName : CString) : Entries → List CString
  | .nil => []
  | .file name rest =>
    if isDotName name then rest.names all dirName
    else entryPath dirName name :: rest.names all dirName
  | .directory name dir rest =>
    if isDotName name then rest.names all dirName
    else dir.names all (entryPath dirName name) ++ rest.names all dirName
end

/-- The names of the files that an input stands for. -/
def InputName.names (all : Bool) : InputName → List CString
  | .file name => [name]
  | .directory name dir => dir.names all name

/-- The complete list for some inputs. -/
def inputNames (all : Bool) (inputs : List InputName) : List CString :=
  inputs.flatMap (InputName.names all)

/-! ## The list being made -/

/-- `LIST_SIZE_INCREASE`. -/
def listSizeIncrease : ℕ := 8 * 1024

/-- The memory there is for the list: the first buffer, the new bytes of each growth, and
whether there is a table. -/
structure ListMemory where
  buffer : Option Mem
  growth : ℕ → Option Mem
  table : Bool

/-- No allocation for the list fails. -/
structure ListMemory.Suffices (mem : ListMemory) : Prop where
  buffer : mem.buffer.isSome
  growth : ∀ i, (mem.growth i).isSome
  table : mem.table = true

/-- `*bufStart`, `*bufEnd - *bufStart` and `*pos`, with the numbers of growths and of paths
so far. -/
structure Listing where
  buf : Option Mem
  size : ℕ
  pos : ℕ
  growths : ℕ
  paths : ℕ

def Listing.setPaths (s : Listing) (k : ℕ) : Listing := { s with paths := k }

@[simp] theorem Listing.setPaths_buf (s : Listing) (k : ℕ) : (s.setPaths k).buf = s.buf := rfl
@[simp] theorem Listing.setPaths_paths (s : Listing) (k : ℕ) : (s.setPaths k).paths = k := rfl

section Program

variable (mem : ListMemory)

/-- `UTIL_realloc` to a buffer that is larger by `LIST_SIZE_INCREASE`. -/
def growBuffer (s : Listing) : Listing :=
  { s with
    buf := s.buf.bind fun m => (mem.growth s.growths).map fun fresh p =>
      if p < s.size then m p else fresh p
    size := s.size + listSizeIncrease
    growths := s.growths + 1 }

/-- The room for a name of length `len`. -/
def ensureRoom (len : ℕ) (s : Listing) : Listing :=
  if s.pos + len ≥ s.size then growBuffer mem s else s

/-- A name is copied where there is room for it. -/
def putName (name : CString) (s : Listing) : ℤ × Listing :=
  match s.buf with
  | none => (0, s)
  | some m =>
    if s.pos + name.length < s.size then
      (1, { s with
        buf := some (strncpy m s.pos name (s.size - s.pos))
        pos := s.pos + name.length + 1 })
    else (0, s)

/-- The code that both functions have for a file.  The result tells how many names were
added. -/
def appendName (name : CString) (s : Listing) : ℤ × Listing :=
  putName name (ensureRoom mem name.length s)

variable (paths : ℕ → Bool)

/-- An iteration of the loop over the entries: `visit` is what is done with the path, `next`
the rest of the loop.  An error is the early `return 0`. -/
def visitEntry (name : CString) (visit : Listing → ℤ × Listing)
    (next : ℤ → Listing → Except Listing (ℤ × Listing)) (nbFiles : ℤ) (s : Listing) :
    Except Listing (ℤ × Listing) :=
  if isDotName name then next nbFiles s
  else if paths s.paths then
    let r := visit (s.setPaths (s.paths + 1))
    if r.2.buf.isNone then .error r.2 else next (toInt32 (nbFiles + r.1)) r.2
  else .error (s.setPaths (s.paths + 1))

/-- What is returned behind the loop, or from inside it. -/
def leaveDirectory (readError : Bool) : Except Listing (ℤ × Listing) → ℤ × Listing
  | .error s => (0, s)
  | .ok (nbFiles, s) => (nbFiles, if readError then { s with buf := none } else s)

mutual
/-- `UTIL_prepareFileList`. -/
def prepareFileList (dirName : CString) : Directory → Listing → ℤ × Listing
  | .mk opens entries readError, s =>
    if opens then leaveDirectory readError (readEntries dirName entries 0 s) else (0, s)
/-- The loop over the entries. -/
def readEntries (dirName : CString) : Entries → ℤ → Listing → Except Listing (ℤ × Listing)
  | .nil, nbFiles, s => .ok (nbFiles, s)
  | .file name rest, nbFiles, s =>
    visitEntry paths name (appendName mem (entryPath dirName name))
      (fun nbFiles s => readEntries dirName rest nbFiles s) nbFiles s
  | .directory name dir rest, nbFiles, s =>
    visitEntry paths name (fun s => prepareFileList (entryPath dirName name) dir s)
      (fun nbFiles s => readEntries dirName rest nbFiles s) nbFiles s
end

/-- The names of one input. -/
def listInput : InputName → Listing → ℤ × Listing
  | .file name, s => appendName mem name s
  | .directory name dir, s => prepareFileList mem paths name dir s

/-- The loop over the inputs, which ends when there is no buffer any more. -/
def listInputs : List InputName → ℕ → Listing → Option (ℕ × Listing)
  | [], nbFiles, s => some (nbFiles, s)
  | input :: rest, nbFiles, s =>
    let r := listInput mem paths input s
    if r.2.buf.isNone then none else listInputs rest (toUInt32 (nbFiles + r.1)) r.2

/-- The table with the buffer it points into. -/
structure FileTable where
  buf : Mem
  size : ℕ
  fileTable : List ℕ
  allocatedNamesNb : ℕ

/-- `UTIL_createFileList`. -/
def createFileList (inputs : List InputName) : Except Stop (Option FileTable) :=
  match mem.buffer with
  | none => .ok none
  | some m =>
    match listInputs mem paths inputs 0 ⟨some m, listSizeIncrease, 0, 0, 0⟩ with
    | none => .ok none
    | some (nbFiles, s) =>
      if nbFiles = 0 ∨ mem.table = false then .ok none
      else
        match s.buf with
        | none => .ok none
        | some m =>
          -- the table has `nbFiles+1` entries as an `unsigned`
          if toUInt32 (nbFiles + 1) < nbFiles then .error .undefined
          else
            match walk m s.size nbFiles 0 with
            | none => .error .undefined
            | some (fileTable, pos) =>
              if pos > s.size then .ok none else .ok (some ⟨m, s.size, fileTable, nbFiles⟩)

end Program

/-- The table points to the names, in order, each a string of its own inside the buffer. -/
structure FileTable.Lists (t : FileTable) (names : List CString) : Prop where
  allocatedNamesNb_eq : t.allocatedNamesNb = names.length
  strings : List.Forall₂ (StringAt t.buf t.size) t.fileTable names

end Lzbench
