import RegisterLayout.Failure

/-!
# Output files

A file that is being written.  Texts written to it are gathered, and what is gathered reaches the
file a block at a time, so whoever reads the file meanwhile finds the beginning only.

Principal definitions: `encoded`, `OutputFile`, `OutputFile.write`, `OutputFile.contents`;
principal result: `OutputFile.contents_write`.
-/

namespace RegisterLayout

/-- The bytes of a text in a file. -/
def encoded (text : Text) : Except Failure ByteArray :=
  match text.toString? with
  | some s => .ok s.toUTF8
  | none => .error .unencodable

/-- A file that is being written. -/
structure OutputFile where
  /-- What a reader finds. -/
  reached : ByteArray := .empty
  /-- The block that is being filled. -/
  block : ByteArray := .empty
  /-- Texts that no block has taken yet. -/
  waiting : ByteArray := .empty

namespace OutputFile

/-- The most that a block holds. -/
def blockSize : Nat := 4096

/-- The most that waits. -/
def waitingSize : Nat := 8192

/-- What the file holds once it is closed. -/
def contents (f : OutputFile) : ByteArray := f.reached ++ f.block ++ f.waiting

/-- What waits goes into the block; if it does not fit, the block reaches the file and a new one
begins.  What is longer than a block goes behind it at once. -/
def pass (f : OutputFile) : OutputFile :=
  if f.block.size + f.waiting.size ≤ blockSize then
    { reached := f.reached, block := f.block ++ f.waiting }
  else if f.waiting.size ≤ blockSize then { reached := f.reached ++ f.block, block := f.waiting }
  else { reached := f.reached ++ f.block ++ f.waiting }

/-- What waits is passed on before it would become too much. -/
def makeRoom (f : OutputFile) (size : Nat) : OutputFile :=
  if waitingSize < f.waiting.size + size then f.pass else f

/-- A file with more bytes at its end. -/
def write (f : OutputFile) (bytes : ByteArray) : OutputFile :=
  let f := f.makeRoom bytes.size
  let f := { f with waiting := f.waiting ++ bytes }
  if f.waiting.size < waitingSize then f else f.pass

@[simp] theorem contents_pass (f : OutputFile) : f.pass.contents = f.contents := by
  unfold pass
  split
  · simp [contents, ByteArray.append_assoc]
  · split <;> simp [contents]

@[simp] theorem contents_makeRoom (f : OutputFile) (size : Nat) :
    (f.makeRoom size).contents = f.contents := by
  unfold makeRoom
  split <;> simp

/-- Whatever has reached the file, nothing that was written is lost. -/
theorem contents_write (f : OutputFile) (bytes : ByteArray) :
    (f.write bytes).contents = f.contents ++ bytes := by
  have append (g : OutputFile) :
      ({ g with waiting := g.waiting ++ bytes } : OutputFile).contents = g.contents ++ bytes := by
    simp [contents, ByteArray.append_assoc]
  dsimp only [write]
  split <;> simp [append]

end OutputFile

end RegisterLayout
