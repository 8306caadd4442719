import Script.Text.Blank

/-!
# Reading input

The input is a text that is taken from its front. It may break: once its text is used up, every
further attempt to read meets a fault. A program sees a fault that can be recovered from as the end
of the input, and any other one stops it. A closed input is one that has nothing left and is broken.

A reader says what it has read, what it leaves unread, and the fault it met, if any. A line is taken
without its end. A word is what stands between blanks: blanks before it are skipped, and the blank
behind it is taken along, but a line feed before the word ends the reader with an empty result. A
carriage return and the line feed behind it count as one blank that ends a line.
-/

namespace Script

structure InputFault where
  recoverable : Bool
  message : Text
  deriving Repr, DecidableEq

structure Input where
  rest : Text
  fault : Option InputFault
  deriving Repr, DecidableEq

structure Reading where
  result : Text
  rest : Text
  fault : Option InputFault
  deriving Repr, DecidableEq

namespace Input

def ofText (t : Text) : Input := ⟨t, none⟩

def closed : Input := ⟨[], some ⟨true, text "I/O operation on closed file"⟩⟩

def readChar (input : Input) : Reading :=
  match input.rest with
  | [] => ⟨[], [], input.fault⟩
  | c :: rest => ⟨[c], rest, none⟩

def readAll (input : Input) : Reading :=
  ⟨input.rest, [], input.fault⟩

/-- Takes a line, with the line feed that ends it and a carriage return before that. A broken input
that has no line feed left is not touched. -/
def readLine (input : Input) : Reading :=
  let line := input.rest.takeWhile (· ≠ .lineFeed)
  match input.rest.dropWhile (· ≠ .lineFeed), input.fault with
  | _ :: rest, _ => ⟨Text.dropEnding .carriageReturn line, rest, none⟩
  | [], some fault => ⟨[], input.rest, some fault⟩
  | [], none => ⟨Text.dropEnding .carriageReturn line, [], none⟩

/-- Takes the rest of a word. `word` holds what has been taken, from the last to the first. -/
def readWordFrom (fault : Option InputFault) (word : Text) : Text → Reading
  | [] => ⟨word.reverse, [], fault⟩
  | c :: rest =>
    if c = .carriageReturn then
      match rest with
      | [] => ⟨word.reverse, [], fault⟩
      | d :: more =>
        if d = .lineFeed ∨ word ≠ [] then ⟨word.reverse, more, none⟩
        else readWordFrom fault word (d :: more)
    else if c = .lineFeed then ⟨word.reverse, rest, none⟩
    else if c.isBlank then
      if word ≠ [] then ⟨word.reverse, rest, none⟩ else readWordFrom fault word rest
    else readWordFrom fault (c :: word) rest

def readWord (input : Input) : Reading :=
  readWordFrom input.fault [] input.rest

def leave (input : Input) (reading : Reading) : Input :=
  { input with rest := reading.rest }

end Input

end Script
