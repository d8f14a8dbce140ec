import ApiBinding.Text.Alphanumeric
import ApiBinding.Text.LetterCase

/-!
# Words and word case

A raw name is cut into words, and the words are joined again in another case.
Everything that is neither letter nor number separates words.  Inside a run of
letters and numbers a new word begins at a capital behind a small letter, and at
the last capital of a row of capitals when a small letter follows.

## Main definitions

* `pieces` — the runs of letters and numbers.
* `scanWords` — the words of one run.
* `snakeCase`, `upperCamelCase` — small words joined by `_`, capitalised words
  joined by nothing.
-/

namespace ApiBinding

/-! ### Runs of letters and numbers -/

/-- Cut at every separator; between two separators lies an empty run. -/
def cutRuns : List Char → List Char × List (List Char)
  | [] => ([], [])
  | c :: rest =>
    let (run, runs) := cutRuns rest
    if isAlphanumeric c then (c :: run, runs) else ([], run :: runs)

/-- The nonempty runs of letters and numbers. -/
def pieces (cs : List Char) : List (List Char) :=
  ((cutRuns cs).1 :: (cutRuns cs).2).filter fun run => !run.isEmpty

/-! ### Words of a run -/

/-- The case of the letters seen so far in a word, as far as it matters. -/
inductive WordMode where
  /-- Nothing seen yet. -/
  | boundary
  | lower
  | upper
  deriving DecidableEq, Repr

/-- The mode behind a character: a character without case does not change it. -/
def WordMode.after (mode : WordMode) (c : Char) : WordMode :=
  if isLowercase c then .lower else if isUppercase c then .upper else mode

/-- The words of the rest of a run, of which `word` has been read already as the
beginning of the first.  When a capital is found to begin a word, it does not
count for the mode of that word. -/
def scanWords (mode : WordMode) (word : List Char) : List Char → List (List Char)
  | [] => [word]
  | [c] => [word ++ [c]]
  | c :: next :: rest =>
    if mode.after c = .lower ∧ isUppercase next then
      (word ++ [c]) :: scanWords .boundary [] (next :: rest)
    else if mode = .upper ∧ isUppercase c ∧ isLowercase next then
      word :: scanWords .boundary [c] (next :: rest)
    else scanWords (mode.after c) (word ++ [c]) (next :: rest)

/-- The words of a text. -/
def textWords (cs : List Char) : List (List Char) :=
  (pieces cs).flatMap (scanWords .boundary [])

/-! ### Recasing -/

/-- A word in small letters; a sigma at its end takes the final form. -/
def lowerWord : List Char → List Char
  | [] => []
  | ['Σ'] => ['ς']
  | c :: rest => toLowercase c ++ lowerWord rest

/-- A word with its first character in capitals and the rest in small letters. -/
def capitalizeWord : List Char → List Char
  | [] => []
  | c :: rest => toUppercase c ++ lowerWord rest

/-- Small words joined by `_`. -/
def snakeCase (cs : List Char) : List Char :=
  ['_'].intercalate ((textWords cs).map lowerWord)

/-- Capitalised words joined by nothing. -/
def upperCamelCase (cs : List Char) : List Char := (textWords cs).flatMap capitalizeWord

/-- A text as the middle part of a longer name: its capitalised words. -/
def camelHint (text : String) : String := String.ofList (upperCamelCase text.toList)

end ApiBinding
