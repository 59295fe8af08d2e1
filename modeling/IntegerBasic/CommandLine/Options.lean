import IntegerBasic.Text.DecimalDigit

/-!
# Options on a command line

Arguments are words. A word that begins with a dash names an option, in full or by a beginning
that only one option has; a value follows as the next word, behind an equals sign, or right
behind a one-letter name. A double dash in place of that value gives the option nothing.
One-letter options without a value can share a dash. A negative number and a word with a space
in it are never options, and behind a double dash no word is one.
-/

namespace IntegerBasic.CommandLine

structure Switch (α : Type) where
  name : α
  spellings : List (List Char)
  takesValue : Bool

structure Named (α : Type) where
  option : Switch α
  spelling : List Char
  value : Option (List Char)

inductive Argument (α : Type) where
  | plain (text : List Char)
  | dashes
  /-- A word that looks like an option, with the option if there is one. -/
  | option (text : List Char) (named : Option (Named α))

def Argument.text {α : Type} : Argument α → List Char
  | .plain text => text
  | .dashes => ['-', '-']
  | .option text _ => text

variable {α : Type}

def spelled? (options : List (Switch α)) (spelling : List Char) : Option (Switch α) :=
  options.find? (·.spellings.contains spelling)

def allSpellings (options : List (Switch α)) : List (Switch α × List Char) :=
  options.flatMap fun o => o.spellings.map (o, ·)

def splitEquals (word : List Char) : List Char × Option (List Char) :=
  match word.dropWhile (· != '=') with
  | [] => (word, none)
  | _ :: value => (word.takeWhile (· != '='), some value)

/-- The options that a word can stand for without being spelled out. -/
def abbreviated (options : List (Switch α)) (word : List Char) : List (Named α) :=
  match word with
  | '-' :: '-' :: _ =>
    let (stem, value) := splitEquals word
    (allSpellings options).filterMap fun (o, spelling) =>
      if stem.isPrefixOf spelling then some ⟨o, spelling, value⟩ else none
  | '-' :: letter :: rest =>
    (allSpellings options).filterMap fun (o, spelling) =>
      if spelling == ['-', letter] then some ⟨o, spelling, some rest⟩
      else if word.isPrefixOf spelling then some ⟨o, spelling, none⟩
      else none
  | _ => []

def isDecimal (c : Char) : Bool := (Text.digitValue? c).isSome

def dropLineFeed (word : List Char) : List Char :=
  if word.getLast? = some '\n' then word.dropLast else word

/-- A dash and a number, with or without a fraction. A line feed may follow. -/
def isNegativeNumber (word : List Char) : Bool :=
  match dropLineFeed word with
  | '-' :: digits =>
    match digits.dropWhile isDecimal with
    | [] => !digits.isEmpty
    | '.' :: fraction => !fraction.isEmpty && fraction.all isDecimal
    | _ => false
  | _ => false

/-- What a word looks like; none if it could be the beginning of more than one option. -/
def classify? (options : List (Switch α)) (word : List Char) : Option (Argument α) :=
  match word with
  | '-' :: _ :: _ =>
    match spelled? options word with
    | some o => some (.option word (some ⟨o, word, none⟩))
    | none =>
      let (stem, value) := splitEquals word
      match value, spelled? options stem with
      | some value, some o => some (.option word (some ⟨o, stem, some value⟩))
      | _, _ =>
        match abbreviated options word with
        | [] =>
          if isNegativeNumber word || word.contains ' ' then some (.plain word)
          else some (.option word none)
        | [named] => some (.option word (some named))
        | _ => none
  | _ => some (.plain word)

def classifyAll? (options : List (Switch α)) : List (List Char) → Option (List (Argument α))
  | [] => some []
  | word :: more =>
    if word = ['-', '-'] then some (.dashes :: more.map .plain)
    else do return (← classify? options word) :: (← classifyAll? options more)

inductive Event (α : Type) where
  | flag (name : α)
  | value (name : α) (text : List Char)
  /-- An option that is given nothing. -/
  | blank (name : α)
  | positional (text : List Char)
  /-- A word that nothing asks for. -/
  | extra (text : List Char)
  /-- An option without its value, or with one that it does not take. -/
  | bad

/-- What an option gives with a value in its own word. -/
def attached (o : Switch α) (value : List Char) : Event α :=
  if value = ['-', '-'] then .blank o.name else .value o.name value

/-- What an option gives, and whether it takes the next word as its value. Options that share a
dash are given together, and every letter has to name one. -/
def named (options : List (Switch α)) (next : Option (List Char)) :
    Switch α → List Char → Option (List Char) → Option (List (Event α) × Bool)
  | o, _, none =>
    if o.takesValue then next.map fun text => ([.value o.name text], true)
    else some ([.flag o.name], false)
  | o, spelling, some value =>
    if o.takesValue then some ([attached o value], false)
    else
      match spelling, value with
      | '-' :: '-' :: _, _ | _, [] => none
      | _, letter :: rest =>
        match spelled? options ['-', letter] with
        | none => none
        | some other =>
          (named options next other ['-', letter] (if rest.isEmpty then none else some rest)).map
            fun (events, takesNext) => (.flag o.name :: events, takesNext)
termination_by _ _ value => value.elim 0 (·.length)
decreasing_by split <;> simp

/-- The next word, if it can be the value of an option. -/
def plainHead : List (Argument α) → Option (List Char)
  | .plain text :: _ => some text
  | _ => none

/-- What happens on the command line of a command with at most one positional argument, which
is still wanted or not. -/
def events (options : List (Switch α)) (wanted : Bool) (arguments : List (Argument α)) :
    List (Event α) :=
  match arguments with
  | [] => []
  | .option text none :: rest => .extra text :: events options wanted rest
  | .option _ (some n) :: rest =>
    match named options (plainHead rest) n.option n.spelling n.value with
    | none => [.bad]
    | some (found, takesNext) =>
      found ++ events options wanted (if takesNext then rest.tail else rest)
  | .dashes :: rest =>
    if wanted && !rest.isEmpty then events options wanted rest
    else .extra ['-', '-'] :: events options wanted rest
  | .plain text :: .dashes :: rest =>
    if wanted then .positional text :: events options false rest
    else .extra text :: events options wanted (.dashes :: rest)
  | .plain text :: rest =>
    if wanted then .positional text :: events options false rest
    else .extra text :: events options wanted rest
termination_by arguments.length
decreasing_by
  all_goals simp only [List.length_cons]
  all_goals try omega
  split
  · simp only [List.length_tail]; omega
  · omega

/-- What happens up to the first plain word, and the words from there on. A double dash before
that word is not allowed. -/
def leading (options : List (Switch α)) (arguments : List (Argument α)) :
    List (Event α) × List (List Char) :=
  match arguments with
  | [] => ([], [])
  | .option text none :: rest =>
    let (more, words) := leading options rest
    (.extra text :: more, words)
  | .option _ (some n) :: rest =>
    match named options (plainHead rest) n.option n.spelling n.value with
    | none => ([.bad], [])
    | some (found, takesNext) =>
      let (more, words) := leading options (if takesNext then rest.tail else rest)
      (found ++ more, words)
  | .dashes :: _ => ([.bad], [])
  | .plain text :: rest => ([], text :: rest.map (·.text))
termination_by arguments.length
decreasing_by
  all_goals simp only [List.length_cons]
  · omega
  · split
    · simp only [List.length_tail]; omega
    · omega

end IntegerBasic.CommandLine
