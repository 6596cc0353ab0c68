import RegisterLayout.Looped
import RegisterLayout.Number.Basic
import RegisterLayout.Text.Quoted
import RegisterLayout.Value.Calendar

/-!
# Values of a document

What a document holds once its text has been read: scalars, lists and mappings in the order
they were written.  Messages show a value in one of two forms, the plain text of a scalar or
the quoted form, in which texts stand between quotes and collections between brackets.

Principal definitions: `Value`, `Value.text`, `Value.quoted`, `Value.isWritable`, `Value.same`,
`Looped.untied`.
-/

namespace RegisterLayout

/-- A value of a document.  Mappings keep the order of their entries; `tuple`, `set` and `bytes`
come from the tags of their kind only, and `again` stands for a collection that contains itself. -/
inductive Value where
  | null
  | bool (b : Bool)
  | num (n : Number)
  | str (s : Text)
  | date (d : Date)
  | moment (d : Date) (c : Clock)
  | bytes (data : List Nat)
  | list (xs : List Value)
  | tuple (xs : List Value)
  | set (xs : List Value)
  | map (entries : List (Value × Value))
  | again (l : Loop)
  deriving Inhabited, Repr

namespace Value

abbrev int (n : Int) : Value := .num (.int n)

instance : OfNat Value n := ⟨.int n⟩

/-- The number that a value counts as in arithmetic; a truth value counts as `0` or `1`. -/
def number? : Value → Option Number
  | bool b => some (.int (if b then 1 else 0))
  | num n => some n
  | _ => none

@[simp] theorem number?_num (n : Number) : (num n).number? = some n := rfl

/-- The whole number that a value is; a truth value is none. -/
def int? : Value → Option Int
  | num (.int n) => some n
  | _ => none

@[simp] theorem int?_eq_some {v : Value} {n : Int} : v.int? = some n ↔ v = .int n := by
  unfold int?
  split <;> simp_all

/-- A value that counts as a yes: no null, zero, empty text or empty collection. -/
def isTruthy : Value → Bool
  | null => false
  | bool b => b
  | num n => !n.isZero
  | str s => !s.isEmpty
  | bytes data => !data.isEmpty
  | list xs | tuple xs | set xs => !xs.isEmpty
  | map entries => !entries.isEmpty
  | date _ | moment .. | again _ => true

@[simp] theorem isTruthy_str (s : Text) : (str s).isTruthy = !s.isEmpty := rfl

mutual

/-- A test passed by a value and by everything in it. -/
def all (p : Value → Bool) : Value → Bool
  | list xs => p (list xs) && allOf p xs
  | tuple xs => p (tuple xs) && allOf p xs
  | set xs => p (set xs) && allOf p xs
  | map entries => p (map entries) && allOfEntries p entries
  | v => p v
termination_by structural v => v

def allOf (p : Value → Bool) : List Value → Bool
  | [] => true
  | x :: xs => all p x && allOf p xs
termination_by structural xs => xs

def allOfEntries (p : Value → Bool) : List (Value × Value) → Bool
  | [] => true
  | (k, v) :: entries => all p k && all p v && allOfEntries p entries
termination_by structural entries => entries

end

/-! ## Text -/

private def byteText (quote : Char) (n : Nat) : List Char :=
  let c := Char.ofNat n
  if c = quote ∨ c = '\\' then ['\\', c]
  else if c = '\t' then ['\\', 't']
  else if c = '\n' then ['\\', 'n']
  else if c = '\r' then ['\\', 'r']
  else if 0x20 ≤ n ∧ n < 0x7F then [c]
  else
    let digits := Nat.toDigits 16 n
    '\\' :: 'x' :: (List.replicate (2 - digits.length) '0' ++ digits)

private def bytesText (data : List Nat) : Text :=
  let quote := Text.quoteMark (Text.ofChars (data.map Char.ofNat))
  Text.ofChars ('b' :: quote :: data.flatMap (byteText quote) ++ [quote])

private def dateArguments (d : Date) : List String :=
  [toString d.year, toString d.month, toString d.day]

private def dateText (d : Date) : String :=
  "datetime.date(" ++ ", ".intercalate (dateArguments d) ++ ")"

private def zoneText (minutes : Int) : String :=
  if minutes = 0 then "datetime.timezone.utc"
  else "datetime.timezone(" ++ durationText minutes ++ ")"

private def momentText (d : Date) (c : Clock) : String :=
  let seconds := if c.micro = 0 then (if c.second = 0 then [] else [toString c.second])
    else [toString c.second, toString c.micro]
  let zone := (c.zone.map fun z => ["tzinfo=" ++ zoneText z]).getD []
  "datetime.datetime(" ++ ", ".intercalate
    (dateArguments d ++ [toString c.hour, toString c.minute] ++ seconds ++ zone) ++ ")"

private def tupleText : List Text → Text
  | [x] => "(" ++ x ++ ",)"
  | xs => "(" ++ Text.joined ", " xs ++ ")"

private def setText (xs : List Text) : Text :=
  if xs.isEmpty then "set()" else "\x7b" ++ Text.joined ", " xs ++ "\x7d"

mutual

/-- The form of a value inside messages, texts between quotes, when `inner` is the form of the
collections that contain themselves. -/
def quotedBy (inner : Loop → Text) : Value → Text
  | null => "None"
  | bool b => if b then "True" else "False"
  | num n => n.text
  | str s => Text.quoted s
  | date d => dateText d
  | moment d c => momentText d c
  | bytes data => bytesText data
  | list xs => "[" ++ Text.joined ", " (quotedList inner xs) ++ "]"
  | tuple xs => tupleText (quotedList inner xs)
  | set xs => setText (quotedList inner xs)
  | map entries => "\x7b" ++ Text.joined ", " (quotedEntries inner entries) ++ "\x7d"
  | again l => inner l
termination_by structural v => v

def quotedList (inner : Loop → Text) : List Value → List Text
  | [] => []
  | x :: xs => quotedBy inner x :: quotedList inner xs
termination_by structural xs => xs

def quotedEntries (inner : Loop → Text) : List (Value × Value) → List Text
  | [] => []
  | (k, v) :: entries =>
    (quotedBy inner k ++ ": " ++ quotedBy inner v) :: quotedEntries inner entries
termination_by structural entries => entries

end

/-- A collection within itself. -/
def againText (l : Loop) : Text := if l.isMapping then "\x7b...\x7d" else "[...]"

/-- The form of a value inside messages, given the collections that contain themselves. -/
def quotedIn (loops : Loops Value) (v : Value) : Text :=
  v.quotedBy (loops.enter againText quotedBy)

/-- The form of a value inside messages, texts between quotes. -/
def quoted (v : Value) : Text := v.quotedIn []

/-- The plain text of a value: a text is itself, a date is written with dashes. -/
def text : Value → Text
  | str s => s
  | date d => d.text
  | moment d c => (d.text ++ " " ++ c.text : String)
  | v => v.quoted

@[simp] theorem text_str (s : Text) : (str s).text = s := rfl

private def isWritableBy (inner : Loop → Bool) : Value → Bool := all fun
  | num n => n.isWritable
  | again l => inner l
  | _ => true

/-- A value has a text if all numbers in it and in the collections that it opens have. -/
def isWritableIn (loops : Loops Value) (v : Value) : Bool :=
  isWritableBy (loops.enter (fun _ => true) isWritableBy) v

/-- A value has a text if all numbers in it have. -/
def isWritable (v : Value) : Bool := v.isWritableIn []

/-! ## Collections that contain themselves -/

/-- A value in which no collection contains itself. -/
def isLoopFree (v : Value) : Bool := v.all fun | again _ => false | _ => true

/-- The body of a collection that contains itself; any other value is itself. -/
def opened (loops : Loops Value) : Value → Value
  | again l => (loops.lookup l).getD (again l)
  | v => v

theorem opened_nil (v : Value) : v.opened [] = v := by
  cases v <;> rfl

mutual

/-- A value with other values in place of the marks in it. -/
def fill (inner : Loop → Value) : Value → Value
  | list xs => list (fillAll inner xs)
  | tuple xs => tuple (fillAll inner xs)
  | set xs => set (fillAll inner xs)
  | map entries => map (fillEntries inner entries)
  | again l => inner l
  | v => v
termination_by structural v => v

def fillAll (inner : Loop → Value) : List Value → List Value
  | [] => []
  | x :: xs => fill inner x :: fillAll inner xs
termination_by structural xs => xs

def fillEntries (inner : Loop → Value) : List (Value × Value) → List (Value × Value)
  | [] => []
  | (k, v) :: entries => (fill inner k, fill inner v) :: fillEntries inner entries
termination_by structural entries => entries

end

end Value

/-- A value without marks where none of its collections contains itself after all. -/
def Looped.untied (v : Looped Value) : Looped Value :=
  let full := v.root.fill (v.loops.enter .again Value.fill)
  if full.isLoopFree then ⟨full, []⟩ else v

namespace Value

/-! ## Equality of values -/

mutual

/-- Equality by value: numbers compare as numbers, the undefined one being the same as itself, a
truth value as `0` or `1`, and the order of the entries of a mapping does not count. -/
def same : Value → Value → Bool
  | null, w => match w with | null => true | _ => false
  | bool b, w => (w.number?.map (Number.same (.int (if b then 1 else 0)))).getD false
  | num n, w => (w.number?.map fun m => n.same m || n == m).getD false
  | str s, w => match w with | str t => s == t | _ => false
  | date d, w => match w with | date e => d == e | _ => false
  | moment d c, w => match w with
    | moment e k => c.zone.isSome == k.zone.isSome && instant d c == instant e k
    | _ => false
  | bytes a, w => match w with | bytes b => a == b | _ => false
  | list xs, w => match w with | list ys => sameList xs ys | _ => false
  | tuple xs, w => match w with | tuple ys => sameList xs ys | _ => false
  | set xs, w => match w with
    | set ys => xs.length == ys.length && allIn xs ys
    | _ => false
  | map entries, w => match w with
    | map others => entries.length == others.length && entriesIn entries others
    | _ => false
  | again l, w => match w with | again k => l == k | _ => false
termination_by structural v => v

def sameList : List Value → List Value → Bool
  | [], ys => ys.isEmpty
  | x :: xs, ys => match ys with
    | y :: ys => same x y && sameList xs ys
    | [] => false
termination_by structural xs => xs

def allIn : List Value → List Value → Bool
  | [], _ => true
  | x :: xs, ys => ys.any (fun y => same x y) && allIn xs ys
termination_by structural xs => xs

def entriesIn : List (Value × Value) → List (Value × Value) → Bool
  | [], _ => true
  | (k, v) :: entries, others =>
    others.any (fun (l, w) => same k l && same v w) && entriesIn entries others
termination_by structural entries => entries

end

/-! ## Mappings -/

/-- An entry put into a mapping: at the place of the one with the same key, or at the end. -/
def putEntry (entries : List (Value × Value)) (key value : Value) : List (Value × Value) :=
  if entries.any fun (k, _) => k.same key then
    entries.map fun (k, v) => if k.same key then (k, value) else (k, v)
  else entries ++ [(key, value)]

/-- The entries of a mapping into which pairs are put one after the other. -/
def putEntries (pairs : List (Value × Value)) : List (Value × Value) :=
  pairs.foldl (fun entries (key, value) => putEntry entries key value) []

/-- A value that can be a key: collections that may change cannot, nor what holds one. -/
def isKey (v : Value) : Bool := v.all fun | list _ | set _ | map _ | again _ => false | _ => true

/-- The entry of a mapping under a text, the key being unique in it. -/
def lookup? (entries : List (Value × Value)) (key : Text) : Option Value :=
  (entries.find? fun (k, _) => match k with | str s => s == key | _ => false).map Prod.snd

end Value

end RegisterLayout
