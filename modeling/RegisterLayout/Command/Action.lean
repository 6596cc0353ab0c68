import RegisterLayout.Command.Argument
import RegisterLayout.Command.Options

/-!
# Actions of the arguments

Classified arguments become actions, each switch with its value, and the actions are carried out
in order.  The models have to stand together.

Principal definitions: `Action`, `actions`, `PartialOptions.apply`, `Options.ofArguments`.
-/

namespace RegisterLayout

/-- What the arguments demand, in order. -/
inductive Action where
  | turn (s : Switch)
  | set (s : Switch) (value : String)
  | model (name : String)
  | separator
  | stray
  | fail
  deriving Repr

/-- The actions of classified arguments, `waiting` being the switches that need the next one: a
value is present before any switch of its group acts. -/
def actions (waiting : Option (List Switch × Switch)) : List Argument → List Action
  | [] => if waiting.isSome then [.fail] else []
  | argument :: rest =>
    match waiting, argument with
    | some (plain, s), .plain value =>
      plain.map .turn ++ .set s value :: actions none rest
    | some _, _ => [.fail]
    | none, .plain name => .model name :: actions none rest
    | none, .separator => .separator :: actions none rest
    | none, .unknown => .stray :: actions none rest
    | none, .broken => [.fail]
    | none, .switches ⟨plain, none⟩ => plain.map .turn ++ actions none rest
    | none, .switches ⟨plain, some (s, some value)⟩ =>
      plain.map .turn ++ .set s value :: actions none rest
    | none, .switches ⟨plain, some (s, none)⟩ => actions (some (plain, s)) rest

/-- Where the reading is with regard to the models. -/
inductive Phase where
  | before
  | within
  | after
  deriving DecidableEq, Repr

/-- Options that are being read. -/
structure PartialOptions where
  options : Options := {}
  phase : Phase := .before
  /-- There is an argument with no use. -/
  stray : Bool := false
  deriving Repr

namespace PartialOptions

/-- A switch between models ends them. -/
def pause (r : PartialOptions) : PartialOptions :=
  if r.phase = .within then { r with phase := .after } else r

def turn (r : PartialOptions) (s : Switch) : Except Refusal PartialOptions :=
  let o := r.options
  let set (o : Options) : Except Refusal PartialOptions := .ok { r.pause with options := o }
  match s with
  | .help => .error .help
  | .noDiagram => set { o with diagram := false }
  | .noAccessors => set { o with declarations := false }
  | .docComments =>
    set { o with declarationOptions := { o.declarationOptions with docComments := true } }
  | .ignoreAccess =>
    set { o with declarationOptions := { o.declarationOptions with honorAccess := false } }
  | .table => set { o with table := true }
  | .verbose => set { o with verbose := true }
  | .quiet => set { o with quiet := true }
  | .style | .output => .error .misuse

/-- The value of a switch, which a separator is not. -/
def valueOf (text : String) : Option String := if text = "--" then none else some text

/-- The last value of a switch counts.  An empty file name is none. -/
def set (r : PartialOptions) (s : Switch) (text : String) : Except Refusal PartialOptions :=
  match s with
  | .style =>
    match (valueOf text).mapM fun name => Style.ofValue (.str name) with
    | .ok style => .ok { r.pause with options := { r.options with style } }
    | .error _ => .error .misuse
  | .output =>
    let output := (valueOf text).filter (· ≠ "")
    .ok { r.pause with options := { r.options with output } }
  | _ => .error .misuse

def addModel (r : PartialOptions) (name : String) : PartialOptions :=
  if r.phase = .after then { r with stray := true }
  else
    { r with
      phase := .within
      options := { r.options with models := r.options.models ++ [name] } }

def apply (r : PartialOptions) : Action → Except Refusal PartialOptions
  | .turn s => r.turn s
  | .set s value => r.set s value
  | .model name => .ok (r.addModel name)
  | .separator =>
    .ok (if r.phase = .after then { r with stray := true } else { r with phase := .within })
  | .stray => .ok { r.pause with stray := true }
  | .fail => .error .misuse

/-- The options, if there is at least one model and no argument is left over. -/
def finish (r : PartialOptions) : Except Refusal Options :=
  if r.stray || r.options.models.isEmpty then .error .misuse else .ok r.options

end PartialOptions

/-- The options that the arguments of the command ask for. -/
def Options.ofArguments (arguments : List String) : Except Refusal Options :=
  match Argument.ofTexts? arguments with
  | none => .error .misuse
  | some classified => do
    let r ← (actions none classified).foldlM PartialOptions.apply {}
    r.finish

end RegisterLayout
